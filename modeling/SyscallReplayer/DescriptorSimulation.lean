import SyscallReplayer.SuccessfulRecords
import SyscallReplayer.TracedKernel

/-!
# The tables simulate the traced kernel's

After calls that succeeded in the trace, the table of each process has the
descriptors that are open in the traced process, and the bit that `execve` looks
at, as long as the calls stay clear of what the modules get wrong.
-/

namespace SyscallReplayer.DescriptorSimulation

open Std (ExtTreeMap)
open CInt SharedEntries SharingGroups ReplayKernel ResourcesManager ReplayWorld
open ReplayModules StatePrograms TransitionSystem World ReplayRuns ResourceSteps GroupedTables
open SuccessfulRecords TracedKernel

/-- Every live process has its open descriptors in its table, with the recorded
close-on-exec bits. -/
def Agrees (k : Groups Int Descriptors) (w : World) : Prop :=
  ∀ pid d, k.value pid = some d → ∃ t, w.table pid = some t ∧
    (∀ fd, 0 ≤ fd → t.hasFd fd = (d fd).isSome) ∧
    ∀ fd x, d fd = some x → x.recorded = true →
      (t.getFlags fd).map closesOnExec = some x.cloexec

/-! ## The calls that the tables can follow -/

/-- The close-on-exec bit that is stored for a descriptor. -/
def storedCloexec (w : World) (pid fd : Int) : Bool :=
  ((w.manager.getFlags pid fd).map closesOnExec).getD false

/-- `execve` does not copy a shared table, takes the value that its module held
for that of the call, and trusts the bits that were stored without a record. -/
structure FollowsExecve (k : Groups Int Descriptors) (w : World) (a : Execution) : Prop where
  alone : ∀ pid, k.mates pid a.pid → pid = a.pid
  closes : 0 ≤ a.held ∨ ∀ t (fd : Int) e, w.table a.pid = some t → t[fd]? = some e →
    closesOnExec e.flags = true → e.fd = syscallSimulated
  guessed : ∀ d fd x, k.value a.pid = some d → d fd = some x → x.recorded = false →
    storedCloexec w a.pid fd = x.cloexec

/-- What keeps a call clear of what its module gets wrong: `dup2` clears the
stored bit, `dup3` copies it, `F_SETFD` only ever sets it, `accept4` leaves out 0
and `CLONE_THREAD` alone shares the table. -/
def Follows (k : Groups Int Descriptors) (w : World) (a : Execution) : Prop :=
  match a.kind with
  | .openat => a.queued = true ∨
      ¬(w.resolves a.pid (a.row.int .descriptor) = some syscallSimulated ∧
        relative (a.row.text .given_pathname) = true)
  | .dup2 => a.row.int .old_descriptor = a.row.int .new_descriptor →
      ∀ d x, k.value a.pid = some d → d (a.row.int .old_descriptor) = some x →
        x.recorded = true → x.cloexec = false
  | .dup3 =>
      storedCloexec w a.pid (a.row.int .old_descriptor) = asksCloexec (a.row.int .flags)
  | .fcntl => a.row.int .command_value = fSetfd →
      a.row.int .argument_value = fdCloexec ∨
        storedCloexec w a.pid (a.row.int .descriptor) = (a.row.int .argument_value % 2 = 1 : Bool)
  | .accept4 => a.returnValue ≠ 0
  | .clone => BitVec.ofInt 32 (a.row.int .flag_value) &&& cloneThread ≠ 0 →
      BitVec.ofInt 32 (a.row.int .flag_value) &&& cloneFiles ≠ 0
  | .execve => FollowsExecve k w a
  | _ => True

/-! ## One table -/

/-- The flags are those of the open descriptors, as far as they are recorded. -/
structure Matches (f : Flags) (d : Descriptors) : Prop where
  isFd : ∀ {fd x}, d fd = some x → isFd fd = true
  mapped : ∀ fd, 0 ≤ fd → (f fd).isSome = (d fd).isSome
  cloexec : ∀ {fd x flags}, d fd = some x → x.recorded = true → f fd = some flags →
    closesOnExec flags = x.cloexec

section

variable {f : Flags} {d d' : Descriptors} {fd : Int} {x : Descriptor} {flags : BitVec 32}

namespace Matches

theorem exists_flags (h : Matches f d) (hfd : d fd = some x) : ∃ flags, f fd = some flags := by
  rw [← Option.isSome_iff_exists, h.mapped fd (isFd_nonneg (h.isFd hfd)), hfd]
  rfl

theorem update {entered : Option (BitVec 32)} {opened : Option Descriptor} (h : Matches f d)
    (hopened : entered.isSome = opened.isSome)
    (hfd : opened.isSome = true → ReplayKernel.isFd fd = true)
    (hcloexec : ∀ x flags, opened = some x → x.recorded = true → entered = some flags →
      closesOnExec flags = x.cloexec) :
    Matches (Function.update f fd entered) (Function.update d fd opened) := by
  constructor
  · intro a y hy
    rw [Function.update_apply] at hy
    split at hy
    · rename_i ha
      rw [ha]
      apply hfd
      rw [hy]
      rfl
    · exact h.isFd hy
  · intro a ha
    rw [Function.update_apply, Function.update_apply]
    split
    · exact hopened
    · exact h.mapped a ha
  · intro a y stored hy hrecorded hstored
    rw [Function.update_apply] at hy hstored
    split at hy
    · rename_i ha
      rw [if_pos ha] at hstored
      exact hcloexec y stored hy hrecorded hstored
    · rename_i ha
      rw [if_neg ha] at hstored
      exact h.cloexec hy hrecorded hstored

theorem insert (h : Matches f d) (hfd : ReplayKernel.isFd fd = true)
    (hx : x.recorded = true → closesOnExec flags = x.cloexec) :
    Matches (Function.update f fd (some flags)) (Function.update d fd (some x)) := by
  refine h.update rfl (fun _ => hfd) ?_
  intro y stored hy hrecorded hstored
  obtain rfl := Option.some.inj hy
  obtain rfl := Option.some.inj hstored
  exact hx hrecorded

theorem erase (h : Matches f d) (fd : Int) :
    Matches (Function.update f fd none) (Function.update d fd none) := by
  refine h.update rfl (fun hopen => absurd hopen Bool.false_ne_true) ?_
  intro y stored hy
  cases hy

theorem setFlags (h : Matches f d) (hfd : d fd = some x)
    (hx : x.recorded = true → closesOnExec flags = x.cloexec) :
    Matches (Function.update f fd (some flags)) d := by
  have hinsert := h.insert (h.isFd hfd) hx
  rwa [← hfd, Function.update_eq_self] at hinsert

theorem setCloexec {y : Descriptor} (h : Matches f d) (hfd : d fd = some x)
    (hflags : f fd = some flags) (hy : closesOnExec flags = y.cloexec) :
    Matches f (Function.update d fd (some y)) := by
  have hinsert := h.insert (x := y) (h.isFd hfd) fun _ => hy
  rwa [← hflags, Function.update_eq_self] at hinsert

theorem opensAt (h : Matches f d) (hopens : opensAt fd x d = some d') :
    ReplayKernel.isFd fd = true ∧ f fd = none ∧
      ∀ flags, (x.recorded = true → closesOnExec flags = x.cloexec) →
        Matches (Function.update f fd (some flags)) d' := by
  unfold TracedKernel.opensAt at hopens
  split at hopens
  · rename_i hnew
    obtain rfl := Option.some.inj hopens
    refine ⟨hnew.1, ?_, fun flags hx => h.insert hnew.1 hx⟩
    rw [← Option.not_isSome_iff_eq_none, h.mapped fd (isFd_nonneg hnew.1), hnew.2]
    exact Bool.false_ne_true
  · cases hopens

theorem redirects {oldFd newFd : Int} (h : Matches f d)
    (hredirects : redirects oldFd newFd x d = some d') :
    ReplayKernel.isFd newFd = true ∧ (∃ oldFlags, f oldFd = some oldFlags) ∧
      ∀ flags, (x.recorded = true → closesOnExec flags = x.cloexec) →
        Matches (Function.update f newFd (some flags)) d' := by
  unfold TracedKernel.redirects at hredirects
  split at hredirects
  · rename_i hopen
    obtain rfl := Option.some.inj hredirects
    obtain ⟨y, hy⟩ := Option.isSome_iff_exists.mp hopen.1
    exact ⟨hopen.2, h.exists_flags hy, fun flags hx => h.insert hopen.2 hx⟩
  · cases hredirects

end Matches

end

/-! ## The calls that change one table -/

@[simp] theorem closesOnExec_cleared (flags : BitVec 32) :
    closesOnExec (flags &&& ~~~oCloexec) = false := by
  unfold closesOnExec
  rw [BitVec.and_assoc, BitVec.not_and_self]
  simp

@[simp] theorem closesOnExec_set (flags : BitVec 32) :
    closesOnExec (flags ||| oCloexec) = true := by
  simp only [closesOnExec, decide_eq_true_eq, ne_eq]
  intro hzero
  have hbit := congrArg (fun x : BitVec 32 => x.getLsbD 19) hzero
  simp [oCloexec] at hbit

section

variable {k : Groups Int Descriptors} {w : World} {c : TracedCall} {t : FdTable}
  {d d' : Descriptors} {fd : Int} {x : Descriptor}

theorem getElem?_of_flagsOf {flags : BitVec 32} (h : flagsOf t fd = some flags) :
    ∃ e, t[fd]? = some e ∧ e.flags = flags :=
  Option.map_eq_some_iff.mp h

theorem getElem?_of_flagsOf_none (h : flagsOf t fd = none) : t[fd]? = none :=
  Option.map_eq_none_iff.mp h

theorem storedCloexec_eq {pid : Int} (ht : w.table pid = some t) {flags : BitVec 32}
    (h : flagsOf t fd = some flags) : storedCloexec w pid fd = closesOnExec flags := by
  have hflags : w.manager.getFlags pid fd = some flags := by
    show (w.table pid).bind _ = _
    rw [ht]
    exact h
  rw [storedCloexec, hflags]
  rfl

theorem pair_matches {w' : World} {readFd writeFd : Int} (ht : w.table c.call.pid = some t)
    (hw' : w'.manager = w.manager) (hmatch : Matches (flagsOf t) d)
    (hx : x.recorded = true → x.cloexec = false)
    (hd : (opensAt readFd x d).bind (opensAt writeFd x) = some d') (value : Int) :
    ∃ f, LeavesFlags w c.call.pid f ((addFd c.call.pid readFd syscallSimulated 0 >>= fun _ =>
        addFd c.call.pid writeFd syscallSimulated 0 >>= fun _ => (pure value : Replay Int)) w') ∧
      Matches f d' := by
  have hzero : x.recorded = true → closesOnExec 0 = x.cloexec := fun hrecorded =>
    (hx hrecorded).symm
  obtain ⟨d₁, hread, hwrite⟩ := Option.bind_eq_some_iff.mp hd
  obtain ⟨hreadFd, hnewRead, hmatch₁⟩ := hmatch.opensAt hread
  obtain ⟨hwriteFd, hnewWrite, hmatch₂⟩ := (hmatch₁ 0 hzero).opensAt hwrite
  have hne : writeFd ≠ readFd := by
    rintro rfl
    rw [Function.update_self] at hnewWrite
    cases hnewWrite
  rw [Function.update_of_ne hne] at hnewWrite
  exact ⟨_, pair_leavesFlags ht hw' hreadFd hwriteFd (getElem?_of_flagsOf_none hnewRead)
    (getElem?_of_flagsOf_none hnewWrite) hne.symm value, hmatch₂ 0 hzero⟩

theorem dup2_matches (ht : w.table c.call.pid = some t) (hk : k.value c.call.pid = some d)
    (hmatch : Matches (flagsOf t) d) (hkind : c.call.kind = .dup2)
    (hd : descriptorsAfter c d = some d') (hok : Follows k w c.call) :
    ∃ f, LeavesFlags w c.call.pid f (dup2ProcessRow c.call.pid c.call.returnValue
        (c.call.row.int .old_descriptor) (c.call.row.int .new_descriptor) w) ∧ Matches f d' := by
  unfold Follows at hok
  rw [hkind] at hok
  unfold descriptorsAfter at hd
  rw [hkind] at hd
  dsimp only at hok hd
  split at hd
  · cases hd
  · rename_i hret
    rw [not_not] at hret
    rw [← hret] at hd hok ⊢
    unfold dup2ProcessRow
    split at hd
    · rename_i hsame
      obtain ⟨x, hx, hd⟩ := Option.map_eq_some_iff.mp hd
      obtain rfl := hd
      obtain ⟨flags, hflags⟩ := hmatch.exists_flags hx
      obtain ⟨e, he, -⟩ := getElem?_of_flagsOf hflags
      refine ⟨_, duplicateTo_leavesFlags ht he (hsame ▸ hmatch.isFd hx) _ _, ?_⟩
      apply hmatch.setFlags (hsame ▸ hx)
      intro hrecorded
      rw [closesOnExec_cleared, hok hsame d x hk hx hrecorded]
    · obtain ⟨hfd, ⟨flags, hflags⟩, hnew⟩ := hmatch.redirects hd
      obtain ⟨e, he, -⟩ := getElem?_of_flagsOf hflags
      exact ⟨_, duplicateTo_leavesFlags ht he hfd _ _, hnew _ fun _ => closesOnExec_cleared _⟩

theorem dup3_matches (ht : w.table c.call.pid = some t) (hmatch : Matches (flagsOf t) d)
    (hkind : c.call.kind = .dup3) (hd : descriptorsAfter c d = some d')
    (hok : Follows k w c.call) :
    ∃ f, LeavesFlags w c.call.pid f (dup3ProcessRow c.call.pid c.call.returnValue
        (c.call.row.int .old_descriptor) (c.call.row.int .new_descriptor)
        (c.call.row.int .flags) w) ∧ Matches f d' := by
  unfold Follows at hok
  rw [hkind] at hok
  unfold descriptorsAfter at hd
  rw [hkind] at hd
  dsimp only at hok hd
  split at hd
  · cases hd
  · rename_i hret
    rw [not_not] at hret
    split at hd
    · cases hd
    · obtain ⟨hfd, ⟨flags, hflags⟩, hnew⟩ := hmatch.redirects hd
      obtain ⟨e, he, heflags⟩ := getElem?_of_flagsOf hflags
      rw [storedCloexec_eq ht hflags] at hok
      rw [← hret]
      exact ⟨_, duplicateTo_leavesFlags ht he hfd _ _, hnew _ fun _ => heflags ▸ hok⟩

theorem fcntl_matches (ht : w.table c.call.pid = some t) (hmatch : Matches (flagsOf t) d)
    (hkind : c.call.kind = .fcntl) (hd : descriptorsAfter c d = some d')
    (hok : Follows k w c.call) (type whence start length lockPid : Int) :
    ∃ f, LeavesFlags w c.call.pid f (fcntlProcessRow c.call.pid c.call.returnValue
        (c.call.row.int .descriptor) (c.call.row.int .command_value)
        (c.call.row.int .argument_value) type whence start length lockPid w) ∧ Matches f d' := by
  unfold Follows at hok
  rw [hkind] at hok
  unfold descriptorsAfter at hd
  rw [hkind] at hd
  dsimp only at hok hd
  split at hd
  · cases hd
  rename_i hopen
  obtain ⟨x, hx⟩ := Option.ne_none_iff_exists'.mp fun hnone =>
    hopen (Option.isNone_iff_eq_none.mpr hnone)
  obtain ⟨flags, hflags⟩ := hmatch.exists_flags hx
  obtain ⟨e, he, heflags⟩ := getElem?_of_flagsOf hflags
  split at hd
  · rename_i hdup
    obtain ⟨hfd, hunmapped, hnew⟩ := hmatch.opensAt hd
    refine ⟨_, fcntl_dup_leavesFlags ht _ _ _ _ _ _ (.inl hdup) he hfd
      (getElem?_of_flagsOf_none hunmapped), hnew _ fun _ => ?_⟩
    rw [hdup, if_neg (by decide), closesOnExec_cleared]
  split at hd
  · rename_i hdup
    obtain ⟨hfd, hunmapped, hnew⟩ := hmatch.opensAt hd
    refine ⟨_, fcntl_dup_leavesFlags ht _ _ _ _ _ _ (.inr hdup) he hfd
      (getElem?_of_flagsOf_none hunmapped), hnew _ fun _ => ?_⟩
    rw [if_pos hdup, closesOnExec_set]
  rename_i hnotDupfd hnotCloexec
  have hnotDup : ¬(c.call.row.int .command_value = fDupfd ∨
      c.call.row.int .command_value = fDupfdCloexec) := by
    rintro (hdup | hdup)
    · exact hnotDupfd hdup
    · exact hnotCloexec hdup
  split at hd
  · rename_i hset
    obtain rfl := Option.some.inj hd
    by_cases harg : c.call.row.int .argument_value = fdCloexec
    · rw [hset, harg]
      refine ⟨_, fcntl_setfd_leavesFlags ht _ _ _ _ _ he, ?_⟩
      exact hmatch.insert (hmatch.isFd hx) fun _ => closesOnExec_set _
    · refine ⟨_, fcntl_other_leavesFlags ht _ _ _ _ _ _ hnotDup fun hboth => harg hboth.2, ?_⟩
      have hstored := (hok hset).resolve_left harg
      rw [storedCloexec_eq ht hflags] at hstored
      exact hmatch.setCloexec hx hflags hstored
  · rename_i hset
    obtain rfl := Option.some.inj hd
    exact ⟨_, fcntl_other_leavesFlags ht _ _ _ _ _ _ hnotDup fun hboth => hset hboth.1, hmatch⟩

/-- The programs of the calls that change one table do to it what the kernel
does. -/
theorem program_matches {program : Replay Int} (hprogram : TableProgram c.call program)
    (ht : w.table c.call.pid = some t) {umask : BitVec 32}
    (humask : w.manager.getUmask c.call.pid = some umask) (hk : k.value c.call.pid = some d)
    (hmatch : Matches (flagsOf t) d) (hd : descriptorsAfter c d = some d')
    (hok : Follows k w c.call) :
    ∃ f, LeavesFlags w c.call.pid f (program w) ∧ Matches f d' := by
  have hopened : ∀ {x : Descriptor} {ret : Int}, opensAt ret x d = some d' →
      isFd ret = true ∧ t[ret]? = none ∧
        ∀ flags, (x.recorded = true → closesOnExec flags = x.cloexec) →
          Matches (Function.update (flagsOf t) ret (some flags)) d' := by
    intro x ret hopens
    obtain ⟨hfd, hunmapped, hnew⟩ := hmatch.opensAt hopens
    exact ⟨hfd, getElem?_of_flagsOf_none hunmapped, hnew⟩
  cases hprogram with
  | open_ tracedFd hkind htraced =>
      have hopens : opensAt c.call.returnValue
          ⟨asksCloexec (c.call.row.int .open_value), true⟩ d = some d' := by
        unfold descriptorsAfter at hd
        rcases hkind with hkind | ⟨hkind, -⟩
        · rw [hkind] at hd
          exact hd
        · rw [hkind] at hd
          exact hd
      obtain ⟨hfd, hunmapped, hnew⟩ := hopened hopens
      have htracedFd : tracedFd = c.call.returnValue := by
        rw [htraced, int32_of_isFd hfd, ite_self]
      rw [htracedFd]
      exact ⟨_, open_leavesFlags ht humask hfd hunmapped _ _ _, hnew _ fun _ => rfl⟩
  | openat hkind hqueued =>
      unfold descriptorsAfter at hd
      rw [hkind] at hd
      unfold Follows at hok
      rw [hkind, hqueued] at hok
      obtain ⟨hfd, hunmapped, hnew⟩ := hopened hd
      refine ⟨_, openat_leavesFlags ht humask hfd hunmapped ?_, hnew _ fun _ => rfl⟩
      rintro ⟨hsimulated, hrelative⟩
      refine hok.resolve_left Bool.false_ne_true ⟨?_, hrelative⟩
      rw [resolves_of_table ht, hsimulated]
  | creat hkind _ =>
      unfold descriptorsAfter at hd
      rw [hkind] at hd
      obtain ⟨hfd, hunmapped, hnew⟩ := hopened hd
      exact ⟨_, creat_leavesFlags ht humask hfd hunmapped, hnew _ fun _ => by decide⟩
  | close _ hkind =>
      unfold descriptorsAfter at hd
      rw [hkind] at hd
      obtain ⟨x, -, rfl⟩ := Option.map_eq_some_iff.mp hd
      exact ⟨_, close_leavesFlags ht _ _, hmatch.erase _⟩
  | dup hkind =>
      unfold descriptorsAfter at hd
      rw [hkind] at hd
      dsimp only at hd
      split at hd
      · rename_i hopen
        obtain ⟨x, hx⟩ := Option.isSome_iff_exists.mp hopen
        obtain ⟨flags, hflags⟩ := hmatch.exists_flags hx
        obtain ⟨e, he, -⟩ := getElem?_of_flagsOf hflags
        obtain ⟨hfd, hunmapped, hnew⟩ := hopened hd
        exact ⟨_, dup_leavesFlags ht he hfd hunmapped, hnew _ fun _ => closesOnExec_cleared _⟩
      · cases hd
  | dup2 hkind => exact dup2_matches ht hk hmatch hkind hd hok
  | dup3 hkind => exact dup3_matches ht hmatch hkind hd hok
  | fcntl hkind => exact fcntl_matches ht hmatch hkind hd hok _ _ _ _ _
  | pipe hkind =>
      unfold descriptorsAfter at hd
      rw [hkind] at hd
      unfold pipeProcessRow
      rw [bind_of_eq_some (intSyscall_apply _ w)]
      exact pair_matches ht (serve_manager w _) hmatch (fun _ => rfl) hd _
  | socket hkind =>
      unfold descriptorsAfter at hd
      rw [hkind] at hd
      obtain ⟨hfd, hunmapped, hnew⟩ := hopened hd
      exact ⟨_, simulateDescriptor_leavesFlags ht hfd hunmapped _, hnew _ fun _ => rfl⟩
  | socketpair hkind =>
      unfold descriptorsAfter at hd
      rw [hkind] at hd
      exact pair_matches ht rfl hmatch (fun hrecorded => absurd hrecorded Bool.false_ne_true) hd _
  | accept hkind =>
      unfold descriptorsAfter at hd
      rw [hkind] at hd
      obtain ⟨hfd, hunmapped, hnew⟩ := hopened hd
      exact ⟨_, simulateDescriptor_leavesFlags ht hfd hunmapped _, hnew _ fun _ => by decide⟩
  | accept4 hkind =>
      unfold descriptorsAfter at hd
      rw [hkind] at hd
      unfold Follows at hok
      rw [hkind] at hok
      obtain ⟨hfd, hunmapped, hnew⟩ := hopened hd
      exact ⟨_, accept4_leavesFlags ht hfd hunmapped hok,
        hnew _ fun hrecorded => absurd hrecorded Bool.false_ne_true⟩
  | exit hkind | execve hkind | clone hkind | vfork hkind =>
      unfold descriptorsAfter at hd
      rw [hkind] at hd
      cases hd

end

/-! ## All tables -/

/-- The entries of the manager represent the kernel's tables. -/
def TablesMatch (k : Groups Int Descriptors) (w : World) : Prop :=
  ∃ g, Represents flagsOf w.manager.fdTableMap g ∧ Related Matches g k

namespace TablesMatch

variable {k : Groups Int Descriptors} {w w' : World} {pid child : Int} {d : Descriptors}
  {t s : FdTable}

theorem exists_table (h : TablesMatch k w) (hk : k.value pid = some d) :
    ∃ t, w.table pid = some t ∧ Matches (flagsOf t) d := by
  obtain ⟨g, hrepresents, hrelated⟩ := h
  obtain ⟨f, hf, hmatch⟩ := hrelated.exists_value hk
  rw [hrepresents.value] at hf
  obtain ⟨t, ht, rfl⟩ := Option.map_eq_some_iff.mp hf
  exact ⟨t, ht, hmatch⟩

theorem agrees (h : TablesMatch k w) : Agrees k w := by
  intro pid d hd
  obtain ⟨t, ht, hmatch⟩ := h.exists_table hd
  refine ⟨t, ht, fun fd hfd => ?_, fun fd x hx hrecorded => ?_⟩
  · rw [← flagsOf_isSome, hmatch.mapped fd hfd]
  · obtain ⟨flags, hflags⟩ := hmatch.exists_flags hx
    have hstored : t.getFlags fd = some flags := hflags
    rw [hstored, Option.map_some, hmatch.cloexec hx hrecorded hflags]

theorem represents_replaced {g : Groups Int Flags}
    (hrepresents : Represents flagsOf w.manager.fdTableMap g) (ht : w.table pid = some t)
    (hreplaced : Replaced w pid s w') :
    Represents flagsOf w'.manager.fdTableMap (g.update pid (flagsOf s)) := by
  obtain ⟨map, hmodify, hset⟩ := World.exists_modify ht s
  have hmap : w'.manager.fdTableMap = map := by
    rw [hreplaced, hset]
  rw [hmap]
  exact hrepresents.modify hmodify

theorem update (h : TablesMatch k w) (ht : w.table pid = some t) (hreplaced : Replaced w pid s w')
    (hmatch : Matches (flagsOf s) d) : TablesMatch (k.update pid d) w' := by
  obtain ⟨g, hrepresents, hrelated⟩ := h
  exact ⟨_, represents_replaced hrepresents ht hreplaced, hrelated.update hmatch⟩

theorem start (h : TablesMatch k w) (hlive : (k.value pid).isSome)
    (halone : ∀ a, k.mates a pid → a = pid) (ht : w.table pid = some t)
    (hreplaced : Replaced w pid s w') (hmatch : Matches (flagsOf s) d) :
    TablesMatch (k.start pid d) w' := by
  obtain ⟨g, hrepresents, hrelated⟩ := h
  exact ⟨_, represents_replaced hrepresents ht hreplaced,
    hrelated.update_start hlive halone hmatch⟩

theorem exit (h : TablesMatch k w) {freed : Option FdTable}
    (hrelease : w.manager.fdTableMap.release pid = some (freed, w'.manager.fdTableMap)) :
    TablesMatch (k.leave pid) w' := by
  obtain ⟨g, hrepresents, hrelated⟩ := h
  exact ⟨_, hrepresents.release hrelease, hrelated.leave pid⟩

theorem clone (h : TablesMatch k w) (hk : k.value pid = some d) {shared : Bool}
    (hcloned : Shared.Cloned SameFlags w.manager.fdTableMap pid child shared
      w'.manager.fdTableMap) :
    TablesMatch (if shared then k.join pid child else k.start child d) w' := by
  obtain ⟨g, hrepresents, hrelated⟩ := h
  rcases hcloned with ⟨hshared, hshare⟩ | ⟨hown, t, copy, hget, hflags, hcreate⟩
  · rw [hshared, if_pos rfl]
    exact ⟨_, hrepresents.share hshare, hrelated.join child⟩
  · have hcopied : Represents flagsOf w'.manager.fdTableMap (g.start child (flagsOf copy)) := by
      rw [hcreate]
      exact hrepresents.create
    rw [hown, if_neg Bool.false_ne_true]
    refine ⟨_, hcopied, hrelated.start ?_⟩
    obtain ⟨f, hf, hmatch⟩ := hrelated.exists_value hk
    rw [hrepresents.value_eq hget] at hf
    rw [sameFlags_iff.mp hflags, Option.some.inj hf]
    exact hmatch

end TablesMatch

/-! ## One call -/

section

variable {opts : Options} {k k' : Groups Int Descriptors} {w : World} {c : TracedCall}
  {a : Execution} {m : ReplayModule}

theorem kernelStep_cases (h : kernelStep k c = some k') :
    (∃ d d', k.value c.call.pid = some d ∧ descriptorsAfter c d = some d' ∧
        k' = k.update c.call.pid d') ∨
      (c.call.kind = .exit ∧ k.exit c.call.pid = some k') ∨
      (c.call.kind = .clone ∧ startsProcess k c.call.pid c.call.returnValue
        (BitVec.ofInt 32 (c.call.row.int .flag_value) &&& cloneFiles ≠ 0) = some k') ∨
      (c.call.kind = .vfork ∧ startsProcess k c.call.pid c.call.returnValue false = some k') ∨
      (c.call.kind = .execve ∧ ∃ d, k.value c.call.pid = some d ∧
        k' = k.start c.call.pid (keptOnExec d)) := by
  unfold kernelStep at h
  dsimp only at h
  split at h
  · rename_i hkind
    exact .inr (.inl ⟨hkind, h⟩)
  · rename_i hkind
    exact .inr (.inr (.inl ⟨hkind, h⟩))
  · rename_i hkind
    exact .inr (.inr (.inr (.inl ⟨hkind, h⟩)))
  · rename_i hkind
    split at h
    · obtain ⟨d, hd, rfl⟩ := Option.map_eq_some_iff.mp h
      exact .inr (.inr (.inr (.inr ⟨hkind, d, hd, rfl⟩)))
    · cases h
  · split at h
    · obtain ⟨d, hd, hchange⟩ := Option.bind_eq_some_iff.mp h
      obtain ⟨d', hd', rfl⟩ := Option.map_eq_some_iff.mp hchange
      exact .inl ⟨d, d', hd, hd', rfl⟩
    · cases h

theorem startsProcess_eq_some {pid child : Int} {shared : Bool}
    (h : startsProcess k pid child shared = some k') :
    ∃ d, k.value pid = some d ∧
      k' = if shared then k.join pid (int32 child) else k.start (int32 child) d := by
  unfold startsProcess at h
  split at h
  · rename_i hchild
    unfold Groups.clone at h
    split at h
    · cases h
    · obtain ⟨d, hd, rfl⟩ := Option.map_eq_some_iff.mp h
      rw [int32_of_isFd hchild.2]
      exact ⟨d, hd, rfl⟩
  · cases h

theorem changesTables_of_descriptorsAfter {d d' : Descriptors}
    (h : descriptorsAfter c d = some d') : changesTables c.call.kind = true := by
  unfold descriptorsAfter at h
  revert h
  cases c.call.kind
  all_goals
    intro h
    first
      | rfl
      | cases h

theorem processRow_starts {sharedUmask sharedFiles : Bool} {child : Int} {program : Replay Int}
    {value : Int} (hprogram : program = do
      startProcess a.pid child sharedUmask sharedFiles
      return value)
    (hcoupled : Coupled w) (htables : TablesMatch k w) {d : Descriptors}
    (hk : k.value a.pid = some d) :
    ∃ replayed w', program w = some (replayed, w') ∧
      TablesMatch (if sharedFiles then k.join a.pid child else k.start child d) w' := by
  obtain ⟨t, ht, -⟩ := htables.exists_table hk
  obtain ⟨umask, humask⟩ := hcoupled.exists_umask ht
  obtain ⟨w', hrun⟩ := exists_startProcess ht humask child sharedUmask sharedFiles
  rw [hprogram, bind_of_eq_some hrun]
  exact ⟨value, w', rfl, htables.clone hk (startProcess_resources hrun).2⟩

theorem execve_matches {d : Descriptors} {t t' : FdTable} (hok : FollowsExecve k w a)
    (ht : w.table a.pid = some t) (hk : k.value a.pid = some d) (hmatch : Matches (flagsOf t) d)
    (ht' : ∀ fd : Int, t'[fd]? = (t[fd]?).filter (keptByExecve a.held)) :
    Matches (flagsOf t') (keptOnExec d) := by
  have hstored : ∀ {fd x e}, d fd = some x → t[fd]? = some e →
      closesOnExec e.flags = x.cloexec := by
    intro fd x e hx he
    have hflags : flagsOf t fd = some e.flags := by
      rw [flagsOf, he, Option.map_some]
    cases hrecorded : x.recorded with
    | true => exact hmatch.cloexec hx hrecorded hflags
    | false => rw [← storedCloexec_eq ht hflags, hok.guessed d fd x hk hx hrecorded]
  have hkept : ∀ {fd x e}, d fd = some x → t[fd]? = some e →
      keptByExecve a.held e = !x.cloexec := by
    intro fd x e hx he
    unfold keptByExecve
    rw [hstored hx he]
    cases hcloexec : x.cloexec with
    | false => rfl
    | true =>
        rcases hok.closes with hheld | hsimulated
        · simp [hheld]
        · simp [hsimulated t fd e ht he ((hstored hx he).trans hcloexec)]
  have hentry : ∀ {fd x}, d fd = some x → ∃ e, t[fd]? = some e ∧
      flagsOf t' fd = if x.cloexec then none else some e.flags := by
    intro fd x hx
    obtain ⟨flags, hflags⟩ := hmatch.exists_flags hx
    obtain ⟨e, he, -⟩ := getElem?_of_flagsOf hflags
    refine ⟨e, he, ?_⟩
    rw [flagsOf, ht', he, Option.filter_some, hkept hx he]
    cases x.cloexec <;> rfl
  constructor
  · intro fd x hx
    exact hmatch.isFd (Option.filter_eq_some_iff.mp hx).1
  · intro fd hfd
    unfold keptOnExec
    cases hx : d fd with
    | none =>
        have hnone : flagsOf t fd = none := by
          rw [← Option.not_isSome_iff_eq_none, hmatch.mapped fd hfd, hx]
          exact Bool.false_ne_true
        rw [flagsOf, ht', getElem?_of_flagsOf_none hnone]
        rfl
    | some x =>
        obtain ⟨e, -, hflags⟩ := hentry hx
        rw [hflags, Option.filter_some]
        cases x.cloexec <;> rfl
  · intro fd x flags hx hrecorded hflags
    obtain ⟨hx, -⟩ := Option.filter_eq_some_iff.mp hx
    obtain ⟨e, he, hflags'⟩ := hentry hx
    rw [hflags'] at hflags
    split at hflags
    · cases hflags
    · obtain rfl := Option.some.inj hflags
      exact hstored hx he

/-- The module fails no assertion and does to the tables what the kernel did. -/
theorem step_tables (hcoupled : Coupled w) (htables : TablesMatch k w)
    (hok : Follows k w c.call) (hk : kernelStep k c = some k') (hm : c.call.module = some m) :
    ∃ replayed w',
      processRow opts m c.call.position.1 c.call.position.2 w = some (replayed, w') ∧
        TablesMatch k' w' := by
  rcases kernelStep_cases hk with ⟨d, d', hd, hd', rfl⟩ | ⟨hkind, hexit⟩ | ⟨hkind, hstarts⟩ |
    ⟨hkind, hstarts⟩ | ⟨hkind, d, hd, rfl⟩
  · obtain ⟨t, ht, hmatch⟩ := htables.exists_table hd
    obtain ⟨umask, humask⟩ := hcoupled.exists_umask ht
    have hprogram := @tableProgram_of_module opts _ _ (changesTables_of_descriptorsAfter hd') hm
    obtain ⟨f, ⟨replayed, w', s, hrun, hreplaced, rfl⟩, hmatch'⟩ :=
      program_matches hprogram ht humask hd hmatch hd' hok
    exact ⟨replayed, w', hrun, htables.update ht hreplaced hmatch'⟩
  · obtain ⟨d, hd, rfl⟩ := Option.map_eq_some_iff.mp hexit
    obtain ⟨t, ht, -⟩ := htables.exists_table hd
    obtain ⟨w', hrun⟩ := exists_exit hcoupled ht 0
    obtain ⟨-, freed, -, hrelease⟩ := exitProcessRow_resources hrun
    rw [processRow_exit hkind hm]
    exact ⟨0, w', hrun, htables.exit hrelease⟩
  · obtain ⟨d, hd, rfl⟩ := startsProcess_eq_some hstarts
    rw [processRow_clone hkind hm]
    unfold Follows at hok
    rw [hkind] at hok
    have hshared : (BitVec.ofInt 32 (c.call.row.int .flag_value) &&& cloneFiles ≠ 0 ||
        BitVec.ofInt 32 (c.call.row.int .flag_value) &&& cloneThread ≠ 0 : Bool) =
        decide (BitVec.ofInt 32 (c.call.row.int .flag_value) &&& cloneFiles ≠ 0) := by
      rw [Bool.or_eq_left_iff_imp, decide_eq_true_eq, decide_eq_true_eq]
      exact hok
    rw [← hshared]
    exact processRow_starts rfl hcoupled htables hd
  · obtain ⟨d, hd, rfl⟩ := startsProcess_eq_some hstarts
    rw [processRow_vfork hkind hm]
    exact processRow_starts rfl hcoupled htables hd
  · obtain ⟨t, ht, hmatch⟩ := htables.exists_table hd
    unfold Follows at hok
    rw [hkind] at hok
    obtain ⟨t', hrun, ht'⟩ := execveProcessRow_run ht 0 c.call.held
    rw [processRow_execve hkind hm]
    refine ⟨0, _, hrun, htables.start (by rw [hd]; rfl) hok.alone ht rfl ?_⟩
    exact execve_matches hok ht hd hmatch ht'

end

/-! ## Runs -/

theorem stdDescriptors_matches (cloexec : Int → Bool) :
    Matches (fun fd => if fd ∈ stdFdMap.map Prod.fst then some 0 else none)
      (stdDescriptors cloexec) := by
  constructor
  · intro fd x hx
    unfold stdDescriptors at hx
    split at hx
    · rename_i hfd
      rcases hfd with rfl | rfl | rfl
      · rfl
      · rfl
      · rfl
    · cases hx
  · intro fd hfd
    have hiff : fd ∈ stdFdMap.map Prod.fst ↔ fd = 0 ∨ fd = 1 ∨ fd = 2 := by
      simp only [stdFdMap, atFdcwd, List.map_cons, List.map_nil, List.mem_cons, List.not_mem_nil,
        or_false]
      omega
    unfold stdDescriptors
    simp only [hiff]
    split
    · rfl
    · rfl
  · intro fd x flags hx hrecorded _
    unfold stdDescriptors at hx
    split at hx
    · rw [← Option.some.inj hx] at hrecorded
      cases hrecorded
    · cases hx

theorem reachVia_matches {opts : Options} {start : World} {pid : Int} {maxFds : Nat}
    {cloexec : Int → Bool} {s : Groups Int Descriptors × World}
    (hstart : Prepared start pid maxFds)
    (h : (tracedSystem opts start pid cloexec).ReachVia (fun s c => Follows s.1 s.2 c.call) s) :
    Coupled s.2 ∧ TablesMatch s.1 s.2 := by
  refine h.invariant _ (P := fun s => Coupled s.2 ∧ TablesMatch s.1 s.2) ⟨?_, ?_⟩ ?_
  · exact coupled_of_initialized ⟨_, maxFds, pid, stdFdMap, hstart.manager⟩
  · exact ⟨_, (refines_of_initialized hstart.manager).tables, .single (stdDescriptors_matches _)⟩
  · rintro ⟨k, w⟩ c s' - ⟨hcoupled, htables⟩ hok hstep
    obtain ⟨k', hk, hreplay⟩ := Option.bind_eq_some_iff.mp hstep
    obtain ⟨w', hw, rfl⟩ := Option.map_eq_some_iff.mp hreplay
    obtain ⟨m, replayed, hm, hrun⟩ := executeStep_eq_some hw
    obtain ⟨replayed', w'', hrun', htables'⟩ := step_tables hcoupled htables hok hk hm
    obtain rfl := (Prod.mk.inj (Option.some.inj (hrun.symm.trans hrun'))).2
    exact ⟨hcoupled.step hw, htables'⟩

/-- While the calls succeed and are ones that the tables can follow, every table
has the descriptors that are open in its process, with the recorded bits, and
the module of every further such call runs without a failed assertion. -/
theorem following_replay_agrees (opts : Options) (start : World) (pid : Int) (maxFds : Nat)
    (cloexec : Int → Bool) (s : Groups Int Descriptors × World)
    (hstart : Prepared start pid maxFds)
    (h : (tracedSystem opts start pid cloexec).ReachVia (fun s c => Follows s.1 s.2 c.call) s) :
    Agrees s.1 s.2 ∧ ∀ c m, Follows s.1 s.2 c.call → (kernelStep s.1 c).isSome →
      c.call.module = some m →
      (processRow opts m c.call.position.1 c.call.position.2 s.2).isSome := by
  obtain ⟨hcoupled, htables⟩ := reachVia_matches hstart h
  refine ⟨htables.agrees, fun c m hok hk hm => ?_⟩
  obtain ⟨k', hk'⟩ := Option.isSome_iff_exists.mp hk
  obtain ⟨replayed, w', hrun, -⟩ := @step_tables opts _ _ _ _ _ hcoupled htables hok hk' hm
  rw [hrun]
  rfl

/-! ## Small runs -/

/-- Process 1 alone, after a call that left it with these descriptors. -/
noncomputable def onlyProcess (d : Descriptors) : Groups Int Descriptors :=
  (Groups.single 1 (stdDescriptors fun _ => false)).update 1 d

theorem onlyProcess_value (d : Descriptors) : (onlyProcess d).value 1 = some d :=
  Groups.value_update_of_mates ⟨rfl, rfl⟩

def execveCall : TracedCall :=
  ⟨queuedCall .execve 1 0 fun _ => 0, false⟩

theorem kernelStep_execveCall (d : Descriptors) :
    kernelStep (onlyProcess d) execveCall = some ((onlyProcess d).start 1 (keptOnExec d)) := by
  show ((onlyProcess d).value 1).map _ = _
  rw [onlyProcess_value]
  rfl

/-- Process 1 opens 3, which closes on exec. -/
def openCall : TracedCall :=
  ⟨queuedCall .open_ 1 3 fun
    | .open_value => 0x80000
    | _ => 0, false⟩

/-- The open descriptors of process 1 after that. -/
def openedDescriptors : Descriptors :=
  Function.update (stdDescriptors fun _ => false) 3 (some ⟨true, true⟩)

def openedWorld : World :=
  worldAfter (startWorld inOrder) [openCall.call]

theorem openedWorld_followsExecve :
    FollowsExecve (onlyProcess openedDescriptors) openedWorld execveCall.call where
  alone _ hmate := hmate.1
  closes := .inl (le_refl 0)
  guessed := by
    intro d fd x hd hx hrecorded
    obtain rfl := Option.some.inj ((onlyProcess_value openedDescriptors).symm.trans hd)
    unfold openedDescriptors stdDescriptors at hx
    rw [Function.update_apply] at hx
    split at hx
    · rw [← Option.some.inj hx] at hrecorded
      cases hrecorded
    · split at hx
      · rename_i hfd
        rw [← Option.some.inj hx]
        rcases hfd with rfl | rfl | rfl
        · rfl
        · rfl
        · rfl
      · cases hx

/-- After the `execve` that closes 3. -/
theorem executedWorld_agrees :
    Agrees ((onlyProcess openedDescriptors).start 1 (keptOnExec openedDescriptors))
        (worldAfter openedWorld [execveCall.call]) ∧
      ∀ c m, Follows ((onlyProcess openedDescriptors).start 1 (keptOnExec openedDescriptors))
          (worldAfter openedWorld [execveCall.call]) c.call →
        (kernelStep ((onlyProcess openedDescriptors).start 1
          (keptOnExec openedDescriptors)) c).isSome →
        c.call.module = some m →
        (processRow quiet m c.call.position.1 c.call.position.2
          (worldAfter openedWorld [execveCall.call])).isSome := by
  have hopened : (tracedSystem quiet (startWorld inOrder) 1 fun _ => false).ReachVia
      (fun s c => Follows s.1 s.2 c.call) (onlyProcess openedDescriptors, openedWorld) :=
    .step .init (a := openCall) trivial rfl
  refine following_replay_agrees quiet (startWorld inOrder) 1 16 (fun _ => false)
    (_, worldAfter openedWorld [execveCall.call]) (startWorld_prepared inOrder)
    (.step hopened (a := execveCall) openedWorld_followsExecve ?_)
  show (kernelStep (onlyProcess openedDescriptors) execveCall).bind _ = _
  rw [kernelStep_execveCall]
  rfl

/-- `dup3(0, 5, O_CLOEXEC)` of process 1. -/
def dup3Call : TracedCall :=
  ⟨queuedCall .dup3 1 5 fun
    | .new_descriptor => 5
    | .flags => 0x80000
    | _ => 0, false⟩

def duplicatedDescriptors : Descriptors :=
  Function.update (stdDescriptors fun _ => false) 5 (some ⟨true, true⟩)

def duplicatedWorld : World :=
  worldAfter (startWorld inOrder) [dup3Call.call]

/-- The kernel gives 5 again after the `execve`. -/
def reopenCall : TracedCall :=
  ⟨queuedCall .open_ 1 5 fun _ => 0, false⟩

/-- The flags of `dup3` are not stored: 5 is still mapped after the `execve` that
closed it, and the next `open` that returns 5 fails the assertion of
`add_fd_entry`. -/
theorem dup3_loses_cloexec :
    ¬Agrees (onlyProcess duplicatedDescriptors) duplicatedWorld ∧
      executeStep quiet (worldAfter duplicatedWorld [execveCall.call]) reopenCall.call = none ∧
      (¬∀ opts start pid maxFds cloexec s, Prepared start pid maxFds →
        (tracedSystem opts start pid cloexec).Reachable s → Agrees s.1 s.2) ∧
      ¬∀ opts start pid maxFds cloexec s, Prepared start pid maxFds →
        (tracedSystem opts start pid cloexec).Reachable s →
        ∀ c m, (kernelStep s.1 c).isSome → c.call.module = some m →
          (processRow opts m c.call.position.1 c.call.position.2 s.2).isSome := by
  have hduplicated : (tracedSystem quiet (startWorld inOrder) 1 fun _ => false).Reachable
      (onlyProcess duplicatedDescriptors, duplicatedWorld) :=
    .step .init (a := dup3Call) trivial rfl
  have hexecuted : (tracedSystem quiet (startWorld inOrder) 1 fun _ => false).Reachable
      ((onlyProcess duplicatedDescriptors).start 1 (keptOnExec duplicatedDescriptors),
        worldAfter duplicatedWorld [execveCall.call]) := by
    refine .step hduplicated (a := execveCall) trivial ?_
    show (kernelStep (onlyProcess duplicatedDescriptors) execveCall).bind _ = _
    rw [kernelStep_execveCall]
    rfl
  have hdisagrees : ¬Agrees (onlyProcess duplicatedDescriptors) duplicatedWorld := by
    intro hagrees
    obtain ⟨t, ht, -, hcloexec⟩ := hagrees 1 _ (onlyProcess_value duplicatedDescriptors)
    have hstored : (duplicatedWorld.table 1).bind (fun t => (t.getFlags 5).map closesOnExec) =
        some false := rfl
    rw [ht, Option.bind_some, hcloexec 5 ⟨true, true⟩ rfl rfl] at hstored
    cases hstored
  refine ⟨hdisagrees, rfl, fun h => ?_, fun h => ?_⟩
  · exact hdisagrees (h _ _ 1 16 _ _ (startWorld_prepared inOrder) hduplicated)
  · have hruns := h _ _ 1 16 _ _ (startWorld_prepared inOrder) hexecuted reopenCall _ rfl rfl
    cases hruns

end SyscallReplayer.DescriptorSimulation
