import SyscallReplayer.SnapshotFidelity

/-!
# What the modules do to the descriptors

How each call leaves the open descriptors, and how a finished run of each
module that changes tables is made up of calls and of operations on the table.
-/

namespace SyscallReplayer

open Std (ExtTreeMap)
open CInt SharedEntries ReplayKernel ResourcesManager ReplayWorld ReplayModules StatePrograms

namespace ReplayKernel

/-- The calls that open one descriptor, of the kernel's choice. -/
def opensOne : SystemCall → Bool
  | .open_ _ _ _ | .openat _ _ _ _ | .creat _ _ | .dup _ => true
  | .fcntl _ command _ => command = fDupfd || command = fDupfdCloexec
  | _ => false

theorem outcome_opensOne {openFds : Finset Int} {reply : Reply} {call : SystemCall}
    (h : opensOne call = true) :
    (∃ least, outcome openFds reply call = opened openFds reply.value least) ∨
      outcome openFds reply call = (-1, openFds) := by
  cases call
  case open_ | openat | creat => exact .inl ⟨0, rfl⟩
  case dup fd =>
    by_cases hopen : fd ∈ openFds
    · exact .inl ⟨0, if_pos hopen⟩
    · exact .inr (if_neg hopen)
  case fcntl fd command argument =>
    have hdup : command = fDupfd ∨ command = fDupfdCloexec := by simpa [opensOne] using h
    simp only [outcome, if_pos hdup]
    cases argument with
    | value least =>
        by_cases hopen : fd ∈ openFds
        · exact .inl ⟨least, if_pos hopen⟩
        · exact .inr (if_neg hopen)
    | null => exact .inr rfl
    | lock _ _ _ _ _ => exact .inr rfl
  all_goals exact absurd h Bool.false_ne_true

end ReplayKernel

namespace ReplayWorld.World

variable {w : World} {call : SystemCall}

theorem opensOne_cases (h : opensOne call = true) :
    (0 ≤ int32 (w.answer call) ∧ int32 (w.answer call) ∉ w.openFds ∧
        (w.serve call).openFds = insert (int32 (w.answer call)) w.openFds) ∨
      (int32 (w.answer call) = -1 ∧ (w.serve call).openFds = w.openFds) := by
  simp only [World.answer, serve_openFds]
  rcases @outcome_opensOne w.openFds w.reply _ h with ⟨least, heq⟩ | heq
  · rw [heq]
    rcases opened_cases w.openFds w.reply.value least with ⟨hopens, heq⟩ | ⟨-, heq⟩
    · obtain ⟨hlower, hupper, -, hfresh⟩ := opens_iff.mp hopens
      rw [heq, int32_eq_self (by omega) hupper]
      exact .inl ⟨hlower, hfresh, rfl⟩
    · rw [heq]
      exact .inr ⟨rfl, rfl⟩
  · rw [heq]
    exact .inr ⟨rfl, rfl⟩

/-- `dup2` and `dup3` give the descriptor they are told to, or nothing. -/
theorem redirected_cases {target : Int} {allowed : Bool} {oldFd : Int}
    (h : outcome w.openFds w.reply call = redirected w.openFds allowed oldFd target) :
    ((allowed = true ∧ oldFd ∈ w.openFds ∧ isFd target = true) ∧
        int32 (w.answer call) = target ∧ (w.serve call).openFds = insert target w.openFds) ∨
      (¬(allowed = true ∧ oldFd ∈ w.openFds ∧ isFd target = true) ∧
        int32 (w.answer call) = -1 ∧ (w.serve call).openFds = w.openFds) := by
  simp only [World.answer, serve_openFds, h, redirected]
  split
  · rename_i hok
    simp only [Bool.and_eq_true, decide_eq_true_eq, and_assoc] at hok
    have hisFd := hok.2.2
    simp only [isFd, Bool.and_eq_true, decide_eq_true_eq] at hisFd
    exact .inl ⟨hok, int32_eq_self (by omega) hisFd.2, rfl⟩
  · rename_i hnot
    simp only [Bool.and_eq_true, decide_eq_true_eq, and_assoc] at hnot
    exact .inr ⟨hnot, rfl, rfl⟩

theorem isFd_nonneg {fd : Int} (h : isFd fd = true) : 0 ≤ fd := by
  simp only [isFd, Bool.and_eq_true, decide_eq_true_eq] at h
  exact h.1

theorem serve_close_openFds (w : World) (fd : Int) :
    (w.serve (.close fd)).openFds = w.openFds.erase fd := by
  simp only [serve_openFds, outcome]
  split
  · rfl
  · rename_i hclosed
    exact (Finset.erase_eq_of_notMem hclosed).symm

end ReplayWorld.World

namespace ReplayModules

open World SnapshotFidelity

variable {w w' : World} {pid returnValue replayed : Int}

/-- The end of the modules that open a file: what the traced program did not get
is closed again, what it got is mapped. -/
def Keeps (pid : Int) (dropped : Prop) (tracedFd : Int) (flags : BitVec 32) (call : SystemCall)
    (w w' : World) : Prop :=
  (dropped ∧ w' = (w.serve call).serve (.close (int32 (w.answer call)))) ∨
    (¬dropped ∧ addFd pid tracedFd (int32 (w.answer call)) flags (w.serve call) = some ((), w'))

theorem keeps_of_eq_some {dropped : Prop} [Decidable dropped] {tracedFd : Int}
    {flags : BitVec 32} {call : SystemCall}
    (h : (do
      if dropped then
        let _ ← syscall (.close (int32 (w.answer call)))
      else
        addFd pid tracedFd (int32 (w.answer call)) flags
      return int32 (w.answer call) : Replay Int) (w.serve call) = some (replayed, w')) :
    Keeps pid dropped tracedFd flags call w w' := by
  split at h
  · rename_i hdropped
    obtain ⟨-, a, hclose⟩ := bind_pure_eq_some.mp h
    exact .inl ⟨hdropped, (Prod.mk.inj (Option.some.inj hclose)).2.symm⟩
  · rename_i hkept
    obtain ⟨-, a, hadd⟩ := bind_pure_eq_some.mp h
    exact .inr ⟨hkept, hadd⟩

theorem openProcessRow_eq_some {pathname : String} {modeVal : BitVec 32} {flags tracedFd : Int}
    (h : openProcessRow pid pathname modeVal flags tracedFd w = some (replayed, w')) :
    ∃ mode, Keeps pid
      (tracedFd ≤ -1 ∧ int32 (w.answer (.open_ pathname flags mode)) ≠ -1) tracedFd
      (BitVec.ofInt 32 flags) (.open_ pathname flags mode) w w' := by
  obtain ⟨mode, w₁, hmode, hopen⟩ := bind_eq_some.mp h
  obtain ⟨-, -, -, rfl⟩ := getMode_eq_some hmode
  rw [bind_of_eq_some (intSyscall_apply _ w₁)] at hopen
  exact ⟨mode, keeps_of_eq_some hopen⟩

theorem openatProcessRow_eq_some {row : Row}
    (h : openatProcessRow pid row w = some (replayed, w')) :
    ∃ dirfd, w.resolves pid (row.int .descriptor) = some dirfd ∧
      ((dirfd = syscallSimulated ∧ relative (row.text .given_pathname) = true) ∧ w' = w ∨
        ¬(dirfd = syscallSimulated ∧ relative (row.text .given_pathname) = true) ∧
          ∃ call mode,
            call = .openat dirfd (row.text .given_pathname) (row.int .open_value) mode ∧
            Keeps pid (row.int .return_value = -1 ∧ int32 (w.answer call) ≠ -1)
              (row.int .return_value) (BitVec.ofInt 32 (row.int .open_value)) call w w') := by
  obtain ⟨dirfd, w₁, hdirfd, hrest⟩ := bind_eq_some.mp h
  obtain ⟨t, ht, rfl, rfl⟩ := getFd_eq_some hdirfd
  obtain ⟨mode, w₂, hmode, hopen⟩ := bind_eq_some.mp hrest
  obtain ⟨-, -, -, rfl⟩ := getMode_eq_some hmode
  refine ⟨_, resolves_of_table ht _, ?_⟩
  dsimp only at hopen
  split at hopen
  · rename_i hsim
    exact .inl ⟨hsim, (Prod.mk.inj (Option.some.inj hopen)).2.symm⟩
  · rename_i hreal
    rw [bind_of_eq_some (intSyscall_apply _ w₂)] at hopen
    exact .inr ⟨hreal, _, mode, rfl, keeps_of_eq_some hopen⟩

theorem creatProcessRow_eq_some {row : Row}
    (h : creatProcessRow pid row w = some (replayed, w')) :
    ∃ call mode, call = .creat (row.text .given_pathname) mode ∧
      addFd pid (row.int .return_value) (int32 (w.answer call)) (oCreat ||| oWronly ||| oTrunc)
        (w.serve call) = some ((), w') := by
  obtain ⟨mode, w₁, hmode, hopen⟩ := bind_eq_some.mp h
  obtain ⟨-, -, -, rfl⟩ := getMode_eq_some hmode
  rw [bind_of_eq_some (intSyscall_apply _ w₁)] at hopen
  obtain ⟨-, a, hadd⟩ := bind_pure_eq_some.mp hopen
  exact ⟨_, mode, rfl, hadd⟩

theorem closeProcessRow_eq_some {held descVal : Int}
    (h : closeProcessRow pid held descVal w = some (replayed, w')) :
    ∃ t, w.table pid = some t ∧
      w' = if t.getFd descVal = syscallSimulated then w.setTable pid (t.erase descVal)
        else (w.setTable pid (t.erase descVal)).serve (.close (t.getFd descVal)) := by
  obtain ⟨fd, w₁, hremove, hclose⟩ := bind_eq_some.mp h
  obtain ⟨t, ht, rfl, rfl⟩ := removeFd_eq_some hremove
  refine ⟨t, ht, ?_⟩
  split at hclose
  · rename_i hsim
    rw [if_pos hsim]
    exact (Prod.mk.inj (Option.some.inj hclose)).2.symm
  · rename_i hreal
    rw [if_neg hreal]
    exact (Prod.mk.inj (Option.some.inj hclose)).2.symm

/-- `dup` maps what the kernel duplicated, or nothing for a simulated descriptor. -/
theorem dupProcessRow_eq_some {tracedFd : Int}
    (h : dupProcessRow pid returnValue tracedFd w = some (replayed, w')) :
    ∃ t e, w.table pid = some t ∧ t[tracedFd]? = some e ∧
      ((e.fd = syscallSimulated ∧
          addFd pid returnValue (int32 returnValue) (e.flags &&& ~~~oCloexec) w =
            some ((), w')) ∨
        (e.fd ≠ syscallSimulated ∧
          addFd pid returnValue (int32 (w.answer (.dup e.fd))) (e.flags &&& ~~~oCloexec)
            (w.serve (.dup e.fd)) = some ((), w'))) := by
  obtain ⟨fd, w₁, hfd, hrest⟩ := bind_eq_some.mp h
  obtain ⟨t, ht, rfl, rfl⟩ := getFd_eq_some hfd
  obtain ⟨flags, w₂, hflags, hdup⟩ := bind_eq_some.mp hrest
  obtain ⟨t', e, ht', he, rfl, rfl⟩ := getFlags_eq_some hflags
  obtain rfl := Option.some.inj (ht.symm.trans ht')
  refine ⟨t, e, ht, he, ?_⟩
  rw [FdTable.getFd_of_mapped he] at hdup
  dsimp only at hdup
  split at hdup
  · rename_i hsim
    rw [bind_of_eq_some (pure_apply _ w₂)] at hdup
    obtain ⟨-, a, hadd⟩ := bind_pure_eq_some.mp hdup
    exact .inl ⟨hsim, hadd⟩
  · rename_i hreal
    rw [bind_of_eq_some (intSyscall_apply _ w₂)] at hdup
    obtain ⟨-, a, hadd⟩ := bind_pure_eq_some.mp hdup
    exact .inr ⟨hreal, hadd⟩

/-- Where `dup2` and `dup3` duplicate to. -/
def duplicateTarget (t : FdTable) (newFd : Int) (m : Manager) : Int :=
  if t.hasFd newFd = true ∧ t.getFd newFd ≠ syscallSimulated then t.getFd newFd
  else Manager.leastUnused m.usedFds m.usedFds.card 0

/-- `dup2` and `dup3` once the entry of the new descriptor is gone; `held` is what
it stood for. -/
def duplicateEntry (pid returnValue held : Int) (e : FileDescriptorEntry)
    (newFdFlags : BitVec 32 → BitVec 32) (call : Int → Int → SystemCall) : Replay Int := do
  if e.fd = syscallSimulated then
    addFd pid (int32 returnValue) syscallSimulated (newFdFlags e.flags)
    return int32 returnValue
  else
    let target ← if held = syscallSimulated then generateUnusedFd pid else pure held
    let replayed ← intSyscall (call e.fd target)
    addFd pid returnValue replayed (newFdFlags e.flags)
    return replayed

theorem duplicateTo_run {oldFd newFd : Int} {newFdFlags : BitVec 32 → BitVec 32}
    {call : Int → Int → SystemCall} {t : FdTable} {e : FileDescriptorEntry}
    (ht : w.table pid = some t) (he : t[oldFd]? = some e) :
    duplicateTo pid returnValue oldFd newFd newFdFlags call w =
      duplicateEntry pid returnValue
        (if t.hasFd newFd then t.getFd newFd else syscallSimulated) e newFdFlags call
        (w.setTable pid (t.erase newFd)) := by
  unfold duplicateTo
  rw [bind_of_eq_some (getFd_run ht oldFd), bind_of_eq_some (getFlags_run ht he),
    bind_of_eq_some (hasFd_run ht newFd), FdTable.getFd_of_mapped he]
  cases hhas : t.hasFd newFd with
  | true =>
      rw [if_pos rfl, if_pos rfl]
      dsimp only
      rw [bind_of_eq_some (removeFd_run ht newFd)]
      rfl
  | false =>
      have hunmapped := FdTable.hasFd_eq_false_iff.mp hhas
      rw [if_neg Bool.false_ne_true, if_neg Bool.false_ne_true,
        FdTable.erase_of_unmapped hunmapped, World.setTable_eq_self ht]
      rfl

theorem duplicateTo_eq_some {oldFd newFd : Int} {newFdFlags : BitVec 32 → BitVec 32}
    {call : Int → Int → SystemCall}
    (h : duplicateTo pid returnValue oldFd newFd newFdFlags call w = some (replayed, w')) :
    ∃ t e w₁, w.table pid = some t ∧ t[oldFd]? = some e ∧
      w₁ = w.setTable pid (t.erase newFd) ∧
      ((e.fd = syscallSimulated ∧
          addFd pid returnValue syscallSimulated (newFdFlags e.flags) w₁ = some ((), w')) ∨
        (e.fd ≠ syscallSimulated ∧ ∃ target, target = duplicateTarget t newFd w₁.manager ∧
          addFd pid returnValue (int32 (w₁.answer (call e.fd target))) (newFdFlags e.flags)
            (w₁.serve (call e.fd target)) = some ((), w'))) := by
  obtain ⟨fd, v₁, hfd, hrest⟩ := bind_eq_some.mp h
  obtain ⟨t, ht, -, rfl⟩ := getFd_eq_some hfd
  obtain ⟨flags, v₂, hflags, -⟩ := bind_eq_some.mp hrest
  obtain ⟨t', e, ht', he, -, rfl⟩ := getFlags_eq_some hflags
  obtain rfl := Option.some.inj (ht.symm.trans ht')
  rw [duplicateTo_run ht he] at h
  refine ⟨t, e, _, ht, he, rfl, ?_⟩
  unfold duplicateEntry at h
  split at h
  · rename_i hsim
    obtain ⟨-, a, hadd⟩ := bind_pure_eq_some.mp h
    rw [addFd_int32] at hadd
    exact .inl ⟨hsim, hadd⟩
  · rename_i hreal
    have hcall : ∀ target : Int, (do
        let replayed ← intSyscall (call e.fd target)
        addFd pid returnValue replayed (newFdFlags e.flags)
        return replayed : Replay Int) (v₂.setTable pid (t.erase newFd)) =
          some (replayed, w') →
        addFd pid returnValue
          (int32 ((v₂.setTable pid (t.erase newFd)).answer (call e.fd target)))
          (newFdFlags e.flags) ((v₂.setTable pid (t.erase newFd)).serve (call e.fd target)) =
          some ((), w') := by
      intro target hrun
      rw [bind_of_eq_some (intSyscall_apply _ _)] at hrun
      obtain ⟨-, a, hadd⟩ := bind_pure_eq_some.mp hrun
      exact hadd
    refine .inr ⟨hreal, _, rfl, ?_⟩
    unfold duplicateTarget
    generalize hheld : (if t.hasFd newFd = true then t.getFd newFd else syscallSimulated) = held
      at h
    split at h
    · rename_i hnone
      obtain ⟨target, v₃, hgenerated, hrun⟩ := bind_eq_some.mp h
      obtain ⟨rfl, rfl⟩ := generateUnusedFd_eq_some hgenerated
      have hnot : ¬(t.hasFd newFd = true ∧ t.getFd newFd ≠ syscallSimulated) := by
        rintro ⟨hhas, hne⟩
        rw [if_pos hhas] at hheld
        exact hne (hheld.trans hnone)
      rw [if_neg hnot]
      exact hcall _ hrun
    · rename_i hsome
      rw [bind_of_eq_some (pure_apply _ _)] at h
      split at hheld
      · rename_i hhas
        subst hheld
        rw [if_pos ⟨hhas, hsome⟩]
        exact hcall _ h
      · exact absurd hheld.symm hsome

theorem fcntlProcessRow_eq_some
    {tracedFd command argVal type whence start length lockPid : Int}
    (h : fcntlProcessRow pid returnValue tracedFd command argVal type whence start length
      lockPid w = some (replayed, w')) :
    ∃ fd argument,
      argument = fcntlArgument command argVal type whence start length lockPid ∧
      w.resolves pid tracedFd = some fd ∧
      replayed = int32 (w.answer (.fcntl fd command argument)) ∧
      fcntlTable pid returnValue replayed tracedFd command argVal
        (w.serve (.fcntl fd command argument)) = some ((), w') := by
  obtain ⟨fd, w₁, hfd, hcall⟩ := bind_eq_some.mp h
  obtain ⟨t, ht, rfl, rfl⟩ := getFd_eq_some hfd
  rw [bind_of_eq_some (intSyscall_apply _ w₁)] at hcall
  obtain ⟨rfl, a, htable⟩ := bind_pure_eq_some.mp hcall
  exact ⟨_, _, rfl, resolves_of_table ht tracedFd, rfl, htable⟩

/-- A duplicate is mapped; any other command changes flags at most. -/
theorem fcntlTable_eq_some {tracedFd command argVal : Int}
    (h : fcntlTable pid returnValue replayed tracedFd command argVal w = some ((), w')) :
    ((command = fDupfd ∨ command = fDupfdCloexec) ∧
        ∃ flags, addFd pid returnValue replayed flags w = some ((), w')) ∨
      (¬(command = fDupfd ∨ command = fDupfdCloexec) ∧
        (w' = w ∨ ∃ t e flags, w.table pid = some t ∧ t[tracedFd]? = some e ∧
          w' = w.setTable pid (t.insert tracedFd { e with flags := flags }))) := by
  unfold fcntlTable at h
  split at h
  · rename_i hdup
    obtain ⟨flags, w₁, hflags, hadd⟩ := bind_eq_some.mp h
    obtain ⟨-, -, -, -, -, rfl⟩ := getFlags_eq_some hflags
    exact .inl ⟨hdup, _, hadd⟩
  · rename_i hother
    refine .inr ⟨hother, ?_⟩
    split at h
    · split at h
      · obtain ⟨t, e, ht, he, rfl⟩ := addFlags_eq_some h
        exact .inr ⟨t, e, _, ht, he, rfl⟩
      · exact .inl (Prod.mk.inj (Option.some.inj h)).2.symm
    · exact .inl (Prod.mk.inj (Option.some.inj h)).2.symm

theorem pipeProcessRow_eq_some {readFd writeFd : Int}
    (h : pipeProcessRow pid readFd writeFd w = some (replayed, w')) :
    ∃ call w₁, call = .pipe !(readFd = 0 && writeFd = 0) ∧
      addFd pid readFd syscallSimulated 0 (w.serve call) = some ((), w₁) ∧
      addFd pid writeFd syscallSimulated 0 w₁ = some ((), w') := by
  unfold pipeProcessRow at h
  rw [bind_of_eq_some (intSyscall_apply _ w)] at h
  obtain ⟨_, w₁, hread, hrest⟩ := bind_eq_some.mp h
  obtain ⟨-, a, hwrite⟩ := bind_pure_eq_some.mp hrest
  exact ⟨_, w₁, rfl, hread, hwrite⟩

/-- The descriptors that the manager knows are the same. -/
structure SameDescriptors (w w' : World) : Prop where
  fdTableMap : w'.manager.fdTableMap = w.manager.fdTableMap
  replayerUsedFds : w'.manager.replayerUsedFds = w.manager.replayerUsedFds
  openFds : w'.openFds = w.openFds
  issued : w'.issued = w.issued

theorem updateManager_eq_some {f : Manager → Option Manager} {u : Unit}
    (h : updateManager f w = some (u, w')) :
    ∃ m, f w.manager = some m ∧ w' = { w with manager := m } := by
  obtain ⟨result, hf, heq⟩ := Option.map_eq_some_iff.mp h
  obtain ⟨m, hm, rfl⟩ := Option.map_eq_some_iff.mp hf
  exact ⟨m, hm, (Prod.mk.inj heq).2.symm⟩

theorem removeUmask_eq_some {u : Unit} (h : removeUmask pid w = some (u, w')) :
    SameDescriptors w w' := by
  obtain ⟨m, hm, rfl⟩ := updateManager_eq_some h
  obtain ⟨⟨_, table⟩, -, heq⟩ := Option.bind_eq_some_iff.mp hm
  obtain rfl := Option.some.inj heq
  exact ⟨rfl, rfl, rfl, rfl⟩

theorem cloneUmask_eq_some {child : Int} {shared : Bool} {u : Unit}
    (h : cloneUmask pid child shared w = some (u, w')) : SameDescriptors w w' := by
  obtain ⟨m, hm, rfl⟩ := updateManager_eq_some h
  unfold Manager.cloneUmask at hm
  split at hm
  · obtain ⟨table, -, heq⟩ := Option.bind_eq_some_iff.mp hm
    obtain rfl := Option.some.inj heq
    exact ⟨rfl, rfl, rfl, rfl⟩
  · obtain ⟨mode, -, heq⟩ := Option.bind_eq_some_iff.mp hm
    obtain rfl := Option.some.inj heq
    exact ⟨rfl, rfl, rfl, rfl⟩

theorem closeAll_eq_some {fds : List Int} {u : PUnit}
    (h : (fds.forM fun fd => (do let _ ← syscall (.close fd) : Replay PUnit)) w =
      some (u, w')) :
    w'.manager = w.manager ∧ w'.openFds = w.openFds \ fds.toFinset ∧
      w'.issued = w.issued ++ fds.map .close := by
  induction fds generalizing w with
  | nil =>
      obtain rfl := (Prod.mk.inj (Option.some.inj h)).2
      simp
  | cons fd fds ih =>
      obtain ⟨a, w₁, hclose, hrest⟩ := bind_eq_some.mp
        (show ((do let _ ← syscall (.close fd) : Replay PUnit) >>= fun _ =>
          fds.forM fun fd => (do let _ ← syscall (.close fd) : Replay PUnit)) w = _ from h)
      obtain rfl := (Prod.mk.inj (Option.some.inj hclose)).2
      obtain ⟨hmanager, hopenFds, hissued⟩ := ih hrest
      refine ⟨hmanager, ?_, ?_⟩
      · rw [hopenFds, World.serve_close_openFds, List.toFinset_cons]
        ext a
        simp [and_assoc, and_left_comm]
      · rw [hissued, World.serve_issued, List.map_cons, List.append_assoc]
        rfl

theorem exitProcessRow_eq_some {held : Int}
    (h : exitProcessRow pid held w = some (replayed, w')) :
    ∃ freed map fds, w.manager.fdTableMap.release pid = some (freed, map) ∧
      fds = (freed.map FdTable.getAllReplayedFds).getD [] ∧
      w'.manager.fdTableMap = map ∧
      w'.manager.replayerUsedFds = w.manager.replayerUsedFds ∧
      w'.openFds = w.openFds \ fds.toFinset ∧
      w'.issued = w.issued ++ fds.map .close := by
  obtain ⟨_, w₁, humask, hrest⟩ := bind_eq_some.mp h
  obtain ⟨htables, hused, hopenFds, hissued⟩ := removeUmask_eq_some humask
  obtain ⟨fds, w₂, hremove, hclose⟩ := bind_eq_some.mp hrest
  obtain ⟨-, a, hclosed⟩ := bind_pure_eq_some.mp hclose
  obtain ⟨result, hresult, heq⟩ := Option.map_eq_some_iff.mp hremove
  obtain ⟨rfl, rfl⟩ := Prod.mk.inj heq
  obtain ⟨⟨freed, map⟩, hrelease, hm⟩ := Option.bind_eq_some_iff.mp hresult
  obtain rfl := Option.some.inj hm
  obtain ⟨hmanager, hopen, hcalls⟩ := closeAll_eq_some hclosed
  rw [htables] at hrelease
  refine ⟨freed, map, _, hrelease, rfl, ?_, ?_, ?_, ?_⟩
  · rw [hmanager]
  · rw [hmanager]
    exact hused
  · rw [hopen, ← hopenFds]
  · rw [hcalls, ← hissued]

/-- The child shares the table of its parent or gets a copy of its own. -/
theorem startProcess_eq_some {child : Int} {sharedUmask sharedFiles : Bool} {u : Unit}
    (h : startProcess pid child sharedUmask sharedFiles w = some (u, w')) :
    (sharedFiles = true ∧ ∃ map, w.manager.fdTableMap.share pid child = some map ∧
        w'.manager.fdTableMap = map ∧
        w'.manager.replayerUsedFds = w.manager.replayerUsedFds ∧ w'.openFds = w.openFds) ∨
      (sharedFiles = false ∧ ∃ t copy w₁ w₂, SameDescriptors w w₁ ∧ w.table pid = some t ∧
        t.toList.foldlM cloneEntry ∅ w₁ = some (copy, w₂) ∧
        w'.manager.fdTableMap = w₂.manager.fdTableMap.create child copy ∧
        w'.manager.replayerUsedFds = w₂.manager.replayerUsedFds ∧ w'.openFds = w₂.openFds) := by
  obtain ⟨_, w₁, humask, hrest⟩ := bind_eq_some.mp h
  have hsame := cloneUmask_eq_some humask
  obtain ⟨_, w₂, hfiles, hstart⟩ := bind_eq_some.mp hrest
  obtain rfl := (Prod.mk.inj (Option.some.inj hstart)).2
  unfold cloneFdTable at hfiles
  split at hfiles
  · rename_i hshared
    obtain ⟨m, hm, rfl⟩ := updateManager_eq_some hfiles
    obtain ⟨map, hshare, rfl⟩ := Option.map_eq_some_iff.mp hm
    rw [hsame.fdTableMap] at hshare
    exact .inl ⟨hshared, map, hshare, rfl, hsame.replayerUsedFds, hsame.openFds⟩
  · rename_i hown
    obtain ⟨parent, w₃, hparent, hcopy⟩ := bind_eq_some.mp hfiles
    obtain ⟨parent', hget, heq⟩ := Option.map_eq_some_iff.mp hparent
    obtain ⟨rfl, rfl⟩ := Prod.mk.inj heq
    obtain ⟨copy, w₄, hloop, hcreate⟩ := bind_eq_some.mp hcopy
    obtain ⟨m, hm, rfl⟩ := updateManager_eq_some hcreate
    obtain rfl := Option.some.inj hm
    have htable : w.table pid = some parent' := by
      rw [← hget]
      exact congrArg (fun map => map.get pid) hsame.fdTableMap.symm
    exact .inr ⟨eq_false_of_ne_true hown, parent', copy, w₁, w₄, hsame, htable, hloop, rfl, rfl,
      rfl⟩

theorem cloneProcessRow_eq_some {held flagVal : Int}
    (h : cloneProcessRow pid returnValue held flagVal w = some (replayed, w')) :
    ∃ sharedUmask, startProcess pid (int32 returnValue) sharedUmask
      (BitVec.ofInt 32 flagVal &&& cloneFiles ≠ 0 || BitVec.ofInt 32 flagVal &&& cloneThread ≠ 0)
      w = some ((), w') := by
  obtain ⟨-, a, hstart⟩ := bind_pure_eq_some.mp h
  exact ⟨_, hstart⟩

theorem vforkProcessRow_eq_some {held : Int}
    (h : vforkProcessRow pid returnValue held w = some (replayed, w')) :
    startProcess pid (int32 returnValue) false false w = some ((), w') := by
  obtain ⟨-, a, hstart⟩ := bind_pure_eq_some.mp h
  exact hstart

theorem cloneEntry_eq_some {t t' : FdTable} {k : Int} {e : FileDescriptorEntry}
    (h : cloneEntry t (k, e) w = some (t', w')) :
    ∃ newFd, FdTable.addFdEntry t k newFd e.flags = some t' ∧
      ((e.fd > 0 ∧ newFd = int32 (w.answer (.dup e.fd)) ∧ w' = w.serve (.dup e.fd)) ∨
        (¬e.fd > 0 ∧ newFd = e.fd ∧ w' = w)) := by
  unfold cloneEntry at h
  split at h
  · rename_i hpos
    rw [bind_of_eq_some (intSyscall_apply _ w)] at h
    obtain ⟨hadd, rfl⟩ := lift_eq_some.mp h
    exact ⟨_, hadd, .inl ⟨hpos, rfl, rfl⟩⟩
  · rename_i hnot
    rw [bind_of_eq_some (pure_apply _ w)] at h
    obtain ⟨hadd, rfl⟩ := lift_eq_some.mp h
    exact ⟨_, hadd, .inr ⟨hnot, rfl, rfl⟩⟩

/-- The loop that copies a table, with a property of what is left to copy. The
entries still to come have keys that the copy does not map. -/
theorem cloneEntries_loop {I : List (Int × FileDescriptorEntry) → FdTable → World → Prop}
    {t copy : FdTable} {w₁ w₂ : World} (hstart : I t.toList ∅ w₁)
    (hstep : ∀ (copy copy' : FdTable) (k : Int) (e : FileDescriptorEntry) rest (v v' : World),
      t[k]? = some e → copy[k]? = none → I ((k, e) :: rest) copy v →
      cloneEntry copy (k, e) v = some (copy', v') → I rest copy' v')
    (hrun : t.toList.foldlM cloneEntry ∅ w₁ = some (copy, w₂)) : I [] copy w₂ := by
  have hdistinct := ExtTreeMap.distinct_keys_toList (t := t)
  have hloop := Triple.foldlM (f := cloneEntry)
    (I := fun rest copy v => I rest copy v ∧ ∀ pair ∈ rest, copy[pair.1]? = none) t.toList ?_ ∅
  · refine (hloop ⟨hstart, ?_⟩ hrun).1
    intro pair _
    exact ExtTreeMap.getElem?_empty
  · rintro copy ⟨k, e⟩ rest hsuffix v copy' v' ⟨hI, hnew⟩ hentry
    have hfresh : copy[k]? = none := hnew (k, e) List.mem_cons_self
    have he : t[k]? = some e :=
      ExtTreeMap.mem_toList_iff_getElem?_eq_some.mp (hsuffix.mem List.mem_cons_self)
    refine ⟨hstep copy copy' k e rest v v' he hfresh hI hentry, ?_⟩
    intro pair hpair
    obtain ⟨newFd, hadd, -⟩ := cloneEntry_eq_some hentry
    rw [FdTable.addFdEntry_of_unmapped hfresh] at hadd
    obtain rfl := Option.some.inj hadd
    have hne : ¬compare k pair.1 = .eq :=
      (List.pairwise_cons.mp (hdistinct.sublist hsuffix.sublist)).1 pair hpair
    rw [getElem?_insert, if_neg]
    · exact hnew pair (List.mem_cons_of_mem _ hpair)
    · intro heq
      exact hne (Std.compare_eq_iff_eq.mpr heq)

/-- A property of the copy and the world that each new entry keeps. -/
theorem cloneEntries_induction {I : FdTable → World → Prop} {t copy : FdTable} {w₁ w₂ : World}
    (hstart : I ∅ w₁)
    (hstep : ∀ (copy copy' : FdTable) (k : Int) (e : FileDescriptorEntry) (v v' : World),
      t[k]? = some e → copy[k]? = none → I copy v → cloneEntry copy (k, e) v = some (copy', v') →
      I copy' v')
    (hrun : t.toList.foldlM cloneEntry ∅ w₁ = some (copy, w₂)) : I copy w₂ := by
  refine cloneEntries_loop (I := fun _ => I) hstart ?_ hrun
  intro copy copy' k e rest v v'
  exact hstep copy copy' k e v v'

end ReplayModules

end SyscallReplayer
