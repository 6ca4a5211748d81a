import Mathlib.Logic.Function.Basic
import SyscallReplayer.Isolation
import SyscallReplayer.SimulatedDuplicates

/-!
# The files behind duplicated descriptors

Which open file each descriptor refers to is not kept anywhere, but the calls
determine it: a duplicate refers to the file of the descriptor it was made from.
`dup2` and `dup3` should leave the new descriptor on the file of the old one and
every other entry where it is. They do unless an earlier replay of the new
descriptor failed, since the failure is what they duplicate to.
-/

namespace SyscallReplayer.DuplicatedFiles

open Std (ExtTreeMap)
open CInt SharedEntries ReplayKernel ResourcesManager ReplayWorld ReplayModules ReplayRuns
open StatePrograms TransitionSystem World SuccessfulRecords Isolation SimulatedDuplicates

section Files

variable {φ : Type} (created : Nat → φ × φ)

/-- The open files after a call. A call that opens files gets those that `created`
has for it. -/
def fileAfter (w : World) (file : Int → φ) (call : SystemCall) : Int → φ :=
  let value := w.answer call
  let files := created w.issued.length
  if value = -1 then file
  else
    match call with
    | .open_ _ _ _ | .openat _ _ _ _ | .creat _ _ => Function.update file value files.1
    | .dup fd => Function.update file value (file fd)
    | .fcntl fd command _ =>
        if command = fDupfd ∨ command = fDupfdCloexec then Function.update file value (file fd)
        else file
    | .dup2 oldFd _ | .dup3 oldFd _ _ => Function.update file value (file oldFd)
    | .pipe _ =>
        let (readFd, writeFd) := w.reply.pipefd
        Function.update (Function.update file readFd files.1) writeFd files.2
    | _ => file

/-- The open files after the calls that are issued from a world on. -/
def filesAfter : World → (Int → φ) → List SystemCall → Int → φ
  | _, file, [] => file
  | w, file, call :: calls => filesAfter (w.serve call) (fileAfter created w file call) calls

end Files

/-- The new descriptor refers to the file of the old one, which stays where it is,
and every entry but that of the new descriptor is the same and refers to the same
open file. -/
structure DuplicatesFile {φ : Type} (file file' : Int → φ) (pid oldFd newFd fd : Int)
    (w w' : World) : Prop where
  new : ∃ copy, w'.resolves pid newFd = some copy ∧ 0 ≤ copy ∧ copy ∈ w'.openFds ∧
    file' copy = file fd
  old : w'.resolves pid oldFd = some fd ∧ fd ∈ w'.openFds ∧ file' fd = file fd
  entries : ∀ q (k : Int), ¬(w.tableOf q = w.tableOf pid ∧ k = newFd) →
    (w'.table q).map (fun t => t[k]?) = (w.table q).map fun t => t[k]?
  others : ∀ q k x, ¬(w.tableOf q = w.tableOf pid ∧ k = newFd) → w.Maps q k x →
    x ∈ w.openFds → x ∈ w'.openFds ∧ file' x = file x

/-- The kernel makes the duplicate, and has a place for it: the new descriptor holds
one, or holds none that is real and some descriptor is not in use. -/
def Redirectable (w : World) (a : Execution) : Prop :=
  w.reply.value ≠ -1 ∧
    (∀ fd, w.Maps a.pid a.returnValue fd → fd = syscallSimulated ∨ isFd fd = true) ∧
      ((∀ fd, w.Maps a.pid a.returnValue fd → fd = syscallSimulated) →
        ∃ fd, isFd fd = true ∧ fd ∉ w.manager.usedFds)

section Target

theorem le_leastUnused (used : Finset Int) (fuel : Nat) (start : Int) :
    start ≤ Manager.leastUnused used fuel start := by
  induction fuel generalizing start with
  | zero => exact le_rfl
  | succ fuel ih =>
      unfold Manager.leastUnused
      split
      · have hnext := ih (start + 1)
        omega
      · exact le_rfl

theorem leastUnused_le {used : Finset Int} {fd : Int} (hfd : fd ∉ used) (fuel : Nat)
    (start : Int) (hstart : start ≤ fd) : Manager.leastUnused used fuel start ≤ fd := by
  induction fuel generalizing start with
  | zero => exact hstart
  | succ fuel ih =>
      unfold Manager.leastUnused
      split
      · rename_i hused
        apply ih
        have hne : start ≠ fd := fun heq => hfd (heq ▸ hused)
        omega
      · exact hstart

theorem isFd_leastUnused_iff (m : Manager) :
    isFd (Manager.leastUnused m.usedFds m.usedFds.card 0) = true ↔
      ∃ fd, isFd fd = true ∧ fd ∉ m.usedFds := by
  constructor
  · intro h
    exact ⟨_, h, Manager.leastUnused_usedFds m⟩
  · rintro ⟨fd, hfd, hunused⟩
    have hlower := le_leastUnused m.usedFds m.usedFds.card 0
    simp only [isFd, Bool.and_eq_true, decide_eq_true_eq] at hfd ⊢
    have hupper := leastUnused_le hunused m.usedFds.card 0 hfd.1
    omega

variable {w : World} {pid newFd : Int} {t : FdTable}

theorem mem_usedFds_erase_iff (ht : w.table pid = some t) {fd : Int} :
    fd ∈ (w.setTable pid (t.erase newFd)).manager.usedFds ↔
      (∃ p k, w.Maps p k fd ∧ ¬(w.tableOf p = w.tableOf pid ∧ newFd = k)) ∨
        fd ∈ w.manager.replayerUsedFds := by
  rw [mem_usedFds_iff]
  simp only [maps_setTable_erase ht]
  rfl

/-- Only a simulated descriptor goes from those in use. -/
theorem usedFds_erase_iff (ht : w.table pid = some t)
    (hsim : ∀ fd, w.Maps pid newFd fd → fd = syscallSimulated) {fd : Int} (hfd : 0 ≤ fd) :
    fd ∈ (w.setTable pid (t.erase newFd)).manager.usedFds ↔ fd ∈ w.manager.usedFds := by
  rw [mem_usedFds_erase_iff ht, mem_usedFds_iff]
  apply or_congr_left
  constructor
  · rintro ⟨p, k, hmaps, -⟩
    exact ⟨p, k, hmaps⟩
  · rintro ⟨p, k, hmaps⟩
    refine ⟨p, k, hmaps, ?_⟩
    rintro ⟨hsame, rfl⟩
    have heq := hsim fd (maps_of_tableOf_eq hsame hmaps)
    rw [syscallSimulated] at heq
    omega

end Target

section Record

variable {w w' : World} {pid oldFd newFd replayed : Int} {t : FdTable} {e : FileDescriptorEntry}

/-- Where the old descriptor is duplicated to. -/
def target (w : World) (pid newFd : Int) (t : FdTable) : Int :=
  duplicateTarget t newFd (w.setTable pid (t.erase newFd)).manager

/-- A run on a real descriptor makes one call and maps what the call returns. -/
structure Redirected (pid newFd : Int) (t : FdTable) (call : SystemCall) (w w' : World) :
    Prop where
  table : ∃ flags, Replaced w pid ((t.erase newFd).insert newFd ⟨int32 (w.answer call), flags⟩) w'
  openFds : w'.openFds = (w.serve call).openFds
  issued : w'.issued = w.issued ++ [call]

theorem redirected_of_run {newFdFlags : BitVec 32 → BitVec 32} {call : Int → Int → SystemCall}
    (ht : w.table pid = some t) (he : t[oldFd]? = some e) (hreal : e.fd ≠ syscallSimulated)
    (hnew : isFd newFd = true)
    (hrun : duplicateTo pid newFd oldFd newFd newFdFlags call w = some (replayed, w')) :
    Redirected pid newFd t (call e.fd (target w pid newFd t)) w w' := by
  obtain ⟨t', e', w₁, ht', he', rfl, hcase⟩ := duplicateTo_eq_some hrun
  obtain rfl := Option.some.inj (ht.symm.trans ht')
  obtain rfl := Option.some.inj (he.symm.trans he')
  have ht₁ : (w.setTable pid (t.erase newFd)).table pid = some (t.erase newFd) :=
    table_setTable_self ht
  rcases hcase with ⟨hsim, -⟩ | ⟨-, _, rfl, hadd⟩
  · exact absurd hsim hreal
  · obtain ⟨-, rfl⟩ := (addFd_serve_iff ht₁ hnew).mp hadd
    have hreplaced := (Replaced.refl ht).setTable ht (t.erase newFd)
    exact ⟨⟨_, (hreplaced.serve _).setTable ht _⟩, rfl, rfl⟩

/-- No entry but that of the new descriptor holds the descriptor that is duplicated
to. -/
theorem ne_target (ht : w.table pid = some t)
    (hapart : ∀ p q k b x, 0 ≤ x → w.Maps p k x → w.Maps q b x →
      w.tableOf p = w.tableOf q ∧ k = b)
    {q k x : Int} (hother : ¬(w.tableOf q = w.tableOf pid ∧ k = newFd)) (hmaps : w.Maps q k x)
    (hx : 0 ≤ x) : x ≠ target w pid newFd t := by
  rintro rfl
  by_cases hheld : t.hasFd newFd = true ∧ t.getFd newFd ≠ syscallSimulated
  · have htarget : target w pid newFd t = t.getFd newFd := by
      rw [target, duplicateTarget, if_pos hheld]
    rw [htarget] at hmaps hx
    obtain ⟨e, he⟩ := FdTable.hasFd_iff.mp hheld.1
    have hnew : w.Maps pid newFd (t.getFd newFd) := ⟨t, ht, FdTable.maps_getFd he⟩
    exact hother (hapart q pid k newFd _ hx hmaps hnew)
  · have htarget : target w pid newFd t = Manager.leastUnused
        (w.setTable pid (t.erase newFd)).manager.usedFds
        (w.setTable pid (t.erase newFd)).manager.usedFds.card 0 := by
      rw [target, duplicateTarget, if_neg hheld]
    rw [htarget] at hmaps
    apply Manager.leastUnused_usedFds (w.setTable pid (t.erase newFd)).manager
    exact (mem_usedFds_erase_iff ht).mpr (.inl ⟨q, k, hmaps, fun hboth =>
      hother ⟨hboth.1, hboth.2.symm⟩⟩)

theorem isFd_target_iff (ht : w.table pid = some t) :
    isFd (target w pid newFd t) = true ↔
      (∀ fd, w.Maps pid newFd fd → fd = syscallSimulated ∨ isFd fd = true) ∧
        ((∀ fd, w.Maps pid newFd fd → fd = syscallSimulated) →
          ∃ fd, isFd fd = true ∧ fd ∉ w.manager.usedFds) := by
  have hmaps : ∀ fd, w.Maps pid newFd fd ↔ t.hasFd newFd = true ∧ fd = t.getFd newFd := by
    intro fd
    rw [World.maps_iff ht]
    constructor
    · rintro ⟨e, he, rfl⟩
      exact ⟨FdTable.hasFd_iff.mpr ⟨e, he⟩, (FdTable.getFd_of_mapped he).symm⟩
    · rintro ⟨hhas, rfl⟩
      obtain ⟨e, he⟩ := FdTable.hasFd_iff.mp hhas
      exact FdTable.maps_getFd he
  by_cases hheld : t.hasFd newFd = true ∧ t.getFd newFd ≠ syscallSimulated
  · have htarget : target w pid newFd t = t.getFd newFd := by
      rw [target, duplicateTarget, if_pos hheld]
    have hnew := (hmaps (t.getFd newFd)).mpr ⟨hheld.1, rfl⟩
    rw [htarget]
    constructor
    · intro hisFd
      refine ⟨?_, fun hsim => absurd (hsim _ hnew) hheld.2⟩
      intro fd hfd
      exact .inr (((hmaps fd).mp hfd).2 ▸ hisFd)
    · rintro ⟨hplaces, -⟩
      exact (hplaces _ hnew).resolve_left hheld.2
  · have hsim : ∀ fd, w.Maps pid newFd fd → fd = syscallSimulated := by
      intro fd hfd
      obtain ⟨hhas, rfl⟩ := (hmaps fd).mp hfd
      by_contra hne
      exact hheld ⟨hhas, hne⟩
    have htarget : target w pid newFd t = Manager.leastUnused
        (w.setTable pid (t.erase newFd)).manager.usedFds
        (w.setTable pid (t.erase newFd)).manager.usedFds.card 0 := by
      rw [target, duplicateTarget, if_neg hheld]
    rw [htarget, isFd_leastUnused_iff]
    have hsame : ∀ fd, isFd fd = true ∧
        fd ∉ (w.setTable pid (t.erase newFd)).manager.usedFds ↔
          isFd fd = true ∧ fd ∉ w.manager.usedFds := by
      intro fd
      apply and_congr_right
      intro hisFd
      rw [usedFds_erase_iff ht hsim (isFd_nonneg hisFd)]
    simp only [hsame]
    constructor
    · intro hleft
      exact ⟨fun fd hfd => .inl (hsim fd hfd), fun _ => hleft⟩
    · rintro ⟨-, hleft⟩
      exact hleft hsim

theorem getElem?_redirected {k : Int} (hk : k ≠ newFd) (fd : Int) (flags : BitVec 32) :
    ((t.erase newFd).insert newFd ⟨fd, flags⟩)[k]? = t[k]? := by
  rw [getElem?_insert, if_neg hk.symm, getElem?_erase, if_neg hk.symm]

variable {φ : Type} {created : Nat → φ × φ} {file : Int → φ} {call : Int → Int → SystemCall}

/-- The record is right just when the kernel makes the duplicate and is told a
descriptor. -/
theorem duplicatesFile_iff (ht : w.table pid = some t) (he : t[oldFd]? = some e)
    (hnonneg : 0 ≤ e.fd) (hopen : e.fd ∈ w.openFds) (hdistinct : oldFd ≠ newFd)
    (hapart : ∀ p q k b x, 0 ≤ x → w.Maps p k x → w.Maps q b x →
      w.tableOf p = w.tableOf q ∧ k = b)
    (hcall : ∀ x y, x ≠ y → outcome w.openFds w.reply (call x y) =
      redirected w.openFds (w.reply.value ≠ -1) x y)
    (hfile : ∀ x y, fileAfter created w file (call x y) = if w.answer (call x y) = -1 then file
      else Function.update file (w.answer (call x y)) (file x))
    (h : Redirected pid newFd t (call e.fd (target w pid newFd t)) w w') :
    DuplicatesFile file (filesAfter created w file (w'.issued.drop w.issued.length)) pid oldFd
      newFd e.fd w w' ↔ w.reply.value ≠ -1 ∧ isFd (target w pid newFd t) = true := by
  have hold : w.Maps pid oldFd e.fd := ⟨t, ht, e, he, rfl⟩
  have hne : e.fd ≠ target w pid newFd t :=
    ne_target ht hapart (fun hboth => hdistinct hboth.2) hold hnonneg
  have hfiles : filesAfter created w file (w'.issued.drop w.issued.length) =
      fileAfter created w file (call e.fd (target w pid newFd t)) := by
    rw [h.issued, List.drop_left]
    rfl
  obtain ⟨flags, hreplaced⟩ := h.table
  have htable := hreplaced.table_eq ht
  have hself := htable pid
  rw [if_pos rfl] at hself
  have hnew : w'.resolves pid newFd =
      some (int32 (w.answer (call e.fd (target w pid newFd t)))) := by
    rw [resolves_of_table hself,
      FdTable.getFd_of_mapped (by rw [getElem?_insert, if_pos rfl])]
  have houtcome := hcall _ _ hne
  rw [hfiles, hfile]
  constructor
  · rintro ⟨⟨copy, hcopy, hcopyNonneg, -⟩, -, -, -⟩
    rw [hnew, Option.some.injEq] at hcopy
    rcases redirected_cases houtcome with ⟨⟨hallowed, -, htarget⟩, -⟩ | ⟨-, hfailed, -⟩
    · exact ⟨of_decide_eq_true hallowed, htarget⟩
    · omega
  · rintro ⟨hreply, htarget⟩
    have hmade : decide (w.reply.value ≠ -1) = true ∧ e.fd ∈ w.openFds ∧
        isFd (target w pid newFd t) = true := ⟨decide_eq_true hreply, hopen, htarget⟩
    have hanswer : w.answer (call e.fd (target w pid newFd t)) = target w pid newFd t := by
      rw [World.answer, houtcome, redirected, if_pos]
      simp [hmade]
    have hfds : w'.openFds = insert (target w pid newFd t) w.openFds := by
      rw [h.openFds, serve_openFds, houtcome, redirected, if_pos]
      simp [hmade]
    have htargetNonneg := isFd_nonneg htarget
    rw [hanswer, if_neg (by omega)]
    -- every other entry holds another descriptor
    have hothers : ∀ q k x, ¬(w.tableOf q = w.tableOf pid ∧ k = newFd) → w.Maps q k x →
        x ∈ w.openFds → x ∈ w'.openFds ∧
          Function.update file (target w pid newFd t) (file e.fd) x = file x := by
      intro q k x hother hmaps hx
      have hxne : x ≠ target w pid newFd t := by
        by_cases hxNonneg : 0 ≤ x
        · exact ne_target ht hapart hother hmaps hxNonneg
        · omega
      exact ⟨hfds ▸ Finset.mem_insert_of_mem hx, Function.update_of_ne hxne _ _⟩
    constructor
    · refine ⟨target w pid newFd t, ?_, htargetNonneg, ?_, Function.update_self _ _ _⟩
      · rw [hnew, hanswer, int32_of_isFd htarget]
      · rw [hfds]
        exact Finset.mem_insert_self _ _
    · refine ⟨?_, hothers pid oldFd e.fd (fun hboth => hdistinct hboth.2) hold hopen⟩
      rw [resolves_of_table hself,
        FdTable.getFd_of_mapped ((getElem?_redirected hdistinct _ _).trans he)]
    · intro q k hother
      rw [htable q]
      by_cases hshares : w.tableOf q = w.tableOf pid
      · rw [if_pos hshares, table_of_tableOf_eq hshares, ht, Option.map_some, Option.map_some,
          getElem?_redirected fun hk => hother ⟨hshares, hk⟩]
      · rw [if_neg hshares]
    · exact hothers

end Record

/-- `dup2` and `dup3` leave the new descriptor on the file of the old one, and every
other entry where it is, just when the kernel makes the duplicate and has a place
for it. -/
theorem redirection_duplicates_file_iff {φ : Type} (created : Nat → φ × φ) (file : Int → φ)
    (opts : Options) (w : World) (a : Execution) (fd : Int) (ha : Duplication a)
    (hredirects : redirects a = true) (hdistinct : oldDescriptor a ≠ a.returnValue)
    (hold : w.resolves a.pid (oldDescriptor a) = some fd) (hnonneg : 0 ≤ fd)
    (hopen : fd ∈ w.openFds)
    (hapart : ∀ p q k b x, 0 ≤ x → w.Maps p k x → w.Maps q b x →
      w.tableOf p = w.tableOf q ∧ k = b) :
    (∃ m replayed w', a.module = some m ∧
      processRow opts m a.position.1 a.position.2 w = some (replayed, w') ∧
      DuplicatesFile file (filesAfter created w file (w'.issued.drop w.issued.length)) a.pid
        (oldDescriptor a) a.returnValue fd w w') ↔ Redirectable w a := by
  obtain ⟨t, ht, hfd⟩ := Option.map_eq_some_iff.mp ((resolves_eq w a.pid _).symm.trans hold)
  obtain ⟨e, he, hefd⟩ := FdTable.exists_of_getFd_ne (t := t) (k := oldDescriptor a) (by omega)
  obtain rfl : e.fd = fd := hefd.trans hfd
  have hreal : e.fd ≠ syscallSimulated := by
    rw [syscallSimulated]
    omega
  obtain ⟨m, hm⟩ := exists_module ha
  obtain ⟨replayed, w', hrun⟩ := @exists_run opts w a m t e ha hm ht he
    (by rw [hredirects]; exact spared_true_getElem?)
  have hiff : DuplicatesFile file (filesAfter created w file (w'.issued.drop w.issued.length))
      a.pid (oldDescriptor a) a.returnValue e.fd w w' ↔
        w.reply.value ≠ -1 ∧ isFd (target w a.pid a.returnValue t) = true := by
    have hprogram := @tableProgram_of_module opts a m (changesTables_of_duplication ha) hm
    generalize processRow opts m a.position.1 a.position.2 = program at hprogram hrun
    cases hprogram
    case dup2 hkind =>
      rw [dup2ProcessRow, ← ha.redirected hredirects] at hrun
      rw [oldDescriptor, if_pos hredirects] at he hdistinct ⊢
      exact duplicatesFile_iff ht he hnonneg hopen hdistinct hapart (fun _ _ _ => rfl)
        (fun _ _ => rfl) (redirected_of_run ht he hreal ha.returned hrun)
    case dup3 hkind =>
      rw [dup3ProcessRow, ← ha.redirected hredirects] at hrun
      rw [oldDescriptor, if_pos hredirects] at he hdistinct ⊢
      refine duplicatesFile_iff ht he hnonneg hopen hdistinct hapart ?_ (fun _ _ => rfl)
        (redirected_of_run ht he hreal ha.returned hrun)
      intro x y hxy
      simp [outcome, hxy]
    case open_ hkind _ => rcases hkind with hkind | ⟨hkind, -⟩ <;> simp_all [redirects]
    all_goals simp_all [redirects]
  have hcondition : (w.reply.value ≠ -1 ∧ isFd (target w a.pid a.returnValue t) = true) ↔
      Redirectable w a := by
    unfold Redirectable
    rw [isFd_target_iff ht]
  rw [← hcondition, ← hiff]
  constructor
  · rintro ⟨m', replayed', w₁, hm', hrun', hduplicates⟩
    obtain rfl := Option.some.inj (hm.symm.trans hm')
    obtain ⟨rfl, rfl⟩ := Prod.mk.inj (Option.some.inj (hrun.symm.trans hrun'))
    exact hduplicates
  · intro hduplicates
    exact ⟨m, replayed, w', hm, hrun, hduplicates⟩

/-- The first call fails, and call `n` after it gets the descriptor `n + 3`. -/
def firstRefused (n : Nat) : Reply :=
  if n = 0 then ⟨-1, 2, (0, 0)⟩ else inOrder n

/-- Process 1 has opened 3, which failed in the replay, and 4. -/
def refusedWorld : World :=
  worldAfter (startWorld firstRefused) [queuedCall .open_ 1 3 0, queuedCall .open_ 1 4 0]

def refusedTable : FdTable :=
  (stdTable.insert 3 ⟨-1, 0⟩).insert 4 ⟨4, 0⟩

theorem refusedWorld_reached :
    (replaySystem quiet (startWorld firstRefused)).ReachVia Separating refusedWorld := by
  refine .step (.step .init (a := queuedCall .open_ 1 3 0) ⟨rfl, ?_⟩ rfl)
    (a := queuedCall .open_ 1 4 0) ⟨rfl, ?_⟩ rfl
  · rintro (hkind | hkind) <;> cases hkind
  · rintro (hkind | hkind) <;> cases hkind

theorem refusedWorld_isolated : Isolated ∅ refusedWorld :=
  refusedWorld_reached.invariant _ (isolated_of_prepared (startWorld_prepared firstRefused))
    fun _ _ _ _ hs hok hstep => step_isolated hs hok hstep

/-- `dup2` of 4 to `newFd`. -/
def dup2To (newFd : Int) : Execution :=
  queuedCall .dup2 1 newFd fun
    | .old_descriptor => 4
    | .new_descriptor => newFd
    | _ => 0

theorem dup2To_five_redirectable : Redirectable refusedWorld (dup2To 5) := by
  have hunmapped : ∀ fd, ¬refusedWorld.Maps 1 5 fd := by
    rintro fd ⟨t, ht, e, he, -⟩
    obtain rfl : refusedTable = t := Option.some.inj ht
    have hnone : refusedTable[(5 : Int)]? = none := by decide
    exact nomatch hnone.symm.trans he
  refine ⟨by decide, fun fd hfd => absurd hfd (hunmapped fd), fun _ => ⟨3, rfl, by decide⟩⟩

/-- A descriptor that is not mapped gets the file. -/
theorem dup2To_five_duplicates :
    ∃ m replayed w', (dup2To 5).module = some m ∧
      processRow quiet m (dup2To 5).position.1 (dup2To 5).position.2 refusedWorld =
        some (replayed, w') ∧
      DuplicatesFile id (filesAfter (fun _ => (0, 0)) refusedWorld id
        (w'.issued.drop refusedWorld.issued.length)) 1 4 5 4 refusedWorld w' :=
  (redirection_duplicates_file_iff (fun _ => (0, 0)) id quiet refusedWorld (dup2To 5) 4
    ⟨rfl, rfl, fun _ => rfl⟩ rfl (by decide) rfl (by decide) (by decide)
    fun p q k b x hx => refusedWorld_isolated.apart hx).mpr dup2To_five_redirectable

/-- A descriptor whose replay has failed is duplicated to -1, and stays failed. -/
theorem dup2To_failed_not_duplicated :
    Duplication (dup2To 3) ∧ refusedWorld.resolves 1 4 = some 4 ∧ 4 ∈ refusedWorld.openFds ∧
      (∀ p q k b x, 0 ≤ x → refusedWorld.Maps p k x → refusedWorld.Maps q b x →
        refusedWorld.tableOf p = refusedWorld.tableOf q ∧ k = b) ∧
      ¬∃ m replayed w', (dup2To 3).module = some m ∧
        processRow quiet m (dup2To 3).position.1 (dup2To 3).position.2 refusedWorld =
          some (replayed, w') ∧
        DuplicatesFile id (filesAfter (fun _ => (0, 0)) refusedWorld id
          (w'.issued.drop refusedWorld.issued.length)) 1 4 3 4 refusedWorld w' := by
  refine ⟨⟨rfl, rfl, fun _ => rfl⟩, rfl, by decide,
    fun p q k b x hx => refusedWorld_isolated.apart hx, ?_⟩
  rintro ⟨m, replayed, w', hm, hrun, ⟨⟨copy, hcopy, hnonneg, -⟩, -, -, -⟩⟩
  obtain rfl := Option.some.inj hm
  have hafter : w' = worldAfter refusedWorld [dup2To 3] :=
    (Prod.mk.inj (Option.some.inj hrun)).2.symm
  rw [hafter] at hcopy
  have hfailed : (worldAfter refusedWorld [dup2To 3]).resolves 1 3 = some (-1) := rfl
  rw [hfailed, Option.some.injEq] at hcopy
  omega

end SyscallReplayer.DuplicatedFiles
