import SyscallReplayer.ResourceSteps

/-!
# Calls that failed in the trace

Whether replaying a call that returned -1 leaves every table as it is: the
modules enter -1 as the new descriptor, which is harmless, but some of them read
the flags of a descriptor that may not be mapped, and some remove the entry of
the new descriptor before they call.
-/

namespace SyscallReplayer.TracedFailures

open Std (ExtTreeMap)
open CInt SharedEntries ReplayKernel ResourcesManager ReplayWorld ReplayModules
open StatePrograms TransitionSystem SnapshotFidelity World ReplayRuns ResourceSteps

def entry (w : World) (pid k : Int) : Option FileDescriptorEntry :=
  (w.table pid).bind fun t => t[k]?

/-- Every traced descriptor of every process stands for what it stood for. -/
def SameEntries (w w' : World) : Prop :=
  ∀ pid k : Int, k ≠ -1 → entry w' pid k = entry w pid k

/-- The run violates no assertion and leaves the entries as they are. -/
def LeavesEntries (w : World) (run : Option (Int × World)) : Prop :=
  ∃ replayed w', run = some (replayed, w') ∧ SameEntries w w'

def Agree (t t' : FdTable) : Prop :=
  ∀ k : Int, k ≠ -1 → t'[k]? = t[k]?

section

variable {w w' w'' : World} {pid : Int} {t t' : FdTable}

theorem SameEntries.trans (h : SameEntries w w') (h' : SameEntries w' w'') :
    SameEntries w w'' := by
  intro q k hk
  rw [h' q k hk, h q k hk]

theorem SameEntries.symm (h : SameEntries w w') : SameEntries w' w := by
  intro q k hk
  exact (h q k hk).symm

theorem sameEntries_of_tables_eq (h : w'.manager.fdTableMap = w.manager.fdTableMap) :
    SameEntries w w' := by
  intro q k _
  unfold entry table
  rw [h]

theorem sameEntries_setTable_iff (ht : w.table pid = some t) :
    SameEntries w (w.setTable pid t') ↔ Agree t t' := by
  have hentry : ∀ q k : Int, entry (w.setTable pid t') q k =
      if w.tableOf q = w.tableOf pid then t'[k]? else entry w q k := by
    intro q k
    unfold entry
    rw [table_setTable ht]
    split
    · rfl
    · rfl
  constructor
  · intro h k hk
    have hpid := h pid k hk
    rw [hentry, if_pos rfl] at hpid
    rw [hpid, entry, ht, Option.bind_some]
  · intro h q k hk
    rw [hentry]
    split
    · rename_i hsame
      have htable : w.table q = some t := by
        rw [← ht]
        exact Shared.get_congr hsame
      rw [h k hk, entry, htable, Option.bind_some]
    · rfl

theorem agree_erase_iff {k : Int} : Agree t (t.erase k) ↔ k = -1 ∨ t.hasFd k = false := by
  rw [FdTable.hasFd_eq_false_iff]
  constructor
  · intro h
    by_cases hk : k = -1
    · exact .inl hk
    · right
      have hentry := h k hk
      rw [getElem?_erase, if_pos rfl] at hentry
      exact hentry.symm
  · intro h a ha
    rw [getElem?_erase]
    split
    · rename_i hka
      subst hka
      exact (h.resolve_left ha).symm
    · rfl

theorem leavesEntries_some_iff {replayed : Int} :
    LeavesEntries w (some (replayed, w')) ↔ SameEntries w w' := by
  constructor
  · rintro ⟨_, _, heq, h⟩
    obtain ⟨rfl, rfl⟩ := Prod.mk.inj (Option.some.inj heq)
    exact h
  · intro h
    exact ⟨replayed, w', rfl, h⟩

theorem not_leavesEntries_none : ¬LeavesEntries w none := by
  rintro ⟨_, _, heq, -⟩
  cases heq

theorem leavesEntries_iff_of_leaves {run : Option (Int × World)} (h : LeavesEntries w' run) :
    LeavesEntries w run ↔ SameEntries w w' := by
  obtain ⟨replayed, w'', rfl, hsame⟩ := h
  rw [leavesEntries_some_iff]
  constructor
  · intro hall
    exact hall.trans hsame.symm
  · intro hfirst
    exact hfirst.trans hsame

theorem addFd_failed (ht : w.table pid = some t) {k : Int} (hk : int32 k = -1) (fd : Int)
    (flags : BitVec 32) : ∃ w', addFd pid k fd flags w = some ((), w') ∧ SameEntries w w' := by
  cases hneg : t[(-1 : Int)]? with
  | none =>
      refine ⟨w.setTable pid (t.insert (-1) ⟨fd, flags⟩), ?_, ?_⟩
      · rw [addFd_run ht, hk, FdTable.addFdEntry_of_unmapped hneg]
        rfl
      · rw [sameEntries_setTable_iff ht]
        intro a ha
        rw [getElem?_insert, if_neg (fun heq => ha heq.symm)]
  | some e =>
      have hhas : t.hasFd (-1) = true := FdTable.hasFd_iff.mpr ⟨e, hneg⟩
      refine ⟨w.setTable pid t, ?_, ?_⟩
      · rw [addFd_run ht, hk]
        simp [FdTable.addFdEntry, hhas]
      · rw [sameEntries_setTable_iff ht]
        intro a _
        rfl

theorem leavesEntries_addFd {value : Int} (ht : w.table pid = some t)
    (hw' : w'.manager = w.manager) {k fd : Int} {flags : BitVec 32} (hk : int32 k = -1) :
    LeavesEntries w ((addFd pid k fd flags >>= fun _ => (pure value : Replay Int)) w') := by
  have ht' : w'.table pid = some t := by
    unfold table
    rw [hw']
    exact ht
  obtain ⟨w'', hadd, hsame⟩ := addFd_failed ht' hk fd flags
  rw [bind_of_eq_some hadd, pure_apply, leavesEntries_some_iff]
  exact (sameEntries_of_tables_eq (by rw [hw'])).trans hsame

end

section

variable {w : World} {pid : Int} {t : FdTable}

theorem open_leavesEntries (ht : w.table pid = some t) {umask : BitVec 32}
    (humask : w.manager.getUmask pid = some umask) (pathname : String) (modeVal : BitVec 32)
    (flags : Int) : LeavesEntries w (openProcessRow pid pathname modeVal flags (-1) w) := by
  unfold openProcessRow
  rw [bind_of_eq_some (getMode_run humask modeVal), bind_of_eq_some (intSyscall_apply _ w)]
  split
  · exact leavesEntries_some_iff.mpr (sameEntries_of_tables_eq rfl)
  · apply leavesEntries_addFd ht
    · rfl
    · rfl

theorem openat_leavesEntries (ht : w.table pid = some t) {umask : BitVec 32}
    (humask : w.manager.getUmask pid = some umask) {row : Row}
    (hfailed : row.int .return_value = -1) : LeavesEntries w (openatProcessRow pid row w) := by
  unfold openatProcessRow
  rw [bind_of_eq_some (getFd_run ht _), bind_of_eq_some (getMode_run humask _)]
  dsimp only
  split
  · exact leavesEntries_some_iff.mpr (sameEntries_of_tables_eq rfl)
  · rw [bind_of_eq_some (intSyscall_apply _ w)]
    split
    · exact leavesEntries_some_iff.mpr (sameEntries_of_tables_eq rfl)
    · apply leavesEntries_addFd ht
      · rfl
      · rw [hfailed]
        rfl

theorem creat_leavesEntries (ht : w.table pid = some t) {umask : BitVec 32}
    (humask : w.manager.getUmask pid = some umask) {row : Row}
    (hfailed : row.int .return_value = -1) : LeavesEntries w (creatProcessRow pid row w) := by
  unfold creatProcessRow
  rw [bind_of_eq_some (getMode_run humask _), bind_of_eq_some (intSyscall_apply _ w)]
  apply leavesEntries_addFd ht
  · rfl
  · rw [hfailed]
    rfl

theorem close_leavesEntries_iff (ht : w.table pid = some t) (held descVal : Int) :
    LeavesEntries w (closeProcessRow pid held descVal w) ↔
      descVal = -1 ∨ t.hasFd descVal = false := by
  unfold closeProcessRow
  rw [bind_of_eq_some (removeFd_run ht descVal), ← agree_erase_iff,
    ← sameEntries_setTable_iff ht]
  apply leavesEntries_iff_of_leaves
  split
  · exact leavesEntries_some_iff.mpr (sameEntries_of_tables_eq rfl)
  · exact leavesEntries_some_iff.mpr (sameEntries_of_tables_eq rfl)

theorem getFlags_eq_none (ht : w.table pid = some t) {k : Int} (h : t.hasFd k = false) :
    getFlags pid k w = none := by
  have hget : w.manager.fdTableMap.get pid = some t := ht
  rw [FdTable.hasFd_eq_false_iff] at h
  simp [getFlags, queryManager, Manager.getFlags, hget, FdTable.getFlags, h]

theorem dup_leavesEntries_iff (ht : w.table pid = some t) (tracedFd : Int) :
    LeavesEntries w (dupProcessRow pid (-1) tracedFd w) ↔ t.hasFd tracedFd = true := by
  unfold dupProcessRow
  rw [bind_of_eq_some (getFd_run ht _)]
  cases hhas : t.hasFd tracedFd with
  | false =>
      rw [bind_of_eq_none (getFlags_eq_none ht hhas)]
      exact iff_of_false not_leavesEntries_none Bool.false_ne_true
  | true =>
      refine iff_of_true ?_ rfl
      obtain ⟨e, he⟩ := FdTable.hasFd_iff.mp hhas
      rw [bind_of_eq_some (getFlags_run ht he)]
      dsimp only
      split
      · rw [bind_of_eq_some (pure_apply _ w)]
        apply leavesEntries_addFd ht
        · rfl
        · rfl
      · rw [bind_of_eq_some (intSyscall_apply _ w)]
        apply leavesEntries_addFd ht
        · rfl
        · rfl

theorem duplicateEntry_leavesEntries (ht : w.table pid = some t) (held : Int)
    (e : FileDescriptorEntry) (newFdFlags : BitVec 32 → BitVec 32)
    (call : Int → Int → SystemCall) :
    LeavesEntries w (duplicateEntry pid (-1) held e newFdFlags call w) := by
  unfold duplicateEntry
  split
  · apply leavesEntries_addFd ht
    · rfl
    · rfl
  · split
    · obtain ⟨fd, hfd⟩ := generateUnusedFd_run ht
      rw [bind_of_eq_some hfd]
      dsimp only
      rw [bind_of_eq_some (intSyscall_apply _ w)]
      apply leavesEntries_addFd ht
      · rfl
      · rfl
    · rw [bind_of_eq_some (pure_apply _ w)]
      dsimp only
      rw [bind_of_eq_some (intSyscall_apply _ w)]
      apply leavesEntries_addFd ht
      · rfl
      · rfl

/-- `dup2` and `dup3` remove the entry of the new descriptor, whatever comes of
the call. -/
theorem duplicateTo_leavesEntries_iff (ht : w.table pid = some t) (oldFd newFd : Int)
    (newFdFlags : BitVec 32 → BitVec 32) (call : Int → Int → SystemCall) :
    LeavesEntries w (duplicateTo pid (-1) oldFd newFd newFdFlags call w) ↔
      t.hasFd oldFd = true ∧ (newFd = -1 ∨ t.hasFd newFd = false) := by
  cases hhas : t.hasFd oldFd with
  | false =>
      unfold duplicateTo
      rw [bind_of_eq_some (getFd_run ht _), bind_of_eq_none (getFlags_eq_none ht hhas)]
      exact iff_of_false not_leavesEntries_none fun hboth => Bool.false_ne_true hboth.1
  | true =>
      obtain ⟨e, he⟩ := FdTable.hasFd_iff.mp hhas
      rw [duplicateTo_run ht he, ← agree_erase_iff, ← sameEntries_setTable_iff ht,
        and_iff_right rfl]
      apply leavesEntries_iff_of_leaves
      exact duplicateEntry_leavesEntries (table_setTable_self ht) _ e newFdFlags call

theorem fcntl_leavesEntries_iff (ht : w.table pid = some t)
    (tracedFd argVal type whence start length lockPid : Int) {command : Int}
    (hcommand : command = fDupfd ∨ command = fDupfdCloexec) :
    LeavesEntries w (fcntlProcessRow pid (-1) tracedFd command argVal type whence start length
      lockPid w) ↔ t.hasFd tracedFd = true := by
  unfold fcntlProcessRow
  rw [bind_of_eq_some (getFd_run ht _), bind_of_eq_some (intSyscall_apply _ w)]
  generalize hserved : w.serve _ = served
  generalize int32 (w.answer _) = replayed
  have ht' : served.table pid = some t := hserved ▸ ht
  unfold fcntlTable
  rw [if_pos hcommand]
  cases hhas : t.hasFd tracedFd with
  | false =>
      rw [bind_of_eq_none (bind_of_eq_none (getFlags_eq_none ht' hhas) _)]
      exact iff_of_false not_leavesEntries_none Bool.false_ne_true
  | true =>
      refine iff_of_true ?_ rfl
      obtain ⟨e, he⟩ := FdTable.hasFd_iff.mp hhas
      rw [bind_assoc, bind_of_eq_some (getFlags_run ht' he)]
      apply leavesEntries_addFd ht
      · rw [← hserved]
        rfl
      · rfl

theorem addFdEntry_mapped {t' : FdTable} {k fd : Int} {flags : BitVec 32}
    (h : t.addFdEntry k fd flags = some t') :
    (k = -1 ∨ t[k]? = none) ∧ (t'[k]?).isSome ∧ ∀ a : Int, (t[a]?).isSome → (t'[a]?).isSome := by
  rcases FdTable.addFdEntry_cases h with ⟨hnew, rfl⟩ | ⟨hneg, ⟨e, he⟩, rfl⟩
  · refine ⟨.inr hnew, ?_, ?_⟩
    · rw [getElem?_insert, if_pos rfl]
      rfl
    · intro a ha
      rw [getElem?_insert]
      split
      · rfl
      · exact ha
  · refine ⟨.inl hneg, ?_, fun a ha => ha⟩
    rw [he]
    rfl

theorem pair_leavesEntries_iff {w' : World} {readFd writeFd value : Int}
    (ht : w.table pid = some t) (hw' : w'.manager = w.manager) :
    LeavesEntries w ((addFd pid readFd syscallSimulated 0 >>= fun _ =>
        addFd pid writeFd syscallSimulated 0 >>= fun _ => (pure value : Replay Int)) w') ↔
      int32 readFd = -1 ∧ int32 writeFd = -1 := by
  have ht' : w'.table pid = some t := by
    unfold table
    rw [hw']
    exact ht
  constructor
  · rintro ⟨replayed, w'', hrun, hsame⟩
    obtain ⟨_, w₁, hread, hrest⟩ := bind_eq_some.mp hrun
    obtain ⟨-, _, hwrite⟩ := bind_pure_eq_some.mp hrest
    obtain ⟨s, t₁, hs, hadd₁, rfl⟩ := addFd_eq_some hread
    obtain rfl := Option.some.inj (ht'.symm.trans hs)
    obtain ⟨s, t₂, hs, hadd₂, rfl⟩ := addFd_eq_some hwrite
    obtain rfl := Option.some.inj ((table_setTable_self ht').symm.trans hs)
    obtain ⟨hnew₁, hmapped₁, hkept₁⟩ := addFdEntry_mapped hadd₁
    obtain ⟨hnew₂, hmapped₂, hkept₂⟩ := addFdEntry_mapped hadd₂
    have hold : ∀ k : Int, k ≠ -1 → (t₂[k]?).isSome → (t[k]?).isSome := by
      intro k hk hmapped
      have hentry := hsame pid k hk
      unfold entry at hentry
      rw [table_setTable_self (table_setTable_self ht'), ht, Option.bind_some,
        Option.bind_some] at hentry
      rw [← hentry]
      exact hmapped
    have hneg : ∀ k : Int, (t₂[k]?).isSome → (k = -1 ∨ t[k]? = none) → k = -1 := by
      intro k hmapped hnew
      rcases hnew with hneg | hnew
      · exact hneg
      · by_contra hne
        have hsome := hold k hne hmapped
        rw [hnew] at hsome
        cases hsome
    refine ⟨hneg _ (hkept₂ _ hmapped₁) hnew₁, hneg _ hmapped₂ (hnew₂.imp_right ?_)⟩
    intro hnone
    by_contra hsome
    have hkept := hkept₁ (int32 writeFd) (Option.isSome_iff_ne_none.mpr hsome)
    rw [hnone] at hkept
    cases hkept
  · rintro ⟨hread, hwrite⟩
    obtain ⟨w₁, hadd₁, hsame₁⟩ := addFd_failed ht' hread syscallSimulated 0
    obtain ⟨s, t₁, hs, -, rfl⟩ := addFd_eq_some hadd₁
    obtain ⟨w₂, hadd₂, hsame₂⟩ := addFd_failed (table_setTable_self hs) hwrite syscallSimulated 0
    rw [bind_of_eq_some hadd₁, bind_of_eq_some hadd₂, pure_apply, leavesEntries_some_iff]
    exact ((sameEntries_of_tables_eq (by rw [hw'])).trans hsame₁).trans hsame₂

end

def makesDescriptors (a : Execution) : Prop :=
  match a.kind with
  | .open_ | .openat | .creat | .close | .dup | .dup2 | .dup3 | .pipe | .socketpair => True
  | .fcntl =>
      a.row.int .command_value = fDupfd ∨ a.row.int .command_value = fDupfdCloexec
  | _ => False

theorem changesTables_of_makesDescriptors {a : Execution} (h : makesDescriptors a) :
    changesTables a.kind = true := by
  unfold makesDescriptors at h
  split at h <;> simp_all [changesTables]

/-- Whether the traced descriptors of a failed record are as its module needs
them. -/
def Harmless (a : Execution) (t : FdTable) : Prop :=
  match a.kind with
  | .close => a.row.int .descriptor = -1 ∨ t.hasFd (a.row.int .descriptor) = false
  | .dup | .fcntl => t.hasFd (a.row.int .descriptor) = true
  | .dup2 | .dup3 =>
      t.hasFd (a.row.int .old_descriptor) = true ∧
        (a.row.int .new_descriptor = -1 ∨ t.hasFd (a.row.int .new_descriptor) = false)
  | .pipe | .socketpair =>
      int32 (a.row.int .read_descriptor) = -1 ∧ int32 (a.row.int .write_descriptor) = -1
  | _ => True

theorem failed_leavesEntries_iff {opts : Options} {w : World} {a : Execution} {m : ReplayModule}
    {t : FdTable} {umask : BitVec 32} (ht : w.table a.pid = some t)
    (humask : w.manager.getUmask a.pid = some umask) (hkind : makesDescriptors a)
    (hm : a.module = some m) (hfailed : a.returnValue = -1) :
    LeavesEntries w (processRow opts m a.position.1 a.position.2 w) ↔ Harmless a t := by
  have hchanges := changesTables_of_makesDescriptors hkind
  have hprogram := @tableProgram_of_module opts _ _ hchanges hm
  generalize processRow opts m a.position.1 a.position.2 = program at hprogram
  unfold Harmless makesDescriptors at *
  cases hprogram with
  | open_ tracedFd hopen htraced =>
      have hneg : tracedFd = -1 := by
        rw [htraced, hfailed]
        split
        · rfl
        · rfl
      rw [hneg]
      refine iff_of_true (open_leavesEntries ht humask _ _ _) ?_
      rcases hopen with hopen | ⟨hopenat, -⟩
      · rw [hopen]
        trivial
      · rw [hopenat]
        trivial
  | openat hopenat _ =>
      rw [hopenat]
      exact iff_of_true (openat_leavesEntries ht humask hfailed) trivial
  | creat hcreat _ =>
      rw [hcreat]
      exact iff_of_true (creat_leavesEntries ht humask hfailed) trivial
  | close _ hclose =>
      rw [hclose]
      exact close_leavesEntries_iff ht _ _
  | dup hdup =>
      rw [hdup, hfailed]
      exact dup_leavesEntries_iff ht _
  | dup2 hdup2 =>
      rw [hdup2, hfailed]
      exact duplicateTo_leavesEntries_iff ht _ _ _ _
  | dup3 hdup3 =>
      rw [hdup3, hfailed]
      exact duplicateTo_leavesEntries_iff ht _ _ _ _
  | fcntl hfcntl =>
      rw [hfcntl] at hkind
      rw [hfcntl, hfailed]
      exact fcntl_leavesEntries_iff ht _ _ _ _ _ _ _ hkind
  | pipe hpipe =>
      rw [hpipe]
      unfold pipeProcessRow
      rw [bind_of_eq_some (intSyscall_apply _ w)]
      exact pair_leavesEntries_iff ht rfl
  | socketpair hsocketpair =>
      rw [hsocketpair]
      exact pair_leavesEntries_iff ht rfl
  | exit hother | execve hother | clone hother | vfork hother | socket hother | accept hother
  | accept4 hother =>
      rw [hother] at hkind
      exact hkind.elim

theorem exists_table_of_leavesEntries {opts : Options} {w : World} {a : Execution}
    {m : ReplayModule} (hcoupled : Coupled w) (hkind : makesDescriptors a)
    (hm : a.module = some m)
    (h : LeavesEntries w (processRow opts m a.position.1 a.position.2 w)) :
    ∃ t, w.table a.pid = some t := by
  obtain ⟨replayed, w', hrun, -⟩ := h
  have hchanges := changesTables_of_makesDescriptors hkind
  have hmode : ∀ {mode result : BitVec 32} {w₁ : World},
      getMode a.pid mode w = some (result, w₁) → ∃ t, w.table a.pid = some t := by
    intro mode result w₁ hrun
    obtain ⟨umask, humask, -⟩ := getMode_eq_some hrun
    exact hcoupled.exists_table humask
  have hprogram := @tableProgram_of_module opts _ _ hchanges hm
  generalize processRow opts m a.position.1 a.position.2 = program at hprogram hrun
  unfold makesDescriptors at hkind
  cases hprogram with
  | open_ _ _ _ =>
      obtain ⟨mode, w₁, hrun, -⟩ := bind_eq_some.mp hrun
      exact hmode hrun
  | openat _ _ =>
      obtain ⟨dirfd, w₁, hrun, -⟩ := bind_eq_some.mp hrun
      obtain ⟨t, ht, -⟩ := getFd_eq_some hrun
      exact ⟨t, ht⟩
  | creat _ _ =>
      obtain ⟨mode, w₁, hrun, -⟩ := bind_eq_some.mp hrun
      exact hmode hrun
  | close _ _ =>
      obtain ⟨t, ht, -⟩ := closeProcessRow_eq_some hrun
      exact ⟨t, ht⟩
  | dup _ =>
      obtain ⟨t, e, ht, -⟩ := dupProcessRow_eq_some hrun
      exact ⟨t, ht⟩
  | dup2 _ | dup3 _ =>
      obtain ⟨t, e, w₁, ht, -⟩ := duplicateTo_eq_some hrun
      exact ⟨t, ht⟩
  | fcntl _ =>
      obtain ⟨fd, w₁, hrun, -⟩ := bind_eq_some.mp hrun
      obtain ⟨t, ht, -⟩ := getFd_eq_some hrun
      exact ⟨t, ht⟩
  | pipe _ =>
      obtain ⟨call, w₁, -, hread, -⟩ := pipeProcessRow_eq_some hrun
      obtain ⟨t, t', ht, -⟩ := addFd_eq_some hread
      exact ⟨t, ht⟩
  | socketpair _ =>
      obtain ⟨_, w₁, hread, -⟩ := bind_eq_some.mp hrun
      obtain ⟨t, t', ht, -⟩ := addFd_eq_some hread
      exact ⟨t, ht⟩
  | exit hother | execve hother | clone hother | vfork hother | socket hother | accept hother
  | accept4 hother =>
      rw [hother] at hkind
      exact hkind.elim

/-- In every state that a replay reaches, a record that failed in the trace leaves
the entries as they are exactly when its process has a table in which the
descriptors are as its module needs them, whatever the replayed call returns. -/
theorem failed_record_harmless_iff (opts : Options) (start w : World) (a : Execution)
    (m : ReplayModule) (hstart : Initialized start)
    (hreach : (replaySystem opts start).Reachable w) (hkind : makesDescriptors a)
    (hm : a.module = some m) (hfailed : a.returnValue = -1) :
    LeavesEntries w (processRow opts m a.position.1 a.position.2 w) ↔
      ∃ t, w.table a.pid = some t ∧ Harmless a t := by
  have hcoupled := reachable_coupled hstart hreach
  constructor
  · intro h
    obtain ⟨t, ht⟩ := exists_table_of_leavesEntries hcoupled hkind hm h
    obtain ⟨umask, humask⟩ := hcoupled.exists_umask ht
    exact ⟨t, ht, (failed_leavesEntries_iff ht humask hkind hm hfailed).mp h⟩
  · rintro ⟨t, ht, hharmless⟩
    obtain ⟨umask, humask⟩ := hcoupled.exists_umask ht
    exact (failed_leavesEntries_iff ht humask hkind hm hfailed).mpr hharmless

def failedDup2 : Execution :=
  queuedCall .dup2 1 (-1) fun
    | .new_descriptor => 7
    | _ => 0

theorem failedDup2_leavesEntries :
    ∃ m, failedDup2.module = some m ∧ LeavesEntries (startWorld inOrder)
      (processRow quiet m failedDup2.position.1 failedDup2.position.2 (startWorld inOrder)) := by
  refine ⟨_, rfl, ?_⟩
  refine (failed_record_harmless_iff quiet (startWorld inOrder) (startWorld inOrder) failedDup2 _
    (startWorld_initialized inOrder) .init trivial rfl rfl).mpr ?_
  exact ⟨stdTable, (startWorld_prepared inOrder).tables.2.1, by decide, .inr (by decide)⟩

def failedDup : Execution :=
  queuedCall .dup 1 (-1) fun _ => 7

/-- A failed `dup` of a descriptor that is not open fails the assertion of
`get_flags`. -/
theorem failedDup_asserts :
    executeStep quiet (startWorld inOrder) failedDup = none ∧
      ¬∀ opts start w a m, Initialized start → (replaySystem opts start).Reachable w →
        makesDescriptors a → a.module = some m → a.returnValue = -1 →
        LeavesEntries w (processRow opts m a.position.1 a.position.2 w) := by
  refine ⟨rfl, fun h => ?_⟩
  obtain ⟨replayed, w', hrun, -⟩ := h quiet (startWorld inOrder) (startWorld inOrder) failedDup _
    (startWorld_initialized inOrder) .init trivial rfl rfl
  exact nomatch hrun

end SyscallReplayer.TracedFailures
