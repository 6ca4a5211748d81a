import SyscallReplayer.ReplayRuns

/-!
# The descriptors that `execve` closes

A successful `execve` closes the descriptors of the calling process that close on
exec, and those of no other process; a failed one leaves every table alone. The
module decides by the return value of the record before, takes a simulated
descriptor out whatever the value is, and acts on the table that the process
shares with others.
-/

namespace SyscallReplayer.ExecveClosing

open Std (ExtTreeMap)
open SharedEntries ReplayKernel ResourcesManager ReplayWorld ReplayModules ReplayRuns
open StatePrograms World

/-- What a record of `execve` with this return value leaves of the tables. -/
structure ClosesOnExec (pid returnValue : Int) (t : FdTable) (w w' : World) : Prop where
  failed : returnValue < 0 → ∀ q, w'.table q = w.table q
  succeeded : 0 ≤ returnValue → ∃ t', w'.table pid = some t' ∧
    ∀ k : Int, t'[k]? = (t[k]?).filter fun e => !closesOnExec e.flags
  others : ∀ q, q ≠ pid → w'.table q = w.table q

/-- The entries that close on exec are those the module removes, and the table is
nobody else's when there are any to remove. -/
def Decided (w : World) (a : Execution) (t : FdTable) : Prop :=
  ∀ (k : Int) e, t[k]? = some e → closesOnExec e.flags = true →
    if 0 ≤ a.returnValue then
      (0 ≤ a.held ∨ e.fd = syscallSimulated) ∧ ∀ q, q ≠ a.pid → w.tableOf q ≠ w.tableOf a.pid
    else a.held < 0 ∧ e.fd ≠ syscallSimulated

theorem exists_module {a : Execution} (hkind : a.kind = .execve) :
    ∃ m, a.module = some m ∧ isReplayable m.sysCallName = false ∧
      risksBuffers m.members = false := by
  obtain ⟨kind, held, row, rest, queued, later, laterRest⟩ := a
  obtain rfl : kind = .execve := hkind
  cases queued <;> exact ⟨_, rfl, rfl, rfl⟩

theorem executeStep_execve {opts : Options} {w : World} {a : Execution} {t : FdTable}
    (hkind : a.kind = .execve) (ht : w.table a.pid = some t) :
    ∃ t' : FdTable, executeStep opts w a = some (w.setTable a.pid t') ∧
      ∀ k : Int, t'[k]? = (t[k]?).filter (keptByExecve a.held) := by
  obtain ⟨m, hm, hreplayable, hsafe⟩ := exists_module hkind
  obtain ⟨t', hrun, ht'⟩ := execveProcessRow_run ht 0 a.held
  refine ⟨t', ?_, ht'⟩
  rw [← @processRow_execve opts a m hkind hm] at hrun
  have hafter : afterSysCall opts m 0 (w.setTable a.pid t') =
      some (none, w.setTable a.pid t') := by
    rw [afterSysCall, hreplayable, if_neg Bool.false_ne_true]
  unfold executeStep Execution.run execute
  rw [bind_of_eq_some (lift_eq_some.mpr ⟨hm, rfl⟩), bind_of_eq_some hrun,
    bind_of_eq_some (deleteBuffers_of_safe hsafe _), bind_of_eq_some hafter]
  rfl

section

variable {w : World} {pid held returnValue : Int} {t t' : FdTable}

theorem filter_eq_self_iff {κ : Type} {p : κ → Bool} {o : Option κ} :
    o.filter p = o ↔ ∀ e, o = some e → p e = true := by
  cases o with
  | none => simp
  | some e => simp

theorem kept_iff {e : FileDescriptorEntry} :
    keptByExecve held e = true ↔
      (closesOnExec e.flags = true → held < 0 ∧ e.fd ≠ syscallSimulated) := by
  cases hcloses : closesOnExec e.flags
  · simp [keptByExecve, hcloses]
  · simp [keptByExecve, hcloses]

theorem filtered_eq_iff (ht' : ∀ k : Int, t'[k]? = (t[k]?).filter (keptByExecve held)) :
    t' = t ↔ ∀ (k : Int) e, t[k]? = some e → closesOnExec e.flags = true →
      held < 0 ∧ e.fd ≠ syscallSimulated := by
  constructor
  · rintro rfl k e hk
    exact kept_iff.mp (filter_eq_self_iff.mp (ht' k).symm e hk)
  · intro hkept
    apply ExtTreeMap.ext_getElem?
    intro k
    rw [ht', filter_eq_self_iff]
    intro e hk
    exact kept_iff.mpr (hkept k e hk)

theorem filtered_closes_iff (ht' : ∀ k : Int, t'[k]? = (t[k]?).filter (keptByExecve held)) :
    (∀ k : Int, t'[k]? = (t[k]?).filter fun e => !closesOnExec e.flags) ↔
      ∀ (k : Int) e, t[k]? = some e → closesOnExec e.flags = true →
        0 ≤ held ∨ e.fd = syscallSimulated := by
  refine forall_congr' fun k => ?_
  rw [ht']
  cases hk : t[k]? with
  | none => simp
  | some e =>
      have hkept : keptByExecve held e = !closesOnExec e.flags ↔
          (closesOnExec e.flags = true → 0 ≤ held ∨ e.fd = syscallSimulated) := by
        cases hcloses : closesOnExec e.flags
        · simp [keptByExecve, hcloses]
        · simp [keptByExecve, hcloses, Classical.or_iff_not_imp_left]
      simp only [Option.some.injEq, forall_eq', ← hkept, Option.filter_some]
      cases keptByExecve held e <;> cases closesOnExec e.flags <;> simp

theorem others_iff (ht : w.table pid = some t) :
    (∀ q, q ≠ pid → (w.setTable pid t').table q = w.table q) ↔
      t' = t ∨ ∀ q, q ≠ pid → w.tableOf q ≠ w.tableOf pid := by
  constructor
  · intro hsame
    by_cases hshared : ∃ q, q ≠ pid ∧ w.tableOf q = w.tableOf pid
    · obtain ⟨q, hq, htable⟩ := hshared
      left
      have hsees := hsame q hq
      rw [table_setTable ht, if_pos htable, table_of_tableOf_eq htable, ht] at hsees
      exact Option.some.inj hsees
    · right
      intro q hq htable
      exact hshared ⟨q, hq, htable⟩
  · rintro (rfl | hown) q hq
    · rw [setTable_eq_self ht]
    · rw [table_setTable ht, if_neg (hown q hq)]

end

/-- The tables after a record of `execve` are right just when the entries that close
on exec are decided right. -/
theorem execve_closes_iff (opts : Options) (w : World) (a : Execution) (t : FdTable)
    (hkind : a.kind = .execve) (ht : w.table a.pid = some t) :
    (∃ w', executeStep opts w a = some w' ∧ ClosesOnExec a.pid a.returnValue t w w') ↔
      Decided w a t := by
  obtain ⟨t', hstep, ht'⟩ := @executeStep_execve opts w a t hkind ht
  have hself : (w.setTable a.pid t').table a.pid = some t' := table_setTable_self ht
  have hworld : (∃ w', executeStep opts w a = some w' ∧ ClosesOnExec a.pid a.returnValue t w w') ↔
      ClosesOnExec a.pid a.returnValue t w (w.setTable a.pid t') := by
    rw [hstep]
    constructor
    · rintro ⟨w', hw', hcloses⟩
      exact Option.some.inj hw' ▸ hcloses
    · intro hcloses
      exact ⟨_, rfl, hcloses⟩
  rw [hworld]
  by_cases hret : 0 ≤ a.returnValue
  · have hsucceeded : ClosesOnExec a.pid a.returnValue t w (w.setTable a.pid t') ↔
        (∀ k : Int, t'[k]? = (t[k]?).filter fun e => !closesOnExec e.flags) ∧
          ∀ q, q ≠ a.pid → (w.setTable a.pid t').table q = w.table q := by
      constructor
      · rintro ⟨-, hsucceeded, hothers⟩
        obtain ⟨s, hs, hfiltered⟩ := hsucceeded hret
        obtain rfl := Option.some.inj (hself.symm.trans hs)
        exact ⟨hfiltered, hothers⟩
      · rintro ⟨hfiltered, hothers⟩
        exact ⟨fun hneg => absurd hret (by omega), fun _ => ⟨t', hself, hfiltered⟩, hothers⟩
    rw [hsucceeded, filtered_closes_iff ht', others_iff ht, filtered_eq_iff ht']
    unfold Decided
    simp only [if_pos hret]
    constructor
    · rintro ⟨hremoved, hothers⟩ k e hk hcloses
      refine ⟨hremoved k e hk hcloses, ?_⟩
      rcases hothers with hkept | hown
      · have hstays := hkept k e hk hcloses
        rcases hremoved k e hk hcloses with hheld | hsim
        · omega
        · exact absurd hsim hstays.2
      · exact hown
    · intro hdecided
      refine ⟨fun k e hk hcloses => (hdecided k e hk hcloses).1, ?_⟩
      by_cases hany : ∃ (k : Int) (e : _), t[k]? = some e ∧ closesOnExec e.flags = true
      · obtain ⟨k, e, hk, hcloses⟩ := hany
        exact .inr (hdecided k e hk hcloses).2
      · left
        intro k e hk hcloses
        exact absurd ⟨k, e, hk, hcloses⟩ hany
  · have hfailed : ClosesOnExec a.pid a.returnValue t w (w.setTable a.pid t') ↔ t' = t := by
      constructor
      · rintro ⟨hsame, -, -⟩
        have hpid := hsame (by omega) a.pid
        rw [hself, ht] at hpid
        exact Option.some.inj hpid
      · rintro rfl
        rw [setTable_eq_self ht]
        exact ⟨fun _ _ => rfl, fun hnonneg => absurd hnonneg hret, fun _ _ => rfl⟩
    rw [hfailed, filtered_eq_iff ht']
    unfold Decided
    simp only [if_neg hret]

/-- Process 1 has opened a file that closes on exec. -/
def openedWorld : World :=
  worldAfter (startWorld inOrder) [queuedCall .open_ 1 3 fun
    | .open_value => 0x80000
    | _ => 0]

def openedTable : FdTable :=
  stdTable.insert 3 ⟨3, oCloexec⟩

/-- A successful `execve` of process 1, after a record that returned `held`. -/
def execveAfter (held : Int) : Execution :=
  { queuedCall .execve 1 0 0 with held := held }

theorem openedWorld_closes_iff :
    (∃ w', executeStep quiet openedWorld (execveAfter 0) = some w' ∧
      ClosesOnExec 1 0 openedTable openedWorld w') ↔
        Decided openedWorld (execveAfter 0) openedTable :=
  execve_closes_iff quiet openedWorld (execveAfter 0) openedTable rfl rfl

/-- After a failed `execve`, the next one that succeeds closes nothing. -/
theorem execveAfterFailure_keeps :
    openedWorld.table 1 = some openedTable ∧
      ¬∃ w', executeStep quiet openedWorld (execveAfter (-1)) = some w' ∧
        ClosesOnExec 1 0 openedTable openedWorld w' := by
  refine ⟨rfl, ?_⟩
  rintro ⟨w', hstep, hcloses⟩
  have hkept : executeStep quiet openedWorld (execveAfter (-1)) = some openedWorld := rfl
  obtain rfl := Option.some.inj (hkept.symm.trans hstep)
  obtain ⟨t', ht', hfiltered⟩ := hcloses.succeeded le_rfl
  obtain rfl : openedTable = t' := Option.some.inj ht'
  exact absurd (hfiltered 3) (by decide)

end SyscallReplayer.ExecveClosing
