import SyscallReplayer.ReadAhead

/-!
# How far the replay is from its end

The records that are left and the place of each thread in its loop are put into
one number. It gets smaller with every step of the reader, if the batches come to
a module whose counter is low, and with every step of an executor that has no
other thread beside it.
-/

namespace SyscallReplayer.ReplayMeasure

open SyscallReplayer.CInt
open SyscallReplayer.TransitionSystem
open SyscallReplayer.Scheduler
open SyscallReplayer.SchedulerSteps
open SyscallReplayer.ReaderProgress
open SyscallReplayer.RecordConservation
open SyscallReplayer.ThreadOrder
open SyscallReplayer.QueueAccounting

/-- A later batch will come to a module that it does not pass over. -/
def Promised (s : State) (b : Batch) : Prop :=
  b.isFirstTime = false ∧ ∃ i ∈ b.todo, s.finishedModules (i : Nat) = false ∧
    s.numberOfSyscalls (i : Nat) ≤ b.batchSize * 2

instance (s : State) (b : Batch) : Decidable (Promised s b) :=
  inferInstanceAs (Decidable (_ ∧ _))

/-- How many steps of the reader, at most, are left until it queues a row or ends. -/
def readerRank (cfg : Config) (s : State) : Nat :=
  match s.reader with
  | .prepare => 4 * cfg.replayerIdx + 5
  | .modules b =>
      if Promised s b then 1 + b.todo.length
      else cfg.replayerIdx + 4 + 3 * b.todo.length
  | .carry _ _ => 1
  | .rows _ b count => cfg.replayerIdx + 4 + 3 * b.todo.length + if count = 1 then 1 else 2
  | .counting _ _ b _ => cfg.replayerIdx + 4 + 3 * b.todo.length + 3
  | .finishing _ b => cfg.replayerIdx + 4 + 3 * b.todo.length + 1
  | .check => cfg.replayerIdx + 3
  | .spin => cfg.replayerIdx + 2
  | .done => 0

/-- How many steps are left of the turn of an executor. The turn that is
executing its record counts for the next one. -/
def executorRank : ExecutorPc → Nat
  | .executed _ => 12
  | .storing _ => 11
  | .top => 10
  | .popped _ => 9
  | .guard _ => 8
  | .guarded _ => 7
  | .running _ => 6
  | .validating _ => 5
  | .admitted _ => 4
  | .leaving => 1
  | .rejected _ | .parked _ | .repushed _ | .exited => 0

def executorRanks (executors : List Executor) : Nat :=
  (executors.map fun e => executorRank e.pc).sum

def unexecuted (cfg : Config) (s : State) : Nat :=
  cfg.records.length - s.executedLog.length

def readerMeasure (cfg : Config) (s : State) : Nat :=
  (4 * cfg.replayerIdx + 8) * (unqueuedRows cfg s).length + readerRank cfg s

def executorMeasure (cfg : Config) (s : State) : Nat :=
  9 * unexecuted cfg s + executorRanks s.executors

def remaining (cfg : Config) (s : State) : Nat :=
  11 * readerMeasure cfg s + executorMeasure cfg s

section State

variable {cfg : Config} {s s' t : State}

theorem executorRanks_append (l l' : List Executor) :
    executorRanks (l ++ l') = executorRanks l + executorRanks l' := by
  simp [executorRanks]

theorem executorRanks_cons (e : Executor) (l : List Executor) :
    executorRanks (e :: l) = executorRank e.pc + executorRanks l := by
  simp [executorRanks]

theorem length_accounted (hperm : (accounted cfg s).Perm cfg.records) :
    s.executedLog.length + (copiesInHand s).length + s.queued.length +
      (unqueuedRows cfg s).length = cfg.records.length := by
  rw [← hperm.length_eq]
  simp only [accounted, copies, List.length_append, List.length_map]
  omega

theorem length_todo_le {b : Batch} {active : Option Nat} (h : BatchOk cfg s b active) :
    b.todo.length ≤ cfg.replayerIdx := by
  have hsub : b.todo ⊆ List.range cfg.replayerIdx := fun i hi => List.mem_range.mpr (h.lt i hi)
  simpa using (List.subperm_of_subset h.nodup hsub).length_le

theorem readerRank_modules_le {b : Batch} (hpc : s.reader = .modules b) :
    readerRank cfg s ≤ cfg.replayerIdx + 4 + 3 * b.todo.length := by
  simp only [readerRank, hpc]
  split <;> omega

theorem lt_readerRank_modules {b : Batch} (hpc : s.reader = .modules b) (hne : b.todo ≠ []) :
    1 < readerRank cfg s := by
  have hpos := List.length_pos_of_ne_nil hne
  simp only [readerRank, hpc]
  split <;> omega

/-- A row leaves the reader for a heap, or a heap for the log of `prepare_replay`. -/
theorem length_unqueuedRows (hreader : ReaderInv cfg s)
    (hperm : (accounted cfg s).Perm cfg.records)
    (hperm' : (accounted cfg s').Perm cfg.records) (h : ReaderTransition cfg s s') :
    (unqueuedRows cfg s').length + s'.queued.length + s'.executedLog.length =
      (unqueuedRows cfg s).length + s.queued.length + s.executedLog.length := by
  have hhand : copiesInHand s' = copiesInHand s := by
    cases flow_of_readerTransition (a := .reader 0) hreader h with
    | quiet _ hhand => exact hhand
    | deliver _ _ _ _ _ hhand => exact hhand
    | prepare _ _ _ _ _ hhand => exact hhand
    | pop _ _ he => cases he
    | repush _ _ he => cases he
    | execute _ _ he => cases he
  have hlen := length_accounted hperm
  have hlen' := length_accounted hperm'
  rw [hhand] at hlen'
  omega

/-- A promise that is not kept at a module is kept at a later one. -/
theorem promised_of_skip {b : Batch} {i : Nat} {rest : List Nat} (hreader : ReaderInv cfg s)
    (hlow : LowWater cfg s) (hi : i < cfg.replayerIdx) (htodo : b.todo = i :: rest)
    (hskip : s.finishedModules (s.series i).replayerIndex = true ∨
      uint64 (s.numberOfSyscalls (s.series i).replayerIndex) > b.batchSize * 2)
    (h : Promised s b) :
    Promised { s.touch ((s.series i).move i) with reader := .modules { b with todo := rest } }
      { b with todo := rest } := by
  obtain ⟨hlater, j, hj, hunf, hfew⟩ := h
  refine ⟨hlater, j, ?_, hunf, hfew⟩
  rw [htodo, List.mem_cons] at hj
  rcases hj with rfl | hj
  · rw [hreader.index j hi] at hskip
    rcases hskip with hfin | hmany
    · rw [hunf] at hfin
      cases hfin
    · have hnonneg := hlow.counted j hi hunf
      have hself := uint64_le_self (x := s.numberOfSyscalls j) (by omega)
      omega
  · exact hj

/-- The reader comes closer to the next row or to its end. -/
theorem readerMeasure_lt_of_quiet (hrows : (unqueuedRows cfg s').length + s'.queued.length +
      s'.executedLog.length =
      (unqueuedRows cfg s).length + s.queued.length + s.executedLog.length)
    (hqueued : s'.queued.length + s'.executedLog.length =
      s.queued.length + s.executedLog.length)
    (hrank : readerRank cfg s' < readerRank cfg s) :
    readerMeasure cfg s' < readerMeasure cfg s := by
  have hsame : (unqueuedRows cfg s').length = (unqueuedRows cfg s).length := by omega
  rw [readerMeasure, readerMeasure, hsame]
  exact Nat.add_lt_add_left hrank _

/-- A row is queued, which pays for the way to the next one. -/
theorem readerMeasure_lt_of_deliver (hrows : (unqueuedRows cfg s').length + s'.queued.length +
      s'.executedLog.length =
      (unqueuedRows cfg s).length + s.queued.length + s.executedLog.length)
    (hqueued : s'.queued.length + s'.executedLog.length =
      s.queued.length + s.executedLog.length + 1)
    (hrank : readerRank cfg s' < readerRank cfg s + (4 * cfg.replayerIdx + 8)) :
    readerMeasure cfg s' < readerMeasure cfg s := by
  have hless : (unqueuedRows cfg s).length = (unqueuedRows cfg s').length + 1 := by omega
  rw [readerMeasure, readerMeasure, hless, Nat.mul_add]
  omega

theorem readerRank_firstBatch (hpc : s.reader = .modules (firstBatch cfg)) :
    readerRank cfg s < 4 * cfg.replayerIdx + 5 := by
  have hle : readerRank cfg s ≤ cfg.replayerIdx + 4 + 3 * (firstBatch cfg).todo.length :=
    readerRank_modules_le hpc
  have hlen : (firstBatch cfg).todo.length = cfg.replayerIdx :=
    cfg.order_perm.length_eq.trans List.length_range
  omega

theorem readerMeasure_lt (hreader : ReaderInv cfg s) (hlow : LowWater cfg s)
    (hperm : (accounted cfg s).Perm cfg.records)
    (hperm' : (accounted cfg s').Perm cfg.records)
    (hspin : s.reader = .spin → s' ≠ s ∧ Promised s (nextBatch cfg s))
    (h : ReaderTransition cfg s s') : readerMeasure cfg s' < readerMeasure cfg s := by
  have hpc := hreader.pc
  have hrows := length_unqueuedRows hreader hperm hperm' h
  cases h with
  | prepareEmpty hr =>
      refine readerMeasure_lt_of_quiet hrows rfl ?_
      refine (readerRank_firstBatch rfl).trans_eq ?_
      simp only [readerRank, hr]
  | prepareUmask hr c hc =>
      refine readerMeasure_lt_of_quiet hrows ?_ ?_
      · have hmem := mem_queued_of_mem_minima hc
        have hlen := List.length_erase_of_mem hmem
        have hpos := List.length_pos_of_mem hmem
        simp only [prepared, State.setRunning, State.touch, State.decrement,
          List.length_append, List.length_singleton]
        omega
      · refine (readerRank_firstBatch rfl).trans_eq ?_
        simp only [readerRank, hr]
  | firstBatchDone b hr htodo | batchDone b hr htodo =>
      refine readerMeasure_lt_of_quiet hrows rfl ?_
      have hnone : ¬Promised s b := by
        rintro ⟨_, i, hi, _⟩
        rw [htodo] at hi
        cases hi
      simp only [readerRank, hr, if_neg hnone]
      omega
  | skip b i rest hr htodo hskip =>
      rw [hr] at hpc
      refine readerMeasure_lt_of_quiet hrows rfl ?_
      have hi : i < cfg.replayerIdx := hpc.lt i (by rw [htodo]; exact List.mem_cons_self)
      by_cases hpromised : Promised s b
      · have hkept := promised_of_skip hreader hlow hi htodo hskip hpromised
        simp only [readerRank, hr, if_pos hpromised, if_pos hkept, htodo, List.length_cons]
        omega
      · refine (readerRank_modules_le rfl).trans_lt ?_
        simp only [readerRank, hr, if_neg hpromised, htodo, List.length_cons]
        omega
  | enterFirst b i rest hr htodo hunf hfirst =>
      refine readerMeasure_lt_of_quiet hrows rfl ?_
      have hnone : ¬Promised s b := by
        rintro ⟨hlater, _⟩
        rw [hfirst] at hlater
        cases hlater
      simp only [readerRank, hr, if_neg hnone, htodo, List.length_cons]
      split <;> omega
  | enterCarry b i rest hr htodo =>
      refine readerMeasure_lt_of_quiet hrows rfl ?_
      exact lt_readerRank_modules hr (by rw [htodo]; exact List.cons_ne_nil _ _)
  | carry i b hr =>
      rw [hr] at hpc
      refine readerMeasure_lt_of_deliver hrows ?_ ?_
      · simp only [List.length_append, List.length_singleton]
        omega
      · have hlen := length_todo_le hpc.1
        simp only [readerRank, hr]
        omega
  | count c i b count hr =>
      refine readerMeasure_lt_of_quiet hrows rfl ?_
      simp only [readerRank, hr]
      split <;> omega
  | rowsEnd i b hr =>
      refine readerMeasure_lt_of_quiet hrows rfl ?_
      refine (readerRank_modules_le rfl).trans_lt ?_
      simp only [readerRank, hr, if_true]
      omega
  | rowsFinish i b count hr =>
      refine readerMeasure_lt_of_quiet hrows rfl ?_
      simp only [readerRank, hr]
      rw [if_neg (by omega)]
      omega
  | rowsHold i b r rest hr =>
      refine readerMeasure_lt_of_quiet hrows rfl ?_
      simp only [readerRank, hr, if_true]
      rw [if_neg (by omega)]
      omega
  | rowsPush i b count r rest hr =>
      refine readerMeasure_lt_of_deliver hrows ?_ ?_
      · simp only [readRow, List.length_append, List.length_singleton]
        omega
      · simp only [readerRank, hr]
        rw [if_neg (by omega)]
        omega
  | finish i b hr =>
      refine readerMeasure_lt_of_quiet hrows rfl ?_
      refine (readerRank_modules_le rfl).trans_lt ?_
      simp only [readerRank, hr]
      omega
  | checkDone hr | checkSpin hr =>
      refine readerMeasure_lt_of_quiet hrows rfl ?_
      simp only [readerRank, hr]
      omega
  | spinWait hr => exact absurd rfl (hspin hr).1
  | spinBatch hr =>
      refine readerMeasure_lt_of_quiet hrows rfl ?_
      have hlen : (nextBatch cfg s).todo.length = cfg.replayerIdx :=
        cfg.order_perm.length_eq.trans List.length_range
      have hpromised : Promised { s with reader := .modules (nextBatch cfg s) }
        (nextBatch cfg s) := (hspin hr).2
      simp only [readerRank, hr, if_pos hpromised, hlen]
      omega

/-- The program points that an executor comes to when there are other threads. -/
def contended : ExecutorPc → Bool
  | .validating _ | .rejected _ | .parked _ | .repushed _ => true
  | _ => false

theorem numberOfSyscalls_anti {tid : Int} {pc pc' : ExecutorPc}
    (halone : contended pc = false) (h : ExecutorTransition cfg s tid pc t pc') (i : Int) :
    t.numberOfSyscalls i ≤ s.numberOfSyscalls i := by
  cases h with
  | countPop c =>
      by_cases hic : i = c.replayerIndex
      · simp only [State.touch, State.decrement, ← hic, Function.update_self]
        exact Int.sub_le_self _ (by decide)
      · simp only [State.touch, State.decrement, Function.update_of_ne hic, Int.le_refl]
  | countRepush => cases halone
  | execute c => rw [execute_numberOfSyscalls]
  | _ => exact Int.le_refl _

theorem executorRanks_setPc {l : List Executor} {index : Nat} {tid : Int} {pc : ExecutorPc}
    (hget : l[index]? = some ⟨tid, pc⟩) (pc' : ExecutorPc) :
    executorRanks (setPc l index pc') + executorRank pc =
      executorRanks l + executorRank pc' := by
  obtain ⟨before, after, rfl, rfl⟩ : ∃ before after : List Executor,
      l = before ++ ⟨tid, pc⟩ :: after ∧ before.length = index := by
    obtain ⟨hlt, hval⟩ := List.getElem?_eq_some_iff.mp hget
    refine ⟨l.take index, l.drop (index + 1), ?_, ?_⟩
    · rw [← hval, List.getElem_cons_drop, List.take_append_drop]
    · rw [List.length_take]
      omega
  rw [setPc_append]
  simp only [executorRanks_append, executorRanks_cons]
  omega

theorem readerRank_anti (hreader : t.reader = s.reader)
    (hfin : t.finishedModules = s.finishedModules)
    (hle : ∀ i, t.numberOfSyscalls i ≤ s.numberOfSyscalls i) :
    readerRank cfg t ≤ readerRank cfg s := by
  have hpromised : ∀ b, Promised s b → Promised t b := by
    rintro b ⟨hlater, i, hi, hunf, hfew⟩
    exact ⟨hlater, i, hi, hfin ▸ hunf, (hle i).trans hfew⟩
  unfold readerRank
  rw [hreader]
  cases s.reader with
  | modules b =>
      by_cases hs : Promised s b
      · simp only [if_pos hs, if_pos (hpromised b hs), Nat.le_refl]
      · simp only [if_neg hs]
        split <;> omega
  | _ => exact Nat.le_refl _

theorem lt_of_mem_copiesInHand (hperm : (accounted cfg s).Perm cfg.records) {c : Copy}
    (hc : c ∈ copiesInHand s) : s.executedLog.length < cfg.records.length := by
  have hlen := length_accounted hperm
  have hpos := List.length_pos_of_mem hc
  omega

theorem executorTransition_rank (hperm : (accounted cfg s).Perm cfg.records)
    (hone : s.nThreads = 1) {tid : Int} {pc pc' : ExecutorPc}
    (hmem : ⟨tid, pc⟩ ∈ s.executors) (halone : contended pc = false) (hmoves : pc' ≠ pc)
    (h : ExecutorTransition cfg s tid pc t pc') :
    9 * unexecuted cfg t + executorRank pc' < 9 * unexecuted cfg s + executorRank pc := by
  cases h with
  | execute c =>
      have hlt := lt_of_mem_copiesInHand hperm (mem_copiesInHand.mpr ⟨_, hmem, rfl⟩)
      simp only [unexecuted, execute_log, List.length_append, List.length_singleton,
        executorRank]
      omega
  | guardWait c => exact absurd rfl hmoves
  | manyThreads c hmany => omega
  | validate | reject | park | repush | countRepush => cases halone
  | _ => exact Nat.add_lt_add_left (of_decide_eq_true rfl) _

end State

end SyscallReplayer.ReplayMeasure
