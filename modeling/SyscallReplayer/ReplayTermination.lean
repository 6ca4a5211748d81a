import SyscallReplayer.FairRuns
import SyscallReplayer.ReplayMeasure
import SyscallReplayer.SchedulerRuns
import SyscallReplayer.SingleThreadReplay

/-!
# Termination of the replay of a single thread

The reader and the executor wait for each other: the reader for a counter to
fall, the executor for the counters to rise. At most one of them waits at a time,
and every step but waiting brings the replay closer to its end.
-/

namespace SyscallReplayer.ReplayTermination

open SyscallReplayer.CInt
open SyscallReplayer.TransitionSystem
open SyscallReplayer.FairRuns
open SyscallReplayer.Scheduler
open SyscallReplayer.SchedulerSteps
open SyscallReplayer.SchedulerRuns
open SyscallReplayer.ReaderProgress
open SyscallReplayer.RecordConservation
open SyscallReplayer.ThreadOrder
open SyscallReplayer.RunningTable
open SyscallReplayer.QueueAccounting
open SyscallReplayer.SingleThreadReplay
open SyscallReplayer.ReplayMeasure

/-- The threads of the replayer process. -/
inductive Party
  | reader
  | executor (index : Nat)
deriving DecidableEq, Repr

def party : Action → Party
  | .reader _ => .reader
  | .executor index _ => .executor index

/-- The step of the action goes once more round a loop without a body. -/
def Waits (cfg : Config) (s : State) : Action → Prop
  | .reader _ => s.reader = .spin ∧ s.getMinSyscall cfg > 100 * s.nThreads
  | .executor index _ => ∃ tid c, s.executors[index]? = some ⟨tid, .guard c⟩ ∧
      s.getMinSyscall cfg < 10 * s.nThreads ∧ s.checkModulesFinished cfg = false

section State

variable {cfg : Config} {s s' t : State}

/-- Counters do not exceed the value that finished modules get. -/
def CountersLe (cfg : Config) (s : State) : Prop :=
  ∀ i : Nat, i < cfg.replayerIdx → s.numberOfSyscalls i ≤ longLongMax

theorem le_numberOfSyscalls_of_settled (hacc : Accounting cfg s) (hrep : RepushedQueued s)
    (hreader : ReaderInv cfg s) {i : Nat} (hi : i < cfg.replayerIdx)
    (hset : settled s i = true) :
    longLongMax ≤ s.numberOfSyscalls i + cfg.records.length := by
  have hfin : s.finishedModules i = true := (Bool.and_eq_true_iff.mp hset).1
  have hle := hacc.settled i hi hset
  have hcount := hrep.countP_le (producedBy i)
  simp only [balance, pushing_unfinished hreader hfin, queuedOf] at hle
  omega

theorem promised_of_spin (hreader : ReaderInv cfg s) (hacc : Accounting cfg s)
    (hrep : RepushedQueued s) (hcounters : CountersLe cfg s)
    (hsize : (cfg.records.length : Int) + 100 < longLongMax) (hone : s.nThreads = 1)
    (hpc : s.reader = .spin) (hgetMin : ¬s.getMinSyscall cfg > 100 * s.nThreads) :
    Promised s (nextBatch cfg s) := by
  by_contra hnone
  have hall : ∀ i : Nat, i < cfg.replayerIdx → 101 ≤ uint64 (s.numberOfSyscalls i) := by
    intro i hi
    have hupper := hcounters i hi
    have hlower : 101 ≤ s.numberOfSyscalls i := by
      cases hfin : s.finishedModules i with
      | true =>
          have hle := le_numberOfSyscalls_of_settled hacc hrep hreader hi
            (by simp [settled, hfin, hpc])
          omega
      | false =>
          by_contra hfew
          refine hnone ⟨rfl, i, cfg.order_perm.mem_iff.mpr (List.mem_range.mpr hi), hfin, ?_⟩
          simp only [nextBatch, hone]
          omega
    rw [uint64_eq_self (by omega) (by unfold longLongMax at hupper; omega)]
    exact hlower
  have hle := le_getMinSyscall (by decide) hall
  rw [hone] at hgetMin
  omega

theorem CountersLe.update {f : Int → Int}
    (hf : ∀ i : Nat, i < cfg.replayerIdx → f i ≤ longLongMax) (j v : Int)
    (hv : v ≤ longLongMax) {i : Nat} (hi : i < cfg.replayerIdx) :
    Function.update f j v i ≤ longLongMax := by
  by_cases hij : (i : Int) = j
  · rw [hij, Function.update_self]
    exact hv
  · rw [Function.update_of_ne hij]
    exact hf i hi

theorem numberOfSyscalls_le_of_unsettled (hacc : Accounting cfg s)
    (hperm : (accounted cfg s).Perm cfg.records) (hpushing : pushing s.reader = none) {i : Nat}
    (hi : i < cfg.replayerIdx) (hset : settled s i = false) :
    s.numberOfSyscalls i ≤ cfg.records.length := by
  have hexact := hacc.exact i hi hset
  have hcopies := copiesOf_le cfg s i
  rw [hperm.length_eq] at hcopies
  simp only [balance, hpushing, Option.toList_none, List.countP_nil] at hexact
  omega

theorem readerTransition_countersLe (hreader : ReaderInv cfg s) (hacc : Accounting cfg s')
    (hperm : (accounted cfg s').Perm cfg.records)
    (hsize : (cfg.records.length : Int) + 100 < longLongMax)
    (hinv : CountersLe cfg s) (h : ReaderTransition cfg s s') : CountersLe cfg s' := by
  have hpc := hreader.pc
  cases h with
  | prepareUmask hr c hc =>
      intro i hi
      by_cases hic : (i : Int) = c.replayerIndex
      · have hle := hinv i hi
        simp only [prepared, State.setRunning, State.touch, State.decrement, ← hic,
          Function.update_self]
        omega
      · simp only [prepared, State.setRunning, State.touch, State.decrement,
          Function.update_of_ne hic]
        exact hinv i hi
  | count c i b count hr =>
      rw [hr] at hpc
      obtain ⟨_, hactive, _, hindex, _⟩ := hpc
      intro j hj
      by_cases hji : j = i
      · subst hji
        have hle := numberOfSyscalls_le_of_unsettled hacc hperm rfl hj
          (by simp [settled, State.touch, State.increment, hactive.unfinished])
        omega
      · have hne : (j : Int) ≠ c.replayerIndex := by omega
        simp only [State.touch, State.increment, Function.update_of_ne hne]
        exact hinv j hj
  | finish i b hr =>
      intro j hj
      exact CountersLe.update hinv _ _ (Int.le_refl _) hj
  | _ => exact hinv

/-- The executor is never rejected and ends when everything is read. -/
structure Course (cfg : Config) (s : State) : Prop where
  counters : CountersLe cfg s
  thread : ∀ e ∈ s.executors, e.threadID = cfg.mainThreadID
  alone : ∀ e ∈ s.executors, contended e.pc = false
  ended : ∀ e ∈ s.executors, e.pc = .leaving ∨ e.pc = .exited →
    s.checkModulesFinished cfg = true
  spin : s.reader = .spin → s.checkModulesFinished cfg = false
  done : s.reader = .done → s.checkModulesFinished cfg = true

theorem checkModulesFinished_congr (hfin : s'.finishedModules = s.finishedModules) :
    s'.checkModulesFinished cfg = s.checkModulesFinished cfg := by
  simp only [State.checkModulesFinished, hfin]

theorem checkModulesFinished_mono (h : ReaderTransition cfg s s')
    (hdone : s.checkModulesFinished cfg = true) : s'.checkModulesFinished cfg = true := by
  cases h with
  | rowsFinish i b count hr =>
      simp only [State.checkModulesFinished, List.all_eq_true, List.mem_range] at hdone ⊢
      intro j hj
      by_cases hji : (j : Int) = (s.series i).replayerIndex
      · rw [hji, Function.update_self]
      · rw [Function.update_of_ne hji]
        exact hdone j hj
  | _ => exact hdone

theorem readerTransition_course (hreader : ReaderInv cfg s) (hacc : Accounting cfg s')
    (hperm : (accounted cfg s').Perm cfg.records)
    (hsize : (cfg.records.length : Int) + 100 < longLongMax) (hinv : Course cfg s)
    (h : ReaderTransition cfg s s') : Course cfg s' := by
  have hexecutors : ∀ e ∈ s'.executors, e ∈ s.executors ∨ e = ⟨cfg.mainThreadID, .top⟩ := by
    intro e he
    cases h with
    | firstBatchDone =>
        rcases List.mem_append.mp he with he | he
        · exact .inl he
        · exact .inr (List.mem_singleton.mp he)
    | _ => exact .inl he
  constructor
  · exact readerTransition_countersLe hreader hacc hperm hsize hinv.counters h
  · intro e he
    rcases hexecutors e he with hold | rfl
    · exact hinv.thread e hold
    · rfl
  · intro e he
    rcases hexecutors e he with hold | rfl
    · exact hinv.alone e hold
    · rfl
  · intro e he hpc
    rcases hexecutors e he with hold | rfl
    · exact checkModulesFinished_mono h (hinv.ended e hold hpc)
    · rcases hpc with hpc | hpc <;> cases hpc
  · intro hpc
    cases h with
    | checkSpin _ hdone => exact hdone
    | spinWait hr => exact hinv.spin hr
    | _ => cases hpc
  · intro hpc
    cases h with
    | checkDone _ hdone => exact hdone
    | spinWait hr => rw [hr] at hpc; cases hpc
    | _ => cases hpc

theorem checkModulesFinished_of_heap {pid : Int} (hsingle : SingleThread cfg pid)
    (hperm : (accounted cfg s).Perm cfg.records) (hacc : Accounting cfg s)
    (hlow : LowWater cfg s) (hone : s.nThreads = 1) {e : Executor} (he : e ∈ s.executors)
    (hpc : e.pc = .top) (hthread : e.threadID = cfg.mainThreadID)
    (hempty : s.executionHeap e.threadID = []) : s.checkModulesFinished cfg = true := by
  refine List.all_eq_true.mpr fun i hi => ?_
  rw [List.mem_range] at hi
  by_contra hunf
  obtain ⟨c, hc, _⟩ := exists_queued_of_top hacc hlow hone he hpc hi (by simpa using hunf)
  have hrecord : c.record ∈ cfg.records := (mem_records hperm).mpr
    (.inr (.inr (List.mem_append_left _ (List.mem_map_of_mem hc))))
  rw [hsingle.mainThreadID] at hthread
  exact executionHeap_eq_nil.mp hempty c hc ((hsingle.pid _ hrecord).trans hthread.symm)

theorem contended_of_executorTransition {tid : Int} {pc pc' : ExecutorPc}
    (hone : s.nThreads = 1) (halone : contended pc = false)
    (h : ExecutorTransition cfg s tid pc t pc') : contended pc' = false := by
  cases h with
  | manyThreads c hmany => omega
  | reject | park | repush => cases halone
  | _ => rfl

theorem newExecutors_eq_nil {pid : Int} (hsingle : SingleThread cfg pid)
    (hperm : (accounted cfg s).Perm cfg.records) {e : Executor} (he : e ∈ s.executors) :
    newExecutors e.pc = [] := by
  cases hpc : e.pc with
  | admitted c =>
      have hrecord : c.record ∈ cfg.records := (mem_records hperm).mpr
        (.inr (.inl ⟨c, mem_copiesInHand.mpr ⟨e, he, by rw [hpc]; rfl⟩, rfl⟩))
      simp only [newExecutors, spawned, hsingle.child_eq_none hrecord]
  | _ => rfl

theorem moved_course {pid : Int} (hsingle : SingleThread cfg pid)
    (hperm : (accounted cfg s).Perm cfg.records) (hacc : Accounting cfg s)
    (hlow : LowWater cfg s) (hone : s.nThreads = 1) (hinv : Course cfg s) {e : Executor}
    {pc' : ExecutorPc} {before after : List Executor}
    (hsplit : s.executors = before ++ e :: after)
    (h : ExecutorTransition cfg s e.threadID e.pc t pc') :
    Course cfg (moved t e pc' before after) := by
  have hmem : e ∈ s.executors := by simp [hsplit]
  have halone := hinv.alone e hmem
  obtain ⟨_, hfin, hreader, _⟩ := h.frame
  have hcheck : (moved t e pc' before after).checkModulesFinished cfg =
      s.checkModulesFinished cfg := checkModulesFinished_congr hfin
  have hexecutors : ∀ e' ∈ (moved t e pc' before after).executors,
      e' ∈ s.executors ∨ e' = ⟨e.threadID, pc'⟩ := by
    intro e' he'
    simp only [moved, newExecutors_eq_nil hsingle hperm hmem, List.append_nil, List.mem_append,
      List.mem_cons] at he'
    rcases he' with he' | he' | he'
    · exact .inl (by simp [hsplit, he'])
    · exact .inr he'
    · exact .inl (by simp [hsplit, he'])
  constructor
  · exact fun i hi => (numberOfSyscalls_anti halone h i).trans (hinv.counters i hi)
  · intro e' he'
    rcases hexecutors e' he' with hold | rfl
    · exact hinv.thread e' hold
    · exact hinv.thread e hmem
  · intro e' he'
    rcases hexecutors e' he' with hold | rfl
    · exact hinv.alone e' hold
    · exact contended_of_executorTransition hone halone h
  · intro e' he' hend
    rw [hcheck]
    rcases hexecutors e' he' with hold | rfl
    · exact hinv.ended e' hold hend
    · obtain ⟨tid, pc⟩ := e
      cases h with
      | leave hempty =>
          exact checkModulesFinished_of_heap hsingle hperm hacc hlow hone hmem rfl
            (hinv.thread _ hmem) hempty
      | unregister => exact hinv.ended _ hmem (.inl rfl)
      | _ => rcases hend with hend | hend <;> cases hend
  · rw [hcheck]
    exact fun hpc => hinv.spin (hreader ▸ hpc)
  · rw [hcheck]
    exact fun hpc => hinv.done (hreader ▸ hpc)

theorem reachable_course {pid : Int} (hsingle : SingleThread cfg pid)
    (hidx : cfg.IndexedCopies) (hsize : (cfg.records.length : Int) + 100 < longLongMax)
    (h : (replay cfg).Reachable s) : Course cfg s := by
  refine h.invariant _ ?_ fun s a s' hreach hinv _ hs => ?_
  · refine ⟨fun _ _ => ?_, fun _ he => ?_, fun _ he => ?_, fun _ he => ?_, fun hpc => ?_,
      fun hpc => ?_⟩
    · change (1 : Int) ≤ longLongMax
      decide
    · exact (List.not_mem_nil he).elim
    · exact (List.not_mem_nil he).elim
    · exact (List.not_mem_nil he).elim
    · cases hpc
    · cases hpc
  · have hreach' : (replay cfg).Reachable s' := .step hreach trivial hs
    cases transition_of_step hs with
    | reader pick h =>
        exact readerTransition_course (reachable_readerInv hreach)
          (reachable_accounting hidx hreach') (reachable_accounted hreach') hsize hinv h
    | executor index pick e before after he hsplit h =>
        exact moved_course hsingle (reachable_accounted hreach)
          (reachable_accounting hidx hreach) (reachable_lowWater hidx hreach)
          (reachable_nThreads (fun _ => hsingle.child_eq_none) hreach) hinv hsplit h

theorem remaining_lt_of_executor (hperm : (accounted cfg s).Perm cfg.records)
    (hone : s.nThreads = 1) (hinv : Course cfg s) {pid : Int}
    (hsingle : SingleThread cfg pid) {index : Nat} {tid : Int} {pc pc' : ExecutorPc}
    (hget : s.executors[index]? = some ⟨tid, pc⟩) (hmoves : pc' ≠ pc)
    (h : ExecutorTransition cfg s tid pc t pc') :
    remaining cfg { t with executors := setPc t.executors index pc' } < remaining cfg s := by
  have hmem := List.mem_of_getElem? hget
  have halone := hinv.alone _ hmem
  obtain ⟨hseries, hfin, hreader, _⟩ := h.frame
  have hnew := newExecutors_eq_nil hsingle hperm hmem
  have hexecutors : t.executors = s.executors := by
    rw [h.executors, hnew, List.append_nil]
  rw [hexecutors]
  have hrows : unqueuedRows cfg { t with executors := setPc s.executors index pc' } =
      unqueuedRows cfg s :=
    unqueuedRows_congr fun i _ => unqueued_of_frame hseries hfin hreader _ i
  have hrank : readerRank cfg { t with executors := setPc s.executors index pc' } ≤
      readerRank cfg s := readerRank_anti hreader hfin fun i => numberOfSyscalls_anti halone h i
  have hranks := executorRanks_setPc hget pc'
  have hlt := executorTransition_rank hperm hone hmem halone hmoves h
  simp only [remaining, readerMeasure, executorMeasure, hrows]
  simp only [unexecuted] at hlt ⊢
  omega

theorem waits_of_guardWait {tid : Int} {c : Copy} {pick : Nat}
    (h : executorStep cfg s tid (.guard c) pick = some (t, .guard c)) :
    s.getMinSyscall cfg < 10 * s.nThreads ∧ s.checkModulesFinished cfg = false := by
  simp only [executorStep] at h
  split at h
  · rename_i hguard
    exact ⟨hguard.1, by simpa using hguard.2⟩
  · cases h

theorem guard_of_same {tid : Int} {pc : ExecutorPc} {pick : Nat}
    (h : executorStep cfg s tid pc pick = some (t, pc)) :
    ∃ c, pc = .guard c ∧ s.getMinSyscall cfg < 10 * s.nThreads ∧
      s.checkModulesFinished cfg = false := by
  have htrans := executorTransition_of_executorStep h
  cases pc with
  | guard c => exact ⟨c, rfl, waits_of_guardWait h⟩
  | _ => cases htrans

/-- A step that does not wait brings the replay closer to its end. -/
theorem remaining_lt_of_step {pid : Int} (hsingle : SingleThread cfg pid)
    (hidx : cfg.IndexedCopies) (hsize : (cfg.records.length : Int) + 100 < longLongMax)
    (hreach : (replay cfg).Reachable s) {a : Action} (hwaits : ¬Waits cfg s a)
    (hs : step cfg s a = some s') : remaining cfg s' < remaining cfg s := by
  have hreach' : (replay cfg).Reachable s' := .step hreach trivial hs
  have hperm := reachable_accounted hreach
  have hone := reachable_nThreads (fun _ => hsingle.child_eq_none) hreach
  have hcourse := reachable_course hsingle hidx hsize hreach
  cases a with
  | reader pick =>
      have htrans := readerTransition_of_readerStep hs
      have hlt : readerMeasure cfg s' < readerMeasure cfg s := by
        refine readerMeasure_lt (reachable_readerInv hreach) (reachable_lowWater hidx hreach)
          hperm (reachable_accounted hreach') (fun hpc => ⟨?_, ?_⟩) htrans
        · rintro rfl
          have hgetMin : ¬s'.getMinSyscall cfg > 100 * s'.nThreads := fun h => hwaits ⟨hpc, h⟩
          simp only [step, readerStep, hpc, if_neg hgetMin] at hs
          have hreader := congrArg State.reader (Option.some.inj hs)
          rw [hpc] at hreader
          cases hreader
        · exact promised_of_spin (reachable_readerInv hreach)
            (reachable_accounting hidx hreach)
            (reachable_repushedQueued (fun _ _ h => h.2) (reachVia_timely hsingle hidx hreach))
            hcourse.counters hsize hone hpc fun h => hwaits ⟨hpc, h⟩
      have hle : executorMeasure cfg s' ≤ executorMeasure cfg s + 10 := by
        cases htrans with
        | prepareUmask hr c hc =>
            simp only [executorMeasure, unexecuted, prepared, State.setRunning, State.touch,
              State.decrement, List.length_append]
            omega
        | firstBatchDone =>
            simp only [executorMeasure, unexecuted, executorRanks_append]
            exact Nat.le_refl _
        | _ => exact Nat.le_add_right _ _
      simp only [remaining]
      omega
  | executor index pick =>
      simp only [step] at hs
      split at hs
      · cases hs
      · rename_i e hget
        obtain ⟨⟨t, pc'⟩, hstep, rfl⟩ := Option.map_eq_some_iff.mp hs
        obtain ⟨tid, pc⟩ := e
        refine remaining_lt_of_executor hperm hone hcourse hsingle hget ?_
          (executorTransition_of_executorStep hstep)
        rintro rfl
        obtain ⟨c, rfl, hguard⟩ := guard_of_same hstep
        exact hwaits ⟨tid, c, hget, hguard⟩

theorem same_of_waits {a : Action} (hwaits : Waits cfg s a) (hs : step cfg s a = some s') :
    s' = s := by
  cases a with
  | reader pick =>
      obtain ⟨hpc, hgetMin⟩ := hwaits
      simp only [step, readerStep, hpc, if_pos hgetMin] at hs
      exact (Option.some.inj hs).symm
  | executor index pick =>
      obtain ⟨tid, c, hget, hmin, hunf⟩ := hwaits
      simp only [step, hget, executorStep, hunf, Bool.not_false, and_true, if_pos hmin,
        Option.map_some] at hs
      rw [← Option.some.inj hs, setPc_self hget]

/-- Until it ends an executor can always act. -/
theorem executor_enabled {index : Nat} {tid : Int} {pc : ExecutorPc}
    (hget : s.executors[index]? = some ⟨tid, pc⟩) (hpc : pc ≠ .exited) :
    Enabled (replay cfg) party (.executor index) s := by
  suffices h : ∃ pick, (executorStep cfg s tid pc pick).isSome by
    obtain ⟨pick, hsome⟩ := h
    refine ⟨.executor index pick, rfl, ?_⟩
    change (step cfg s (.executor index pick)).isSome = true
    simp only [step, hget, Option.isSome_map, hsome]
  cases pc with
  | top =>
      by_cases hempty : s.executionHeap tid = []
      · exact ⟨0, by simp only [executorStep, if_pos hempty, Option.isSome_some]⟩
      · obtain ⟨c, hc⟩ := exists_mem_minima hempty
        obtain ⟨pick, hpick⟩ := List.mem_iff_getElem?.mp hc
        refine ⟨pick, ?_⟩
        simp only [executorStep, if_neg hempty, hpick, Option.map_some, Option.isSome_some]
  | guard c | running c | validating c =>
      refine ⟨0, ?_⟩
      simp only [executorStep]
      split <;> rfl
  | exited => exact absurd rfl hpc
  | _ => exact ⟨0, rfl⟩

theorem eq_loadSyscallModules (h : (replay cfg).Reachable s) (hpc : s.reader = .prepare) :
    s = loadSyscallModules cfg := by
  cases h with
  | init => rfl
  | step hreach _ hs =>
      cases transition_of_step hs with
      | reader pick h =>
          cases h with
          | spinWait hr => rw [hr] at hpc; cases hpc
          | _ => cases hpc
      | executor index pick e before after he hsplit h =>
          have hat := (reachable_readerInv hreach).pc
          obtain ⟨_, _, hreader, _⟩ := h.frame
          rw [show _ = ReaderPc.prepare from hreader.symm.trans hpc] at hat
          rw [hat.1] at hsplit
          simp at hsplit

theorem SingleThread.prepare_enabled {pid : Int} (hsingle : SingleThread cfg pid) :
    Enabled (replay cfg) party .reader (loadSyscallModules cfg) := by
  obtain ⟨rows, hrows, r, hr, humask, hid⟩ := hsingle.first
  obtain ⟨i, hi, rfl⟩ := List.getElem_of_mem hrows
  have hget : cfg.rows i = cfg.modules[i] := by
    simp only [Config.rows, List.getD_eq_getElem?_getD, List.getElem?_eq_getElem hi,
      Option.getD_some]
  have hc : (⟨r, cfg.uninitialised i, i⟩ : Copy) ∈
      (loadSyscallModules cfg).minima cfg.mainThreadID := by
    refine mem_minima.mpr ⟨?_, ?_, fun c' _ _ => ?_⟩
    · refine List.mem_filterMap.mpr ⟨i, List.mem_range.mpr hi, ?_⟩
      rw [Config.firstCopy, hget, hr]
      rfl
    · rw [hsingle.mainThreadID]
      exact hsingle.pid r (mem_records_of_head hrows hr)
    · simp only [hid, Nat.zero_le]
  obtain ⟨pick, hpick⟩ := List.mem_iff_getElem?.mp hc
  refine ⟨.reader pick, rfl, ?_⟩
  change (prepareReplay cfg (loadSyscallModules cfg) pick).isSome = true
  unfold prepareReplay
  split
  · rfl
  · simp only [hpick, humask, hid, and_self, if_true, Option.isSome_some]

theorem reader_enabled {pid : Int} (hsingle : SingleThread cfg pid)
    (hreach : (replay cfg).Reachable s) (hpc : s.reader ≠ .done) :
    Enabled (replay cfg) party .reader s := by
  suffices h : s.reader ≠ .prepare → (readerStep cfg s 0).isSome by
    by_cases hprepare : s.reader = .prepare
    · rw [eq_loadSyscallModules hreach hprepare]
      exact SingleThread.prepare_enabled hsingle
    · exact ⟨.reader 0, rfl, h hprepare⟩
  intro hprepare
  have hat := (reachable_readerInv hreach).pc
  cases hr : s.reader with
  | prepare => exact absurd hr hprepare
  | done => exact absurd hr hpc
  | modules b =>
      simp only [readerStep, hr]
      split
      · split <;> rfl
      · split
        · rfl
        · split <;> rfl
  | rows i b count =>
      rw [hr] at hat
      simp only [readerStep, hr]
      split
      · exact absurd hat.2.2.1 (by decide)
      · rfl
      · split
        · rfl
        · split <;> rfl
  | check | spin =>
      simp only [readerStep, hr]
      split <;> rfl
  | _ => simp only [readerStep, hr, Option.isSome_some]

/-- Some thread can act and does not wait. -/
theorem progress {pid : Int} (hsingle : SingleThread cfg pid) (hidx : cfg.IndexedCopies)
    (hsize : (cfg.records.length : Int) + 100 < longLongMax)
    (hreach : (replay cfg).Reachable s) (hterm : ¬Terminated s) :
    ∃ p, Enabled (replay cfg) party p s ∧ ∀ a, party a = p → ¬Waits cfg s a := by
  have hcourse := reachable_course hsingle hidx hsize hreach
  have hexecutor : ∀ e ∈ s.executors, e.pc ≠ .exited →
      (s.checkModulesFinished cfg = false → 10 * s.nThreads ≤ s.getMinSyscall cfg) →
      ∃ p, Enabled (replay cfg) party p s ∧ ∀ a, party a = p → ¬Waits cfg s a := by
    intro e he hpc hguard
    obtain ⟨index, hget⟩ := List.mem_iff_getElem?.mp he
    refine ⟨.executor index, executor_enabled hget hpc, fun a ha hwaits => ?_⟩
    cases a with
    | reader pick => cases ha
    | executor index' pick =>
        obtain ⟨tid, c, _, hmin, hunf⟩ := hwaits
        have hle := hguard hunf
        omega
  by_cases hdone : s.reader = .done
  · have hsome : ∃ e ∈ s.executors, e.pc ≠ .exited := by
      by_contra hnone
      exact hterm ⟨hdone, fun e he => by_contra fun hpc => hnone ⟨e, he, hpc⟩⟩
    obtain ⟨e, he, hpc⟩ := hsome
    refine hexecutor e he hpc fun hunf => ?_
    rw [hcourse.done hdone] at hunf
    cases hunf
  · by_cases hwait : s.reader = .spin ∧ s.getMinSyscall cfg > 100 * s.nThreads
    · obtain ⟨hspin, hmin⟩ := hwait
      obtain ⟨e, he, _⟩ := (reachable_lifecycle (reachVia_timely hsingle hidx hreach)
        fun _ _ h => h).main (by rw [hspin]; rfl)
      refine hexecutor e he (fun hpc => ?_) fun _ => by omega
      have hfin := hcourse.ended e he (.inr hpc)
      rw [hcourse.spin hspin] at hfin
      cases hfin
    · refine ⟨.reader, reader_enabled hsingle hreach hdone, fun a ha hwaits => ?_⟩
      cases a with
      | reader pick => exact hwait hwaits
      | executor index pick => cases ha

end State

/-- The log of a replay that has ended. -/
theorem executedLog_of_terminated {cfg : Config} {pid : Int} (hsingle : SingleThread cfg pid)
    (hidx : cfg.IndexedCopies) {s : State} (hreach : (replay cfg).Reachable s)
    (hterm : Terminated s) :
    s.executedLog.Perm cfg.records ∧
      s.executedLog.Pairwise fun r r' => r.uniqueId ≤ r'.uniqueId := by
  have htimely := reachVia_timely hsingle hidx hreach
  have hcreated : ∀ r ∈ cfg.records, Created cfg r.executingPid := fun r hr => by
    rw [hsingle.pid r hr, ← hsingle.mainThreadID]
    exact .main
  have hperm := executedLog_perm_of_terminated hcreated htimely hterm
  refine ⟨hperm, (reachable_inOrder htimely fun _ _ h => h).log.imp_of_mem fun hr hr' h => ?_⟩
  exact h ((hsingle.pid _ (hperm.mem_iff.mp hr)).trans (hsingle.pid _ (hperm.mem_iff.mp hr')).symm)

theorem eventually_terminated {cfg : Config} {pid : Int} (hsingle : SingleThread cfg pid)
    (hidx : cfg.IndexedCopies) (hsize : (cfg.records.length : Int) + 100 < longLongMax)
    (run : Run (replay cfg)) (hstart : (replay cfg).Reachable (run.state 0))
    (hfair : Fair party run) (n : Nat) : ∃ m, n ≤ m ∧ Terminated (run.state m) := by
  have hdecrease : ∀ s a s', (replay cfg).Reachable s → step cfg s a = some s' →
      s' = s ∨ remaining cfg s' < remaining cfg s := by
    intro s a s' hreach hs
    by_cases hwaits : Waits cfg s a
    · exact .inl (same_of_waits hwaits hs)
    · exact .inr (remaining_lt_of_step hsingle hidx hsize hreach hwaits hs)
  have hprogress : ∀ s, (replay cfg).Reachable s → ¬Terminated s →
      ∃ p, Enabled (replay cfg) party p s ∧
        ∀ a s', party a = p → step cfg s a = some s' → s' ≠ s := by
    intro s hreach hterm
    obtain ⟨p, henabled, hmoves⟩ := progress hsingle hidx hsize hreach hterm
    refine ⟨p, henabled, fun a s' ha hs hsame => ?_⟩
    have hlt := remaining_lt_of_step hsingle hidx hsize hreach (hmoves a ha) hs
    rw [hsame] at hlt
    exact Nat.lt_irrefl _ hlt
  exact eventually_of_measure hfair (run.reachable hstart) hdecrease hprogress n

/-- However the reader and the executor are scheduled, if neither is left out for
ever the replay of a single thread ends with all records executed in order. -/
theorem fair_replay_terminates {cfg : Config} {pid : Int} (hsingle : SingleThread cfg pid)
    (hidx : cfg.IndexedCopies) (hsize : (cfg.records.length : Int) + 100 < longLongMax)
    (run : Run (replay cfg)) (hstart : (replay cfg).Reachable (run.state 0))
    (hfair : Fair party run) (n : Nat) :
    ∃ m, n ≤ m ∧ Terminated (run.state m) ∧ (run.state m).executedLog.Perm cfg.records ∧
      (run.state m).executedLog.Pairwise fun r r' => r.uniqueId ≤ r'.uniqueId := by
  obtain ⟨m, hm, hterm⟩ := eventually_terminated hsingle hidx hsize run hstart hfair n
  exact ⟨m, hm, hterm, executedLog_of_terminated hsingle hidx (run.reachable hstart m) hterm⟩

theorem step_of_terminated {cfg : Config} {s : State} (hterm : Terminated s) (a : Action) :
    step cfg s a = none := by
  cases a with
  | reader pick => simp only [step, readerStep, hterm.1]
  | executor index pick =>
      simp only [step]
      split
      · rfl
      · rename_i e hget
        simp only [hterm.2 e (List.mem_of_getElem? hget), executorStep, Option.map_none]

/-- The reader to its end, then the executor to its end. -/
theorem openTrace_terminates :
    ∃ run : Run (replay openTrace), Fair party run ∧
      run.state 0 = loadSyscallModules openTrace ∧
      ∃ m, 0 ≤ m ∧ Terminated (run.state m) ∧
        (run.state m).executedLog.Perm openTrace.records ∧
        (run.state m).executedLog.Pairwise fun r r' => r.uniqueId ≤ r'.uniqueId := by
  let schedule : List Action :=
    List.replicate 14 (.reader 0) ++ List.replicate 26 (.executor 0 0)
  have hany : ((replay openTrace).runVia (fun _ _ => true) (replay openTrace).init
      schedule).any (fun s => decide (Terminated s)) = true := by decide
  obtain ⟨s, hrun, hterm⟩ := (Option.any_eq_true _ _).mp hany
  obtain ⟨run, hstart, hfair⟩ := exists_fair_of_dead party hrun
    (step_of_terminated (of_decide_eq_true hterm))
  have hreach : (replay openTrace).Reachable (run.state 0) := by
    rw [hstart]
    exact .init
  exact ⟨run, hfair, hstart, fair_replay_terminates openTrace_singleThread (fun _ _ => rfl)
    (by decide) run hreach hfair 0⟩

end SyscallReplayer.ReplayTermination
