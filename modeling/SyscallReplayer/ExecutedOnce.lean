import SyscallReplayer.SchedulerRuns
import SyscallReplayer.SingleThreadReplay

/-!
# Every record is executed once

The replay is exact as long as the reader keeps ahead of every pop. An executor
that finds its heap empty before that ends for good, and the records the reader
delivers later are lost.
-/

namespace SyscallReplayer.ExecutedOnce

open SyscallReplayer.CInt
open SyscallReplayer.TransitionSystem
open SyscallReplayer.Scheduler
open SyscallReplayer.SchedulerSteps
open SyscallReplayer.SchedulerRuns
open SyscallReplayer.RecordConservation
open SyscallReplayer.ThreadOrder
open SyscallReplayer.QueueAccounting

/-- Each record of the trace was executed once, and those of each thread in the order
of their ids. -/
structure Exact (cfg : Config) (s : State) : Prop where
  once : s.executedLog.Perm cfg.records
  ordered : ∀ tid, ((s.executedLog.filter fun r => r.executingPid = tid).map
    Record.uniqueId).Pairwise (· ≤ ·)

/-- A replay in which every pop comes after the reader has delivered, and no
thread is started twice at a time, executes every record of the trace once, and
the records of each thread in the order of their ids. -/
theorem timely_replay_exact {cfg : Config}
    (hcreated : ∀ r ∈ cfg.records, Created cfg r.executingPid) {s : State}
    (hreach : (replay cfg).ReachVia (Timely cfg) s) (hterm : Terminated s) : Exact cfg s :=
  ⟨executedLog_perm_of_terminated hcreated hreach hterm, executedLog_sorted hreach⟩

theorem nearTrace_exact : ∃ s, Terminated s ∧ Exact nearTrace s := by
  obtain ⟨s, hreach, hs⟩ := (replay nearTrace).exists_reachVia
    (fun s a => decide (Timely nearTrace s a)) (fun _ _ h => of_decide_eq_true h)
    (List.replicate 14 (.reader 0) ++ List.replicate 12 (.executor 0 0) ++
      List.replicate 11 (.executor 1 0) ++ List.replicate 7 (.executor 0 0))
    (fun s => decide (Terminated s)) (by decide)
  have hmain : Created nearTrace 1 := .main
  have hchild : Created nearTrace 2 :=
    .child (r := ⟨.clone, 1, 1, 2, 3, 2⟩) (by decide) hmain (by decide)
  refine ⟨s, of_decide_eq_true hs, timely_replay_exact ?_ hreach (of_decide_eq_true hs)⟩
  have hpids : ∀ r ∈ nearTrace.records, r.executingPid = 1 ∨ r.executingPid = 2 := by
    decide
  intro r hr
  rcases hpids r hr with hpid | hpid
  · rw [hpid]
    exact hmain
  · rw [hpid]
    exact hchild

def readOf (k : Nat) : Record :=
  ⟨.read, k + 2, 1, 2 * k + 4, 2 * k + 5, 0⟩

def readCopy (k : Nat) : Copy :=
  ⟨readOf k, 2, 2⟩

/-- A read of the thread that the `clone` record creates. -/
def childRead : Record :=
  ⟨.read, 1001, 2, 2002, 2003, 0⟩

/-- The main thread clones thread 2, then reads 999 times, then thread 2 reads
once. -/
def lateTrace : Config where
  modules :=
    [[⟨.umask, 0, 1, 0, 1, 0⟩], [⟨.clone, 1, 1, 2, 3, 2⟩],
      readOf 0 :: ((List.range' 1 998).map readOf ++ [childRead])]
  order := [0, 1, 2]
  uninitialised i := i
  modules_nonempty := by simp
  order_perm := List.Perm.refl [0, 1, 2]

theorem lateTrace_entered :
    ∃ s, (replay lateTrace).Reachable s ∧ s.reader = .rows 2 ⟨[], true, 1000⟩ 1000 ∧
      (s.series 2).unread = (List.range' 1 998).map readOf ++ [childRead] ∧
      (s.series 2).replayerIndex = 2 ∧
      s.queued = [⟨⟨.clone, 1, 1, 2, 3, 2⟩, 1, 1⟩, readCopy 0] ∧
      (s.numberOfSyscalls 0 = longLongMax ∧ s.numberOfSyscalls 1 = longLongMax ∧
        s.numberOfSyscalls 2 = 1) ∧
      (s.finishedModules 0 = true ∧ s.finishedModules 1 = true ∧
        s.finishedModules 2 = false) ∧
      ((s.series 0).replayerIndex = 0 ∧ (s.series 1).replayerIndex = 1) ∧
      s.nThreads = 1 ∧ s.lastExecutedSyscallID = 0 ∧
      s.currentExecutions = [(1, some ⟨⟨.umask, 0, 1, 0, 1, 0⟩, 0, 0⟩)] ∧
      s.executors = [] := by
  let a : Action := .reader 0
  have h0 : (replay lateTrace).Reachable (replay lateTrace).init := .init
  have h := h0.step (a := a) trivial rfl
    |>.step (a := a) trivial rfl |>.step (a := a) trivial rfl |>.step (a := a) trivial rfl
    |>.step (a := a) trivial rfl |>.step (a := a) trivial rfl |>.step (a := a) trivial rfl
    |>.step (a := a) trivial rfl
  exact ⟨_, h, rfl, rfl, rfl, rfl, ⟨rfl, rfl, rfl⟩, ⟨rfl, rfl, rfl⟩, ⟨rfl, rfl⟩, rfl, rfl, rfl, rfl⟩

/-- Where the main thread has `m` reads left, starting with read `k`, the child
has ended, and `late` is queued behind them. -/
structure Draining (s : State) (k m : Nat) (late : List Copy) : Prop where
  queued : s.queued = (List.range' k m).map readCopy ++ late
  nThreads : s.nThreads = 2
  last : k + 1 ≤ s.lastExecutedSyscallID
  entries : ∀ e ∈ s.currentExecutions, e.1 = 1
  executors : s.executors = [⟨1, .top⟩, ⟨2, .exited⟩]

theorem replayerIdx_lateTrace : lateTrace.replayerIdx = 3 := rfl

theorem draining_turn {s : State} {k m : Nat} {late : List Copy}
    (h : Draining s k (m + 1) late) (hlate : ∀ c ∈ late, k + 2 ≤ c.record.uniqueId)
    (hguard : s.checkModulesFinished lateTrace = true ∨
      (20 ≤ uint64 (s.numberOfSyscalls 0) ∧ 20 ≤ uint64 (s.numberOfSyscalls 1) ∧
        20 ≤ uint64 (s.numberOfSyscalls 2 - 1))) :
    Runs lateTrace s (turn s 1 (readCopy k)) ∧
      Draining (turn s 1 (readCopy k)) (k + 1) m late := by
  obtain ⟨hqueued, hthreads, hlast, hentries, hexec⟩ := h
  rw [List.range'_succ, List.map_cons, List.cons_append] at hqueued
  constructor
  · refine runs_turn 0 0 (by rw [hexec]; rfl) ?_ ?_ fun _ => ?_
    · refine minima_head (c := readCopy k) hqueued ?_
      intro c hc
      rcases List.mem_append.mp hc with hc | hc
      · obtain ⟨j, hj, rfl⟩ := List.mem_map.mp hc
        have hle := (List.mem_range'_1.mp hj).1
        simp only [readCopy, readOf]
        omega
      · exact hlate c hc
    · rintro ⟨hmin, hunf⟩
      rcases hguard with hdone | ⟨h0, h1, h2⟩
      · have hsame : (taken s (readCopy k)).checkModulesFinished lateTrace =
            s.checkModulesFinished lateTrace := rfl
        rw [hsame, hdone] at hunf
        cases hunf
      · have hle : (20 : Int) ≤ (taken s (readCopy k)).getMinSyscall lateTrace := by
          refine le_getMinSyscall (by decide) fun i hi => ?_
          rw [replayerIdx_lateTrace] at hi
          have hcases : i = 0 ∨ i = 1 ∨ i = 2 := by omega
          rcases hcases with rfl | rfl | rfl
          · exact h0
          · exact h1
          · exact h2
        rw [hthreads] at hmin
        omega
    · have hsequential : k + 2 ≤ s.lastExecutedSyscallID + 150 := by omega
      simp only [State.checkExecutionValidation, Bool.and_eq_true, List.all_eq_true]
      refine ⟨decide_eq_true hsequential, ?_⟩
      intro e he
      simp only [State.setRunning, List.mem_cons, List.mem_filter] at he
      rcases he with rfl | ⟨he, hne⟩
      · simp [State.compatible]
      · exact absurd (hentries e he) (by simpa using hne)
  · refine ⟨?_, hthreads, ?_, ?_, hexec⟩
    · change s.queued.erase (readCopy k) = _
      rw [hqueued, List.erase_cons_head]
    · exact le_max_right _ _
    · intro e he
      change e ∈ (1, some (readCopy k)) :: s.currentExecutions.filter fun e => e.1 ≠ 1 at he
      rcases List.mem_cons.mp he with rfl | he
      · rfl
      · exact hentries e (List.mem_of_mem_filter he)

/-- The main thread runs through its reads as long as the reader has enough rows
of the third module queued, or is done. -/
theorem draining_runs {late : List Copy} (n : Nat) {s : State} {k m : Nat}
    (h : Draining s k (m + n) late) (hlate : ∀ c ∈ late, k + n + 1 ≤ c.record.uniqueId)
    (hguard : s.checkModulesFinished lateTrace = true ∨
      20 ≤ uint64 (s.numberOfSyscalls 0) ∧ 20 ≤ uint64 (s.numberOfSyscalls 1) ∧
        s.numberOfSyscalls 2 = m + n ∧ 20 ≤ m ∧ m + n < 1000) :
    ∃ s', Runs lateTrace s s' ∧ Draining s' (k + n) m late ∧ s'.reader = s.reader ∧
      s'.series = s.series ∧ s'.finishedModules = s.finishedModules ∧
      s'.numberOfSyscalls 0 = s.numberOfSyscalls 0 ∧
      s'.numberOfSyscalls 1 = s.numberOfSyscalls 1 ∧
      s'.numberOfSyscalls 2 = s.numberOfSyscalls 2 - n := by
  induction n generalizing s k with
  | zero => exact ⟨s, .refl, h, rfl, rfl, rfl, rfl, rfl, by simp⟩
  | succ n ih =>
      have hturn := draining_turn (m := m + n) h (fun c hc => by have := hlate c hc; omega) (by
        rcases hguard with hdone | ⟨h0, h1, h2, hm, hlt⟩
        · exact .inl hdone
        · refine .inr ⟨h0, h1, ?_⟩
          rw [h2, uint64_eq_self] <;> push_cast <;> omega)
      obtain ⟨hruns, hdrain⟩ := hturn
      let t := turn s 1 (readCopy k)
      have h0 : t.numberOfSyscalls 0 = s.numberOfSyscalls 0 := rfl
      have h1 : t.numberOfSyscalls 1 = s.numberOfSyscalls 1 := rfl
      have h2 : t.numberOfSyscalls 2 = s.numberOfSyscalls 2 - 1 := rfl
      obtain ⟨s', hruns', hdrain', hreader, hseries, hfin, h0', h1', h2'⟩ :=
        ih (s := t) hdrain (fun c hc => by have := hlate c hc; omega) (by
          rcases hguard with hdone | ⟨hg0, hg1, hg2, hm, hlt⟩
          · exact .inl hdone
          · refine .inr ⟨hg0, hg1, ?_, hm, by omega⟩
            rw [h2, hg2]
            push_cast
            omega)
      refine ⟨s', hruns.trans hruns', ?_, hreader, hseries, hfin, h0'.trans h0,
        h1'.trans h1, ?_⟩
      · rwa [show k + 1 + n = k + (n + 1) by omega] at hdrain'
      · rw [h2', h2]
        push_cast
        omega


/-- Where the reader spins with the record of the child still in the members of
the third module. -/
structure HoldingChild (s : State) (cloneCount readCount : Int) : Prop where
  reader : s.reader = .spin
  index₀ : (s.series 0).replayerIndex = 0
  index₁ : (s.series 1).replayerIndex = 1
  series₂ : s.series 2 = ⟨childRead, [], 2⟩
  finished₀ : s.finishedModules 0 = true
  finished₁ : s.finishedModules 1 = true
  finished₂ : s.finishedModules 2 = false
  counter₀ : s.numberOfSyscalls 0 = longLongMax
  counter₁ : s.numberOfSyscalls 1 = cloneCount
  counter₂ : s.numberOfSyscalls 2 = readCount

theorem lateTrace_firstBatch :
    ∃ s, (replay lateTrace).Reachable s ∧
      HoldingChild s longLongMax 999 ∧
      s.queued = ⟨⟨.clone, 1, 1, 2, 3, 2⟩, 1, 1⟩ :: (List.range' 0 999).map readCopy ∧
      s.nThreads = 1 ∧ s.lastExecutedSyscallID = 0 ∧
      (∀ e ∈ s.currentExecutions, e.1 = 1) ∧ s.executors = [⟨1, .top⟩] := by
  obtain ⟨s, hreach, hreader, hunread, hidx, hqueued, ⟨hn0, hn1, hn2⟩, ⟨hf0, hf1, hf2⟩,
    ⟨hi0, hi1⟩, hthreads, hlast, hcur, hexec⟩ := lateTrace_entered
  obtain ⟨t, hruns, hsame, hreader', hunread', hqueued', hnum'⟩ :=
    @runs_rows lateTrace _ _ 0 ((List.range' 1 998).map readOf) [childRead] _
      (by simpa using hreader) hunread
  rw [hidx] at hnum'
  let b : Batch := ⟨[], true, 1000⟩
  let main : Executor := ⟨lateTrace.mainThreadID, .top⟩
  let held : State := { readRow t 2 childRead [] with reader := .rows 2 b 1 }
  let left : State := { held with reader := .modules b }
  let started : State := { left with
    reader := .check
    executors := left.executors ++ [main] }
  let waiting : State := { started with reader := .spin }
  have hhold : readerStep lateTrace t 0 = some held := by
    simp only [readerStep, hreader', hunread']
    rfl
  have hleave : readerStep lateTrace held 0 = some left := rfl
  have hstart : readerStep lateTrace left 0 = some started := rfl
  have hspin : readerStep lateTrace started 0 = some waiting := by
    have hunfinished : started.checkModulesFinished lateTrace = false := by
      have hfin : started.finishedModules 2 = false := by
        change t.finishedModules 2 = false
        rw [hsame.finishedModules, hf2]
      rw [State.checkModulesFinished, List.all_eq_false]
      exact ⟨2, by decide, by simpa using hfin⟩
    change (if started.checkModulesFinished lateTrace then _ else _) = _
    rw [hunfinished]
    rfl
  have hall : Runs lateTrace s waiting :=
    (((hruns.trans (runs_of_readerStep hhold)).trans (runs_of_readerStep hleave)).trans
      (runs_of_readerStep hstart)).trans (runs_of_readerStep hspin)
  have hnum : ∀ i : Int, i ≠ 2 → waiting.numberOfSyscalls i = s.numberOfSyscalls i :=
    fun i hi => hsame.numberOfSyscalls i (by rwa [hidx])
  have hseries : ∀ j, j ≠ 2 → waiting.series j = s.series j := fun j hj => by
    change Function.update t.series 2 _ j = _
    rw [Function.update_of_ne hj, hsame.series j hj]
  refine ⟨waiting, hreach.fires _ hall, ⟨rfl, ?_, ?_, ?_, ?_, ?_, ?_, ?_, ?_, ?_⟩, ?_, ?_, ?_,
    ?_, ?_⟩
  · exact (congrArg _ (hseries 0 (by decide))).trans hi0
  · exact (congrArg _ (hseries 1 (by decide))).trans hi1
  · have hown : waiting.series 2 = ⟨childRead, [], (t.series 2).replayerIndex⟩ :=
      Function.update_self 2 _ t.series
    rw [hown, hsame.index, hidx]
  · exact (congrFun hsame.finishedModules 0).trans hf0
  · exact (congrFun hsame.finishedModules 1).trans hf1
  · exact (congrFun hsame.finishedModules 2).trans hf2
  · exact (hnum 0 (by decide)).trans hn0
  · exact (hnum 1 (by decide)).trans hn1
  · change t.numberOfSyscalls 2 = 999
    rw [hnum', hn2]
    simp
  · change t.queued = _
    rw [hqueued', hqueued, hidx, List.map_map, List.range'_succ]
    rfl
  · exact hsame.nThreads.trans hthreads
  · exact hsame.lastExecutedSyscallID.trans hlast
  · intro e he
    have hmem : e ∈ s.currentExecutions := hsame.currentExecutions ▸ he
    rw [hcur] at hmem
    rw [List.mem_singleton.mp hmem]
  · change t.executors ++ _ = _
    rw [hsame.executors, hexec]
    rfl

/-- The main thread executes the `clone` record, and the executor of the child
ends on its empty heap. -/
theorem lateTrace_childEnds :
    ∃ s, (replay lateTrace).Reachable s ∧ HoldingChild s (longLongMax - 1) 999 ∧
      Draining s 0 999 [] := by
  obtain ⟨s, hreach, hold, hqueued, hthreads, hlast, hentries, hexec⟩ := lateTrace_firstBatch
  let c : Copy := ⟨⟨.clone, 1, 1, 2, 3, 2⟩, 1, 1⟩
  have hleast : ∀ c' ∈ (List.range' 0 999).map readCopy,
      c.record.uniqueId ≤ c'.record.uniqueId := by
    intro c' hc'
    obtain ⟨k, _, rfl⟩ := List.mem_map.mp hc'
    simp only [c, readCopy, readOf]
    omega
  have hmin : (10 : Int) ≤ (taken s c).getMinSyscall lateTrace := by
    refine le_getMinSyscall (by decide) fun i hi => ?_
    rw [replayerIdx_lateTrace] at hi
    have hcases : i = 0 ∨ i = 1 ∨ i = 2 := by omega
    rcases hcases with rfl | rfl | rfl
    · change 10 ≤ uint64 (s.numberOfSyscalls 0)
      rw [hold.counter₀]
      decide
    · change 10 ≤ uint64 (s.numberOfSyscalls 1 - 1)
      rw [hold.counter₁]
      decide
    · change 10 ≤ uint64 (s.numberOfSyscalls 2)
      rw [hold.counter₂]
      decide
  have hturn : Runs lateTrace s (turn s 1 c) := by
    refine runs_turn 0 0 (by rw [hexec]; rfl) (minima_head (c := c) hqueued hleast) ?_ ?_
    · rintro ⟨hlt, _⟩
      rw [hthreads] at hlt
      omega
    · intro hmany
      omega
  have hexecutors : (turn s 1 c).executors = [⟨1, .top⟩, ⟨2, .top⟩] := by
    change s.executors ++ [⟨int32 2, .top⟩] = _
    rw [hexec]
    rfl
  have herase : (turn s 1 c).queued = (List.range' 0 999).map readCopy := by
    change s.queued.erase c = _
    rw [hqueued, List.erase_cons_head]
  have hempty : (turn s 1 c).executionHeap 2 = [] := by
    rw [executionHeap_eq_nil, herase]
    intro c' hc'
    obtain ⟨k, _, rfl⟩ := List.mem_map.mp hc'
    simp [readCopy, readOf]
  have hexit := @runs_exit lateTrace _ 1 _ (by rw [hexecutors]; rfl) hempty
  refine ⟨_, hreach.fires _ (hturn.trans hexit), ?_, ?_⟩
  · obtain ⟨hr, hi0, hi1, hs2, hf0, hf1, hf2, hn0, hn1, hn2⟩ := hold
    exact ⟨hr, hi0, hi1, hs2, hf0, hf1, hf2, hn0, congrArg (· - 1) hn1, hn2⟩
  · refine ⟨?_, ?_, ?_, ?_, ?_⟩
    · exact herase.trans (List.append_nil _).symm
    · change s.nThreads + 1 = 2
      rw [hthreads]
    · change 0 + 1 ≤ max s.lastExecutedSyscallID 1
      omega
    · intro e he
      have he' : e ∈ (turn s 1 c).currentExecutions.filter fun e => e.1 ≠ 2 := he
      have hmem : e ∈ (int32 2, none) :: ((1, some c) :: s.currentExecutions.filter
          fun e => e.1 ≠ 1).filter fun e => e.1 ≠ int32 2 := List.mem_of_mem_filter he'
      have hne : e.1 ≠ 2 := by simpa using (List.mem_filter.mp he').2
      rcases List.mem_cons.mp hmem with rfl | hmem
      · exact absurd rfl hne
      · rcases List.mem_cons.mp (List.mem_of_mem_filter hmem) with rfl | hmem
        · rfl
        · exact hentries e (List.mem_of_mem_filter hmem)
    · simp only [hexecutors]
      rfl

/-- The reader delivers the record of the child and finishes the module. -/
theorem holdingChild_delivers {s : State} (h : HoldingChild s (longLongMax - 1) 200)
    (hthreads : s.nThreads = 2) :
    ∃ s', Runs lateTrace s s' ∧ s'.reader = .done ∧
      s'.checkModulesFinished lateTrace = true ∧
      s'.queued = s.queued ++ [⟨childRead, 2, 2⟩] ∧ s'.nThreads = s.nThreads ∧
      s'.lastExecutedSyscallID = s.lastExecutedSyscallID ∧
      s'.currentExecutions = s.currentExecutions ∧ s'.executors = s.executors := by
  obtain ⟨hreader, hi0, hi1, hs2, hf0, hf1, hf2, hn0, hn1, hn2⟩ := h
  have hlow : ¬s.getMinSyscall lateTrace > 100 * s.nThreads := by
    have hle := @getMinSyscall_le lateTrace s 2 (by decide)
    have hcount : uint64 (s.numberOfSyscalls 2) = 200 := by
      rw [hn2]
      decide
    rw [show ((2 : Nat) : Int) = 2 from rfl, hcount] at hle
    rw [hthreads]
    push_cast
    omega
  let woken : State := { s with reader := .modules ⟨[0, 1, 2], false, 300⟩ }
  have hwake : readerStep lateTrace s 0 = some woken := by
    have hbatch : nextBatch lateTrace s = ⟨[0, 1, 2], false, 300⟩ := by
      rw [nextBatch, hthreads]
      rfl
    simp only [readerStep, hreader]
    rw [if_neg hlow, hbatch]
  have hskip₀ := @runs_skip lateTrace woken _ _ _ rfl rfl
    ((congrArg _ hi0).trans hf0)
  let second : State := { woken.touch ((woken.series 0).move 0) with
    reader := .modules ⟨[1, 2], false, 300⟩ }
  have hskip₁ := @runs_skip lateTrace second _ _ _ rfl rfl
    ((congrArg _ hi1).trans hf1)
  let third : State := { second.touch ((second.series 1).move 1) with
    reader := .modules ⟨[2], false, 300⟩ }
  have hseries : third.series 2 = ⟨childRead, [], 2⟩ := hs2
  obtain ⟨t, hlast, hsame, hmodules, hqueued, hfin⟩ :=
    @runs_lastRow lateTrace third _ _ 298 _ rfl rfl rfl rfl
      (by rw [hseries]; exact hf2)
      (by
        rw [hseries]
        change uint64 (s.numberOfSyscalls 2) ≤ _
        rw [hn2]
        decide)
      (by rw [hseries])
  rw [hseries] at hqueued hfin
  have hfinished : t.checkModulesFinished lateTrace = true := by
    rw [State.checkModulesFinished, List.all_eq_true]
    intro i hi
    rw [List.mem_range, replayerIdx_lateTrace] at hi
    have hcases : i = 0 ∨ i = 1 ∨ i = 2 := by omega
    rw [hfin]
    rcases hcases with rfl | rfl | rfl
    · exact hf0
    · exact hf1
    · rfl
  have hcheck : readerStep lateTrace t 0 = some { t with reader := .check } := by
    simp only [readerStep, hmodules]
    rfl
  have hdone : readerStep lateTrace { t with reader := .check } 0 =
      some { t with reader := .done } := by
    simp only [readerStep]
    exact if_pos hfinished
  refine ⟨{ t with reader := .done }, ?_, rfl, hfinished, hqueued, hsame.nThreads,
    hsame.lastExecutedSyscallID, hsame.currentExecutions, hsame.executors⟩
  exact (((((runs_of_readerStep hwake).trans hskip₀).trans hskip₁).trans hlast).trans
    (runs_of_readerStep hcheck)).trans (runs_of_readerStep hdone)

theorem lateTrace_rowsIncreasing : lateTrace.RowsIncreasing := by
  intro rows hrows
  simp only [lateTrace, List.mem_cons, List.not_mem_nil, or_false] at hrows
  rcases hrows with rfl | rfl | rfl
  · exact List.pairwise_singleton _ _
  · exact List.pairwise_singleton _ _
  · have hreads : ((List.range' 1 998).map readOf).Pairwise fun r r' =>
        r.uniqueId < r'.uniqueId := by
      rw [List.pairwise_map]
      refine (List.pairwise_lt_range' (s := 1) (n := 998) 1).imp fun {k k'} hlt => ?_
      simp only [readOf]
      omega
    rw [List.pairwise_cons, List.pairwise_append]
    refine ⟨?_, hreads, List.pairwise_singleton _ _, ?_⟩
    · intro r hr
      rcases List.mem_append.mp hr with hr | hr
      · obtain ⟨k, hk, rfl⟩ := List.mem_map.mp hr
        have hle := (List.mem_range'_1.mp hk).1
        simp only [readOf]
        omega
      · rw [List.mem_singleton.mp hr]
        decide
    · intro r hr r' hr'
      obtain ⟨k, hk, rfl⟩ := List.mem_map.mp hr
      have hlt := (List.mem_range'_1.mp hk).2
      rw [List.mem_singleton.mp hr']
      simp only [readOf, childRead]
      omega

theorem lateTrace_created : ∀ r ∈ lateTrace.records, Created lateTrace r.executingPid := by
  have hmain : Created lateTrace 1 := .main
  have hchild : Created lateTrace 2 := by
    refine .child (r := ⟨.clone, 1, 1, 2, 3, 2⟩) ?_ hmain (by decide)
    exact List.mem_flatten_of_mem (l := [_]) (by simp [lateTrace]) (List.mem_singleton.mpr rfl)
  intro r hr
  obtain ⟨rows, hrows, hr⟩ := List.mem_flatten.mp hr
  simp only [lateTrace, List.mem_cons, List.not_mem_nil, or_false] at hrows
  rcases hrows with rfl | rfl | rfl
  · rw [List.mem_singleton.mp hr]
    exact hmain
  · rw [List.mem_singleton.mp hr]
    exact hmain
  · rcases List.mem_cons.mp hr with rfl | hr
    · exact hmain
    · rcases List.mem_append.mp hr with hr | hr
      · obtain ⟨k, _, rfl⟩ := List.mem_map.mp hr
        exact hmain
      · rw [List.mem_singleton.mp hr]
        exact hchild

theorem not_exact_of_queued {cfg : Config} {s : State} (hreach : (replay cfg).Reachable s)
    (hqueued : s.queued ≠ []) : ¬Exact cfg s := by
  intro hexact
  have hall := (reachable_accounted hreach).length_eq
  have honce := hexact.once.length_eq
  have hpos := List.length_pos_of_ne_nil hqueued
  simp only [accounted, copies, List.length_append, List.length_map] at hall
  omega

/-- Every thread of the trace is created and every kind is sorted, and still the
record of the child is lost. -/
theorem lateTrace_not_exact :
    lateTrace.IndexedCopies ∧ lateTrace.RowsIncreasing ∧
      (∀ r ∈ lateTrace.records, Created lateTrace r.executingPid) ∧
      ∃ s, (replay lateTrace).Reachable s ∧ Terminated s ∧ ¬Exact lateTrace s := by
  refine ⟨fun _ _ => rfl, lateTrace_rowsIncreasing, lateTrace_created, ?_⟩
  obtain ⟨s, hreach, hold, hdrain⟩ := lateTrace_childEnds
  -- 799 reads bring the count of the third module down to what wakes the reader.
  obtain ⟨s₁, hruns₁, hdrain₁, hreader₁, hseries₁, hfin₁, hn0, hn1, hn2⟩ :=
    draining_runs (m := 200) 799 hdrain (fun _ hc => (List.not_mem_nil hc).elim)
      (.inr ⟨by rw [hold.counter₀]; decide, by rw [hold.counter₁]; decide,
        hold.counter₂, by decide, by decide⟩)
  have hold₁ : HoldingChild s₁ (longLongMax - 1) 200 := by
    obtain ⟨hr, hi0, hi1, hs2, hf0, hf1, hf2, h0, h1, h2⟩ := hold
    rw [← hreader₁] at hr
    rw [← hseries₁] at hi0 hi1 hs2
    rw [← hfin₁] at hf0 hf1 hf2
    rw [h2] at hn2
    exact ⟨hr, hi0, hi1, hs2, hf0, hf1, hf2, hn0.trans h0, hn1.trans h1, hn2⟩
  obtain ⟨s₂, hruns₂, hdone, hfinished, hqueued, hthreads, hlast, hcurrent, hexec⟩ :=
    holdingChild_delivers hold₁ hdrain₁.nThreads
  have hdrain₂ : Draining s₂ 799 200 [⟨childRead, 2, 2⟩] := by
    obtain ⟨hq, ht, hl, hc, he⟩ := hdrain₁
    rw [List.append_nil] at hq
    rw [hq] at hqueued
    rw [← hthreads] at ht
    rw [← hlast] at hl
    rw [← hcurrent] at hc
    rw [← hexec] at he
    exact ⟨by simpa using hqueued, ht, by simpa using hl, hc, he⟩
  obtain ⟨s₃, hruns₃, hdrain₃, hreader₃, _⟩ :=
    draining_runs (m := 0) 200 hdrain₂
      (fun c hc => by rw [List.mem_singleton.mp hc]; decide) (.inl hfinished)
  have hqueued₃ : s₃.queued = [⟨childRead, 2, 2⟩] := by simpa using hdrain₃.queued
  have hempty : s₃.executionHeap 1 = [] := by
    rw [executionHeap_eq_nil, hqueued₃]
    intro c hc
    rw [List.mem_singleton.mp hc]
    decide
  have hexit := @runs_exit lateTrace _ 0 _ (by rw [hdrain₃.executors]; rfl) hempty
  have hend := hreach.fires _ (((hruns₁.trans hruns₂).trans hruns₃).trans hexit)
  refine ⟨_, hend, ⟨hreader₃.trans hdone, ?_⟩, ?_⟩
  · intro e he
    simp only [hdrain₃.executors] at he
    rcases List.mem_cons.mp he with rfl | he
    · rfl
    · rw [List.mem_singleton.mp he]
  · refine not_exact_of_queued hend ?_
    simp only [hqueued₃]
    exact List.cons_ne_nil _ _

end SyscallReplayer.ExecutedOnce
