import SyscallReplayer.Scheduler

/-!
# What one step can do

The step function is inverted once, into one constructor per atomic operation.
The invariants of the later modules are proved by cases on these.
-/

namespace SyscallReplayer.SchedulerSteps

open SyscallReplayer.CInt
open SyscallReplayer.TransitionSystem
open SyscallReplayer.Scheduler

/-- The pop of `prepare_replay` with the execution of the `umask` record. -/
def prepared (cfg : Config) (s : State) (c : Copy) : State :=
  { ((({ s with
        reader := .modules (firstBatch cfg)
        queued := s.queued.erase c }).decrement c.replayerIndex).touch c).setRunning
      c.record.executingPid (some c) with
    executedLog := s.executedLog ++ [c.record]
    lastExecutedSyscallID := c.record.uniqueId }

def readRow (s : State) (i : Nat) (r : Record) (rest : List Record) : State :=
  { s with
    series := Function.update s.series i ⟨r, rest, (s.series i).replayerIndex⟩ }

inductive ReaderTransition (cfg : Config) (s : State) : State → Prop
  | prepareEmpty (hpc : s.reader = .prepare)
      (hempty : s.executionHeap cfg.mainThreadID = []) :
      ReaderTransition cfg s { s with reader := .modules (firstBatch cfg) }
  | prepareUmask (hpc : s.reader = .prepare) (c : Copy)
      (hc : c ∈ s.minima cfg.mainThreadID)
      (humask : c.record.sysCallName = .umask) (hid : c.record.uniqueId = 0) :
      ReaderTransition cfg s (prepared cfg s c)
  | firstBatchDone (b : Batch) (hpc : s.reader = .modules b) (htodo : b.todo = [])
      (hfirst : b.isFirstTime = true) :
      ReaderTransition cfg s { s with
        reader := .check
        executors := s.executors ++ [⟨cfg.mainThreadID, .top⟩] }
  | batchDone (b : Batch) (hpc : s.reader = .modules b) (htodo : b.todo = [])
      (hfirst : b.isFirstTime = false) :
      ReaderTransition cfg s { s with reader := .check }
  | skip (b : Batch) (i : Nat) (rest : List Nat) (hpc : s.reader = .modules b)
      (htodo : b.todo = i :: rest)
      (hskip : s.finishedModules (s.series i).replayerIndex = true ∨
        uint64 (s.numberOfSyscalls (s.series i).replayerIndex) > b.batchSize * 2) :
      ReaderTransition cfg s { s.touch ((s.series i).move i) with
        reader := .modules { b with todo := rest } }
  | enterFirst (b : Batch) (i : Nat) (rest : List Nat) (hpc : s.reader = .modules b)
      (htodo : b.todo = i :: rest)
      (hunfinished : s.finishedModules (s.series i).replayerIndex = false)
      (hfirst : b.isFirstTime = true) :
      ReaderTransition cfg s { s.touch ((s.series i).move i) with
        reader := .rows i { b with todo := rest } b.batchSize }
  | enterCarry (b : Batch) (i : Nat) (rest : List Nat) (hpc : s.reader = .modules b)
      (htodo : b.todo = i :: rest)
      (hunfinished : s.finishedModules (s.series i).replayerIndex = false)
      (hfirst : b.isFirstTime = false) :
      ReaderTransition cfg s { s.touch ((s.series i).move i) with
        reader := .carry i { b with todo := rest } }
  | carry (i : Nat) (b : Batch) (hpc : s.reader = .carry i b) :
      ReaderTransition cfg s { s with
        queued := s.queued ++ [(s.series i).move i]
        reader := .counting ((s.series i).move i) i b b.batchSize }
  | count (c : Copy) (i : Nat) (b : Batch) (count : Nat)
      (hpc : s.reader = .counting c i b count) :
      ReaderTransition cfg s
        { (s.increment c.replayerIndex).touch c with reader := .rows i b count }
  | rowsEnd (i : Nat) (b : Batch) (hpc : s.reader = .rows i b 1) :
      ReaderTransition cfg s { s with reader := .modules b }
  | rowsFinish (i : Nat) (b : Batch) (count : Nat)
      (hpc : s.reader = .rows i b (count + 2)) (hunread : (s.series i).unread = []) :
      ReaderTransition cfg s { s.touch ((s.series i).move i) with
        finishedModules :=
          Function.update s.finishedModules (s.series i).replayerIndex true
        reader := .finishing i b }
  | rowsHold (i : Nat) (b : Batch) (r : Record) (rest : List Record)
      (hpc : s.reader = .rows i b 2) (hunread : (s.series i).unread = r :: rest) :
      ReaderTransition cfg s { readRow s i r rest with reader := .rows i b 1 }
  | rowsPush (i : Nat) (b : Batch) (count : Nat) (r : Record) (rest : List Record)
      (hpc : s.reader = .rows i b (count + 3))
      (hunread : (s.series i).unread = r :: rest) :
      ReaderTransition cfg s { readRow s i r rest with
        queued := s.queued ++ [⟨r, (s.series i).replayerIndex, i⟩]
        reader := .counting ⟨r, (s.series i).replayerIndex, i⟩ i b (count + 2) }
  | finish (i : Nat) (b : Batch) (hpc : s.reader = .finishing i b) :
      ReaderTransition cfg s { s.touch ((s.series i).move i) with
        numberOfSyscalls :=
          Function.update s.numberOfSyscalls (s.series i).replayerIndex longLongMax
        reader := .modules b }
  | checkDone (hpc : s.reader = .check) (hdone : s.checkModulesFinished cfg = true) :
      ReaderTransition cfg s { s with reader := .done }
  | checkSpin (hpc : s.reader = .check) (hdone : s.checkModulesFinished cfg = false) :
      ReaderTransition cfg s { s with reader := .spin }
  | spinWait (hpc : s.reader = .spin) :
      ReaderTransition cfg s s
  | spinBatch (hpc : s.reader = .spin) :
      ReaderTransition cfg s { s with reader := .modules (nextBatch cfg s) }

theorem readerTransition_of_readerStep {cfg : Config} {s s' : State} {pick : Nat}
    (h : readerStep cfg s pick = some s') : ReaderTransition cfg s s' := by
  unfold readerStep at h
  split at h
  · rename_i hpc
    unfold prepareReplay at h
    dsimp only at h
    split at h
    · rename_i hempty
      cases h
      exact .prepareEmpty hpc hempty
    · split at h
      · cases h
      · rename_i c hpick
        split at h
        · rename_i hassert
          cases h
          exact .prepareUmask hpc c (List.mem_of_getElem? hpick) hassert.1 hassert.2
        · cases h
  · rename_i b hpc
    split at h
    · rename_i htodo
      split at h
      · rename_i hfirst
        cases h
        exact .firstBatchDone b hpc htodo hfirst
      · rename_i hfirst
        cases h
        exact .batchDone b hpc htodo (by simpa using hfirst)
    · rename_i i rest htodo
      dsimp only at h
      split at h
      · rename_i hskip
        cases h
        exact .skip b i rest hpc htodo hskip
      · rename_i hskip
        have hunfinished : s.finishedModules (s.series i).replayerIndex = false := by
          by_contra hfin
          exact hskip (.inl (by simpa using hfin))
        split at h
        · rename_i hfirst
          cases h
          exact .enterFirst b i rest hpc htodo hunfinished hfirst
        · rename_i hfirst
          cases h
          exact .enterCarry b i rest hpc htodo hunfinished (by simpa using hfirst)
  · rename_i i b hpc
    cases h
    exact .carry i b hpc
  · rename_i c i b count hpc
    cases h
    exact .count c i b count hpc
  · rename_i i b count hpc
    split at h
    · cases h
    · cases h
      exact .rowsEnd i b hpc
    · rename_i count
      split at h
      · rename_i hunread
        cases h
        exact .rowsFinish i b count hpc hunread
      · rename_i r rest hunread
        dsimp only at h
        split at h
        · rename_i hlast
          have hzero : count = 0 := by omega
          subst hzero
          cases h
          exact .rowsHold i b r rest hpc hunread
        · rename_i hmore
          obtain ⟨count, rfl⟩ : ∃ k, count = k + 1 := ⟨count - 1, by omega⟩
          cases h
          exact .rowsPush i b count r rest hpc hunread
  · rename_i i b hpc
    cases h
    exact .finish i b hpc
  · rename_i hpc
    split at h
    · rename_i hdone
      cases h
      exact .checkDone hpc hdone
    · rename_i hdone
      cases h
      exact .checkSpin hpc (by simpa using hdone)
  · rename_i hpc
    split at h
    · cases h
      exact .spinWait hpc
    · cases h
      exact .spinBatch hpc
  · cases h

inductive ExecutorTransition (cfg : Config) (s : State) (tid : Int) :
    ExecutorPc → State → ExecutorPc → Prop
  | leave (hempty : s.executionHeap tid = []) :
      ExecutorTransition cfg s tid .top s .leaving
  | pop (c : Copy) (hc : c ∈ s.minima tid) :
      ExecutorTransition cfg s tid .top { s with queued := s.queued.erase c } (.popped c)
  | countPop (c : Copy) :
      ExecutorTransition cfg s tid (.popped c)
        ((s.decrement c.replayerIndex).touch c) (.guard c)
  | guardWait (c : Copy) :
      ExecutorTransition cfg s tid (.guard c) s (.guard c)
  | guardPass (c : Copy)
      (hguard : ¬s.getMinSyscall cfg < 10 * s.nThreads ∨
        s.checkModulesFinished cfg = true) :
      ExecutorTransition cfg s tid (.guard c) s (.guarded c)
  | register (c : Copy) :
      ExecutorTransition cfg s tid (.guarded c) (s.setRunning tid (some c)) (.running c)
  | manyThreads (c : Copy) (hmany : 1 < s.nThreads) :
      ExecutorTransition cfg s tid (.running c) s (.validating c)
  | oneThread (c : Copy) (hone : s.nThreads ≤ 1) :
      ExecutorTransition cfg s tid (.running c) s (.admitted c)
  | validate (c : Copy) (hvalid : s.checkExecutionValidation c = true) :
      ExecutorTransition cfg s tid (.validating c) s (.admitted c)
  | reject (c : Copy) (hvalid : s.checkExecutionValidation c = false) :
      ExecutorTransition cfg s tid (.validating c) s (.rejected c)
  | park (c : Copy) :
      ExecutorTransition cfg s tid (.rejected c) (s.setRunning tid none) (.parked c)
  | repush (c : Copy) :
      ExecutorTransition cfg s tid (.parked c) { s with queued := s.queued ++ [c] }
        (.repushed c)
  | countRepush (c : Copy) :
      ExecutorTransition cfg s tid (.repushed c)
        ((s.increment c.replayerIndex).touch c) .top
  | execute (c : Copy) :
      ExecutorTransition cfg s tid (.admitted c) (s.execute c) (.executed c)
  | readLast (c : Copy) :
      ExecutorTransition cfg s tid (.executed c) s
        (.storing (max s.lastExecutedSyscallID c.record.uniqueId))
  | storeLast (lastId : Nat) :
      ExecutorTransition cfg s tid (.storing lastId)
        { s with lastExecutedSyscallID := lastId } .top
  | unregister :
      ExecutorTransition cfg s tid .leaving
        { s with currentExecutions := s.currentExecutions.filter fun e => e.1 ≠ tid }
        .exited

theorem executorTransition_of_executorStep {cfg : Config} {s s' : State} {tid : Int}
    {pc pc' : ExecutorPc} {pick : Nat}
    (h : executorStep cfg s tid pc pick = some (s', pc')) :
    ExecutorTransition cfg s tid pc s' pc' := by
  cases pc with
  | top =>
      simp only [executorStep] at h
      split at h
      · rename_i hempty
        cases h
        exact .leave hempty
      · obtain ⟨c, hpick, heq⟩ := Option.map_eq_some_iff.mp h
        cases heq
        exact .pop c (List.mem_of_getElem? hpick)
  | guard c =>
      simp only [executorStep] at h
      split at h
      · cases h
        exact .guardWait c
      · rename_i hguard
        cases h
        refine .guardPass c ?_
        rw [not_and_or] at hguard
        simpa using hguard
  | running c =>
      simp only [executorStep] at h
      split at h
      · rename_i hmany
        cases h
        exact .manyThreads c hmany
      · rename_i hone
        cases h
        exact .oneThread c (by omega)
  | validating c =>
      simp only [executorStep] at h
      split at h
      · rename_i hvalid
        cases h
        exact .validate c hvalid
      · rename_i hvalid
        cases h
        exact .reject c (by simpa using hvalid)
  | popped c => cases h; exact .countPop c
  | guarded c => cases h; exact .register c
  | rejected c => cases h; exact .park c
  | parked c => cases h; exact .repush c
  | repushed c => cases h; exact .countRepush c
  | admitted c => cases h; exact .execute c
  | executed c => cases h; exact .readLast c
  | storing lastId => cases h; exact .storeLast lastId
  | leaving => cases h; exact .unregister
  | exited => cases h

def spawned (r : Record) : List Executor :=
  match r.child with
  | none => []
  | some pid => [⟨pid, .top⟩]

theorem execute_executors (s : State) (c : Copy) :
    (s.execute c).executors = s.executors ++ spawned c.record := by
  unfold State.execute spawned
  cases c.record.child with
  | none => simp
  | some pid => simp

theorem execute_log (s : State) (c : Copy) :
    (s.execute c).executedLog = s.executedLog ++ [c.record] := by
  unfold State.execute
  cases c.record.child <;> rfl

theorem execute_queued (s : State) (c : Copy) :
    (s.execute c).queued = s.queued := by
  unfold State.execute
  cases c.record.child <;> rfl

theorem execute_numberOfSyscalls (s : State) (c : Copy) :
    (s.execute c).numberOfSyscalls = s.numberOfSyscalls := by
  unfold State.execute
  cases c.record.child <;> rfl

theorem execute_touched (s : State) (c : Copy) :
    (s.execute c).touched = s.touched := by
  unfold State.execute
  cases c.record.child <;> rfl

theorem execute_nThreads (s : State) (c : Copy) :
    (s.execute c).nThreads = s.nThreads + (spawned c.record).length := by
  unfold State.execute spawned
  cases c.record.child <;> rfl

def newExecutors : ExecutorPc → List Executor
  | .admitted c => spawned c.record
  | _ => []

theorem ExecutorTransition.executors {cfg : Config} {s s' : State} {tid : Int}
    {pc pc' : ExecutorPc} (h : ExecutorTransition cfg s tid pc s' pc') :
    s'.executors = s.executors ++ newExecutors pc := by
  cases h <;>
    simp [newExecutors, execute_executors, State.setRunning, State.decrement,
      State.increment, State.touch]

theorem ExecutorTransition.frame {cfg : Config} {s s' : State} {tid : Int}
    {pc pc' : ExecutorPc} (h : ExecutorTransition cfg s tid pc s' pc') :
    s'.series = s.series ∧ s'.finishedModules = s.finishedModules ∧
      s'.reader = s.reader ∧ s.nThreads ≤ s'.nThreads := by
  cases h with
  | execute c =>
      unfold State.execute
      cases c.record.child <;> simp [State.setRunning]
  | _ => exact ⟨rfl, rfl, rfl, le_refl _⟩

def actor (s : State) : Action → Option Executor
  | .reader _ => none
  | .executor index _ => s.executors[index]?

/-- The operations of the system. An executor is found in the list of all
instances, its counter moves and the instances it starts go to the end. -/
inductive Transition (cfg : Config) (s : State) : Action → State → Prop
  | reader {s' : State} (pick : Nat) (h : ReaderTransition cfg s s') :
      Transition cfg s (.reader pick) s'
  | executor {s' : State} {pc' : ExecutorPc} (index pick : Nat) (e : Executor)
      (before after : List Executor)
      (he : actor s (.executor index pick) = some e)
      (hsplit : s.executors = before ++ e :: after)
      (h : ExecutorTransition cfg s e.threadID e.pc s' pc') :
      Transition cfg s (.executor index pick) { s' with
        executors := before ++ ⟨e.threadID, pc'⟩ :: (after ++ newExecutors e.pc) }

theorem setPc_append (before after : List Executor) (e : Executor) (pc : ExecutorPc) :
    setPc (before ++ e :: after) before.length pc =
      before ++ ⟨e.threadID, pc⟩ :: after := by
  unfold setPc
  induction before with
  | nil => rfl
  | cons b before ih => simpa using ih

theorem transition_of_step {cfg : Config} {s s' : State} {a : Action}
    (h : step cfg s a = some s') : Transition cfg s a s' := by
  cases a with
  | reader pick => exact .reader pick (readerTransition_of_readerStep h)
  | executor index pick =>
      simp only [step] at h
      split at h
      · cases h
      · rename_i e hget
        obtain ⟨⟨t, pc⟩, hstep, heq⟩ := Option.map_eq_some_iff.mp h
        have htrans := executorTransition_of_executorStep hstep
        obtain ⟨before, after, hsplit, hlen⟩ : ∃ before after : List Executor,
            s.executors = before ++ e :: after ∧ before.length = index := by
          obtain ⟨hlt, hval⟩ := List.getElem?_eq_some_iff.mp hget
          refine ⟨s.executors.take index, s.executors.drop (index + 1), ?_, ?_⟩
          · rw [← hval, List.getElem_cons_drop, List.take_append_drop]
          · simp only [List.length_take]
            omega
        have hpcs : setPc t.executors index pc =
            before ++ ⟨e.threadID, pc⟩ :: (after ++ newExecutors e.pc) := by
          rw [htrans.executors, hsplit, List.append_assoc, List.cons_append, ← hlen,
            setPc_append]
        subst heq
        rw [hpcs]
        exact .executor index pick e before after hget hsplit htrans

end SyscallReplayer.SchedulerSteps
