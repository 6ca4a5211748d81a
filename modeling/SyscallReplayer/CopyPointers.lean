import SyscallReplayer.ObjectHeap
import SyscallReplayer.Scheduler

/-!
# The copies behind their pointers

The heaps, `currentExecutions`, `allocationQueue` and the threads hold pointers to the
copies that `move()` has allocated, and the reader deletes copies while other threads
run. The loop of `checkExecutionValidation` takes one pointer after the other out of the
table, and follows it in a step of its own.
-/

namespace SyscallReplayer.CopyPointers

open CInt TransitionSystem Scheduler ObjectHeap

/-- Where an executor stands. In `registered` it has not pushed `prev_replayer` yet. The
loop over the table has the entries of the threads `todo` before it in `comparing`, and
in `following` the pointer `q` in `compare`. -/
inductive Place
  | top
  | popped
  | guard
  | guarded
  | registered
  | running
  | validating
  | comparing (todo : List Int)
  | following (q : Nat) (todo : List Int)
  | admitted
  | rejected
  | parked
  | repushed
  | executed
  | storing (lastId : Nat)
  | leaving
  | exited
deriving DecidableEq

structure Executor where
  threadID : Int
  place : Place
  executeReplayer : Option Nat
  prevReplayer : Option Nat
deriving DecidableEq

def startExecutor (tid : Int) : Executor :=
  ⟨tid, .top, none, none⟩

/-- Where the reader stands. In `draining` it is in its inner loop. -/
inductive ReaderPlace
  | prepare
  | modules (b : Batch)
  | carry (i : Nat) (b : Batch)
  | rows (i : Nat) (b : Batch) (count : Nat)
  | counting (p : Nat) (i : Nat) (b : Batch) (count : Nat)
  | finishing (i : Nat) (b : Batch)
  | check
  | spin
  | draining
  | done
deriving DecidableEq

/-- What holds pointers to copies. `queued` has the entries of all heaps with the thread
whose heap it is. -/
structure Pointers where
  heap : Heap Copy
  queued : List (Int × Nat)
  currentExecutions : List (Int × Option Nat)
  allocationQueue : List (Option Nat)
  executors : List Executor

structure State extends Pointers where
  series : Nat → Series
  numberOfSyscalls : Int → Int
  finishedModules : Int → Bool
  nThreads : Nat
  lastExecutedSyscallID : Nat
  reader : ReaderPlace
  executedLog : List Record
  touched : List (Nat × Int)

def firstCopies (cfg : Config) : List Copy :=
  (List.range cfg.replayerIdx).filterMap cfg.firstCopy

def loadSyscallModules (cfg : Config) : State where
  heap := ⟨firstCopies cfg, []⟩
  series := (Scheduler.loadSyscallModules cfg).series
  queued := (firstCopies cfg).zipIdx.map fun (c, p) => (c.record.executingPid, p)
  numberOfSyscalls _ := 1
  finishedModules _ := false
  nThreads := 1
  lastExecutedSyscallID := 1
  currentExecutions := []
  allocationQueue := []
  executors := []
  reader := .prepare
  executedLog := []
  touched := []

namespace Pointers

variable (ps : Pointers)

/-- The copy behind a pointer that can be followed. -/
def deref (p : Option Nat) : Option Copy :=
  p.bind ps.heap.deref

def executionHeap (threadID : Int) : List Nat :=
  (ps.queued.filter fun entry => entry.1 = threadID).map Prod.snd

/-- The pointer comes before the other one in the order of a heap, or they tie. -/
def before (p q : Nat) : Bool :=
  (ps.heap.deref p).any fun c =>
    (ps.heap.deref q).all fun c' => c.record.uniqueId ≤ c'.record.uniqueId

def minima (threadID : Int) : List Nat :=
  (ps.executionHeap threadID).filter fun p => (ps.executionHeap threadID).all (ps.before p)

end Pointers

namespace State

variable (s : State)

def increment (i : Int) : State :=
  { s with
    numberOfSyscalls :=
      Function.update s.numberOfSyscalls i (s.numberOfSyscalls i + 1) }

def decrement (i : Int) : State :=
  { s with
    numberOfSyscalls :=
      Function.update s.numberOfSyscalls i (s.numberOfSyscalls i - 1) }

def touch (c : Copy) : State :=
  { s with touched := s.touched ++ [(c.producer, c.replayerIndex)] }

def setRunning (tid : Int) (syscall : Option Nat) : State :=
  { s with currentExecutions :=
      (tid, syscall) :: s.currentExecutions.filter fun e => e.1 ≠ tid }

def checkModulesFinished (cfg : Config) : Bool :=
  (List.range cfg.replayerIdx).all fun (i : Nat) => s.finishedModules i

def getMinSyscall (cfg : Config) : Int :=
  (List.range cfg.replayerIdx).foldl
    (fun least (i : Nat) => min least (uint64 (s.numberOfSyscalls i))) ulongMax

def checkSequential (check : Copy) : Bool :=
  check.record.uniqueId ≤ s.lastExecutedSyscallID + 150

def execute (c : Copy) : State :=
  let logged := { s with executedLog := s.executedLog ++ [c.record] }
  match c.record.child with
  | none => logged
  | some pid =>
      { logged.setRunning pid none with
        nThreads := s.nThreads + 1
        executors := s.executors ++ [startExecutor pid] }

def pushCopy (c : Copy) (next : Nat → ReaderPlace) : State :=
  { s with
    heap := s.heap.allocate c
    queued := s.queued ++ [(c.record.executingPid, s.heap.next)]
    reader := next s.heap.next }

end State

/-- The times of a record against those of a running one. -/
def compatibleTimes (check compare : Copy) : Bool :=
  if (check.record.timeCalled ≥ compare.record.timeCalled ∧
      check.record.timeCalled ≤ compare.record.timeReturned) ∨
      (check.record.timeReturned ≥ compare.record.timeCalled ∧
      check.record.timeReturned ≤ compare.record.timeReturned) then true
  else !decide (check.record.timeCalled > compare.record.timeReturned)

def prepareReplay (cfg : Config) (s : State) (pick : Nat) : Option State :=
  let ready := { s with reader := .modules (firstBatch cfg) }
  if s.executionHeap cfg.mainThreadID = [] then some ready
  else
    match (s.minima cfg.mainThreadID)[pick]? with
    | none => none
    | some p =>
        (s.heap.deref p).bind fun c =>
          if c.record.sysCallName = .umask ∧ c.record.uniqueId = 0 then
            let counted := (({ ready with queued := s.queued.erase (cfg.mainThreadID, p) }).decrement
              c.replayerIndex).touch c
            some { counted.setRunning c.record.executingPid (some p) with
              executedLog := s.executedLog ++ [c.record]
              lastExecutedSyscallID := c.record.uniqueId }
          else none

def readerStep (cfg : Config) (s : State) (pick : Nat) : Option State :=
  match s.reader with
  | .prepare => prepareReplay cfg s pick
  | .modules b =>
      match b.todo with
      | [] =>
          if b.isFirstTime then
            some { s with
              reader := .check
              executors := s.executors ++ [startExecutor cfg.mainThreadID] }
          else some { s with reader := .check }
      | i :: rest =>
          let idx := (s.series i).replayerIndex
          let b' : Batch := { b with todo := rest }
          let seen := s.touch ((s.series i).move i)
          if s.finishedModules idx ∨
              uint64 (s.numberOfSyscalls idx) > b.batchSize * 2 then
            some { seen with reader := .modules b' }
          else if b.isFirstTime then
            -- this copy is not used
            some { seen with
              heap := s.heap.allocate ((s.series i).move i)
              reader := .rows i b' b.batchSize }
          else some { seen with reader := .carry i b' }
  | .carry i b =>
      some (s.pushCopy ((s.series i).move i) fun p => .counting p i b b.batchSize)
  | .counting p i b count =>
      (s.heap.deref p).map fun c =>
        { (s.increment c.replayerIndex).touch c with reader := .rows i b count }
  | .rows i b count =>
      match count with
      | 0 => none
      | 1 => some { s with reader := .modules b }
      | count + 2 =>
          match (s.series i).unread with
          | [] =>
              some { s.touch ((s.series i).move i) with
                finishedModules :=
                  Function.update s.finishedModules (s.series i).replayerIndex true
                reader := .finishing i b }
          | r :: rest =>
              let m : Series := { s.series i with current := r, unread := rest }
              let prepared := { s with series := Function.update s.series i m }
              if count + 1 = 1 then
                some { prepared with reader := .rows i b (count + 1) }
              else some (prepared.pushCopy (m.move i) fun p => .counting p i b (count + 1))
  | .finishing i b =>
      some { s.touch ((s.series i).move i) with
        numberOfSyscalls :=
          Function.update s.numberOfSyscalls (s.series i).replayerIndex longLongMax
        reader := .modules b }
  | .check =>
      if s.checkModulesFinished cfg then some { s with reader := .done }
      else some { s with reader := .spin }
  | .spin =>
      if s.getMinSyscall cfg > 100 * s.nThreads then some { s with reader := .draining }
      else some { s with reader := .modules ⟨cfg.order, false, 150 * s.nThreads⟩ }
  | .draining =>
      match s.allocationQueue with
      | [] => some { s with reader := .spin }
      | none :: rest => some { s with allocationQueue := rest }
      | some p :: rest => some { s with heap := s.heap.delete p, allocationQueue := rest }
  | .done => none

/-- The head of the loop over the table. An entry that is gone is passed over. -/
def compareStep (s : State) (e : Executor) (todo : List Int) : Place :=
  match todo with
  | [] => .admitted
  | tid :: rest =>
      match s.currentExecutions.lookup tid with
      | none => .comparing rest
      | some none => .rejected
      | some (some q) =>
          if e.executeReplayer = some q then .comparing rest else .following q rest

/-- The body of the loop. -/
def followStep (s : State) (e : Executor) (q : Nat) (todo : List Int) : Option Place := do
  let check ← s.deref e.executeReplayer
  let compare ← s.heap.deref q
  return if compatibleTimes check compare then .comparing todo else .rejected

/-- One step of `executionThread`. It is stuck where it follows a pointer to a deleted
copy. -/
def executorStep (cfg : Config) (s : State) (e : Executor) (pick : Nat) :
    Option (State × Executor) :=
  match e.place with
  | .top =>
      if s.executionHeap e.threadID = [] then some (s, { e with place := .leaving })
      else (s.minima e.threadID)[pick]?.map fun p =>
        ({ s with queued := s.queued.erase (e.threadID, p) },
          { e with place := .popped, executeReplayer := some p })
  | .popped => (s.deref e.executeReplayer).map fun c =>
      ((s.decrement c.replayerIndex).touch c, { e with place := .guard })
  | .guard =>
      if s.getMinSyscall cfg < 10 * s.nThreads ∧ !s.checkModulesFinished cfg then some (s, e)
      else some (s, { e with place := .guarded })
  | .guarded => some (s.setRunning e.threadID e.executeReplayer, { e with place := .registered })
  | .registered =>
      some ({ s with allocationQueue := s.allocationQueue ++ [e.prevReplayer] },
        { e with place := .running })
  | .running =>
      if s.nThreads > 1 then some (s, { e with place := .validating })
      else some (s, { e with place := .admitted })
  | .validating => (s.deref e.executeReplayer).map fun c =>
      if s.checkSequential c then
        (s, { e with place := .comparing (s.currentExecutions.map Prod.fst) })
      else (s, { e with place := .rejected })
  | .comparing todo => some (s, { e with place := compareStep s e todo })
  | .following q todo => (followStep s e q todo).map fun place => (s, { e with place := place })
  | .rejected => some (s.setRunning e.threadID none, { e with place := .parked })
  | .parked => e.executeReplayer.map fun p =>
      ({ s with queued := s.queued ++ [(e.threadID, p)] }, { e with place := .repushed })
  | .repushed => (s.deref e.executeReplayer).map fun c =>
      ((s.increment c.replayerIndex).touch c, { e with place := .top, prevReplayer := none })
  | .admitted => (s.deref e.executeReplayer).map fun c =>
      (s.execute c, { e with place := .executed })
  | .executed => (s.deref e.executeReplayer).map fun c =>
      (s, { e with place := .storing (max s.lastExecutedSyscallID c.record.uniqueId) })
  | .storing lastId =>
      some ({ s with lastExecutedSyscallID := lastId },
        { e with place := .top, prevReplayer := e.executeReplayer })
  | .leaving =>
      some ({ s with currentExecutions := s.currentExecutions.filter fun x => x.1 ≠ e.threadID },
        { e with place := .exited })
  | .exited => none

def step (cfg : Config) (s : State) : Action → Option State
  | .reader pick => readerStep cfg s pick
  | .executor index pick =>
      s.executors[index]?.bind fun e => (executorStep cfg s e pick).map fun (s', e') =>
        { s' with executors := s'.executors.set index e' }

def pointing (cfg : Config) : System State Action where
  init := loadSyscallModules cfg
  step := step cfg

end SyscallReplayer.CopyPointers
