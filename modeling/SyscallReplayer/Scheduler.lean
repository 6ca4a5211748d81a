import Mathlib.Logic.Function.Basic
import Mathlib.Data.List.Basic
import Mathlib.Data.List.Perm.Basic
import SyscallReplayer.CInt
import SyscallReplayer.SysCallKind
import SyscallReplayer.TransitionSystem

/-!
# The reader and the executors

One step of the system is one atomic operation of `readerThread` or of an
instance of `executionThread`: a heap push or pop, a counter update, the
evaluation of a guard, a write to `currentExecutions`, the execution of a
record. The set-up of `main` (`prepare_replay` and the first batch) is run by
the reader before any executor exists.
-/

namespace SyscallReplayer.Scheduler

open SyscallReplayer.CInt
open SyscallReplayer.TransitionSystem

/-- The fields of a trace row that the scheduling reads. -/
structure Record where
  sysCallName : SysCallKind
  uniqueId : Nat
  executingPid : Int
  timeCalled : Nat
  timeReturned : Nat
  returnValue : Int
deriving DecidableEq, Repr

/-- The thread that `processRow` of a `clone` or `vfork` record starts. Its id
is the traced return value, kept as a `pid_t`. -/
def Record.child (r : Record) : Option Int :=
  match r.sysCallName with
  | .clone | .vfork => some (int32 r.returnValue)
  | _ => none

/-- A module object that `move()` made for one row. `producer` is the module
the row was read by, which the code does not keep. -/
structure Copy where
  record : Record
  replayerIndex : Int
  producer : Nat
deriving DecidableEq, Repr

/-- The input of a replay: the rows of every module that has an extent, in
the order in which the modules are loaded. `order` is the order in which
`syscallMapLast` is visited, and `uninitialised i` is what the constructor of
module `i` left in `replayerIndex`. -/
structure Config where
  modules : List (List Record)
  order : List Nat
  uninitialised : Nat → Int
  modules_nonempty : ∀ rows ∈ modules, rows ≠ []
  order_perm : order.Perm (List.range modules.length)

namespace Config

variable (cfg : Config)

/-- The number of loaded modules, `replayerIdx` after loading. -/
def replayerIdx : Nat :=
  cfg.modules.length

def rows (i : Nat) : List Record :=
  cfg.modules.getD i []

def records : List Record :=
  cfg.modules.flatten

/-- The copy of the first row of module `i`, which is moved out before
`setReplayerIndex` is called on the module. -/
def firstCopy (i : Nat) : Option Copy :=
  (cfg.rows i).head?.map fun r => ⟨r, cfg.uninitialised i, i⟩

/-- The pid of the first `umask` record, or the initial value of the global. -/
def mainThreadID : Int :=
  (cfg.modules.filterMap List.head?).foldl
    (fun tid r => if r.sysCallName = .umask then r.executingPid else tid) 0

/-- The first copies happen to carry the index of their module. -/
def IndexedCopies : Prop :=
  ∀ i, i < cfg.replayerIdx → cfg.uninitialised i = i

/-- The rows of every kind arrive in increasing order of their ids. -/
def RowsIncreasing : Prop :=
  ∀ rows ∈ cfg.modules, rows.Pairwise fun r r' => r.uniqueId < r'.uniqueId

end Config

/-- A module: the row in its members, the rows still in its series, and the
index given by `setReplayerIndex`. -/
structure Series where
  current : Record
  unread : List Record
  replayerIndex : Int
deriving Repr

def Series.move (m : Series) (producer : Nat) : Copy :=
  ⟨m.current, m.replayerIndex, producer⟩

/-- The arguments of a running `batch_for_all_syscalls`, with the modules it
has not visited yet. -/
structure Batch where
  todo : List Nat
  isFirstTime : Bool
  batchSize : Nat
deriving DecidableEq, Repr

/-- Where the reader stands. In `rows` and `counting` the last argument is
`count`, before the `--count` of the loop head. -/
inductive ReaderPc
  | prepare
  | modules (b : Batch)
  | carry (i : Nat) (b : Batch)
  | rows (i : Nat) (b : Batch) (count : Nat)
  | counting (c : Copy) (i : Nat) (b : Batch) (count : Nat)
  | finishing (i : Nat) (b : Batch)
  | check
  | spin
  | done
deriving DecidableEq, Repr

/-- Where an executor stands, with the copy in `execute_replayer` while it
matters. `repushed` has pushed the copy back and not counted it yet, `storing`
has read `lastExecutedSyscallID` and not written it yet. -/
inductive ExecutorPc
  | top
  | popped (c : Copy)
  | guard (c : Copy)
  | guarded (c : Copy)
  | running (c : Copy)
  | validating (c : Copy)
  | admitted (c : Copy)
  | rejected (c : Copy)
  | parked (c : Copy)
  | repushed (c : Copy)
  | executed (c : Copy)
  | storing (lastId : Nat)
  | leaving
  | exited
deriving DecidableEq, Repr

structure Executor where
  threadID : Int
  pc : ExecutorPc
deriving DecidableEq, Repr

/-- The globals of the replayer. `queued` holds the copies of all heaps: the
heap of a thread is made of the copies with its pid. Counters are kept as
integers and read modulo `2 ^ 64`. `executedLog` and `touched` record the
executed records and the indices used on the two counter arrays, with the
module that produced the record. -/
structure State where
  series : Nat → Series
  queued : List Copy
  numberOfSyscalls : Int → Int
  finishedModules : Int → Bool
  nThreads : Nat
  lastExecutedSyscallID : Nat
  currentExecutions : List (Int × Option Copy)
  executors : List Executor
  reader : ReaderPc
  executedLog : List Record
  touched : List (Nat × Int)

/-- Every module prepares its first row, pushes a copy of it, and only then
gets its index. The counters are filled with `1`. -/
def loadSyscallModules (cfg : Config) : State where
  series i :=
    match cfg.rows i with
    | [] => ⟨⟨.umask, 0, 0, 0, 0, 0⟩, [], i⟩
    | r :: rest => ⟨r, rest, i⟩
  queued := (List.range cfg.replayerIdx).filterMap cfg.firstCopy
  numberOfSyscalls _ := 1
  finishedModules _ := false
  nThreads := 1
  lastExecutedSyscallID := 1
  currentExecutions := []
  executors := []
  reader := .prepare
  executedLog := []
  touched := []

namespace State

variable (s : State)

def executionHeap (threadID : Int) : List Copy :=
  s.queued.filter fun c => c.record.executingPid = threadID

/-- The copies `try_pop` may take: those of least `unique_id`. -/
def minima (threadID : Int) : List Copy :=
  (s.executionHeap threadID).filter fun c =>
    (s.executionHeap threadID).all fun c' => c.record.uniqueId ≤ c'.record.uniqueId

def increment (i : Int) : State :=
  { s with
    numberOfSyscalls :=
      Function.update s.numberOfSyscalls i (s.numberOfSyscalls i + 1) }

def decrement (i : Int) : State :=
  { s with
    numberOfSyscalls :=
      Function.update s.numberOfSyscalls i (s.numberOfSyscalls i - 1) }

def touch (c : Copy) : State :=
  { s with touched := s.touched ++ [(c.producer, c.replayerIndex)] }

def setRunning (tid : Int) (syscall : Option Copy) : State :=
  { s with currentExecutions :=
      (tid, syscall) :: s.currentExecutions.filter fun e => e.1 ≠ tid }

def checkModulesFinished (cfg : Config) : Bool :=
  (List.range cfg.replayerIdx).all fun (i : Nat) => s.finishedModules i

def getMinSyscall (cfg : Config) : Int :=
  (List.range cfg.replayerIdx).foldl
    (fun least (i : Nat) => min least (uint64 (s.numberOfSyscalls i))) ulongMax

def checkSequential (check : Copy) : Bool :=
  check.record.uniqueId ≤ s.lastExecutedSyscallID + 150

/-- The test of `check` against the entry of one registered thread. -/
def compatible (check : Copy) : Option Copy → Bool
  | none => false
  | some compare =>
      if check = compare then true
      else if (check.record.timeCalled ≥ compare.record.timeCalled ∧
          check.record.timeCalled ≤ compare.record.timeReturned) ∨
          (check.record.timeReturned ≥ compare.record.timeCalled ∧
          check.record.timeReturned ≤ compare.record.timeReturned) then true
      else !decide (check.record.timeCalled > compare.record.timeReturned)

def checkExecutionValidation (check : Copy) : Bool :=
  s.checkSequential check &&
    s.currentExecutions.all fun e => compatible check e.2

/-- `execute()`. A `clone` or `vfork` record counts and registers the child
and starts its executor. -/
def execute (c : Copy) : State :=
  let logged := { s with executedLog := s.executedLog ++ [c.record] }
  match c.record.child with
  | none => logged
  | some pid =>
      { logged.setRunning pid none with
        nThreads := s.nThreads + 1
        executors := s.executors ++ [⟨pid, .top⟩] }

end State

/-- The first batch reads up to 1000 rows of a module. -/
def firstBatch (cfg : Config) : Batch :=
  ⟨cfg.order, true, 1000⟩

def nextBatch (cfg : Config) (s : State) : Batch :=
  ⟨cfg.order, false, 150 * s.nThreads⟩

/-- `prepare_replay`. The run stops here when an assertion fails. -/
def prepareReplay (cfg : Config) (s : State) (pick : Nat) : Option State :=
  let ready := { s with reader := .modules (firstBatch cfg) }
  if s.executionHeap cfg.mainThreadID = [] then some ready
  else
    match (s.minima cfg.mainThreadID)[pick]? with
    | none => none
    | some c =>
        if c.record.sysCallName = .umask ∧ c.record.uniqueId = 0 then
          let counted := (({ ready with queued := s.queued.erase c }).decrement
            c.replayerIndex).touch c
          some { counted.setRunning c.record.executingPid (some c) with
            executedLog := s.executedLog ++ [c.record]
            lastExecutedSyscallID := c.record.uniqueId }
        else none

/-- One step of `main` and `readerThread`. After the first batch `main` starts
the executor of the main thread. -/
def readerStep (cfg : Config) (s : State) (pick : Nat) : Option State :=
  match s.reader with
  | .prepare => prepareReplay cfg s pick
  | .modules b =>
      match b.todo with
      | [] =>
          if b.isFirstTime then
            some { s with
              reader := .check
              executors := s.executors ++ [⟨cfg.mainThreadID, .top⟩] }
          else some { s with reader := .check }
      | i :: rest =>
          let idx := (s.series i).replayerIndex
          let b' : Batch := { b with todo := rest }
          let seen := s.touch ((s.series i).move i)
          if s.finishedModules idx ∨
              uint64 (s.numberOfSyscalls idx) > b.batchSize * 2 then
            some { seen with reader := .modules b' }
          else if b.isFirstTime then some { seen with reader := .rows i b' b.batchSize }
          else some { seen with reader := .carry i b' }
  | .carry i b =>
      let copy := (s.series i).move i
      some { s with
        queued := s.queued ++ [copy]
        reader := .counting copy i b b.batchSize }
  | .counting c i b count =>
      some { (s.increment c.replayerIndex).touch c with reader := .rows i b count }
  | .rows i b count =>
      match count with
      | 0 => none
      | 1 => some { s with reader := .modules b }
      | count + 2 =>
          match (s.series i).unread with
          | [] =>
              some { s.touch ((s.series i).move i) with
                finishedModules :=
                  Function.update s.finishedModules (s.series i).replayerIndex true
                reader := .finishing i b }
          | r :: rest =>
              let m : Series := { s.series i with current := r, unread := rest }
              let prepared := { s with series := Function.update s.series i m }
              if count + 1 = 1 then
                some { prepared with reader := .rows i b (count + 1) }
              else
                some { prepared with
                  queued := s.queued ++ [m.move i]
                  reader := .counting (m.move i) i b (count + 1) }
  | .finishing i b =>
      some { s.touch ((s.series i).move i) with
        numberOfSyscalls :=
          Function.update s.numberOfSyscalls (s.series i).replayerIndex longLongMax
        reader := .modules b }
  | .check =>
      if s.checkModulesFinished cfg then some { s with reader := .done }
      else some { s with reader := .spin }
  | .spin =>
      if s.getMinSyscall cfg > 100 * s.nThreads then some s
      else some { s with reader := .modules (nextBatch cfg s) }
  | .done => none

/-- One step of `executionThread(tid)` from `pc`. `pick` tells apart the copies
of least `unique_id` on a pop. -/
def executorStep (cfg : Config) (s : State) (tid : Int) (pc : ExecutorPc)
    (pick : Nat) : Option (State × ExecutorPc) :=
  match pc with
  | .top =>
      if s.executionHeap tid = [] then some (s, .leaving)
      else (s.minima tid)[pick]?.map fun c =>
        ({ s with queued := s.queued.erase c }, .popped c)
  | .popped c => some ((s.decrement c.replayerIndex).touch c, .guard c)
  | .guard c =>
      if s.getMinSyscall cfg < 10 * s.nThreads ∧ !s.checkModulesFinished cfg then
        some (s, .guard c)
      else some (s, .guarded c)
  | .guarded c => some (s.setRunning tid (some c), .running c)
  | .running c =>
      if s.nThreads > 1 then some (s, .validating c) else some (s, .admitted c)
  | .validating c =>
      if s.checkExecutionValidation c then some (s, .admitted c)
      else some (s, .rejected c)
  | .rejected c => some (s.setRunning tid none, .parked c)
  | .parked c => some ({ s with queued := s.queued ++ [c] }, .repushed c)
  | .repushed c => some ((s.increment c.replayerIndex).touch c, .top)
  | .admitted c => some (s.execute c, .executed c)
  | .executed c => some (s, .storing (max s.lastExecutedSyscallID c.record.uniqueId))
  | .storing lastId => some ({ s with lastExecutedSyscallID := lastId }, .top)
  | .leaving =>
      some ({ s with currentExecutions := s.currentExecutions.filter fun e => e.1 ≠ tid },
        .exited)
  | .exited => none

inductive Action
  | reader (pick : Nat)
  | executor (index pick : Nat)
deriving DecidableEq, Repr

def setPc (executors : List Executor) (index : Nat) (pc : ExecutorPc) : List Executor :=
  executors.modify index fun e => { e with pc := pc }

def step (cfg : Config) (s : State) : Action → Option State
  | .reader pick => readerStep cfg s pick
  | .executor index pick =>
      match s.executors[index]? with
      | none => none
      | some e =>
          (executorStep cfg s e.threadID e.pc pick).map fun (s', pc) =>
            { s' with executors := setPc s'.executors index pc }

def replay (cfg : Config) : System State Action where
  init := loadSyscallModules cfg
  step := step cfg

end SyscallReplayer.Scheduler
