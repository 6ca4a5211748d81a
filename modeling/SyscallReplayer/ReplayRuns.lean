import SyscallReplayer.MappedDescriptors
import SyscallReplayer.TransitionSystem

/-!
# Runs of the replay

A replay starts with the tables that `prepare_replay` builds and executes one
module after another, each a queued copy or the module itself on its row.
-/

namespace SyscallReplayer.ReplayRuns

open Std (ExtTreeMap)
open CInt SharedEntries ReplayKernel ResourcesManager ReplayWorld ReplayModules
open StatePrograms TransitionSystem SnapshotFidelity World

structure Execution where
  kind : SysCallKind
  /-- The return value that the module still holds from the row before. -/
  held : Int
  row : Row
  rest : List Row
  /-- The copy of a queue is executed where the series has advanced. -/
  queued : Bool
  later : Row
  laterRest : List Row

namespace Execution

def pid (a : Execution) : Int :=
  a.row.int .executing_pid

def returnValue (a : Execution) : Int :=
  a.row.int .return_value

def module (a : Execution) : Option ReplayModule :=
  (prepareRow a.kind a.held a.row a.rest).bind fun m => if a.queued then move m else some m

/-- Where the series stands when the module is executed. -/
def position (a : Execution) : Row × List Row :=
  if a.queued then (a.later, a.laterRest) else (a.row, a.rest)

def run (opts : Options) (a : Execution) : Replay (Int × Option Mismatch) := do
  let m ← (a.module : Option ReplayModule)
  execute opts m a.position.1 a.position.2

end Execution

def executeStep (opts : Options) (w : World) (a : Execution) : Option World :=
  (a.run opts w).map Prod.snd

def replaySystem (opts : Options) (start : World) : System World Execution where
  init := start
  step := executeStep opts

theorem afterSysCall_world {opts : Options} {m : ReplayModule} {replayed : Int} {w w' : World}
    {verdict : Option Mismatch} (h : afterSysCall opts m replayed w = some (verdict, w')) :
    w' = w := by
  unfold afterSysCall at h
  split at h
  · dsimp only at h
    split at h
    · cases h
    · exact (Prod.mk.inj (Option.some.inj h)).2.symm
  · exact (Prod.mk.inj (Option.some.inj h)).2.symm

theorem execute_world {opts : Options} {m : ReplayModule} {row : Row} {rest : List Row}
    {w w' : World} {result : Int × Option Mismatch}
    (h : execute opts m row rest w = some (result, w')) :
    processRow opts m row rest w = some (result.1, w') := by
  obtain ⟨replayed, w₁, hrun, hrest⟩ := bind_eq_some.mp h
  obtain ⟨u, w₂, hdelete, hcompare⟩ := bind_eq_some.mp hrest
  obtain ⟨-, rfl⟩ := deleteBuffers_eq_some.mp hdelete
  obtain ⟨verdict, w₃, hafter, hpure⟩ := bind_eq_some.mp hcompare
  obtain rfl := afterSysCall_world hafter
  rw [pure_apply, Option.some.injEq, Prod.mk.injEq] at hpure
  obtain ⟨rfl, rfl⟩ := hpure
  exact hrun

theorem executeStep_eq_some {opts : Options} {w w' : World} {a : Execution}
    (h : executeStep opts w a = some w') :
    ∃ m replayed, a.module = some m ∧
      processRow opts m a.position.1 a.position.2 w = some (replayed, w') := by
  obtain ⟨⟨result, w₁⟩, hrun, rfl⟩ := Option.map_eq_some_iff.mp h
  obtain ⟨m, w₂, hm, hexecute⟩ := bind_eq_some.mp hrun
  obtain ⟨hmodule, rfl⟩ := lift_eq_some.mp hm
  exact ⟨m, result.1, hmodule, execute_world hexecute⟩

/-- The calls that make, remove or share descriptors. -/
def changesTables : SysCallKind → Bool
  | .open_ | .openat | .creat | .close | .dup | .dup2 | .dup3 | .fcntl | .pipe | .exit | .execve
  | .clone | .vfork | .socket | .socketpair | .accept | .accept4 => true
  | _ => false

/-- What an execution of such a call runs. The queued copy of an `openat` is an
`open`, and `creat` has no copy. -/
inductive TableProgram (a : Execution) : Replay Int → Prop
  | open_ (tracedFd : Int) (hkind : a.kind = .open_ ∨ a.kind = .openat ∧ a.queued = true)
      (htraced : tracedFd = if a.queued then int32 a.returnValue else a.returnValue) :
      TableProgram a (openProcessRow a.pid (a.row.text .given_pathname) (mode a.row)
        (a.row.int .open_value) tracedFd)
  | openat (hkind : a.kind = .openat) (hqueued : a.queued = false) :
      TableProgram a (openatProcessRow a.pid a.row)
  | creat (hkind : a.kind = .creat) (hqueued : a.queued = false) :
      TableProgram a (creatProcessRow a.pid a.row)
  | close (replayed : Int) (hkind : a.kind = .close) :
      TableProgram a (closeProcessRow a.pid replayed (a.row.int .descriptor))
  | dup (hkind : a.kind = .dup) :
      TableProgram a (dupProcessRow a.pid a.returnValue (a.row.int .descriptor))
  | dup2 (hkind : a.kind = .dup2) :
      TableProgram a (dup2ProcessRow a.pid a.returnValue (a.row.int .old_descriptor)
        (a.row.int .new_descriptor))
  | dup3 (hkind : a.kind = .dup3) :
      TableProgram a (dup3ProcessRow a.pid a.returnValue (a.row.int .old_descriptor)
        (a.row.int .new_descriptor) (a.row.int .flags))
  | fcntl (hkind : a.kind = .fcntl) :
      TableProgram a (fcntlProcessRow a.pid a.returnValue (a.row.int .descriptor)
        (a.row.int .command_value) (a.row.int .argument_value) (a.row.int .lock_type)
        (a.row.int .lock_whence) (a.row.int .lock_start) (a.row.int .lock_length)
        (a.row.int .lock_pid))
  | pipe (hkind : a.kind = .pipe) :
      TableProgram a (pipeProcessRow a.pid (a.row.int .read_descriptor)
        (a.row.int .write_descriptor))
  | exit (hkind : a.kind = .exit) : TableProgram a (exitProcessRow a.pid 0)
  | execve (hkind : a.kind = .execve) : TableProgram a (execveProcessRow a.pid 0 a.held)
  | clone (hkind : a.kind = .clone) :
      TableProgram a (cloneProcessRow a.pid a.returnValue 0 (a.row.int .flag_value))
  | vfork (hkind : a.kind = .vfork) : TableProgram a (vforkProcessRow a.pid a.returnValue 0)
  | socket (hkind : a.kind = .socket) :
      TableProgram a (socketProcessRow a.pid a.returnValue (a.row.int .type))
  | socketpair (hkind : a.kind = .socketpair) :
      TableProgram a (socketpairProcessRow a.pid 0 (a.row.int .read_descriptor)
        (a.row.int .write_descriptor))
  | accept (hkind : a.kind = .accept) : TableProgram a (acceptProcessRow a.pid a.returnValue)
  | accept4 (hkind : a.kind = .accept4) : TableProgram a (accept4ProcessRow a.pid a.returnValue)

theorem module_eq_some {a : Execution} {m : ReplayModule} (h : a.module = some m) :
    ∃ members, prepareMembers a.kind a.held a.row a.rest = some members ∧
      (if a.queued then move (ownWith a.kind a.row members) else
        some (ownWith a.kind a.row members)) = some m := by
  obtain ⟨prepared, hprepared, hm⟩ := Option.bind_eq_some_iff.mp h
  obtain ⟨members, hmembers, heq⟩ := Option.bind_eq_some_iff.mp hprepared
  obtain rfl := Option.some.inj heq
  exact ⟨members, hmembers, hm⟩

theorem members_of_module {a : Execution} {m : ReplayModule} (h : a.module = some m) :
    ∃ members, prepareMembers a.kind a.held a.row a.rest = some members ∧
      (m.members = members ∨ m.members = setMove members) := by
  obtain ⟨members, hmembers, hmoved⟩ := module_eq_some h
  refine ⟨members, hmembers, ?_⟩
  split at hmoved
  · obtain ⟨kind, -, rfl⟩ := Option.map_eq_some_iff.mp hmoved
    exact .inr rfl
  · obtain rfl := Option.some.inj hmoved
    exact .inl rfl

/-- The class whose modules alone have members of this shape, for the members
that do more than one call on the state. -/
def ownKind : Members → Option SysCallKind
  | .umask _ => some .umask
  | .clone .. => some .clone
  | .vfork => some .vfork
  | .exit .. => some .exit
  | .mmap .. => some .mmap
  | _ => none

theorem kind_of_ownKind {kind own : SysCallKind} {held : Int} {row : Row} {rest : List Row}
    {members : Members} (h : prepareMembers kind held row rest = some members)
    (hown : ownKind members = some own) : kind = own := by
  cases kind
  case read | pread | mmappread | write | pwrite | mmappwrite | readlink | ioctl =>
    obtain ⟨_, -, heq⟩ := Option.bind_eq_some_iff.mp h
    obtain rfl := Option.some.inj heq
    exact nomatch hown
  case umask | clone | vfork | exit | mmap =>
    obtain rfl := Option.some.inj h
    exact Option.some.inj hown
  all_goals
    obtain rfl := Option.some.inj h
    exact nomatch hown

theorem processRow_cases {P : Replay Int → Prop} {opts : Options} {m : ReplayModule} {row : Row}
    {rest : List Row} (hmembers : P (processMembers opts m))
    (hcurrent : ∀ program, processCurrentRow opts m row rest = some program → P program) :
    P (processRow opts m row rest) := by
  unfold processRow
  cases h : processCurrentRow opts m row rest with
  | none => exact hmembers
  | some program => exact hcurrent program h

/-- A class with a `move` of its own runs on its members, which `setCommon` and
`setMove` may have cut down. -/
theorem processRow_of_ownMove {opts : Options} {a : Execution} {m : ReplayModule}
    {members : Members} (h : movesTo a.kind = some a.kind) (hm : a.module = some m)
    (hmembers : prepareMembers a.kind a.held a.row a.rest = some members) :
    processRow opts m a.position.1 a.position.2 =
      processMembers opts ⟨a.kind, rowCommon a.kind a.row,
        if a.queued then 0 else (ownWith a.kind a.row members).replayedRetVal,
        if a.queued then setMove members else members⟩ := by
  obtain ⟨members', hmembers', hmoved⟩ := module_eq_some hm
  obtain rfl := Option.some.inj (hmembers.symm.trans hmembers')
  cases hqueued : a.queued with
  | false =>
      rw [hqueued] at hmoved
      obtain rfl := Option.some.inj hmoved
      rw [processRow, processCurrentRow_eq_none (by exact h), Option.getD_none]
      rfl
  | true =>
      rw [hqueued, if_pos rfl, move, Option.map_eq_some_iff] at hmoved
      obtain ⟨kind, hkind, rfl⟩ := hmoved
      obtain rfl := Option.some.inj (h.symm.trans hkind)
      rw [processRow, processCurrentRow_eq_none (by exact h), Option.getD_none]
      exact processMembers_setCommon _ _ _ _ _

section

variable {opts : Options} {a : Execution} {m : ReplayModule}

theorem processRow_exit (hkind : a.kind = .exit) (hm : a.module = some m) :
    processRow opts m a.position.1 a.position.2 = exitProcessRow a.pid 0 := by
  obtain ⟨kind, held, row, rest, queued, later, laterRest⟩ := a
  obtain rfl : kind = .exit := hkind
  rw [processRow_of_ownMove rfl hm rfl]
  cases queued <;> rfl

theorem processRow_umask (hkind : a.kind = .umask) (hm : a.module = some m) :
    processRow opts m a.position.1 a.position.2 = do
      setUmask a.pid (mode a.row)
      return 0 := by
  obtain ⟨kind, held, row, rest, queued, later, laterRest⟩ := a
  obtain rfl : kind = .umask := hkind
  rw [processRow_of_ownMove rfl hm rfl]
  cases queued <;> rfl

theorem processRow_execve (hkind : a.kind = .execve) (hm : a.module = some m) :
    processRow opts m a.position.1 a.position.2 = execveProcessRow a.pid 0 a.held := by
  obtain ⟨kind, held, row, rest, queued, later, laterRest⟩ := a
  obtain rfl : kind = .execve := hkind
  rw [processRow_of_ownMove rfl hm rfl]
  cases queued <;> rfl

theorem processRow_clone (hkind : a.kind = .clone) (hm : a.module = some m) :
    processRow opts m a.position.1 a.position.2 =
      cloneProcessRow a.pid a.returnValue 0 (a.row.int .flag_value) := by
  obtain ⟨kind, held, row, rest, queued, later, laterRest⟩ := a
  obtain rfl : kind = .clone := hkind
  rw [processRow_of_ownMove rfl hm rfl]
  cases queued <;> rfl

theorem processRow_vfork (hkind : a.kind = .vfork) (hm : a.module = some m) :
    processRow opts m a.position.1 a.position.2 = vforkProcessRow a.pid a.returnValue 0 := by
  obtain ⟨kind, held, row, rest, queued, later, laterRest⟩ := a
  obtain rfl : kind = .vfork := hkind
  rw [processRow_of_ownMove rfl hm rfl]
  cases queued <;> rfl

end

theorem tableProgram_of_module {opts : Options} {a : Execution} {m : ReplayModule}
    (hkind : changesTables a.kind = true) (hm : a.module = some m) :
    TableProgram a (processRow opts m a.position.1 a.position.2) := by
  obtain ⟨kind, held, row, rest, queued, later, laterRest⟩ := a
  cases kind
  case openat =>
    obtain ⟨members, hmembers, hmoved⟩ := module_eq_some hm
    obtain rfl := Option.some.inj hmembers
    cases queued
    · obtain rfl := Option.some.inj hmoved
      exact .openat rfl rfl
    · obtain rfl := Option.some.inj hmoved
      exact .open_ _ (.inr ⟨rfl, rfl⟩) rfl
  case creat =>
    obtain ⟨members, hmembers, hmoved⟩ := module_eq_some hm
    cases queued
    · obtain rfl := Option.some.inj hmoved
      exact .creat rfl rfl
    · exact nomatch hmoved
  case open_ =>
    rw [processRow_of_ownMove rfl hm rfl]
    cases queued <;> exact .open_ _ (.inl rfl) rfl
  case close =>
    rw [processRow_of_ownMove rfl hm rfl]
    cases queued <;> exact .close _ rfl
  case dup =>
    rw [processRow_of_ownMove rfl hm rfl]
    cases queued <;> exact .dup rfl
  case dup2 =>
    rw [processRow_of_ownMove rfl hm rfl]
    cases queued <;> exact .dup2 rfl
  case dup3 =>
    rw [processRow_of_ownMove rfl hm rfl]
    cases queued <;> exact .dup3 rfl
  case fcntl =>
    rw [processRow_of_ownMove rfl hm rfl]
    cases queued <;> exact .fcntl rfl
  case pipe =>
    rw [processRow_of_ownMove rfl hm rfl]
    cases queued <;> exact .pipe rfl
  case exit =>
    rw [processRow_exit rfl hm]
    exact .exit rfl
  case execve =>
    rw [processRow_execve rfl hm]
    exact .execve rfl
  case clone =>
    rw [processRow_clone rfl hm]
    exact .clone rfl
  case vfork =>
    rw [processRow_vfork rfl hm]
    exact .vfork rfl
  case socket =>
    rw [processRow_of_ownMove rfl hm rfl]
    cases queued <;> exact .socket rfl
  case socketpair =>
    rw [processRow_of_ownMove rfl hm rfl]
    cases queued <;> exact .socketpair rfl
  case accept =>
    rw [processRow_of_ownMove rfl hm rfl]
    cases queued <;> exact .accept rfl
  case accept4 =>
    rw [processRow_of_ownMove rfl hm rfl]
    cases queued <;> exact .accept4 rfl
  all_goals exact absurd hkind Bool.false_ne_true

/-- `STDIN_FILENO`, `STDOUT_FILENO`, `STDERR_FILENO` and `AT_FDCWD`. -/
def stdFdMap : List (Int × Int) :=
  [(atFdcwd, atFdcwd), (0, 0), (1, 1), (2, 2)]

/-- The tables are those that `prepare_replay` builds for the traced program. -/
structure Prepared (w : World) (pid : Int) (maxFds : Nat) : Prop where
  manager : Manager.initializeTables (· ∈ w.openFds) maxFds pid stdFdMap = some w.manager
  standard : ({0, 1, 2} : Finset Int) ⊆ w.openFds
  scanned : ∀ fd ∈ w.openFds, 0 ≤ fd ∧ fd ≤ maxFds
  bound : maxFds < 2 ^ 31

theorem manager_addFd_eq_some {m m' : Manager} {pid k fd : Int} {flags : BitVec 32}
    (h : m.addFd pid k fd flags = some m') :
    ∃ t t' map, m.fdTableMap.get pid = some t ∧ t.addFdEntry k fd flags = some t' ∧
      m.fdTableMap.modify pid t' = some map ∧ m' = { m with fdTableMap := map } := by
  obtain ⟨t, ht, hrest⟩ := Option.bind_eq_some_iff.mp h
  obtain ⟨t', ht', hmap⟩ := Option.bind_eq_some_iff.mp hrest
  obtain ⟨map, hmodify, heq⟩ := Option.bind_eq_some_iff.mp hmap
  exact ⟨t, t', map, ht, ht', hmodify, (Option.some.inj heq).symm⟩

theorem addFds_eq_some {m m' : Manager} {pid : Int} {l : List (Int × Int)} {t : FdTable}
    (ht : m.fdTableMap.get pid = some t) (hexact : m.fdTableMap.Exact)
    (h : l.foldlM (fun m pair => m.addFd pid pair.1 pair.2 0) m = some m') :
    ∃ t', l.foldlM (fun t pair => t.addFdEntry pair.1 pair.2 0) t = some t' ∧
      m'.fdTableMap.get pid = some t' ∧ m'.fdTableMap.Exact ∧
      m'.fdTableMap.map = m.fdTableMap.map ∧ m'.replayerUsedFds = m.replayerUsedFds := by
  induction l generalizing m t with
  | nil =>
      obtain rfl := Option.some.inj h
      exact ⟨t, rfl, ht, hexact, rfl, rfl⟩
  | cons pair l ih =>
      rw [List.foldlM_cons] at h
      obtain ⟨m₁, hadd, hrest⟩ := Option.bind_eq_some_iff.mp h
      obtain ⟨s, t₁, map, hs, hentry, hmodify, rfl⟩ := manager_addFd_eq_some hadd
      obtain rfl := Option.some.inj (ht.symm.trans hs)
      have hget : map.get pid = some t₁ := by
        rw [Shared.get_modify hmodify, if_pos rfl]
      obtain ⟨t', hl, ht', hexact', hmap, hused⟩ := ih hget (hexact.modify hmodify) hrest
      refine ⟨t', ?_, ht', hexact', ?_, hused⟩
      · rw [List.foldlM_cons, hentry]
        exact hl
      · obtain ⟨_, _, _, _, rfl⟩ := Shared.modify_eq_some hmodify
        exact hmap

/-- The table of the traced program at the start. -/
def stdTable : FdTable :=
  stdFdMap.foldl (fun t pair => t.insert pair.1 ⟨pair.2, 0⟩) ∅

theorem stdTable_getElem? (k : Int) :
    stdTable[k]? = if k = atFdcwd ∨ k = 0 ∨ k = 1 ∨ k = 2 then some ⟨k, 0⟩ else none := by
  simp only [stdTable, stdFdMap, List.foldl_cons, List.foldl_nil, getElem?_insert]
  grind

namespace Prepared

variable {w : World} {pid : Int} {maxFds : Nat}

theorem tables (h : Prepared w pid maxFds) :
    w.manager.fdTableMap.Exact ∧ w.table pid = some stdTable ∧
      (∀ q, q ≠ pid → w.table q = none) ∧
      w.manager.replayerUsedFds = (((List.range (maxFds + 1)).map Int.ofNat).filter fun fd =>
        decide (fd ∈ w.openFds) && decide (fd ∉ stdTable.getAllReplayedFds)).toFinset := by
  obtain ⟨m, hfold, hrest⟩ := Option.bind_eq_some_iff.mp h.manager
  obtain ⟨t, ht, heq⟩ := Option.bind_eq_some_iff.mp hrest
  have hempty : (Shared.empty : Shared Int FdTable).Exact := Shared.exact_empty
  have hcreated : ((Shared.empty : Shared Int FdTable).create pid ∅).get pid = some ∅ := by
    rw [hempty.toBacked.get_create, if_pos rfl]
  obtain ⟨t', hstd, ht', hexact, hmap, -⟩ := addFds_eq_some hcreated
    (hempty.create ∅ rfl) hfold
  obtain rfl := Option.some.inj (ht.symm.trans ht')
  have htable : t = stdTable := Option.some.inj (hstd.symm.trans rfl)
  subst htable
  have hmanager := (Option.some.inj heq).symm
  have htables : w.manager.fdTableMap = m.fdTableMap := by rw [hmanager]
  refine ⟨htables ▸ hexact, ?_, ?_, ?_⟩
  · unfold table
    rw [htables, ht]
  · intro q hq
    unfold table
    rw [htables, Shared.get_eq_bind, hmap]
    simp only [Shared.create, getElem?_insert, if_neg hq.symm]
    simp [Shared.empty]
  · rw [hmanager]

theorem maps_iff (h : Prepared w pid maxFds) (q k fd : Int) :
    w.Maps q k fd ↔ q = pid ∧ k = fd ∧ (fd = atFdcwd ∨ fd = 0 ∨ fd = 1 ∨ fd = 2) := by
  obtain ⟨-, htable, hothers, -⟩ := h.tables
  by_cases hq : q = pid
  · subst hq
    rw [World.maps_iff htable]
    unfold FdTable.Maps
    rw [stdTable_getElem?]
    constructor
    · rintro ⟨e, he, rfl⟩
      split at he
      · rename_i hk
        obtain rfl := Option.some.inj he
        exact ⟨rfl, rfl, hk⟩
      · cases he
    · rintro ⟨-, rfl, hk⟩
      rw [if_pos hk]
      exact ⟨_, rfl, rfl⟩
  · constructor
    · rintro ⟨t, ht, -⟩
      rw [hothers q hq] at ht
      cases ht
    · rintro ⟨heq, -⟩
      exact absurd heq hq

end Prepared

/-- The replay of process 1 under a kernel that gives these replies. -/
def startWorld (replies : Nat → Reply) : World :=
  let w : World := { emptyWorld with
    openFds := {0, 1, 2}
    replies := replies }
  { w with manager :=
      (Manager.initializeTables (· ∈ w.openFds) 16 1 stdFdMap).getD w.manager }

theorem startWorld_prepared (replies : Nat → Reply) : Prepared (startWorld replies) 1 16 where
  manager := rfl
  standard := Finset.Subset.refl _
  scanned := by
    show ∀ fd ∈ ({0, 1, 2} : Finset Int), 0 ≤ fd ∧ fd ≤ 16
    decide
  bound := by decide

/-- Call `n` gets the descriptor `n + 3`. -/
def inOrder (n : Nat) : Reply :=
  ⟨n + 3, 0, (0, 0)⟩

def quiet : Options := ⟨defaultMode, ""⟩

/-- An execution of a queued copy in process `pid` that returned `returnValue`. -/
def queuedCall (kind : SysCallKind) (pid returnValue : Int) (fields : Field → Int) :
    Execution :=
  let row : Row :=
    { int := fun
        | .executing_pid => pid
        | .return_value => returnValue
        | field => fields field
      text := fun _ => ""
      bytes := fun _ => []
      isNull := fun _ => false }
  ⟨kind, 0, row, [], true, row, []⟩

def worldAfter (w : World) (calls : List Execution) : World :=
  (calls.foldlM (executeStep quiet) w).getD w

end SyscallReplayer.ReplayRuns
