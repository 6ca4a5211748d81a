import SyscallReplayer.ReplayRuns
import SyscallReplayer.SingleThreadReplay
import SyscallReplayer.SystemRefinement

/-!
# Replays under the scheduler

The reader and the executors decide when a record is executed, its module decides
what that does to the state. A module runs in one step here: the executors do not
interleave within `execute()`, as the threads of the replayer may. So an interleaved
replay leaves what the executed records leave one after another.
-/

namespace SyscallReplayer.InterleavedReplay

open TransitionSystem SystemRefinement
open ReplayWorld ReplayModules ReplayRuns SnapshotFidelity StatePrograms
open Scheduler SchedulerSteps RecordConservation ThreadOrder SingleThreadReplay

structure State where
  scheduler : Scheduler.State
  world : World

def admittedCopy : ExecutorPc → Option Copy
  | .admitted c => some c
  | _ => none

/-- The copy that an operation of the scheduler executes. -/
def copyToExecute (cfg : Config) (s : Scheduler.State) : Action → Option Copy
  | .reader pick =>
      match s.reader with
      | .prepare => (s.minima cfg.mainThreadID)[pick]?
      | _ => none
  | .executor index _ => s.executors[index]?.bind fun e => admittedCopy e.pc

/-- `call` gives the row of a record, with what its module held when the row was
prepared. The series of the module has advanced since. -/
def execution (call : Record → Execution) (s : Scheduler.State) (c : Copy) : Execution :=
  { call c.record with
    queued := true
    later := (call (s.series c.producer).current).row
    laterRest := (s.series c.producer).unread.map fun r => (call r).row }

def step (opts : Options) (call : Record → Execution) (cfg : Config) (s : State) (a : Action) :
    Option State := do
  let t ← Scheduler.step cfg s.scheduler a
  match copyToExecute cfg s.scheduler a with
  | none => return ⟨t, s.world⟩
  | some c => return ⟨t, ← executeStep opts s.world (execution call s.scheduler c)⟩

def interleaved (opts : Options) (call : Record → Execution) (cfg : Config) (start : World) :
    System State Action where
  init := ⟨loadSyscallModules cfg, start⟩
  step := step opts call cfg

section

variable {opts : Options} {call : Record → Execution} {cfg : Config} {start : World}
  {s s' : State}

theorem step_eq_some {a : Action} (h : step opts call cfg s a = some s') :
    Scheduler.step cfg s.scheduler a = some s'.scheduler ∧
      match copyToExecute cfg s.scheduler a with
      | none => s'.world = s.world
      | some c => executeStep opts s.world (execution call s.scheduler c) = some s'.world := by
  obtain ⟨t, ht, hrest⟩ := Option.bind_eq_some_iff.mp h
  cases hcopy : copyToExecute cfg s.scheduler a with
  | none =>
      rw [hcopy] at hrest
      cases hrest
      exact ⟨ht, rfl⟩
  | some c =>
      rw [hcopy] at hrest
      obtain ⟨w, hw, heq⟩ := Option.bind_eq_some_iff.mp hrest
      cases heq
      exact ⟨ht, hw⟩

theorem interleaved_refines_scheduler (opts : Options) (call : Record → Execution) (cfg : Config)
    (start : World) : Refines (interleaved opts call cfg start) (replay cfg) State.scheduler where
  init := rfl
  step h := .inr ⟨_, (step_eq_some h).1⟩

theorem interleaved_refines_replaySystem (opts : Options) (call : Record → Execution)
    (cfg : Config) (start : World) :
    Refines (interleaved opts call cfg start) (replaySystem opts start) State.world where
  init := rfl
  step := by
    intro s s' a h
    obtain ⟨-, hworld⟩ := step_eq_some h
    cases hcopy : copyToExecute cfg s.scheduler a with
    | none =>
        rw [hcopy] at hworld
        exact .inl hworld
    | some c =>
        rw [hcopy] at hworld
        exact .inr ⟨_, hworld⟩

theorem executedLog_of_prepareReplay {t t' : Scheduler.State} {pick : Nat}
    (h : prepareReplay cfg t pick = some t') :
    t'.executedLog = t.executedLog ++
      ((t.minima cfg.mainThreadID)[pick]?).toList.map Copy.record := by
  unfold prepareReplay at h
  dsimp only at h
  split at h
  · rename_i hempty
    cases h
    have hnone : t.minima cfg.mainThreadID = [] := by
      rw [Scheduler.State.minima, hempty]
      rfl
    rw [hnone]
    exact (List.append_nil _).symm
  · split at h
    · cases h
    · rename_i c hpick
      split at h
      · cases h
        rw [hpick]
        rfl
      · cases h

theorem executedLog_of_readerTransition {t t' : Scheduler.State} (h : ReaderTransition cfg t t')
    (hpc : t.reader ≠ .prepare) : t'.executedLog = t.executedLog := by
  cases h with
  | prepareEmpty hprepare | prepareUmask hprepare => exact absurd hprepare hpc
  | _ => rfl

theorem executedLog_of_executor {t t₀ : Scheduler.State} {tid : Int} {pc pc' : ExecutorPc}
    (h : ExecutorTransition cfg t tid pc t₀ pc') :
    t₀.executedLog = t.executedLog ++ (admittedCopy pc).toList.map Copy.record := by
  cases h with
  | execute c => exact execute_log t c
  | _ => exact (List.append_nil _).symm

theorem executedLog_of_step {t t' : Scheduler.State} {a : Action}
    (h : Scheduler.step cfg t a = some t') :
    t'.executedLog = t.executedLog ++ (copyToExecute cfg t a).toList.map Copy.record := by
  cases a with
  | reader pick =>
      change readerStep cfg t pick = some t' at h
      by_cases hpc : t.reader = .prepare
      · simp only [readerStep, hpc] at h
        simp only [copyToExecute, hpc]
        exact executedLog_of_prepareReplay h
      · have hnone : copyToExecute cfg t (.reader pick) = none := by
          cases hreader : t.reader <;> simp_all [copyToExecute]
        rw [hnone, executedLog_of_readerTransition (readerTransition_of_readerStep h) hpc]
        exact (List.append_nil _).symm
  | executor index pick =>
      simp only [Scheduler.step] at h
      split at h
      · cases h
      · rename_i e he
        obtain ⟨⟨t₀, pc'⟩, hstep, rfl⟩ := Option.map_eq_some_iff.mp h
        rw [copyToExecute, he]
        have htrans := executorTransition_of_executorStep hstep
        have hlog := executedLog_of_executor htrans
        exact hlog

theorem movesTo_movesTo {kind kind' : SysCallKind} (h : movesTo kind = some kind') :
    movesTo kind' = some kind' := by
  cases kind <;> cases h <;> rfl

theorem execute_of_move (opts : Options) {m copy : ReplayModule} (h : move m = some copy) (row row' : Row)
    (rest rest' : List Row) : execute opts copy row rest = execute opts copy row' rest' := by
  obtain ⟨kind, hkind, rfl⟩ := Option.map_eq_some_iff.mp h
  unfold execute processRow
  rw [processCurrentRow_eq_none (movesTo_movesTo hkind),
    processCurrentRow_eq_none (movesTo_movesTo hkind)]

theorem executeStep_eq (opts : Options) (w : World) (a : Execution) :
    executeStep opts w a =
      a.module.bind fun m => (execute opts m a.position.1 a.position.2 w).map Prod.snd := by
  unfold executeStep Execution.run
  cases a.module with
  | none => rfl
  | some m => rfl

theorem executeStep_later {a : Execution} (hqueued : a.queued = true) (later : Row)
    (laterRest : List Row) (w : World) :
    executeStep opts w { a with later := later, laterRest := laterRest } =
      executeStep opts w a := by
  rw [executeStep_eq, executeStep_eq]
  change a.module.bind _ = _
  refine Option.bind_congr fun copy hcopy => ?_
  obtain ⟨m, -, hmove⟩ := Option.bind_eq_some_iff.mp hcopy
  rw [hqueued, if_pos rfl] at hmove
  rw [execute_of_move opts hmove _ a.position.1 _ a.position.2]

/-- The records of a log executed one after another. -/
def sequential (opts : Options) (call : Record → Execution) (start : World)
    (log : List Record) : Option World :=
  log.foldlM (fun w r => executeStep opts w { call r with queued := true }) start

theorem world_of_executedLog (h : (interleaved opts call cfg start).Reachable s) :
    sequential opts call start s.scheduler.executedLog = some s.world := by
  refine h.invariant (P := fun s => sequential opts call start s.scheduler.executedLog =
    some s.world) _ rfl fun s a s' _ hworld _ hstep => ?_
  obtain ⟨hscheduler, hnext⟩ := step_eq_some hstep
  rw [executedLog_of_step hscheduler]
  cases hcopy : copyToExecute cfg s.scheduler a with
  | none =>
      rw [hcopy] at hnext
      rw [hnext, ← hworld]
      exact congrArg _ (List.append_nil _)
  | some c =>
      rw [hcopy] at hnext
      have hcall : executeStep opts s.world { call c.record with queued := true } =
          some s'.world :=
        (executeStep_later rfl _ _ _).symm.trans hnext
      rw [sequential, List.foldlM_append]
      change (sequential opts call start s.scheduler.executedLog).bind _ = _
      rw [hworld]
      change (executeStep opts s.world { call c.record with queued := true }).bind _ = _
      rw [hcall]
      rfl

/-- What the interleaved executors leave is what their records leave in the order of
the log, which is a run of the modules alone. -/
theorem interleaved_sequential (h : (interleaved opts call cfg start).Reachable s) :
    sequential opts call start s.scheduler.executedLog = some s.world ∧
      (replaySystem opts start).Reachable s.world ∧ (replay cfg).Reachable s.scheduler :=
  ⟨world_of_executedLog h,
    (interleaved_refines_replaySystem opts call cfg start).reachable h,
    (interleaved_refines_scheduler opts call cfg start).reachable h⟩

/-- What a single thread has executed comes before what it has not. -/
theorem executed_lt_pending {pid : Int} (hsingle : SingleThread cfg pid)
    (hidx : cfg.IndexedCopies) (hids : (cfg.records.map Record.uniqueId).Nodup)
    {t : Scheduler.State} (h : (replay cfg).Reachable t) {r r' : Record}
    (hr : r ∈ t.executedLog) (hr' : r' ∈ cfg.records) (hnot : r' ∉ t.executedLog) :
    r.uniqueId < r'.uniqueId := by
  have hperm := reachable_accounted h
  have horder := reachable_inOrder (reachVia_timely hsingle hidx h) fun _ _ h => h
  have hmem := (mem_records hperm).mpr (.inl hr)
  have hpid : r.executingPid = r'.executingPid :=
    (hsingle.pid r hmem).trans (hsingle.pid r' hr').symm
  have hle : r.uniqueId ≤ r'.uniqueId := by
    rcases (mem_records hperm).mp hr' with hlog | ⟨c, hc, rfl⟩ | hwaiting
    · exact absurd hlog hnot
    · exact horder.logHand r hr c hc hpid
    · exact horder.logWaiting r hr r' hwaiting hpid
  refine lt_of_le_of_ne hle fun heq => hnot ?_
  rwa [← List.inj_on_of_nodup_map hids hmem hr' heq]

variable {cfg' : Config} {t t' : Scheduler.State} {pid : Int}

theorem executedLog_nodup (hids : (cfg.records.map Record.uniqueId).Nodup)
    (h : (replay cfg).Reachable t) : t.executedLog.Nodup := by
  have hall := (reachable_accounted h).nodup_iff.mpr hids.of_map
  exact (List.nodup_append.mp (List.nodup_append.mp hall).1).1

theorem executedLog_increasing (hsingle : SingleThread cfg pid) (hidx : cfg.IndexedCopies)
    (h : (replay cfg).Reachable t) :
    t.executedLog.Pairwise fun r r' => r.uniqueId ≤ r'.uniqueId := by
  have hperm := reachable_accounted h
  have horder := reachable_inOrder (reachVia_timely hsingle hidx h) fun _ _ h => h
  refine horder.log.imp_of_mem fun {r r'} hr hr' hbefore => hbefore ?_
  exact (hsingle.pid r ((mem_records hperm).mpr (.inl hr))).trans
    (hsingle.pid r' ((mem_records hperm).mpr (.inl hr'))).symm

/-- Two replays that have executed equally many records have executed the same ones. -/
theorem executedLog_subset (hsingle : SingleThread cfg pid) (hsingle' : SingleThread cfg' pid)
    (hidx : cfg.IndexedCopies) (hidx' : cfg'.IndexedCopies)
    (hids : (cfg.records.map Record.uniqueId).Nodup) (hrecords : cfg'.records.Perm cfg.records)
    (h : (replay cfg).Reachable t) (h' : (replay cfg').Reachable t')
    (hlen : t.executedLog.length = t'.executedLog.length) :
    t.executedLog ⊆ t'.executedLog := by
  have hids' : (cfg'.records.map Record.uniqueId).Nodup :=
    (hrecords.map Record.uniqueId).nodup_iff.mpr hids
  intro r hr
  by_contra hnot
  have hother : ∃ r' ∈ t'.executedLog, r' ∉ t.executedLog := by
    by_contra hnone
    push Not at hnone
    have hperm := ((executedLog_nodup hids' h').subperm hnone).perm_of_length_le hlen.le
    exact hnot (hperm.mem_iff.mpr hr)
  obtain ⟨r', hr', hnot'⟩ := hother
  have hmem := (mem_records (reachable_accounted h)).mpr (.inl hr)
  have hmem' := (mem_records (reachable_accounted h')).mpr (.inl hr')
  have hlt := executed_lt_pending hsingle hidx hids h hr (hrecords.mem_iff.mp hmem') hnot'
  have hgt := executed_lt_pending hsingle' hidx' hids' h' hr' (hrecords.mem_iff.mpr hmem) hnot
  omega

theorem executedLog_unique (hsingle : SingleThread cfg pid) (hsingle' : SingleThread cfg' pid)
    (hidx : cfg.IndexedCopies) (hidx' : cfg'.IndexedCopies)
    (hids : (cfg.records.map Record.uniqueId).Nodup) (hrecords : cfg'.records.Perm cfg.records)
    (h : (replay cfg).Reachable t) (h' : (replay cfg').Reachable t')
    (hlen : t.executedLog.length = t'.executedLog.length) :
    t.executedLog = t'.executedLog := by
  have hsubset := executedLog_subset hsingle hsingle' hidx hidx' hids hrecords h h' hlen
  have hperm := ((executedLog_nodup hids h).subperm hsubset).perm_of_length_le hlen.ge
  refine hperm.eq_of_pairwise (fun r r' hr hr' hle hge => ?_) (executedLog_increasing hsingle hidx h)
    (executedLog_increasing hsingle' hidx' h')
  have hmem := (mem_records (reachable_accounted h)).mpr (.inl hr)
  have hmem' := (mem_records (reachable_accounted h')).mpr (.inl hr')
  exact List.inj_on_of_nodup_map hids hmem (hrecords.mem_iff.mp hmem') (le_antisymm hle hge)

/-- The replays of a trace of one thread go through the same states, whatever the
reader and the executor interleave and in whatever order the modules are visited. -/
theorem interleaved_world_unique {s s' : State} (hsingle : SingleThread cfg pid)
    (hsingle' : SingleThread cfg' pid) (hidx : cfg.IndexedCopies) (hidx' : cfg'.IndexedCopies)
    (hids : (cfg.records.map Record.uniqueId).Nodup) (hrecords : cfg'.records.Perm cfg.records)
    (h : (interleaved opts call cfg start).Reachable s)
    (h' : (interleaved opts call cfg' start).Reachable s')
    (hlen : s.scheduler.executedLog.length = s'.scheduler.executedLog.length) :
    s.world = s'.world := by
  have hlog := executedLog_unique hsingle hsingle' hidx hidx' hids hrecords
    ((interleaved_refines_scheduler opts call cfg start).reachable h)
    ((interleaved_refines_scheduler opts call cfg' start).reachable h') hlen
  have hworld := world_of_executedLog h
  rw [hlog, world_of_executedLog h'] at hworld
  exact (Option.some.inj hworld).symm

end

def umaskAndPipe : List (List Record) :=
  [[⟨.umask, 0, 1, 1, 2, 0⟩], [⟨.pipe, 1, 1, 3, 4, 0⟩]]

theorem umaskAndPipe_nonempty : ∀ rows ∈ umaskAndPipe, rows ≠ [] := by
  decide

/-- A `pipe` after the `umask`, with the modules visited in some order. -/
def pipeTrace (order : List Nat) (horder : order.Perm (List.range 2)) : Config where
  modules := umaskAndPipe
  order := order
  uninitialised i := i
  modules_nonempty := umaskAndPipe_nonempty
  order_perm := horder

theorem pipeTrace_singleThread {order : List Nat} (horder : order.Perm (List.range 2)) :
    SingleThread (pipeTrace order horder) 1 where
  pid := (by decide : ∀ r ∈ umaskAndPipe.flatten, r.executingPid = 1)
  noClone := (by decide : ∀ r ∈ umaskAndPipe.flatten,
    r.sysCallName ≠ .clone ∧ r.sysCallName ≠ .vfork)
  first := ⟨[⟨.umask, 0, 1, 1, 2, 0⟩], List.mem_cons_self, ⟨.umask, 0, 1, 1, 2, 0⟩, rfl, rfl, rfl⟩
  increasing := (by decide : ∀ rows ∈ umaskAndPipe,
    rows.Pairwise fun r r' => r.uniqueId < r'.uniqueId)

def pipeCall (r : Record) : Execution :=
  queuedCall r.sysCallName r.executingPid r.returnValue fun
    | .read_descriptor => 3
    | .write_descriptor => 4
    | _ => 0

/-- Both modules are read first, or the executor starts before the reader ends. -/
theorem pipeTrace_world_unique :
    ∃ s s' : State, s.scheduler.executedLog.map Record.uniqueId = [0, 1] ∧
      s.world = s'.world := by
  let sys (order : List Nat) (horder : order.Perm (List.range 2)) :=
    interleaved quiet pipeCall (pipeTrace order horder) (startWorld inOrder)
  obtain ⟨s, hreach, hs⟩ := (sys [0, 1] (.refl _)).exists_reachable
    (List.replicate 9 (.reader 0) ++ List.replicate 6 (.executor 0 0))
    (fun s => decide (s.scheduler.executedLog.map Record.uniqueId = [0, 1])) (by decide)
  obtain ⟨s', hreach', hs'⟩ := (sys [1, 0] (.swap _ _ _)).exists_reachable
    (List.replicate 8 (.reader 0) ++ List.replicate 6 (.executor 0 0))
    (fun s => decide (s.scheduler.executedLog.map Record.uniqueId = [0, 1])) (by decide)
  have hlog := of_decide_eq_true hs
  have hlen := (congrArg List.length hlog).trans (congrArg List.length (of_decide_eq_true hs')).symm
  rw [List.length_map, List.length_map] at hlen
  have hrecords : (pipeTrace [1, 0] (.swap _ _ _)).records.Perm
      (pipeTrace [0, 1] (.refl _)).records := .refl _
  exact ⟨s, s', hlog, interleaved_world_unique (pipeTrace_singleThread _)
    (pipeTrace_singleThread _) (fun _ _ => rfl) (fun _ _ => rfl) (by decide) hrecords hreach
    hreach' hlen⟩

end SyscallReplayer.InterleavedReplay
