import SyscallReplayer.FileReplay
import SyscallReplayer.ReplayOutcome

/-!
# From trace files to a world

The executors execute the objects that the modules have pushed. What a replay of the
files of a single thread comes to is what their rows come to in the order of their ids.
-/

namespace SyscallReplayer.FileOutcome

open CInt TransitionSystem SystemRefinement FairRuns
open ReplayWorld ReplayModules ReplayRuns SnapshotFidelity
open Scheduler SchedulerSteps ReaderProgress RecordConservation ThreadOrder SingleThreadReplay
open QueueAccounting ReplayTermination InterleavedReplay ReplayOutcome FileReplay

structure State where
  files : FileReplay.State
  world : World

/-- What stands for the row of a series past its last row. -/
def noRow : Row where
  int _ := 0
  text _ := ""
  bytes _ := []
  isNull _ := false

def objectOf (s : FileReplay.State) (c : Copy) : Option ReplayModule :=
  (s.readers c.producer).pushed.find? fun m => record m = c.record

def executeObject (opts : Options) (s : FileReplay.State) (c : Copy) (w : World) :
    Option World := do
  let m ← objectOf s c
  let series := (s.readers c.producer).series
  (execute opts m (series.row?.getD noRow) series.rest.tail w).map Prod.snd

def step (inp : Input) (opts : Options) (s : State) (a : Action) : Option State := do
  let t ← FileReplay.step inp s.files a
  match copyToExecute inp.config s.files.toScheduler a with
  | none => return ⟨t, s.world⟩
  | some c => return ⟨t, ← executeObject opts s.files c s.world⟩

def worldReplay (inp : Input) (opts : Options) (start : World) : System State Action where
  init := ⟨(fileReplay inp).init, start⟩
  step := step inp opts

def allRows (inp : Input) : List (SysCallKind × Row) :=
  inp.modules.flatMap fun m => m.2.flatten.map fun row => (m.1, row)

def recordOfRow (k : SysCallKind × Row) : Record :=
  rowRecord k.1 k.2

def executeRow (opts : Options) (w : World) (k : SysCallKind × Row) : Option World := do
  let copy ← BatchReading.copyOf k.1 k.2
  (execute opts copy k.2 [] w).map Prod.snd

def rowOf (inp : Input) (r : Record) : SysCallKind × Row :=
  ((allRows inp).find? fun k => recordOfRow k = r).getD (.umask, noRow)

def call (inp : Input) (r : Record) : Execution where
  kind := (rowOf inp r).1
  held := 0
  row := (rowOf inp r).2
  rest := []
  queued := true
  later := (rowOf inp r).2
  laterRest := []

section Rows

variable {inp : Input} {opts : Options} {k k' : SysCallKind × Row} {w : World}

theorem allRecords_eq (inp : Input) : allRecords inp = (allRows inp).map recordOfRow := by
  rw [allRows, allRecords, List.map_flatMap]
  refine List.flatMap_congr fun m _ => ?_
  rw [List.map_map]
  rfl

theorem eq_of_recordOfRow (hids : ((allRecords inp).map Record.uniqueId).Nodup)
    (hk : k ∈ allRows inp) (hk' : k' ∈ allRows inp) (heq : recordOfRow k = recordOfRow k') :
    k = k' := by
  rw [allRecords_eq] at hids
  exact List.inj_on_of_nodup_map hids.of_map hk hk' heq

theorem rowOf_recordOfRow (hids : ((allRecords inp).map Record.uniqueId).Nodup)
    (hk : k ∈ allRows inp) : rowOf inp (recordOfRow k) = k := by
  have hsome : ((allRows inp).find? fun k' => recordOfRow k' = recordOfRow k).isSome :=
    List.find?_isSome.mpr ⟨k, hk, decide_eq_true rfl⟩
  obtain ⟨k', hfind⟩ := Option.isSome_iff_exists.mp hsome
  rw [rowOf, hfind, Option.getD_some]
  exact eq_of_recordOfRow hids (List.mem_of_find?_eq_some hfind) hk
    (of_decide_eq_true (List.find?_some hfind :))

theorem executeStep_call (r : Record) :
    executeStep opts w (call inp r) = executeRow opts w (rowOf inp r) :=
  executeStep_eq opts w (call inp r)

theorem sequential_rows (hids : ((allRecords inp).map Record.uniqueId).Nodup) (start : World)
    {rows : List (SysCallKind × Row)} (hrows : ∀ k ∈ rows, k ∈ allRows inp) :
    sequential opts (call inp) start (rows.map recordOfRow) =
      rows.foldlM (executeRow opts) start := by
  induction rows generalizing start with
  | nil => rfl
  | cons k rows ih =>
      have hk : executeStep opts start (call inp (recordOfRow k)) = executeRow opts start k := by
        rw [executeStep_call, rowOf_recordOfRow hids (hrows k List.mem_cons_self)]
      rw [List.map_cons, sequential, List.foldlM_cons, List.foldlM_cons]
      change (executeStep opts start (call inp (recordOfRow k))).bind _ = _
      rw [hk]
      refine Option.bind_congr fun w _ => ?_
      exact ih w fun k' hk' => hrows k' (List.mem_cons_of_mem _ hk')

end Rows

section Copies

variable {cfg : Config} {t t' : Scheduler.State}

/-- The copies of a module are those of its rows. -/
structure FromRows (cfg : Config) (t : Scheduler.State) : Prop where
  copies : ∀ c ∈ copies t, c.producer < cfg.replayerIdx ∧ c.record ∈ cfg.rows c.producer
  unqueued : ∀ i < cfg.replayerIdx, unqueued t i ⊆ cfg.rows i

theorem mem_copies_of_flow {a : Action} (h : Flow cfg t a t') {c : Copy} (hc : c ∈ copies t') :
    c ∈ copies t ∨ c.producer < cfg.replayerIdx ∧
      unqueued t c.producer = c.record :: unqueued t' c.producer := by
  simp only [copies, List.mem_append] at hc ⊢
  cases h with
  | quiet _ hhand hqueued =>
      rw [hhand, hqueued] at hc
      exact .inl hc
  | deliver i c' hi hproducer _ hhand hqueued hcons =>
      rw [hhand, hqueued, List.mem_append, List.mem_singleton, ← or_assoc] at hc
      rcases hc with hc | rfl
      · exact .inl hc
      · exact .inr (hproducer.1 ▸ ⟨hi, hcons⟩)
  | prepare _ _ _ _ _ hhand hqueued =>
      rw [hhand, hqueued] at hc
      exact .inl (hc.imp_right List.mem_of_mem_erase)
  | pop _ c' _ _ hmin _ hhand hqueued =>
      rw [hhand.mem_iff, hqueued, List.mem_cons] at hc
      rcases hc with (rfl | hc) | hc
      · exact .inl (.inr (mem_queued_of_mem_minima hmin))
      · exact .inl (.inl hc)
      · exact .inl (.inr (List.mem_of_mem_erase hc))
  | repush _ c' _ _ _ hhand hqueued =>
      rw [hqueued, List.mem_append, List.mem_singleton] at hc
      rw [hhand.mem_iff, List.mem_cons]
      tauto
  | execute _ c' _ _ _ hhand hqueued =>
      rw [hqueued] at hc
      rw [hhand.mem_iff, List.mem_cons]
      tauto

theorem unqueued_subset_of_flow {a : Action} (h : Flow cfg t a t') {i : Nat}
    (hi : i < cfg.replayerIdx) : unqueued t' i ⊆ unqueued t i := by
  cases h with
  | deliver j c _ _ _ _ _ hcons hother =>
      by_cases hij : i = j
      · subst hij
        rw [hcons]
        exact List.subset_cons_self _ _
      · rw [hother i hij]
        exact List.Subset.refl _
  | quiet _ _ _ hrows | prepare _ _ _ _ _ _ _ _ hrows | pop _ _ _ _ _ _ _ _ hrows
  | repush _ _ _ _ _ _ _ hrows | execute _ _ _ _ _ _ _ hrows =>
      rw [hrows i hi]
      exact List.Subset.refl _

theorem fromRows_of_flow {a : Action} (hinv : FromRows cfg t) (h : Flow cfg t a t') :
    FromRows cfg t' := by
  refine ⟨fun c hc => ?_, fun i hi r hr => ?_⟩
  · rcases mem_copies_of_flow h hc with hold | ⟨hi, hcons⟩
    · exact hinv.copies c hold
    · refine ⟨hi, hinv.unqueued _ hi ?_⟩
      rw [hcons]
      exact List.mem_cons_self
  · exact hinv.unqueued i hi (unqueued_subset_of_flow h hi hr)

theorem reachable_fromRows (h : (replay cfg).Reachable t) : FromRows cfg t := by
  refine h.invariant _ ⟨fun c hc => ?_, fun i _ => ?_⟩ fun s a s' hreach hinv _ hs =>
    fromRows_of_flow hinv (flow_of_transition (reachable_readerInv hreach) (transition_of_step hs))
  · have hqueued : c ∈ (loadSyscallModules cfg).queued := hc
    obtain ⟨i, hi, hfirst⟩ := List.mem_filterMap.mp hqueued
    obtain ⟨r, hhead, rfl⟩ := Option.map_eq_some_iff.mp hfirst
    exact ⟨List.mem_range.mp hi, List.mem_of_mem_head? hhead⟩
  · change RecordConservation.unqueued (loadSyscallModules cfg) i ⊆ _
    rw [loadSyscallModules_unqueued]
    exact List.tail_subset _

theorem mem_copies_of_copyToExecute {a : Action} {c : Copy}
    (h : copyToExecute cfg t a = some c) : c ∈ copies t := by
  cases a with
  | reader pick =>
      simp only [copyToExecute] at h
      split at h
      · exact List.mem_append_right _ (mem_queued_of_mem_minima (List.mem_of_getElem? h))
      · cases h
  | executor index pick =>
      obtain ⟨e, he, hadmitted⟩ := Option.bind_eq_some_iff.mp h
      refine List.mem_append_left _ (mem_copiesInHand.mpr ⟨e, List.mem_of_getElem? he, ?_⟩)
      cases hpc : e.pc with
      | admitted c' =>
          rw [hpc] at hadmitted
          exact hadmitted
      | _ =>
          rw [hpc] at hadmitted
          cases hadmitted

end Copies

section Objects

variable {inp : Input} {opts : Options} {s : FileReplay.State} {c : Copy} {w : World}

theorem record_of_copyOf {kind : SysCallKind} {row : Row} {copy : ReplayModule}
    (h : BatchReading.copyOf kind row = some copy) : record copy = rowRecord kind row := by
  obtain ⟨m, hm, hmove⟩ := Option.bind_eq_some_iff.mp h
  rw [record_of_move hmove, movedRecord_of_row hm]

theorem not_mem_unqueued {cfg : Config} {t : Scheduler.State}
    (hids : (cfg.records.map Record.uniqueId).Nodup) (h : (replay cfg).Reachable t)
    (hc : c ∈ copies t) {i : Nat} (hi : i < cfg.replayerIdx) : c.record ∉ unqueued t i := by
  intro hrow
  have hnodup := (reachable_accounted h).nodup_iff.mpr hids.of_map
  refine (List.nodup_append.mp hnodup).2.2 c.record ?_ c.record ?_ rfl
  · exact List.mem_append_right _ (List.mem_map_of_mem hc)
  · exact List.mem_flatMap.mpr ⟨i, List.mem_range.mpr hi, hrow⟩

theorem objectOf_eq (hinv : Inv inp s) (hcopies : inp.Copies)
    (hids : ((allRecords inp).map Record.uniqueId).Nodup) (hc : c ∈ copies s.toScheduler) :
    objectOf s c = BatchReading.copyOf (rowOf inp c.record).1 (rowOf inp c.record).2 := by
  obtain ⟨hi, hrecord⟩ := (reachable_fromRows hinv.scheduled).copies c hc
  have hlt : c.producer < inp.modules.length := by
    simpa [Config.replayerIdx, Input.config] using hi
  have hm := List.getElem?_eq_getElem hlt
  have hmem := List.getElem_mem hlt
  generalize inp.modules[c.producer] = m at hm hmem
  obtain ⟨p, hpushed, hrest⟩ := hinv.pushed hcopies hm
  rw [rows_config hm] at hrecord
  obtain ⟨row, hrow, hrec⟩ := List.mem_map.mp hrecord
  have htake : row ∈ m.2.flatten.take p := by
    have hnot := not_mem_unqueued (allRecords_config inp ▸ hids) hinv.scheduled hc hi
    rw [hrest, ← hrec] at hnot
    rw [← List.take_append_drop p m.2.flatten, List.mem_append] at hrow
    exact hrow.resolve_right fun hdrop => hnot (List.mem_map_of_mem hdrop)
  have hall : ∀ {row'}, row' ∈ m.2.flatten → (m.1, row') ∈ allRows inp := fun h =>
    List.mem_flatMap.mpr ⟨m, hmem, List.mem_map_of_mem h⟩
  have hrowOf : rowOf inp c.record = (m.1, row) := by
    rw [← hrec]
    exact rowOf_recordOfRow hids (hall hrow)
  obtain ⟨copy, hcopy⟩ := Option.isSome_iff_exists.mp (hcopies m hmem row hrow)
  have hfound : (objectOf s c).isSome := by
    refine List.find?_isSome.mpr ⟨copy, ?_, ?_⟩
    · have hsome : some copy ∈ (s.readers c.producer).pushed.map some := by
        rw [hpushed]
        exact List.mem_map.mpr ⟨row, htake, hcopy⟩
      obtain ⟨copy', hcopy', heq⟩ := List.mem_map.mp hsome
      exact Option.some.inj heq ▸ hcopy'
    · exact decide_eq_true ((record_of_copyOf hcopy).trans hrec)
  obtain ⟨copy', hfind⟩ := Option.isSome_iff_exists.mp hfound
  have hsome : some copy' ∈ (s.readers c.producer).pushed.map some :=
    List.mem_map_of_mem (List.mem_of_find?_eq_some hfind)
  rw [hpushed] at hsome
  obtain ⟨row', hrow', hcopy'⟩ := List.mem_map.mp hsome
  have hrec' : recordOfRow (m.1, row') = recordOfRow (m.1, row) :=
    (record_of_copyOf hcopy').symm.trans
      ((of_decide_eq_true (List.find?_some hfind :)).trans hrec.symm)
  cases eq_of_recordOfRow hids (hall (List.mem_of_mem_take hrow')) (hall hrow) hrec'
  rw [hfind, hrowOf, ← hcopy']

theorem executeObject_eq (hinv : Inv inp s) (hcopies : inp.Copies)
    (hids : ((allRecords inp).map Record.uniqueId).Nodup) (hc : c ∈ copies s.toScheduler) :
    executeObject opts s c w = executeStep opts w (execution (call inp) s.toScheduler c) := by
  have hcall : executeStep opts w (execution (call inp) s.toScheduler c) =
      executeRow opts w (rowOf inp c.record) :=
    (executeStep_later rfl _ _ _).trans (executeStep_call c.record)
  rw [hcall, executeRow, executeObject, objectOf_eq hinv hcopies hids hc]
  refine Option.bind_congr fun copy hcopy => ?_
  obtain ⟨m, -, hmove⟩ := Option.bind_eq_some_iff.mp hcopy
  exact congrArg (fun run => Option.map Prod.snd (run w)) (execute_of_move opts hmove _ _ _ _)

end Objects

section Outcome

variable {inp : Input} {opts : Options} {start w : World} {pid : Int}

def toInterleaved (s : State) : InterleavedReplay.State :=
  ⟨s.files.toScheduler, s.world⟩

/-- The replay of the files does what the scheduler does with their rows. -/
theorem worldReplay_mirrors (hcopies : inp.Copies)
    (hids : ((allRecords inp).map Record.uniqueId).Nodup) :
    Mirrors (worldReplay inp opts start) (interleaved opts (call inp) inp.config start)
      toInterleaved (fun s => Inv inp s.files) where
  init := congrArg (InterleavedReplay.State.mk · start) (init_toScheduler hcopies)
  invariant_init := (fileReplay_mirrors hcopies).invariant_init
  invariant_step := by
    intro s s' a hinv hstep
    obtain ⟨t, ht, hrest⟩ := Option.bind_eq_some_iff.mp hstep
    have hfiles : s'.files = t := by
      split at hrest
      · cases hrest
        rfl
      · obtain ⟨w', -, heq⟩ := Option.bind_eq_some_iff.mp hrest
        cases heq
        rfl
    rw [hfiles]
    exact (fileReplay_mirrors hcopies).invariant_step hinv ht
  step := by
    intro s a hinv
    have hscheduler := (fileReplay_mirrors hcopies).step a hinv
    change (step inp opts s a).map toInterleaved =
      InterleavedReplay.step opts (call inp) inp.config (toInterleaved s) a
    unfold step InterleavedReplay.step
    change (FileReplay.step inp s.files a).map _ =
      Scheduler.step inp.config s.files.toScheduler a at hscheduler
    change _ = (Scheduler.step inp.config s.files.toScheduler a).bind _
    rw [← hscheduler]
    cases FileReplay.step inp s.files a with
    | none => rfl
    | some t =>
        change Option.map toInterleaved (match copyToExecute inp.config s.files.toScheduler a with
          | none => some ⟨t, s.world⟩
          | some c => (executeObject opts s.files c s.world).bind fun w => some ⟨t, w⟩) =
          match copyToExecute inp.config s.files.toScheduler a with
          | none => some ⟨t.toScheduler, s.world⟩
          | some c =>
              (executeStep opts s.world (execution (call inp) s.files.toScheduler c)).bind
                fun w => some ⟨t.toScheduler, w⟩
        cases hcopy : copyToExecute inp.config s.files.toScheduler a with
        | none => rfl
        | some c =>
            dsimp only
            rw [executeObject_eq hinv hcopies hids (mem_copies_of_copyToExecute hcopy)]
            cases executeStep opts s.world (execution (call inp) s.files.toScheduler c) <;> rfl

/-- A fair replay of the files of a single thread ends, and leaves the world that their
rows leave one after another in the order of the ids, however the files are split into
extents and whatever the schedule. -/
theorem fair_files_leave_sequential (hcopies : inp.Copies) (hsingle : SingleThread inp.config pid)
    (hidx : inp.config.IndexedCopies) (hids : ((allRecords inp).map Record.uniqueId).Nodup)
    (hsize : ((allRecords inp).length : Int) + 100 < longLongMax)
    {sorted : List (SysCallKind × Row)} (hperm : sorted.Perm (allRows inp))
    (hsorted : sorted.Pairwise fun k k' =>
      (recordOfRow k).uniqueId ≤ (recordOfRow k').uniqueId)
    (hw : sorted.foldlM (executeRow opts) start = some w)
    (run : Run (worldReplay inp opts start))
    (hstart : (worldReplay inp opts start).Reachable (run.state 0)) (hfair : Fair party run) :
    ∃ n, ∀ m, n ≤ m → Terminated (run.state m).files.toScheduler ∧
      (run.state m).files.scheduler.executedLog = sorted.map recordOfRow ∧
      (run.state m).world = w := by
  have hmirrors : Mirrors (worldReplay inp opts start) _ _ _ := worldReplay_mirrors hcopies hids
  have hinv := run.mirrored_invariant hmirrors (hmirrors.invariant hstart)
  have hreach : (interleaved opts (call inp) inp.config start).Reachable
      (toInterleaved (run.state 0)) := (hmirrors.reachable_iff _).mpr ⟨_, hstart, rfl⟩
  have hseq : sequential opts (call inp) start (sorted.map recordOfRow) = some w :=
    (sequential_rows hids start fun _ hk => hperm.mem_iff.mp hk).trans hw
  have hrecords : (sorted.map recordOfRow).Perm inp.config.records := by
    rw [← allRecords_config, allRecords_eq]
    exact hperm.map recordOfRow
  rw [allRecords_config] at hids hsize
  obtain ⟨n, hterm, hend⟩ := eventually_sequential hsingle hidx hids hsize hrecords
    (List.pairwise_map.mpr hsorted) hseq (run.mirror hmirrors (hinv 0)) hreach
    (hfair.mirror hmirrors (hinv 0))
  refine ⟨n, fun m hm => ?_⟩
  have hdead : ∀ a, (worldReplay inp opts start).step (run.state n) a = none := fun a =>
    hmirrors.dead (hinv n) (step_of_scheduler (step_of_terminated hterm a))
  rw [run.stays hdead hm]
  exact ⟨hterm, hend⟩

end Outcome

def fdRow (id returnValue descriptor : Int) : Row where
  int := fun
    | .unique_id => id
    | .executing_pid => 1
    | .return_value => returnValue
    | .descriptor => descriptor
    | _ => 0
  text _ := ""
  bytes _ := []
  isNull _ := false

/-- A descriptor is duplicated, closed, and another one is duplicated to its number. -/
def dupRows : List (SysCallKind × Row) :=
  [(.umask, fdRow 0 0 0), (.dup, fdRow 1 3 1), (.close, fdRow 2 0 3), (.dup, fdRow 3 3 2)]

/-- The rows of `dup` are in two extents. -/
def dupFiles : Input where
  modules := [(.umask, [[fdRow 0 0 0]]), (.close, [[fdRow 2 0 3]]),
    (.dup, [[fdRow 1 3 1], [fdRow 3 3 2]])]
  order := [1, 2, 0]
  uninitialised i := i
  singleRow := by decide
  extents := by
    simp only [List.mem_cons, List.not_mem_nil, or_false]
    rintro m (rfl | rfl | rfl) <;> simp
  loads := by
    simp only [List.mem_cons, List.not_mem_nil, or_false]
    rintro m (rfl | rfl | rfl) <;> rfl
  order_perm := by decide

theorem dupFiles_copies : dupFiles.Copies := by
  intro m hm
  simp only [dupFiles, List.mem_cons, List.not_mem_nil, or_false] at hm
  rcases hm with rfl | rfl | rfl
  · exact List.forall_mem_singleton.mpr rfl
  · exact List.forall_mem_singleton.mpr rfl
  · exact List.forall_mem_cons.mpr ⟨rfl, List.forall_mem_singleton.mpr rfl⟩

theorem dupFiles_singleThread : SingleThread dupFiles.config 1 where
  pid := by decide
  noClone := by decide
  first := ⟨[recordOfRow (.umask, fdRow 0 0 0)], by decide,
    recordOfRow (.umask, fdRow 0 0 0), by decide⟩
  increasing := by unfold Config.RowsIncreasing; decide

theorem dupFiles_leave_sequential :
    ∃ (w : World) (run : Run (worldReplay dupFiles quiet (startWorld inOrder))),
      Fair party run ∧ dupRows.foldlM (executeRow quiet) (startWorld inOrder) = some w ∧
      ∃ n, ∀ m, n ≤ m → Terminated (run.state m).files.toScheduler ∧
        (run.state m).files.scheduler.executedLog = dupRows.map recordOfRow ∧
        (run.state m).world = w := by
  obtain ⟨w, hw⟩ := Option.isSome_iff_exists.mp
    (by decide : (dupRows.foldlM (executeRow quiet) (startWorld inOrder)).isSome)
  let sys := worldReplay dupFiles quiet (startWorld inOrder)
  have hany : (sys.runVia (fun _ _ => true) sys.init
      (List.replicate 14 (.reader 0) ++ List.replicate 26 (.executor 0 0))).any
      (fun s => decide (Terminated s.files.toScheduler)) = true := by decide
  obtain ⟨s, hrun, hterm⟩ := (Option.any_eq_true _ _).mp hany
  have hs : sys.Reachable s := System.reachVia_of_runVia _ (fun _ _ _ => trivial) .init hrun
  have hids : ((allRecords dupFiles).map Record.uniqueId).Nodup := by decide
  have hmirrors : Mirrors sys _ _ _ := worldReplay_mirrors dupFiles_copies hids
  obtain ⟨run, hstart, hfair⟩ := exists_fair_of_dead party hrun fun a =>
    hmirrors.dead (hmirrors.invariant hs)
      (step_of_scheduler (step_of_terminated (of_decide_eq_true hterm) a))
  have hreach : sys.Reachable (run.state 0) := by
    rw [hstart]
    exact .init
  exact ⟨w, run, hfair, hw, fair_files_leave_sequential dupFiles_copies dupFiles_singleThread
    (fun _ _ => rfl) hids (by decide) (.cons _ (.swap _ _ _)) (by decide) hw run hreach hfair⟩

end SyscallReplayer.FileOutcome
