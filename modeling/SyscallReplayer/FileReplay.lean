import SyscallReplayer.BatchReading
import SyscallReplayer.ReplayTermination

/-!
# Replays from trace files

The reader decodes the rows of the input files, one extent of a module after
another, and queues copies of the modules. The scheduler sees of a module the
records that its rows decode to.
-/

namespace SyscallReplayer.FileReplay

open CInt ReplayModules ExtentSeries
open TransitionSystem SystemRefinement FairRuns
open Scheduler SchedulerSteps ReaderProgress RecordConservation ThreadOrder SingleThreadReplay
open QueueAccounting ReplayTermination

def record (m : ReplayModule) : Record where
  sysCallName := m.sysCallName
  uniqueId := m.common.uniqueId.toNat
  executingPid := m.common.executingPid
  timeCalled := m.common.timeCalled.toNat
  timeReturned := m.common.timeReturned.toNat
  returnValue := m.common.returnVal

/-- What they are in the copies of a module with these members. -/
def movedRecord (m : ReplayModule) : Record :=
  record { m with
    sysCallName := (movesTo m.sysCallName).getD m.sysCallName
    common := setCommon m.common }

/-- What they are when the module has decoded the row. -/
def rowRecord (kind : SysCallKind) (row : Row) : Record :=
  movedRecord ⟨kind, rowCommon kind row, 0, .none⟩

/-- The modules that have an extent, with their input. Every extent has a row, and
no module crashes when it is loaded. -/
structure Input where
  modules : List (SysCallKind × List (List Row))
  order : List Nat
  uninitialised : Nat → Int
  singleRow : ∀ m ∈ modules, BatchReading.SingleRow m.1
  extents : ∀ m ∈ modules, ∀ extent ∈ m.2, extent ≠ []
  loads : ∀ m ∈ modules, (BatchReading.loadSyscallModule m.1 m.2).isSome
  order_perm : order.Perm (List.range modules.length)

theorem flatten_ne_nil {kind : SysCallKind} {extents : List (List Row)}
    (hextents : ∀ extent ∈ extents, extent ≠ [])
    (hloads : (BatchReading.loadSyscallModule kind extents).isSome) : extents.flatten ≠ [] := by
  cases extents with
  | nil => cases hloads
  | cons extent source =>
      intro hnil
      exact hextents extent List.mem_cons_self (List.append_eq_nil_iff.mp hnil).1

namespace Input

variable (inp : Input)

def config : Config where
  modules := inp.modules.map fun m => m.2.flatten.map (rowRecord m.1)
  order := inp.order
  uninitialised := inp.uninitialised
  modules_nonempty := by
    intro rows hrows
    obtain ⟨m, hm, rfl⟩ := List.mem_map.mp hrows
    exact fun hnil =>
      flatten_ne_nil (inp.extents m hm) (inp.loads m hm) (List.map_eq_nil_iff.mp hnil)
  order_perm := by
    rw [List.length_map]
    exact inp.order_perm

def unloaded : BatchReading.Reader :=
  ⟨.umask, .ofExtent [], [], none, [], false⟩

def loaded (i : Nat) : BatchReading.Reader :=
  (inp.modules[i]?.bind fun m => BatchReading.loadSyscallModule m.1 m.2).getD unloaded

/-- Every row has a copy. -/
def Copies : Prop :=
  ∀ m ∈ inp.modules, BatchReading.Copies m.1 m.2.flatten

end Input

/-- The module objects, and the rest of the globals. The series of the scheduler
stand for the objects and are not used. -/
structure State where
  readers : Nat → BatchReading.Reader
  scheduler : Scheduler.State

def view (r : BatchReading.Reader) (i : Nat) : Series where
  current := r.decoded.elim ⟨.umask, 0, 0, 0, 0, 0⟩ movedRecord
  unread := (r.series.rest ++ r.source.flatten).map (rowRecord r.kind)
  replayerIndex := i

def State.toScheduler (s : State) : Scheduler.State :=
  { s.scheduler with series := fun i => view (s.readers i) i }

def push (i : Nat) (r : BatchReading.Reader) : Option (BatchReading.Reader × Copy) := do
  let r ← r.push
  let copy ← r.pushed.getLast?
  return (r, ⟨record copy, i, i⟩)

/-- The steps of the reader that use a module object, and all others. -/
def step (inp : Input) (s : State) (a : Action) : Option State :=
  match a, s.scheduler.reader with
  | .reader _, .carry i b => do
      let (r, copy) ← push i (s.readers i)
      return {
        readers := Function.update s.readers i r
        scheduler := { s.scheduler with
          queued := s.scheduler.queued ++ [copy]
          reader := .counting copy i b b.batchSize } }
  | .reader _, .rows i b (count + 2) =>
      match (s.readers i).hasRow with
      | (false, r) =>
          some {
            readers := Function.update s.readers i { r with finishedModules := true }
            scheduler := { s.scheduler.touch ((view r i).move i) with
              finishedModules := Function.update s.scheduler.finishedModules i true
              reader := .finishing i b } }
      | (true, r) => do
          let r ← r.prepareRow
          if count + 1 = 1 then
            return {
              readers := Function.update s.readers i r
              scheduler := { s.scheduler with reader := .rows i b (count + 1) } }
          else
            let (r, copy) ← push i r
            return {
              readers := Function.update s.readers i r
              scheduler := { s.scheduler with
                queued := s.scheduler.queued ++ [copy]
                reader := .counting copy i b (count + 1) } }
  | _, _ => (Scheduler.step inp.config s.toScheduler a).map fun t => { s with scheduler := t }

def fileReplay (inp : Input) : System State Action where
  init :=
    { readers := inp.loaded
      scheduler := { loadSyscallModules inp.config with
        queued := (List.range inp.modules.length).filterMap fun i =>
          (inp.loaded i).pushed.head?.map fun copy => ⟨record copy, inp.uninitialised i, i⟩ } }
  step := step inp

section Module

variable {kind : SysCallKind} {row : Row} {m copy : ReplayModule} {i n p : Nat}
  {rows : List Row} {r r' : BatchReading.Reader}

theorem record_of_move (h : move m = some copy) : record copy = movedRecord m := by
  obtain ⟨kind, hkind, rfl⟩ := Option.map_eq_some_iff.mp h
  simp only [movedRecord, hkind, Option.getD_some]
  rfl

theorem movedRecord_of_row (h : BatchReading.recordOf kind row = some m) :
    movedRecord m = rowRecord kind row := by
  obtain ⟨members, -, heq⟩ := Option.bind_eq_some_iff.mp h
  obtain rfl := Option.some.inj heq
  rfl

theorem push_eq_some {c : Copy} (h : push i r = some (r', c)) :
    r.push = some r' ∧ c = (view r i).move i ∧ view r' i = view r i := by
  obtain ⟨r₁, hpush, hrest⟩ := Option.bind_eq_some_iff.mp h
  obtain ⟨copy, hlast, heq⟩ := Option.bind_eq_some_iff.mp hrest
  cases heq
  obtain ⟨m, hdecoded, hmoved⟩ := Option.bind_eq_some_iff.mp hpush
  obtain ⟨copy', hmove, heq⟩ := Option.bind_eq_some_iff.mp hmoved
  cases heq
  rw [List.getLast?_concat] at hlast
  cases hlast
  refine ⟨hpush, ?_, rfl⟩
  simp only [Series.move, view, hdecoded, Option.elim_some, record_of_move hmove]

theorem isSome_push (h : r.push.isSome) : (push i r).isSome := by
  obtain ⟨r', hpush⟩ := Option.isSome_iff_exists.mp h
  obtain ⟨m, hdecoded, hmoved⟩ := Option.bind_eq_some_iff.mp hpush
  obtain ⟨copy, hmove, heq⟩ := Option.bind_eq_some_iff.mp hmoved
  cases heq
  simp only [push, hpush, Option.bind_eq_bind, Option.bind_some, List.getLast?_concat]
  rfl

end Module

/-- The object of module `i` has decoded one row or more, and pushed the copies of
all of them but a last one that it still holds. -/
def Reads (kind : SysCallKind) (rows : List Row) (t : Scheduler.State) (i : Nat)
    (r : BatchReading.Reader) : Prop :=
  ∃ n, BatchReading.Progress kind rows (n + 1) (if holdsRow t i t.reader then n else n + 1)
    (t.finishedModules i) r

structure Inv (inp : Input) (s : State) : Prop where
  scheduled : (replay inp.config).Reachable s.toScheduler
  reads : ∀ i m, inp.modules[i]? = some m →
    Reads m.1 m.2.flatten s.toScheduler i (s.readers i)

section Step

variable {inp : Input} {s s' : State} {t t' : Scheduler.State} {kind : SysCallKind}
  {rows : List Row} {r : BatchReading.Reader} {i n p : Nat} {finished : Bool}

theorem view_of_progress (h : BatchReading.Progress kind rows (n + 1) p finished r)
    (hcopies : BatchReading.Copies kind rows) (i : Nat) :
    ∃ row, rows[n]? = some row ∧ view r i =
      ⟨rowRecord kind row, (rows.drop (n + 1)).map (rowRecord kind), i⟩ := by
  have hn : n < rows.length := h.bound
  have hdecoded := h.decoded n rfl
  rw [List.getElem?_eq_getElem hn, Option.bind_some] at hdecoded
  obtain ⟨copy, hcopy⟩ := Option.isSome_iff_exists.mp (hcopies rows[n] (List.getElem_mem hn))
  obtain ⟨m, hm, -⟩ := Option.bind_eq_some_iff.mp hcopy
  refine ⟨rows[n], List.getElem?_eq_getElem hn, ?_⟩
  rw [hm] at hdecoded
  simp only [view, hdecoded, Option.elim_some, h.unread, h.sameKind, movedRecord_of_row hm]

def usesModule : ReaderPc → Bool
  | .carry _ _ => true
  | .rows _ _ (_ + 2) => true
  | _ => false

theorem frame_of_readerTransition {cfg : Config} (hpc : usesModule t.reader = false)
    (h : ReaderTransition cfg t t') :
    t'.series = t.series ∧ t'.finishedModules = t.finishedModules ∧
      t'.queued.length ≤ t.queued.length := by
  cases h with
  | prepareUmask hr c hc => exact ⟨rfl, rfl, List.length_erase_le⟩
  | carry i b hr | rowsFinish i b count hr | rowsHold i b r rest hr
  | rowsPush i b count r rest hr =>
      rw [hr] at hpc
      cases hpc
  | _ => exact ⟨rfl, rfl, Nat.le_refl _⟩

theorem frame_of_step {cfg : Config} (hreach : (replay cfg).Reachable t) {a : Action}
    (hother : ∀ pick, a = .reader pick → usesModule t.reader = false)
    (hstep : Scheduler.step cfg t a = some t') :
    t'.series = t.series ∧ t'.finishedModules = t.finishedModules ∧
      ∀ i < cfg.replayerIdx, unqueued t' i = unqueued t i := by
  cases transition_of_step hstep with
  | reader pick h =>
      obtain ⟨hseries, hfin, hqueued⟩ := frame_of_readerTransition (hother pick rfl) h
      refine ⟨hseries, hfin, ?_⟩
      cases flow_of_readerTransition (a := .reader pick) (reachable_readerInv hreach) h with
      | quiet _ _ _ hrows => exact hrows
      | deliver i c _ _ _ _ happend =>
          rw [happend, List.length_append, List.length_singleton] at hqueued
          omega
      | prepare _ _ _ _ _ _ _ _ hrows => exact hrows
      | pop _ _ he => cases he
      | repush _ _ he => cases he
      | execute _ _ he => cases he
  | executor index pick e before after he hsplit h =>
      obtain ⟨hseries, hfin, hreader, _⟩ := h.frame
      exact ⟨hseries, hfin, fun i _ => unqueued_of_frame hseries hfin hreader _ i⟩

theorem holdsRow_of_unqueued (hseries : t'.series i = t.series i)
    (hrows : unqueued t' i = unqueued t i) :
    holdsRow t' i t'.reader = holdsRow t i t.reader := by
  have hlen := congrArg List.length hrows
  simp only [unqueued, hseries] at hlen
  split at hlen <;> split at hlen <;> simp_all

theorem Reads.congr (h : Reads kind rows t i r)
    (hfin : t'.finishedModules i = t.finishedModules i)
    (hholds : holdsRow t' i t'.reader = holdsRow t i t.reader) : Reads kind rows t' i r := by
  obtain ⟨n, hprogress⟩ := h
  refine ⟨n, ?_⟩
  rw [hfin, hholds]
  exact hprogress

theorem lt_replayerIdx {m : SysCallKind × List (List Row)} (hm : inp.modules[i]? = some m) :
    i < inp.config.replayerIdx := by
  obtain ⟨hlt, _⟩ := List.getElem?_eq_some_iff.mp hm
  simpa [Config.replayerIdx, Input.config] using hlt

theorem inv_of_other (hinv : Inv inp s) {a : Action}
    (hother : ∀ pick, a = .reader pick → usesModule s.scheduler.reader = false)
    (hstep : Scheduler.step inp.config s.toScheduler a = some t) :
    State.toScheduler ⟨s.readers, t⟩ = t ∧ Inv inp ⟨s.readers, t⟩ := by
  obtain ⟨hseries, hfin, hrows⟩ := frame_of_step hinv.scheduled hother hstep
  have heq : State.toScheduler ⟨s.readers, t⟩ = t := by
    change { t with series := s.toScheduler.series } = t
    rw [← hseries]
  refine ⟨heq, ?_, fun i m hm => ?_⟩
  · rw [heq]
    exact .step hinv.scheduled trivial hstep
  · rw [heq]
    exact (hinv.reads i m hm).congr (by rw [hfin])
      (holdsRow_of_unqueued (congrFun hseries i) (hrows i (lt_replayerIdx hm)))

theorem series_update (readers : Nat → BatchReading.Reader) (i : Nat)
    (r : BatchReading.Reader) :
    (fun j => view (Function.update readers i r j) j) =
      Function.update (fun j => view (readers j) j) i (view r i) := by
  funext j
  by_cases hji : j = i
  · subst hji
    simp only [Function.update_self]
  · simp only [Function.update_of_ne hji]

theorem inv_of_module (hinv : Inv inp s) {pick : Nat}
    (hstep : Scheduler.step inp.config s.toScheduler (.reader pick) = some s'.toScheduler)
    (hreaders : s'.readers = Function.update s.readers i r)
    (hreads : ∀ m, inp.modules[i]? = some m → Reads m.1 m.2.flatten s'.toScheduler i r)
    (hother : ∀ j, j ≠ i → s'.scheduler.finishedModules j = s.scheduler.finishedModules j ∧
      holdsRow s'.toScheduler j s'.scheduler.reader =
        holdsRow s.toScheduler j s.scheduler.reader) : Inv inp s' := by
  refine ⟨.step (a := Action.reader pick) hinv.scheduled trivial hstep, fun j m hm => ?_⟩
  rw [hreaders]
  by_cases hji : j = i
  · subst hji
    rw [Function.update_self]
    exact hreads m hm
  · rw [Function.update_of_ne hji]
    exact (hinv.reads j m hm).congr (hother j hji).1 (hother j hji).2

theorem exists_module {b : Batch} (hactive : Active inp.config t i b) :
    ∃ m, inp.modules[i]? = some m ∧ m ∈ inp.modules := by
  have hi : i < inp.modules.length := by
    simpa [Config.replayerIdx, Input.config] using hactive.lt
  exact ⟨_, List.getElem?_eq_getElem hi, List.getElem_mem hi⟩

theorem carry_step (hinv : Inv inp s) (hcopies : inp.Copies) {b : Batch}
    (hpc : s.scheduler.reader = .carry i b) (pick : Nat) :
    ∃ s', step inp s (.reader pick) = some s' ∧
      Scheduler.step inp.config s.toScheduler (.reader pick) = some s'.toScheduler ∧
      Inv inp s' := by
  have hat := (reachable_readerInv hinv.scheduled).pc
  rw [show s.toScheduler.reader = .carry i b from hpc] at hat
  obtain ⟨_, hactive, _⟩ := hat
  obtain ⟨m, hm, hmem⟩ := exists_module hactive
  obtain ⟨n, hprogress⟩ := hinv.reads i m hm
  have hholds : holdsRow s.toScheduler i s.toScheduler.reader = true := by
    rw [show s.toScheduler.reader = .carry i b from hpc]
    exact if_pos rfl
  rw [hholds, if_pos rfl, hactive.unfinished] at hprogress
  obtain ⟨hpushed, htotal⟩ := BatchReading.push_yields hprogress
  obtain ⟨⟨r, c⟩, hpush⟩ := Option.isSome_iff_exists.mp
    (isSome_push (i := i) (htotal (hcopies m hmem)))
  obtain ⟨hr, rfl, hview⟩ := push_eq_some hpush
  let s' : State :=
    { readers := Function.update s.readers i r
      scheduler := { s.scheduler with
        queued := s.scheduler.queued ++ [(view (s.readers i) i).move i]
        reader := .counting ((view (s.readers i) i).move i) i b b.batchSize } }
  have hfine : step inp s (.reader pick) = some s' := by
    simp only [step, hpc, hpush, Option.bind_eq_bind, Option.bind_some]
    rfl
  have hcoarse : Scheduler.step inp.config s.toScheduler (.reader pick) =
      some s'.toScheduler := by
    have hseries := series_update s.readers i r
    rw [hview, Function.update_eq_self] at hseries
    simp only [Scheduler.step, readerStep, State.toScheduler, s', hpc, hseries]
  refine ⟨s', hfine, hcoarse, inv_of_module hinv hcoarse rfl (fun m' hm' => ?_) ?_⟩
  · cases hm.symm.trans hm'
    refine ⟨n, ?_⟩
    have hnone : holdsRow s'.toScheduler i s'.toScheduler.reader = false := if_pos rfl
    rw [hnone, if_neg Bool.false_ne_true]
    change BatchReading.Progress _ _ _ _ (s.toScheduler.finishedModules i) r
    rw [hactive.unfinished]
    exact hpushed r hr
  · intro j hji
    refine ⟨rfl, ?_⟩
    simp only [s', hpc, holdsRow, if_neg hji]
    rfl

theorem row_step (hinv : Inv inp s) {m : SysCallKind × List (List Row)}
    (hm : inp.modules[i]? = some m) (hcopies : BatchReading.Copies m.1 m.2.flatten)
    {b : Batch} {count : Nat} (hpc : s.scheduler.reader = .rows i b (count + 2))
    (hunfinished : s.scheduler.finishedModules i = false)
    (hprogress : BatchReading.Progress m.1 m.2.flatten (n + 1) (n + 1) false (s.readers i))
    (hn : n + 1 < m.2.flatten.length) (pick : Nat) :
    ∃ s', step inp s (.reader pick) = some s' ∧
      Scheduler.step inp.config s.toScheduler (.reader pick) = some s'.toScheduler ∧
      Inv inp s' := by
  have hkind := inp.singleRow m (List.mem_of_getElem? hm)
  obtain ⟨r₁, hrow, hprogress₁, hrest⟩ := BatchReading.hasRow_of_lt hprogress hn
  obtain ⟨hprepared, htotal⟩ := BatchReading.prepareRow_yields hkind hprogress₁ hrest
  obtain ⟨r₂, hprepare⟩ := Option.isSome_iff_exists.mp (htotal hcopies)
  have hprogress₂ := hprepared r₂ hprepare
  obtain ⟨row, hget, hview⟩ := view_of_progress hprogress hcopies i
  obtain ⟨row₂, hget₂, hview₂⟩ := view_of_progress hprogress₂ hcopies i
  have hunread : (view (s.readers i) i).unread =
      (view r₂ i).current :: (view r₂ i).unread := by
    rw [hview, hview₂]
    rw [List.getElem?_eq_getElem hn] at hget₂
    cases hget₂
    exact (congrArg (List.map _) (List.drop_eq_getElem_cons hn)).trans List.map_cons
  have hother : ∀ (t : Scheduler.State) (pc : ReaderPc) (j : Nat),
      t.finishedModules = s.scheduler.finishedModules → j ≠ i →
      (∀ u : Scheduler.State, holdsRow u j pc = holdsBetween u b j) →
      holdsRow t j pc = holdsRow s.toScheduler j s.scheduler.reader := by
    intro t pc j hfin hji hbetween
    rw [hbetween, hpc]
    simp only [holdsRow, if_neg hji, holdsBetween, hfin, State.toScheduler]
  cases count with
  | zero =>
      let s' : State :=
        { readers := Function.update s.readers i r₂
          scheduler := { s.scheduler with reader := .rows i b 1 } }
      have hfine : step inp s (.reader pick) = some s' := by
        simp only [step, hpc, hrow, hprepare, Option.bind_eq_bind, Option.bind_some]
        rfl
      have hcoarse : Scheduler.step inp.config s.toScheduler (.reader pick) =
          some s'.toScheduler := by
        have hseries := series_update s.readers i r₂
        simp only [Scheduler.step, readerStep, State.toScheduler, s', hpc, hseries, hunread]
        rfl
      refine ⟨s', hfine, hcoarse, inv_of_module hinv hcoarse rfl (fun m' hm' => ?_) ?_⟩
      · cases hm.symm.trans hm'
        refine ⟨n + 1, ?_⟩
        have hholds : holdsRow s'.toScheduler i s'.toScheduler.reader = true := if_pos rfl
        rw [hholds, if_pos rfl]
        change BatchReading.Progress _ _ _ _ (s.scheduler.finishedModules i) r₂
        rw [hunfinished]
        exact hprogress₂
      · exact fun j hji => ⟨rfl, hother _ _ j rfl hji fun u => if_neg hji⟩
  | succ count =>
      obtain ⟨hpushed, htotal⟩ := BatchReading.push_yields hprogress₂
      obtain ⟨⟨r₃, c⟩, hpush⟩ := Option.isSome_iff_exists.mp
        (isSome_push (i := i) (htotal hcopies))
      obtain ⟨hr, rfl, hview₃⟩ := push_eq_some hpush
      let s' : State :=
        { readers := Function.update s.readers i r₃
          scheduler := { s.scheduler with
            queued := s.scheduler.queued ++ [(view r₂ i).move i]
            reader := .counting ((view r₂ i).move i) i b (count + 2) } }
      have hfine : step inp s (.reader pick) = some s' := by
        simp only [step, hpc, hrow, hprepare, hpush, Option.bind_eq_bind, Option.bind_some]
        rfl
      have hcoarse : Scheduler.step inp.config s.toScheduler (.reader pick) =
          some s'.toScheduler := by
        have hseries := series_update s.readers i r₃
        rw [hview₃] at hseries
        simp only [Scheduler.step, readerStep, State.toScheduler, s', hpc, hseries, hunread]
        rfl
      refine ⟨s', hfine, hcoarse, inv_of_module hinv hcoarse rfl (fun m' hm' => ?_) ?_⟩
      · cases hm.symm.trans hm'
        refine ⟨n + 1, ?_⟩
        have hnone : holdsRow s'.toScheduler i s'.toScheduler.reader = false := if_pos rfl
        rw [hnone, if_neg Bool.false_ne_true]
        change BatchReading.Progress _ _ _ _ (s.scheduler.finishedModules i) r₃
        rw [hunfinished]
        exact hpushed r₃ hr
      · exact fun j hji => ⟨rfl, hother _ _ j rfl hji fun u => if_neg hji⟩

theorem finish_step (hinv : Inv inp s) {m : SysCallKind × List (List Row)}
    (hm : inp.modules[i]? = some m) (hcopies : BatchReading.Copies m.1 m.2.flatten)
    {b : Batch} {count : Nat} (hpc : s.scheduler.reader = .rows i b (count + 2))
    (hprogress : BatchReading.Progress m.1 m.2.flatten (n + 1) (n + 1) false (s.readers i))
    (hn : n + 1 = m.2.flatten.length) (pick : Nat) :
    ∃ s', step inp s (.reader pick) = some s' ∧
      Scheduler.step inp.config s.toScheduler (.reader pick) = some s'.toScheduler ∧
      Inv inp s' := by
  obtain ⟨r₁, hrow, hprogress₁⟩ : ∃ r₁, (s.readers i).hasRow = (false, r₁) ∧
      BatchReading.Progress m.1 m.2.flatten (n + 1) (n + 1) false r₁ := by
    rw [hn] at hprogress ⊢
    exact BatchReading.hasRow_of_eq hprogress
  obtain ⟨row, hget, hview⟩ := view_of_progress hprogress hcopies i
  obtain ⟨row₁, hget₁, hview₁⟩ := view_of_progress hprogress₁ hcopies i
  cases hget.symm.trans hget₁
  have hsame : view { r₁ with finishedModules := true } i = view (s.readers i) i :=
    hview₁.trans hview.symm
  have hunread : (view (s.readers i) i).unread = [] := by
    rw [hview, hn, List.drop_length]
    rfl
  let s' : State :=
    { readers := Function.update s.readers i { r₁ with finishedModules := true }
      scheduler := { s.scheduler.touch ((view r₁ i).move i) with
        finishedModules := Function.update s.scheduler.finishedModules i true
        reader := .finishing i b } }
  have hfine : step inp s (.reader pick) = some s' := by
    simp only [step, hpc, hrow]
    rfl
  have hcoarse : Scheduler.step inp.config s.toScheduler (.reader pick) =
      some s'.toScheduler := by
    have hseries := series_update s.readers i { r₁ with finishedModules := true }
    rw [hsame, Function.update_eq_self] at hseries
    simp only [Scheduler.step, readerStep, State.toScheduler, s', hpc, hseries, hunread]
    rfl
  refine ⟨s', hfine, hcoarse, inv_of_module hinv hcoarse rfl (fun m' hm' => ?_) ?_⟩
  · cases hm.symm.trans hm'
    refine ⟨n, ?_⟩
    have hnone : holdsRow s'.toScheduler i s'.toScheduler.reader = false := if_pos rfl
    rw [hnone, if_neg Bool.false_ne_true]
    change BatchReading.Progress _ _ _ _ (Function.update s.scheduler.finishedModules i true i) _
    rw [Function.update_self]
    exact { hprogress₁ with finished := rfl }
  · intro j hji
    have hne : (j : Int) ≠ i := fun h => hji (Int.natCast_inj.mp h)
    refine ⟨Function.update_of_ne hne _ _, ?_⟩
    simp only [s', hpc, holdsRow, if_neg hji, holdsBetween, State.toScheduler,
      Function.update_of_ne hne]

theorem rows_step (hinv : Inv inp s) (hcopies : inp.Copies) {b : Batch} {count : Nat}
    (hpc : s.scheduler.reader = .rows i b (count + 2)) (pick : Nat) :
    ∃ s', step inp s (.reader pick) = some s' ∧
      Scheduler.step inp.config s.toScheduler (.reader pick) = some s'.toScheduler ∧
      Inv inp s' := by
  have hat := (reachable_readerInv hinv.scheduled).pc
  have hreader : s.toScheduler.reader = .rows i b (count + 2) := hpc
  rw [hreader] at hat
  obtain ⟨_, hactive, _⟩ := hat
  obtain ⟨m, hm, hmem⟩ := exists_module hactive
  obtain ⟨n, hprogress⟩ := hinv.reads i m hm
  have hholds : holdsRow s.toScheduler i s.toScheduler.reader = false := by
    rw [hreader]
    exact (if_pos rfl).trans (beq_eq_false_iff_ne.mpr (by omega))
  rw [hholds, if_neg Bool.false_ne_true, hactive.unfinished] at hprogress
  rcases hprogress.bound.lt_or_eq with hn | hn
  · exact row_step hinv hm (hcopies m hmem) hpc hactive.unfinished hprogress hn pick
  · exact finish_step hinv hm (hcopies m hmem) hpc hprogress hn pick

theorem step_eq_other {a : Action}
    (hother : ∀ pick, a = .reader pick → usesModule s.scheduler.reader = false) :
    step inp s a = (Scheduler.step inp.config s.toScheduler a).map fun t => ⟨s.readers, t⟩ := by
  unfold step
  split
  · rename_i pick i b hpc
    have huses := hother pick rfl
    rw [hpc] at huses
    cases huses
  · rename_i pick i b count hpc
    have huses := hother pick rfl
    rw [hpc] at huses
    cases huses
  · rfl

/-- Each action does to the module objects and to what the scheduler sees of them
the same. -/
theorem step_spec (hinv : Inv inp s) (hcopies : inp.Copies) (a : Action) :
    (step inp s a = none ∧ Scheduler.step inp.config s.toScheduler a = none) ∨
      ∃ s', step inp s a = some s' ∧
        Scheduler.step inp.config s.toScheduler a = some s'.toScheduler ∧ Inv inp s' := by
  by_cases hother : ∀ pick, a = .reader pick → usesModule s.scheduler.reader = false
  · rw [step_eq_other hother]
    cases hstep : Scheduler.step inp.config s.toScheduler a with
    | none => exact .inl ⟨rfl, rfl⟩
    | some t =>
        obtain ⟨heq, hinv'⟩ := inv_of_other hinv hother hstep
        exact .inr ⟨_, rfl, congrArg some heq.symm, hinv'⟩
  · simp only [not_forall] at hother
    obtain ⟨pick, rfl, huses⟩ := hother
    cases hpc : s.scheduler.reader with
    | carry i b => exact .inr (carry_step hinv hcopies hpc pick)
    | rows i b count =>
        rw [hpc] at huses
        match count with
        | 0 | 1 => exact absurd rfl huses
        | count + 2 => exact .inr (rows_step hinv hcopies hpc pick)
    | _ =>
        rw [hpc] at huses
        exact absurd rfl huses

theorem loaded_progress {m : SysCallKind × List (List Row)} (hm : inp.modules[i]? = some m) :
    BatchReading.Progress m.1 m.2.flatten 1 1 false (inp.loaded i) := by
  have hmem := List.mem_of_getElem? hm
  obtain ⟨r, hr⟩ := Option.isSome_iff_exists.mp (inp.loads m hmem)
  have heq : inp.loaded i = r := by
    simp only [Input.loaded, hm, Option.bind_some, hr, Option.getD_some]
  rw [heq]
  exact BatchReading.load_yields (inp.singleRow m hmem) (inp.extents m hmem) r hr

theorem rows_config {m : SysCallKind × List (List Row)} (hm : inp.modules[i]? = some m) :
    inp.config.rows i = m.2.flatten.map (rowRecord m.1) := by
  simp only [Config.rows, Input.config, List.getD_eq_getElem?_getD, List.getElem?_map, hm,
    Option.map_some, Option.getD_some]

theorem loaded_pushed {m : SysCallKind × List (List Row)} (hm : inp.modules[i]? = some m) :
    (inp.loaded i).pushed.head?.map record = (inp.config.rows i).head? := by
  have hpushed := (loaded_progress hm).pushed
  rw [rows_config hm]
  cases hrows : m.2.flatten with
  | nil =>
      have hbound := (loaded_progress hm).bound
      rw [hrows] at hbound
      exact absurd hbound (by decide)
  | cons row rest =>
      rw [hrows] at hpushed
      obtain ⟨copy, hcopy, hcopyOf⟩ := List.map_eq_singleton_iff.mp hpushed
      obtain ⟨held, hrecord, hmove⟩ := Option.bind_eq_some_iff.mp hcopyOf.symm
      rw [hcopy, List.head?_cons, Option.map_some, record_of_move hmove,
        movedRecord_of_row hrecord, List.map_cons, List.head?_cons]

theorem init_toScheduler (hcopies : inp.Copies) :
    (fileReplay inp).init.toScheduler = loadSyscallModules inp.config := by
  have hqueued : (List.range inp.modules.length).filterMap (fun i =>
      (inp.loaded i).pushed.head?.map fun copy => (⟨record copy, inp.uninitialised i, i⟩ : Copy)) =
      (List.range inp.config.replayerIdx).filterMap inp.config.firstCopy := by
    have hidx : inp.config.replayerIdx = inp.modules.length := List.length_map ..
    rw [hidx]
    refine List.filterMap_congr fun i hi => ?_
    have hm := List.getElem?_eq_getElem (List.mem_range.mp hi)
    rw [Config.firstCopy, ← loaded_pushed hm, Option.map_map]
    rfl
  have hseries : (fun i => view (inp.loaded i) i) = (loadSyscallModules inp.config).series := by
    funext i
    rcases Nat.lt_or_ge i inp.modules.length with hi | hi
    · have hm := List.getElem?_eq_getElem hi
      obtain ⟨row, hrow, hview⟩ := view_of_progress (loaded_progress hm)
        (hcopies _ (List.getElem_mem hi)) i
      have hrows := rows_config hm
      cases hflatten : inp.modules[i].2.flatten with
      | nil =>
          rw [hflatten] at hrow
          cases hrow
      | cons first rest =>
          rw [hflatten] at hrow hview hrows
          cases hrow
          simp only [loadSyscallModules, hrows, hview]
          rfl
    · have hnone := List.getElem?_eq_none hi
      have hrows : inp.config.rows i = [] := by
        simp only [Config.rows, Input.config, List.getD_eq_getElem?_getD, List.getElem?_map,
          hnone, Option.map_none, Option.getD_none]
      have hunloaded : inp.loaded i = Input.unloaded := by
        simp only [Input.loaded, hnone, Option.bind_none, Option.getD_none]
      simp only [loadSyscallModules, hrows, hunloaded]
      rfl
  simp only [fileReplay, State.toScheduler, hqueued, hseries]
  rfl

theorem fileReplay_mirrors (hcopies : inp.Copies) :
    Mirrors (fileReplay inp) (replay inp.config) State.toScheduler (Inv inp) where
  init := init_toScheduler hcopies
  invariant_init := by
    refine ⟨?_, fun i m hm => ⟨0, ?_⟩⟩
    · rw [init_toScheduler hcopies]
      exact .init
    · exact loaded_progress hm
  invariant_step := by
    intro s s' a hinv hstep
    rcases step_spec hinv hcopies a with ⟨hnone, _⟩ | ⟨t, ht, _, hinv'⟩
    · cases hnone.symm.trans hstep
    · cases ht.symm.trans hstep
      exact hinv'
  step := by
    intro s a hinv
    change (step inp s a).map State.toScheduler = Scheduler.step inp.config s.toScheduler a
    rcases step_spec hinv hcopies a with ⟨hnone, hcoarse⟩ | ⟨t, ht, hcoarse, _⟩
    · rw [hnone, hcoarse]
      rfl
    · rw [ht, hcoarse]
      rfl

/-- The copies that a module has pushed are those of its first rows, in the order of
the files; the other rows are not queued. -/
theorem Inv.pushed (hinv : Inv inp s) (hcopies : inp.Copies)
    {m : SysCallKind × List (List Row)} (hm : inp.modules[i]? = some m) :
    ∃ p, (s.readers i).pushed.map some =
        (m.2.flatten.take p).map (BatchReading.copyOf m.1) ∧
      unqueued s.toScheduler i = (m.2.flatten.drop p).map (rowRecord m.1) := by
  obtain ⟨n, hprogress⟩ := hinv.reads i m hm
  obtain ⟨row, hrow, hview⟩ :=
    view_of_progress hprogress (hcopies m (List.mem_of_getElem? hm)) i
  obtain ⟨hn, rfl⟩ := List.getElem?_eq_some_iff.mp hrow
  refine ⟨_, hprogress.pushed, ?_⟩
  have hseries : s.toScheduler.series i = view (s.readers i) i := rfl
  rw [unqueued, hseries, hview]
  split
  · exact (List.map_cons (f := rowRecord m.1)).symm.trans
      (congrArg (List.map _) (List.drop_eq_getElem_cons hn)).symm
  · rfl

end Step

/-- The scheduler goes through the states that a replay from the files shows it, and
what it has not queued are the rows that the modules have not pushed. -/
theorem file_replay_reachable_iff {inp : Input} (hcopies : inp.Copies) (t : Scheduler.State) :
    (replay inp.config).Reachable t ↔ ∃ s, (fileReplay inp).Reachable s ∧ s.toScheduler = t ∧
      ∀ i m, inp.modules[i]? = some m → ∃ p,
        (s.readers i).pushed.map some =
          (m.2.flatten.take p).map (BatchReading.copyOf m.1) ∧
        unqueued t i = (m.2.flatten.drop p).map (rowRecord m.1) := by
  have hmirrors := fileReplay_mirrors hcopies
  rw [hmirrors.reachable_iff t]
  constructor
  · rintro ⟨s, hs, rfl⟩
    exact ⟨s, hs, rfl, fun i m hm => (hmirrors.invariant hs).pushed hcopies hm⟩
  · rintro ⟨s, hs, heq, _⟩
    exact ⟨s, hs, heq⟩

def pidRow (id : Int) : Row where
  int := fun
    | .unique_id => id
    | .executing_pid => 7
    | _ => 0
  text _ := ""
  bytes _ := []
  isNull _ := false

def closeFiles : Input where
  modules := [(.umask, [[pidRow 0]]), (.close, [[pidRow 1], [pidRow 2]])]
  order := [1, 0]
  uninitialised i := i
  singleRow := by decide
  extents := by
    intro m hm
    rcases List.mem_pair.mp hm with rfl | rfl
    · exact List.forall_mem_singleton.mpr (List.cons_ne_nil _ _)
    · exact List.forall_mem_cons.mpr ⟨List.cons_ne_nil _ _,
        List.forall_mem_singleton.mpr (List.cons_ne_nil _ _)⟩
  loads := by
    intro m hm
    rcases List.mem_pair.mp hm with rfl | rfl
    · rfl
    · rfl
  order_perm := by decide

theorem closeFiles_copies : closeFiles.Copies := by
  intro m hm
  rcases List.mem_pair.mp hm with rfl | rfl
  · exact List.forall_mem_singleton.mpr rfl
  · exact List.forall_mem_cons.mpr ⟨rfl, List.forall_mem_singleton.mpr rfl⟩

/-- The reader to its end. -/
theorem closeFiles_read :
    ∃ t, t.reader = .done ∧ ∃ s, (fileReplay closeFiles).Reachable s ∧ s.toScheduler = t ∧
      ∀ i m, closeFiles.modules[i]? = some m → ∃ p,
        (s.readers i).pushed.map some =
          (m.2.flatten.take p).map (BatchReading.copyOf m.1) ∧
        unqueued t i = (m.2.flatten.drop p).map (rowRecord m.1) := by
  obtain ⟨t, hreach, hdone⟩ := (replay closeFiles.config).exists_reachable
    (List.replicate 11 (.reader 0)) (fun t => decide (t.reader = .done)) (by decide)
  exact ⟨t, of_decide_eq_true hdone, (file_replay_reachable_iff closeFiles_copies t).mp hreach⟩

def allRecords (inp : Input) : List Record :=
  inp.modules.flatMap fun m => m.2.flatten.map (rowRecord m.1)

theorem allRecords_config (inp : Input) : allRecords inp = inp.config.records :=
  List.flatMap_def ..

/-- Files of a single thread: whatever a fair schedule does, each row of each file is
queued once and executed, in the order of the ids. -/
theorem fair_file_replay_terminates {inp : Input} (hcopies : inp.Copies) {pid : Int}
    (hsingle : SingleThread inp.config pid) (hidx : inp.config.IndexedCopies)
    (hsize : ((allRecords inp).length : Int) + 100 < longLongMax) (run : Run (fileReplay inp))
    (hstart : (fileReplay inp).Reachable (run.state 0)) (hfair : Fair party run) :
    ∃ n, Terminated (run.state n).toScheduler ∧
      (run.state n).scheduler.executedLog.Perm (allRecords inp) ∧
      ((run.state n).scheduler.executedLog.Pairwise fun r r' => r.uniqueId ≤ r'.uniqueId) ∧
      ∀ i m, inp.modules[i]? = some m →
        ((run.state n).readers i).pushed.map some =
          m.2.flatten.map (BatchReading.copyOf m.1) := by
  have hmirrors := fileReplay_mirrors hcopies
  have hinv := hmirrors.invariant hstart
  rw [allRecords_config] at hsize ⊢
  obtain ⟨n, -, hterm⟩ := eventually_terminated hsingle hidx hsize
    (run.mirror hmirrors hinv) hinv.scheduled (hfair.mirror hmirrors hinv) 0
  have hinv_n := run.mirrored_invariant hmirrors hinv n
  obtain ⟨hperm, hsorted⟩ := executedLog_of_terminated hsingle hidx hinv_n.scheduled hterm
  refine ⟨n, hterm, hperm, hsorted, fun i m hm => ?_⟩
  have hfin := finished_of_checkModulesFinished
    ((reachable_course hsingle hidx hsize hinv_n.scheduled).done hterm.1)
    (lt_replayerIdx hm)
  obtain ⟨p, hpushed, hrest⟩ := hinv_n.pushed hcopies hm
  rw [unqueued_of_finished (reachable_readerInv hinv_n.scheduled) (lt_replayerIdx hm) hfin] at hrest
  have hp : m.2.flatten.length ≤ p := List.drop_eq_nil_iff.mp (List.map_eq_nil_iff.mp hrest.symm)
  rw [hpushed, List.take_of_length_le hp]

theorem closeFiles_singleThread : SingleThread closeFiles.config 7 where
  pid := by decide
  noClone := by decide
  first := ⟨[rowRecord .umask (pidRow 0)], by decide, rowRecord .umask (pidRow 0), by decide⟩
  increasing := by unfold Config.RowsIncreasing; decide

/-- The reader to its end, then the executor to its end. -/
theorem closeFiles_terminates :
    ∃ run : Run (fileReplay closeFiles), Fair party run ∧
      ∃ n, Terminated (run.state n).toScheduler ∧
        (run.state n).scheduler.executedLog.Perm (allRecords closeFiles) ∧
        ((run.state n).scheduler.executedLog.Pairwise fun r r' =>
          r.uniqueId ≤ r'.uniqueId) ∧
        ∀ i m, closeFiles.modules[i]? = some m →
          ((run.state n).readers i).pushed.map some =
            m.2.flatten.map (BatchReading.copyOf m.1) := by
  let schedule : List Action :=
    List.replicate 11 (.reader 0) ++ List.replicate 18 (.executor 0 0)
  have hany : ((fileReplay closeFiles).runVia (fun _ _ => true) (fileReplay closeFiles).init
      schedule).any (fun s => decide (Terminated s.toScheduler)) = true := by decide
  obtain ⟨s, hrun, hterm⟩ := (Option.any_eq_true _ _).mp hany
  have hs : (fileReplay closeFiles).Reachable s :=
    System.reachVia_of_runVia _ (fun _ _ _ => trivial) .init hrun
  have hmirrors := fileReplay_mirrors closeFiles_copies
  obtain ⟨run, hstart, hfair⟩ := exists_fair_of_dead party hrun fun a =>
    hmirrors.dead (hmirrors.invariant hs) (step_of_terminated (of_decide_eq_true hterm) a)
  have hreach : (fileReplay closeFiles).Reachable (run.state 0) := by
    rw [hstart]
    exact .init
  exact ⟨run, hfair, fair_file_replay_terminates closeFiles_copies closeFiles_singleThread
    (fun _ _ => rfl) (by decide) run hreach hfair⟩

end SyscallReplayer.FileReplay
