import SyscallReplayer.PointerSafety
import SyscallReplayer.RecordConservation

/-!
# The scheduler over the pointers

What the scheduler is told of a state of the pointers are the copies behind them. Its
comparison is one step, so that the two levels agree on the runs in which nobody else
steps while an executor is in the loop over the table.
-/

namespace SyscallReplayer.PointerRefinement

open CInt TransitionSystem ObjectHeap CopyPointers PointerSteps CopyOwnership PointerSafety
open Scheduler (Record Copy Config Action ReaderPc ExecutorPc replay)

/-- What stands for a copy where there is none. -/
def noCopy : Copy :=
  ⟨⟨.umask, 0, 0, 0, 0, 0⟩, 0, 0⟩

/-- The copy at an address, deleted or not. -/
def content (h : Heap Copy) (p : Nat) : Copy :=
  h.objects.getD p noCopy

def shownReader (h : Heap Copy) : ReaderPlace → ReaderPc
  | .prepare => .prepare
  | .modules b => .modules b
  | .carry i b => .carry i b
  | .rows i b count => .rows i b count
  | .counting p i b count => .counting (content h p) i b count
  | .finishing i b => .finishing i b
  | .check => .check
  | .spin | .draining => .spin
  | .done => .done

def shownPlace (c : Copy) : Place → ExecutorPc
  | .top => .top
  | .popped => .popped c
  | .guard => .guard c
  | .guarded => .guarded c
  | .registered | .running => .running c
  | .validating | .comparing _ | .following _ _ => .validating c
  | .admitted => .admitted c
  | .rejected => .rejected c
  | .parked => .parked c
  | .repushed => .repushed c
  | .executed => .executed c
  | .storing lastId => .storing lastId
  | .leaving => .leaving
  | .exited => .exited

/-- The copy that an executor holds. -/
def shownCopy (h : Heap Copy) (e : Executor) : Copy :=
  e.executeReplayer.elim noCopy (content h)

def shownExecutor (h : Heap Copy) (e : Executor) : Scheduler.Executor :=
  ⟨e.threadID, shownPlace (shownCopy h e) e.place⟩

def shownEntry (h : Heap Copy) (entry : Int × Option Nat) : Int × Option Copy :=
  (entry.1, entry.2.map (content h))

def shown (s : State) : Scheduler.State where
  series := s.series
  queued := s.queued.map fun entry => content s.heap entry.2
  numberOfSyscalls := s.numberOfSyscalls
  finishedModules := s.finishedModules
  nThreads := s.nThreads
  lastExecutedSyscallID := s.lastExecutedSyscallID
  currentExecutions := s.currentExecutions.map (shownEntry s.heap)
  executors := s.executors.map (shownExecutor s.heap)
  reader := shownReader s.heap s.reader
  executedLog := s.executedLog
  touched := s.touched

/-- The heaps have the same copies, in any order. -/
def Shows (s : State) (t : Scheduler.State) : Prop :=
  ∃ queued, queued.Perm (shown s).queued ∧ t = { shown s with queued := queued }

def inLoop (e : Executor) : Bool :=
  match e.place with
  | .comparing _ | .following _ _ => true
  | _ => false

/-- While an executor is in the loop over the table nobody else steps. -/
def Uninterrupted (s : State) (a : Action) : Prop :=
  ∀ i e, s.executors[i]? = some e → inLoop e = true → ∃ pick, a = .executor i pick

section

variable {cfg : Config} {s s' : State} {pick : Nat}

theorem content_of_deref {h : Heap Copy} {p : Nat} {c : Copy} (hc : h.deref p = some c) :
    content h p = c := by
  unfold content
  rw [List.getD_eq_getElem?_getD, Heap.getElem?_of_deref hc, Option.getD_some]

theorem content_allocate {h : Heap Copy} {p : Nat} (hp : p < h.next) (c : Copy) :
    content (h.allocate c) p = content h p := by
  unfold content Heap.allocate
  rw [List.getD_eq_getElem?_getD, List.getD_eq_getElem?_getD]
  dsimp only
  rw [List.getElem?_append_left hp]

theorem content_next (h : Heap Copy) (c : Copy) : content (h.allocate c) h.next = c := by
  unfold content Heap.allocate
  rw [List.getD_eq_getElem?_getD]
  dsimp only
  rw [Heap.next, List.getElem?_concat_length, Option.getD_some]

/-- The pointers that the scheduler is told of are addresses of copies. -/
structure Known (ps : Pointers) : Prop where
  queued : ∀ entry ∈ ps.queued, entry.2 < ps.heap.next
  table : ∀ tid p, (tid, some p) ∈ ps.currentExecutions → p < ps.heap.next
  executors : ∀ e ∈ ps.executors, ∀ p, e.executeReplayer = some p → p < ps.heap.next

theorem known_of_owning {ps : Pointers} (h : Owning ps) : Known ps where
  queued entry hentry := (h.live_queued hentry).1
  table tid p hmem := by
    obtain ⟨c, hc, -⟩ := h.keys tid p hmem
    exact (List.getElem?_eq_some_iff.mp hc).1
  executors e he p hp := by
    obtain ⟨c, hc, -⟩ := h.pids e he p (.inl hp)
    exact (List.getElem?_eq_some_iff.mp hc).1

/-- A new copy does not show until a heap has it. -/
theorem shown_allocate (h : Known s.toPointers) (c : Copy) (r : ReaderPlace) :
    shown { s with heap := s.heap.allocate c, reader := r } =
      { shown s with reader := shownReader (s.heap.allocate c) r } := by
  have hqueued : (s.queued.map fun entry => content (s.heap.allocate c) entry.2) =
      s.queued.map fun entry => content s.heap entry.2 :=
    List.map_congr_left fun entry hentry => content_allocate (h.queued entry hentry) c
  have htable : s.currentExecutions.map (shownEntry (s.heap.allocate c)) =
      s.currentExecutions.map (shownEntry s.heap) := by
    refine List.map_congr_left fun ⟨tid, running⟩ hmem => ?_
    cases running with
    | none => rfl
    | some p =>
        unfold shownEntry
        rw [Option.map_some, Option.map_some, content_allocate (h.table tid p hmem)]
  have hexecutors : s.executors.map (shownExecutor (s.heap.allocate c)) =
      s.executors.map (shownExecutor s.heap) := by
    refine List.map_congr_left fun e he => ?_
    unfold shownExecutor shownCopy
    cases hp : e.executeReplayer with
    | none => rfl
    | some p =>
        rw [Option.elim_some, Option.elim_some, content_allocate (h.executors e he p hp)]
  unfold shown
  dsimp only
  rw [hqueued, htable, hexecutors]

theorem shown_pushCopy (h : Known s.toPointers) (c : Copy) (i : Nat) (b : Scheduler.Batch)
    (count : Nat) : shown (s.pushCopy c fun p => .counting p i b count) = { shown s with
      queued := (shown s).queued ++ [c]
      reader := .counting c i b count } := by
  have hallocate := shown_allocate h c .check
  have hqueued := congrArg Scheduler.State.queued hallocate
  have htable := congrArg Scheduler.State.currentExecutions hallocate
  have hexecutors := congrArg Scheduler.State.executors hallocate
  unfold shown at hqueued htable hexecutors ⊢
  unfold State.pushCopy shownReader
  dsimp only at hqueued htable hexecutors ⊢
  rw [List.map_append, hqueued, htable, hexecutors, List.map_singleton, content_next]

variable {t : Scheduler.State} {tid : Int} {p : Nat} {c : Copy}

theorem executingPid_content {ps : Pointers} (h : PidOf ps p tid) :
    (content ps.heap p).record.executingPid = tid := by
  obtain ⟨c, hc, rfl⟩ := h
  rw [content, List.getD_eq_getElem?_getD, hc, Option.getD_some]

/-- A copy is in a heap of the scheduler when a pointer to it is in that heap. -/
theorem mem_heap_iff (hown : Owning s.toPointers) (hqueued : t.queued.Perm (shown s).queued) :
    c ∈ t.queued ∧ c.record.executingPid = tid ↔
      ∃ p, (tid, p) ∈ s.queued ∧ content s.heap p = c := by
  rw [hqueued.mem_iff]
  constructor
  · rintro ⟨hc, hpid⟩
    obtain ⟨⟨tid', p⟩, hmem, rfl⟩ := List.mem_map.mp hc
    obtain rfl : tid' = tid := (executingPid_content (hown.heaps tid' p hmem)).symm.trans hpid
    exact ⟨p, hmem, rfl⟩
  · rintro ⟨p, hmem, rfl⟩
    exact ⟨List.mem_map_of_mem (f := fun entry => content s.heap entry.2) hmem,
      executingPid_content (hown.heaps tid p hmem)⟩

theorem executionHeap_eq_nil_iff (hown : Owning s.toPointers)
    (hqueued : t.queued.Perm (shown s).queued) :
    t.executionHeap tid = [] ↔ s.executionHeap tid = [] := by
  rw [RecordConservation.executionHeap_eq_nil, List.eq_nil_iff_forall_not_mem]
  constructor
  · intro h p hp
    have hmem := (mem_heap_iff hown hqueued).mpr ⟨p, mem_executionHeap.mp hp, rfl⟩
    exact h _ hmem.1 hmem.2
  · intro h c hc hpid
    obtain ⟨p, hp, -⟩ := (mem_heap_iff hown hqueued).mp ⟨hc, hpid⟩
    exact h p (mem_executionHeap.mpr hp)

theorem before_eq (hown : Owning s.toPointers) {q : Nat} (hp : (tid, p) ∈ s.queued)
    (hq : (tid, q) ∈ s.queued) : s.before p q =
      decide ((content s.heap p).record.uniqueId ≤ (content s.heap q).record.uniqueId) := by
  obtain ⟨c, hc⟩ : ∃ c, s.heap.deref p = some c := (hown.live_queued hp).exists_deref
  obtain ⟨c', hc'⟩ : ∃ c', s.heap.deref q = some c' := (hown.live_queued hq).exists_deref
  unfold Pointers.before
  rw [hc, hc', Option.any_some, Option.all_some, content_of_deref hc, content_of_deref hc']

theorem mem_minima_iff (hown : Owning s.toPointers) (hqueued : t.queued.Perm (shown s).queued) :
    c ∈ t.minima tid ↔ ∃ p, p ∈ s.minima tid ∧ content s.heap p = c := by
  rw [RecordConservation.mem_minima]
  constructor
  · rintro ⟨hc, hpid, hmin⟩
    obtain ⟨p, hp, rfl⟩ := (mem_heap_iff hown hqueued).mp ⟨hc, hpid⟩
    refine ⟨p, List.mem_filter.mpr ⟨mem_executionHeap.mpr hp, ?_⟩, rfl⟩
    refine List.all_eq_true.mpr fun q hq => ?_
    have hq := mem_executionHeap.mp hq
    rw [before_eq hown hp hq]
    have hother := (mem_heap_iff hown hqueued).mpr ⟨q, hq, rfl⟩
    exact decide_eq_true (hmin _ hother.1 hother.2)
  · rintro ⟨p, hp, rfl⟩
    obtain ⟨hheap, hall⟩ := List.mem_filter.mp hp
    have hp := mem_executionHeap.mp hheap
    obtain ⟨hc, hpid⟩ := (mem_heap_iff hown hqueued).mpr ⟨p, hp, rfl⟩
    refine ⟨hc, hpid, fun c' hc' hpid' => ?_⟩
    obtain ⟨q, hq, rfl⟩ := (mem_heap_iff hown hqueued).mp ⟨hc', hpid'⟩
    have hbefore := List.all_eq_true.mp hall q (mem_executionHeap.mpr hq)
    rw [before_eq hown hp hq] at hbefore
    exact of_decide_eq_true hbefore

/-- The pop of a copy and that of its pointer. -/
theorem erase_perm (hp : (tid, p) ∈ s.queued) (hqueued : t.queued.Perm (shown s).queued) :
    (t.queued.erase (content s.heap p)).Perm
      ((s.queued.erase (tid, p)).map fun entry => content s.heap entry.2) := by
  have hcons := (List.perm_cons_erase hp).map fun entry => content s.heap entry.2
  have herase := (hqueued.trans hcons).erase (content s.heap p)
  rw [List.map_cons, List.erase_cons_head] at herase
  exact herase

theorem shows_of_eq {t' : Scheduler.State} (h : shown s' = t') (hqueued : t.queued.Perm t'.queued)
    (ht : t = { t' with queued := t.queued }) : Shows s' t :=
  ⟨t.queued, hqueued.trans (.of_eq (congrArg Scheduler.State.queued h).symm), h ▸ ht⟩

/-- Off the set-up and the inner loop the reader does the same at both levels. -/
theorem reader_rel (hknown : Known s.toPointers)
    (hcounting : ∀ p i b count, s.reader = .counting p i b count → s.heap.Live p)
    (hprepare : s.reader ≠ .prepare) (hdraining : s.reader ≠ .draining) (hshows : Shows s t) :
    Option.Rel Shows (readerStep cfg s pick) (Scheduler.readerStep cfg t pick) := by
  obtain ⟨queued, hqueued, rfl⟩ := hshows
  cases hreader : s.reader with
  | prepare => exact absurd hreader hprepare
  | draining => exact absurd hreader hdraining
  | modules b =>
      simp only [readerStep, Scheduler.readerStep, shown, hreader, shownReader]
      cases b.todo with
      | nil =>
          dsimp only
          split
          · refine .some ⟨queued, hqueued, ?_⟩
            simp only [shown, List.map_append, List.map_singleton]
            rfl
          · exact .some ⟨queued, hqueued, rfl⟩
      | cons i rest =>
          dsimp only
          split
          · exact .some ⟨queued, hqueued, rfl⟩
          · split
            · exact .some (shows_of_eq
                (shown_allocate (s := s.touch ((s.series i).move i)) hknown _ _) hqueued rfl)
            · exact .some ⟨queued, hqueued, rfl⟩
  | carry i b =>
      simp only [readerStep, Scheduler.readerStep, shown, hreader, shownReader]
      exact .some (shows_of_eq (shown_pushCopy hknown _ i b _) (hqueued.append_right _) rfl)
  | counting p i b count =>
      obtain ⟨c, hc⟩ := (hcounting p i b count hreader).exists_deref
      simp only [readerStep, Scheduler.readerStep, shown, hreader, shownReader, hc, Option.map_some,
        content_of_deref hc]
      exact .some ⟨queued, hqueued, rfl⟩
  | rows i b count =>
      simp only [readerStep, Scheduler.readerStep, shown, hreader, shownReader]
      rcases count with _ | _ | count
      · exact .none
      · exact .some ⟨queued, hqueued, rfl⟩
      · dsimp only
        cases (s.series i).unread with
        | nil => exact .some ⟨queued, hqueued, rfl⟩
        | cons r rest =>
            dsimp only
            split
            · exact .some ⟨queued, hqueued, rfl⟩
            · let m : Scheduler.Series := { s.series i with current := r, unread := rest }
              let prepared : State := { s with series := Function.update s.series i m }
              exact .some (shows_of_eq (shown_pushCopy (s := prepared) hknown (m.move i) i b
                (count + 1)) (hqueued.append_right _) rfl)
  | finishing i b =>
      simp only [readerStep, Scheduler.readerStep, shown, hreader, shownReader]
      exact .some ⟨queued, hqueued, rfl⟩
  | check =>
      simp only [readerStep, Scheduler.readerStep, shown, hreader, shownReader]
      change Option.Rel Shows _ (if s.checkModulesFinished cfg then _ else _)
      split
      · exact .some ⟨queued, hqueued, rfl⟩
      · exact .some ⟨queued, hqueued, rfl⟩
  | spin =>
      simp only [readerStep, Scheduler.readerStep, shown, hreader, shownReader]
      change Option.Rel Shows _ (if s.getMinSyscall cfg > _ then _ else _)
      split
      · exact .some ⟨queued, hqueued, rfl⟩
      · exact .some ⟨queued, hqueued, rfl⟩
  | done =>
      simp only [readerStep, Scheduler.readerStep, shown, hreader, shownReader]
      exact .none

/-- The loop has come past the entries of the other threads. -/
structure Passed (s : State) (e : Executor) (todo : List Int) : Prop where
  sequential : s.checkSequential (shownCopy s.heap e) = true
  entries : ∀ entry ∈ s.currentExecutions, entry.1 ∈ todo ∨
    Scheduler.State.compatible (shownCopy s.heap e) (entry.2.map (content s.heap)) = true

def LoopInv (s : State) (e : Executor) : Prop :=
  match e.place with
  | .comparing todo => Passed s e todo
  | .following q todo =>
      ∃ tid, (tid, some q) ∈ s.currentExecutions ∧ Passed s e (tid :: todo)
  | _ => True

theorem eq_of_keysNodup {table : List (Int × Option Nat)} (h : KeysNodup table)
    {x y : Option Nat} (hx : (tid, x) ∈ table) (hy : (tid, y) ∈ table) : x = y := by
  have hinj := List.inj_on_of_nodup_map h hx hy rfl
  exact (Prod.mk.inj hinj).2

theorem compatible_of_times {check compare : Copy}
    (hreturns : check.record.timeCalled ≤ check.record.timeReturned) :
    Scheduler.State.compatible check (some compare) = compatibleTimes check compare := by
  change (if check = compare then true else compatibleTimes check compare) = _
  split
  · rename_i heq
    subst heq
    exact (if_pos (.inl ⟨le_rfl, hreturns⟩)).symm
  · rfl

theorem compatible_self (check : Copy) : Scheduler.State.compatible check (some check) = true :=
  if_pos rfl

variable {e e' : Executor}

theorem shownCopy_eq {c : Copy} (h : s.deref e.executeReplayer = some c) :
    shownCopy s.heap e = c := by
  obtain ⟨p, hp, hc⟩ := Option.bind_eq_some_iff.mp h
  rw [shownCopy, hp, Option.elim_some, content_of_deref hc]

/-- What the loop over the table has found when it is left. -/
def Verdict (s : State) (e : Executor) (valid : Bool) : Prop :=
  (s.checkSequential (shownCopy s.heap e) && s.currentExecutions.all fun entry =>
    Scheduler.State.compatible (shownCopy s.heap e) (entry.2.map (content s.heap))) = valid

theorem verdict_of_passed (h : Passed s e []) : Verdict s e true := by
  unfold Verdict
  rw [h.sequential, Bool.true_and, List.all_eq_true]
  intro entry hentry
  exact (h.entries entry hentry).resolve_left List.not_mem_nil

theorem verdict_of_entry {entry : Int × Option Nat} (hentry : entry ∈ s.currentExecutions)
    (h : Scheduler.State.compatible (shownCopy s.heap e) (entry.2.map (content s.heap)) = false) :
    Verdict s e false := by
  unfold Verdict
  rw [Bool.and_eq_false_iff]
  exact .inr (List.all_eq_false.mpr ⟨entry, hentry, Bool.eq_false_iff.mp h⟩)

theorem Passed.next {tid : Int} {todo : List Int} (h : Passed s e (tid :: todo))
    (hentry : ∀ entry ∈ s.currentExecutions, entry.1 = tid →
      Scheduler.State.compatible (shownCopy s.heap e) (entry.2.map (content s.heap)) = true) :
    Passed s e todo := by
  refine ⟨h.sequential, fun entry hmem => ?_⟩
  rcases h.entries entry hmem with htodo | hpassed
  · rcases List.mem_cons.mp htodo with htid | hrest
    · exact .inr (hentry entry hmem htid)
    · exact .inl hrest
  · exact .inr hpassed

/-- The head of the loop, at an entry that nobody changes. -/
theorem compareStep_spec (hkeys : KeysNodup s.currentExecutions) {todo : List Int}
    (h : Passed s e todo) :
    (compareStep s e todo = .admitted ∧ Verdict s e true) ∨
      (compareStep s e todo = .rejected ∧ Verdict s e false) ∨
      (∃ rest, compareStep s e todo = .comparing rest ∧ Passed s e rest) ∨
        ∃ q rest tid, compareStep s e todo = .following q rest ∧
          (tid, some q) ∈ s.currentExecutions ∧ Passed s e (tid :: rest) := by
  unfold compareStep
  split
  · exact .inl ⟨rfl, verdict_of_passed h⟩
  · rename_i tid rest
    split
    · rename_i hlookup
      refine .inr (.inr (.inl ⟨rest, rfl, h.next fun entry hmem htid => ?_⟩))
      have hne := List.lookup_eq_none_iff.mp hlookup entry hmem
      rw [htid] at hne
      exact absurd hne (by rw [bne_self_eq_false]; exact Bool.false_ne_true)
    · rename_i hlookup
      exact .inr (.inl ⟨rfl, verdict_of_entry (mem_lookup hlookup) rfl⟩)
    · rename_i q hlookup
      have hmem := mem_lookup hlookup
      split
      · rename_i hown
        refine .inr (.inr (.inl ⟨rest, rfl, h.next fun ⟨tid', x⟩ hentry htid => ?_⟩))
        subst htid
        obtain rfl : x = some q := eq_of_keysNodup hkeys hentry hmem
        rw [shownCopy, hown]
        exact compatible_self _
      · exact .inr (.inr (.inr ⟨q, rest, tid, rfl, hmem, h⟩))

theorem followStep_spec (hkeys : KeysNodup s.currentExecutions) {q : Nat} {todo : List Int}
    {place : Place} (hreturns : (shownCopy s.heap e).record.timeCalled ≤
      (shownCopy s.heap e).record.timeReturned) (hmem : (tid, some q) ∈ s.currentExecutions)
    (h : Passed s e (tid :: todo)) (hstep : followStep s e q todo = some place) :
    (place = .rejected ∧ Verdict s e false) ∨ place = .comparing todo ∧ Passed s e todo := by
  obtain ⟨check, hcheck, hrest⟩ := Option.bind_eq_some_iff.mp hstep
  obtain ⟨compare, hcompare, heq⟩ := Option.bind_eq_some_iff.mp hrest
  have hplace := (Option.some.inj heq).symm
  have hcopy : shownCopy s.heap e = check := shownCopy_eq hcheck
  have hentry : Scheduler.State.compatible (shownCopy s.heap e) (some (content s.heap q)) =
      compatibleTimes check compare := by
    rw [compatible_of_times hreturns, hcopy, content_of_deref hcompare]
  split at hplace
  · rename_i htimes
    refine .inr ⟨hplace, h.next fun ⟨tid', x⟩ hother htid => ?_⟩
    subst htid
    obtain rfl : x = some q := eq_of_keysNodup hkeys hother hmem
    exact hentry.trans htimes
  · rename_i htimes
    exact .inl ⟨hplace, verdict_of_entry hmem (hentry.trans (Bool.eq_false_iff.mpr htimes))⟩

theorem shown_setRunning (s : State) (tid : Int) (syscall : Option Nat) :
    shown (s.setRunning tid syscall) =
      (shown s).setRunning tid (syscall.map (content s.heap)) := by
  unfold shown State.setRunning Scheduler.State.setRunning
  dsimp only
  rw [List.map_cons, List.filter_map]
  rfl

theorem shown_execute (s : State) (c : Copy) : shown (s.execute c) = (shown s).execute c := by
  unfold State.execute Scheduler.State.execute
  dsimp only
  cases c.record.child with
  | none => rfl
  | some pid =>
      let logged : State := { s with executedLog := s.executedLog ++ [c.record] }
      have hrunning := shown_setRunning logged pid none
      unfold shown State.setRunning Scheduler.State.setRunning at hrunning ⊢
      simp only [Scheduler.State.mk.injEq] at hrunning
      dsimp only
      rw [hrunning.2.2.2.2.2.2.1, List.map_append]
      rfl

theorem execute_with_queued (t : Scheduler.State) (queued : List Copy) (c : Copy) :
    Scheduler.State.execute { t with queued := queued } c =
      { t.execute c with queued := queued } := by
  unfold Scheduler.State.execute
  cases c.record.child <;> rfl

theorem validation_of_verdict {valid : Bool} {queued : List Copy} (h : Verdict s e valid) :
    Scheduler.State.checkExecutionValidation { shown s with queued := queued }
      (shownCopy s.heap e) = valid := by
  rw [← h]
  unfold Scheduler.State.checkExecutionValidation shown
  rw [List.all_map]
  rfl

/-- What the scheduler is told of a step of an executor: nothing, or a step. -/
def Told (cfg : Config) (s : State) (t : Scheduler.State) (e : Executor) (s₁ : State)
    (e' : Executor) : Prop :=
  (Shows s₁ t ∧ shownExecutor s₁.heap e' = shownExecutor s.heap e) ∨
    ∃ pick t₁ pc, Scheduler.executorStep cfg t e.threadID
        (shownPlace (shownCopy s.heap e) e.place) pick = some (t₁, pc) ∧
      Shows s₁ t₁ ∧ shownExecutor s₁.heap e' = ⟨e.threadID, pc⟩

/-- A move inside what is one place of the scheduler. -/
theorem shownExecutor_eq {h : Heap Copy} {place place' old : Place} (hto : place' = place)
    (hplace : e.place = old)
    (hsame : shownPlace (shownCopy h e) place = shownPlace (shownCopy h e) old) :
    shownExecutor h { e with place := place' } = shownExecutor h e := by
  rw [shownExecutor, shownExecutor, hplace, hto]
  exact congrArg (Scheduler.Executor.mk e.threadID) hsame

theorem executor_told {s₁ : State} (hown : Owning s.toPointers) (htook : Took e)
    (hkeys : KeysNodup s.currentExecutions) (hloop : LoopInv s e)
    (hreturns : inLoop e = true → (shownCopy s.heap e).record.timeCalled ≤
      (shownCopy s.heap e).record.timeReturned) (hshows : Shows s t)
    (h : executorStep cfg s e pick = some (s₁, e')) : Told cfg s t e s₁ e' := by
  have htrans := executorTransition_of_executorStep h
  have hall := hshows
  obtain ⟨queued, hqueued, rfl⟩ := hshows
  unfold Told
  rw [Took] at htook
  rw [LoopInv] at hloop
  rw [inLoop] at hreturns
  generalize hplace : e.place = place at htrans htook hloop hreturns ⊢
  cases htrans with
  | leave hempty =>
      refine .inr ⟨0, _, .leaving, ?_, hall, rfl⟩
      exact if_pos ((executionHeap_eq_nil_iff hown hqueued).mpr hempty)
  | pop p hp =>
      have hmem := mem_minima hp
      have hheap : s.executionHeap e.threadID ≠ [] :=
        List.ne_nil_of_mem (mem_executionHeap.mpr hmem)
      have hmin := (mem_minima_iff (t := { shown s with queued := queued }) hown hqueued).mpr
        ⟨p, hp, rfl⟩
      obtain ⟨pick', hpick'⟩ := List.mem_iff_getElem?.mp hmin
      refine .inr ⟨pick', _, .popped (content s.heap p), ?_,
        ⟨queued.erase (content s.heap p),
          erase_perm (t := { shown s with queued := queued }) hmem hqueued, rfl⟩, rfl⟩
      simp only [shownPlace, Scheduler.executorStep, hpick', Option.map_some]
      exact if_neg fun hempty => hheap ((executionHeap_eq_nil_iff hown hqueued).mp hempty)
  | countPop c hc =>
      rw [shownCopy_eq hc]
      refine .inr ⟨0, _, .guard c, rfl, ⟨queued, hqueued, rfl⟩, ?_⟩
      exact congrArg (fun c => Scheduler.Executor.mk e.threadID (.guard c)) (shownCopy_eq hc)
  | guardWait hguard =>
      refine .inr ⟨0, _, .guard (shownCopy s.heap e), if_pos hguard, hall, ?_⟩
      rw [shownExecutor, hplace]
      rfl
  | guardPass hguard =>
      exact .inr ⟨0, _, .guarded (shownCopy s.heap e), if_neg hguard, hall, rfl⟩
  | register =>
      obtain ⟨p, hp⟩ := htook
      refine .inr ⟨0, _, .running (shownCopy s.heap e), rfl, ⟨queued, hqueued, ?_⟩, rfl⟩
      rw [shown_setRunning, shownCopy, hp]
      rfl
  | push => exact .inl ⟨hall, shownExecutor_eq rfl hplace rfl⟩
  | manyThreads hmany =>
      exact .inr ⟨0, _, .validating (shownCopy s.heap e), if_pos hmany, hall, rfl⟩
  | oneThread hone =>
      exact .inr ⟨0, _, .admitted (shownCopy s.heap e), if_neg hone, hall, rfl⟩
  | enterLoop c hc hsequential => exact .inl ⟨hall, shownExecutor_eq rfl hplace rfl⟩
  | outOfWindow c hc hsequential =>
      refine .inr ⟨0, _, .rejected (shownCopy s.heap e), ?_, hall, rfl⟩
      have hverdict : Verdict s e false := by
        unfold Verdict
        rw [shownCopy_eq hc, hsequential, Bool.false_and]
      exact if_neg (Bool.eq_false_iff.mp (validation_of_verdict hverdict))
  | compare todo =>
      rcases compareStep_spec hkeys hloop with
        ⟨hto, hverdict⟩ | ⟨hto, hverdict⟩ | ⟨rest, hto, -⟩ | ⟨q, rest, tid, hto, -⟩
      · refine .inr ⟨0, _, .admitted (shownCopy s.heap e), ?_, hall, by rw [hto]; rfl⟩
        exact if_pos (validation_of_verdict hverdict)
      · refine .inr ⟨0, _, .rejected (shownCopy s.heap e), ?_, hall, by rw [hto]; rfl⟩
        exact if_neg (Bool.eq_false_iff.mp (validation_of_verdict hverdict))
      · exact .inl ⟨hall, shownExecutor_eq hto hplace rfl⟩
      · exact .inl ⟨hall, shownExecutor_eq hto hplace rfl⟩
  | follow q todo place hfollow =>
      obtain ⟨tid, hmem, hpassed⟩ := hloop
      rcases followStep_spec hkeys (hreturns rfl) hmem hpassed hfollow with
        ⟨rfl, hverdict⟩ | ⟨rfl, -⟩
      · refine .inr ⟨0, _, .rejected (shownCopy s.heap e), ?_, hall, rfl⟩
        exact if_neg (Bool.eq_false_iff.mp (validation_of_verdict hverdict))
      · exact .inl ⟨hall, shownExecutor_eq rfl hplace rfl⟩
  | execute c hc =>
      rw [shownCopy_eq hc]
      refine .inr ⟨0, _, .executed c, rfl, ?_, ?_⟩
      · rw [execute_with_queued]
        refine shows_of_eq (shown_execute s c) ?_ rfl
        rw [SchedulerSteps.execute_queued]
        exact hqueued
      · rw [shownExecutor, execute_heap]
        exact congrArg (fun c => Scheduler.Executor.mk e.threadID (.executed c)) (shownCopy_eq hc)
  | park =>
      refine .inr ⟨0, _, .parked (shownCopy s.heap e), rfl, ⟨queued, hqueued, ?_⟩, rfl⟩
      rw [shown_setRunning]
      rfl
  | repush p hp =>
      refine .inr ⟨0, _, .repushed (shownCopy s.heap e), rfl,
        ⟨queued ++ [shownCopy s.heap e], ?_, rfl⟩, rfl⟩
      rw [shownCopy, hp, Option.elim_some]
      simp only [shown, List.map_append, List.map_singleton]
      exact hqueued.append_right _
  | countRepush c hc =>
      rw [shownCopy_eq hc]
      exact .inr ⟨0, _, .top, rfl, ⟨queued, hqueued, rfl⟩, rfl⟩
  | readLast c hc =>
      rw [shownCopy_eq hc]
      exact .inr ⟨0, _, _, rfl, hall, rfl⟩
  | storeLast lastId => exact .inr ⟨0, _, .top, rfl, ⟨queued, hqueued, rfl⟩, rfl⟩
  | unregister =>
      refine .inr ⟨0, _, .exited, rfl, ⟨queued, hqueued, ?_⟩, rfl⟩
      unfold shown
      dsimp only
      rw [List.filter_map]
      rfl

theorem shows_set {s₁ : State} {t₁ : Scheduler.State} {index : Nat} {pc : ExecutorPc}
    (hshows : Shows s₁ t₁) (hget : s₁.executors[index]? = some e)
    (hmoved : shownExecutor s₁.heap e' = ⟨e.threadID, pc⟩) :
    Shows { s₁ with executors := s₁.executors.set index e' }
      { t₁ with executors := Scheduler.setPc t₁.executors index pc } := by
  obtain ⟨queued, hqueued, rfl⟩ := hshows
  refine ⟨queued, hqueued, ?_⟩
  have hset : Scheduler.setPc (s₁.executors.map (shownExecutor s₁.heap)) index pc =
      (s₁.executors.set index e').map (shownExecutor s₁.heap) := by
    have hget' : (s₁.executors.map (shownExecutor s₁.heap))[index]? =
        some (shownExecutor s₁.heap e) := by
      rw [List.getElem?_map, hget, Option.map_some]
    rw [List.map_set, hmoved, Scheduler.setPc, List.modify_eq_set_getElem?, hget']
    rfl
  unfold shown
  dsimp only
  rw [hset]

/-- What the scheduler is not told of. -/
theorem shows_set_self {s₁ : State} {index : Nat} (hshows : Shows s₁ t)
    (hget : s₁.executors[index]? = some e)
    (hstays : shownExecutor s₁.heap e' = shownExecutor s₁.heap e) :
    Shows { s₁ with executors := s₁.executors.set index e' } t := by
  obtain ⟨queued, hqueued, rfl⟩ := hshows
  refine ⟨queued, hqueued, ?_⟩
  have hset : (s₁.executors.set index e').map (shownExecutor s₁.heap) =
      s₁.executors.map (shownExecutor s₁.heap) := by
    obtain ⟨hlt, rfl⟩ := List.getElem?_eq_some_iff.mp hget
    rw [List.map_set, hstays, ← List.map_set, List.set_getElem_self]
  unfold shown
  dsimp only
  rw [hset]

theorem prepare_told (hown : Owning s.toPointers) (hreader : s.reader = .prepare)
    (hshows : Shows s t) (h : prepareReplay cfg s pick = some s') :
    ∃ pick t', Scheduler.readerStep cfg t pick = some t' ∧ Shows s' t' := by
  obtain ⟨queued, hqueued, rfl⟩ := hshows
  let t : Scheduler.State := { shown s with queued := queued }
  have hempty : t.executionHeap cfg.mainThreadID = [] ↔ s.executionHeap cfg.mainThreadID = [] :=
    executionHeap_eq_nil_iff hown hqueued
  have hplace : Scheduler.State.reader { shown s with queued := queued } = .prepare :=
    congrArg (shownReader s.heap) hreader
  unfold Scheduler.readerStep
  rw [hplace]
  unfold prepareReplay at h
  dsimp only at h
  split at h
  · rename_i hheap
    cases h
    exact ⟨0, _, if_pos (hempty.mpr hheap), queued, hqueued, rfl⟩
  · rename_i hheap
    split at h
    · cases h
    · rename_i p hp
      obtain ⟨c, hc, hrest⟩ := Option.bind_eq_some_iff.mp h
      split at hrest
      · rename_i humask
        cases hrest
        have hp' := List.mem_of_getElem? hp
        have hmem := mem_minima hp'
        have hmin := (mem_minima_iff (t := { shown s with queued := queued }) hown hqueued).mpr
          ⟨p, hp', content_of_deref hc⟩
        have herase := erase_perm (t := { shown s with queued := queued }) hmem hqueued
        rw [content_of_deref hc] at herase
        obtain ⟨pick', hpick'⟩ := List.mem_iff_getElem?.mp hmin
        have htable := congrArg Scheduler.State.currentExecutions
          (shown_setRunning s c.record.executingPid (some p))
        rw [Option.map_some, content_of_deref hc] at htable
        refine ⟨pick', SchedulerSteps.prepared cfg { shown s with queued := queued } c, ?_,
          queued.erase c, herase, ?_⟩
        · unfold Scheduler.prepareReplay
          dsimp only
          rw [if_neg fun hnone => hheap (hempty.mp hnone), hpick']
          exact if_pos humask
        · let t' := SchedulerSteps.prepared cfg { shown s with queued := queued } c
          exact congrArg (fun table => { t' with currentExecutions := table }) htable.symm
      · cases hrest

theorem loopInv_of_executorStep {s₁ : State} (hkeys : KeysNodup s.currentExecutions)
    (hloop : LoopInv s e) (hreturns : inLoop e = true → (shownCopy s.heap e).record.timeCalled ≤
      (shownCopy s.heap e).record.timeReturned)
    (h : executorStep cfg s e pick = some (s₁, e')) : LoopInv s₁ e' := by
  have htrans := executorTransition_of_executorStep h
  have hold := hloop
  rw [LoopInv] at hloop
  rw [inLoop] at hreturns
  generalize hplace : e.place = place at htrans hloop hreturns
  cases htrans with
  | enterLoop c hc hsequential =>
      refine ⟨?_, fun entry hentry => .inl (List.mem_map_of_mem hentry)⟩
      exact (congrArg s.checkSequential (shownCopy_eq hc)).trans hsequential
  | compare todo =>
      rcases compareStep_spec hkeys hloop with
        ⟨hto, -⟩ | ⟨hto, -⟩ | ⟨rest, hto, hpassed⟩ | ⟨q, rest, tid, hto, hmem, hpassed⟩
      · rw [LoopInv, hto]
        trivial
      · rw [LoopInv, hto]
        trivial
      · rw [LoopInv, hto]
        exact ⟨hpassed.sequential, hpassed.entries⟩
      · rw [LoopInv, hto]
        exact ⟨tid, hmem, hpassed.sequential, hpassed.entries⟩
  | follow q todo place hfollow =>
      obtain ⟨tid, hmem, hpassed⟩ := hloop
      rcases followStep_spec hkeys (hreturns rfl) hmem hpassed hfollow with
        ⟨rfl, -⟩ | ⟨rfl, hpassed'⟩
      · trivial
      · exact ⟨hpassed'.sequential, hpassed'.entries⟩
  | guardWait hguard => exact hold
  | _ => trivial

/-- A step of the reader, which the scheduler is not told of in the inner loop. -/
theorem reader_told (hown : Owning s.toPointers)
    (hcounting : ∀ p i b count, s.reader = .counting p i b count → s.heap.Live p)
    (hshows : Shows s t) (h : readerStep cfg s pick = some s') :
    Shows s' t ∨ ∃ pick t', Scheduler.readerStep cfg t pick = some t' ∧ Shows s' t' := by
  by_cases hprepare : s.reader = .prepare
  · rw [readerStep, hprepare] at h
    exact .inr (prepare_told hown hprepare hshows h)
  by_cases hdraining : s.reader = .draining
  · obtain ⟨queued, hqueued, rfl⟩ := hshows
    have hsame : shown s' = shown s := by
      rw [readerStep, hdraining] at h
      dsimp only at h
      split at h
      · cases h
        unfold shown
        rw [hdraining]
        rfl
      · cases h
        unfold shown
        rw [hdraining]
      · cases h
        unfold shown
        rw [hdraining]
        rfl
    exact .inl (shows_of_eq hsame hqueued rfl)
  · have hrel : Option.Rel Shows (readerStep cfg s pick) (Scheduler.readerStep cfg t pick) :=
      reader_rel (known_of_owning hown) hcounting hprepare hdraining hshows
    rw [h] at hrel
    generalize hstep : Scheduler.readerStep cfg t pick = next at hrel
    cases hrel with
    | some hrel => exact .inr ⟨pick, _, hstep, hrel⟩

theorem shows_init (cfg : Config) :
    Shows (pointing cfg).init (Scheduler.loadSyscallModules cfg) := by
  refine ⟨_, .of_eq ?_, rfl⟩
  change firstCopies cfg = ((firstCopies cfg).zipIdx.map _).map _
  rw [List.map_map]
  refine (List.zipIdx_map_fst 0 (firstCopies cfg)).symm.trans ?_
  refine List.map_congr_left fun ⟨c, p⟩ hmem => ?_
  change c = (firstCopies cfg).getD p noCopy
  rw [List.getD_eq_getElem?_getD, List.mk_mem_zipIdx_iff_getElem?.mp hmem, Option.getD_some]

/-- The record in the loop is one of the trace. -/
theorem returns_of_inLoop (hreturns : ∀ r ∈ cfg.records, r.timeCalled ≤ r.timeReturned)
    (hreach : (replay cfg).Reachable t) (hshows : Shows s t) (he : e ∈ s.executors)
    (hloop : inLoop e = true) : (shownCopy s.heap e).record.timeCalled ≤
      (shownCopy s.heap e).record.timeReturned := by
  obtain ⟨queued, -, rfl⟩ := hshows
  have hmem : shownExecutor s.heap e ∈ (shown s).executors := List.mem_map_of_mem he
  have hpc : RecordConservation.inHand (shownExecutor s.heap e).pc = some (shownCopy s.heap e) := by
    unfold inLoop at hloop
    unfold shownExecutor
    split at hloop
    · rename_i heq
      rw [heq]
      rfl
    · rename_i heq
      rw [heq]
      rfl
    · cases hloop
  have hhand := ThreadOrder.mem_copiesInHand.mpr ⟨_, hmem, hpc⟩
  refine hreturns _ ((RecordConservation.reachable_accounted hreach).mem_iff.mp ?_)
  refine List.mem_append_left _ (List.mem_append_right _ (List.mem_map_of_mem ?_))
  exact List.mem_append_left _ hhand

theorem LoopInv.congr (h : LoopInv s e) (executors : List Executor) :
    LoopInv { s with executors := executors } e := by
  unfold LoopInv at h ⊢
  split at h
  · exact ⟨h.sequential, h.entries⟩
  · obtain ⟨tid, hmem, hpassed⟩ := h
    exact ⟨tid, hmem, hpassed.sequential, hpassed.entries⟩
  · trivial

/-- Whoever is in the loop after a step has made it. -/
theorem loopInv_of_step {a : Action} (hinv : ∀ e ∈ s.executors, LoopInv s e)
    (hkeys : KeysNodup s.currentExecutions) (hok : Uninterrupted s a)
    (hreturns : ∀ e ∈ s.executors, inLoop e = true → (shownCopy s.heap e).record.timeCalled ≤
      (shownCopy s.heap e).record.timeReturned)
    (hstep : (pointing cfg).step s a = some s') : ∀ e ∈ s'.executors, LoopInv s' e := by
  have htrivial : ∀ {e}, inLoop e = false → LoopInv s' e := by
    intro e hout
    unfold inLoop at hout
    unfold LoopInv
    split at hout
    · cases hout
    · cases hout
    · trivial
  have hstarted : ∀ {executors : List Executor} {j : Nat} {e : Executor}, (executors = s.executors ∨
      ∃ tid, executors = s.executors ++ [startExecutor tid]) → executors[j]? = some e →
        s.executors[j]? = some e ∨ inLoop e = false := by
    rintro executors j e (rfl | ⟨tid, rfl⟩) hj
    · exact .inl hj
    · by_cases hlt : j < s.executors.length
      · rw [List.getElem?_append_left hlt] at hj
        exact .inl hj
      · rw [List.getElem?_append_right (Nat.not_lt.mp hlt)] at hj
        have hnew := List.mem_singleton.mp (List.mem_of_getElem? hj)
        rw [hnew]
        exact .inr rfl
  intro e he
  obtain ⟨j, hj⟩ := List.mem_iff_getElem?.mp he
  cases a with
  | reader pick =>
      rcases hstarted (executors_of_readerStep hstep) hj with hold | hout
      · refine htrivial (Bool.eq_false_iff.mpr fun hin => ?_)
        obtain ⟨pick', hactor⟩ := hok j e hold hin
        cases hactor
      · exact htrivial hout
  | executor index pick =>
      obtain ⟨e₀, hget, hrest⟩ := Option.bind_eq_some_iff.mp hstep
      obtain ⟨⟨s₁, e'⟩, hrun, rfl⟩ := Option.map_eq_some_iff.mp hrest
      have hmem := List.mem_of_getElem? hget
      by_cases hne : index = j
      · subst hne
        obtain rfl : e' = e := by
          obtain ⟨hlt, hself⟩ := List.getElem?_eq_some_iff.mp hj
          exact (List.getElem_set_self hlt).symm.trans hself
        exact (loopInv_of_executorStep hkeys (hinv e₀ hmem) (hreturns e₀ hmem) hrun).congr _
      · change (s₁.executors.set index e')[j]? = some e at hj
        rw [List.getElem?_set_ne hne] at hj
        rcases hstarted (executors_of_executorStep hrun) hj with hold | hout
        · refine htrivial (Bool.eq_false_iff.mpr fun hin => ?_)
          obtain ⟨pick', hactor⟩ := hok j e hold hin
          cases hactor
          exact hne rfl
        · exact htrivial hout

/-- A run of the pointers in which nobody steps while the table is compared with is one
of the scheduler, if every call returns no earlier than it is made. -/
theorem shown_reachable (hreturns : ∀ r ∈ cfg.records, r.timeCalled ≤ r.timeReturned)
    (h : (pointing cfg).ReachVia Uninterrupted s) :
    ∃ t, (replay cfg).Reachable t ∧ Shows s t := by
  have hinit : (∀ e ∈ (pointing cfg).init.executors, LoopInv (pointing cfg).init e) ∧
      ∃ t, (replay cfg).Reachable t ∧ Shows (pointing cfg).init t :=
    ⟨(fun e he => nomatch he), _, .init, shows_init cfg⟩
  refine (h.invariant (P := fun s => (∀ e ∈ s.executors, LoopInv s e) ∧
    ∃ t, (replay cfg).Reachable t ∧ Shows s t) _ hinit ?_).2
  rintro s a s' hvia ⟨hinv, t, hreach, hshows⟩ hok hstep
  have hpointing : (pointing cfg).Reachable s := hvia.mono _ fun _ _ _ _ => trivial
  have hown := reachable_owning hpointing
  have hkeys := reachable_keysNodup hpointing
  have htimes := fun e he => returns_of_inLoop (e := e) hreturns hreach hshows he
  refine ⟨loopInv_of_step hinv hkeys hok htimes hstep, ?_⟩
  cases a with
  | reader pick =>
      rcases reader_told hown (reachable_counting hpointing) hshows hstep with
        hsame | ⟨pick', t', ht', hshows'⟩
      · exact ⟨t, hreach, hsame⟩
      · exact ⟨t', .step (a := .reader pick') hreach trivial ht', hshows'⟩
  | executor index pick =>
      obtain ⟨e, hget, hrest⟩ := Option.bind_eq_some_iff.mp hstep
      obtain ⟨⟨s₁, e'⟩, hrun, rfl⟩ := Option.map_eq_some_iff.mp hrest
      have hmem := List.mem_of_getElem? hget
      have hget₁ : s₁.executors[index]? = some e := by
        rcases executors_of_executorStep hrun with heq | ⟨tid, heq⟩
        · rw [heq, hget]
        · rw [heq, List.getElem?_append_left (List.getElem?_eq_some_iff.mp hget).1, hget]
      rcases executor_told hown (reachable_took hpointing e hmem) hkeys (hinv e hmem)
        (htimes e hmem) hshows hrun with ⟨hsame, hstays⟩ | ⟨pick', t₁, pc, ht₁, hshows₁, hmoved⟩
      · rw [← (effects_of_executorStep hget hrun).2.1] at hstays
        exact ⟨t, hreach, shows_set_self hsame hget₁ hstays⟩
      · refine ⟨_, .step (a := .executor index pick') hreach trivial ?_,
          shows_set hshows₁ hget₁ hmoved⟩
        have hgetShown : t.executors[index]? = some (shownExecutor s.heap e) := by
          obtain ⟨queued, -, rfl⟩ := hshows
          change (s.executors.map (shownExecutor s.heap))[index]? = _
          rw [List.getElem?_map, hget, Option.map_some]
        change Scheduler.step cfg t (.executor index pick') = _
        unfold Scheduler.step
        dsimp only
        rw [hgetShown]
        exact Option.map_eq_some_iff.mpr ⟨(t₁, pc), ht₁, rfl⟩

end

def uninterrupted (s : State) (a : Action) : Bool :=
  s.executors.zipIdx.all fun (e, i) => !inLoop e || match a with
    | .executor index _ => i == index
    | .reader _ => false

theorem uninterrupted_of_check {s : State} {a : Action} (h : uninterrupted s a = true) :
    Uninterrupted s a := by
  intro i e hget hin
  have hactor := List.all_eq_true.mp h (e, i) (List.mk_mem_zipIdx_iff_getElem?.mpr hget)
  cases a with
  | reader pick =>
      dsimp only at hactor
      rw [hin] at hactor
      cases hactor
  | executor index pick =>
      dsimp only at hactor
      rw [hin, Bool.not_true, Bool.false_or, beq_iff_eq] at hactor
      exact ⟨pick, by rw [hactor]⟩

/-- The child passes the check against the record of the main thread, and executes its
own. -/
theorem nearTrace_shown :
    ∃ (s : State) (t : Scheduler.State), s.executedLog.map Record.uniqueId = [0, 1, 2] ∧
      s.allocationQueue.length = 3 ∧ (replay ThreadOrder.nearTrace).Reachable t ∧ Shows s t := by
  obtain ⟨s, hreach, hs⟩ := (pointing ThreadOrder.nearTrace).exists_reachVia uninterrupted
    (fun _ _ => uninterrupted_of_check)
    (List.replicate 14 (.reader 0) ++ List.replicate 14 (.executor 0 0) ++
      List.replicate 12 (.executor 1 0))
    (fun s => decide (s.executedLog.map Record.uniqueId = [0, 1, 2] ∧
      s.allocationQueue.length = 3)) (by decide)
  obtain ⟨hlog, hqueue⟩ := of_decide_eq_true hs
  obtain ⟨t, ht, hshows⟩ := shown_reachable (by decide) hreach
  exact ⟨s, t, hlog, hqueue, ht, hshows⟩

end SyscallReplayer.PointerRefinement
