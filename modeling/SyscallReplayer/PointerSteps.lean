import SyscallReplayer.CopyPointers

/-!
# What one step does to the pointers

The steps of the reader are inverted into what they do to the pointers, those of an
executor into one constructor per atomic operation.
-/

namespace SyscallReplayer.PointerSteps

open ObjectHeap CopyPointers
open Scheduler (Copy Config)

variable {cfg : Config} {s s' : State} {pick : Nat}

theorem mem_lookup {table : List (Int × Option Nat)} {tid : Int} {x : Option Nat}
    (h : table.lookup tid = some x) : (tid, x) ∈ table := by
  obtain ⟨before, after, rfl, -⟩ := List.lookup_eq_some_iff.mp h
  exact List.mem_append_right _ List.mem_cons_self

theorem mem_executionHeap {ps : Pointers} {tid : Int} {p : Nat} :
    p ∈ ps.executionHeap tid ↔ (tid, p) ∈ ps.queued := by
  constructor
  · intro h
    obtain ⟨⟨tid', q⟩, hmem, rfl⟩ := List.mem_map.mp h
    obtain ⟨hqueued, htid⟩ := List.mem_filter.mp hmem
    obtain rfl := of_decide_eq_true htid
    exact hqueued
  · intro h
    exact List.mem_map.mpr ⟨(tid, p), List.mem_filter.mpr ⟨h, decide_eq_true rfl⟩, rfl⟩

theorem mem_minima {ps : Pointers} {tid : Int} {p : Nat} (h : p ∈ ps.minima tid) :
    (tid, p) ∈ ps.queued :=
  mem_executionHeap.mp (List.mem_filter.mp h).1

/-- What a step of the reader does to the pointers. It counts a copy right after it has
pushed it. -/
inductive ReaderChange (cfg : Config) (s s' : State) : Prop
  | keep (h : s'.toPointers = s.toPointers)
      (hreader : ∀ p i b count, s'.reader ≠ .counting p i b count)
  | setUp (p : Nat) (c : Copy) (hp : (cfg.mainThreadID, p) ∈ s.queued)
      (hc : s.heap.deref p = some c)
      (h : s'.toPointers = { s.toPointers with
        queued := s.queued.erase (cfg.mainThreadID, p)
        currentExecutions := (s.setRunning c.record.executingPid (some p)).currentExecutions })
      (hreader : ∀ p i b count, s'.reader ≠ .counting p i b count)
  | start (h : s'.toPointers = { s.toPointers with
        executors := s.executors ++ [startExecutor cfg.mainThreadID] })
      (hreader : ∀ p i b count, s'.reader ≠ .counting p i b count)
  | unused (c : Copy)
      (h : s'.toPointers = { s.toPointers with heap := s.heap.allocate c })
      (hreader : ∀ p i b count, s'.reader ≠ .counting p i b count)
  | pushCopy (c : Copy) (i : Nat) (b : Scheduler.Batch) (count : Nat)
      (h : s'.toPointers = { s.toPointers with
        heap := s.heap.allocate c
        queued := s.queued ++ [(c.record.executingPid, s.heap.next)] })
      (hreader : s'.reader = .counting s.heap.next i b count)
  | deleteHead (q : Option Nat) (rest : List (Option Nat))
      (hqueue : s.allocationQueue = q :: rest)
      (h : s'.toPointers = { s.toPointers with
        heap := q.elim s.heap s.heap.delete
        allocationQueue := rest })
      (hreader : ∀ p i b count, s'.reader ≠ .counting p i b count)

theorem readerChange_of_prepareReplay (h : prepareReplay cfg s pick = some s') :
    ReaderChange cfg s s' := by
  unfold prepareReplay at h
  dsimp only at h
  split at h
  · cases h
    exact .keep rfl nofun
  · split at h
    · cases h
    · rename_i p hpick
      obtain ⟨c, hc, hrest⟩ := Option.bind_eq_some_iff.mp h
      split at hrest
      · cases hrest
        exact .setUp p c (mem_minima (List.mem_of_getElem? hpick)) hc rfl nofun
      · cases hrest

theorem readerChange_of_readerStep (h : readerStep cfg s pick = some s') :
    ReaderChange cfg s s' := by
  unfold readerStep at h
  split at h
  · exact readerChange_of_prepareReplay h
  · split at h
    · split at h
      · cases h
        exact .start rfl nofun
      · cases h
        exact .keep rfl nofun
    · dsimp only at h
      split at h
      · cases h
        exact .keep rfl nofun
      · split at h
        · cases h
          exact .unused _ rfl nofun
        · cases h
          exact .keep rfl nofun
  · cases h
    exact .pushCopy _ _ _ _ rfl rfl
  · obtain ⟨c, -, rfl⟩ := Option.map_eq_some_iff.mp h
    exact .keep rfl nofun
  · split at h
    · cases h
    · cases h
      exact .keep rfl nofun
    · split at h
      · cases h
        exact .keep rfl nofun
      · dsimp only at h
        split at h
        · cases h
          exact .keep rfl nofun
        · cases h
          exact .pushCopy _ _ _ _ rfl rfl
  · cases h
    exact .keep rfl nofun
  · split at h
    · cases h
      exact .keep rfl nofun
    · cases h
      exact .keep rfl nofun
  · split at h
    · cases h
      exact .keep rfl nofun
    · cases h
      exact .keep rfl nofun
  · rename_i hpc
    have hreader : ∀ p i b count, s.reader ≠ .counting p i b count := by
      rw [hpc]
      nofun
    split at h
    · cases h
      exact .keep rfl nofun
    · rename_i rest hqueue
      cases h
      exact .deleteHead none rest hqueue rfl hreader
    · rename_i p rest hqueue
      cases h
      exact .deleteHead (some p) rest hqueue rfl hreader
  · cases h

theorem place_of_compareStep (s : State) (e : Executor) (todo : List Int) :
    compareStep s e todo = .admitted ∨ compareStep s e todo = .rejected ∨
      (∃ rest, compareStep s e todo = .comparing rest) ∨
        ∃ tid q rest, compareStep s e todo = .following q rest ∧
          (tid, some q) ∈ s.currentExecutions := by
  unfold compareStep
  split
  · exact .inl rfl
  · rename_i tid rest
    split
    · exact .inr (.inr (.inl ⟨rest, rfl⟩))
    · exact .inr (.inl rfl)
    · rename_i q hentry
      split
      · exact .inr (.inr (.inl ⟨rest, rfl⟩))
      · exact .inr (.inr (.inr ⟨tid, q, rest, rfl, mem_lookup hentry⟩))

theorem place_of_followStep {e : Executor} {q : Nat} {todo : List Int} {place : Place}
    (h : followStep s e q todo = some place) : place = .comparing todo ∨ place = .rejected := by
  obtain ⟨check, -, hrest⟩ := Option.bind_eq_some_iff.mp h
  obtain ⟨compare, -, heq⟩ := Option.bind_eq_some_iff.mp hrest
  have hplace := (Option.some.inj heq).symm
  split at hplace
  · exact .inl hplace
  · exact .inr hplace
inductive ExecutorTransition (cfg : Config) (s : State) (e : Executor) :
    Place → State → Executor → Prop
  | leave (hempty : s.executionHeap e.threadID = []) :
      ExecutorTransition cfg s e .top s { e with place := .leaving }
  | pop (p : Nat) (hp : p ∈ s.minima e.threadID) :
      ExecutorTransition cfg s e .top { s with queued := s.queued.erase (e.threadID, p) }
        { e with place := .popped, executeReplayer := some p }
  | countPop (c : Copy) (hc : s.deref e.executeReplayer = some c) :
      ExecutorTransition cfg s e .popped ((s.decrement c.replayerIndex).touch c)
        { e with place := .guard }
  | guardWait (hguard : s.getMinSyscall cfg < 10 * s.nThreads ∧ !s.checkModulesFinished cfg) :
      ExecutorTransition cfg s e .guard s e
  | guardPass (hguard : ¬ (s.getMinSyscall cfg < 10 * s.nThreads ∧ !s.checkModulesFinished cfg)) :
      ExecutorTransition cfg s e .guard s { e with place := .guarded }
  | register :
      ExecutorTransition cfg s e .guarded (s.setRunning e.threadID e.executeReplayer)
        { e with place := .registered }
  | push :
      ExecutorTransition cfg s e .registered
        { s with allocationQueue := s.allocationQueue ++ [e.prevReplayer] }
        { e with place := .running }
  | manyThreads (hmany : s.nThreads > 1) :
      ExecutorTransition cfg s e .running s { e with place := .validating }
  | oneThread (hone : ¬ s.nThreads > 1) :
      ExecutorTransition cfg s e .running s { e with place := .admitted }
  | enterLoop (c : Copy) (hc : s.deref e.executeReplayer = some c)
      (hsequential : s.checkSequential c = true) :
      ExecutorTransition cfg s e .validating s
        { e with place := .comparing (s.currentExecutions.map Prod.fst) }
  | outOfWindow (c : Copy) (hc : s.deref e.executeReplayer = some c)
      (hsequential : s.checkSequential c = false) :
      ExecutorTransition cfg s e .validating s { e with place := .rejected }
  | compare (todo : List Int) :
      ExecutorTransition cfg s e (.comparing todo) s { e with place := compareStep s e todo }
  | follow (q : Nat) (todo : List Int) (place : Place)
      (hfollow : followStep s e q todo = some place) :
      ExecutorTransition cfg s e (.following q todo) s { e with place := place }
  | park :
      ExecutorTransition cfg s e .rejected (s.setRunning e.threadID none)
        { e with place := .parked }
  | repush (p : Nat) (hp : e.executeReplayer = some p) :
      ExecutorTransition cfg s e .parked { s with queued := s.queued ++ [(e.threadID, p)] }
        { e with place := .repushed }
  | countRepush (c : Copy) (hc : s.deref e.executeReplayer = some c) :
      ExecutorTransition cfg s e .repushed ((s.increment c.replayerIndex).touch c)
        { e with place := .top, prevReplayer := none }
  | execute (c : Copy) (hc : s.deref e.executeReplayer = some c) :
      ExecutorTransition cfg s e .admitted (s.execute c) { e with place := .executed }
  | readLast (c : Copy) (hc : s.deref e.executeReplayer = some c) :
      ExecutorTransition cfg s e .executed s
        { e with place := .storing (max s.lastExecutedSyscallID c.record.uniqueId) }
  | storeLast (lastId : Nat) :
      ExecutorTransition cfg s e (.storing lastId) { s with lastExecutedSyscallID := lastId }
        { e with place := .top, prevReplayer := e.executeReplayer }
  | unregister :
      ExecutorTransition cfg s e .leaving
        { s with currentExecutions := s.currentExecutions.filter fun x => x.1 ≠ e.threadID }
        { e with place := .exited }

theorem executorTransition_of_executorStep {e e' : Executor}
    (h : executorStep cfg s e pick = some (s', e')) :
    ExecutorTransition cfg s e e.place s' e' := by
  unfold executorStep at h
  cases hplace : e.place with
  | top =>
      rw [hplace] at h
      dsimp only at h
      split at h
      · rename_i hempty
        cases h
        exact .leave hempty
      · obtain ⟨p, hp, heq⟩ := Option.map_eq_some_iff.mp h
        cases heq
        exact .pop p (List.mem_of_getElem? hp)
  | guard =>
      rw [hplace] at h
      dsimp only at h
      split at h
      · rename_i hguard
        cases h
        exact .guardWait hguard
      · rename_i hguard
        cases h
        exact .guardPass hguard
  | running =>
      rw [hplace] at h
      dsimp only at h
      split at h
      · rename_i hmany
        cases h
        exact .manyThreads hmany
      · rename_i hone
        cases h
        exact .oneThread hone
  | validating =>
      rw [hplace] at h
      obtain ⟨c, hc, heq⟩ := Option.map_eq_some_iff.mp h
      split at heq
      · rename_i hsequential
        cases heq
        exact .enterLoop c hc hsequential
      · rename_i hsequential
        cases heq
        exact .outOfWindow c hc (Bool.eq_false_iff.mpr hsequential)
  | following q todo =>
      rw [hplace] at h
      obtain ⟨place, hfollow, heq⟩ := Option.map_eq_some_iff.mp h
      cases heq
      exact .follow q todo place hfollow
  | popped =>
      rw [hplace] at h
      obtain ⟨c, hc, heq⟩ := Option.map_eq_some_iff.mp h
      cases heq
      exact .countPop c hc
  | parked =>
      rw [hplace] at h
      obtain ⟨p, hp, heq⟩ := Option.map_eq_some_iff.mp h
      cases heq
      exact .repush p hp
  | repushed =>
      rw [hplace] at h
      obtain ⟨c, hc, heq⟩ := Option.map_eq_some_iff.mp h
      cases heq
      exact .countRepush c hc
  | admitted =>
      rw [hplace] at h
      obtain ⟨c, hc, heq⟩ := Option.map_eq_some_iff.mp h
      cases heq
      exact .execute c hc
  | executed =>
      rw [hplace] at h
      obtain ⟨c, hc, heq⟩ := Option.map_eq_some_iff.mp h
      cases heq
      exact .readLast c hc
  | guarded => rw [hplace] at h; cases h; exact .register
  | registered => rw [hplace] at h; cases h; exact .push
  | comparing todo => rw [hplace] at h; cases h; exact .compare todo
  | rejected => rw [hplace] at h; cases h; exact .park
  | storing lastId => rw [hplace] at h; cases h; exact .storeLast lastId
  | leaving => rw [hplace] at h; cases h; exact .unregister
  | exited => rw [hplace] at h; cases h

end SyscallReplayer.PointerSteps
