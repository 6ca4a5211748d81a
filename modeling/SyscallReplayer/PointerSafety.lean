import Mathlib.Order.WellFounded
import SyscallReplayer.CopyOwnership
import SyscallReplayer.CopyReclamation

/-!
# Which pointers can be followed

What has an owner is not deleted. An executor comes to a halt only where it follows a
pointer that it does not own: one read from the table, or one that it has pushed back.
-/

namespace SyscallReplayer.PointerSafety

open TransitionSystem ObjectHeap CopyPointers PointerSteps CopyOwnership
open Scheduler (Copy Config Action)

section

variable {cfg : Config} {s s' : State} {pick : Nat}

theorem keysNodup_of_effect {ps ps' : Pointers} (h : Effect ps ps')
    (hkeys : KeysNodup ps.currentExecutions) : KeysNodup ps'.currentExecutions := by
  cases h with
  | setUp tid p c hp hc => exact keysNodup_setEntry hkeys _
  | register before after e hsplit hplace => exact keysNodup_setEntry hkeys _
  | forget table hsub hnodup => exact hnodup hkeys
  | _ => exact hkeys

theorem reachable_keysNodup (h : (pointing cfg).Reachable s) : KeysNodup s.currentExecutions := by
  have hinit : KeysNodup (pointing cfg).init.currentExecutions := List.nodup_nil
  refine h.invariant (P := fun s => KeysNodup s.currentExecutions) _ hinit ?_
  intro s a s' _ hkeys _ hstep
  have heffects := effects_of_step hstep
  generalize s'.toPointers = ps' at heffects ⊢
  induction heffects with
  | refl => exact hkeys
  | tail _ hlast ih => exact keysNodup_of_effect hlast ih

/-- From a pop to its end a turn has a pointer in `execute_replayer`. -/
def Took (e : Executor) : Prop :=
  match e.place with
  | .top | .leaving | .exited => True
  | _ => ∃ p, e.executeReplayer = some p

theorem executors_of_readerStep (h : readerStep cfg s pick = some s') :
    s'.executors = s.executors ∨ ∃ tid, s'.executors = s.executors ++ [startExecutor tid] := by
  cases readerChange_of_readerStep h with
  | start h => exact .inr ⟨cfg.mainThreadID, by rw [h]⟩
  | keep h => exact .inl (by rw [h])
  | setUp p c hp hc h => exact .inl (by rw [h])
  | unused c h => exact .inl (by rw [h])
  | pushCopy c i b count h => exact .inl (by rw [h])
  | deleteHead q rest hqueue h => exact .inl (by rw [h])

theorem execute_executors (s : State) (c : Copy) :
    (s.execute c).executors = s.executors ∨
      ∃ tid, (s.execute c).executors = s.executors ++ [startExecutor tid] := by
  unfold State.execute
  cases c.record.child with
  | none => exact .inl rfl
  | some pid => exact .inr ⟨pid, rfl⟩

theorem executors_of_executorStep {e e' : Executor} {t : State}
    (h : executorStep cfg s e pick = some (t, e')) :
    t.executors = s.executors ∨ ∃ tid, t.executors = s.executors ++ [startExecutor tid] := by
  have htrans := executorTransition_of_executorStep h
  generalize e.place = place at htrans
  cases htrans with
  | execute c hc => exact execute_executors s c
  | _ => exact .inl rfl

theorem took_of_executorStep {e e' : Executor} {t : State}
    (h : executorStep cfg s e pick = some (t, e')) (htook : Took e) : Took e' := by
  have htrans := executorTransition_of_executorStep h
  have hold := htook
  rw [Took] at htook
  generalize hplace : e.place = place at htrans
  rw [hplace] at htook
  cases htrans with
  | pop p hp => exact ⟨p, rfl⟩
  | guardWait hguard => exact hold
  | compare todo =>
      rcases place_of_compareStep s e todo with heq | heq | ⟨_, heq⟩ | ⟨_, _, _, heq, -⟩
      all_goals
        rw [heq]
        exact htook
  | follow q todo place hfollow =>
      rcases place_of_followStep hfollow with rfl | rfl <;> exact htook
  | leave | countRepush | storeLast | unregister => trivial
  | _ => exact htook

theorem took_of_started {s t : State}
    (h : t.executors = s.executors ∨ ∃ tid, t.executors = s.executors ++ [startExecutor tid])
    (htook : ∀ e ∈ s.executors, Took e) : ∀ e ∈ t.executors, Took e := by
  rcases h with heq | ⟨tid, heq⟩
  · rw [heq]
    exact htook
  · rw [heq]
    intro e he
    rcases List.mem_append.mp he with hold | hnew
    · exact htook e hold
    · rw [List.mem_singleton.mp hnew]
      trivial

theorem reachable_took (h : (pointing cfg).Reachable s) : ∀ e ∈ s.executors, Took e := by
  refine h.invariant (P := fun s => ∀ e ∈ s.executors, Took e) _ (fun e he => nomatch he) ?_
  intro s a s' _ hinv _ hstep
  cases a with
  | reader pick => exact took_of_started (executors_of_readerStep hstep) hinv
  | executor index pick =>
      obtain ⟨e, hget, hrest⟩ := Option.bind_eq_some_iff.mp hstep
      obtain ⟨⟨t, e'⟩, hrun, rfl⟩ := Option.map_eq_some_iff.mp hrest
      intro e₀ he₀
      rcases List.mem_or_eq_of_mem_set he₀ with hold | rfl
      · exact took_of_started (executors_of_executorStep hrun) hinv e₀ hold
      · exact took_of_executorStep hrun (hinv e (List.mem_of_getElem? hget))

/-- The pointer that a loop is to follow has just been read from the table. -/
theorem read_of_executorStep {e e' : Executor} {t : State} {q : Nat} {todo : List Int}
    (h : executorStep cfg s e pick = some (t, e')) (hq : e'.place = .following q todo) :
    ∃ tid, (tid, some q) ∈ s.currentExecutions := by
  have htrans := executorTransition_of_executorStep h
  generalize hplace : e.place = place at htrans
  cases htrans with
  | compare rest =>
      rcases place_of_compareStep s e rest with heq | heq | ⟨_, heq⟩ | ⟨tid, _, _, heq, hmem⟩
      · cases heq.symm.trans hq
      · cases heq.symm.trans hq
      · cases heq.symm.trans hq
      · cases heq.symm.trans hq
        exact ⟨tid, hmem⟩
  | follow q' rest place hfollow =>
      rcases place_of_followStep hfollow with rfl | rfl <;> cases hq
  | guardWait hguard => cases hplace.symm.trans hq
  | _ => cases hq

theorem next_le_of_effects {ps ps' : Pointers} (h : Relation.ReflTransGen Effect ps ps') :
    ps.heap.next ≤ ps'.heap.next := by
  induction h with
  | refl => exact le_rfl
  | tail _ hlast ih => exact ih.trans (next_le_of_effect hlast)

theorem reachable_read (h : (pointing cfg).Reachable s) :
    ∀ e ∈ s.executors, ∀ q todo, e.place = .following q todo → q < s.heap.next := by
  refine h.invariant (P := fun s => ∀ e ∈ s.executors, ∀ q todo, e.place = .following q todo →
    q < s.heap.next) _ (fun e he => nomatch he) ?_
  intro s a s' hreach hinv _ hstep e₀ he₀ q todo hq
  have hnext := next_le_of_effects (effects_of_step hstep)
  have hstarted : ∀ {executors}, (executors = s.executors ∨
      ∃ tid, executors = s.executors ++ [startExecutor tid]) → e₀ ∈ executors →
        q < s'.heap.next := by
    rintro _ (rfl | ⟨tid, rfl⟩) hmem
    · exact (hinv e₀ hmem q todo hq).trans_le hnext
    · rcases List.mem_append.mp hmem with hold | hnew
      · exact (hinv e₀ hold q todo hq).trans_le hnext
      · rw [List.mem_singleton.mp hnew] at hq
        cases hq
  cases a with
  | reader pick => exact hstarted (executors_of_readerStep hstep) he₀
  | executor index pick =>
      obtain ⟨e, hget, hrest⟩ := Option.bind_eq_some_iff.mp hstep
      obtain ⟨⟨t, e'⟩, hrun, rfl⟩ := Option.map_eq_some_iff.mp hrest
      rcases List.mem_or_eq_of_mem_set he₀ with hold | rfl
      · exact hstarted (executors_of_executorStep hrun) hold
      · obtain ⟨tid, hmem⟩ := read_of_executorStep hrun hq
        obtain ⟨c, hc, -⟩ := (reachable_owning hreach).keys tid q hmem
        exact (List.getElem?_eq_some_iff.mp hc).1.trans_le hnext

theorem exists_minimum {ps : Pointers} {tid : Int}
    (hlive : ∀ entry ∈ ps.queued, ps.heap.Live entry.2) (hne : ps.executionHeap tid ≠ []) :
    ∃ p, (ps.minima tid)[0]? = some p := by
  obtain ⟨p, hp, hmin⟩ := WellFounded.has_min
    (InvImage.wf (fun p => (ps.heap.deref p).elim 0 fun c => c.record.uniqueId) Nat.lt_wfRel.wf)
    {p | p ∈ ps.executionHeap tid} (List.exists_mem_of_ne_nil _ hne)
  obtain ⟨c, hc⟩ : ∃ c, ps.heap.deref p = some c :=
    (hlive _ (mem_executionHeap.mp hp)).exists_deref
  have hmem : p ∈ ps.minima tid := by
    refine List.mem_filter.mpr ⟨hp, List.all_eq_true.mpr fun q hq => ?_⟩
    obtain ⟨c', hc'⟩ : ∃ c', ps.heap.deref q = some c' :=
      (hlive _ (mem_executionHeap.mp hq)).exists_deref
    have hle := Nat.not_lt.mp (hmin q hq)
    dsimp only at hle
    rw [hc, hc'] at hle
    unfold Pointers.before
    rw [hc, hc']
    exact decide_eq_true hle
  exact ⟨_, List.getElem?_eq_getElem (List.length_pos_iff.mpr (List.ne_nil_of_mem hmem))⟩

/-- The executor is about to read a copy that it has not, or no longer, for itself. -/
def Follows (e : Executor) (q : Nat) : Prop :=
  e.place = .repushed ∧ e.executeReplayer = some q ∨ ∃ todo, e.place = .following q todo

/-- An executor that cannot go on follows a pointer to a deleted copy. -/
theorem follows_of_stuck {i : Nat} {e : Executor} (h : (pointing cfg).Reachable s)
    (hqueued : ∀ entry ∈ s.queued, s.heap.Live entry.2)
    (hhand : ∀ e ∈ s.executors, ∀ p ∈ hand e, s.heap.Live p) (hget : s.executors[i]? = some e)
    (hstuck : ∀ pick, (pointing cfg).step s (.executor i pick) = none) :
    e.place = .exited ∨ ∃ q ∈ s.heap.freed, Follows e q := by
  have hmem := List.mem_of_getElem? hget
  have htook := reachable_took h e hmem
  have hnone : ∀ pick, executorStep cfg s e pick = none := by
    intro pick
    have hstep := hstuck pick
    change s.executors[i]?.bind _ = none at hstep
    rw [hget, Option.bind_some] at hstep
    exact Option.map_eq_none_iff.mp hstep
  have hfreed : ∀ {p}, p < s.heap.next → s.heap.deref p = none → p ∈ s.heap.freed := by
    intro p hlt hderef
    by_contra hp
    obtain ⟨c, hc⟩ := Heap.Live.exists_deref ⟨hlt, hp⟩
    exact Option.some_ne_none c (hc.symm.trans hderef)
  cases hplace : e.place with
  | exited => exact .inl rfl
  | top =>
      have hstep := hnone 0
      simp only [executorStep, hplace] at hstep
      split at hstep
      · cases hstep
      · rename_i hheap
        obtain ⟨p, hp⟩ := exists_minimum hqueued hheap
        rw [hp] at hstep
        cases hstep
  | guard | running =>
      have hstep := hnone 0
      simp only [executorStep, hplace] at hstep
      split at hstep <;> cases hstep
  | guarded | registered | rejected | storing | leaving =>
      have hstep := hnone 0
      simp only [executorStep, hplace] at hstep
      cases hstep
  | popped | executed | admitted | validating =>
      rw [Took, hplace] at htook
      obtain ⟨p, hp⟩ := htook
      have hlive := hhand e hmem p (by rw [hand, hplace]; exact Option.mem_toList.mpr hp)
      obtain ⟨c, hc⟩ := hlive.exists_deref
      have hstep := hnone 0
      simp only [executorStep, hplace, Pointers.deref, hp, hc, Option.bind_some,
        Option.map_some] at hstep
      cases hstep
  | parked =>
      rw [Took, hplace] at htook
      obtain ⟨p, hp⟩ := htook
      have hstep := hnone 0
      simp only [executorStep, hplace, hp, Option.map_some] at hstep
      cases hstep
  | repushed =>
      rw [Took, hplace] at htook
      obtain ⟨p, hp⟩ := htook
      have hstep := hnone 0
      simp only [executorStep, hplace, Pointers.deref, hp, Option.bind_some] at hstep
      obtain ⟨c, hc, -⟩ := (reachable_owning h).pids e hmem p (.inl hp)
      exact .inr ⟨p, hfreed (List.getElem?_eq_some_iff.mp hc).1 (Option.map_eq_none_iff.mp hstep),
        .inl ⟨hplace, hp⟩⟩
  | comparing todo =>
      have hstep := hnone 0
      simp only [executorStep, hplace] at hstep
      cases hstep
  | following q todo =>
      have hstep := hnone 0
      simp only [executorStep, hplace] at hstep
      have hfollow := Option.map_eq_none_iff.mp hstep
      rw [Took, hplace] at htook
      obtain ⟨p, hp⟩ := htook
      have hlive := hhand e hmem p (by rw [hand, hplace]; exact Option.mem_toList.mpr hp)
      obtain ⟨c, hc⟩ := hlive.exists_deref
      have hq := reachable_read h e hmem q todo hplace
      refine .inr ⟨q, hfreed hq ?_, .inr ⟨todo, hplace⟩⟩
      unfold followStep at hfollow
      rw [Pointers.deref, hp, Option.bind_some, hc] at hfollow
      cases hderef : s.heap.deref q with
      | none => rfl
      | some compare =>
          rw [hderef] at hfollow
          cases hfollow

/-- What can be followed and what is deleted: only a pointer that was read from the
table, or that was pushed back, may outlive its copy. -/
structure Safe (cfg : Config) (s : State) : Prop where
  deletedOnce : s.heap.freed.Nodup
  awaiting : ∀ p, some p ∈ s.allocationQueue →
    s.heap.Live p ∧ s.allocationQueue.count (some p) = 1
  queued : ∀ entry ∈ s.queued, s.heap.Live entry.2
  hand : ∀ e ∈ s.executors, ∀ p ∈ hand e, s.heap.Live p
  kept : ∀ e ∈ s.executors, ∀ p ∈ kept e, s.heap.Live p
  table : ∀ tid p, (tid, some p) ∈ s.currentExecutions → s.heap.Live p
  counting : ∀ p i b count, s.reader = .counting p i b count → s.heap.Live p
  stuck : ∀ i e, s.executors[i]? = some e →
    (∀ pick, (pointing cfg).step s (.executor i pick) = none) →
      e.place = .exited ∨ ∃ q ∈ s.heap.freed, Follows e q

/-- No copy is deleted twice, no owner, nor the table, has a pointer to a deleted copy,
and an executor comes to a halt only where it follows a pointer that it does not own. -/
theorem reachable_safe (h : (pointing cfg).Reachable s) : Safe cfg s := by
  have howning := reachable_owning h
  constructor
  · apply List.nodup_iff_count_le_one.mpr
    intro p
    have hone := howning.once p
    unfold owners at hone
    omega
  · intro p hp
    have hone := howning.once p
    have hpos := List.count_pos_iff.mpr hp
    have hlive : s.heap.freed.count p < owners s.toPointers p := by
      unfold owners
      omega
    refine ⟨howning.live hlive, ?_⟩
    unfold owners at hone
    omega
  · exact fun entry hentry => howning.live_queued hentry
  · exact fun e he p hp => howning.live_hand he hp
  · intro e he p hp
    have hpos := Owning.count_flatMap he hp
    apply howning.live
    unfold owners
    omega
  · intro tid p hmem
    obtain ⟨c, hc, -⟩ := howning.keys tid p hmem
    exact ⟨(List.getElem?_eq_some_iff.mp hc).1, (howning.table tid p hmem).1⟩
  · exact reachable_counting h
  · exact fun i e hget hstuck => follows_of_stuck h (fun entry hentry => howning.live_queued hentry)
      (fun e he p hp => howning.live_hand he hp) hget hstuck

/-- The reader to its end and two turns of the executor. -/
theorem threeUmasks_safe :
    ∃ s : State, s.executedLog.map Scheduler.Record.uniqueId = [0, 1, 2] ∧
      s.allocationQueue = [none, some 2] ∧ Safe CopyReclamation.threeUmasks s := by
  obtain ⟨s, hreach, hs⟩ := (pointing CopyReclamation.threeUmasks).exists_reachable
    (List.replicate 10 (.reader 0) ++ List.replicate 18 (.executor 0 0))
    (fun s => decide (s.executedLog.map Scheduler.Record.uniqueId = [0, 1, 2] ∧
      s.allocationQueue = [none, some 2])) (by decide)
  obtain ⟨hlog, hqueue⟩ := of_decide_eq_true hs
  exact ⟨s, hlog, hqueue, reachable_safe hreach⟩

end

end SyscallReplayer.PointerSafety
