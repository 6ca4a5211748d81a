import SyscallReplayer.FairRuns
import SyscallReplayer.PointerSafety

/-!
# A comparison with a deleted copy

Between the read of a pointer from the table and the comparison, the thread that the
entry belongs to can register its next copy and push the one before, and the reader can
delete it.
-/

namespace SyscallReplayer.DanglingComparison

open TransitionSystem FairRuns CopyPointers ObjectHeap
open Scheduler (Record Copy Config Action Series Batch)

section

variable {cfg : Config} {s : State} {p q : Nat}

theorem exists_deleted (cfg : Config) (s : State) (hreader : s.reader = .draining) :
    ∃ t, Relation.ReflTransGen (pointing cfg).Fires s t ∧ t.executors = s.executors ∧
      (∀ p ∈ s.heap.freed, p ∈ t.heap.freed) ∧
      ∀ p, some p ∈ s.allocationQueue → p ∈ t.heap.freed := by
  induction hqueue : s.allocationQueue generalizing s with
  | nil => exact ⟨s, .refl, rfl, fun _ hp => hp, fun _ hp => absurd hp List.not_mem_nil⟩
  | cons head rest ih =>
      cases head with
      | none =>
          let s₁ : State := { s with reader := .draining, allocationQueue := rest }
          have hstep : (pointing cfg).step s (.reader 0) = some s₁ := by
            change readerStep cfg s 0 = _
            simp only [readerStep, hreader, hqueue]
            rfl
          obtain ⟨t, hruns, hexecutors, hkept, hdeleted⟩ := ih s₁ rfl rfl
          refine ⟨t, .head ⟨_, hstep⟩ hruns, hexecutors, hkept, fun p hp => ?_⟩
          rcases List.mem_cons.mp hp with hnull | hp
          · cases hnull
          · exact hdeleted p hp
      | some q =>
          let s₁ : State :=
            { s with reader := .draining, heap := s.heap.delete q, allocationQueue := rest }
          have hstep : (pointing cfg).step s (.reader 0) = some s₁ := by
            change readerStep cfg s 0 = _
            simp only [readerStep, hreader, hqueue]
            rfl
          obtain ⟨t, hruns, hexecutors, hkept, hdeleted⟩ := ih s₁ rfl rfl
          refine ⟨t, .head ⟨_, hstep⟩ hruns, hexecutors, fun p hp => ?_, fun p hp => ?_⟩
          · exact hkept p (List.mem_append_left _ hp)
          · rcases List.mem_cons.mp hp with heq | hp
            · rw [Option.some.inj heq]
              exact hkept q (List.mem_append_right _ (List.mem_singleton.mpr rfl))
            · exact hdeleted p hp

theorem followStep_of_freed {e : Executor} {todo : List Int} (hfreed : q ∈ s.heap.freed) :
    followStep s e q todo = none := by
  have hgone : s.heap.deref q = none := if_pos hfreed
  unfold followStep
  rw [hgone]
  cases s.deref e.executeReplayer <;> rfl

/-- An executor that has read the pointer to a copy from the table may find that it is
deleted, if the executor of that copy has registered the next one. -/
theorem comparison_dangles {i j : Nat} {e e' : Executor} {todo : List Int}
    (hi : s.executors[i]? = some e) (hfollows : e.place = .following q todo)
    (hj : s.executors[j]? = some e') (hregistered : e'.place = .registered)
    (hprev : e'.prevReplayer = some q) (hreader : s.reader = .spin)
    (hcounters : 100 * s.nThreads < s.getMinSyscall cfg) :
    ∃ t, Relation.ReflTransGen (pointing cfg).Fires s t ∧ t.executors[i]? = some e ∧
      q ∈ t.heap.freed ∧ ∀ pick, (pointing cfg).step t (.executor i pick) = none := by
  have hne : j ≠ i := by
    rintro rfl
    rw [Option.some.inj (hi.symm.trans hj), hregistered] at hfollows
    cases hfollows
  let s₁ : State := { s with
    allocationQueue := s.allocationQueue ++ [some q]
    executors := s.executors.set j { e' with place := .running, prevReplayer := some q } }
  have hpush : (pointing cfg).step s (.executor j 0) = some s₁ := by
    change s.executors[j]?.bind _ = _
    rw [hj, Option.bind_some]
    simp only [executorStep, hregistered, hprev]
    rfl
  have henter : (pointing cfg).step s₁ (.reader 0) = some { s₁ with reader := .draining } := by
    change readerStep cfg s₁ 0 = _
    simp only [readerStep, show s₁.reader = .spin from hreader]
    exact if_pos hcounters
  obtain ⟨t, hruns, hexecutors, -, hdeleted⟩ :=
    exists_deleted cfg { s₁ with reader := .draining } rfl
  have hfreed : q ∈ t.heap.freed :=
    hdeleted q (List.mem_append_right _ (List.mem_singleton.mpr rfl))
  have hget : t.executors[i]? = some e := by
    rw [hexecutors]
    exact (List.getElem?_set_ne hne).trans hi
  refine ⟨t, .head ⟨_, hpush⟩ (.head ⟨_, henter⟩ hruns), hget, hfreed, fun pick => ?_⟩
  change t.executors[i]?.bind _ = none
  rw [hget, Option.bind_some]
  simp only [executorStep, hfollows, followStep_of_freed hfreed, Option.map_none]

/-- What is left when the rows have been read, pushed and counted. -/
def filled (s : State) (i : Nat) (b : Batch) (idx : Int) (current : Record)
    (rows rest : List Record) : State :=
  { s with
    heap := ⟨s.heap.objects ++ rows.map (⟨·, idx, i⟩), []⟩
    queued := s.queued ++ (rows.zipIdx s.heap.next).map fun (r, p) => (r.executingPid, p)
    series := Function.update s.series i ⟨rows.getLastD current, rest, idx⟩
    numberOfSyscalls :=
      Function.update s.numberOfSyscalls idx (s.numberOfSyscalls idx + rows.length)
    touched := s.touched ++ List.replicate rows.length (i, idx)
    reader := .rows i b 2 }

def pushed (s : State) (i : Nat) (b : Batch) (idx : Int) (r : Record) (unread : List Record)
    (count : Nat) : State :=
  { s with
    heap := s.heap.allocate ⟨r, idx, i⟩
    queued := s.queued ++ [(r.executingPid, s.heap.next)]
    series := Function.update s.series i ⟨r, unread, idx⟩
    numberOfSyscalls :=
      Function.update s.numberOfSyscalls idx (s.numberOfSyscalls idx + 1)
    touched := s.touched ++ [(i, idx)]
    reader := .rows i b count }

variable {i : Nat} {b : Batch} {idx : Int} {r current : Record} {unread rows rest : List Record}

theorem runs_pushed {count : Nat} (hreader : s.reader = .rows i b (count + 3))
    (hseries : s.series i = ⟨current, r :: unread, idx⟩) (hfreed : s.heap.freed = []) :
    (pointing cfg).runVia (fun _ _ => true) s [.reader 0, .reader 0] =
      some (pushed s i b idx r unread (count + 2)) := by
  let s₁ : State := { s with
    heap := s.heap.allocate ⟨r, idx, i⟩
    queued := s.queued ++ [(r.executingPid, s.heap.next)]
    series := Function.update s.series i ⟨r, unread, idx⟩
    reader := .counting s.heap.next i b (count + 2) }
  have hread : (pointing cfg).step s (.reader 0) = some s₁ := by
    change readerStep cfg s 0 = _
    simp only [readerStep, hreader, hseries]
    exact if_neg (by omega)
  have hderef : s₁.heap.deref s.heap.next = some ⟨r, idx, i⟩ := by
    unfold Heap.deref
    rw [if_neg (by rw [show s₁.heap.freed = [] from hfreed]; exact List.not_mem_nil)]
    exact List.getElem?_concat_length
  have hcount : (pointing cfg).step s₁ (.reader 0) =
      some (pushed s i b idx r unread (count + 2)) := by
    change (s₁.heap.deref s.heap.next).map _ = _
    rw [hderef]
    rfl
  simp only [System.runVia, if_true, hread, hcount, Option.bind_some]

theorem filled_nil (hreader : s.reader = .rows i b 2)
    (hseries : s.series i = ⟨current, rest, idx⟩) (hfreed : s.heap.freed = []) :
    filled s i b idx current [] rest = s := by
  unfold filled
  rw [List.getLastD_nil, ← hseries, ← hreader, ← hfreed, Function.update_eq_self,
    List.length_nil, Int.natCast_zero, add_zero, Function.update_eq_self]
  simp

theorem filled_pushed (s : State) (count : Nat) :
    filled (pushed s i b idx r unread count) i b idx r rows rest =
      filled s i b idx current (r :: rows) rest := by
  unfold filled pushed
  dsimp only
  rw [Heap.next_allocate, Function.update_idem, Function.update_idem, Function.update_self,
    List.zipIdx_cons, List.map_cons, List.map_cons, List.getLastD_cons, List.length_cons,
    List.replicate_succ]
  simp [Heap.allocate, add_assoc, add_comm (1 : Int)]

theorem runs_filled (hreader : s.reader = .rows i b (rows.length + 2))
    (hseries : s.series i = ⟨current, rows ++ rest, idx⟩) (hfreed : s.heap.freed = []) :
    (pointing cfg).runVia (fun _ _ => true) s (List.replicate (2 * rows.length) (.reader 0)) =
      some (filled s i b idx current rows rest) := by
  induction rows generalizing s current with
  | nil =>
      have hnone : filled s i b idx current [] rest = s := filled_nil hreader hseries hfreed
      rw [hnone]
      rfl
  | cons r rows ih =>
      have hfirst : (pointing cfg).runVia (fun _ _ => true) s [.reader 0, .reader 0] =
          some (pushed s i b idx r (rows ++ rest) (rows.length + 2)) :=
        runs_pushed hreader hseries hfreed
      have hrest := ih (s := pushed s i b idx r (rows ++ rest) (rows.length + 2)) rfl
        (Function.update_self ..) hfreed
      have hsplit : List.replicate (2 * (r :: rows).length) (Action.reader 0) =
          [.reader 0, .reader 0] ++ List.replicate (2 * rows.length) (.reader 0) := by
        rw [List.length_cons, Nat.mul_add, Nat.add_comm, List.replicate_add]
        rfl
      rw [hsplit, runVia_append hfirst, hrest, filled_pushed]

end

def closeRecord (pid : Int) (id : Nat) : Record :=
  ⟨.close, id, pid, 2 * id + 1, 2 * id + 2, 0⟩

def closes (first count : Nat) : List Record :=
  (List.range' first count).map (closeRecord 9)

theorem length_closes (first count : Nat) : (closes first count).length = count := by
  rw [closes, List.length_map, List.length_range']

def busyRows : List (List Record) :=
  [[⟨.umask, 0, 7, 1, 2, 0⟩], [⟨.clone, 1, 7, 3, 4, 8⟩, ⟨.clone, 4, 7, 9, 10, 9⟩],
    closeRecord 8 2 :: closeRecord 7 3 :: closeRecord 9 5 :: (closes 6 996 ++ closes 1002 3)]

theorem busyRows_nonempty : ∀ rows ∈ busyRows, rows ≠ [] := by
  simp [busyRows]

theorem busyRows_order : List.Perm [0, 1, 2] (List.range busyRows.length) :=
  .refl _

/-- A thread and its two children, and more records than the first batch reads. -/
def busyTrace : Config where
  modules := busyRows
  order := [0, 1, 2]
  uninitialised i := i
  modules_nonempty := busyRows_nonempty
  order_perm := busyRows_order

theorem opened_runs :
    ((pointing busyTrace).runVia (fun _ _ => true) (pointing busyTrace).init
      (List.replicate 14 (.reader 0))).isSome = true := by
  decide

def opened : State :=
  ((pointing busyTrace).runVia (fun _ _ => true) (pointing busyTrace).init
    (List.replicate 14 (.reader 0))).get opened_runs

/-- The reader ends its batch, the main thread executes the `clone` and registers its
next copy, and the child has read the pointer to that of the `clone`. -/
def compared : List Action :=
  List.replicate 4 (.reader 0) ++ List.replicate 9 (.executor 0 0) ++
    List.replicate 9 (.executor 1 0) ++ List.replicate 4 (.executor 0 0)

def standing (s : State) : Bool :=
  decide (s.executors = [⟨7, .registered, some 7, some 1⟩,
    ⟨8, .following 1 [], some 2, none⟩] ∧ s.reader = .spin ∧
      100 * s.nThreads < s.getMinSyscall busyTrace)

def full : State :=
  filled opened 2 ⟨[], true, 1000⟩ 2 (closeRecord 9 5) (closes 6 996) (closes 1002 3)

theorem full_reachable : (pointing busyTrace).Reachable full := by
  have hopened : (pointing busyTrace).Reachable opened :=
    (pointing busyTrace).reachVia_of_runVia (fun _ _ _ => trivial) .init
      (Option.some_get opened_runs).symm
  have hreader : opened.reader =
      .rows 2 ⟨[], true, 1000⟩ ((closes 6 996).length + 2) := by
    rw [length_closes]
    rfl
  exact (pointing busyTrace).reachVia_of_runVia (fun _ _ _ => trivial) hopened
    (runs_filled hreader rfl rfl)

theorem busyTrace_standing : ∃ s, (pointing busyTrace).Reachable s ∧ standing s = true := by
  have hruns : ((pointing busyTrace).runVia (fun _ _ => true) full compared).any standing =
      true := by
    decide +kernel
  obtain ⟨s, hs, hstanding⟩ := (Option.any_eq_true _ _).mp hruns
  exact ⟨s, (pointing busyTrace).reachVia_of_runVia (fun _ _ _ => trivial) full_reachable hs,
    hstanding⟩

/-- The main thread pushes the copy of the `clone` and the reader deletes it before the
child compares with it. -/
theorem busyTrace_dangles :
    ∃ t e, (pointing busyTrace).Reachable t ∧ t.executors[1]? = some e ∧
      e.place = .following 1 [] ∧ 1 ∈ t.heap.freed ∧
      ∀ pick, (pointing busyTrace).step t (.executor 1 pick) = none := by
  obtain ⟨s, hreach, hstanding⟩ := busyTrace_standing
  obtain ⟨hexecutors, hreader, hcounters⟩ := of_decide_eq_true hstanding
  have hchild : s.executors[1]? = some ⟨8, .following 1 [], some 2, none⟩ := by
    rw [hexecutors]
    rfl
  have hmain : s.executors[0]? = some ⟨7, .registered, some 7, some 1⟩ := by
    rw [hexecutors]
    rfl
  obtain ⟨t, hruns, hget, hfreed, hstuck⟩ :=
    comparison_dangles hchild rfl hmain rfl rfl hreader hcounters
  exact ⟨t, _, hreach.fires _ hruns, hget, rfl, hfreed, hstuck⟩

end SyscallReplayer.DanglingComparison
