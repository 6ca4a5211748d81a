import Mathlib.Data.List.Perm.Basic
import Mathlib.Data.List.Range

/-!
# Joins of indexed lists

A family of lists `f 0, …, f (n - 1)` is read one element at a time. These
lemmas say how the join `(List.range n).flatMap f` changes.
-/

namespace SyscallReplayer.RangeJoin

theorem flatMap_range_congr {α : Type} {n : Nat} {f g : Nat → List α}
    (h : ∀ i < n, f i = g i) : (List.range n).flatMap f = (List.range n).flatMap g := by
  simp only [List.flatMap_def]
  congr 1
  exact List.map_congr_left fun i hi => h i (List.mem_range.mp hi)

/-- Taking one element out of one of the lists takes it out of their join. -/
theorem flatMap_range_cons {α : Type} {n i : Nat} {f g : Nat → List α} {a : α}
    (hi : i < n) (hcons : f i = a :: g i) (hother : ∀ j, j ≠ i → f j = g j) :
    ((List.range n).flatMap f).Perm (a :: (List.range n).flatMap g) := by
  induction n with
  | zero => omega
  | succ n ih =>
      simp only [List.range_succ, List.flatMap_append, List.flatMap_singleton]
      by_cases heq : i = n
      · subst heq
        rw [hcons, flatMap_range_congr fun j hj => hother j (by omega)]
        exact List.perm_middle
      · rw [hother n (fun h => heq h.symm)]
        exact (ih (by omega)).append_right (g n)

/-- Changing one of the lists changes the join by what that list lost and got. -/
theorem flatMap_range_exchange {α : Type} {n i : Nat} {f g : Nat → List α}
    (hi : i < n) (hother : ∀ j, j ≠ i → f j = g j) :
    (g i ++ (List.range n).flatMap f).Perm (f i ++ (List.range n).flatMap g) := by
  induction n with
  | zero => omega
  | succ n ih =>
      simp only [List.range_succ, List.flatMap_append, List.flatMap_singleton]
      by_cases heq : i = n
      · subst heq
        rw [flatMap_range_congr fun j hj => hother j (by omega), ← List.append_assoc (f i)]
        exact (List.perm_append_comm.append_left _).trans List.perm_append_comm
      · rw [hother n (fun h => heq h.symm), ← List.append_assoc, ← List.append_assoc]
        exact (ih (by omega)).append_right (g n)

theorem flatMap_range_extend {α : Type} {n m : Nat} {f : Nat → List α} (hle : n ≤ m)
    (hempty : ∀ j, n ≤ j → f j = []) :
    (List.range m).flatMap f = (List.range n).flatMap f := by
  induction m, hle using Nat.le_induction with
  | base => rfl
  | succ m hm ih =>
      rw [List.range_succ, List.flatMap_append, List.flatMap_singleton, hempty m hm, ih,
        List.append_nil]

theorem getD_flatten {α : Type} (l : List (List α)) :
    (List.range l.length).flatMap (fun i => l.getD i []) = l.flatten := by
  induction l with
  | nil => rfl
  | cons x l ih =>
      rw [List.length_cons, List.range_succ_eq_map, List.flatMap_cons,
        List.flatMap_map, List.flatten_cons, ← ih]
      rfl

/-- Heads kept as values of another type, together with the tails, make up the
join. -/
theorem heads_append_tails_perm {α β : Type} {p : β → α} {n : Nat} {f : Nat → List α}
    (g : Nat → Option β) (hg : ∀ i < n, (g i).map p = (f i).head?) :
    (((List.range n).filterMap g).map p ++
      (List.range n).flatMap fun i => (f i).tail).Perm ((List.range n).flatMap f) := by
  induction n with
  | zero => rfl
  | succ n ih =>
      have hprev := ih fun i hi => hg i (by omega)
      have hlast := hg n (by omega)
      simp only [List.range_succ, List.filterMap_append, List.map_append,
        List.flatMap_append, List.flatMap_singleton]
      have hn : ([n].filterMap g).map p ++ (f n).tail = f n := by
        cases hf : f n with
        | nil =>
            rw [hf] at hlast
            have hnone : g n = none := by simpa using hlast
            simp [hnone]
        | cons r rest =>
            rw [hf] at hlast
            obtain ⟨c, hc, hr⟩ := Option.map_eq_some_iff.mp hlast
            simp [hc, hr]
      refine List.Perm.trans ?_ (hprev.append_right (f n))
      nth_rewrite 2 [← hn]
      simp only [List.append_assoc]
      refine List.Perm.append_left _ ?_
      simp only [← List.append_assoc]
      exact List.perm_append_comm.append_right _

end SyscallReplayer.RangeJoin
