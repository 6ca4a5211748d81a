import Mathlib.Data.List.Basic

/-!
# A cursor over the rows of an extent

The rows of one extent and a position in them. Only a cursor that stands on a
row can be read or moved to the next one.
-/

namespace SyscallReplayer.ExtentSeries

universe u

structure Series (ρ : Type u) where
  extent : List ρ
  pos : Nat
deriving DecidableEq

namespace Series

variable {ρ : Type u}

def ofExtent (extent : List ρ) : Series ρ :=
  ⟨extent, 0⟩

def row? (s : Series ρ) : Option ρ :=
  s.extent[s.pos]?

def rest (s : Series ρ) : List ρ :=
  s.extent.drop s.pos

def morerecords (s : Series ρ) : Bool :=
  s.pos < s.extent.length

def next (s : Series ρ) : Option (Series ρ) :=
  if s.morerecords then some { s with pos := s.pos + 1 } else none

def advance : Nat → Series ρ → Option (Series ρ)
  | 0, s => some s
  | n + 1, s => s.next.bind (advance n)

variable {s : Series ρ}

theorem advance_eq_some {n : Nat} (h : s.pos + n ≤ s.extent.length) :
    s.advance n = some { s with pos := s.pos + n } := by
  induction n generalizing s with
  | zero => rfl
  | succ n ih =>
      have hnext : s.next = some { s with pos := s.pos + 1 } :=
        if_pos (decide_eq_true (by omega))
      rw [advance, hnext, Option.bind_some, ih (by dsimp only; omega)]
      dsimp only
      rw [Nat.add_assoc, Nat.add_comm 1 n]

theorem pos_of_advance {n : Nat} {s' : Series ρ} (h : s.advance n = some s') :
    s'.extent = s.extent ∧ s'.pos = s.pos + n := by
  induction n generalizing s with
  | zero =>
      obtain rfl := Option.some.inj h
      exact ⟨rfl, rfl⟩
  | succ n ih =>
      obtain ⟨t, hnext, hrest⟩ := Option.bind_eq_some_iff.mp h
      unfold next at hnext
      split at hnext
      · obtain rfl := Option.some.inj hnext
        obtain ⟨hextent, hpos⟩ := ih hrest
        refine ⟨hextent, ?_⟩
        rw [hpos]
        dsimp only
        omega
      · cases hnext

theorem row?_append {l l' : List ρ} {x : ρ} :
    (⟨l ++ x :: l', l.length⟩ : Series ρ).row? = some x := by
  unfold row?
  rw [List.getElem?_append_right (Nat.le_refl _), Nat.sub_self]
  rfl

theorem rest_append {l l' : List ρ} : (⟨l ++ l', l.length⟩ : Series ρ).rest = l' :=
  List.drop_left

theorem row?_eq (s : Series ρ) : s.row? = s.rest.head? :=
  List.head?_drop.symm

theorem morerecords_iff : s.morerecords = true ↔ s.rest ≠ [] := by
  unfold morerecords rest
  rw [decide_eq_true_iff, ne_eq, List.drop_eq_nil_iff, Nat.not_le]

theorem exists_next {x : ρ} {l : List ρ} (h : s.rest = x :: l) :
    ∃ s', s.next = some s' ∧ s'.rest = l := by
  have hmore : s.morerecords = true := morerecords_iff.mpr (h ▸ List.cons_ne_nil x l)
  refine ⟨_, if_pos hmore, ?_⟩
  have htail : s.rest.tail = l := by rw [h, List.tail_cons]
  rw [← htail]
  exact List.tail_drop.symm

end Series

end SyscallReplayer.ExtentSeries
