import Mathlib.Data.List.Nodup

/-!
# A heap of objects

Objects are allocated at one address after the other. A deleted object stays where it
was, so that its address is not used again, and a pointer to it cannot be followed.
-/

namespace SyscallReplayer.ObjectHeap

universe u

structure Heap (α : Type u) where
  objects : List α
  freed : List Nat
deriving DecidableEq

namespace Heap

variable {α : Type u}

/-- The address of the next object. -/
def next (h : Heap α) : Nat :=
  h.objects.length

def allocate (h : Heap α) (x : α) : Heap α :=
  { h with objects := h.objects ++ [x] }

def delete (h : Heap α) (p : Nat) : Heap α :=
  { h with freed := h.freed ++ [p] }

def deref (h : Heap α) (p : Nat) : Option α :=
  if p ∈ h.freed then none else h.objects[p]?

/-- The pointer can be followed. -/
def Live (h : Heap α) (p : Nat) : Prop :=
  p < h.next ∧ p ∉ h.freed

variable {h : Heap α} {p q : Nat} {x : α}

theorem isSome_deref_iff : (h.deref p).isSome = true ↔ h.Live p := by
  unfold deref Live next
  split
  · rename_i hfreed
    exact iff_of_false Bool.false_ne_true fun hlive => hlive.2 hfreed
  · rename_i hfreed
    rw [and_iff_left hfreed, isSome_getElem?]

theorem getElem?_of_deref (hx : h.deref p = some x) : h.objects[p]? = some x := by
  unfold deref at hx
  split at hx
  · cases hx
  · exact hx

theorem Live.exists_deref (hp : h.Live p) : ∃ x, h.deref p = some x :=
  Option.isSome_iff_exists.mp (isSome_deref_iff.mpr hp)

theorem Live.allocate (hp : h.Live p) (x : α) : (h.allocate x).Live p := by
  refine ⟨?_, hp.2⟩
  apply Nat.lt_of_lt_of_le hp.1
  unfold next Heap.allocate
  rw [List.length_append]
  exact Nat.le_add_right _ _

theorem Live.delete (hp : h.Live p) (hne : p ≠ q) : (h.delete q).Live p := by
  refine ⟨hp.1, ?_⟩
  unfold Heap.delete
  rw [List.mem_append, List.mem_singleton]
  rintro (hfreed | heq)
  · exact hp.2 hfreed
  · exact hne heq

@[simp] theorem next_allocate (h : Heap α) (x : α) : (h.allocate x).next = h.next + 1 := by
  unfold next Heap.allocate
  rw [List.length_append, List.length_singleton]

@[simp] theorem freed_allocate (h : Heap α) (x : α) : (h.allocate x).freed = h.freed := rfl

@[simp] theorem freed_delete (h : Heap α) (p : Nat) : (h.delete p).freed = h.freed ++ [p] := rfl

end Heap

end SyscallReplayer.ObjectHeap
