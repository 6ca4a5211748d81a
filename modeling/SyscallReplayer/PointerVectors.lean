import Mathlib.Data.List.Nodup

/-!
# Vectors of pointers

A vector holds pointers to objects that were allocated one after the other and
are never freed. No pointer is in it twice, so that a write through one of them
shows in one place.
-/

namespace SyscallReplayer.PointerVectors

universe u

/-- The objects that were allocated and the pointers to those in the vector. -/
structure PointerVector (α : Type u) where
  objects : List α
  pointers : List Nat
  distinct : pointers.Nodup
  allocated : ∀ p ∈ pointers, p < objects.length

namespace PointerVector

variable {α : Type u}

def empty : PointerVector α :=
  ⟨[], [], .nil, fun _ h => absurd h List.not_mem_nil⟩

def deref (v : PointerVector α) (p : Nat) : Option α :=
  v.objects[p]?

/-- The objects behind some pointers. -/
def read (v : PointerVector α) (ps : List Nat) : List α :=
  ps.filterMap v.deref

def contents (v : PointerVector α) : List α :=
  v.read v.pointers

/-- Allocates an object and pushes the pointer to it. -/
def pushBack (v : PointerVector α) (x : α) : PointerVector α where
  objects := v.objects ++ [x]
  pointers := v.pointers ++ [v.objects.length]
  distinct := by
    refine List.nodup_append.mpr ⟨v.distinct, List.nodup_singleton _, fun p hp q hq => ?_⟩
    obtain rfl := List.mem_singleton.mp hq
    exact Nat.ne_of_lt (v.allocated p hp)
  allocated := by
    intro p hp
    rw [List.length_append]
    rcases List.mem_append.mp hp with hold | hlast
    · exact Nat.lt_add_right _ (v.allocated p hold)
    · obtain rfl := List.mem_singleton.mp hlast
      exact Nat.lt_add_one _

/-- Writes through a pointer. -/
def assign (v : PointerVector α) (p : Nat) (x : α) : PointerVector α where
  objects := v.objects.set p x
  pointers := v.pointers
  distinct := v.distinct
  allocated := by
    intro q hq
    rw [List.length_set]
    exact v.allocated q hq

/-- Takes a pointer out; its object stays allocated. -/
def erase (v : PointerVector α) (p : Nat) : PointerVector α where
  objects := v.objects
  pointers := v.pointers.erase p
  distinct := v.distinct.erase p
  allocated q hq := v.allocated q (List.mem_of_mem_erase hq)

variable {v : PointerVector α} {p q : Nat} {x y : α}

theorem deref_of_mem (h : p ∈ v.pointers) : ∃ x, v.deref p = some x :=
  ⟨_, List.getElem?_eq_getElem (v.allocated p h)⟩

theorem mem_contents (hp : p ∈ v.pointers) (h : v.deref p = some x) : x ∈ v.contents :=
  List.mem_filterMap.mpr ⟨p, hp, h⟩

@[simp] theorem deref_erase : (v.erase p).deref q = v.deref q := rfl

theorem deref_assign_self (h : v.deref p = some x) : (v.assign p y).deref p = some y := by
  have hlt := (List.getElem?_eq_some_iff.mp h).choose
  exact List.getElem?_set_self hlt

theorem deref_assign_of_ne (h : q ≠ p) : (v.assign p y).deref q = v.deref q :=
  List.getElem?_set_ne h.symm

theorem deref_pushBack (h : v.deref q = some x) : (v.pushBack y).deref q = some x := by
  have hlt := (List.getElem?_eq_some_iff.mp h).choose
  exact (List.getElem?_append_left hlt).trans h

theorem deref_pushBack_last : (v.pushBack y).deref v.objects.length = some y :=
  List.getElem?_concat_length

theorem read_append (v : PointerVector α) (ps qs : List Nat) :
    v.read (ps ++ qs) = v.read ps ++ v.read qs :=
  List.filterMap_append

theorem read_cons_some {ps : List Nat} (h : v.deref p = some x) :
    v.read (p :: ps) = x :: v.read ps :=
  List.filterMap_cons_some h

theorem read_cons_none {ps : List Nat} (h : v.deref p = none) : v.read (p :: ps) = v.read ps :=
  List.filterMap_cons_none h

theorem read_singleton (h : v.deref p = some x) : v.read [p] = [x] :=
  read_cons_some h

theorem read_congr {v' : PointerVector α} {ps : List Nat}
    (h : ∀ q ∈ ps, v'.deref q = v.deref q) : v'.read ps = v.read ps :=
  List.filterMap_congr h

theorem contents_pushBack (v : PointerVector α) (x : α) :
    (v.pushBack x).contents = v.contents ++ [x] := by
  have hold : (v.pushBack x).read v.pointers = v.read v.pointers := by
    apply read_congr
    intro q hq
    obtain ⟨y, hy⟩ := deref_of_mem hq
    rw [hy, deref_pushBack hy]
  have hpointers : (v.pushBack x).pointers = v.pointers ++ [v.objects.length] := rfl
  rw [contents, hpointers, read_append, hold, read_singleton deref_pushBack_last]
  rfl

theorem notMem_of_pointers {front back : List Nat} (h : v.pointers = front ++ p :: back) :
    p ∉ front ∧ p ∉ back := by
  have hdistinct := v.distinct
  rw [h, List.nodup_append] at hdistinct
  obtain ⟨-, hback, hapart⟩ := hdistinct
  exact ⟨fun hmem => hapart p hmem p List.mem_cons_self rfl, (List.nodup_cons.mp hback).1⟩

theorem pointers_erase {front back : List Nat} (h : v.pointers = front ++ p :: back) :
    (v.erase p).pointers = front ++ back := by
  have hpointers : (v.erase p).pointers = v.pointers.erase p := rfl
  rw [hpointers, h, List.erase_append_right _ (notMem_of_pointers h).1, List.erase_cons_head]

end PointerVector

end SyscallReplayer.PointerVectors
