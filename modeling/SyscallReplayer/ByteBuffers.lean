import Mathlib.Data.List.Basic
import Mathlib.Data.Set.Lattice
import Mathlib.Order.CompletePartialOrder
import Mathlib.Order.Interval.Set.Basic

/-!
# Byte buffers

The bytes of an object, with `memcpy`, `memset` and `memcmp` on them. A byte that
was never written has no value, and what goes past the end of an object is
undefined.
-/

namespace SyscallReplayer.ByteBuffers

/-- The bytes of an object, `none` where nothing was written. -/
abbrev Contents := List (Option UInt8)

def fresh (size : Nat) : Contents :=
  List.replicate size none

def memcpy (dest : Contents) (offset : Nat) (source : List UInt8) (count : Nat) :
    Option Contents :=
  if offset + count ≤ dest.length ∧ count ≤ source.length then
    some (dest.take offset ++ (source.take count).map some ++ dest.drop (offset + count))
  else none

def memset (dest : Contents) (byte : UInt8) (count : Nat) : Option Contents :=
  if count ≤ dest.length then
    some (List.replicate count (some byte) ++ dest.drop count)
  else none

/-- The sign of the first difference. -/
def compareBytes : List UInt8 → List UInt8 → Int
  | a :: s, b :: t => if a = b then compareBytes s t else (a.toNat : Int) - b.toNat
  | _, _ => 0

def memcmp (s t : List UInt8) (n : Nat) : Option Int :=
  if n ≤ s.length ∧ n ≤ t.length then some (compareBytes (s.take n) (t.take n)) else none

section

variable {dest dest' rest : Contents} {source done : List UInt8} {offset count : Nat}

theorem memcpy_append (hdest : count ≤ rest.length) (hsource : count ≤ source.length) :
    memcpy (done.map some ++ rest) done.length source count =
      some ((done ++ source.take count).map some ++ rest.drop count) := by
  have hlength : (done.map some).length = done.length := List.length_map some
  have hbound : done.length + count ≤ (done.map some ++ rest).length := by
    rw [List.length_append, hlength]
    exact Nat.add_le_add_left hdest _
  rw [memcpy, if_pos ⟨hbound, hsource⟩, List.take_append_of_le_length (Nat.le_of_eq hlength.symm),
    List.take_of_length_le (Nat.le_of_eq hlength), List.map_append]
  congr 2
  rw [List.drop_append, hlength, Nat.add_sub_cancel_left,
    List.drop_eq_nil_of_le (by omega), List.nil_append]

theorem memcpy_zero (hdest : count ≤ dest.length) (hsource : count ≤ source.length) :
    memcpy dest 0 source count = some ((source.take count).map some ++ dest.drop count) :=
  @memcpy_append dest source [] count hdest hsource

theorem memset_length (h : count = dest.length) (byte : UInt8) :
    memset dest byte count = some (List.replicate count (some byte)) := by
  rw [memset, if_pos (Nat.le_of_eq h), h, List.drop_length, List.append_nil]

theorem compareBytes_eq_zero_iff {s t : List UInt8} (h : s.length = t.length) :
    compareBytes s t = 0 ↔ s = t := by
  induction s generalizing t with
  | nil =>
      obtain rfl := List.eq_nil_of_length_eq_zero h.symm
      exact iff_of_true rfl rfl
  | cons a s ih =>
      cases t with
      | nil => cases h
      | cons b t =>
          rw [compareBytes, List.cons.injEq]
          split
          · rename_i heq
            rw [ih (Nat.succ.inj h)]
            exact (and_iff_right heq).symm
          · rename_i hne
            refine iff_of_false (fun hzero => hne ?_) fun heq => hne heq.1
            apply UInt8.toNat_inj.mp
            omega

theorem memcmp_eq_some_iff {s t : List UInt8} {n : Nat} {differs : Bool} :
    (memcmp s t n).map (fun value => decide (value ≠ 0)) = some differs ↔
      (n ≤ s.length ∧ n ≤ t.length) ∧ (differs = true ↔ s.take n ≠ t.take n) := by
  unfold memcmp
  split
  · rename_i hbounds
    have hlength : (s.take n).length = (t.take n).length := by
      rw [List.length_take_of_le hbounds.1, List.length_take_of_le hbounds.2]
    have hequal := compareBytes_eq_zero_iff hlength
    rw [Option.map_some, Option.some.injEq, and_iff_right hbounds]
    cases differs <;> simp [hequal]
  · rename_i hbounds
    simp [hbounds]

end

structure Range where
  offset : Nat
  count : Nat
deriving DecidableEq

def Range.indices (r : Range) : Set Nat :=
  Set.Ico r.offset (r.offset + r.count)

/-- Each range starts where the one before it stops. -/
def Abut : Nat → List Range → Nat → Prop
  | first, [], last => first = last
  | first, r :: l, last => r.offset = first ∧ Abut (first + r.count) l last

section

variable {l : List Range} {first last : Nat}

theorem Abut.concat (h : Abut first l last) (count : Nat) :
    Abut first (l ++ [⟨last, count⟩]) (last + count) := by
  induction l generalizing first with
  | nil =>
      obtain rfl := h
      exact ⟨rfl, rfl⟩
  | cons r l ih => exact ⟨h.1, ih h.2⟩

theorem Abut.le (h : Abut first l last) : first ≤ last := by
  induction l generalizing first with
  | nil => exact h.le
  | cons r l ih => exact (Nat.le_add_right _ _).trans (ih h.2)

theorem Abut.exists_mem_iff (h : Abut first l last) (x : Nat) :
    (∃ r ∈ l, x ∈ r.indices) ↔ first ≤ x ∧ x < last := by
  induction l generalizing first with
  | nil =>
      obtain rfl := h
      simp
  | cons r l ih =>
      obtain ⟨rfl, hrest⟩ := h
      have hle := hrest.le
      simp only [List.mem_cons, exists_eq_or_imp]
      rw [ih hrest, Range.indices, Set.mem_Ico]
      omega

theorem Abut.disjoint (h : Abut first l last) :
    l.Pairwise fun r s => Disjoint r.indices s.indices := by
  induction l generalizing first with
  | nil => exact .nil
  | cons r l ih =>
      obtain ⟨rfl, hrest⟩ := h
      refine .cons (fun s hs => ?_) (ih hrest)
      rw [Set.disjoint_left]
      intro x hx hmem
      have hlater := (hrest.exists_mem_iff x).mp ⟨s, hs, hmem⟩
      exact absurd hx.2 (not_lt.mpr hlater.1)

end

end SyscallReplayer.ByteBuffers
