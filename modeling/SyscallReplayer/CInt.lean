import Mathlib.Algebra.Order.Ring.Int

namespace SyscallReplayer.CInt

/-- The value an `int` keeps of a wider signed integer. -/
def int32 (x : Int) : Int :=
  x.bmod (2 ^ 32)

/-- The value an unsigned 64-bit word keeps. -/
def uint64 (x : Int) : Int :=
  x % 2 ^ 64

def longLongMax : Int :=
  2 ^ 63 - 1

def ulongMax : Int :=
  2 ^ 64 - 1

theorem int32_lower (x : Int) : -2 ^ 31 ≤ int32 x := by
  have h := Int.le_bmod (x := x) (m := 2 ^ 32) (by decide)
  unfold int32
  omega

theorem int32_upper (x : Int) : int32 x < 2 ^ 31 := by
  have h := Int.bmod_lt (x := x) (m := 2 ^ 32) (by decide)
  unfold int32
  omega

theorem int32_eq_self {x : Int} (hlower : -2 ^ 31 ≤ x) (hupper : x < 2 ^ 31) :
    int32 x = x :=
  Int.bmod_eq_of_le (by omega) (by omega)

theorem int32_int32 (x : Int) : int32 (int32 x) = int32 x :=
  int32_eq_self (int32_lower x) (int32_upper x)

theorem int32_eq_int32_iff {x y : Int} : int32 x = int32 y ↔ 2 ^ 32 ∣ x - y := by
  unfold int32
  rw [Int.bmod_eq_bmod_iff_bmod_sub_eq_zero]
  exact ⟨Int.dvd_of_bmod_eq_zero, Int.bmod_eq_zero_of_dvd⟩

/-- The values of an `int`. -/
def FitsInt (x : Int) : Prop :=
  -2 ^ 31 ≤ x ∧ x < 2 ^ 31

theorem eq_int32_iff {x y : Int} : x = int32 y ↔ FitsInt x ∧ 2 ^ 32 ∣ x - y := by
  constructor
  · rintro rfl
    refine ⟨⟨int32_lower y, int32_upper y⟩, ?_⟩
    rw [← int32_eq_int32_iff, int32_int32]
  · rintro ⟨hfits, hdvd⟩
    rw [← int32_eq_int32_iff, int32_eq_self hfits.1 hfits.2] at hdvd
    exact hdvd

theorem uint64_nonneg (x : Int) : 0 ≤ uint64 x :=
  Int.emod_nonneg x (by decide)

theorem uint64_le_self {x : Int} (hx : 0 ≤ x) : uint64 x ≤ x := by
  unfold uint64
  omega

theorem uint64_eq_self {x : Int} (hlower : 0 ≤ x) (hupper : x < 2 ^ 64) :
    uint64 x = x :=
  Int.emod_eq_of_lt hlower hupper

end SyscallReplayer.CInt
