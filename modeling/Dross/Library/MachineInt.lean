import Mathlib.Algebra.Order.Ring.Int
import Mathlib.Tactic.Common

/-!
# Signed integers of a fixed width

Arithmetic that overflows has no result. Code written with `checked` around every operation
has a result exactly when none of them overflows, and then the one of unbounded integers.
-/

namespace MachineInt

/-- What a signed integer of so many bits holds. -/
def InWidth (bits : Nat) (x : Int) : Prop := -2 ^ (bits - 1) ≤ x ∧ x < 2 ^ (bits - 1)

instance decidableInWidth (bits : Nat) (x : Int) : Decidable (InWidth bits x) :=
  inferInstanceAs (Decidable (_ ∧ _))

def checked (bits : Nat) (x : Int) : Option Int := if InWidth bits x then some x else none

theorem checked_eq {bits : Nat} {x : Int} (h : InWidth bits x) : checked bits x = some x :=
  if_pos h

theorem InWidth.of_between {bits : Nat} {low x high : Int} (hl : InWidth bits low)
    (hh : InWidth bits high) (above : low ≤ x) (below : x ≤ high) : InWidth bits x :=
  ⟨hl.1.trans above, below.trans_lt hh.2⟩

/-- What a quotient times its divisor gives is no further from zero than the dividend. -/
theorem InWidth.tdiv_mul {bits : Nat} {x : Int} (h : InWidth bits x) (zero : InWidth bits 0)
    (y : Int) : InWidth bits (x.tdiv y * y) := by
  have split := Int.tdiv_mul_add_tmod x y
  have size := Nat.mod_le x.natAbs y.natAbs
  rw [← Int.natAbs_tmod] at size
  rcases le_or_gt 0 x with nonneg | negative
  · have rest := Int.tmod_nonneg y nonneg
    exact zero.of_between h (by omega) (by omega)
  · have rest := Int.tmod_nonneg y (show (0 : Int) ≤ -x by omega)
    rw [Int.neg_tmod] at rest
    exact h.of_between zero (by omega) (by omega)

/-- A quotient is no further from zero than the dividend. -/
theorem InWidth.tdiv {bits : Nat} {x : Int} (h : InWidth bits x) (zero : InWidth bits 0) {y : Int}
    (nonneg : 0 ≤ y) : InWidth bits (x.tdiv y) := by
  have size := Int.natAbs_tdiv_le_natAbs x y
  rcases le_or_gt 0 x with above | below
  · have same := Int.tdiv_nonneg above nonneg
    exact zero.of_between h same (by omega)
  · have same := Int.tdiv_nonneg (show (0 : Int) ≤ -x by omega) nonneg
    rw [Int.neg_tdiv] at same
    exact h.of_between zero (by omega) (by omega)

theorem InWidth.ediv {bits : Nat} {x : Int} (h : InWidth bits x) (zero : InWidth bits 0) {y : Int}
    (positive : 0 < y) : InWidth bits (x / y) := by
  rcases le_or_gt 0 x with above | below
  · exact zero.of_between h (Int.ediv_nonneg above positive.le) (Int.ediv_le_self y above)
  · have low : x ≤ x / y := by
      rw [Int.le_ediv_iff_mul_le positive]
      have scaled := Int.mul_le_mul_of_nonpos_left below.le (show 1 ≤ y by omega)
      rwa [Int.mul_one] at scaled
    have high := Int.ediv_neg_of_neg_of_pos below positive
    exact h.of_between zero low high.le

end MachineInt
