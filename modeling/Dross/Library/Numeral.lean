import Mathlib.Data.Nat.Digits.Lemmas
import Mathlib.Tactic.Ring

/-!
# Numerals

The value of a list of digits written with the most significant one first, in
any base. `Nat.ofDigits` reads the least significant one first, so its lemmas
carry over through `reverse`.
-/

namespace Numeral

variable {base : Nat}

def value (base : Nat) (digits : List Nat) : Nat := Nat.ofDigits base digits.reverse

@[simp] theorem value_nil : value base [] = 0 := rfl

@[simp] theorem value_singleton (d : Nat) : value base [d] = d := by
  simp [value]

theorem value_append (left right : List Nat) :
    value base (left ++ right) = value base left * base ^ right.length + value base right := by
  simp only [value, List.reverse_append, Nat.ofDigits_append, List.length_reverse]
  ring

theorem value_concat (digits : List Nat) (d : Nat) :
    value base (digits ++ [d]) = base * value base digits + d := by
  rw [value_append, value_singleton, List.length_singleton, pow_one]
  ring

theorem value_cons (d : Nat) (digits : List Nat) :
    value base (d :: digits) = d * base ^ digits.length + value base digits := by
  have split := @value_append base [d] digits
  rwa [value_singleton, List.singleton_append] at split

@[simp] theorem value_zeros (count : Nat) : value base (List.replicate count 0) = 0 := by
  simp [value]

theorem value_lt {digits : List Nat} (one : 1 < base) (small : ∀ d ∈ digits, d < base) :
    value base digits < base ^ digits.length := by
  have bound := Nat.ofDigits_lt_base_pow_length one
    (fun d mem => small d (List.mem_reverse.mp mem) : ∀ d ∈ digits.reverse, d < base)
  rwa [List.length_reverse] at bound

/-- Writing one digit in place changes the value by its place. -/
theorem value_set {digits : List Nat} {place : Nat} (inside : place < digits.length) (d : Nat) :
    value base (digits.set place d) +
        digits.getD place 0 * base ^ (digits.length - (place + 1)) =
      value base digits + d * base ^ (digits.length - (place + 1)) := by
  induction digits generalizing place with
  | nil => simp at inside
  | cons c digits ih =>
    cases place with
    | zero =>
      simp only [List.set_cons_zero, value_cons, List.getD_cons_zero, List.length_cons,
        Nat.zero_add, Nat.add_sub_cancel]
      omega
    | succ place =>
      have step := ih (Nat.lt_of_succ_lt_succ inside)
      simp only [List.set_cons_succ, value_cons, List.getD_cons_succ, List.length_cons,
        List.length_set, Nat.add_sub_add_right] at step ⊢
      omega

/-- Digits of one length and one value are the same digits. -/
theorem value_injective {left right : List Nat} (one : 1 < base)
    (smallLeft : ∀ d ∈ left, d < base) (smallRight : ∀ d ∈ right, d < base)
    (length : left.length = right.length) (same : value base left = value base right) :
    left = right := by
  have reversed := Nat.ofDigits_inj_of_len_eq one (by simpa using length)
    (fun d mem => smallLeft d (List.mem_reverse.mp mem))
    (fun d mem => smallRight d (List.mem_reverse.mp mem)) same
  exact List.reverse_injective reversed

/-- A first digit that is not zero fixes how long the digits are. -/
theorem pow_le_value {d : Nat} {digits : List Nat} (nonzero : d ≠ 0) :
    base ^ digits.length ≤ value base (d :: digits) := by
  rw [value_cons]
  have first : 1 * base ^ digits.length ≤ d * base ^ digits.length :=
    Nat.mul_le_mul_right _ (Nat.one_le_iff_ne_zero.mpr nonzero)
  omega

/-- Without a leading zero, a numeral with more digits is the greater. -/
theorem value_lt_of_length_lt {left right : List Nat} {d : Nat} (one : 1 < base)
    (small : ∀ d ∈ left, d < base) (nonzero : d ≠ 0)
    (shorter : left.length < (d :: right).length) :
    value base left < value base (d :: right) := by
  have upper := value_lt one small
  have lower := @pow_le_value base d right nonzero
  have powers : base ^ left.length ≤ base ^ right.length :=
    Nat.pow_le_pow_right (by omega) (by simpa [Nat.lt_succ_iff] using shorter)
  omega

end Numeral
