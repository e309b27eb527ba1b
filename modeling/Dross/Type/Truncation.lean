import Dross.Type.Quotient
import Mathlib.Data.Rat.Floor
import Mathlib.Algebra.Order.Floor.Semifield
import Mathlib.Data.Sign.Basic

/-!
# Truncated division

A quotient that does not end is cut off after 34 significant digits, or after its integer
part when that alone has as many. What is kept of it is never rounded up.
-/

namespace Dross

/-- `r` is `q` cut off toward zero after so many significant digits, counted from the
first that is not zero, and never before the point. -/
structure CutOff (q r : ℚ) (digits : Nat) : Prop where
  sign : SignType.sign r = SignType.sign q
  below : |r| ≤ |q|
  integer : ⌊|r|⌋₊ = ⌊|q|⌋₊
  cut : ∃ places : Nat, |r| = (⌊|q| * 10 ^ places⌋₊ : ℚ) / 10 ^ places ∧
    |q| - |r| < 1 / 10 ^ places ∧
    if digits ≤ significance ⌊|q|⌋₊ then places = 0
    else significance ⌊|q| * 10 ^ places⌋₊ = digits

/-! ## Significant digits -/

theorem significance_scaled {n m length : Nat} (positive : 0 < n) (below : m < 10 ^ length) :
    significance (n * 10 ^ length + m) = significance n + length := by
  have nonzero : n ≠ 0 := positive.ne'
  have least : ¬ significance n ≤ significance n - 1 := by
    have := significance_zero.not.mpr nonzero
    omega
  rw [significance_le, Nat.not_lt] at least
  have most := significance_le.mp (Nat.le_refl (significance n))
  apply Nat.le_antisymm
  · rw [significance_le, pow_add]
    have := Nat.mul_le_mul_right (10 ^ length) (Nat.succ_le_of_lt most)
    rw [Nat.succ_mul] at this
    omega
  · have some' := significance_zero.not.mpr nonzero
    by_contra short
    have few : significance (n * 10 ^ length + m) ≤ significance n - 1 + length := by omega
    rw [significance_le, pow_add] at few
    have := Nat.mul_le_mul_right (10 ^ length) least
    omega

/-- Zeros in front of a number are not significant. -/
theorem significance_natural {t : Text} (digits : AllDigits t) :
    significance (natural t) + (t.takeWhile (fun c => c == ch '0')).length = t.length := by
  induction t with
  | nil => rfl
  | cons c t ih =>
    rw [AllDigits.cons] at digits
    have below := natural_lt digits.2
    rw [natural_cons]
    by_cases zero : c = ch '0'
    · have none : digit c = 0 := (digit_eq_zero digits.1).mpr zero
      have rest := ih digits.2
      rw [none, Nat.zero_mul, Nat.zero_add]
      simp only [zero, beq_self_eq_true, List.takeWhile_cons_of_pos, List.length_cons]
      omega
    · have some' : 0 < digit c := Nat.pos_of_ne_zero ((digit_eq_zero digits.1).not.mpr zero)
      have one : significance (digit c) = 1 := by
        have small := digit_lt digits.1
        have most := (@significance_le (digit c) 1).mpr (by omega)
        have least := (@significance_zero (digit c)).not.mpr some'.ne'
        omega
      rw [significance_scaled some' below, one]
      simp [zero]
      omega

theorem floor_scaled (D V places : Nat) :
    ⌊(D : ℚ) / V * 10 ^ places⌋₊ = D * 10 ^ places / V := by
  rw [← Nat.floor_div_eq_div (K := ℚ)]
  push_cast
  rw [div_mul_eq_mul_div]

section Kept

variable {D V significantDigits fractionDigits rest : Nat} {quotient part kept remainder : Text}
  {terminates : Bool}

/-- A remainder is left only where the quotient was not taken to end. -/
theorem Divided.open_of_rest (h : Divided D V significantDigits quotient part kept remainder
    terminates fractionDigits rest) (asked : 0 < significantDigits) (left : rest ≠ 0) :
    terminates = false := by
  have whole : D % V ≠ 0 := by
    intro none
    have sum := h.out.dividing.sum
    rw [none, Nat.zero_mul] at sum
    omega
  obtain ⟨ends, digits⟩ := h.taken whole asked
  by_contra taken
  rw [Bool.not_eq_false] at taken
  have long := h.out.ended taken left
  rw [taken, eq_comm, decide_eq_true_iff] at ends
  have sum := @Dividing.writtenOut_sum V (D / V) _ _ _ _ h.out.dividing
  rw [Nat.mul_comm (D / V), Nat.div_add_mod] at sum
  have divides : V ∣ D * 10 ^ part.length :=
    ends.2.trans (Nat.mul_dvd_mul_left _ (Nat.pow_dvd_pow 10 (digits ▸ long)))
  rw [← sum] at divides
  exact left (Nat.eq_zero_of_dvd_of_lt ((Nat.dvd_add_right (dvd_mul_left V _)).mp divides)
    h.out.dividing.below)

/-- The digits that the source cuts off at the end are none of those it wrote: its two
counts of significant digits agree. -/
theorem Divided.kept_eq (h : Divided D V significantDigits quotient part kept remainder
    terminates fractionDigits rest) : kept = part := by
  by_cases left : rest = 0
  · exact h.all left
  by_cases asked : significantDigits = 0
  · have none := h.whole asked
    have begins := h.begins
    rw [none] at begins ⊢
    exact List.prefix_nil.mp begins
  rw [h.cut left]
  apply List.take_of_length_le
  have open' := h.open_of_rest (by omega) left
  rcases h.out.short open' with empty | short
  · simp [empty]
  · have enough := h.out.enough open' left
    have digits := h.out.dividing.digits
    have below := natural_lt digits
    have zero := h.integer.natural_eq_zero
    have length := h.integer.length
    unfold writtenOut at short enough
    unfold keptDigits
    simp only [zero]
    by_cases none : D / V = 0
    · have zeros := significance_natural digits
      rw [none, Nat.zero_mul, Nat.zero_add] at short enough
      simp only [none, decide_true, if_true]
      rw [if_neg (by omega)]
      omega
    · have positive := Nat.pos_of_ne_zero none
      have some' := (@significance_zero (D / V)).not.mpr none
      rw [significance_scaled positive below] at short enough
      simp only [none, decide_false, Bool.false_eq_true, if_false]
      split <;> omega

/-! ## The quotient -/

/-- What is written out is the quotient at the scale of its digits, rounded down. -/
theorem Divided.writtenOut_eq (h : Divided D V significantDigits quotient part kept remainder
    terminates fractionDigits rest) :
    writtenOut (D / V) part = D * 10 ^ part.length / V := by
  have below := h.out.dividing.below
  have sum := @Dividing.writtenOut_sum V (D / V) _ _ _ _ h.out.dividing
  rw [Nat.mul_comm (D / V), Nat.div_add_mod] at sum
  rw [← sum, Nat.mul_comm, Nat.mul_add_div (by omega), Nat.div_eq_of_lt below, Nat.add_zero]

theorem Divided.decimal_eq (h : Divided D V significantDigits quotient part kept remainder
    terminates fractionDigits rest) :
    decimal quotient kept = (⌊(D : ℚ) / V * 10 ^ part.length⌋₊ : ℚ) / 10 ^ part.length := by
  rw [h.kept_eq, floor_scaled, ← h.writtenOut_eq, decimal, natural_append, h.integer.digits.2.2]
  rfl

/-- Digits are written until there are enough significant ones, and not before the point. -/
theorem Divided.places (h : Divided D V significantDigits quotient part kept remainder
    terminates fractionDigits rest) (asked : 0 < significantDigits) (left : rest ≠ 0) :
    if significantDigits ≤ significance ⌊(D : ℚ) / V⌋₊ then part.length = 0
    else significance ⌊(D : ℚ) / V * 10 ^ part.length⌋₊ = significantDigits := by
  have open' := h.open_of_rest asked left
  have enough := h.out.enough open' left
  have below := natural_lt h.out.dividing.digits
  rw [Nat.floor_div_eq_div, floor_scaled, ← h.writtenOut_eq]
  rcases h.out.short open' with empty | short
  · split
    · rw [empty]
      rfl
    · rename_i few
      rw [empty, writtenOut, List.length_nil, pow_zero, Nat.mul_one, natural_nil,
        Nat.add_zero] at enough
      exact absurd enough few
  · split
    · rename_i many
      have positive : 0 < D / V :=
        Nat.pos_of_ne_zero (significance_zero.not.mp (by omega))
      rw [writtenOut, significance_scaled positive below] at short
      omega
    · exact Nat.le_antisymm short enough

end Kept

/-- A magnitude rounded down at some place, under its sign. -/
theorem cutOff_floor {x : ℚ} (nonneg : 0 ≤ x) {digits places : Nat} (asked : 0 < digits)
    (cut : if digits ≤ significance ⌊x⌋₊ then places = 0
      else significance ⌊x * 10 ^ places⌋₊ = digits) (negative : Bool) :
    CutOff ((if negative then -1 else 1) * x)
      ((if negative then -1 else 1) * ((⌊x * 10 ^ places⌋₊ : ℚ) / 10 ^ places)) digits := by
  have power : (0 : ℚ) < 10 ^ places := by positivity
  have scaled : 0 ≤ x * 10 ^ places := by positivity
  have some' : 0 < ⌊x * 10 ^ places⌋₊ := by
    apply Nat.pos_of_ne_zero
    apply significance_zero.not.mp
    split at cut
    · rename_i many
      rw [cut, pow_zero, mul_one]
      omega
    · omega
  generalize hy : (⌊x * 10 ^ places⌋₊ : ℚ) / 10 ^ places = y
  have positive : 0 < y := by
    rw [← hy]
    have : (0 : ℚ) < ⌊x * 10 ^ places⌋₊ := by exact_mod_cast some'
    positivity
  have below : y ≤ x := by
    rw [← hy, div_le_iff₀ power]
    exact Nat.floor_le scaled
  have close : x - y < 1 / 10 ^ places := by
    have less := Nat.lt_floor_add_one (x * 10 ^ places)
    calc x - y = (x * 10 ^ places - ⌊x * 10 ^ places⌋₊) / 10 ^ places := by
          rw [← hy]
          field_simp
      _ < 1 / 10 ^ places := by
          rw [div_lt_div_iff_of_pos_right power]
          linarith
  have absX : |(if negative then -1 else 1) * x| = x := by rw [abs_sign, abs_of_nonneg nonneg]
  have absY : |(if negative then -1 else 1) * y| = y := by rw [abs_sign, abs_of_pos positive]
  constructor
  · rw [sign_mul, sign_mul, sign_pos positive, sign_pos (positive.trans_le below)]
  · rwa [absX, absY]
  · have whole : ⌊x⌋₊ = ⌊x * 10 ^ places⌋₊ / 10 ^ places := by
      have split : x = x * 10 ^ places / ((10 ^ places : Nat) : ℚ) := by
        push_cast
        field_simp
      conv_lhs => rw [split, Nat.floor_div_natCast]
    rw [absX, absY, ← hy, whole, ← Nat.floor_div_eq_div (K := ℚ)]
    push_cast
    rfl
  · refine ⟨places, ?_, ?_, ?_⟩
    · rw [absX, absY, hy]
    · rwa [absX, absY]
    · rwa [absX]

namespace Number

theorem performArithmetic_over_zero {a b : Number} (notA : a.isNan = false) (notB : b.isNan = false)
    (zero : b.value = 0) : performArithmetic a.number b.number .over = some nanValue := by
  obtain ⟨negA, negB, i, f, j, g, D, V, h⟩ := exists_operands notA notB
  have notNan := h.taken.1
  have text := h.zero_text
  rw [decide_eq_true (h.zero_iff.mp zero)] at text
  unfold performArithmetic
  simp only [notNan, text, Bool.false_eq_true, if_false, if_true]

theorem calculate_over_zero {a b : Number} (notA : a.isNan = false) (notB : b.isNan = false)
    (zero : b.value = 0) : ∃ r, a.calculate b .over = some r ∧ r.isNan = true := by
  obtain ⟨r, result, number⟩ :=
    calculate_some (performArithmetic_over_zero notA notB zero) (Or.inl rfl)
  exact ⟨r, result, isNan_iff.mpr number⟩

/-- Division always comes to an end. It gives NaN only for a NaN or a zero divisor, and
where it does not give the quotient itself, it gives it cut off after 34 digits. -/
theorem division_truncates (a b : Number) : ∃ r, a.calculate b .over = some r ∧
    (r.isNan = true ↔ a.isNan = true ∨ b.isNan = true ∨ b.value = 0) ∧
    (a.isNan = false → b.isNan = false → b.value ≠ 0 → r.value ≠ a.value / b.value →
      CutOff (a.value / b.value) r.value 34) := by
  by_cases nan : a.isNan = true ∨ b.isNan = true
  · obtain ⟨r, result, nanR⟩ := calculate_nan nan .over
    refine ⟨r, result, ⟨fun _ => nan.imp_right Or.inl, fun _ => nanR⟩, ?_⟩
    intro notA notB
    rw [notA, notB] at nan
    simp at nan
  · rw [not_or, Bool.not_eq_true, Bool.not_eq_true] at nan
    obtain ⟨notA, notB⟩ := nan
    by_cases zero : b.value = 0
    · obtain ⟨r, result, nanR⟩ := calculate_over_zero notA notB zero
      exact ⟨r, result, ⟨fun _ => Or.inr (Or.inr zero), fun _ => nanR⟩,
        fun _ _ nonzero => absurd zero nonzero⟩
    · obtain ⟨negA, negB, i, f, j, g, D, V, h⟩ := exists_operands notA notB
      have nonzero := h.zero_iff.not.mp zero
      obtain ⟨quotient, part, kept, remainder, terminates, fractionDigits, rest, division, d⟩ :=
        dividePositiveNumbers_run h.partsA h.partsB h.dividend h.divisor nonzero
          quotientSignificantDigits
      have digits := d.integer.digits
      obtain ⟨r, result, notR, value⟩ := h.calculate_over nonzero division
        (writes_combined digits.1
          (d.out.dividing.digits.of_subset (fun _ mem => d.begins.subset mem)) digits.2.1.1)
      refine ⟨r, result, ?_, ?_⟩
      · simp [notA, notB, notR, zero]
      · intro _ _ _ inexact
        have left : rest ≠ 0 := by
          intro none
          have exact' := (d.out.dividing.decimal_eq_iff digits.2.2 d.begins d.all).mpr none
          rw [Nat.mul_comm, Nat.div_add_mod] at exact'
          rw [value, exact', ← h.quotient] at inexact
          exact inexact rfl
        rw [value, h.quotient, d.decimal_eq]
        exact cutOff_floor (by positivity) (by decide) (d.places (by decide) left) _

/-- 1 / 3 does not end. -/
theorem division_truncates_third :
    ∃ r, (ofText [ch '1']).calculate (ofText [ch '3']) .over = some r ∧
    CutOff ((ofText [ch '1']).value / (ofText [ch '3']).value) r.value 34 := by
  obtain ⟨r, result, _, cut⟩ := division_truncates (ofText [ch '1']) (ofText [ch '3'])
  refine ⟨r, result, cut (by decide) (by decide) (by decide +kernel) ?_⟩
  have inexact : ∀ r ∈ (ofText [ch '1']).calculate (ofText [ch '3']) .over,
      r.value ≠ (ofText [ch '1']).value / (ofText [ch '3']).value := by decide +kernel
  exact inexact r result

end Number

end Dross
