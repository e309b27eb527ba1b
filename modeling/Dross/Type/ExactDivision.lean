import Dross.Type.NumberOrder
import Dross.Type.Quotient
import Mathlib.Data.Rat.Floor
import Mathlib.Algebra.Order.Floor.Semifield

/-!
# Exact division

`operator/` says that a quotient which ends within 4096 digits is exact. It is,
unless the divisor, scaled to a whole number, has more factors of ten than
there is room for: then 34 significant digits are kept of a quotient that may
have more.
-/

namespace Dross

/-- So many digits after the point are enough to write `q`. -/
def FractionFits (q : ℚ) (places : Nat) : Prop := ∃ m : Nat, |q| * 10 ^ places = m

/-- The digits before the point, at least one. -/
def integerDigits (q : ℚ) : Nat := max 1 (significance ⌊|q|⌋₊)

/-- The decimal expansion ends, and has no more digits than the limit once trailing zeros
are dropped. -/
def TerminatesWithin (q : ℚ) (limit : Nat) : Prop :=
  ∃ places, FractionFits q places ∧ (∀ fewer < places, ¬ FractionFits q fewer) ∧
    integerDigits q + places ≤ limit

/-- So many significant digits are enough to write `q`. -/
def SignificantFits (q : ℚ) (digits : Nat) : Prop :=
  ∃ places m : Nat, m < 10 ^ digits ∧ |q| * 10 ^ places = m

namespace Number

/-- The divisor as the whole number the source scales it to. -/
def scaledDivisor (a b : Number) : Nat :=
  natural (scaledText (numberParts b.number).integer (numberParts b.number).fractional
    (numberParts a.number).fractional)

/-- The quotient is whole, or has 34 significant digits at most, or there is room for as
many digits after the point as the scaled divisor has factors of 2 or of 5. -/
def DivisionFits (a b : Number) : Prop :=
  FractionFits (a.value / b.value) 0 ∨
    SignificantFits (a.value / b.value) quotientSignificantDigits ∨
    integerDigits (a.value / b.value) + tenDigits (scaledDivisor a b) ≤ maxExpandedDigits

end Number

/-! ## From whole numbers to rationals -/

section Whole

variable {D V : Nat} {q : ℚ}

theorem fractionFits_iff (positive : 0 < V) (hq : |q| = (D : ℚ) / V) (places : Nat) :
    FractionFits q places ↔ V ∣ D * 10 ^ places := by
  have nonzero : (V : ℚ) ≠ 0 := by exact_mod_cast positive.ne'
  unfold FractionFits
  rw [hq]
  constructor
  · rintro ⟨m, value⟩
    refine ⟨m, ?_⟩
    field_simp at value
    exact_mod_cast value
  · rintro ⟨m, value⟩
    refine ⟨m, ?_⟩
    field_simp
    exact_mod_cast value

theorem significantFits_iff (positive : 0 < V) (hq : |q| = (D : ℚ) / V) (digits : Nat) :
    SignificantFits q digits ↔ ∃ n m, m < 10 ^ digits ∧ D * 10 ^ n = m * V := by
  have nonzero : (V : ℚ) ≠ 0 := by exact_mod_cast positive.ne'
  have value : ∀ n m : Nat, |q| * 10 ^ n = m ↔ D * 10 ^ n = m * V := by
    intro n m
    rw [hq, div_mul_eq_mul_div, div_eq_iff nonzero]
    exact_mod_cast Iff.rfl
  unfold SignificantFits
  simp only [value]

theorem integerDigits_eq (hq : |q| = (D : ℚ) / V) :
    integerDigits q = max 1 (significance (D / V)) := by
  rw [integerDigits, hq, Nat.floor_div_eq_div]

end Whole

namespace Number

theorem equals_iff {a b : Number} (notA : a.isNan = false) (notB : b.isNan = false) :
    a.equals b = true ↔ a.value = b.value := by
  rw [equals_compare, beq_iff_eq, compare_eq, rank_number notA, rank_number notB, WithBot.coe_inj]

/-- Where the quotient ends within the limit, it is exact under one condition on the
operands. -/
theorem quotient_exact_iff {a b : Number} (notA : a.isNan = false) (notB : b.isNan = false)
    (nonzero : b.value ≠ 0) (terminates : TerminatesWithin (a.value / b.value) maxExpandedDigits) :
    ∃ q, a.calculate b .over = some q ∧ q.isNan = false ∧
      (q.value = a.value / b.value ↔ DivisionFits a b) := by
  obtain ⟨negA, negB, i, f, j, g, D, V, h⟩ := exists_operands notA notB
  have nonzeroV : V ≠ 0 := h.zero_iff.not.mp nonzero
  have positive : 0 < V := Nat.pos_of_ne_zero nonzeroV
  have quotient := h.abs_quotient
  obtain ⟨t, w, division, written, exact'⟩ := @dividePositiveNumbers_spec i f j g h.partsA h.partsB
    D V h.dividend h.divisor nonzeroV quotientSignificantDigits (by decide)
  obtain ⟨q, result, notQ, valueQ⟩ := h.calculate_over nonzeroV division written
  refine ⟨q, result, notQ, ?_⟩
  have sign : (if negA != negB then -1 else 1 : ℚ) ≠ 0 := by split <;> norm_num
  rw [valueQ, h.quotient, mul_right_inj' sign, exact', DivisionFits, fractionFits_iff positive quotient,
    significantFits_iff positive quotient, integerDigits_eq quotient, pow_zero, Nat.mul_one]
  -- the expansion ends, so the factors of ten in the divisor are enough
  obtain ⟨places, fits, _⟩ := terminates
  rw [fractionFits_iff positive quotient] at fits
  obtain ⟨_, _, F, _, _, _, free⟩ := @stripFactors_spec (trimZeros (scaledText j g f)) V (by
      rw [← h.divisor]
      exact writes_trimZeros (AllDigits.append.mpr ⟨h.partsB.integerDigits,
        h.partsB.fractionDigits.padded _⟩) (by simp [scaledText, h.partsB.trimmed.1])) nonzeroV
  have enough := free.enough fits
  have scaled : scaledDivisor a b = V := by
    rw [scaledDivisor, h.textA, h.textB, numberParts_signed h.partsA, numberParts_signed h.partsB]
    exact h.divisor
  rw [scaled]
  constructor
  · rintro (whole | room | short)
    · exact Or.inl whole
    · exact Or.inr (Or.inr room.1)
    · exact Or.inr (Or.inl short)
  · rintro (whole | short | room)
    · exact Or.inl whole
    · exact Or.inr (Or.inr short)
    · exact Or.inr (Or.inl ⟨room, enough⟩)

theorem ofText_writes {t : Text} {v : ℚ} (h : Writes t v) :
    (ofText t).number = t ∧ (ofText t).isNan = false ∧ (ofText t).value = v := by
  have stored : (ofText t).number = t := h.canonical.1.canonicalText
  refine ⟨stored, ?_, ?_⟩
  · rw [isNan, stored]
    exact beq_eq_false_iff_ne.mpr h.canonical.1.ne_nan
  · rw [value, stored]
    exact h.canonical.2

/-- An exact quotient, also of multiples of both operands, under exactly these conditions. -/
theorem division_exact_iff (a b k : Number) (notA : a.isNan = false) (notB : b.isNan = false)
    (notK : k.isNan = false) (nonzero : b.value ≠ 0) (nonzeroK : k.value ≠ 0)
    (terminates : TerminatesWithin (a.value / b.value) maxExpandedDigits) :
    ∃ q ak bk q', a.calculate b .over = some q ∧ a.calculate k .times = some ak ∧
      b.calculate k .times = some bk ∧ ak.calculate bk .over = some q' ∧
      (q.isNan = false ∧ q.value = a.value / b.value ↔ DivisionFits a b) ∧
      ((q.isNan = false ∧ q.value = a.value / b.value) ∧ q'.equals q = true ↔
        DivisionFits a b ∧ DivisionFits ak bk) := by
  have times := fun {a : Number} (notA : a.isNan = false) =>
    calculate_exactly (performArithmetic_leaves (canonical_of notA) (canonical_of notK)).2.2
  obtain ⟨ak, timesA, exactA⟩ := times notA
  obtain ⟨bk, timesB, exactB⟩ := times notB
  have nan := fun {n : Number} {v : ℚ} (h : n.Exactly v) =>
    (beq_eq_false_iff_ne.mpr h.canonical.ne_nan : n.isNan = false)
  have valueA : ak.value = a.value * k.value := exactA.value_eq
  have valueB : bk.value = b.value * k.value := exactB.value_eq
  have ratio : ak.value / bk.value = a.value / b.value := by
    rw [valueA, valueB, mul_div_mul_right _ _ nonzeroK]
  obtain ⟨q, quotient, notQ, exactQ⟩ := quotient_exact_iff notA notB nonzero terminates
  obtain ⟨q', quotient', notQ', exactQ'⟩ := quotient_exact_iff (nan exactA) (nan exactB)
    (by rw [valueB]; exact mul_ne_zero nonzero nonzeroK) (by rw [ratio]; exact terminates)
  rw [ratio] at exactQ'
  have equal := equals_iff notQ' notQ
  refine ⟨q, ak, bk, q', quotient, timesA, timesB, quotient', ?_, ?_⟩
  · rw [← exactQ]
    exact and_iff_right notQ
  · rw [← exactQ, ← exactQ', equal]
    constructor
    · rintro ⟨⟨_, value⟩, same⟩
      exact ⟨value, same.trans value⟩
    · rintro ⟨value, same⟩
      exact ⟨⟨notQ, value⟩, same.trans value.symm⟩

/-- 1 / 2 and 5 / 10. -/
theorem division_exact_iff_half :
    ∃ q ak bk q', (ofText [ch '1']).calculate (ofText [ch '2']) .over = some q ∧
      (ofText [ch '1']).calculate (ofText [ch '5']) .times = some ak ∧
      (ofText [ch '2']).calculate (ofText [ch '5']) .times = some bk ∧
      ak.calculate bk .over = some q' ∧
      (q.isNan = false ∧ q.value = (ofText [ch '1']).value / (ofText [ch '2']).value ↔
        DivisionFits (ofText [ch '1']) (ofText [ch '2'])) ∧
      ((q.isNan = false ∧ q.value = (ofText [ch '1']).value / (ofText [ch '2']).value) ∧
        q'.equals q = true ↔
          DivisionFits (ofText [ch '1']) (ofText [ch '2']) ∧ DivisionFits ak bk) := by
  have digit : ∀ n : Nat, n < 10 → (ofText [digitChar n]).value = n := by
    intro n small
    have text := writes_natural (t := [digitChar n])
      (AllDigits.cons.mpr ⟨isDigit_digitChar small, AllDigits.nil⟩)
      ⟨by simp, fun first => by rw [Option.some.inj first]⟩
    rw [natural_singleton, digit_digitChar small] at text
    exact (ofText_writes text).2.2
  have one : (ofText [ch '1']).value = 1 := digit 1 (by decide)
  have two : (ofText [ch '2']).value = 2 := digit 2 (by decide)
  have five : (ofText [ch '5']).value = 5 := digit 5 (by decide)
  have half : |(ofText [ch '1']).value / (ofText [ch '2']).value| = ((1 : Nat) : ℚ) / (2 : Nat) := by
    rw [one, two]
    norm_num
  refine division_exact_iff _ _ _ (by decide) (by decide) (by decide) (by rw [two]; norm_num)
    (by rw [five]; norm_num) ⟨1, ?_, ?_, ?_⟩
  · rw [fractionFits_iff (by decide) half]
    decide
  · intro fewer less
    rw [fractionFits_iff (by decide) half]
    interval_cases fewer
    decide
  · rw [integerDigits_eq half]
    decide

/-! ## A short quotient of long operands -/

theorem writes_zeros {front : Text} {n : Nat} (h : Writes front n) (nonzero : n ≠ 0)
    (count : Nat) :
    Writes (front ++ List.replicate count (ch '0')) ((n * 10 ^ count : Nat) : ℚ) := by
  have zero := h.natural_eq_zero
  obtain ⟨digits, trimmed, rfl⟩ := h.digits
  have value : natural (front ++ List.replicate count (ch '0')) = natural front * 10 ^ count := by
    rw [natural_append, natural_zeros, List.length_replicate, Nat.add_zero]
  rw [← value]
  refine writes_natural (AllDigits.append.mpr ⟨digits, AllDigits.replicate _⟩)
    ⟨by simp [trimmed.1], ?_⟩
  intro first
  rw [List.head?_append_of_ne_nil _ trimmed.1] at first
  rw [trimmed.2 first] at nonzero
  exact absurd (by decide) nonzero

/-- 1 with 4096 zeros behind it. -/
def longDivisor : Text := [ch '1'] ++ List.replicate 4096 (ch '0')

/-- 1 with 33 zeros and another 1 behind it, and then 4062 zeros. -/
def longDividend : Text :=
  (ch '1' :: (List.replicate 33 (ch '0') ++ [ch '1'])) ++ List.replicate 4062 (ch '0')

theorem longDivisor_writes : Writes longDivisor ((10 ^ 4096 : Nat) : ℚ) := by
  have one := writes_natural (t := [ch '1']) (by decide) (by decide)
  have zeros := writes_zeros one (by decide) 4096
  rw [show natural [ch '1'] = 1 by decide, Nat.one_mul] at zeros
  exact zeros

theorem longDividend_writes : Writes longDividend (((10 ^ 34 + 1) * 10 ^ 4062 : Nat) : ℚ) := by
  have front := writes_natural (t := ch '1' :: (List.replicate 33 (ch '0') ++ [ch '1']))
    (by decide) (by decide)
  have zeros := writes_zeros front (by decide) 4062
  rw [show natural (ch '1' :: (List.replicate 33 (ch '0') ++ [ch '1'])) = 10 ^ 34 + 1 by decide]
    at zeros
  exact zeros

theorem longQuotient : |(ofText longDividend).value / (ofText longDivisor).value| =
    ((10 ^ 34 + 1 : Nat) : ℚ) / ((10 ^ 34 : Nat) : ℚ) := by
  have power : ((10 ^ 4062 : Nat) : ℚ) ≠ 0 := by positivity
  rw [(ofText_writes longDividend_writes).2.2, (ofText_writes longDivisor_writes).2.2,
    show 10 ^ 4096 = 10 ^ 34 * 10 ^ 4062 by rw [← pow_add], Nat.cast_mul, Nat.cast_mul,
    mul_div_mul_right _ _ power]
  exact abs_of_nonneg (by positivity)

theorem longQuotient_fits (places : Nat) :
    FractionFits ((ofText longDividend).value / (ofText longDivisor).value) places ↔
      34 ≤ places := by
  rw [fractionFits_iff (by positivity) longQuotient]
  have coprime : Nat.Coprime (10 ^ 34) (10 ^ 34 + 1) := by
    rw [Nat.coprime_self_add_right]
    exact Nat.coprime_one_right _
  rw [coprime.dvd_mul_left, Nat.pow_dvd_pow_iff_le_right (by decide)]

theorem longDivisor_scaled :
    scaledDivisor (ofText longDividend) (ofText longDivisor) = 10 ^ 4096 := by
  have divisor := longDivisor_writes.digits
  have dividend := longDividend_writes.digits
  have partsA := @numberParts_joined longDividend [] dividend.1 dividend.2.1.1
  have partsB := @numberParts_joined longDivisor [] divisor.1 divisor.2.1.1
  rw [scaledDivisor, (ofText_writes longDividend_writes).1, (ofText_writes longDivisor_writes).1]
  change numberParts longDividend = _ at partsA
  change numberParts longDivisor = _ at partsB
  rw [partsA, partsB]
  change natural (longDivisor ++ []) = _
  rw [List.append_nil, divisor.2.2]

theorem tenDigits_pow (exponent : Nat) : exponent ≤ tenDigits (10 ^ exponent) := by
  have two := Fact.mk Nat.prime_two
  have ten : padicValNat 2 10 = 1 := by
    rw [show 10 = 2 * 5 by rfl, padicValNat.mul (by decide) (by decide),
      padicValNat.self (by decide), padicValNat.eq_zero_of_not_dvd (by decide)]
  rw [tenDigits, padicValNat.pow 10 exponent, ten, Nat.mul_one]
  exact Nat.le_max_left _ _

/-- 1 + 10^-34 ends after 34 digits, but is not what this division gives. -/
theorem division_cuts_short :
    (ofText longDividend).isNan = false ∧ (ofText longDivisor).isNan = false ∧
      (ofText longDivisor).value ≠ 0 ∧
      TerminatesWithin ((ofText longDividend).value / (ofText longDivisor).value)
        maxExpandedDigits ∧
      ∃ q, (ofText longDividend).calculate (ofText longDivisor) .over = some q ∧
        q.value ≠ (ofText longDividend).value / (ofText longDivisor).value := by
  have notA := (ofText_writes longDividend_writes).2.1
  have notB := (ofText_writes longDivisor_writes).2.1
  have nonzero : (ofText longDivisor).value ≠ 0 := by
    rw [(ofText_writes longDivisor_writes).2.2]
    positivity
  have one : integerDigits ((ofText longDividend).value / (ofText longDivisor).value) = 1 := by
    rw [integerDigits_eq longQuotient, show (10 ^ 34 + 1) / 10 ^ 34 = 1 by norm_num]
    decide
  have terminates : TerminatesWithin ((ofText longDividend).value / (ofText longDivisor).value)
      maxExpandedDigits := by
    refine ⟨34, (longQuotient_fits 34).mpr (Nat.le_refl _), ?_, ?_⟩
    · intro fewer less fits
      exact absurd ((longQuotient_fits fewer).mp fits) (Nat.not_le_of_lt less)
    · rw [one]
      decide
  obtain ⟨q, quotient, _, exact'⟩ := quotient_exact_iff notA notB nonzero terminates
  refine ⟨notA, notB, nonzero, terminates, q, quotient, ?_⟩
  rw [Ne, exact']
  rintro (whole | short | room)
  · exact absurd ((longQuotient_fits 0).mp whole) (by decide)
  · obtain ⟨places, m, less, value⟩ := short
    have enough := (longQuotient_fits places).mp ⟨m, value⟩
    obtain ⟨more, rfl⟩ := Nat.exists_eq_add_of_le enough
    rw [longQuotient, pow_add, ← mul_assoc, Nat.cast_pow, Nat.cast_ofNat,
      div_mul_cancel₀ _ (by positivity)] at value
    have value : (10 ^ 34 + 1) * 10 ^ more = m := by exact_mod_cast value
    have positive : 1 ≤ 10 ^ more := Nat.one_le_pow _ _ (by decide)
    have : (10 ^ 34 + 1) * 1 ≤ (10 ^ 34 + 1) * 10 ^ more := Nat.mul_le_mul_left _ positive
    have limit : 10 ^ quotientSignificantDigits = 10 ^ 34 := rfl
    omega
  · rw [one, longDivisor_scaled] at room
    have factors := tenDigits_pow 4096
    have limit : maxExpandedDigits = 4096 := rfl
    omega

end Number

end Dross
