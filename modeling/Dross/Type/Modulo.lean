import Dross.Type.Truncation

/-!
# Modulo

`%` takes the integer part of the quotient, which the long division finds without any
digit after the point, and what it leaves of the dividend.
-/

namespace Dross

/-- The integer part of a rational, toward zero. -/
def integerPart (q : ℚ) : ℤ := SignType.sign q * (⌊|q|⌋₊ : ℤ)

theorem integerPart_nonneg {q : ℚ} (nonneg : 0 ≤ q) : integerPart q = ⌊q⌋₊ := by
  rw [integerPart, abs_of_nonneg nonneg]
  rcases nonneg.eq_or_lt with zero | positive
  · rw [← zero]
    simp
  · rw [sign_pos positive]
    simp

theorem integerPart_neg (q : ℚ) : integerPart (-q) = -integerPart q := by
  rw [integerPart, integerPart, abs_neg, Left.sign_neg, SignType.coe_neg, Int.neg_mul]

theorem integerPart_div (m n : ℤ) : integerPart ((m : ℚ) / n) = m.tdiv n := by
  have whole : ∀ a b : Nat, integerPart ((a : ℚ) / b) = ((a : ℤ).tdiv b) := by
    intro a b
    rw [integerPart_nonneg (by positivity), Nat.floor_div_eq_div, Int.natCast_div,
      Int.tdiv_eq_ediv_of_nonneg (Int.natCast_nonneg a)]
  obtain ⟨a, rfl | rfl⟩ := m.eq_nat_or_neg <;> obtain ⟨b, rfl | rfl⟩ := n.eq_nat_or_neg
  · rw [Int.cast_natCast, Int.cast_natCast]
    exact whole a b
  · push_cast
    rw [div_neg, integerPart_neg, whole, Int.tdiv_neg]
  · push_cast
    rw [neg_div, integerPart_neg, whole, Int.neg_tdiv]
  · push_cast
    rw [neg_div_neg_eq, whole, Int.neg_tdiv, Int.tdiv_neg, neg_neg]

theorem CutOff.integerPart {q r : ℚ} {digits : Nat} (h : CutOff q r digits) :
    integerPart r = integerPart q := by
  rw [Dross.integerPart, Dross.integerPart, h.sign, h.integer]

/-! ## Integral numbers -/

/-- A magnitude without a fraction is a whole number. -/
theorem Writes.integral {t : Text} {v : ℚ} (h : Writes t v) :
    ch '.' ∉ t ↔ ∃ n : Nat, v = n := by
  constructor
  · intro none
    obtain ⟨i, f, parts, rfl, rfl⟩ := h
    have empty : f = [] := by
      by_contra some'
      refine none ?_
      simp [joined, some']
    exact ⟨natural i, by rw [empty, decimal_nil]⟩
  · rintro ⟨n, rfl⟩ point
    exact absurd (h.digits.1 _ point) (by decide)

namespace Number

theorem isInteger_iff {n : Number} (number : n.isNan = false) :
    n.isInteger = true ↔ ∃ m : ℤ, n.value = m := by
  obtain ⟨negative, t, u, written, -, text, value'⟩ := (canonical_of number).magnitude
  have point : ch '.' ∈ n.number ↔ ch '.' ∈ t := by
    rw [text]
    cases negative with
    | false => rfl
    | true => simp [signed, show ch '.' ≠ ch '-' by decide]
  rw [isInteger, number, Bool.not_false, Bool.true_and, Bool.not_eq_true', List.contains_eq_mem,
    decide_eq_false_iff_not, point, written.integral, value, value']
  constructor
  · rintro ⟨k, rfl⟩
    exact ⟨if negative then -k else k, by cases negative <;> simp⟩
  · rintro ⟨m, same⟩
    refine ⟨m.natAbs, ?_⟩
    have magnitude := congrArg abs same
    rw [abs_sign, abs_of_nonneg written.nonneg, ← Int.cast_abs, Int.abs_eq_natAbs] at magnitude
    exact magnitude

end Number

section Remainder

variable {i j : Text}

/-- Long division without digits after the point leaves the integer part. -/
theorem dividePositiveNumbers_whole (pa : CanonicalParts i []) (pb : CanonicalParts j [])
    (nonzero : natural j ≠ 0) : ∃ t, dividePositiveNumbers i j 0 = some t ∧
      Writes t ((natural i / natural j : Nat) : ℚ) := by
  obtain ⟨quotient, part, kept, remainder, terminates, fractionDigits, rest, division, d⟩ :=
    @dividePositiveNumbers_run i [] j [] pa pb (natural i) (natural j)
      (by simp [scaledText, padded]) (by simp [scaledText, padded]) nonzero 0
  have digits := d.integer.digits
  have none : kept = [] := by
    rw [d.kept_eq, d.whole rfl]
  rw [none] at division
  refine ⟨_, division, ?_⟩
  have written := writes_combined digits.1 AllDigits.nil digits.2.1.1
  rwa [decimal_nil, digits.2.2] at written

theorem moduloPositiveNumbers_writes (pa : CanonicalParts i []) (pb : CanonicalParts j [])
    (nonzero : natural j ≠ 0) : ∃ t, moduloPositiveNumbers i j = some t ∧
      Writes t ((natural i % natural j : Nat) : ℚ) := by
  have writesA := writes_natural pa.integerDigits pa.trimmed
  have writesB := writes_natural pb.integerDigits pb.trimmed
  obtain ⟨quotient, division, written⟩ := dividePositiveNumbers_whole pa pb nonzero
  have notZero : (j == [ch '0']) = false := by
    rw [writesB.natural_eq_zero]
    simpa using nonzero
  have digits := written.digits
  have before : beforePoint quotient = quotient := by
    have before := @beforePoint_append quotient [] digits.1 (by simp)
    rwa [List.append_nil] at before
  have product := multiplyPositiveNumbers_writes writesB written
  rw [← Nat.cast_mul] at product
  have less : natural j * (natural i / natural j) ≤ natural i := Nat.mul_div_le _ _
  have difference := subtractPositiveNumbers_writes writesA product (by exact_mod_cast less)
  rw [← Nat.cast_sub less] at difference
  refine ⟨canonicalText (subtractPositiveNumbers i (multiplyPositiveNumbers j quotient)), ?_, ?_⟩
  · unfold moduloPositiveNumbers
    simp only [notZero, Bool.false_eq_true, if_false, division, Option.bind_eq_bind,
      Option.bind_some, before]
  · rw [difference.canonical.1.canonicalText, Nat.mod_eq_sub]
    exact difference

end Remainder

/-! ## The sign of a remainder -/

/-- A remainder of the sign of the dividend. -/
structure Remains (m n q k : ℤ) : Prop where
  split : m = q * n + k
  small : |k| < |n|
  sign : k = 0 ∨ k.sign = m.sign

theorem Remains.unique {m n q k q' k' : ℤ} (h : Remains m n q k) (h' : Remains m n q' k') :
    q' = q ∧ k' = k := by
  have small := h.small
  have small' := h'.small
  have close : |k - k'| < |n| := by
    have sign := h.sign
    have sign' := h'.sign
    rcases lt_trichotomy m 0 with negative | zero | positive
    · rw [Int.sign_eq_neg_one_of_neg negative, Int.sign_eq_neg_one_iff_neg] at sign sign'
      rw [abs_lt] at small small' ⊢
      omega
    · rw [zero, Int.sign_zero, Int.sign_eq_zero_iff_zero, or_self] at sign sign'
      rw [sign] at small
      rw [sign, sign']
      exact small
    · rw [Int.sign_eq_one_of_pos positive, Int.sign_eq_one_iff_pos] at sign sign'
      rw [abs_lt] at small small' ⊢
      omega
  have divides : |n| ∣ k - k' := by
    rw [abs_dvd]
    refine ⟨q' - q, ?_⟩
    have := h.split
    have := h'.split
    linarith
  have same := Int.eq_zero_of_abs_lt_dvd divides close
  have nonzero : n ≠ 0 := by
    rintro rfl
    rw [abs_zero] at small
    exact absurd small (abs_nonneg k).not_gt
  have quotients : q' * n = q * n := by
    have := h.split
    have := h'.split
    linarith
  exact ⟨mul_right_cancel₀ nonzero quotients, by linarith⟩

theorem remains_tmod {m n : ℤ} (nonzero : n ≠ 0) : Remains m n (m.tdiv n) (m.tmod n) := by
  refine ⟨?_, ?_, ?_⟩
  · rw [Int.tdiv_mul_add_tmod]
  · rw [Int.abs_eq_natAbs, Int.abs_eq_natAbs, Int.natAbs_tmod]
    exact_mod_cast Nat.mod_lt _ (Int.natAbs_pos.mpr nonzero)
  · by_cases zero : m.tmod n = 0
    · exact Or.inl zero
    · right
      rcases lt_trichotomy m 0 with negative | none | positive
      · have := Int.tmod_nonneg n (neg_nonneg.mpr negative.le)
        rw [Int.neg_tmod] at this
        rw [Int.sign_eq_neg_one_of_neg negative, Int.sign_eq_neg_one_iff_neg]
        omega
      · rw [none, Int.zero_tmod] at zero
        exact absurd rfl zero
      · have := Int.tmod_nonneg n positive.le
        rw [Int.sign_eq_one_of_pos positive, Int.sign_eq_one_iff_pos]
        omega

/-! ## The whole operation -/

namespace Operands

variable {a b : Number} {negA negB : Bool} {i f j g : Text} {D V : Nat}

/-- Integral operands are their integer parts. -/
theorem integral (h : Operands a b negA negB i f j g D V) (integerA : a.isInteger = true)
    (integerB : b.isInteger = true) : f = [] ∧ g = [] ∧ natural i = D ∧ natural j = V := by
  have none : ∀ {n : Number} {negative : Bool} {integer fraction : Text},
      n.number = signed negative (joined integer fraction) → n.isInteger = true →
        fraction = [] := by
    intro n negative integer fraction text isInteger
    by_contra some'
    rw [Number.isInteger, text, Bool.and_eq_true, Bool.not_eq_true', Bool.not_eq_true',
      List.contains_eq_mem, decide_eq_false_iff_not] at isInteger
    refine isInteger.2 ?_
    cases negative <;> simp [signed, joined, some']
  have noneA := none h.textA integerA
  have noneB := none h.textB integerB
  subst noneA noneB
  have dividend := h.dividend
  have divisor := h.divisor
  simp only [scaledText, padded, List.length_nil, Nat.max_self, Nat.sub_self, List.replicate_zero,
    List.append_nil] at dividend divisor
  exact ⟨rfl, rfl, dividend, divisor⟩

/-- The remainder of the magnitudes goes under the sign of the dividend. -/
theorem performArithmetic_modulo (h : Operands a b negA negB i f j g D V)
    (integerA : a.isInteger = true) (integerB : b.isInteger = true) (nonzero : V ≠ 0) :
    ∃ t, performArithmetic a.number b.number .modulo = some (signed negA t) ∧
      Writes t ((D % V : Nat) : ℚ) := by
  obtain ⟨rfl, rfl, rfl, rfl⟩ := h.integral integerA integerB
  obtain ⟨notNan, headA, headB, dropA, dropB⟩ := h.taken
  obtain ⟨t, remainder, written⟩ := moduloPositiveNumbers_writes h.partsA h.partsB nonzero
  have notZero := h.zero_text
  rw [decide_eq_false nonzero] at notZero
  have notNanT : (t == nanValue) = false := beq_eq_false_iff_ne.mpr written.canonical.1.ne_nan
  rw [Number.isInteger, Bool.and_eq_true, Bool.not_eq_true', Bool.not_eq_true'] at integerA integerB
  refine ⟨t, ?_, written⟩
  unfold performArithmetic
  simp only [notNan, headA, headB, dropA, dropB, notZero, integerA.2, integerB.2,
    Bool.false_eq_true, Bool.or_self, if_false]
  change (moduloPositiveNumbers i j).map _ = _
  rw [remainder, Option.map_some, notNanT]
  rfl

theorem calculate_modulo (h : Operands a b negA negB i f j g D V) (integerA : a.isInteger = true)
    (integerB : b.isInteger = true) (nonzero : V ≠ 0) :
    ∃ r, a.calculate b .modulo = some r ∧ Canonical r.number ∧
      r.value = (if negA then -1 else 1) * ((D % V : Nat) : ℚ) := by
  obtain ⟨t, result, written⟩ := h.performArithmetic_modulo integerA integerB nonzero
  have canonical := written.canonicalText_signed negA
  refine ⟨_, by rw [Number.calculate, result]; rfl, ?_, ?_⟩
  · exact canonical.1
  · exact canonical.2

/-- Remainders of magnitudes are remainders, under the sign of the dividend. -/
theorem remainder (h : Operands a b negA negB i f j g D V) (integerA : a.isInteger = true)
    (integerB : b.isInteger = true) {m n : ℤ} (valueA : a.value = m) (valueB : b.value = n) :
    (if negA then -1 else 1) * ((D % V : Nat) : ℚ) = (m.tmod n : ℤ) := by
  obtain ⟨rfl, rfl, rfl, rfl⟩ := h.integral integerA integerB
  rw [h.valueA, decimal_nil] at valueA
  rw [h.valueB, decimal_nil] at valueB
  have dividend : m = (if negA then -1 else 1) * (natural i : ℤ) := by
    cases negA <;> exact_mod_cast valueA.symm
  have divisor : n = (if negB then -1 else 1) * (natural j : ℤ) := by
    cases negB <;> exact_mod_cast valueB.symm
  have sign : m.tmod n = (if negA then -1 else 1) * ((natural i % natural j : Nat) : ℤ) := by
    rw [dividend, divisor, Int.natCast_mod, ← Int.tmod_eq_emod_of_nonneg (Int.natCast_nonneg _)]
    cases negA <;> cases negB <;> simp [Int.neg_tmod, Int.tmod_neg]
  rw [sign]
  cases negA <;> push_cast <;> rfl

end Operands

namespace Number

/-- A number without a fraction, however it was written. -/
def Integral (n : Number) : Prop := ∃ m : ℤ, n.value = m

/-- NaN is what `%` gives where it has no remainder to give. -/
theorem performArithmetic_modulo_nan {a b : Number} (notA : a.isNan = false)
    (notB : b.isNan = false)
    (none : b.value = 0 ∨ ¬ a.Integral ∨ ¬ b.Integral) :
    performArithmetic a.number b.number .modulo = some nanValue := by
  obtain ⟨negA, negB, i, f, j, g, D, V, h⟩ := exists_operands notA notB
  have notNan := h.taken.1
  have refused : (b.number == [ch '0'] || a.number.contains (ch '.') ||
      b.number.contains (ch '.')) = true := by
    have point : ∀ {n : Number}, n.isNan = false → ¬ n.Integral →
        n.number.contains (ch '.') = true := by
      intro n number fraction
      have integral := (isInteger_iff number).not.mpr fraction
      rw [isInteger, number] at integral
      simpa using integral
    rcases none with zero | fraction | fraction
    · rw [h.zero_text, decide_eq_true (h.zero_iff.mp zero)]
      rfl
    · rw [point notA fraction, Bool.or_true, Bool.true_or]
    · rw [point notB fraction, Bool.or_true]
  unfold performArithmetic
  simp only [notNan, refused, Bool.false_eq_true, if_false, if_true]

theorem calculate_modulo_nan {a b : Number} (notA : a.isNan = false) (notB : b.isNan = false)
    (none : b.value = 0 ∨ ¬ a.Integral ∨ ¬ b.Integral) :
    ∃ r, a.calculate b .modulo = some r ∧ r.isNan = true := by
  obtain ⟨r, result, number⟩ :=
    calculate_some (performArithmetic_modulo_nan notA notB none) (Or.inl rfl)
  exact ⟨r, result, isNan_iff.mpr number⟩

/-- `/` may cut off a quotient, but never its integer part. -/
theorem calculate_over_integerPart {a b : Number} (notA : a.isNan = false)
    (notB : b.isNan = false) (nonzero : b.value ≠ 0) : ∃ d, a.calculate b .over = some d ∧
      integerPart d.value = integerPart (a.value / b.value) := by
  obtain ⟨d, quotient, _, cut⟩ := division_truncates a b
  refine ⟨d, quotient, ?_⟩
  by_cases exact' : d.value = a.value / b.value
  · rw [exact']
  · exact (cut notA notB nonzero exact').integerPart

/-- `%` always comes to an end. It gives NaN only for a NaN, a zero divisor or a fraction,
and otherwise the one remainder that has the sign of the dividend. -/
theorem modulo_remains (a b : Number) : ∃ r, a.calculate b .modulo = some r ∧
    (r.isNan = true ↔ a.isNan = true ∨ b.isNan = true ∨ b.value = 0 ∨ ¬ a.Integral ∨
      ¬ b.Integral) ∧
    (a.isNan = false → b.isNan = false → ∀ m n : ℤ, a.value = m → b.value = n → n ≠ 0 →
      Canonical r.number ∧ ∃ q k : ℤ, r.value = k ∧ Remains m n q k ∧
        (∀ q' k', Remains m n q' k' → q' = q ∧ k' = k) ∧
        integerPart (a.value / b.value) = q ∧
        ∃ d, a.calculate b .over = some d ∧ integerPart d.value = q) := by
  by_cases nan : a.isNan = true ∨ b.isNan = true
  · obtain ⟨r, result, nanR⟩ := calculate_nan nan .modulo
    refine ⟨r, result, ⟨fun _ => nan.imp_right Or.inl, fun _ => nanR⟩, ?_⟩
    intro notA notB
    rw [notA, notB] at nan
    simp at nan
  rw [not_or, Bool.not_eq_true, Bool.not_eq_true] at nan
  obtain ⟨notA, notB⟩ := nan
  by_cases none : b.value = 0 ∨ ¬ a.Integral ∨ ¬ b.Integral
  · obtain ⟨r, result, nanR⟩ := calculate_modulo_nan notA notB none
    refine ⟨r, result, ⟨fun _ => Or.inr (Or.inr none), fun _ => nanR⟩, ?_⟩
    intro _ _ m n valueA valueB nonzero
    rcases none with zero | fraction | fraction
    · rw [valueB, Int.cast_eq_zero] at zero
      exact absurd zero nonzero
    · exact absurd ⟨m, valueA⟩ fraction
    · exact absurd ⟨n, valueB⟩ fraction
  · have some' := none
    rw [not_or, not_or, not_not, not_not] at none
    obtain ⟨nonzero, integralA, integralB⟩ := none
    obtain ⟨negA, negB, i, f, j, g, D, V, h⟩ := exists_operands notA notB
    obtain ⟨r, result, canonical, value⟩ := h.calculate_modulo ((isInteger_iff notA).mpr integralA)
      ((isInteger_iff notB).mpr integralB) (h.zero_iff.not.mp nonzero)
    have notR : r.isNan = false := beq_eq_false_iff_ne.mpr canonical.ne_nan
    refine ⟨r, result, ?_, ?_⟩
    · simpa [notA, notB, notR] using some'
    · intro _ _ m n valueA valueB nonzeroN
      refine ⟨canonical, m.tdiv n, m.tmod n, ?_, remains_tmod nonzeroN,
        fun q' k' other => (remains_tmod nonzeroN).unique other, ?_, ?_⟩
      · rw [value]
        exact h.remainder ((isInteger_iff notA).mpr integralA) ((isInteger_iff notB).mpr integralB) valueA valueB
      · rw [valueA, valueB, integerPart_div]
      · obtain ⟨d, quotient, same⟩ := calculate_over_integerPart notA notB nonzero
        exact ⟨d, quotient, by rw [same, valueA, valueB, integerPart_div]⟩

/-- -7 % 2 is -1. -/
theorem modulo_remains_seven :
    ∃ r, (ofText [ch '-', ch '7']).calculate (ofText [ch '2']) .modulo = some r ∧
    Canonical r.number ∧ ∃ q k : ℤ, r.value = k ∧ Remains (-7) 2 q k := by
  obtain ⟨r, result, _, law⟩ := modulo_remains (ofText [ch '-', ch '7']) (ofText [ch '2'])
  obtain ⟨canonical, q, k, value, remains, _⟩ := law (by decide) (by decide) (-7) 2
    (by decide +kernel) (by decide +kernel) (by decide)
  exact ⟨r, result, canonical, q, k, value, remains⟩

end Number

end Dross
