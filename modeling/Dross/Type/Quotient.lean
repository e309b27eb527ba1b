import Dross.Type.DecimalDigits

/-!
# Quotients

When a quotient is exact. The source decides whether it ends by the factors of
ten in its divisor, after both operands are scaled to whole numbers but before
common factors are gone, so a short quotient of long operands may be cut off.
-/

namespace Dross

section Exact

variable {V Q R : Nat} {terminates : Bool} {fractionDigits significantDigits rest : Nat}
  {part remainder : Text}

/-- A remainder is left only as long as no scale is enough. -/
theorem Dividing.not_dvd (h : Dividing V R part remainder rest) (nonzero : rest ≠ 0) {n : Nat}
    (le : n ≤ part.length) : ¬ V ∣ (Q * V + R) * 10 ^ n := by
  intro divides
  have more : V ∣ (Q * V + R) * 10 ^ part.length :=
    divides.trans (Nat.mul_dvd_mul_left _ (Nat.pow_dvd_pow 10 le))
  rw [← h.writtenOut_sum (Q := Q)] at more
  have divides := (Nat.dvd_add_right (dvd_mul_left V _)).mp more
  exact nonzero (Nat.eq_zero_of_dvd_of_lt divides h.below)

/-- Where a finer scale is enough, the digits written out are too many at it for so few. -/
theorem Dividing.pow_le (h : Dividing V R part remainder rest) (positive : 0 < significantDigits)
    (enough : significantDigits ≤ significance (writtenOut Q part)) {n m : Nat}
    (finer : part.length < n) (value : (Q * V + R) * 10 ^ n = m * V) : 10 ^ significantDigits ≤ m := by
  obtain ⟨more, rfl⟩ := Nat.exists_eq_add_of_lt finer
  have least : ¬ significance (writtenOut Q part) ≤ significantDigits - 1 := by omega
  rw [significance_le, Nat.not_lt] at least
  have scaled : writtenOut Q part * 10 ^ (more + 1) * V ≤ m * V := by
    rw [← value, Nat.add_assoc, pow_add 10 part.length, ← Nat.mul_assoc (Q * V + R),
      ← h.writtenOut_sum]
    calc writtenOut Q part * 10 ^ (more + 1) * V
        = writtenOut Q part * V * 10 ^ (more + 1) := by ring
      _ ≤ (writtenOut Q part * V + rest) * 10 ^ (more + 1) :=
        Nat.mul_le_mul_right _ (Nat.le_add_right _ _)
  have below := h.below
  calc 10 ^ significantDigits = 10 ^ (significantDigits - 1) * 10 ^ 1 := by
        rw [← pow_add, Nat.sub_add_cancel positive]
    _ ≤ writtenOut Q part * 10 ^ (more + 1) :=
        Nat.mul_le_mul least (Nat.pow_le_pow_right (by omega) (by omega))
    _ ≤ m := Nat.le_of_mul_le_mul_right scaled (by omega)

/-- A loop that ends with nothing left wrote a quotient that ends, or a short one. -/
theorem DividedOut.of_exact
    (h : DividedOut V Q R terminates fractionDigits significantDigits part remainder 0)
    (nonzero : R ≠ 0) : terminates = true ∨
      ∃ n m, m < 10 ^ significantDigits ∧ (Q * V + R) * 10 ^ n = m * V := by
  have sum := h.dividing.writtenOut_sum (Q := Q)
  rw [Nat.add_zero] at sum
  by_cases taken : terminates = true
  · exact Or.inl taken
  · refine Or.inr ⟨part.length, writtenOut Q part, ?_, sum.symm⟩
    rcases h.short (by simpa using taken) with empty | short
    · have one := h.dividing.sum
      rw [empty] at one
      simp only [natural_nil, Nat.zero_mul, Nat.add_zero, List.length_nil, pow_zero,
        Nat.mul_one] at one
      exact absurd one.symm nonzero
    · exact significance_le.mp short

/-- The loop comes to an end of its own exactly for a whole quotient, for one the
source takes to end, and for one with few enough significant digits. -/
theorem DividedOut.exact_iff {limit : Nat}
    (h : DividedOut V Q R terminates fractionDigits significantDigits part remainder rest)
    (positive : 0 < significantDigits)
    (taken : R ≠ 0 → terminates = decide (limit ≤ maxExpandedDigits ∧
      V ∣ (Q * V + R) * 10 ^ tenDigits V) ∧ fractionDigits = tenDigits V) :
    rest = 0 ↔ R = 0 ∨ (limit ≤ maxExpandedDigits ∧ V ∣ (Q * V + R) * 10 ^ tenDigits V) ∨
      ∃ n m, m < 10 ^ significantDigits ∧ (Q * V + R) * 10 ^ n = m * V := by
  by_cases whole : R = 0
  · refine ⟨fun _ => Or.inl whole, fun _ => ?_⟩
    by_contra nonzero
    exact h.dividing.not_dvd (Q := Q) nonzero (Nat.zero_le _) (by simp [whole])
  obtain ⟨ends, digits⟩ := taken whole
  have terminates_iff : terminates = true ↔
      limit ≤ maxExpandedDigits ∧ V ∣ (Q * V + R) * 10 ^ tenDigits V := by
    rw [ends, decide_eq_true_iff]
  -- a loop that is taken to end goes on for as long as its scale is not enough
  have ended (taken : terminates = true) : rest = 0 := by
    by_contra nonzero
    have long := h.ended taken nonzero
    exact h.dividing.not_dvd nonzero (digits ▸ long) (terminates_iff.mp taken).2
  constructor
  · rintro rfl
    rcases h.of_exact whole with taken | short
    · exact Or.inr (Or.inl (terminates_iff.mp taken))
    · exact Or.inr (Or.inr short)
  · rintro (zero | both | ⟨n, m, short, value⟩)
    · exact absurd zero whole
    · exact ended (terminates_iff.mpr both)
    · by_cases taken : terminates = true
      · exact ended taken
      · by_contra nonzero
        have divides : V ∣ (Q * V + R) * 10 ^ n := ⟨m, by rw [value, Nat.mul_comm]⟩
        have finer : part.length < n :=
          Nat.lt_of_not_le (fun le => h.dividing.not_dvd nonzero le divides)
        have enough := h.enough (by simpa using taken) nonzero
        exact absurd short (Nat.not_lt.mpr (h.dividing.pow_le positive enough finer value))

end Exact

/-! ## The whole division -/

theorem writes_scaled {integer fraction : Text} (parts : CanonicalParts integer fraction)
    {scale : Nat} (fits : fraction.length ≤ scale) :
    AllDigits (integer ++ padded fraction scale) ∧
      decimal integer fraction = natural (integer ++ padded fraction scale) / 10 ^ scale := by
  refine ⟨AllDigits.append.mpr ⟨parts.integerDigits, parts.fractionDigits.padded scale⟩, ?_⟩
  rw [← decimal_padded integer fraction scale, decimal, padded_length fits]

theorem decimal_kept_le {integer kept part : Text} (h : kept <+: part) :
    decimal integer kept ≤ decimal integer part := by
  obtain ⟨more, rfl⟩ := h
  have power : (0 : ℚ) < 10 ^ kept.length := by positivity
  have powers : (0 : ℚ) < 10 ^ more.length := by positivity
  unfold decimal
  rw [← List.append_assoc, natural_append (integer ++ kept), List.length_append, pow_add]
  push_cast
  rw [div_le_div_iff₀ power (by positivity)]
  have nonneg : (0 : ℚ) ≤ natural more * 10 ^ kept.length := by positivity
  linarith

/-- A quotient is as exact as its remainder is zero. -/
theorem Dividing.decimal_eq_iff {V Q R rest : Nat} {quotient part kept remainder : Text}
    (h : Dividing V R part remainder rest) (value : natural quotient = Q) (begins : kept <+: part)
    (all : rest = 0 → kept = part) :
    decimal quotient kept = ((Q * V + R : Nat) : ℚ) / V ↔ rest = 0 := by
  have positive : (0 : ℚ) < V := by exact_mod_cast Nat.lt_of_le_of_lt (Nat.zero_le _) h.below
  have power : (0 : ℚ) < 10 ^ part.length := by positivity
  have sum : (natural (quotient ++ part) : ℚ) * V + rest = (Q * V + R : Nat) * 10 ^ part.length := by
    have sum := h.writtenOut_sum (Q := Q)
    rw [writtenOut, ← value, ← natural_append] at sum
    rw [← value]
    exact_mod_cast sum
  have whole : decimal quotient part = ((Q * V + R : Nat) : ℚ) / V - rest / (V * 10 ^ part.length) := by
    unfold decimal
    field_simp
    linarith
  constructor
  · intro same
    by_contra nonzero
    have some' : (0 : ℚ) < rest := by exact_mod_cast Nat.pos_of_ne_zero nonzero
    have lost : (0 : ℚ) < rest / (V * 10 ^ part.length) := by positivity
    have less := @decimal_kept_le quotient _ _ begins
    linarith
  · intro zero
    rw [all zero, whole, zero]
    simp

section Quotient

variable {i f j g : Text}

/-- Both operands as whole numbers, at the scale of the longer fraction. -/
def scaledText (integer fraction other : Text) : Text :=
  integer ++ padded fraction (max fraction.length other.length)

/-- What a whole division has come to: the integer part, the digits after the point that
were found and the ones that are kept, and what is left to divide. -/
structure Divided (D V significantDigits : Nat) (quotient part kept remainder : Text)
    (terminates : Bool) (fractionDigits rest : Nat) : Prop where
  integer : Writes quotient ((D / V : Nat) : ℚ)
  out : DividedOut V (D / V) (D % V) terminates fractionDigits significantDigits part remainder rest
  begins : kept <+: part
  all : rest = 0 → kept = part
  cut : rest ≠ 0 → kept = part.take (keptDigits quotient part significantDigits)
  taken : D % V ≠ 0 → 0 < significantDigits →
    terminates = decide (max 1 (significance (D / V)) + tenDigits V ≤ maxExpandedDigits ∧
      V ∣ D * 10 ^ tenDigits V) ∧ fractionDigits = tenDigits V
  whole : significantDigits = 0 → part = []

/-- What the source decides about the end of a quotient. -/
theorem termination_run {dividend divisor quotient remainder : Text} {D V : Nat}
    (digits : AllDigits dividend) (hD : natural dividend = D) (hd : Writes divisor V)
    (positive : 0 < V) (hq : Writes quotient ((D / V : Nat) : ℚ))
    (hr : Writes remainder ((D % V : Nat) : ℚ)) (significantDigits : Nat) :
    ∃ terminates fractionDigits,
      termination dividend divisor quotient remainder significantDigits =
        some (terminates, fractionDigits) ∧
      (D % V ≠ 0 → 0 < significantDigits →
        terminates = decide (max 1 (significance (D / V)) + tenDigits V ≤ maxExpandedDigits ∧
          V ∣ D * 10 ^ tenDigits V) ∧ fractionDigits = tenDigits V) ∧
      (D % V ≠ 0 → significantDigits = 0 → terminates = false) := by
  by_cases whole : D % V = 0
  · rw [whole] at hr
    exact ⟨true, 0, termination_zero hr _, fun goesOn => absurd whole goesOn,
      fun goesOn => absurd whole goesOn⟩
  by_cases asked : significantDigits = 0
  · have goesOn := hr.natural_eq_zero
    rw [decide_eq_false whole] at goesOn
    refine ⟨false, 0, ?_, fun _ some' => absurd asked some'.ne', fun _ _ => rfl⟩
    simp [termination, goesOn, asked]
  · have spec := @termination_spec _ _ quotient _ _ _ digits hd positive hr whole
      significantDigits asked
    rw [hq.length, hD] at spec
    exact ⟨_, _, spec, fun _ _ => ⟨rfl, rfl⟩, fun _ none => absurd none asked⟩

/-- With nothing asked for, or nothing left, no digit is written. -/
theorem decimalDigits_none {divisor remainder : Text} {terminates : Bool} {R turns : Nat}
    (hr : Writes remainder (R : ℚ)) (stops : R ≠ 0 → terminates = false) (fractionDigits : Nat)
    (significant : Nat) :
    decimalDigits divisor terminates fractionDigits 0 (turns + 1) [] remainder significant =
      some ([], remainder) := by
  have zero := hr.natural_eq_zero
  rw [decimalDigits]
  by_cases whole : R = 0
  · rw [decide_eq_true whole, beq_iff_eq] at zero
    simp [zero]
  · rw [stops whole]
    simp [wantsDigit]

/-- The integer part of a quotient has as many significant digits as the source counts. -/
theorem significant_start {quotient : Text} {Q : Nat} (hq : Writes quotient (Q : ℚ)) :
    (if quotient == [ch '0'] then 0 else quotient.length) = significance (writtenOut Q []) := by
  have length := hq.length
  have zero := @significance_zero Q
  simp only [writtenOut, List.length_nil, pow_zero, Nat.mul_one, natural_nil, Nat.add_zero]
  rw [hq.natural_eq_zero, length]
  by_cases empty : Q = 0
  · simp [empty, significance]
  · rw [if_neg (by simpa using empty)]
    omega

/-- The integer part, as the long division of the scaled operands finds it, and the remainder. -/
theorem longDivision_run {dividend divisor : Text} {D V : Nat} (digits : AllDigits dividend)
    (hD : natural dividend = D) (hd : Writes divisor V) (positive : 0 < V) :
    ∃ divided, longDivision divisor dividend [ch '0'] [ch '0'] = some divided ∧
      Writes (trimZeros divided.1) ((D / V : Nat) : ℚ) ∧ Writes divided.2 ((D % V : Nat) : ℚ) := by
  have zero : Writes [ch '0'] ((0 : Nat) : ℚ) := by exact_mod_cast Writes.zero
  obtain ⟨divided, R, division, digitsQ, lengthQ, hR, below, sum⟩ :=
    longDivision_spec hd positive digits CanonicalParts.zero.integerDigits zero positive
  have hq := writes_trimZeros digitsQ (by
    rw [List.length_singleton] at lengthQ
    exact List.length_pos_iff.mp (by omega))
  generalize natural divided.1 = Q at hq sum
  rw [show natural [ch '0'] = 0 by decide, Nat.zero_mul, Nat.zero_add, Nat.zero_mul, Nat.zero_add,
    hD] at sum
  obtain ⟨rfl, rfl⟩ := (Nat.div_mod_unique positive).mpr
    ⟨(Nat.add_comm _ _).trans ((congrArg (· + R) (Nat.mul_comm _ _)).trans sum), below⟩
  exact ⟨divided, division, hq, hR⟩

/-- A divisor that is not zero at its scale is not the text of zero. -/
theorem joined_ne_zero (digits : AllDigits j) {scale : Nat}
    (nonzero : natural (j ++ padded g scale) ≠ 0) : joined j g ≠ [ch '0'] := by
  intro zero
  have parts := @beforePoint_joined j g digits
  have fraction := @afterPoint_joined j g digits
  rw [zero] at parts fraction
  rw [← parts, ← fraction] at nonzero
  apply nonzero
  change natural ([ch '0'] ++ padded [] scale) = 0
  rw [natural_append, padded, List.nil_append, natural_zeros]
  change 0 * _ + 0 = 0
  omega

/-- Every division by a number that is not zero comes to an end. -/
theorem dividePositiveNumbers_run (pa : CanonicalParts i f) (pb : CanonicalParts j g)
    {D V : Nat} (hD : natural (scaledText i f g) = D) (hV : natural (scaledText j g f) = V)
    (nonzero : V ≠ 0) (significantDigits : Nat) :
    ∃ quotient part kept remainder terminates fractionDigits rest,
      dividePositiveNumbers (joined i f) (joined j g) significantDigits =
        some (canonicalText (combined quotient kept)) ∧
      Divided D V significantDigits quotient part kept remainder terminates fractionDigits rest := by
  have positive : 0 < V := Nat.pos_of_ne_zero nonzero
  generalize hs : max f.length g.length = scale
  rw [scaledText, hs] at hD
  rw [scaledText, Nat.max_comm, hs] at hV
  obtain ⟨digitsA, _⟩ := @writes_scaled i f pa scale (by omega)
  obtain ⟨digitsB, _⟩ := @writes_scaled j g pb scale (by omega)
  have hd := writes_trimZeros digitsB (by simp [pb.trimmed.1])
  rw [hV] at hd
  have some' := @joined_ne_zero j g pb.integerDigits scale (hV ▸ nonzero)
  obtain ⟨divided, division, hq, hR⟩ := longDivision_run digitsA hD hd positive
  obtain ⟨terminates, fractionDigits, decided, taken, open'⟩ :=
    termination_run digitsA hD hd positive hq hR significantDigits
  have start : Dividing V (D % V) [] divided.2 (D % V) :=
    ⟨AllDigits.nil, hR, Nat.mod_lt _ positive, by simp⟩
  obtain ⟨out, rest, loop, done⟩ := @decimalDigits_spec _ V (D / V) _ hd terminates fractionDigits
    significantDigits (fractionDigits + significantDigits +
      (trimZeros (j ++ padded g scale)).length + 1) [] divided.2
    (if trimZeros divided.1 == [ch '0'] then 0 else (trimZeros divided.1).length) _ start
    (significant_start hq) (fun _ => Or.inl rfl) (by
      unfold turnsLeft
      simp only [List.length_nil]
      split_ifs <;> omega)
  generalize hk : (if out.2 != [ch '0'] then
    out.1.take (keptDigits (trimZeros divided.1) out.1 significantDigits) else out.1) = kept
  have left := done.dividing.remainder.natural_eq_zero
  refine ⟨trimZeros divided.1, out.1, kept, out.2, terminates, fractionDigits, rest, ?_,
    hq, done, ?_, ?_, ?_, taken, ?_⟩
  · have notZero : (trimZeros (j ++ padded g scale) == [ch '0']) = false := by
      rw [hd.natural_eq_zero]
      simpa using nonzero
    unfold dividePositiveNumbers
    simp only [numberParts_joined pa.integerDigits pa.trimmed.1,
      numberParts_joined pb.integerDigits pb.trimmed.1, hs, beq_eq_false_iff_ne.mpr some', notZero,
      Bool.false_eq_true, if_false, division, decided, loop, Option.bind_eq_bind, Option.bind_some]
    rw [← hk]
  · rw [← hk]
    split
    · exact List.take_prefix _ _
    · exact List.prefix_refl _
  · intro exact'
    rw [decide_eq_true exact', beq_iff_eq] at left
    rw [← hk, left]
    rfl
  · intro more
    rw [decide_eq_false more] at left
    rw [← hk, bne, left]
    rfl
  · rintro rfl
    rw [decimalDigits_none hR (fun goesOn => open' goesOn rfl)] at loop
    rw [← Option.some.inj loop]

/-- Division comes to an end, with a quotient that is exact under one condition. -/
theorem dividePositiveNumbers_spec (pa : CanonicalParts i f) (pb : CanonicalParts j g)
    {D V : Nat} (hD : natural (scaledText i f g) = D) (hV : natural (scaledText j g f) = V)
    (nonzero : V ≠ 0) {significantDigits : Nat} (asked : 0 < significantDigits) :
    ∃ t w, dividePositiveNumbers (joined i f) (joined j g) significantDigits = some t ∧
      Writes t w ∧ (w = (D : ℚ) / V ↔ V ∣ D ∨
        (max 1 (significance (D / V)) + tenDigits V ≤ maxExpandedDigits ∧
          V ∣ D * 10 ^ tenDigits V) ∨
        ∃ n m, m < 10 ^ significantDigits ∧ D * 10 ^ n = m * V) := by
  obtain ⟨quotient, part, kept, remainder, terminates, fractionDigits, rest, division, h⟩ :=
    dividePositiveNumbers_run pa pb hD hV nonzero significantDigits
  have digits := h.integer.digits
  have sum : D / V * V + D % V = D := by rw [Nat.mul_comm, Nat.div_add_mod]
  have exact' := h.out.dividing.decimal_eq_iff digits.2.2 h.begins h.all
  have taken := @DividedOut.exact_iff _ _ _ _ _ _ _ _ _ (max 1 (significance (D / V)) + tenDigits V) h.out
    asked (by rw [sum]; exact fun goesOn => h.taken goesOn asked)
  rw [sum] at exact' taken
  refine ⟨_, decimal quotient kept, division, writes_combined digits.1
    (h.out.dividing.digits.of_subset (fun _ mem => h.begins.subset mem)) digits.2.1.1, ?_⟩
  have divides : V ∣ D ↔ D % V = 0 := Nat.dvd_iff_mod_eq_zero
  rw [exact', taken, divides]

end Quotient

/-! ## The operands -/

theorem abs_sign (negative : Bool) (v : ℚ) : |(if negative then -1 else 1) * v| = |v| := by
  cases negative <;> simp

theorem sign_xor (negA negB : Bool) :
    (if negA != negB then -1 else 1 : ℚ) = (if negA then -1 else 1) / (if negB then -1 else 1) := by
  cases negA <;> cases negB <;> norm_num

/-- Text with a sign that zero may have too, as division leaves it. -/
theorem Writes.canonicalText_signed {t : Text} {w : ℚ} (h : Writes t w) (negative : Bool) :
    Canonical (canonicalText (signed negative t)) ∧
      textValue (canonicalText (signed negative t)) = (if negative then -1 else 1) * w := by
  obtain ⟨i, f, parts, rfl, rfl⟩ := h
  obtain ⟨s, plain, text, value⟩ := spelling_joined negative parts.integerDigits
    parts.fractionDigits parts.trimmed.1
  rw [← text, ← value]
  exact Spelling.canonicalText_plain plain

theorem numberParts_signed {i f : Text} (parts : CanonicalParts i f) (negative : Bool) :
    numberParts (signed negative (joined i f)) = ⟨negative, i, f⟩ := by
  cases negative with
  | false => exact numberParts_joined parts.integerDigits parts.trimmed.1
  | true => exact numberParts_minus parts.integerDigits

/-- Two numbers as a division reads them: signs apart, and whole at one scale. -/
structure Operands (a b : Number) (negA negB : Bool) (i f j g : Text) (D V : Nat) : Prop where
  numberA : a.isNan = false
  numberB : b.isNan = false
  partsA : CanonicalParts i f
  partsB : CanonicalParts j g
  textA : a.number = signed negA (joined i f)
  textB : b.number = signed negB (joined j g)
  dividend : natural (scaledText i f g) = D
  divisor : natural (scaledText j g f) = V

theorem exists_operands {a b : Number} (notA : a.isNan = false) (notB : b.isNan = false) :
    ∃ negA negB i f j g D V, Operands a b negA negB i f j g D V := by
  obtain ⟨negA, i, f, pa, _, textA⟩ := Number.canonical_of notA
  obtain ⟨negB, j, g, pb, _, textB⟩ := Number.canonical_of notB
  exact ⟨negA, negB, i, f, j, g, _, _, notA, notB, pa, pb, textA, textB, rfl, rfl⟩

namespace Operands

variable {a b : Number} {negA negB : Bool} {i f j g : Text} {D V : Nat}

section

variable (h : Operands a b negA negB i f j g D V)

include h

theorem writesA : Writes (joined i f) (decimal i f) := ⟨i, f, h.partsA, rfl, rfl⟩

theorem writesB : Writes (joined j g) (decimal j g) := ⟨j, g, h.partsB, rfl, rfl⟩

theorem valueA : a.value = (if negA then -1 else 1) * decimal i f := by
  rw [Number.value, h.textA, textValue_signed negA h.partsA.integerDigits h.partsA.trimmed.1]

theorem valueB : b.value = (if negB then -1 else 1) * decimal j g := by
  rw [Number.value, h.textB, textValue_signed negB h.partsB.integerDigits h.partsB.trimmed.1]

theorem scaledA : decimal i f = D / 10 ^ max f.length g.length := by
  rw [← h.dividend, scaledText]
  exact (writes_scaled h.partsA (Nat.le_max_left _ _)).2

theorem scaledB : decimal j g = V / 10 ^ max f.length g.length := by
  rw [← h.divisor, scaledText, Nat.max_comm]
  exact (writes_scaled h.partsB (Nat.le_max_right _ _)).2

theorem zero_iff : b.value = 0 ↔ V = 0 := by
  have power : (10 : ℚ) ^ max f.length g.length ≠ 0 := by positivity
  have sign : (if negB then -1 else 1 : ℚ) ≠ 0 := by cases negB <;> norm_num
  rw [h.valueB, h.scaledB, mul_eq_zero, or_iff_right sign, div_eq_zero_iff, or_iff_left power,
    Nat.cast_eq_zero]

theorem ratio : decimal i f / decimal j g = (D : ℚ) / V := by
  have power : (10 : ℚ) ^ max f.length g.length ≠ 0 := by positivity
  rw [h.scaledA, h.scaledB, div_div_div_cancel_right₀ power]

theorem quotient : a.value / b.value = (if negA != negB then -1 else 1) * ((D : ℚ) / V) := by
  rw [h.valueA, h.valueB, sign_xor, ← h.ratio, mul_div_mul_comm]

theorem abs_quotient : |a.value / b.value| = (D : ℚ) / V := by
  rw [h.quotient, abs_sign]
  exact abs_of_nonneg (by positivity)

/-- What an operation takes from the two texts before it looks at their digits. -/
theorem taken :
    (a.number == nanValue || b.number == nanValue) = false ∧
      (a.number.head? == some (ch '-')) = negA ∧ (b.number.head? == some (ch '-')) = negB ∧
      (if negA then a.number.drop 1 else a.number) = joined i f ∧
      (if negB then b.number.drop 1 else b.number) = joined j g := by
  have notNan : (a.number == nanValue || b.number == nanValue) = false := by
    have notA := h.numberA
    have notB := h.numberB
    rw [Number.isNan] at notA notB
    rw [notA, notB]
    rfl
  rw [h.textA, h.textB] at notNan ⊢
  exact ⟨notNan, h.writesA.signed_head negA, h.writesB.signed_head negB, signed_drop negA _,
    signed_drop negB _⟩

theorem zero_text : (b.number == [ch '0']) = decide (V = 0) := by
  have canonical := Number.canonical_of h.numberB
  rw [Bool.eq_iff_iff, beq_iff_eq, decide_eq_true_iff, ← h.zero_iff]
  constructor
  · intro zero
    rw [Number.value, zero]
    exact Writes.zero.canonical.2
  · intro zero
    exact canonical.unique Writes.zero.canonical.1 (zero.trans Writes.zero.canonical.2.symm)

/-- A quotient of magnitudes goes under the sign of both. -/
theorem performArithmetic_over (nonzero : V ≠ 0) {t : Text} {w : ℚ}
    (division : dividePositiveNumbers (joined i f) (joined j g) quotientSignificantDigits = some t)
    (written : Writes t w) :
    performArithmetic a.number b.number .over = some (signed (negA != negB) t) := by
  obtain ⟨notNan, headA, headB, dropA, dropB⟩ := h.taken
  have notZero := h.zero_text
  rw [decide_eq_false nonzero] at notZero
  have notNanT : (t == nanValue) = false := beq_eq_false_iff_ne.mpr written.canonical.1.ne_nan
  unfold performArithmetic
  simp only [notNan, headA, headB, dropA, dropB, notZero, Bool.false_eq_true, if_false, division,
    Option.map_some, notNanT]

theorem calculate_over (nonzero : V ≠ 0) {t : Text} {w : ℚ}
    (division : dividePositiveNumbers (joined i f) (joined j g) quotientSignificantDigits = some t)
    (written : Writes t w) : ∃ r, a.calculate b .over = some r ∧ r.isNan = false ∧
      r.value = (if negA != negB then -1 else 1) * w := by
  have canonical := written.canonicalText_signed (negA != negB)
  have result := h.performArithmetic_over nonzero division written
  refine ⟨_, by rw [Number.calculate, result]; rfl, ?_, ?_⟩
  · exact beq_eq_false_iff_ne.mpr canonical.1.ne_nan
  · exact canonical.2

end

end Operands

end Dross
