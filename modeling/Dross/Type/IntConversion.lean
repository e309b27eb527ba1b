import Dross.Type.ExactDivision
import Dross.Type.Modulo

/-!
# Conversion to int

A number goes to an int by way of its text, `std::stod`, rounding and a clamp. Where
`std::stod` gives up there is nothing left to clamp, and the conversion gives zero.
-/

namespace Dross

/-- `parsed_number` -/
structure ParsedNumber where
  isNegative : Bool
  integerPart : Text
  fractionalPart : Option Text
  isValid : Bool
  deriving DecidableEq

def parseNumberUnified (str : Text) : ParsedNumber :=
  if str == nanValue then ⟨false, [ch '0'], none, false⟩
  else
    let isNegative := str.head? == some (ch '-')
    let unsigned := if isNegative then str.drop 1 else str
    if unsigned.contains (ch '.') then
      ⟨isNegative, beforePoint unsigned, some (afterPoint unsigned), true⟩
    else ⟨isNegative, unsigned, none, true⟩

def intMin : ℤ := -2 ^ 31

def intMax : ℤ := 2 ^ 31 - 1

/-- `std::round`: to nearest, and away from zero halfway. -/
def roundAway (q : ℚ) : ℤ := if q < 0 then -⌊-q + 1 / 2⌋ else ⌊q + 1 / 2⌋

/-- `std::clamp` to the range of int. -/
def clampInt (n : ℤ) : ℤ := if n < intMin then intMin else if intMax < n then intMax else n

namespace ParsedNumber

/-- What `to_double` has converted. -/
def fullText (p : ParsedNumber) : Text :=
  signed p.isNegative (match p.fractionalPart with
    | none => p.integerPart
    | some fractional => p.integerPart ++ ch '.' :: fractional)

variable (stod : Text → Option (ℚ × Nat)) (p : ParsedNumber)

/-- `stod` gives the value of a double and how much of the text it is, or throws. -/
def toDouble : Option ℚ :=
  if ! p.isValid then none
  else match stod p.fullText with
    | none => none
    | some (value, processed) => if processed = p.fullText.length then some value else none

def toInt : ℤ :=
  match p.toDouble stod with
  | none => 0
  | some value => clampInt (roundAway value)

end ParsedNumber

/-- `number::operator int` -/
def Number.toInt (stod : Text → Option (ℚ × Nat)) (n : Number) : ℤ :=
  (parseNumberUnified n.number).toInt stod

/-! ## What the conversion rests on -/

/-- The largest finite double. -/
def maxDouble : ℚ := (2 ^ 53 - 1) * 2 ^ 971

/-- The smallest normal double. -/
def minDouble : ℚ := 1 / 2 ^ 1022

/-- What is known of `std::stod` on plain decimal text: it takes all of it, keeps the order,
is exact on integers below 2^53, and throws for what is too large. It may also throw for
what is nearer to zero than the smallest normal double, and otherwise gives no more there. -/
structure StandardStod (stod : Text → Option (ℚ × Nat)) : Prop where
  whole : ∀ t v processed, Canonical t → stod t = some (v, processed) → processed = t.length
  mono : ∀ s t v w p q, Canonical s → Canonical t → stod s = some (v, p) → stod t = some (w, q) →
    textValue s ≤ textValue t → v ≤ w
  integral : ∀ t, Canonical t → ∀ k : ℤ, textValue t = k → |k| < 2 ^ 53 →
    stod t = some ((k : ℚ), t.length)
  overflow : ∀ t, Canonical t → maxDouble < |textValue t| → stod t = none
  finite : ∀ t, Canonical t → |textValue t| ≤ maxDouble → minDouble ≤ |textValue t| →
    (stod t).isSome = true
  underflow : ∀ t v processed, Canonical t → |textValue t| < minDouble →
    stod t = some (v, processed) → |v| ≤ minDouble

theorem two_pow_le_maxDouble : (2 : ℚ) ^ 53 ≤ maxDouble := by
  have power : (2 : ℚ) ^ 1 ≤ 2 ^ 971 := pow_le_pow_right₀ (by norm_num) (by norm_num)
  calc (2 : ℚ) ^ 53 ≤ (2 ^ 53 - 1) * 2 ^ 1 := by norm_num
    _ ≤ maxDouble := mul_le_mul_of_nonneg_left power (by norm_num)

/-! ## Rounding and clamping -/

theorem roundAway_mono {q r : ℚ} (h : q ≤ r) : roundAway q ≤ roundAway r := by
  unfold roundAway
  split <;> split
  · have := Int.floor_le_floor (show -r + 1 / 2 ≤ -q + 1 / 2 by linarith)
    omega
  · rename_i negative nonneg
    have low : (0 : ℤ) ≤ ⌊-q + 1 / 2⌋ := Int.floor_nonneg.mpr (by linarith)
    have high : (0 : ℤ) ≤ ⌊r + 1 / 2⌋ := Int.floor_nonneg.mpr (by linarith)
    omega
  · rename_i nonneg negative
    exact absurd (h.trans_lt negative) nonneg
  · exact Int.floor_le_floor (by linarith)

theorem roundAway_int (k : ℤ) : roundAway k = k := by
  have half : ∀ m : ℤ, ⌊(m : ℚ) + 1 / 2⌋ = m := by
    intro m
    rw [Int.floor_intCast_add]
    norm_num
  unfold roundAway
  split
  · have neg := half (-k)
    push_cast at neg
    rw [neg, neg_neg]
  · exact half k

theorem roundAway_small {q : ℚ} (h : |q| ≤ minDouble) : roundAway q = 0 := by
  have small : minDouble < 1 / 2 :=
    one_div_lt_one_div_of_lt (by norm_num) (lt_self_pow₀ (by norm_num) (by norm_num))
  have bounds := abs_le.mp h
  unfold roundAway
  split
  · rw [neg_eq_zero, Int.floor_eq_zero_iff, Set.mem_Ico]
    constructor <;> linarith
  · rw [Int.floor_eq_zero_iff, Set.mem_Ico]
    constructor <;> linarith

theorem clampInt_mono {m n : ℤ} (h : m ≤ n) : clampInt m ≤ clampInt n := by
  unfold clampInt intMin intMax
  split_ifs <;> omega

theorem clampInt_inside {n : ℤ} (low : intMin ≤ n) (high : n ≤ intMax) : clampInt n = n := by
  rw [clampInt, if_neg (by omega), if_neg (by omega)]

/-! ## From text to a double -/

/-- The parts of canonical text are put together again as they were. -/
theorem parseNumberUnified_canonical {t : Text} (h : Canonical t) :
    (parseNumberUnified t).isValid = true ∧ (parseNumberUnified t).fullText = t := by
  have notNan : (t == nanValue) = false := beq_eq_false_iff_ne.mpr h.ne_nan
  obtain ⟨negative, m, u, written, _, rfl, _⟩ := h.magnitude
  unfold parseNumberUnified
  simp only [notNan, Bool.false_eq_true, if_false, written.signed_head, signed_drop]
  obtain ⟨i, f, parts, rfl, rfl⟩ := written
  split
  · rename_i point
    refine ⟨rfl, ?_⟩
    have some' : f ≠ [] := by
      rintro rfl
      have digits := parts.integerDigits
      rw [List.contains_eq_mem, decide_eq_true_iff, joined] at point
      exact absurd (digits _ point) (by decide)
    simp only [ParsedNumber.fullText, beforePoint_joined parts.integerDigits,
      afterPoint_joined parts.integerDigits]
    simp [joined, some']
  · exact ⟨rfl, rfl⟩

section Conversion

variable {stod : Text → Option (ℚ × Nat)} {n a b : Number}

theorem toInt_some (h : StandardStod stod) (number : n.isNan = false) {v : ℚ} {processed : Nat}
    (converts : stod n.number = some (v, processed)) : n.toInt stod = clampInt (roundAway v) := by
  have canonical := Number.canonical_of number
  obtain ⟨valid, full⟩ := parseNumberUnified_canonical canonical
  have whole := h.whole _ _ _ canonical converts
  simp [Number.toInt, ParsedNumber.toInt, ParsedNumber.toDouble, valid, full, converts, whole]

theorem toInt_none (number : n.isNan = false) (throws : stod n.number = none) :
    n.toInt stod = 0 := by
  obtain ⟨valid, full⟩ := parseNumberUnified_canonical (Number.canonical_of number)
  simp [Number.toInt, ParsedNumber.toInt, ParsedNumber.toDouble, valid, full, throws]

/-- What is near to zero goes to zero, thrown or not. -/
theorem toInt_small (h : StandardStod stod) (number : n.isNan = false)
    (small : |n.value| < minDouble) : n.toInt stod = 0 := by
  cases converts : stod n.number with
  | none => exact toInt_none number converts
  | some result =>
    obtain ⟨v, processed⟩ := result
    have under := h.underflow _ _ _ (Number.canonical_of number) small converts
    rw [toInt_some h number converts, roundAway_small under]
    rfl

theorem toInt_finite (h : StandardStod stod) (number : n.isNan = false)
    (finite : |n.value| ≤ maxDouble) (large : minDouble ≤ |n.value|) :
    ∃ v processed, stod n.number = some (v, processed) ∧ n.toInt stod = clampInt (roundAway v) := by
  obtain ⟨⟨v, processed⟩, converts⟩ :=
    Option.isSome_iff_exists.mp (h.finite _ (Number.canonical_of number) finite large)
  exact ⟨v, processed, converts, toInt_some h number converts⟩

/-- A double is on the same side of an integer as the number it was made of. -/
theorem stod_integer (h : StandardStod stod) (number : n.isNan = false) {v : ℚ} {processed : Nat}
    (converts : stod n.number = some (v, processed)) {k : ℤ} (exact' : |k| < 2 ^ 53) :
    ((k : ℚ) ≤ n.value → (k : ℚ) ≤ v) ∧ (n.value ≤ k → v ≤ k) := by
  obtain ⟨t, canonical, value⟩ : ∃ t, Canonical t ∧ textValue t = k := by
    obtain ⟨t, digits, trimmed, natural'⟩ := exists_natural k.natAbs
    have written := writes_natural digits trimmed
    rw [natural'] at written
    obtain ⟨canonical, value⟩ := written.canonicalText_signed (k < 0)
    refine ⟨_, canonical, value.trans ?_⟩
    by_cases negative : k < 0
    · simp [negative, abs_of_neg negative]
    · simp [negative, abs_of_nonneg (not_lt.mp negative)]
  have integral := h.integral t canonical k value exact'
  constructor
  · intro below
    exact h.mono _ _ _ _ _ _ canonical (Number.canonical_of number) integral converts
      (value.le.trans below)
  · intro above
    exact h.mono _ _ _ _ _ _ (Number.canonical_of number) canonical converts integral
      (above.trans value.ge)

/-- Rounding and clamping do not go past an integer that int holds. -/
theorem toInt_integer (h : StandardStod stod) (number : n.isNan = false)
    (finite : |n.value| ≤ maxDouble) {k : ℤ} (exact' : |k| < 2 ^ 53) (inside : intMin ≤ k)
    (inside' : k ≤ intMax) (large : minDouble ≤ |n.value|) :
    ((k : ℚ) ≤ n.value → k ≤ n.toInt stod) ∧ (n.value ≤ k → n.toInt stod ≤ k) := by
  obtain ⟨v, processed, converts, result⟩ := toInt_finite h number finite large
  obtain ⟨below, above⟩ := stod_integer h number converts exact'
  have same := clampInt_inside inside inside'
  rw [result]
  constructor
  · intro le
    have := clampInt_mono (roundAway_mono (below le))
    rwa [roundAway_int, same] at this
  · intro le
    have := clampInt_mono (roundAway_mono (above le))
    rwa [roundAway_int, same] at this

/-- Below the largest double, the order is kept. -/
theorem toInt_mono (h : StandardStod stod) (notA : a.isNan = false) (notB : b.isNan = false)
    (finiteA : |a.value| ≤ maxDouble) (finiteB : |b.value| ≤ maxDouble)
    (le : a.value ≤ b.value) : a.toInt stod ≤ b.toInt stod := by
  have tiny : 0 < minDouble := by unfold minDouble; positivity
  by_cases smallA : |a.value| < minDouble
  · rw [toInt_small h notA smallA]
    by_cases smallB : |b.value| < minDouble
    · rw [toInt_small h notB smallB]
    · refine (toInt_integer h notB finiteB (by decide) (by decide) (by decide)
        (not_lt.mp smallB)).1 ?_
      rw [Int.cast_zero]
      by_contra negative
      rw [not_le] at negative
      rw [abs_lt] at smallA
      rw [abs_of_neg negative] at smallB
      linarith
  · by_cases smallB : |b.value| < minDouble
    · rw [toInt_small h notB smallB]
      refine (toInt_integer h notA finiteA (by decide) (by decide) (by decide)
        (not_lt.mp smallA)).2 ?_
      rw [Int.cast_zero]
      by_contra positive
      rw [not_le] at positive
      rw [abs_lt] at smallB
      rw [abs_of_pos positive] at smallA
      linarith
    · obtain ⟨v, p, convertsA, resultA⟩ := toInt_finite h notA finiteA (not_lt.mp smallA)
      obtain ⟨w, q, convertsB, resultB⟩ := toInt_finite h notB finiteB (not_lt.mp smallB)
      have order := h.mono _ _ _ _ _ _ (Number.canonical_of notA) (Number.canonical_of notB)
        convertsA convertsB le
      rw [resultA, resultB]
      exact clampInt_mono (roundAway_mono order)

/-- What the conversion of one number should be: clamped outside the range of int, and
exact for an integer inside. -/
structure Number.Clamps (stod : Text → Option (ℚ × Nat)) (n : Number) : Prop where
  above : (intMax : ℚ) < n.value → n.toInt stod = intMax
  below : n.value < intMin → n.toInt stod = intMin
  inside : ∀ k : ℤ, n.value = k → intMin ≤ k → k ≤ intMax → n.toInt stod = k

theorem clamps_iff (h : StandardStod stod) (number : n.isNan = false) :
    n.Clamps stod ↔ |n.value| ≤ maxDouble := by
  have tiny : minDouble < 1 := by
    have := one_div_lt_one_div_of_lt (a := (1 : ℚ)) (b := 2 ^ 1022) (by norm_num)
      (one_lt_pow₀ (by norm_num) (by norm_num))
    simpa [minDouble] using this
  have wide : (2 : ℚ) ^ 31 < maxDouble :=
    (by norm_num : (2 : ℚ) ^ 31 < 2 ^ 53).trans_le two_pow_le_maxDouble
  constructor
  · intro clamps
    by_contra beyond
    rw [not_le] at beyond
    have zero := toInt_none number (h.overflow _ (Number.canonical_of number) beyond)
    rcases lt_abs.mp beyond with high | low
    · have := clamps.above (by unfold intMax; push_cast; linarith)
      rw [zero] at this
      exact absurd this (by decide)
    · have := clamps.below (by unfold intMin; push_cast; linarith)
      rw [zero] at this
      exact absurd this (by decide)
  · intro finite
    constructor
    · intro above
      have large : minDouble ≤ |n.value| := by
        have := le_abs_self n.value
        unfold intMax at above
        push_cast at above
        linarith
      obtain ⟨v, processed, converts, result⟩ := toInt_finite h number finite large
      have le := ((stod_integer h number converts (k := intMax) (by decide)).1 above.le)
      have := roundAway_mono le
      rw [roundAway_int] at this
      rw [result, clampInt]
      have : intMin ≤ intMax := by decide
      split_ifs <;> omega
    · intro below
      have large : minDouble ≤ |n.value| := by
        have := neg_le_abs n.value
        unfold intMin at below
        push_cast at below
        linarith
      obtain ⟨v, processed, converts, result⟩ := toInt_finite h number finite large
      have le := ((stod_integer h number converts (k := intMin) (by decide)).2 below.le)
      have := roundAway_mono le
      rw [roundAway_int] at this
      rw [result, clampInt]
      have : intMin ≤ intMax := by decide
      split_ifs <;> omega
    · intro k value low high
      have small : |k| < 2 ^ 53 := by
        unfold intMin at low
        unfold intMax at high
        rw [abs_lt]
        omega
      have converts := h.integral _ (Number.canonical_of number) k value small
      rw [toInt_some h number converts, roundAway_int, clampInt_inside low high]

/-- Numbers are converted in order, clamped outside the range of int and as they are
inside, exactly when none of them is beyond the largest double. -/
theorem toInt_correct_iff (h : StandardStod stod) (notA : a.isNan = false)
    (notB : b.isNan = false) (le : a.value ≤ b.value) :
    (a.toInt stod ≤ b.toInt stod ∧ a.Clamps stod ∧ b.Clamps stod) ↔
      |a.value| ≤ maxDouble ∧ |b.value| ≤ maxDouble := by
  rw [clamps_iff h notA, clamps_iff h notB]
  exact ⟨And.right, fun finite => ⟨toInt_mono h notA notB finite.1 finite.2 le, finite⟩⟩

end Conversion

/-- A `std::stod` of doubles that are as exact as the text. -/
def exactStod (t : Text) : Option (ℚ × Nat) :=
  if |textValue t| ≤ maxDouble then some (textValue t, t.length) else none

theorem exactStod_standard : StandardStod exactStod := by
  have result : ∀ {t v processed}, exactStod t = some (v, processed) →
      textValue t = v ∧ t.length = processed := by
    intro t v processed converts
    unfold exactStod at converts
    split at converts
    · simpa using converts
    · cases converts
  constructor
  · intro t v processed _ converts
    exact (result converts).2.symm
  · intro s t v w p q _ _ convertsS convertsT le
    rwa [(result convertsS).1, (result convertsT).1] at le
  · intro t _ k value small
    have finite : |(k : ℚ)| ≤ maxDouble := by
      have less : |(k : ℚ)| < 2 ^ 53 := by exact_mod_cast small
      exact less.le.trans two_pow_le_maxDouble
    rw [exactStod, value, if_pos finite]
  · intro t _ beyond
    rw [exactStod, if_neg (not_le.mpr beyond)]
  · intro t _ finite _
    rw [exactStod, if_pos finite]
    rfl
  · intro t v processed _ small converts
    rw [← (result converts).1]
    exact small.le

/-- 1 and 2^31 are converted in order, and as they should be. -/
theorem toInt_correct_iff_small :
    ((Number.ofText [ch '1']).toInt exactStod ≤
        (Number.ofText ("2147483648".toList.map ch)).toInt exactStod ∧
      (Number.ofText [ch '1']).Clamps exactStod ∧
      (Number.ofText ("2147483648".toList.map ch)).Clamps exactStod) ↔
      |(Number.ofText [ch '1']).value| ≤ maxDouble ∧
        |(Number.ofText ("2147483648".toList.map ch)).value| ≤ maxDouble :=
  toInt_correct_iff exactStod_standard (by decide) (by decide) (by decide +kernel)

/-- 10^309 -/
def beyondDouble : Text := [ch '1'] ++ List.replicate 309 (ch '0')

/-- Beyond the largest double a number is converted to zero. -/
theorem toInt_gives_up : StandardStod exactStod ∧
    (Number.ofText beyondDouble).isNan = false ∧
    (intMax : ℚ) < (Number.ofText beyondDouble).value ∧
    (Number.ofText beyondDouble).toInt exactStod = 0 ∧
    ¬ (Number.ofText beyondDouble).Clamps exactStod := by
  have one := writes_natural (t := [ch '1']) (by decide) (by decide)
  have zeros := Number.writes_zeros one (by decide) 309
  rw [show natural [ch '1'] = 1 by decide, Nat.one_mul] at zeros
  obtain ⟨_, number, value⟩ := Number.ofText_writes zeros
  change (Number.ofText beyondDouble).isNan = false at number
  change (Number.ofText beyondDouble).value = _ at value
  have more : maxDouble < ((10 ^ 309 : Nat) : ℚ) := by
    have whole : (2 ^ 53 - 1) * 2 ^ 971 < 10 ^ 309 := by decide +kernel
    calc maxDouble = (((2 ^ 53 - 1) * 2 ^ 971 : Nat) : ℚ) := by
          rw [maxDouble, Nat.cast_mul, Nat.cast_pow 2 971]
          norm_num only
      _ < ((10 ^ 309 : Nat) : ℚ) := Nat.cast_lt.mpr whole
  have beyond : maxDouble < |(Number.ofText beyondDouble).value| := by
    rw [value]
    exact more.trans_le (le_abs_self _)
  refine ⟨exactStod_standard, number, ?_, ?_, ?_⟩
  · rw [value]
    refine lt_trans ?_ more
    calc (intMax : ℚ) < 2 ^ 53 := by
          unfold intMax
          norm_num
      _ ≤ maxDouble := two_pow_le_maxDouble
  · exact toInt_none number (exactStod_standard.overflow _ (Number.canonical_of number) beyond)
  · rw [clamps_iff exactStod_standard number]
    exact not_le.mpr beyond

end Dross
