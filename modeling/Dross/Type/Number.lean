import Dross.Type.Multiplication

/-!
# Numbers

A number holds canonical text or the one NaN, and a flag for how it was
written. Its sums, differences and products are exact.
-/

namespace Dross

/-- `storage::is_written_as_floating_point` -/
def isWrittenAsFloatingPoint (s : Text) : Bool :=
  s.any (fun c => c == ch '.' || c == ch 'e' || c == ch 'E')

section Integral

variable {s : Text}

theorem not_point_of_integral (integral : isWrittenAsFloatingPoint s = false) :
    ∀ c ∈ s, c ≠ ch '.' ∧ isExponentMark c = false := by
  intro c mem
  have none := List.any_eq_false.mp integral c mem
  simp only [Bool.or_eq_true, beq_iff_eq, not_or] at none
  exact ⟨none.1.1, by simp [isExponentMark, none.1.2, none.2]⟩

theorem dropSign_subset {c : UInt8} (h : c ∈ dropSign s) : c ∈ s := by
  cases s with
  | nil => exact h
  | cons d s =>
    rw [dropSign] at h
    split at h
    · exact List.mem_cons_of_mem _ h
    · exact h

theorem expandExponent_integral (integral : isWrittenAsFloatingPoint s = false) :
    expandExponent s = s := by
  have marks : s.dropWhile (fun c => ! isExponentMark c) = [] := by
    rw [List.dropWhile_eq_nil_iff]
    intro c mem
    simp [(not_point_of_integral integral c mem).2]
  rw [expandExponent, marks]
  exact if_pos rfl

theorem canonicalExpanded_integral (integral : ∀ c ∈ s, c ≠ ch '.') :
    ∀ c ∈ canonicalExpanded s, c ≠ ch '.' := by
  have unsigned : ∀ c ∈ dropSign s, c ≠ ch '.' := fun c mem => integral c (dropSign_subset mem)
  have fraction : dropTrailingZeros (afterPoint (dropSign s)) = [] := by
    have after : (dropSign s).dropWhile (fun c => ! c == ch '.') = [] := by
      rw [List.dropWhile_eq_nil_iff]
      intro c mem
      simpa using unsigned c mem
    rw [afterPoint, after]
    rfl
  have integer : ∀ c ∈ trimmedInteger (beforePoint (dropSign s)), c ≠ ch '.' := by
    intro c mem
    unfold trimmedInteger at mem
    split at mem
    · rw [List.mem_singleton.mp mem]
      decide
    · exact unsigned c ((List.takeWhile_sublist _).mem ((List.dropWhile_sublist _).mem mem))
  intro c mem
  unfold canonicalExpanded at mem
  simp only [fraction] at mem
  have whole : joined (trimmedInteger (beforePoint (dropSign s))) [] =
      trimmedInteger (beforePoint (dropSign s)) := if_pos rfl
  change c ∈ (if _ && joined (trimmedInteger (beforePoint (dropSign s))) [] != [ch '0'] then
    ch '-' :: joined (trimmedInteger (beforePoint (dropSign s))) []
    else joined (trimmedInteger (beforePoint (dropSign s))) []) at mem
  rw [whole] at mem
  split at mem
  · rcases List.mem_cons.mp mem with rfl | mem
    · decide
    · exact integer c mem
  · exact integer c mem

/-- A fraction in the canonical text was in the text it came from. -/
theorem canonicalText_point (point : ch '.' ∈ canonicalText s) :
    isWrittenAsFloatingPoint s = true := by
  by_contra integral
  have integral : isWrittenAsFloatingPoint s = false := by simpa using integral
  have nan : ch '.' ∉ nanValue := by decide
  unfold canonicalText at point
  split at point
  · exact nan point
  · rw [expandExponent_integral integral] at point
    simp only at point
    split at point
    · exact nan point
    · exact canonicalExpanded_integral (fun c mem => (not_point_of_integral integral c mem).1) _
        point rfl

end Integral

/-- `number::storage`. Whatever text comes in, only these are held, and a
fraction is written only where the number is floating point. -/
structure Number where
  number : Text
  floatingPoint : Bool
  stored : number = nanValue ∨ Canonical number
  fractional : ch '.' ∈ number → floatingPoint = true

namespace Number

/-- `number(text, floating_point)` -/
def ofTextAs (s : Text) (floatingPoint : Bool)
    (fractional : ch '.' ∈ canonicalText s → floatingPoint = true) : Number :=
  ⟨canonicalText s, floatingPoint, canonicalText_canonical s, fractional⟩

/-- `number(text)` -/
def ofText (s : Text) : Number := ofTextAs s (isWrittenAsFloatingPoint s) canonicalText_point

def isNan (n : Number) : Bool := n.number == nanValue

/-- `number::is_integer` -/
def isInteger (n : Number) : Bool := ! n.isNan && ! n.number.contains (ch '.')

def isFloatingPoint (n : Number) : Bool := ! n.isNan && n.floatingPoint

def calculate (a b : Number) (op : ArithmeticOperation) : Option Number :=
  (performArithmetic a.number b.number op).map (fun text =>
    let result := ofText text
    { result with
      floatingPoint := result.floatingPoint || a.floatingPoint || b.floatingPoint
      fractional := fun point => by simp [result.fractional point] })

/-- The rational a number denotes. -/
def value (n : Number) : ℚ := textValue n.number

/-- A number is the one canonical way to write a value: every decimal spelling of it
is stored as the same text. A power of ten may ask for too many digits instead. -/
structure Exactly (n : Number) (v : ℚ) : Prop where
  canonical : Canonical n.number
  value_eq : n.value = v
  spelled : ∀ s : Spelling, s.value = v → (ofText s.text).number = n.number ∨
    (s.power ≠ none ∧ (ofText s.text).isNan = true)

theorem isNan_iff {n : Number} : n.isNan = true ↔ n.number = nanValue := beq_iff_eq

theorem canonical_of {n : Number} (h : n.isNan = false) : Canonical n.number := by
  refine n.stored.resolve_left ?_
  intro nan
  rw [isNan_iff.mpr nan] at h
  cases h

end Number

/-! ## Signs -/

theorem Writes.signed_head {t : Text} {v : ℚ} (h : Writes t v) (negative : Bool) :
    ((signed negative t).head? == some (ch '-')) = negative := by
  cases negative with
  | false => exact h.positive
  | true => rfl

theorem signed_drop (negative : Bool) (t : Text) :
    (if negative then (signed negative t).drop 1 else signed negative t) = t := by
  cases negative <;> rfl

/-- What an operation leaves: canonical text of an exact value. -/
def Leaves (t : Text) (v : ℚ) : Prop := Canonical t ∧ textValue t = v

theorem Writes.leaves {t : Text} {u v : ℚ} {negative : Bool} (h : Writes t u) (positive : u ≠ 0)
    (value : (if negative then -1 else 1) * u = v) : Leaves (signed negative t) v := by
  rw [← value]
  exact h.withSign (fun _ => positive)

theorem leaves_zero {v : ℚ} (zero : v = 0) : Leaves [ch '0'] v := by
  rw [zero]
  exact Writes.zero.canonical

section Operations

variable {m n : Text} {u v w : ℚ}

/-- Two magnitudes under one sign, added. -/
theorem leaves_sum {negative : Bool} (hm : Writes m u) (hn : Writes n v)
    (nonzero : negative = true → u ≠ 0)
    (value : (if negative then -1 else 1) * (u + v) = w) :
    Leaves (signed negative (addPositiveNumbers m n)) w := by
  have sum := addPositiveNumbers_writes hm hn
  rw [← value]
  refine sum.withSign ?_
  intro neg zero
  have := hm.nonneg
  have := hn.nonneg
  exact nonzero neg (by linarith)

/-- Two magnitudes, the smaller taken from the greater under the sign of the greater. -/
theorem leaves_difference {negA negB : Bool} (hm : Writes m u) (hn : Writes n v)
    (value : (if negA then -1 else 1) * (u - v) = w)
    (value' : (if negB then -1 else 1) * (v - u) = w) :
    Leaves (if compareNumbers m n = 0 then [ch '0']
      else if compareNumbers m n > 0 then signed negA (subtractPositiveNumbers m n)
      else signed negB (subtractPositiveNumbers n m)) w := by
  rcases compareNumbers_order hm hn with ⟨cmp, order⟩ | ⟨cmp, order⟩ | ⟨cmp, order⟩
  · rw [if_pos cmp]
    exact leaves_zero (by rw [← value, order]; ring)
  · rw [if_neg (by omega), if_neg (by omega)]
    exact (subtractPositiveNumbers_writes hn hm order.le).leaves (by linarith) value'
  · rw [if_neg (by omega), if_pos (by omega)]
    exact (subtractPositiveNumbers_writes hm hn order.le).leaves (by linarith) value

theorem leaves_product {negative : Bool} (hm : Writes m u) (hn : Writes n v)
    (value : (if negative then -1 else 1) * (u * v) = w) :
    Leaves (if multiplyPositiveNumbers m n == [ch '0'] then [ch '0']
      else signed negative (multiplyPositiveNumbers m n)) w := by
  have product := multiplyPositiveNumbers_writes hm hn
  split
  · rename_i zero
    exact leaves_zero (by rw [← value, product.eq_zero.mp (by simpa using zero)]; ring)
  · rename_i nonzero
    refine product.leaves ?_ value
    rw [← product.eq_zero.ne]
    simpa using nonzero

end Operations

theorem sign_not (negative : Bool) :
    (if ! negative then -1 else 1 : ℚ) = -(if negative then -1 else 1) := by
  cases negative <;> norm_num

/-- The four-way dispatch on signs agrees with the rationals. -/
theorem performArithmetic_leaves {a b : Text} (ha : Canonical a) (hb : Canonical b) :
    (∃ t, performArithmetic a b .plus = some t ∧ Leaves t (textValue a + textValue b)) ∧
      (∃ t, performArithmetic a b .minus = some t ∧ Leaves t (textValue a - textValue b)) ∧
      (∃ t, performArithmetic a b .times = some t ∧ Leaves t (textValue a * textValue b)) := by
  have notNan : (a == nanValue || b == nanValue) = false := by
    simp [ha.ne_nan, hb.ne_nan]
  obtain ⟨negA, m, u, hm, nonzeroA, rfl, valueA⟩ := ha.magnitude
  obtain ⟨negB, n, v, hn, nonzeroB, rfl, valueB⟩ := hb.magnitude
  unfold performArithmetic
  simp only [notNan, hm.signed_head, hn.signed_head, signed_drop, valueA, valueB,
    Bool.false_eq_true, if_false]
  refine ⟨?_, ?_, ?_⟩
  · by_cases same : negA = negB
    · subst same
      simp only [beq_self_eq_true, if_true]
      exact ⟨_, rfl, leaves_sum hm hn nonzeroA (by ring)⟩
    · obtain rfl := Bool.eq_not.mpr (Ne.symm same)
      rw [if_neg (by simp)]
      refine ⟨_, ?_, @leaves_difference _ _ _ _ _ negA (! negA) hm hn ?_ ?_⟩
      · split_ifs <;> rfl
      · rw [sign_not]
        ring
      · rw [sign_not]
        ring
  · by_cases same : negA = negB
    · subst same
      simp only [bne_self_eq_false, Bool.false_eq_true, if_false]
      refine ⟨_, ?_, @leaves_difference _ _ _ _ _ negA (! negA) hm hn ?_ ?_⟩
      · split_ifs <;> rfl
      · ring
      · rw [sign_not]
        ring
    · obtain rfl := Bool.eq_not.mpr (Ne.symm same)
      rw [if_pos (by simp)]
      refine ⟨_, rfl, leaves_sum hm hn nonzeroA ?_⟩
      rw [sign_not]
      ring
  · refine ⟨_, ?_, @leaves_product _ _ _ _ _ (negA != negB) hm hn ?_⟩
    · split_ifs <;> rfl
    · cases negA <;> cases negB <;> simp

namespace Number

/-- Text that an operation leaves is stored as it is. -/
theorem calculate_some {a b : Number} {op : ArithmeticOperation} {t : Text}
    (h : performArithmetic a.number b.number op = some t)
    (stored : t = nanValue ∨ Canonical t) : ∃ r, a.calculate b op = some r ∧ r.number = t := by
  unfold calculate
  rw [h]
  refine ⟨_, rfl, ?_⟩
  rcases stored with rfl | canonical
  · exact (by decide : canonicalText nanValue = nanValue)
  · exact canonical.canonicalText

theorem exactly {n : Number} {v : ℚ} (h : Leaves n.number v) : n.Exactly v := by
  refine ⟨h.1, h.2, ?_⟩
  intro s same
  by_cases plain : s.power = none
  · have canonical := Spelling.canonicalText_plain plain
    exact Or.inl (canonical.1.unique h.1 (by rw [canonical.2, h.2, same]))
  · rcases s.canonicalText_spelling with nan | canonical
    · exact Or.inr ⟨plain, isNan_iff.mpr nan⟩
    · exact Or.inl (canonical.1.unique h.1 (by rw [canonical.2, h.2, same]))

theorem calculate_exactly {a b : Number} {op : ArithmeticOperation} {v : ℚ}
    (h : ∃ t, performArithmetic a.number b.number op = some t ∧ Leaves t v) :
    ∃ r, a.calculate b op = some r ∧ r.Exactly v := by
  obtain ⟨t, result, leaves⟩ := h
  obtain ⟨r, calculated, rfl⟩ := calculate_some result (Or.inr leaves.1)
  exact ⟨r, calculated, exactly leaves⟩

/-- NaN in, NaN out. -/
theorem calculate_nan {a b : Number} (nan : a.isNan = true ∨ b.isNan = true)
    (op : ArithmeticOperation) : ∃ r, a.calculate b op = some r ∧ r.isNan = true := by
  have either : (a.number == nanValue || b.number == nanValue) = true := by
    simpa [isNan] using nan
  have result : performArithmetic a.number b.number op = some nanValue := by
    unfold performArithmetic
    rw [if_pos either]
  obtain ⟨r, calculated, number⟩ := calculate_some result (Or.inl rfl)
  exact ⟨r, calculated, isNan_iff.mpr number⟩

/-- Sums, differences and products are exact, and NaN is passed on. -/
theorem exact_arithmetic (a b : Number) :
    (a.isNan = false → b.isNan = false →
      (∃ r, a.calculate b .plus = some r ∧ r.Exactly (a.value + b.value)) ∧
      (∃ r, a.calculate b .minus = some r ∧ r.Exactly (a.value - b.value)) ∧
      (∃ r, a.calculate b .times = some r ∧ r.Exactly (a.value * b.value))) ∧
    (a.isNan = true ∨ b.isNan = true →
      ∀ op, ∃ r, a.calculate b op = some r ∧ r.isNan = true) := by
  constructor
  · intro notA notB
    obtain ⟨plus, minus, times⟩ := performArithmetic_leaves (canonical_of notA) (canonical_of notB)
    exact ⟨calculate_exactly plus, calculate_exactly minus, calculate_exactly times⟩
  · exact calculate_nan

/-- -0.05 and 12.5, which differ in sign and in how many places they have, and a NaN. -/
theorem exact_arithmetic_mixed :
    (∃ r, (ofText ("-0.05".toList.map ch)).calculate (ofText ("12.50".toList.map ch)) .minus =
        some r ∧
      r.Exactly ((ofText ("-0.05".toList.map ch)).value -
        (ofText ("12.50".toList.map ch)).value)) ∧
    ∃ r, (ofText ("-0.05".toList.map ch)).calculate (ofText ("five".toList.map ch)) .plus =
      some r ∧ r.isNan = true :=
  ⟨((exact_arithmetic _ _).1 (by decide) (by decide)).2.1,
    (exact_arithmetic _ _).2 (Or.inr (by decide)) .plus⟩

end Number

end Dross
