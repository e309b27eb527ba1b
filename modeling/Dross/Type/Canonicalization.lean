import Dross.Type.Expansion

/-!
# What `canonical_text` makes of a spelling

The canonical text of the value it spells. Canonical texts of one value are one
text, so the canonical form does not depend on the spelling.
-/

namespace Dross

/-- The unsigned canonical text of a rational. -/
def Writes (t : Text) (value : ℚ) : Prop :=
  ∃ integer fraction, CanonicalParts integer fraction ∧ t = joined integer fraction ∧
    decimal integer fraction = value

theorem CanonicalParts.eq_zero {integer fraction : Text} (h : CanonicalParts integer fraction) :
    joined integer fraction = [ch '0'] ↔ decimal integer fraction = 0 := by
  have zero : decimal [ch '0'] [] = 0 := by
    rw [decimal_nil]
    have : natural [ch '0'] = 0 := by decide
    simp [this]
  constructor
  · intro eq
    have integers := @beforePoint_joined integer fraction h.integerDigits
    have fractions := @afterPoint_joined integer fraction h.integerDigits
    rw [eq] at integers fractions
    rw [← integers, ← fractions]
    exact zero
  · intro value
    obtain ⟨rfl, rfl⟩ := h.unique CanonicalParts.zero (value.trans zero.symm)
    rfl

namespace Writes

variable {s t : Text} {u v : ℚ}

theorem eq_zero (h : Writes t v) : t = [ch '0'] ↔ v = 0 := by
  obtain ⟨i, f, parts, rfl, rfl⟩ := h
  exact parts.eq_zero

theorem nonneg (h : Writes t v) : 0 ≤ v := by
  obtain ⟨i, f, _, _, rfl⟩ := h
  exact decimal_nonneg i f

theorem zero : Writes [ch '0'] 0 :=
  ⟨[ch '0'], [], CanonicalParts.zero, rfl, CanonicalParts.zero.eq_zero.mp rfl⟩

theorem unique (hs : Writes s u) (ht : Writes t v) (same : u = v) : s = t := by
  obtain ⟨i, f, hs, rfl, rfl⟩ := hs
  obtain ⟨j, g, ht, rfl, rfl⟩ := ht
  obtain ⟨rfl, rfl⟩ := hs.unique ht same
  rfl

/-- With a sign that zero does not get, it is canonical. -/
theorem withSign {negative : Bool} (h : Writes t v) (nonzero : negative = true → v ≠ 0) :
    Canonical (signed negative t) ∧
      textValue (signed negative t) = (if negative then -1 else 1) * v := by
  have zero := h.eq_zero
  obtain ⟨i, f, parts, rfl, rfl⟩ := h
  exact ⟨⟨negative, i, f, parts, fun neg eq => nonzero neg (zero.mp eq), rfl⟩,
    textValue_signed negative parts.integerDigits parts.trimmed.1⟩

theorem canonical (h : Writes t v) : Canonical t ∧ textValue t = v := by
  have positive := @withSign t v false h (fun neg => by cases neg)
  simpa [signed] using positive

end Writes

/-- A canonical text with the magnitude under its sign. -/
theorem Canonical.magnitude {t : Text} (h : Canonical t) : ∃ negative m v, Writes m v ∧
    (negative = true → v ≠ 0) ∧ t = signed negative m ∧
    textValue t = (if negative then -1 else 1) * v := by
  obtain ⟨negative, i, f, parts, nonzero, rfl⟩ := h
  refine ⟨negative, joined i f, decimal i f, ⟨i, f, parts, rfl, rfl⟩, ?_, rfl,
    textValue_signed negative parts.integerDigits parts.trimmed.1⟩
  exact fun neg zero => nonzero neg (parts.eq_zero.mpr zero)

/-- Canonical texts of one value are one text. -/
theorem Canonical.unique {s t : Text} (hs : Canonical s) (ht : Canonical t)
    (same : textValue s = textValue t) : s = t := by
  obtain ⟨n, a, u, ha, hn, rfl, hu⟩ := hs.magnitude
  obtain ⟨m, b, v, hb, hm, rfl, hv⟩ := ht.magnitude
  rw [hu, hv] at same
  have u0 := ha.nonneg
  have v0 := hb.nonneg
  have signs : n = m := by
    cases n <;> cases m <;> simp only [Bool.false_eq_true, if_false, if_true, one_mul,
      neg_mul] at same
    · rfl
    · exact absurd (le_antisymm (by linarith) v0) (hm rfl)
    · exact absurd (le_antisymm (by linarith) u0) (hn rfl)
    · rfl
  subst signs
  rw [ha.unique hb]
  cases n <;> simpa using same

/-- Digits with a point between them are a spelling of what they write. -/
theorem spelling_joined {integer fraction : Text} (negative : Bool) (hi : AllDigits integer)
    (hf : AllDigits fraction) (nonempty : integer ≠ []) :
    ∃ s : Spelling, s.Plain ∧ s.text = signed negative (joined integer fraction) ∧
      s.value = (if negative then -1 else 1) * decimal integer fraction := by
  have sign : Sign.text (if negative then some .minus else none) ++ joined integer fraction =
      signed negative (joined integer fraction) := by
    cases negative <;> rfl
  cases fraction with
  | nil =>
    refine ⟨⟨if negative then some .minus else none, integer, none, none, hi, hf, ?_⟩, rfl, ?_, ?_⟩
    · simpa using nonempty
    · rw [← sign]
      simp [Spelling.text, Spelling.mantissa, Spelling.powerText, Spelling.pointed, joined]
    · rw [Spelling.value_eq _ rfl]
      cases negative <;> simp
  | cons c fraction =>
    refine ⟨⟨if negative then some .minus else none, integer, some (c :: fraction), none, hi, hf,
      ?_⟩, rfl, ?_, ?_⟩
    · simp
    · rw [← sign]
      simp [Spelling.text, Spelling.mantissa, Spelling.powerText, Spelling.pointed, joined]
    · rw [Spelling.value_eq _ rfl]
      cases negative <;> simp

/-- A canonical text is a spelling of its value. -/
theorem Canonical.spelling {t : Text} (h : Canonical t) :
    ∃ s : Spelling, s.Plain ∧ s.text = t ∧ s.value = textValue t := by
  obtain ⟨negative, i, f, parts, _, rfl⟩ := h
  rw [textValue_signed negative parts.integerDigits parts.trimmed.1]
  exact spelling_joined negative parts.integerDigits parts.fractionDigits parts.trimmed.1

theorem Spelling.text_ne_nan (s : Spelling) : s.text ≠ nanValue := by
  intro eq
  have valid := s.valid
  rw [eq] at valid
  revert valid
  decide

theorem Canonical.ne_nan {t : Text} (h : Canonical t) : t ≠ nanValue := by
  obtain ⟨s, _, rfl, _⟩ := h.spelling
  exact s.text_ne_nan

namespace Spelling

variable {s : Spelling}

theorem canonicalExpanded_plain (plain : s.Plain) :
    Canonical (canonicalExpanded s.text) ∧ textValue (canonicalExpanded s.text) = s.value := by
  have none : s.powerText = [] := by rw [powerText, plain]; rfl
  have body : dropSign s.text = s.mantissa := by
    have whole := @dropSign_text s.sign _ s.body_not_sign
    rw [← text, none, List.append_nil] at whole
    exact whole
  have parts := canonicalParts_trimmed s.integerDigits s.fractionDigits
  have value := decimal_trimmed s.integer (s.fraction.getD [])
  generalize hi : trimmedInteger s.integer = integer at parts value
  generalize hf : dropTrailingZeros (s.fraction.getD []) = fraction at parts value
  have whole : canonicalExpanded s.text = signed (decide (s.sign = some .minus) &&
      joined integer fraction != [ch '0']) (joined integer fraction) := by
    unfold canonicalExpanded
    simp only [s.text_negative, body, s.beforePoint_mantissa, s.afterPoint_mantissa]
    rw [← hi, ← hf]
    rfl
  have signs := @textValue_signed integer fraction (decide (s.sign = some .minus) &&
    joined integer fraction != [ch '0']) parts.integerDigits parts.trimmed.1
  rw [whole]
  refine ⟨⟨_, integer, fraction, parts, ?_, rfl⟩, ?_⟩
  · intro both
    simp only [Bool.and_eq_true, bne_iff_ne] at both
    exact both.2
  · rw [signs, s.value_eq rfl, plain, value]
    by_cases zero : joined integer fraction = [ch '0']
    · have zero := parts.eq_zero.mp zero
      rw [← value, zero]
      simp
    · simp [zero]

/-- The canonical text of a spelling denotes what it spells, or is NaN. -/
theorem canonicalText_spelling (s : Spelling) : canonicalText s.text = nanValue ∨
    (Canonical (canonicalText s.text) ∧ textValue (canonicalText s.text) = s.value) := by
  unfold canonicalText
  rw [s.valid]
  simp only [Bool.not_true, Bool.false_eq_true, if_false, beq_iff_eq]
  rcases s.expandExponent_spells with nan | ⟨p, plain, text, value⟩
  · exact Or.inl (by rw [if_pos nan])
  · rw [← text, if_neg p.text_ne_nan, ← value]
    exact Or.inr (canonicalExpanded_plain plain)

/-- Without a power of ten it is never NaN. -/
theorem canonicalText_plain (plain : s.Plain) :
    Canonical (canonicalText s.text) ∧ textValue (canonicalText s.text) = s.value := by
  have whole : canonicalText s.text = canonicalExpanded s.text := by
    unfold canonicalText
    rw [s.valid, expandExponent_plain plain]
    simp [s.text_ne_nan]
  rw [whole]
  exact canonicalExpanded_plain plain

end Spelling

theorem Canonical.canonicalText {t : Text} (h : Canonical t) : canonicalText t = t := by
  obtain ⟨s, plain, rfl, value⟩ := h.spelling
  have whole := Spelling.canonicalText_plain plain
  exact whole.1.unique h (whole.2.trans value)

/-- Whatever text comes in, what is stored is NaN or canonical. -/
theorem canonicalText_canonical (t : Text) :
    canonicalText t = nanValue ∨ Canonical (Dross.canonicalText t) := by
  by_cases valid : isValidNumber t = true
  · obtain ⟨s, rfl⟩ := (isValidNumber_iff t).mp valid
    exact s.canonicalText_spelling.imp id And.left
  · left
    unfold Dross.canonicalText
    simp [valid]

/-- Digits with a point in them, as the four operations leave their results. -/
theorem writes_joined {integer fraction : Text} (hi : AllDigits integer)
    (hf : AllDigits fraction) (nonempty : integer ≠ []) :
    Writes (canonicalText (joined integer fraction)) (decimal integer fraction) := by
  have parts := canonicalParts_trimmed hi hf
  have value := decimal_trimmed integer fraction
  refine ⟨_, _, parts, ?_, value⟩
  obtain ⟨s, plain, text, spelled⟩ := spelling_joined false hi hf nonempty
  have whole := Spelling.canonicalText_plain plain
  have written := @Writes.canonical _ _ ⟨_, _, parts, rfl, value⟩
  rw [text, spelled] at whole
  refine whole.1.unique written.1 (whole.2.trans (Eq.trans ?_ written.2.symm))
  simp

theorem writes_combined {integer fraction : Text} (hi : AllDigits integer)
    (hf : AllDigits fraction) (nonempty : integer ≠ []) :
    Writes (canonicalText (combined integer fraction)) (decimal integer fraction) := by
  have whole := writes_joined hi hf.dropTrailingZeros nonempty
  obtain ⟨count, eq⟩ := dropTrailingZeros_append fraction
  rw [show decimal integer fraction = decimal integer (dropTrailingZeros fraction) by
    conv_lhs => rw [eq, decimal_zeros]]
  exact whole

end Dross
