import Dross.Type.Canonicalization

/-!
# The one text of a value

When the canonical form of a text is NaN, and that otherwise two texts have one form just
when they denote one value.
-/

namespace Dross

theorem pow_le_natural {t : Text} (digits : AllDigits t) (nonempty : dropZeros t ≠ []) :
    10 ^ ((dropZeros t).length - 1) ≤ natural t := by
  obtain ⟨c, rest, split⟩ := List.exists_cons_of_ne_nil nonempty
  have first : digit c ≠ 0 := by
    intro zero
    have inside : isDigit c = true := digits.dropZeros c (by rw [split]; exact List.mem_cons_self)
    have other := @Span.dropWhile_head _ (fun c => c == ch '0') t c (by
      rw [← dropZeros, split]
      rfl)
    rw [(digit_eq_zero inside).mp zero] at other
    cases other
  have lower := @Numeral.pow_le_value 10 (digit c) (rest.map digit) first
  rw [List.length_map] at lower
  rw [← natural_dropZeros, split]
  exact lower

namespace Spelling

variable (s : Spelling)

theorem length_text : s.digits.length ≤ s.text.length := by
  have length : s.digits.length ≤ s.mantissa.length := by
    rw [← s.filter_mantissa]
    exact List.length_filter_le _ _
  rw [text, List.length_append, List.length_append]
  omega

/-- An exponent of more than nine digits asks for too many. -/
theorem expandedLength_long {power : Power} (hp : s.power = some power)
    (short : s.text.length < 5 * 10 ^ 8) (long : (dropZeros power.digits).length > 9) :
    s.expandedLength > (max maxExpandedDigits s.digits.length : Nat) := by
  have least := pow_le_natural power.allDigits (List.ne_nil_of_length_pos (by omega))
  have billion : 10 ^ 9 ≤ 10 ^ ((dropZeros power.digits).length - 1) :=
    Nat.pow_le_pow_right (by decide) (by omega)
  have far : (10 ^ 9 : ℤ) ≤ s.shift ∨ s.shift ≤ -10 ^ 9 := by
    rw [shift, hp, Option.map_some, Option.getD_some, Power.shift]
    split
    · right
      omega
    · left
      omega
  have digits := s.length_text
  have zeros := takeWhile_zeros_length s.digits
  have inside : s.digits.length = s.integer.length + (s.fraction.getD []).length :=
    List.length_append
  have limit : maxExpandedDigits = 4096 := rfl
  unfold expandedLength integerPlaces
  split <;> omega

theorem zeros_iff : s.digits.all (fun c => c == ch '0') = true ↔ natural s.digits = 0 := by
  constructor
  · exact natural_eq_zero
  · intro zero
    by_contra nonzero
    have least := pow_le_natural s.digits_all (dropZeros_nonempty nonzero)
    have one := Nat.one_le_pow ((dropZeros s.digits).length - 1) 10 (by decide)
    omega

theorem canonicalText_expanded {p : Spelling} (plain : p.Plain)
    (expanded : p.text = expandExponent s.text) (same : p.value = s.value) :
    Canonical (canonicalText s.text) ∧ textValue (canonicalText s.text) = s.value := by
  have whole : canonicalText s.text = canonicalExpanded p.text := by
    rw [canonicalText, s.valid, ← expanded]
    simp [p.text_ne_nan]
  rw [whole, ← same]
  exact canonicalExpanded_plain plain

/-- The canonical form is NaN for a power of ten that asks for too much, and denotes the
value of the spelling otherwise. -/
theorem canonicalText_form (short : s.text.length < 5 * 10 ^ 8) :
    (s.TooLong → canonicalText s.text = nanValue) ∧
      (¬ s.TooLong →
        Canonical (canonicalText s.text) ∧ textValue (canonicalText s.text) = s.value) := by
  cases hp : s.power with
  | none => exact ⟨fun tooLong => absurd hp tooLong.1, fun _ => canonicalText_plain hp⟩
  | some power =>
    have expanded := s.expandExponent_power hp
    by_cases zeros : s.digits.all (fun c => c == ch '0') = true
    · obtain ⟨p, plain, value, text⟩ := s.zero_spells zeros
      rw [if_pos zeros, ← text] at expanded
      exact ⟨fun tooLong => absurd (s.zeros_iff.mp zeros) tooLong.2.1,
        fun _ => s.canonicalText_expanded plain expanded.symm value⟩
    have tooLong_iff : s.TooLong ↔
        s.expandedLength > (max maxExpandedDigits s.digits.length : Nat) := by
      have nonzero : natural s.digits ≠ 0 := mt s.zeros_iff.mpr zeros
      simp [TooLong, hp, nonzero]
    have isNan : s.TooLong → expandExponent s.text = nanValue := by
      intro tooLong
      rw [expanded, if_neg zeros, if_pos (tooLong_iff.mp tooLong)]
      split
      · rfl
      · rfl
    refine ⟨?_, ?_⟩
    · intro tooLong
      rw [canonicalText, s.valid, isNan tooLong]
      simp
    · intro fits
      have few : ¬ (dropZeros power.digits).length > 9 := fun long =>
        fits (tooLong_iff.mpr (s.expandedLength_long hp short long))
      obtain ⟨p, plain, value, text⟩ := s.placed_spells zeros
      rw [if_neg zeros, if_neg few, if_neg (mt tooLong_iff.mpr fits), ← text] at expanded
      exact s.canonicalText_expanded plain expanded.symm value

end Spelling

/-- What a text denotes: none outside the grammar and where a power of ten asks for too many
digits. -/
def Denotes (str : Text) : Option ℚ → Prop
  | none => (∀ s : Spelling, s.text ≠ str) ∨ ∃ s : Spelling, s.text = str ∧ s.TooLong
  | some v => ∃ s : Spelling, s.text = str ∧ ¬ s.TooLong ∧ s.value = v

theorem exists_denotes (str : Text) : ∃ d, Denotes str d := by
  by_cases valid : ∃ s : Spelling, s.text = str
  · obtain ⟨s, text⟩ := valid
    by_cases tooLong : s.TooLong
    · exact ⟨none, Or.inr ⟨s, text, tooLong⟩⟩
    · exact ⟨some s.value, s, text, tooLong, rfl⟩
  · exact ⟨none, Or.inl (fun s text => valid ⟨s, text⟩)⟩

theorem Denotes.form {str : Text} (short : str.length < 5 * 10 ^ 8) {d : Option ℚ}
    (h : Denotes str d) :
    d.elim (canonicalText str = nanValue)
      (fun v => Canonical (canonicalText str) ∧ textValue (canonicalText str) = v) := by
  cases d with
  | none =>
    rcases h with outside | ⟨s, rfl, tooLong⟩
    · have invalid : isValidNumber str = false := by
        rw [← Bool.not_eq_true, isValidNumber_iff]
        rintro ⟨s, text⟩
        exact outside s text
      change canonicalText str = nanValue
      rw [canonicalText, invalid]
      rfl
    · exact (s.canonicalText_form short).1 tooLong
  | some v =>
    obtain ⟨s, rfl, fits, rfl⟩ := h
    exact (s.canonicalText_form short).2 fits

theorem denotes_iff {str : Text} (short : str.length < 5 * 10 ^ 8) {d : Option ℚ} :
    Denotes str d ↔ d.elim (canonicalText str = nanValue)
      (fun v => Canonical (canonicalText str) ∧ textValue (canonicalText str) = v) := by
  refine ⟨Denotes.form short, fun written => ?_⟩
  obtain ⟨e, h⟩ := exists_denotes str
  have known := h.form short
  cases d with
  | none =>
    cases e with
    | none => exact h
    | some v => exact absurd written known.1.ne_nan
  | some v =>
    cases e with
    | none => exact absurd known written.1.ne_nan
    | some w =>
      have same : v = w := written.2.symm.trans known.2
      rw [same]
      exact h

/-- The canonical form of a text is NaN, or the one way to write what it denotes. -/
theorem canonicalText_denotes (str : Text) (short : str.length < 5 * 10 ^ 8) :
    (canonicalText str = nanValue ↔ Denotes str none) ∧
      (∀ v, Denotes str (some v) ↔
        Canonical (canonicalText str) ∧ textValue (canonicalText str) = v) ∧
      canonicalText (canonicalText str) = canonicalText str ∧
      ∀ other : Text, other.length < 5 * 10 ^ 8 →
        (canonicalText str = canonicalText other ↔ ∃ d, Denotes str d ∧ Denotes other d) := by
  refine ⟨(@denotes_iff str short none).symm, fun v => @denotes_iff str short (some v), ?_, ?_⟩
  · rcases canonicalText_canonical str with nan | canonical
    · rw [nan]
      decide
    · exact canonical.canonicalText
  · intro other short'
    constructor
    · intro same
      obtain ⟨d, h⟩ := exists_denotes str
      refine ⟨d, h, (denotes_iff short').mpr ?_⟩
      rw [← same]
      exact h.form short
    · rintro ⟨d, h, h'⟩
      have form := h.form short
      have form' := h'.form short'
      cases d with
      | none => exact form.trans form'.symm
      | some v => exact form.1.unique form'.1 (form.2.trans form'.2.symm)

/-- Half, written in two ways. -/
theorem canonicalText_denotes_half :
    (canonicalText (".5".toList.map ch) = canonicalText ("+50.0e-2".toList.map ch) ↔
      ∃ d, Denotes (".5".toList.map ch) d ∧ Denotes ("+50.0e-2".toList.map ch) d) ∧
    (canonicalText ("1e5000".toList.map ch) = nanValue ↔ Denotes ("1e5000".toList.map ch) none) :=
  ⟨(canonicalText_denotes (".5".toList.map ch) (by decide)).2.2.2 ("+50.0e-2".toList.map ch)
      (by decide),
    (canonicalText_denotes ("1e5000".toList.map ch) (by decide)).1⟩

end Dross
