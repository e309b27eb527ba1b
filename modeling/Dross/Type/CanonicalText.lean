import Dross.Library.Span
import Dross.Type.NumberText

/-!
# Canonical text

What number text is for: a sign, integer digits and a fraction, with a rational
value. A text is canonical when it has no digit to lose, and then its value
decides it.
-/

namespace Dross

theorem isDigit_ne {c d : UInt8} (h : isDigit c = true) (hd : isDigit d = false) : c ≠ d := by
  rintro rfl
  rw [h] at hd
  cases hd

/-! ## Zeros that say nothing -/

theorem natural_dropZeros (t : Text) : natural (dropZeros t) = natural t := by
  induction t with
  | nil => rfl
  | cons c t ih =>
    by_cases zero : c = ch '0'
    · rw [natural_cons, zero, dropZeros, List.dropWhile_cons_of_pos (by simp)]
      change natural (dropZeros t) = 0 * _ + _
      rw [ih]
      omega
    · rw [dropZeros, List.dropWhile_cons_of_neg (by simpa using zero)]

theorem AllDigits.dropZeros {t : Text} (h : AllDigits t) : AllDigits (dropZeros t) :=
  h.of_subset (fun _ mem => (List.dropWhile_sublist _).mem mem)

theorem dropTrailingZeros_append (t : Text) :
    ∃ count, t = dropTrailingZeros t ++ List.replicate count (ch '0') := by
  obtain ⟨r, eq, all⟩ := Span.rdropWhile_append (p := fun c => c == ch '0') t
  refine ⟨r.length, ?_⟩
  rw [← List.eq_replicate_iff.mpr ⟨rfl, fun c mem => by simpa using all c mem⟩]
  exact eq

theorem AllDigits.dropTrailingZeros {t : Text} (h : AllDigits t) :
    AllDigits (dropTrailingZeros t) :=
  h.of_subset (fun _ mem => (List.rdropWhile_prefix _ t).mem mem)

theorem decimal_zeros (integer fraction : Text) (count : Nat) :
    decimal integer (fraction ++ List.replicate count (ch '0')) = decimal integer fraction := by
  have power : (10 : ℚ) ^ fraction.length ≠ 0 := by positivity
  have powers : (10 : ℚ) ^ count ≠ 0 := by positivity
  unfold decimal
  rw [← List.append_assoc, natural_append, natural_zeros, List.length_append, List.length_replicate]
  push_cast
  field_simp
  ring

theorem decimal_integer {integer other : Text} (same : natural integer = natural other)
    (fraction : Text) : decimal integer fraction = decimal other fraction := by
  unfold decimal
  rw [natural_append, natural_append, same]

theorem decimal_eq (integer fraction : Text) :
    decimal integer fraction = natural integer + natural fraction / 10 ^ fraction.length := by
  have power : (10 : ℚ) ^ fraction.length ≠ 0 := by positivity
  unfold decimal
  rw [natural_append]
  push_cast
  field_simp

theorem decimal_nonneg (integer fraction : Text) : 0 ≤ decimal integer fraction := by
  unfold decimal
  positivity

/-! ## An integer part and a fraction -/

/-- The parts of a canonical text, which is their `joined` with or without a sign. -/
structure CanonicalParts (integer fraction : Text) : Prop where
  integerDigits : AllDigits integer
  fractionDigits : AllDigits fraction
  trimmed : Trimmed integer
  ends : fraction.getLast? ≠ some (ch '0')

theorem CanonicalParts.zero : CanonicalParts [ch '0'] [] :=
  ⟨by rw [AllDigits.cons]; exact ⟨by decide, AllDigits.nil⟩, AllDigits.nil,
    ⟨by simp, fun _ => rfl⟩, by simp⟩

/-- The integer part `canonical_text` leaves of some digits. -/
def trimmedInteger (integer : Text) : Text :=
  if (dropZeros integer).isEmpty then [ch '0'] else dropZeros integer

theorem canonicalParts_trimmed {integer fraction : Text} (hi : AllDigits integer)
    (hf : AllDigits fraction) :
    CanonicalParts (trimmedInteger integer) (dropTrailingZeros fraction) := by
  refine ⟨?_, hf.dropTrailingZeros, ?_, ?_⟩
  · unfold trimmedInteger
    split
    · exact CanonicalParts.zero.integerDigits
    · exact hi.dropZeros
  · unfold trimmedInteger
    split
    · exact CanonicalParts.zero.trimmed
    · rename_i nonempty
      refine ⟨by simpa using nonempty, ?_⟩
      intro first
      have := Span.dropWhile_head first
      simp at this
  · intro last
    have := Span.rdropWhile_getLast last
    simp at this

theorem natural_trimmedInteger (integer : Text) :
    natural (trimmedInteger integer) = natural integer := by
  have same := natural_dropZeros integer
  unfold trimmedInteger
  split
  · rename_i empty
    rw [List.isEmpty_iff.mp empty] at same
    rw [← same]
    rfl
  · exact same

theorem decimal_trimmed (integer fraction : Text) :
    decimal (trimmedInteger integer) (dropTrailingZeros fraction) = decimal integer fraction := by
  obtain ⟨count, eq⟩ := dropTrailingZeros_append fraction
  rw [decimal_integer (natural_trimmedInteger integer)]
  conv_rhs => rw [eq, decimal_zeros]

theorem not_point {t : Text} (h : AllDigits t) : ∀ c ∈ t, (! c == ch '.') = true := by
  intro c mem
  simpa using isDigit_ne (h c mem) (by decide)

theorem beforePoint_append {integer rest : Text} (hi : AllDigits integer)
    (hr : ∀ c, rest.head? = some c → c = ch '.') : beforePoint (integer ++ rest) = integer :=
  Span.takeWhile_stop (not_point hi) (fun c hc => by simp [hr c hc])

theorem afterPoint_append {integer rest : Text} (hi : AllDigits integer)
    (hr : ∀ c, rest.head? = some c → c = ch '.') :
    afterPoint (integer ++ rest) = rest.drop 1 := by
  unfold afterPoint
  rw [Span.dropWhile_stop (not_point hi) (fun c hc => by simp [hr c hc])]

theorem beforePoint_joined {integer fraction : Text} (hi : AllDigits integer) :
    beforePoint (joined integer fraction) = integer := by
  unfold joined
  split
  · have split := @beforePoint_append integer [] hi (by simp)
    rwa [List.append_nil] at split
  · exact beforePoint_append hi (by simp [eq_comm])

theorem afterPoint_joined {integer fraction : Text} (hi : AllDigits integer) :
    afterPoint (joined integer fraction) = fraction := by
  unfold joined
  split
  · rename_i empty
    have split := @afterPoint_append integer [] hi (by simp)
    rw [List.append_nil] at split
    rw [split, List.isEmpty_iff.mp empty]
    rfl
  · rw [afterPoint_append hi (by simp [eq_comm])]
    rfl

theorem joined_head {integer fraction : Text} (nonempty : integer ≠ []) :
    (joined integer fraction).head? = integer.head? := by
  unfold joined
  split
  · rfl
  · rw [List.head?_append_of_ne_nil _ nonempty]

theorem head_isDigit {t : Text} {c : UInt8} (h : AllDigits t) (first : t.head? = some c) :
    isDigit c = true :=
  h c (List.mem_of_head? first)

theorem numberParts_joined {integer fraction : Text} (hi : AllDigits integer)
    (nonempty : integer ≠ []) :
    numberParts (joined integer fraction) = ⟨false, integer, fraction⟩ := by
  have positive : ((joined integer fraction).head? == some (ch '-')) = false := by
    rw [joined_head nonempty, beq_eq_false_iff_ne]
    intro first
    have := head_isDigit hi first
    revert this
    decide
  unfold numberParts
  rw [positive]
  simp only [Bool.false_eq_true, if_false]
  rw [beforePoint_joined hi, afterPoint_joined hi]

theorem numberParts_minus {integer fraction : Text} (hi : AllDigits integer) :
    numberParts (ch '-' :: joined integer fraction) = ⟨true, integer, fraction⟩ := by
  unfold numberParts
  simp only [List.head?_cons, beq_self_eq_true, if_true, List.drop_succ_cons, List.drop_zero]
  rw [beforePoint_joined hi, afterPoint_joined hi]

/-! ## Values -/

/-- The rational a text denotes, by the parts it is made of. -/
def textValue (t : Text) : ℚ :=
  let parts := numberParts t
  (if parts.negative then -1 else 1) * decimal parts.integer parts.fractional

/-- The text numbers are stored as: no digit to lose, and no sign on zero. -/
def Canonical (t : Text) : Prop :=
  ∃ negative integer fraction, CanonicalParts integer fraction ∧
    (negative = true → joined integer fraction ≠ [ch '0']) ∧
    t = signed negative (joined integer fraction)

theorem textValue_signed {integer fraction : Text} (negative : Bool) (hi : AllDigits integer)
    (nonempty : integer ≠ []) :
    textValue (signed negative (joined integer fraction)) =
      (if negative then -1 else 1) * decimal integer fraction := by
  unfold textValue signed
  cases negative with
  | false =>
    simp only [Bool.false_eq_true, if_false]
    rw [numberParts_joined hi nonempty]
    simp
  | true =>
    simp only [if_true]
    rw [numberParts_minus hi]
    simp

/-- Canonical parts of one value are the same parts. -/
theorem CanonicalParts.unique {i f j g : Text} (h : CanonicalParts i f) (k : CanonicalParts j g)
    (same : decimal i f = decimal j g) : i = j ∧ f = g := by
  -- the longer fraction would end in the zero it is scaled by
  have shorter : ∀ {i f j g : Text}, CanonicalParts i f → CanonicalParts j g →
      decimal i f = decimal j g → g.length ≤ f.length := by
    intro i f j g h k same
    by_contra longer
    have power : (10 : ℚ) ^ f.length ≠ 0 := by positivity
    have powers : (10 : ℚ) ^ g.length ≠ 0 := by positivity
    obtain ⟨more, length⟩ := Nat.exists_eq_add_of_lt (Nat.lt_of_not_le longer)
    have scaled : natural (j ++ g) = natural (i ++ f) * 10 ^ (more + 1) := by
      unfold decimal at same
      rw [div_eq_div_iff power powers, length, Nat.add_assoc, pow_add] at same
      have cancel := mul_right_cancel₀ power (by rw [← same]; ring :
        (natural (j ++ g) : ℚ) * 10 ^ f.length =
          (natural (i ++ f) * 10 ^ (more + 1)) * 10 ^ f.length)
      exact_mod_cast cancel
    obtain ⟨front, last, rfl⟩ : ∃ front last, g = front ++ [last] := by
      refine ⟨g.dropLast, g.getLast ?_, (List.dropLast_append_getLast _).symm⟩
      rintro rfl
      simp at length
    rw [← List.append_assoc, natural_concat, pow_succ, ← Nat.mul_assoc] at scaled
    have hl := (AllDigits.append.mp k.fractionDigits).2 last List.mem_cons_self
    have zero : digit last = 0 := by
      have small := digit_lt hl
      omega
    exact k.ends (by simp [(digit_eq_zero hl).mp zero])
  have length : f.length = g.length :=
    Nat.le_antisymm (shorter k h same.symm) (shorter h k same)
  have power : (10 : ℚ) ^ g.length ≠ 0 := by positivity
  have naturals : natural (i ++ f) = natural (j ++ g) := by
    unfold decimal at same
    rw [length, div_left_inj' power] at same
    exact_mod_cast same
  have smallF := natural_lt h.fractionDigits
  have smallG := natural_lt k.fractionDigits
  rw [natural_append, natural_append, length] at naturals
  rw [length] at smallF
  have integers : natural i = natural j := by
    have shifted : ∀ n r, r < 10 ^ g.length → (n * 10 ^ g.length + r) / 10 ^ g.length = n := by
      intro n r small
      rw [Nat.mul_comm, Nat.mul_add_div (by positivity), Nat.div_eq_of_lt small, Nat.add_zero]
    rw [← shifted (natural i) (natural f) smallF, naturals, shifted _ _ smallG]
  rw [integers] at naturals
  exact ⟨natural_trimmed_injective h.integerDigits k.integerDigits h.trimmed k.trimmed integers,
    natural_injective h.fractionDigits k.fractionDigits length (by omega)⟩

/-! ## Counts -/

theorem ch_digitChar {d : Nat} (small : d < 10) : ch (Nat.digitChar d) = digitChar d := by
  have all : ∀ d < 10, ch (Nat.digitChar d) = digitChar d := by decide
  exact all d small

theorem countText_step {n : Nat} (large : ¬ n < 10) :
    countText n = countText (n / 10) ++ [digitChar (n % 10)] := by
  unfold countText
  rw [Nat.toDigits_eq_if (by omega), if_neg large, List.map_append, List.map_singleton,
    ch_digitChar (Nat.mod_lt _ (by omega))]

theorem countText_small {n : Nat} (small : n < 10) : countText n = [digitChar n] := by
  unfold countText
  rw [Nat.toDigits_of_lt_base small, List.map_singleton, ch_digitChar small]

theorem countText_digits (n : Nat) : AllDigits (countText n) ∧ natural (countText n) = n := by
  induction n using Nat.strongRecOn with
  | ind n ih =>
    by_cases small : n < 10
    · rw [countText_small small, natural_singleton, digit_digitChar small]
      exact ⟨AllDigits.cons.mpr ⟨isDigit_digitChar small, AllDigits.nil⟩, rfl⟩
    · obtain ⟨digits, value⟩ := ih (n / 10) (by omega)
      have last : n % 10 < 10 := Nat.mod_lt _ (by omega)
      rw [countText_step small, natural_concat, value, digit_digitChar last]
      refine ⟨AllDigits.append.mpr ⟨digits, ?_⟩, by omega⟩
      exact AllDigits.cons.mpr ⟨isDigit_digitChar last, AllDigits.nil⟩

theorem countText_length {n width : Nat} (positive : 0 < width) (fits : n < 10 ^ width) :
    (countText n).length ≤ width := by
  rw [countText, List.length_map]
  exact (Nat.length_toDigits_le_iff (by omega) positive).mpr fits

end Dross
