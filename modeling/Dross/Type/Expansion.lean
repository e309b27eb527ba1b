import Dross.Type.Spelling

/-!
# Exponents written out

What `expand_exponent` makes of a spelling: a spelling of the same value
without a power of ten, or NaN.
-/

namespace Dross

namespace Spelling

variable (s : Spelling)

def digits : Text := s.integer ++ s.fraction.getD []

theorem digits_all : AllDigits s.digits := AllDigits.append.mpr ⟨s.integerDigits, s.fractionDigits⟩

/-- Without a power the text is what the canonical form is made from. -/
def Plain : Prop := s.power = none

theorem filter_mantissa : s.mantissa.filter (fun c => ! c == ch '.') = s.digits := by
  have integer := List.filter_eq_self.mpr (not_point s.integerDigits)
  have fraction := List.filter_eq_self.mpr (not_point s.fractionDigits)
  unfold mantissa digits
  rw [List.filter_append, integer]
  cases hf : s.fraction with
  | none => rfl
  | some f =>
    rw [hf] at fraction
    have point : (! ch '.' == ch '.') = false := by decide
    simpa [pointed, point] using fraction

theorem pointed_head : ∀ c, (pointed s.fraction).head? = some c → c = ch '.' := by
  intro c first
  cases hf : s.fraction with
  | none => simp [hf, pointed] at first
  | some f => simpa [hf, pointed, eq_comm] using first

theorem beforePoint_mantissa : beforePoint s.mantissa = s.integer :=
  beforePoint_append s.integerDigits s.pointed_head

theorem afterPoint_mantissa : afterPoint s.mantissa = s.fraction.getD [] := by
  unfold mantissa
  rw [afterPoint_append s.integerDigits s.pointed_head]
  cases s.fraction <;> rfl

theorem sign_not_mark (sign : Option Sign) : ∀ c ∈ Sign.text sign, (! isExponentMark c) = true := by
  intro c mem
  rcases sign with _ | _ | _
  · cases mem
  · rw [List.mem_singleton.mp mem]
    decide
  · rw [List.mem_singleton.mp mem]
    decide

theorem text_not_mark : ∀ c ∈ Sign.text s.sign ++ s.mantissa, (! isExponentMark c) = true := by
  intro c mem
  rcases List.mem_append.mp mem with mem | mem
  · exact sign_not_mark s.sign c mem
  · exact s.mantissa_not_mark c mem

theorem text_front : s.text.takeWhile (fun c => ! isExponentMark c) =
    Sign.text s.sign ++ s.mantissa := by
  rw [text, ← List.append_assoc]
  exact Span.takeWhile_stop s.text_not_mark s.powerText_stops

theorem text_back : s.text.dropWhile (fun c => ! isExponentMark c) = s.powerText := by
  rw [text, ← List.append_assoc]
  exact Span.dropWhile_stop s.text_not_mark s.powerText_stops

/-- A text starts with a minus if its spelling has one. -/
theorem signText_head (sign : Option Sign) {t : Text}
    (h : ∀ c, t.head? = some c → isSign c = false) :
    ((Sign.text sign ++ t).head? == some (ch '-')) = decide (sign = some .minus) := by
  rcases sign with _ | _ | _
  · cases t with
    | nil => rfl
    | cons c t =>
      have sign := h c rfl
      simp only [isSign, Bool.or_eq_false_iff, beq_eq_false_iff_ne] at sign
      simpa [Sign.text] using sign.1
  · rfl
  · rfl

theorem text_negative : (s.text.head? == some (ch '-')) = decide (s.sign = some .minus) :=
  signText_head s.sign s.body_not_sign

/-- What is left of a spelling's value once the sign is gone. -/
theorem value_eq {magnitude : ℚ}
    (h : decimal s.integer (s.fraction.getD []) * 10 ^ ((s.power.map Power.shift).getD 0) =
      magnitude) : s.value = (if s.sign = some .minus then -1 else 1) * magnitude := by
  rw [value, mul_assoc, h]

end Spelling

theorem decimal_natural (integer fraction : Text) :
    decimal integer fraction = natural (integer ++ fraction) * 10 ^ (-(fraction.length : ℤ)) := by
  rw [decimal, zpow_neg, zpow_natCast, div_eq_mul_inv]

/-- The digits and the point that stand for a number of digits before it. -/
theorem placePoint_spells {digits : Text} (h : AllDigits digits) (nonempty : digits ≠ [])
    (integerDigits : ℤ) :
    ∃ integer fraction, AllDigits integer ∧ AllDigits (Option.getD fraction []) ∧
      integer ++ fraction.getD [] ≠ [] ∧
      placePoint digits integerDigits = integer ++ Spelling.pointed fraction ∧
      decimal integer (fraction.getD []) =
        natural digits * 10 ^ (integerDigits - (digits.length : ℤ)) := by
  unfold placePoint
  simp only
  split
  · rename_i small
    refine ⟨[ch '0'], some (List.replicate (-integerDigits).toNat (ch '0') ++ digits),
      CanonicalParts.zero.integerDigits, AllDigits.append.mpr ⟨AllDigits.replicate _, h⟩,
      by simp, by simp [Spelling.pointed], ?_⟩
    have zeros : natural ([ch '0'] ++ (List.replicate (-integerDigits).toNat (ch '0') ++ digits)) =
        natural digits := by
      rw [natural_append, natural_append, natural_zeros]
      change 0 * _ + (_ + _) = _
      omega
    rw [decimal_natural, Option.getD_some, zeros]
    congr 2
    simp only [List.length_append, List.length_replicate]
    omega
  split
  · rename_i large
    refine ⟨digits ++ List.replicate (integerDigits - digits.length).toNat (ch '0'), none,
      AllDigits.append.mpr ⟨h, AllDigits.replicate _⟩, AllDigits.nil, by simp [nonempty],
      by simp [Spelling.pointed], ?_⟩
    have exponent : (integerDigits - digits.length : ℤ) =
        ((integerDigits - digits.length).toNat : ℤ) := by omega
    rw [Option.getD_none, decimal_nil, natural_append, natural_zeros, Nat.add_zero,
      List.length_replicate, exponent, zpow_natCast, Int.toNat_natCast]
    push_cast
    rfl
  · rename_i positive short
    have split := List.take_append_drop integerDigits.toNat digits
    have parts := h
    rw [← split, AllDigits.append] at parts
    refine ⟨digits.take integerDigits.toNat, some (digits.drop integerDigits.toNat),
      parts.1, parts.2, by simp [split, nonempty], by simp [Spelling.pointed], ?_⟩
    rw [decimal_natural, Option.getD_some, split]
    congr 2
    rw [List.length_drop]
    omega

/-- Digits with no zero in front, and how many zeros there were. -/
theorem takeWhile_zeros_length (t : Text) :
    (t.takeWhile (fun c => c == ch '0')).length + (dropZeros t).length = t.length := by
  rw [dropZeros, ← List.length_append, List.takeWhile_append_dropWhile]

theorem natural_eq_zero {t : Text} (h : t.all (fun c => c == ch '0') = true) : natural t = 0 := by
  have zeros : t = List.replicate t.length (ch '0') :=
    List.eq_replicate_iff.mpr ⟨rfl, fun c mem => by simpa using List.all_eq_true.mp h c mem⟩
  rw [zeros, natural_zeros]

theorem dropZeros_nonempty {t : Text} (h : ¬ t.all (fun c => c == ch '0') = true) :
    dropZeros t ≠ [] := by
  intro empty
  exact h (List.all_eq_true.mpr (List.dropWhile_eq_nil_iff.mp empty))

theorem Spelling.expandExponent_plain {s : Spelling} (plain : s.Plain) :
    expandExponent s.text = s.text := by
  have back := s.text_back
  have none : s.powerText = [] := by rw [Spelling.powerText, plain]; rfl
  unfold expandExponent
  simp only [back, none, List.isEmpty_nil, if_true]

namespace Spelling

variable (s : Spelling)

/-- The power of ten a spelling ends with, none being the power zero. -/
def shift : ℤ := (s.power.map Power.shift).getD 0

/-- How many digits come before the point once it is moved, leading zeros aside. -/
def integerPlaces : ℤ :=
  s.integer.length - (s.digits.takeWhile (fun c => c == ch '0')).length + s.shift

/-- The digits there are once the point is moved, one before it at least. -/
def expandedLength : ℤ :=
  if s.integerPlaces ≤ 0 then 1 - s.integerPlaces + (dropZeros s.digits).length
  else max s.integerPlaces (dropZeros s.digits).length

/-- A power of ten that asks for too many digits. -/
def TooLong : Prop :=
  s.power ≠ none ∧ natural s.digits ≠ 0 ∧
    s.expandedLength > (max maxExpandedDigits s.digits.length : Nat)

/-- A power of ten as the source writes it out. -/
theorem expandExponent_power {power : Power} (hp : s.power = some power) :
    expandExponent s.text =
      if s.digits.all (fun c => c == ch '0') then [ch '0']
      else if (dropZeros power.digits).length > 9 then nanValue
      else if s.expandedLength > (max maxExpandedDigits s.digits.length : Nat) then nanValue
      else if s.sign = some .minus then
        ch '-' :: placePoint (dropZeros s.digits) s.integerPlaces
      else placePoint (dropZeros s.digits) s.integerPlaces := by
  have back : s.powerText = power.mark :: (Sign.text power.sign ++ power.digits) := by
    rw [powerText, hp]
    rfl
  have mantissa : dropSign (Sign.text s.sign ++ s.mantissa) = s.mantissa := by
    apply dropSign_text
    intro c first
    rcases s.mem_mantissa (List.mem_of_head? first) with digit | rfl
    · exact digit_not_sign digit
    · decide
  have shiftSign := signText_head power.sign (digits_not_sign power.allDigits)
  have shiftDigits := @dropSign_text power.sign power.digits (digits_not_sign power.allDigits)
  have shifted : (if power.sign = some .minus then -(natural (dropZeros power.digits) : ℤ)
      else natural (dropZeros power.digits)) = s.shift := by
    rw [natural_dropZeros, shift, hp]
    rfl
  have point := s.beforePoint_mantissa
  unfold beforePoint at point
  unfold expandExponent
  simp only [s.text_front, s.text_back, s.text_negative, back, mantissa, s.filter_mantissa,
    point, List.isEmpty_cons, Bool.false_eq_true, if_false, List.drop_succ_cons, List.drop_zero,
    shiftSign, shiftDigits, decide_eq_true_eq, shifted]
  rfl

/-- The digits with the point moved are a spelling of the same value. -/
theorem placed_spells (nonzero : ¬ s.digits.all (fun c => c == ch '0') = true) :
    ∃ p : Spelling, p.Plain ∧ p.value = s.value ∧
      p.text = if s.sign = some .minus then
        ch '-' :: placePoint (dropZeros s.digits) s.integerPlaces
      else placePoint (dropZeros s.digits) s.integerPlaces := by
  obtain ⟨integer, fraction, hi, hf, some', text, value⟩ := placePoint_spells
    s.digits_all.dropZeros (dropZeros_nonempty nonzero) s.integerPlaces
  refine ⟨⟨if s.sign = some .minus then some .minus else none, integer, fraction, none, hi, hf,
    some'⟩, rfl, ?_, ?_⟩
  · rw [s.value_eq rfl, Spelling.value_eq _ rfl]
    congr 1
    · split <;> simp
    · have lengths := takeWhile_zeros_length s.digits
      have length : s.digits.length = s.integer.length + (s.fraction.getD []).length :=
        List.length_append
      simp only [Option.map_none, Option.getD_none, zpow_zero, mul_one]
      rw [value, natural_dropZeros, decimal_natural, mul_assoc, ← zpow_add₀ (by norm_num)]
      congr 2
      unfold integerPlaces shift
      omega
  · rw [text]
    unfold Spelling.text
    split <;> simp [Spelling.mantissa, powerText, Sign.text]

/-- A zero with a power of ten is the text of zero. -/
theorem zero_spells (zeros : s.digits.all (fun c => c == ch '0') = true) :
    ∃ p : Spelling, p.Plain ∧ p.value = s.value ∧ p.text = [ch '0'] := by
  refine ⟨⟨none, [ch '0'], none, none, CanonicalParts.zero.integerDigits, AllDigits.nil,
    by simp⟩, rfl, ?_, rfl⟩
  have zero : decimal s.integer (s.fraction.getD []) = 0 := by
    have none := natural_eq_zero zeros
    rw [decimal, ← digits, none]
    simp
  rw [value, value, zero]
  have zero : natural [ch '0'] = 0 := by decide
  simp [decimal, zero]

/-- A power of ten written out: the same value, or NaN for too many digits. -/
theorem expandExponent_spells :
    expandExponent s.text = nanValue ∨ ∃ p : Spelling, p.Plain ∧
      p.text = expandExponent s.text ∧ p.value = s.value := by
  cases hp : s.power with
  | none => exact Or.inr ⟨s, hp, (expandExponent_plain hp).symm, rfl⟩
  | some power =>
    rw [s.expandExponent_power hp]
    split
    · rename_i zeros
      obtain ⟨p, plain, value, text⟩ := s.zero_spells zeros
      exact Or.inr ⟨p, plain, text, value⟩
    rename_i nonzero
    split
    · exact Or.inl rfl
    split
    · exact Or.inl rfl
    obtain ⟨p, plain, value, text⟩ := s.placed_spells nonzero
    exact Or.inr ⟨p, plain, text, value⟩

end Spelling

end Dross
