import Dross.Type.CanonicalText
import Mathlib.Algebra.GroupWithZero.Basic

/-!
# Spellings of a number

The texts `number` takes: an optional sign, digits with at most one point, and
an optional power of ten. Their canonical text denotes what they spell, or is
NaN where the power asks for more digits than it may.
-/

namespace Dross

inductive Sign where
  | plus
  | minus
  deriving DecidableEq, Repr

def Sign.text : Option Sign → Text
  | none => []
  | some .plus => [ch '+']
  | some .minus => [ch '-']

structure Power where
  mark : UInt8
  sign : Option Sign
  digits : Text
  isMark : isExponentMark mark = true
  allDigits : AllDigits digits
  nonempty : digits ≠ []

def Power.text (p : Power) : Text := p.mark :: (Sign.text p.sign ++ p.digits)

def Power.shift (p : Power) : ℤ :=
  if p.sign = some .minus then -(natural p.digits : ℤ) else natural p.digits

structure Spelling where
  sign : Option Sign
  integer : Text
  fraction : Option Text
  power : Option Power
  integerDigits : AllDigits integer
  fractionDigits : AllDigits (fraction.getD [])
  nonempty : integer ++ fraction.getD [] ≠ []

namespace Spelling

def pointed : Option Text → Text
  | none => []
  | some fraction => ch '.' :: fraction

def mantissa (s : Spelling) : Text := s.integer ++ pointed s.fraction

def powerText (s : Spelling) : Text := (s.power.map Power.text).getD []

def text (s : Spelling) : Text := Sign.text s.sign ++ (s.mantissa ++ s.powerText)

/-- The rational a spelling denotes. -/
def value (s : Spelling) : ℚ :=
  (if s.sign = some .minus then -1 else 1) * decimal s.integer (s.fraction.getD []) *
    10 ^ ((s.power.map Power.shift).getD 0)

end Spelling

theorem digit_not_sign {c : UInt8} (h : isDigit c = true) : isSign c = false := by
  have minus := isDigit_ne h (show isDigit (ch '-') = false by decide)
  have plus := isDigit_ne h (show isDigit (ch '+') = false by decide)
  simp [isSign, minus, plus]

theorem digit_not_mark {c : UInt8} (h : isDigit c = true) : isExponentMark c = false := by
  have lower := isDigit_ne h (show isDigit (ch 'e') = false by decide)
  have upper := isDigit_ne h (show isDigit (ch 'E') = false by decide)
  simp [isExponentMark, lower, upper]

theorem dropSign_text {sign : Option Sign} {t : Text}
    (h : ∀ c, t.head? = some c → isSign c = false) : dropSign (Sign.text sign ++ t) = t := by
  cases sign with
  | none =>
    cases t with
    | nil => rfl
    | cons c t => simp [Sign.text, dropSign, h c rfl]
  | some sign => cases sign <;> rfl

theorem dropSign_split (t : Text) : ∃ sign, t = Sign.text sign ++ dropSign t := by
  cases t with
  | nil => exact ⟨none, rfl⟩
  | cons c t =>
    by_cases minus : c = ch '-'
    · exact ⟨some .minus, by simp [minus, dropSign, isSign, Sign.text]⟩
    by_cases plus : c = ch '+'
    · exact ⟨some .plus, by simp [plus, dropSign, isSign, Sign.text]⟩
    · exact ⟨none, by simp [minus, plus, dropSign, isSign, Sign.text]⟩

theorem digits_not_sign {t : Text} (h : AllDigits t) :
    ∀ c, t.head? = some c → isSign c = false :=
  fun _ first => digit_not_sign (head_isDigit h first)

/-! ## What is accepted -/

theorem scanMantissa_digits {t : Text} (h : AllDigits t) (hasDot : Bool) (rest : Text) :
    scanMantissa hasDot (t ++ rest) = scanMantissa hasDot rest := by
  induction t with
  | nil => rfl
  | cons c t ih =>
    rw [AllDigits.cons] at h
    have point := isDigit_ne h.1 (show isDigit (ch '.') = false by decide)
    simp [scanMantissa, point, h.1, ih h.2]

theorem scanMantissa_some {t : Text} {hasDot found : Bool}
    (h : scanMantissa hasDot t = some found) :
    (AllDigits t ∧ found = hasDot) ∨ (hasDot = false ∧ found = true ∧ ∃ integer fraction,
      AllDigits integer ∧ AllDigits fraction ∧ t = integer ++ ch '.' :: fraction) := by
  induction t generalizing hasDot with
  | nil =>
    simp only [scanMantissa, Option.some.injEq] at h
    exact Or.inl ⟨AllDigits.nil, h.symm⟩
  | cons c t ih =>
    simp only [scanMantissa] at h
    by_cases point : c = ch '.'
    · subst point
      simp only [beq_self_eq_true, if_true] at h
      cases hasDot with
      | true => cases h
      | false =>
        rcases ih h with ⟨digits, rfl⟩ | ⟨bad, _⟩
        · exact Or.inr ⟨rfl, rfl, [], t, AllDigits.nil, digits, rfl⟩
        · cases bad
    · rw [if_neg (by simpa using point)] at h
      by_cases digit : isDigit c = true
      · rw [if_pos digit] at h
        rcases ih h with ⟨digits, rfl⟩ | ⟨rfl, rfl, i, f, hi, hf, rfl⟩
        · exact Or.inl ⟨AllDigits.cons.mpr ⟨digit, digits⟩, rfl⟩
        · exact Or.inr ⟨rfl, rfl, c :: i, f, AllDigits.cons.mpr ⟨digit, hi⟩, hf, rfl⟩
      · rw [if_neg digit] at h
        cases h

namespace Spelling

variable (s : Spelling)

theorem mantissa_nonempty : s.mantissa ≠ [] := by
  intro empty
  obtain ⟨integer, fraction⟩ := List.append_eq_nil_iff.mp empty
  apply s.nonempty
  rw [integer, List.nil_append]
  cases hf : s.fraction with
  | none => rfl
  | some f =>
    rw [hf] at fraction
    cases fraction

theorem mem_mantissa {c : UInt8} (h : c ∈ s.mantissa) : isDigit c = true ∨ c = ch '.' := by
  rcases List.mem_append.mp h with h | h
  · exact Or.inl (s.integerDigits c h)
  · have digits := s.fractionDigits
    cases hf : s.fraction with
    | none =>
      rw [hf] at h
      cases h
    | some f =>
      rw [hf] at h digits
      rcases List.mem_cons.mp h with rfl | h
      · exact Or.inr rfl
      · exact Or.inl (digits c h)

theorem mantissa_not_mark : ∀ c ∈ s.mantissa, (! isExponentMark c) = true := by
  intro c mem
  rcases s.mem_mantissa mem with digit | rfl
  · rw [digit_not_mark digit]
    rfl
  · decide

theorem body_not_sign : ∀ c, (s.mantissa ++ s.powerText).head? = some c → isSign c = false := by
  intro c first
  rw [List.head?_append_of_ne_nil _ s.mantissa_nonempty] at first
  rcases s.mem_mantissa (List.mem_of_head? first) with digit | rfl
  · exact digit_not_sign digit
  · decide

theorem powerText_stops : ∀ c, s.powerText.head? = some c → (! isExponentMark c) = false := by
  intro c first
  unfold powerText at first
  cases hp : s.power with
  | none => simp [hp] at first
  | some p =>
    simp only [hp, Option.map_some, Option.getD_some, Power.text, List.head?_cons,
      Option.some.injEq] at first
    rw [← first, p.isMark]
    rfl

theorem scan_mantissa : scanMantissa false s.mantissa = some s.fraction.isSome := by
  unfold mantissa
  rw [scanMantissa_digits s.integerDigits]
  have digits := s.fractionDigits
  cases hf : s.fraction with
  | none => rfl
  | some f =>
    rw [hf] at digits
    have scan := scanMantissa_digits digits true []
    rw [List.append_nil] at scan
    simpa [pointed, scanMantissa] using scan

theorem valid : isValidNumber s.text = true := by
  have body : dropSign s.text = s.mantissa ++ s.powerText := dropSign_text s.body_not_sign
  have mantissa := Span.takeWhile_stop s.mantissa_not_mark s.powerText_stops
  have power := Span.dropWhile_stop s.mantissa_not_mark s.powerText_stops
  have nonempty : (s.mantissa ++ s.powerText).isEmpty = false := by
    simp [s.mantissa_nonempty]
  have some' : s.mantissa.isEmpty = false := by
    simp [s.mantissa_nonempty]
  have long : s.fraction.isSome = true → 1 < s.mantissa.length := by
    intro point
    have := List.length_pos_iff.mpr s.nonempty
    obtain ⟨f, hf⟩ := Option.isSome_iff_exists.mp point
    simp only [Spelling.mantissa, hf, pointed, Option.getD_some, List.length_append,
      List.length_cons] at this ⊢
    omega
  unfold isValidNumber
  simp only [body, mantissa, power, nonempty, some', s.scan_mantissa, Bool.false_eq_true,
    if_false, Bool.and_false]
  rw [if_neg]
  · cases hp : s.power with
    | none => simp [powerText, hp]
    | some p =>
      have digits : dropSign (Sign.text p.sign ++ p.digits) = p.digits :=
        dropSign_text (digits_not_sign p.allDigits)
      have all : p.digits.all isDigit = true := List.all_eq_true.mpr p.allDigits
      simp [powerText, hp, Power.text, digits, all, p.nonempty]
  · intro bad
    simp only [Bool.and_eq_true, decide_eq_true_eq] at bad
    have := long bad.1.1
    omega

end Spelling

/-- A mantissa that is scanned to its end is digits, with a point among them or not, and is more
than the point alone. -/
theorem mantissa_parts {mantissa : Text} {hasDot : Bool}
    (scan : scanMantissa false mantissa = some hasDot) (nonempty : mantissa ≠ [])
    (dots : (hasDot && (mantissa.head? == some (ch '.') || mantissa.getLast? == some (ch '.')) &&
      decide (mantissa.length ≤ 1)) = false) :
    ∃ integer fraction, AllDigits integer ∧ AllDigits (Option.getD fraction []) ∧
      mantissa = integer ++ Spelling.pointed fraction ∧ integer ++ fraction.getD [] ≠ [] := by
  rcases scanMantissa_some scan with ⟨digits, _⟩ | ⟨_, rfl, i, f, hi, hf, eq⟩
  · exact ⟨mantissa, none, digits, AllDigits.nil, by simp [Spelling.pointed], by simpa using nonempty⟩
  · refine ⟨i, some f, hi, hf, eq, ?_⟩
    intro empty
    obtain ⟨rfl, empty⟩ := List.append_eq_nil_iff.mp empty
    have empty : f = [] := empty
    subst eq empty
    cases dots

/-- What is accepted after the mantissa is a power. -/
theorem power_of_mark {mark : UInt8} {rest : Text} (isMark : isExponentMark mark = true)
    (digits : (! (dropSign rest).isEmpty && (dropSign rest).all isDigit) = true) :
    ∃ power : Power, power.text = mark :: rest := by
  simp only [Bool.and_eq_true, Bool.not_eq_true', List.isEmpty_eq_false_iff,
    List.all_eq_true] at digits
  obtain ⟨sign, split⟩ := dropSign_split rest
  refine ⟨⟨mark, sign, dropSign rest, isMark, digits.2, digits.1⟩, ?_⟩
  rw [Power.text, ← split]

theorem spelling_of_valid {t : Text} (valid : isValidNumber t = true) :
    ∃ s : Spelling, s.text = t := by
  obtain ⟨sign, split⟩ := dropSign_split t
  have parts := (dropSign t).takeWhile_append_dropWhile (p := fun c => ! isExponentMark c)
  have stop := fun mark => @Span.dropWhile_head _ (fun c => ! isExponentMark c) (dropSign t) mark
  unfold isValidNumber at valid
  simp only at valid
  generalize (dropSign t).takeWhile _ = mantissa at parts valid
  generalize (dropSign t).dropWhile _ = back at parts stop valid
  rw [← parts] at split valid
  split at valid
  · cases valid
  rename_i body
  split at valid
  · cases valid
  rename_i front
  cases scan : scanMantissa false mantissa with
  | none =>
    rw [scan] at valid
    cases valid
  | some hasDot =>
    simp only [scan] at valid
    split at valid
    · cases valid
    rename_i dots
    have nonempty : mantissa ≠ [] := by
      rintro rfl
      have none : back = [] := by simpa using front
      exact body (by rw [none]; rfl)
    obtain ⟨integer, fraction, hi, hf, rfl, some'⟩ :=
      mantissa_parts scan nonempty (by simpa using dots)
    cases back with
    | nil => exact ⟨⟨sign, integer, fraction, none, hi, hf, some'⟩, split.symm⟩
    | cons mark rest =>
      obtain ⟨power, text⟩ := @power_of_mark mark rest (by simpa using stop mark rfl) valid
      refine ⟨⟨sign, integer, fraction, some power, hi, hf, some'⟩, ?_⟩
      rw [split, ← text]
      rfl

/-- The texts accepted are the spellings. -/
theorem isValidNumber_iff (t : Text) :
    isValidNumber t = true ↔ ∃ s : Spelling, s.text = t := by
  constructor
  · exact spelling_of_valid
  · rintro ⟨s, rfl⟩
    exact s.valid

end Dross
