import Dross.Library.Numeral
import Mathlib.Algebra.Order.Field.Rat
import Mathlib.Tactic.FieldSimp
import Mathlib.Tactic.Positivity

/-!
# Digits as text

Number text is a string of bytes. A byte that is a digit has a value, a run of
digits has the natural number it writes, and an integer part with a fraction
has a rational one.
-/

namespace Dross

abbrev Text := List UInt8

/-- The byte of an ASCII character. -/
def ch (c : Char) : UInt8 := UInt8.ofNat c.toNat

/-- `c - '0'` -/
def digit (c : UInt8) : Nat := c.toNat - 48

/-- `'0' + d` -/
def digitChar (d : Nat) : UInt8 := UInt8.ofNat (48 + d)

def isDigit (c : UInt8) : Bool := ch '0' ≤ c && c ≤ ch '9'

def AllDigits (t : Text) : Prop := ∀ c ∈ t, isDigit c = true

instance (t : Text) : Decidable (AllDigits t) :=
  List.decidableBAll (fun c => isDigit c = true) t

/-- The natural number a run of digits writes. -/
def natural (t : Text) : Nat := Numeral.value 10 (t.map digit)

theorem isDigit_iff {c : UInt8} : isDigit c = true ↔ 48 ≤ c.toNat ∧ c.toNat ≤ 57 := by
  simp only [isDigit, Bool.and_eq_true, decide_eq_true_eq, UInt8.le_iff_toNat_le]
  exact Iff.rfl

theorem digit_lt {c : UInt8} (h : isDigit c = true) : digit c < 10 := by
  have := isDigit_iff.mp h
  unfold digit
  omega

theorem digitChar_toNat {d : Nat} (h : d < 10) : (digitChar d).toNat = 48 + d := by
  unfold digitChar
  rw [UInt8.toNat_ofNat']
  omega

@[simp] theorem digit_digitChar {d : Nat} (h : d < 10) : digit (digitChar d) = d := by
  rw [digit, digitChar_toNat h]
  omega

@[simp] theorem isDigit_digitChar {d : Nat} (h : d < 10) : isDigit (digitChar d) = true := by
  rw [isDigit_iff, digitChar_toNat h]
  omega

theorem digitChar_digit {c : UInt8} (h : isDigit c = true) : digitChar (digit c) = c := by
  have bounds := isDigit_iff.mp h
  apply UInt8.toNat_inj.mp
  rw [digitChar_toNat (digit_lt h), digit]
  omega

theorem digit_injective {c d : UInt8} (hc : isDigit c = true) (hd : isDigit d = true)
    (same : digit c = digit d) : c = d := by
  rw [← digitChar_digit hc, same, digitChar_digit hd]

theorem digit_eq_zero {c : UInt8} (h : isDigit c = true) : digit c = 0 ↔ c = ch '0' := by
  constructor
  · intro zero
    exact digit_injective h (by decide) zero
  · rintro rfl
    rfl

namespace AllDigits

theorem nil : AllDigits [] := fun _ mem => by cases mem

theorem cons {c : UInt8} {t : Text} : AllDigits (c :: t) ↔ isDigit c = true ∧ AllDigits t :=
  List.forall_mem_cons

theorem append {s t : Text} : AllDigits (s ++ t) ↔ AllDigits s ∧ AllDigits t :=
  List.forall_mem_append

theorem replicate (count : Nat) : AllDigits (List.replicate count (ch '0')) := by
  intro c mem
  rw [(List.mem_replicate.mp mem).2]
  decide

theorem of_subset {s t : Text} (sub : ∀ c ∈ s, c ∈ t) (h : AllDigits t) : AllDigits s :=
  fun c mem => h c (sub c mem)

theorem reverse {t : Text} : AllDigits t.reverse ↔ AllDigits t := by
  simp [AllDigits]

theorem small {t : Text} (h : AllDigits t) : ∀ d ∈ t.map digit, d < 10 := by
  intro d mem
  obtain ⟨c, hc, rfl⟩ := List.mem_map.mp mem
  exact digit_lt (h c hc)

end AllDigits

@[simp] theorem natural_nil : natural [] = 0 := rfl

theorem natural_append (s t : Text) :
    natural (s ++ t) = natural s * 10 ^ t.length + natural t := by
  simp [natural, Numeral.value_append]

theorem natural_concat (t : Text) (c : UInt8) : natural (t ++ [c]) = 10 * natural t + digit c := by
  simp [natural, Numeral.value_concat]

theorem natural_cons (c : UInt8) (t : Text) :
    natural (c :: t) = digit c * 10 ^ t.length + natural t := by
  simp [natural, Numeral.value_cons]

@[simp] theorem natural_singleton (c : UInt8) : natural [c] = digit c := by
  simp [natural]

@[simp] theorem natural_zeros (count : Nat) : natural (List.replicate count (ch '0')) = 0 := by
  rw [natural, List.map_replicate]
  exact Numeral.value_zeros count

theorem natural_lt {t : Text} (h : AllDigits t) : natural t < 10 ^ t.length := by
  have bound := Numeral.value_lt (by omega) h.small
  rwa [List.length_map] at bound

theorem natural_injective {s t : Text} (hs : AllDigits s) (ht : AllDigits t)
    (length : s.length = t.length) (same : natural s = natural t) : s = t := by
  have digits := Numeral.value_injective (by omega) hs.small ht.small (by simpa using length) same
  clear same
  induction s generalizing t with
  | nil =>
    exact (List.length_eq_zero_iff.mp length.symm).symm
  | cons c s ih =>
    cases t with
    | nil => cases length
    | cons d t =>
      rw [AllDigits.cons] at hs ht
      simp only [List.map_cons, List.cons.injEq] at digits
      simp only [List.length_cons, Nat.add_right_cancel_iff] at length
      rw [digit_injective hs.1 ht.1 digits.1, ih hs.2 ht.2 length digits.2]

/-- Integer digits that cannot lose a leading zero. -/
def Trimmed (t : Text) : Prop := t ≠ [] ∧ (t.head? = some (ch '0') → t = [ch '0'])

instance (t : Text) : Decidable (Trimmed t) :=
  inferInstanceAs (Decidable (t ≠ [] ∧ (t.head? = some (ch '0') → t = [ch '0'])))

theorem natural_lt_of_length_lt {s t : Text} (hs : AllDigits s) (ht : AllDigits t)
    (trimmed : Trimmed t) (nonempty : s ≠ []) (shorter : s.length < t.length) :
    natural s < natural t := by
  cases t with
  | nil => cases shorter
  | cons d t =>
    have nonzero : digit d ≠ 0 := by
      intro zero
      have first := (digit_eq_zero (AllDigits.cons.mp ht).1).mp zero
      have one := trimmed.2 (by rw [first]; rfl)
      have := List.length_pos_iff.mpr nonempty
      simp only [List.cons.injEq] at one
      simp only [one.2, List.length_singleton] at shorter
      omega
    exact @Numeral.value_lt_of_length_lt 10 (s.map digit) (t.map digit) (digit d) (by omega)
      hs.small nonzero (by simpa using shorter)

theorem natural_trimmed_injective {s t : Text} (hs : AllDigits s) (ht : AllDigits t)
    (trimmedS : Trimmed s) (trimmedT : Trimmed t) (same : natural s = natural t) : s = t := by
  rcases Nat.lt_trichotomy s.length t.length with lt | eq | gt
  · have := natural_lt_of_length_lt hs ht trimmedT trimmedS.1 lt
    omega
  · exact natural_injective hs ht eq same
  · have := natural_lt_of_length_lt ht hs trimmedS trimmedT.1 gt
    omega

/-- The rational an integer part and a fraction write. -/
def decimal (integer fraction : Text) : ℚ := natural (integer ++ fraction) / 10 ^ fraction.length

theorem decimal_nil (integer : Text) : decimal integer [] = natural integer := by
  simp [decimal]

end Dross
