import Dross.Type.Division

/-!
# The digits after the point

The last loop of `divide_positive_numbers`, and when the quotient it is given
is written out to its end.
-/

namespace Dross

/-- How many significant digits a whole number has; zero has none. -/
def significance (n : Nat) : Nat := (Nat.digits 10 n).length

theorem significance_le {n length : Nat} : significance n ≤ length ↔ n < 10 ^ length :=
  Nat.digits_length_le_iff (by omega) n

theorem significance_zero {n : Nat} : significance n = 0 ↔ n = 0 := by
  rw [← Nat.le_zero, significance_le]
  omega

theorem significance_next {n d : Nat} (small : d < 10) :
    significance (10 * n + d) =
      if 0 < significance n || d != 0 then significance n + 1 else significance n := by
  have some' : (0 < significance n || d != 0) = decide (0 < 10 * n + d) := by
    have zero := @significance_zero n
    by_cases hn : n = 0 <;> by_cases hd : d = 0 <;>
      simp [hn, hd, Nat.pos_iff_ne_zero, significance_zero]
  rw [some']
  split
  · rename_i positive
    unfold significance
    rw [Nat.digits_def' (by omega) (by simpa using positive), List.length_cons,
      show (10 * n + d) / 10 = n by omega]
  · rename_i zero
    simp only [decide_eq_true_eq] at zero
    rw [show 10 * n + d = n by omega]

/-- A trimmed text of a whole number is as long as its significance, zero aside. -/
theorem Writes.length {t : Text} {n : Nat} (h : Writes t n) :
    t.length = max 1 (significance n) := by
  have zero := h.natural_eq_zero
  obtain ⟨digits, trimmed, value⟩ := h.digits
  have upper := natural_lt digits
  rw [value] at upper
  have most := significance_le.mpr upper
  by_cases none : n = 0
  · rw [decide_eq_true none, beq_iff_eq] at zero
    rw [zero, none]
    rfl
  · obtain ⟨c, rest, rfl⟩ : ∃ c rest, t = c :: rest := List.exists_cons_of_ne_nil trimmed.1
    have first : digit c ≠ 0 := by
      intro zero
      have zero := (digit_eq_zero (AllDigits.cons.mp digits).1).mp zero
      have one := trimmed.2 (by rw [zero]; rfl)
      rw [one] at value
      exact none (value.symm.trans (by decide))
    have lower := @Numeral.pow_le_value 10 (digit c) (rest.map digit) first
    rw [List.length_map] at lower
    change _ ≤ natural (c :: rest) at lower
    have least : ¬ significance n ≤ rest.length := by
      rw [significance_le]
      omega
    rw [List.length_cons] at most ⊢
    omega

section Loop

variable {divisor : Text} {V Q R : Nat}

/-- The whole number that the digits written so far make with the integer part. -/
def writtenOut (Q : Nat) (decimalPart : Text) : Nat :=
  Q * 10 ^ decimalPart.length + natural decimalPart

/-- What the loop keeps: the digits so far times the divisor, with the remainder, are
the first remainder at their scale. -/
structure Dividing (V R : Nat) (decimalPart remainder : Text) (rest : Nat) : Prop where
  digits : AllDigits decimalPart
  remainder : Writes remainder rest
  below : rest < V
  sum : natural decimalPart * V + rest = R * 10 ^ decimalPart.length

theorem Dividing.writtenOut_sum {decimalPart remainder : Text} {rest : Nat}
    (h : Dividing V R decimalPart remainder rest) :
    writtenOut Q decimalPart * V + rest = (Q * V + R) * 10 ^ decimalPart.length := by
  rw [writtenOut, Nat.add_mul, Nat.add_assoc, h.sum]
  ring

/-- The turns the loop still has to take, at most. -/
def turnsLeft (divisor : Text) (terminates : Bool) (fractionDigits significantDigits : Nat)
    (decimalPart : Text) (significant : Nat) : Nat :=
  if terminates then fractionDigits - decimalPart.length
  else if significant = 0 then divisor.length - decimalPart.length + significantDigits
  else significantDigits - significant

/-- One more digit of the quotient. -/
theorem Dividing.next (hd : Writes divisor V) {decimalPart remainder : Text} {rest : Nat}
    (h : Dividing V R decimalPart remainder rest) (nonzero : rest ≠ 0) :
    ∃ d next, d < 10 ∧ subtractWhile divisor 10 0 (remainder ++ [ch '0']) = some (d, next) ∧
      Dividing V R (decimalPart ++ [digitChar d]) next (10 * rest % V) ∧
      writtenOut Q (decimalPart ++ [digitChar d]) = 10 * writtenOut Q decimalPart + d := by
  have below := h.below
  have zero : digit (ch '0') = 0 := rfl
  have written := h.remainder.concat_nonzero nonzero (by decide : isDigit (ch '0') = true)
  rw [zero, Nat.add_zero] at written
  obtain ⟨small, next, result, hnext⟩ := subtractWhile_digit hd (by omega) (by omega) written
  refine ⟨10 * rest / V, next, small, result,
    ⟨allDigits_concat h.digits small, hnext, Nat.mod_lt _ (by omega), ?_⟩, ?_⟩
  · have split := Nat.div_add_mod (10 * rest) V
    rw [natural_digitChar small, List.length_append, List.length_singleton, pow_succ,
      ← Nat.mul_assoc, ← h.sum]
    calc (10 * natural decimalPart + 10 * rest / V) * V + 10 * rest % V
        = 10 * natural decimalPart * V + (V * (10 * rest / V) + 10 * rest % V) := by ring
      _ = _ := by
        rw [split]
        ring
  · rw [writtenOut, writtenOut, natural_digitChar small, List.length_append,
      List.length_singleton, pow_succ]
    ring

/-- While nothing significant is written, the remainder only grows by zeros, so there
are fewer of them than digits in the divisor. -/
theorem Dividing.leading (hd : Writes divisor V) {decimalPart remainder : Text} {rest : Nat}
    (h : Dividing V R decimalPart remainder rest) (nonzero : rest ≠ 0)
    (none : writtenOut Q decimalPart = 0) : decimalPart.length < divisor.length := by
  obtain ⟨digits, _, value⟩ := hd.digits
  have bound := natural_lt digits
  have zero : natural decimalPart = 0 := by
    unfold writtenOut at none
    omega
  have sum := h.sum
  rw [zero, Nat.zero_mul, Nat.zero_add] at sum
  have positive : 0 < R := Nat.pos_of_ne_zero (fun none => by
    rw [none, Nat.zero_mul] at sum
    exact nonzero sum)
  have scaled : 1 * 10 ^ decimalPart.length ≤ R * 10 ^ decimalPart.length :=
    Nat.mul_le_mul_right _ positive
  have below := h.below
  have power : 10 ^ decimalPart.length < 10 ^ divisor.length := by omega
  exact (Nat.pow_lt_pow_iff_right (by omega)).mp power

/-- A turn that writes a digit is one of the turns left. -/
theorem turnsLeft_next {terminates : Bool}
    {fractionDigits significantDigits turns significant : Nat}
    {decimalPart : Text} (d : Nat)
    (wanted : wantsDigit terminates fractionDigits significantDigits decimalPart.length
      significant = true)
    (leading : significant = 0 → decimalPart.length < divisor.length)
    (enough : turnsLeft divisor terminates fractionDigits significantDigits decimalPart
      significant < turns + 1) :
    turnsLeft divisor terminates fractionDigits significantDigits (decimalPart ++ [digitChar d])
      (if 0 < significant || d != 0 then significant + 1 else significant) < turns := by
  unfold turnsLeft at enough ⊢
  simp only [List.length_append, List.length_singleton]
  cases terminates with
  | true =>
    have less : decimalPart.length < fractionDigits := by simpa [wantsDigit] using wanted
    simp only [if_true] at enough ⊢
    omega
  | false =>
    have less : significant < significantDigits := by simpa [wantsDigit] using wanted
    simp only [Bool.false_eq_true, if_false] at enough ⊢
    by_cases none : significant = 0
    · have leading := leading none
      simp only [none] at enough ⊢
      by_cases digit : d = 0 <;> simp [digit] at enough ⊢ <;> omega
    · rw [if_neg none] at enough
      simp only [Nat.pos_of_ne_zero none, decide_true, Bool.true_or, if_true]
      rw [if_neg (by omega)]
      omega

/-- How the loop ends: with nothing left, or with the digits it was asked for. -/
structure DividedOut (V Q R : Nat) (terminates : Bool) (fractionDigits significantDigits : Nat)
    (decimalPart remainder : Text) (rest : Nat) : Prop where
  dividing : Dividing V R decimalPart remainder rest
  ended : terminates = true → rest ≠ 0 → fractionDigits ≤ decimalPart.length
  enough : terminates = false → rest ≠ 0 →
    significantDigits ≤ significance (writtenOut Q decimalPart)
  short : terminates = false → decimalPart = [] ∨
    significance (writtenOut Q decimalPart) ≤ significantDigits

theorem decimalDigits_spec (hd : Writes divisor V) (terminates : Bool)
    (fractionDigits significantDigits : Nat) {turns : Nat} {decimalPart remainder : Text}
    {significant rest : Nat} (h : Dividing V R decimalPart remainder rest)
    (significance' : significant = significance (writtenOut Q decimalPart))
    (short : terminates = false → decimalPart = [] ∨
      significance (writtenOut Q decimalPart) ≤ significantDigits)
    (enough : turnsLeft divisor terminates fractionDigits significantDigits decimalPart
      significant < turns) :
    ∃ out rest', decimalDigits divisor terminates fractionDigits significantDigits turns
        decimalPart remainder significant = some out ∧
      DividedOut V Q R terminates fractionDigits significantDigits out.1 out.2 rest' := by
  induction turns generalizing decimalPart remainder significant rest with
  | zero => omega
  | succ turns ih =>
    have zero := h.remainder.natural_eq_zero
    rw [decimalDigits]
    split
    · rename_i goesOn
      simp only [Bool.and_eq_true, bne_iff_ne] at goesOn
      have nonzero : rest ≠ 0 := by
        intro none
        rw [decide_eq_true none, beq_iff_eq] at zero
        exact goesOn.1 zero
      obtain ⟨d, next, small, result, divided, digits⟩ := h.next (Q := Q) hd nonzero
      have counted : (if 0 < significant || d != 0 then significant + 1 else significant) =
          significance (writtenOut Q (decimalPart ++ [digitChar d])) := by
        rw [digits, significance_next small, significance']
      simp only [result, countText_small small]
      refine ih divided counted ?_ ?_
      · intro open'
        rw [open'] at goesOn
        have less : significant < significantDigits := by simpa [wantsDigit] using goesOn.2
        right
        rw [← counted]
        split <;> omega
      · have leading := h.leading (Q := Q) hd nonzero
        rw [← significance_zero, ← significance'] at leading
        exact turnsLeft_next d goesOn.2 leading enough
    · rename_i stops
      refine ⟨(decimalPart, remainder), rest, rfl, h, ?_, ?_, short⟩
      · intro terminates nonzero
        subst terminates
        rw [decide_eq_false nonzero, beq_eq_false_iff_ne] at zero
        simpa [zero, wantsDigit] using stops
      · intro terminates nonzero
        subst terminates
        rw [decide_eq_false nonzero, beq_eq_false_iff_ne] at zero
        rw [← significance']
        simpa [zero, wantsDigit] using stops

end Loop

/-! ## Whether a quotient ends -/

/-- The digits after the point that a divisor's factors of ten ask for. -/
def tenDigits (V : Nat) : Nat := max (padicValNat 2 V) (padicValNat 5 V)

/-- A divisor without its factors of ten. -/
structure TenFree (V F : Nat) : Prop where
  split : V = 2 ^ padicValNat 2 V * 5 ^ padicValNat 5 V * F
  coprime : Nat.Coprime F 10

theorem TenFree.dvd_iff {V F D : Nat} (h : TenFree V F) : F ∣ D ↔ V ∣ D * 10 ^ tenDigits V := by
  constructor
  · intro divides
    rw [h.split, Nat.mul_comm D]
    refine Nat.mul_dvd_mul ?_ divides
    rw [← h.split, show 10 = 2 * 5 by rfl, Nat.mul_pow]
    exact Nat.mul_dvd_mul (Nat.pow_dvd_pow 2 (Nat.le_max_left _ _))
      (Nat.pow_dvd_pow 5 (Nat.le_max_right _ _))
  · intro divides
    have factor : F ∣ V := ⟨_, h.split.trans (Nat.mul_comm _ _)⟩
    exact (h.coprime.pow_right _).dvd_of_dvd_mul_right (factor.trans divides)

/-- If any number of digits is enough, the ones the divisor asks for are. -/
theorem TenFree.enough {V F D n : Nat} (h : TenFree V F) (divides : V ∣ D * 10 ^ n) :
    V ∣ D * 10 ^ tenDigits V := by
  have factor : F ∣ V := ⟨_, h.split.trans (Nat.mul_comm _ _)⟩
  exact h.dvd_iff.mp ((h.coprime.pow_right _).dvd_of_dvd_mul_right (factor.trans divides))

/-- The two stripping loops take out exactly the factors of ten. -/
theorem stripFactors_spec {divisor : Text} {V : Nat} (hd : Writes divisor V) (nonzero : V ≠ 0) :
    ∃ twos rest F, stripFactor 2 endsEven (natural divisor + 1) 0 divisor =
        some (twos, padicValNat 2 V) ∧
      stripFactor 5 endsFive (natural divisor + 1) 0 twos = some (rest, padicValNat 5 V) ∧
      Writes rest ((F : Nat) : ℚ) ∧ TenFree V F := by
  have value := hd.digits.2.2
  obtain ⟨twos, m, first, hm, splitTwo⟩ := stripFactor_spec shows_two 0 hd nonzero
    (show V < natural divisor + 1 by omega)
  have other : m ≠ 0 := by
    intro zero
    rw [zero, Nat.mul_zero] at splitTwo
    exact nonzero splitTwo
  have smaller : m ≤ V := by
    rw [splitTwo]
    exact Nat.le_mul_of_pos_left _ (by positivity)
  obtain ⟨rest, F, second, hF, splitFive⟩ := stripFactor_spec shows_five 0 hm other
    (show m < natural divisor + 1 by omega)
  have two := Fact.mk Nat.prime_two
  have five := Fact.mk Nat.prime_five
  have fives : padicValNat 5 V = padicValNat 5 m := by
    rw [splitTwo, padicValNat.mul (by positivity) other,
      padicValNat.eq_zero_of_not_dvd (fun divides =>
        absurd (Nat.prime_five.dvd_of_dvd_pow divides) (by decide)), Nat.zero_add]
  rw [Nat.zero_add] at first second
  refine ⟨twos, rest, F, first, by rw [second, fives], hF, ?_, ?_⟩
  · rw [fives, Nat.mul_assoc, ← splitFive, ← splitTwo]
  · have notTwo : ¬ 2 ∣ m := by
      rintro ⟨k, rfl⟩
      have again := splitTwo
      rw [← Nat.mul_assoc, ← pow_succ] at again
      have divides : 2 ^ (padicValNat 2 V + 1) ∣ V := ⟨k, again⟩
      exact pow_succ_padicValNat_not_dvd nonzero divides
    have notFive : ¬ 5 ∣ F := by
      rintro ⟨k, rfl⟩
      have again := splitFive
      rw [← Nat.mul_assoc, ← pow_succ] at again
      have divides : 5 ^ (padicValNat 5 m + 1) ∣ m := ⟨k, again⟩
      exact pow_succ_padicValNat_not_dvd other divides
    have notTwoF : ¬ 2 ∣ F := fun divides => notTwo (by
      rw [splitFive]
      exact Dvd.dvd.mul_left divides _)
    rw [show 10 = 2 * 5 by rfl]
    exact Nat.Coprime.mul_right (((Nat.Prime.coprime_iff_not_dvd Nat.prime_two).mpr notTwoF).symm)
      (((Nat.Prime.coprime_iff_not_dvd Nat.prime_five).mpr notFive).symm)

/-- Whether the source takes the quotient to end, when there is a remainder to go on with. -/
theorem termination_spec {dividend divisor quotient remainder : Text} {V R : Nat}
    (hdividend : AllDigits dividend) (hd : Writes divisor V) (positive : 0 < V)
    (hr : Writes remainder R) (goesOn : R ≠ 0) {significantDigits : Nat}
    (asked : significantDigits ≠ 0) :
    termination dividend divisor quotient remainder significantDigits =
      some (decide (quotient.length + tenDigits V ≤ maxExpandedDigits ∧
        V ∣ natural dividend * 10 ^ tenDigits V), tenDigits V) := by
  obtain ⟨twos, rest, F, first, second, hF, free⟩ := stripFactors_spec hd (by omega)
  have positiveF : 0 < F := by
    apply Nat.pos_of_ne_zero
    intro zero
    have split := free.split
    rw [zero, Nat.mul_zero] at split
    omega
  have multiple := isMultipleOf_spec hF positiveF hdividend
  have zero := hr.natural_eq_zero
  unfold termination
  rw [zero, decide_eq_false goesOn]
  simp only [Bool.false_eq_true, asked, decide_false, Bool.or_self, if_false, first, second,
    Option.bind_eq_bind, Option.bind_some, multiple, ← free.dvd_iff]
  change (if quotient.length + tenDigits V ≤ maxExpandedDigits then _ else _) = _
  split <;> rename_i fits <;> simp [fits] <;> rfl

theorem termination_zero {dividend divisor quotient remainder : Text}
    (hr : Writes remainder ((0 : Nat) : ℚ)) (significantDigits : Nat) :
    termination dividend divisor quotient remainder significantDigits = some (true, 0) := by
  have zero := hr.natural_eq_zero
  unfold termination
  simp [zero]

end Dross
