import Dross.Type.Number
import Mathlib.NumberTheory.Padics.PadicVal.Basic

/-!
# Long division

The loops of `divide_positive_numbers` on whole numbers: each keeps a remainder
below the divisor, and what is written so far times the divisor, with the
remainder, is what was read so far.
-/

namespace Dross

/-! ## Whole numbers as canonical text -/

/-- What is written of a count has no digit to lose. -/
theorem countText_trimmed (n : Nat) : Trimmed (countText n) := by
  induction n using Nat.strongRecOn with
  | ind n ih =>
    by_cases small : n < 10
    · rw [countText_small small]
      refine ⟨by simp, fun first => ?_⟩
      rw [Option.some.inj first]
    · have trimmed := ih (n / 10) (by omega)
      have value := (countText_digits (n / 10)).2
      rw [countText_step small]
      refine ⟨by simp, fun first => ?_⟩
      rw [List.head?_append_of_ne_nil _ trimmed.1] at first
      rw [trimmed.2 first] at value
      have zero : natural [ch '0'] = 0 := by decide
      omega

theorem exists_natural (n : Nat) : ∃ t, AllDigits t ∧ Trimmed t ∧ natural t = n :=
  ⟨countText n, (countText_digits n).1, countText_trimmed n, (countText_digits n).2⟩

theorem writes_natural {t : Text} (digits : AllDigits t) (trimmed : Trimmed t) :
    Writes t (natural t) :=
  ⟨t, [], ⟨digits, AllDigits.nil, trimmed, by simp⟩, rfl, decimal_nil t⟩

/-- The canonical text of a whole number is its digits. -/
theorem Writes.digits {t : Text} {n : Nat} (h : Writes t n) :
    AllDigits t ∧ Trimmed t ∧ natural t = n := by
  obtain ⟨s, digits, trimmed, rfl⟩ := exists_natural n
  rw [h.unique (writes_natural digits trimmed) rfl]
  exact ⟨digits, trimmed, rfl⟩

theorem writes_trimZeros {t : Text} (digits : AllDigits t) (nonempty : t ≠ []) :
    Writes (trimZeros t) (natural t) := by
  rw [← natural_trimZeros t]
  exact writes_natural (trimZeros_digits digits) (trimZeros_trimmed nonempty)

theorem Writes.natural_eq_zero {t : Text} {n : Nat} (h : Writes t n) :
    (t == [ch '0']) = decide (n = 0) := by
  rw [Bool.eq_iff_iff, beq_iff_eq, decide_eq_true_iff, h.eq_zero, Nat.cast_eq_zero]

/-- A remainder with the next digit behind it. -/
theorem Writes.concat {t : Text} {n : Nat} {c : UInt8} (h : Writes t n)
    (digit' : isDigit c = true) :
    Writes (trimZeros (t ++ [c])) ((10 * n + digit c : Nat) : ℚ) := by
  obtain ⟨digits, trimmed, rfl⟩ := h.digits
  rw [← natural_concat]
  exact writes_trimZeros (AllDigits.append.mpr ⟨digits, AllDigits.cons.mpr ⟨digit', AllDigits.nil⟩⟩)
    (by simp)

/-- Without a zero in front there is nothing to trim. -/
theorem Writes.concat_nonzero {t : Text} {n : Nat} {c : UInt8} (h : Writes t n) (nonzero : n ≠ 0)
    (digit' : isDigit c = true) : Writes (t ++ [c]) ((10 * n + digit c : Nat) : ℚ) := by
  have zero := h.natural_eq_zero
  obtain ⟨digits, trimmed, rfl⟩ := h.digits
  rw [← natural_concat]
  refine writes_natural (AllDigits.append.mpr ⟨digits, AllDigits.cons.mpr ⟨digit', AllDigits.nil⟩⟩)
    ⟨by simp, ?_⟩
  intro first
  rw [List.head?_append_of_ne_nil _ trimmed.1] at first
  rw [trimmed.2 first] at nonzero
  exact absurd (by decide) nonzero

section Loops

variable {divisor : Text} {V : Nat}

/-! ## One digit of a quotient -/

/-- Subtracting while it can divides, given the turns it takes. -/
theorem subtractWhile_count (hd : Writes divisor V) (times left turns count : Nat)
    (enough : times < turns) (small : left < V) {remainder : Text}
    (hr : Writes remainder ((times * V + left : Nat) : ℚ)) :
    ∃ next, subtractWhile divisor turns count remainder = some (count + times, next) ∧
      Writes next left := by
  induction times generalizing turns count remainder with
  | zero =>
    obtain ⟨turns, rfl⟩ : ∃ more, turns = more + 1 := ⟨turns - 1, by omega⟩
    refine ⟨remainder, ?_, by simpa using hr⟩
    rw [subtractWhile, if_neg]
    · rfl
    · have less : ((0 * V + left : Nat) : ℚ) < V := by exact_mod_cast (by omega : 0 * V + left < V)
      rcases compareNumbers_order hr hd with h | h | h
      · exact absurd h.2 less.ne
      · omega
      · exact absurd h.2 less.asymm
  | succ times ih =>
    obtain ⟨turns, rfl⟩ : ∃ more, turns = more + 1 := ⟨turns - 1, by omega⟩
    have more : V ≤ (times + 1) * V + left := by
      rw [Nat.add_mul]
      omega
    have order : (V : ℚ) ≤ (((times + 1) * V + left : Nat) : ℚ) := by exact_mod_cast more
    have rest := subtractPositiveNumbers_writes hr hd order
    rw [← Nat.cast_sub more, show (times + 1) * V + left - V = times * V + left by
      rw [Nat.add_mul]
      omega] at rest
    obtain ⟨next, result, written⟩ := ih turns (count + 1) (by omega) rest
    refine ⟨next, ?_, written⟩
    rw [subtractWhile, if_pos, result]
    · simp only [Option.some.injEq, Prod.mk.injEq, and_true]
      omega
    · rcases compareNumbers_order hr hd with h | h | h
      · omega
      · exact absurd h.2 order.not_gt
      · omega

/-- What is under ten times the divisor gives one digit and a remainder. -/
theorem subtractWhile_digit (hd : Writes divisor V) (positive : 0 < V) {n : Nat}
    (small : n < 10 * V) {remainder : Text} (hr : Writes remainder n) :
    n / V < 10 ∧ ∃ next, subtractWhile divisor 10 0 remainder = some (n / V, next) ∧
      Writes next ((n % V : Nat) : ℚ) := by
  have digit : n / V < 10 := Nat.div_lt_of_lt_mul (by rwa [Nat.mul_comm])
  refine ⟨digit, ?_⟩
  rw [show n = n / V * V + n % V by rw [Nat.mul_comm, Nat.div_add_mod]] at hr
  obtain ⟨next, result, written⟩ := subtractWhile_count hd (n / V) (n % V) 10 0 digit
    (Nat.mod_lt _ positive) hr
  exact ⟨next, by rw [result, Nat.zero_add], written⟩

theorem next_small {r d : Nat} (below : r < V) (digit : d < 10) : 10 * r + d < 10 * V := by
  omega

/-! ## The loops over the dividend -/

theorem longDivision_spec (hd : Writes divisor V) (positive : 0 < V) {digits : Text}
    (all : AllDigits digits) {quotient remainder : Text} {r : Nat} (hq : AllDigits quotient)
    (hr : Writes remainder r) (below : r < V) :
    ∃ out rest, longDivision divisor digits quotient remainder = some out ∧
      AllDigits out.1 ∧ quotient.length ≤ out.1.length ∧ Writes out.2 ((rest : Nat) : ℚ) ∧
      rest < V ∧ natural out.1 * V + rest =
        (natural quotient * V + r) * 10 ^ digits.length + natural digits := by
  induction digits generalizing quotient remainder r with
  | nil => exact ⟨(quotient, remainder), r, rfl, hq, Nat.le_refl _, hr, below, by simp⟩
  | cons c digits ih =>
    rw [AllDigits.cons] at all
    obtain ⟨small, next, result, written⟩ := subtractWhile_digit hd positive
      (next_small below (digit_lt all.1)) (hr.concat all.1)
    obtain ⟨out, rest, division, hout, length, hrest, lt, sum⟩ := ih all.2
      (allDigits_concat hq small) written (Nat.mod_lt _ positive)
    refine ⟨out, rest, ?_, hout, ?_, hrest, lt, ?_⟩
    · rw [longDivision, result]
      simp only [countText_small small]
      exact division
    · rw [List.length_append, List.length_singleton] at length
      omega
    · have split := Nat.div_add_mod (10 * r + digit c) V
      rw [sum, natural_digitChar small, natural_cons, List.length_cons, pow_succ]
      calc ((10 * natural quotient + (10 * r + digit c) / V) * V + (10 * r + digit c) % V) *
              10 ^ digits.length + natural digits
          = (10 * natural quotient * V +
              (V * ((10 * r + digit c) / V) + (10 * r + digit c) % V)) * 10 ^ digits.length +
              natural digits := by ring
        _ = _ := by
          rw [split]
          ring

theorem multipleRemainder_spec (hd : Writes divisor V) (positive : 0 < V) {digits : Text}
    (all : AllDigits digits) {remainder : Text} {r : Nat} (hr : Writes remainder r)
    (below : r < V) :
    ∃ out, multipleRemainder divisor digits remainder = some out ∧
      Writes out (((r * 10 ^ digits.length + natural digits) % V : Nat) : ℚ) := by
  induction digits generalizing remainder r with
  | nil => exact ⟨remainder, rfl, by simpa [Nat.mod_eq_of_lt below] using hr⟩
  | cons c digits ih =>
    rw [AllDigits.cons] at all
    have first : Writes (if remainder == [ch '0'] then [c] else remainder ++ [c])
        ((10 * r + digit c : Nat) : ℚ) := by
      rw [hr.natural_eq_zero]
      by_cases zero : r = 0
      · rw [if_pos (by simpa using zero), zero]
        have one := writes_trimZeros (AllDigits.cons.mpr ⟨all.1, AllDigits.nil⟩) (by simp)
        simpa [trimZeros] using one
      · rw [if_neg (by simpa using zero)]
        exact hr.concat_nonzero zero all.1
    obtain ⟨_, next, result, written⟩ := subtractWhile_digit hd positive
      (next_small below (digit_lt all.1)) first
    obtain ⟨out, division, hout⟩ := ih all.2 written (Nat.mod_lt _ positive)
    refine ⟨out, ?_, ?_⟩
    · rw [multipleRemainder]
      simp only [result]
      exact division
    · have read : r * 10 ^ (c :: digits).length + natural (c :: digits) =
          (10 * r + digit c) * 10 ^ digits.length + natural digits := by
        rw [natural_cons, List.length_cons, pow_succ]
        ring
      have same := ((Nat.mod_modEq (10 * r + digit c) V).mul_right
        (10 ^ digits.length)).add_right (natural digits)
      rw [read, ← show _ % V = _ % V from same]
      exact hout

theorem isMultipleOf_spec (hd : Writes divisor V) (positive : 0 < V) {digits : Text}
    (all : AllDigits digits) :
    isMultipleOf digits divisor = some (decide (V ∣ natural digits)) := by
  have zero : Writes [ch '0'] ((0 : Nat) : ℚ) := by exact_mod_cast Writes.zero
  obtain ⟨out, result, written⟩ := multipleRemainder_spec hd positive all zero positive
  rw [Nat.zero_mul, Nat.zero_add] at written
  unfold isMultipleOf
  rw [result, Option.map_some, written.natural_eq_zero]
  simp only [Nat.dvd_iff_mod_eq_zero]

end Loops

/-! ## Factors of ten -/

theorem divideDigits_spec {factor : Nat} (positive : 0 < factor) {t : Text} (all : AllDigits t)
    {carry : Nat} (below : carry < factor) :
    AllDigits (divideDigits factor carry t) ∧ (divideDigits factor carry t).length = t.length ∧
      ∃ rest < factor, natural (divideDigits factor carry t) * factor + rest =
        carry * 10 ^ t.length + natural t := by
  induction t generalizing carry with
  | nil => exact ⟨AllDigits.nil, rfl, carry, below, by simp [divideDigits]⟩
  | cons c t ih =>
    rw [AllDigits.cons] at all
    have digits := digit_lt all.1
    have small : (carry * 10 + digit c) / factor < 10 :=
      Nat.div_lt_of_lt_mul (by omega)
    obtain ⟨hall, length, rest, lt, sum⟩ := ih all.2 (Nat.mod_lt (carry * 10 + digit c) positive)
    rw [divideDigits]
    refine ⟨AllDigits.cons.mpr ⟨isDigit_digitChar small, hall⟩, by simp [length], rest, lt, ?_⟩
    have split := Nat.div_add_mod (carry * 10 + digit c) factor
    rw [natural_cons, natural_cons, digit_digitChar small, length, List.length_cons, pow_succ,
      Nat.add_mul, Nat.add_assoc, sum]
    calc (carry * 10 + digit c) / factor * 10 ^ t.length * factor +
            ((carry * 10 + digit c) % factor * 10 ^ t.length + natural t)
        = (factor * ((carry * 10 + digit c) / factor) + (carry * 10 + digit c) % factor) *
            10 ^ t.length + natural t := by ring
      _ = _ := by
        rw [split]
        ring

theorem divideExactly_spec {factor : Nat} (positive : 0 < factor) {t : Text} {n : Nat}
    (h : Writes t ((factor * n : Nat) : ℚ)) : Writes (divideExactly t factor) n := by
  obtain ⟨digits, trimmed, value⟩ := h.digits
  obtain ⟨all, length, rest, lt, sum⟩ := divideDigits_spec positive digits positive
  rw [Nat.zero_mul, Nat.zero_add, value] at sum
  have quotient : natural (divideDigits factor 0 t) = n := by
    have whole : (natural (divideDigits factor 0 t) * factor + rest) / factor = n := by
      rw [sum, Nat.mul_div_cancel_left _ positive]
    rwa [Nat.mul_comm, Nat.mul_add_div positive, Nat.div_eq_of_lt lt, Nat.add_zero] at whole
  have nonempty : divideDigits factor 0 t ≠ [] := by
    have := List.length_pos_iff.mpr trimmed.1
    exact List.length_pos_iff.mp (by omega)
  have written := writes_trimZeros all nonempty
  rwa [quotient] at written

/-- A factor of ten and the last digits that show it. -/
def Shows (factor : Nat) (ends : UInt8 → Bool) : Prop :=
  factor ∣ 10 ∧ factor.Prime ∧ ∀ c, isDigit c = true → (ends c = true ↔ factor ∣ digit c)

theorem digit_cases {P : UInt8 → Prop} (h : ∀ d < 10, P (digitChar d)) :
    ∀ c, isDigit c = true → P c := by
  intro c hc
  rw [← digitChar_digit hc]
  exact h _ (digit_lt hc)

theorem shows_two : Shows 2 endsEven :=
  ⟨by decide, Nat.prime_two, digit_cases (by decide)⟩

theorem shows_five : Shows 5 endsFive :=
  ⟨by decide, Nat.prime_five, digit_cases (by decide)⟩

theorem Shows.last {factor : Nat} {ends : UInt8 → Bool} (shows' : Shows factor ends) {t : Text}
    (digits : AllDigits t) (nonempty : t ≠ []) :
    ends (t.getLast?.getD 0) = true ↔ factor ∣ natural t := by
  rw [List.getLast?_eq_some_getLast nonempty, Option.getD_some,
    shows'.2.2 _ (digits _ (List.getLast_mem nonempty))]
  conv_rhs => rw [← List.dropLast_append_getLast nonempty, natural_concat]
  exact (Nat.dvd_add_right (dvd_mul_of_dvd_left shows'.1 _)).symm

/-- Stripping a factor takes it out as often as it goes in. -/
theorem stripFactor_spec {factor : Nat} {ends : UInt8 → Bool} (shows' : Shows factor ends)
    {turns : Nat} (count : Nat) {t : Text} {n : Nat} (h : Writes t n) (nonzero : n ≠ 0)
    (enough : n < turns) :
    ∃ rest m, stripFactor factor ends turns count t =
        some (rest, count + padicValNat factor n) ∧
      Writes rest ((m : Nat) : ℚ) ∧ n = factor ^ padicValNat factor n * m := by
  have prime := Fact.mk shows'.2.1
  induction turns generalizing count t n with
  | zero => omega
  | succ turns ih =>
    obtain ⟨digits, trimmed, value⟩ := h.digits
    have last := shows'.last digits trimmed.1
    rw [value] at last
    by_cases divides : factor ∣ n
    · obtain ⟨m, rfl⟩ := divides
      have positive := shows'.2.1.two_le
      have smaller : m < factor * m := by
        have : 0 < m := Nat.pos_of_ne_zero (fun zero => nonzero (by rw [zero, Nat.mul_zero]))
        nlinarith
      have other : m ≠ 0 := by
        rintro rfl
        exact nonzero (Nat.mul_zero _)
      obtain ⟨rest, k, result, written, split⟩ := ih (count + 1)
        (divideExactly_spec (by omega) h) other (by omega)
      have exponent : padicValNat factor (factor * m) = padicValNat factor m + 1 := by
        rw [padicValNat.mul shows'.2.1.ne_zero other, padicValNat.self shows'.2.1.one_lt,
          Nat.add_comm]
      refine ⟨rest, k, ?_, written, ?_⟩
      · rw [stripFactor, if_pos (last.mpr (dvd_mul_right _ _)), result, exponent]
        simp only [Option.some.injEq, Prod.mk.injEq, true_and]
        omega
      · rw [exponent, pow_succ]
        conv_lhs => rw [split]
        ring
    · refine ⟨t, n, ?_, h, ?_⟩
      · rw [stripFactor, if_neg (fun ends => divides (last.mp ends)),
          padicValNat.eq_zero_of_not_dvd divides]
        rfl
      · rw [padicValNat.eq_zero_of_not_dvd divides, pow_zero, Nat.one_mul]

end Dross
