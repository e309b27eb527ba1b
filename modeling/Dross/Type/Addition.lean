import Dross.Type.Comparison

/-!
# Addition and subtraction

The loops keep a carry or a borrow; with it taken into account, the digits
written so far are the sum or the difference of the digits read so far.
-/

namespace Dross

theorem natural_reverse_cons (c : UInt8) (t : Text) :
    natural (c :: t).reverse = 10 * natural t.reverse + digit c := by
  rw [List.reverse_cons, natural_concat]

theorem allDigits_concat {t : Text} {d : Nat} (h : AllDigits t) (small : d < 10) :
    AllDigits (t ++ [digitChar d]) := by
  rw [AllDigits.append, AllDigits.cons]
  exact ⟨h, isDigit_digitChar small, AllDigits.nil⟩

theorem natural_digitChar {t : Text} {d : Nat} (small : d < 10) :
    natural (t ++ [digitChar d]) = 10 * natural t + d := by
  rw [natural_concat, digit_digitChar small]

theorem AllDigits.padded {t : Text} (h : AllDigits t) (length : Nat) :
    AllDigits (padded t length) := by
  unfold Dross.padded
  exact AllDigits.append.mpr ⟨h, AllDigits.replicate _⟩

theorem padded_length {t : Text} {length : Nat} (fits : t.length ≤ length) :
    (padded t length).length = length := by
  unfold padded
  rw [List.length_append, List.length_replicate]
  omega

theorem decimal_padded (integer fraction : Text) (length : Nat) :
    decimal integer (padded fraction length) = decimal integer fraction :=
  decimal_zeros integer fraction _

/-! ## Sums -/

theorem addFractions_sum {a b : Text} (length : a.length = b.length) (carry : Nat)
    (result : Text) :
    ∃ front, (addFractions a b carry result).1 = front ++ result ∧ AllDigits front ∧
      front.length = a.length ∧
      natural front + (addFractions a b carry result).2 * 10 ^ a.length =
        natural a.reverse + natural b.reverse + carry := by
  induction a generalizing b carry result with
  | nil =>
    cases b with
    | nil => exact ⟨[], rfl, AllDigits.nil, rfl, by simp [addFractions]⟩
    | cons d b => cases length
  | cons c a ih =>
    cases b with
    | nil => cases length
    | cons d b =>
      simp only [List.length_cons, Nat.add_right_cancel_iff] at length
      have small : (carry + digit c + digit d) % 10 < 10 := Nat.mod_lt _ (by omega)
      obtain ⟨front, eq, digits, size, sum⟩ := ih length ((carry + digit c + digit d) / 10)
        (digitChar ((carry + digit c + digit d) % 10) :: result)
      refine ⟨front ++ [digitChar ((carry + digit c + digit d) % 10)], ?_,
        allDigits_concat digits small, by simp [size], ?_⟩
      · rw [addFractions, eq]
        simp
      · rw [addFractions, natural_digitChar small, natural_reverse_cons, natural_reverse_cons,
          List.length_cons, pow_succ]
        rw [← Nat.mul_assoc]
        generalize (addFractions a b _ _).2 * 10 ^ a.length = high at sum ⊢
        omega

theorem addIntegers_sum (a b : Text) (carry : Nat) (result : Text) :
    ∃ front, addIntegers a b carry result = front ++ result ∧ AllDigits front ∧
      a.length ≤ front.length ∧
      natural front = natural a.reverse + natural b.reverse + carry := by
  induction a, b, carry, result using addIntegers.induct with
  | case1 c a d b carry result sum ih =>
    obtain ⟨front, eq, digits, size, value⟩ := ih
    have small : sum % 10 < 10 := Nat.mod_lt _ (by omega)
    refine ⟨front ++ [digitChar (sum % 10)], by rw [addIntegers, eq]; simp [sum],
      allDigits_concat digits small, by simp [size], ?_⟩
    rw [natural_digitChar small, natural_reverse_cons, natural_reverse_cons]
    omega
  | case2 c a carry result sum ih =>
    obtain ⟨front, eq, digits, size, value⟩ := ih
    have small : sum % 10 < 10 := Nat.mod_lt _ (by omega)
    refine ⟨front ++ [digitChar (sum % 10)], by rw [addIntegers, eq]; simp [sum],
      allDigits_concat digits small, by simp [size], ?_⟩
    simp only [List.reverse_nil, natural_nil] at value ⊢
    rw [natural_digitChar small, natural_reverse_cons]
    omega
  | case3 d b carry result sum ih =>
    obtain ⟨front, eq, digits, size, value⟩ := ih
    have small : sum % 10 < 10 := Nat.mod_lt _ (by omega)
    refine ⟨front ++ [digitChar (sum % 10)], by rw [addIntegers, eq]; simp [sum],
      allDigits_concat digits small, by simp, ?_⟩
    simp only [List.reverse_nil, natural_nil] at value ⊢
    rw [natural_digitChar small, natural_reverse_cons]
    omega
  | case4 carry result positive ih =>
    obtain ⟨front, eq, digits, size, value⟩ := ih
    have small : carry % 10 < 10 := Nat.mod_lt _ (by omega)
    refine ⟨front ++ [digitChar (carry % 10)], ?_, allDigits_concat digits small, by simp, ?_⟩
    · rw [addIntegers, if_pos positive, eq]
      simp
    · simp only [List.reverse_nil, natural_nil] at value ⊢
      rw [natural_digitChar small]
      omega
  | case5 carry result zero =>
    refine ⟨[], by rw [addIntegers, if_neg zero]; rfl, AllDigits.nil, by simp, ?_⟩
    simp
    omega

theorem addPositiveNumbers_writes {a b : Text} {u v : ℚ} (ha : Writes a u) (hb : Writes b v) :
    Writes (addPositiveNumbers a b) (u + v) := by
  obtain ⟨i, f, pa, rfl, rfl⟩ := ha
  obtain ⟨j, g, pb, rfl, rfl⟩ := hb
  unfold addPositiveNumbers
  simp only [numberParts_joined pa.integerDigits pa.trimmed.1,
    numberParts_joined pb.integerDigits pb.trimmed.1]
  generalize hm : max f.length g.length = m
  have sizeF := @padded_length f m (by omega)
  have sizeG := @padded_length g m (by omega)
  obtain ⟨fraction, hf, digitsF, lengthF, sumF⟩ := @addFractions_sum (padded f m).reverse
    (padded g m).reverse (by simp [sizeF, sizeG]) 0 []
  generalize addFractions (padded f m).reverse (padded g m).reverse 0 [] = out at hf sumF ⊢
  obtain ⟨integer, hi, digitsI, lengthI, sumI⟩ := addIntegers_sum i.reverse j.reverse out.2 []
  simp only [List.append_nil, List.reverse_reverse, List.length_reverse, sizeF, Nat.add_zero]
    at hf lengthF sumF hi lengthI sumI
  rw [hi, hf]
  have nonempty : integer ≠ [] := by
    have := List.length_pos_iff.mpr pa.trimmed.1
    exact List.length_pos_iff.mp (by omega)
  have sum : decimal i f + decimal j g = decimal integer fraction := by
    have power : (10 : ℚ) ^ m ≠ 0 := by positivity
    rw [← decimal_padded i f m, ← decimal_padded j g m, decimal_eq, decimal_eq, decimal_eq, sizeF,
      sizeG, lengthF, sumI]
    have sumF : (natural fraction : ℚ) + out.2 * 10 ^ m =
        natural (padded f m) + natural (padded g m) := by exact_mod_cast sumF
    push_cast
    field_simp
    linarith
  rw [sum]
  exact writes_combined digitsI digitsF nonempty

/-! ## Differences -/

theorem borrowed_eq {diff : Int} (low : -10 ≤ diff) (high : diff < 10) :
    ((borrowed diff).1 : Int) = diff + 10 * (borrowed diff).2 ∧ (borrowed diff).1 < 10 ∧
      (borrowed diff).2 ≤ 1 := by
  unfold borrowed
  split
  · refine ⟨?_, ?_, by simp⟩ <;> simp <;> omega
  · refine ⟨?_, ?_, by simp⟩ <;> simp <;> omega

theorem subtractFractions_difference {a b : Text} (ha : AllDigits a) (hb : AllDigits b)
    (length : a.length = b.length) {borrow : Nat} (one : borrow ≤ 1) (result : Text) :
    ∃ front, (subtractFractions a b borrow result).1 = front ++ result ∧ AllDigits front ∧
      front.length = a.length ∧ (subtractFractions a b borrow result).2 ≤ 1 ∧
      natural front + natural b.reverse + borrow =
        natural a.reverse + (subtractFractions a b borrow result).2 * 10 ^ a.length := by
  induction a generalizing b borrow result with
  | nil =>
    cases b with
    | nil => exact ⟨[], rfl, AllDigits.nil, rfl, one, by simp [subtractFractions]⟩
    | cons d b => cases length
  | cons c a ih =>
    cases b with
    | nil => cases length
    | cons d b =>
      simp only [List.length_cons, Nat.add_right_cancel_iff] at length
      rw [AllDigits.cons] at ha hb
      have smallC := digit_lt ha.1
      have smallD := digit_lt hb.1
      obtain ⟨value, small, next⟩ := @borrowed_eq ((digit c : Int) - digit d - borrow) (by omega)
        (by omega)
      rw [subtractFractions]
      generalize borrowed ((digit c : Int) - digit d - borrow) = diff at *
      obtain ⟨front, eq, digits, size, out, sum⟩ := ih ha.2 hb.2 length next
        (digitChar diff.1 :: result)
      refine ⟨front ++ [digitChar diff.1], by rw [eq]; simp, allDigits_concat digits small,
        by simp [size], out, ?_⟩
      rw [natural_digitChar small, natural_reverse_cons, natural_reverse_cons, List.length_cons,
        pow_succ, ← Nat.mul_assoc]
      generalize (subtractFractions a b _ _).2 * 10 ^ a.length = high at sum ⊢
      omega

theorem subtractIntegers_difference {a b : Text} (ha : AllDigits a) (hb : AllDigits b)
    (length : b.length ≤ a.length) {borrow : Nat} (one : borrow ≤ 1) (result : Text) :
    ∃ front out, subtractIntegers a b borrow result = front ++ result ∧ AllDigits front ∧
      front.length = a.length ∧
      natural front + natural b.reverse + borrow = natural a.reverse + out * 10 ^ a.length := by
  induction a generalizing b borrow result with
  | nil =>
    cases b with
    | nil => exact ⟨[], borrow, rfl, AllDigits.nil, rfl, by simp⟩
    | cons d b => simp at length
  | cons c a ih =>
    rw [AllDigits.cons] at ha
    have smallC := digit_lt ha.1
    cases b with
    | nil =>
      obtain ⟨value, small, next⟩ := @borrowed_eq ((digit c : Int) - borrow) (by omega) (by omega)
      rw [subtractIntegers]
      generalize borrowed ((digit c : Int) - borrow) = diff at *
      obtain ⟨front, out, eq, digits, size, sum⟩ := ih ha.2 AllDigits.nil (by simp) next
        (digitChar diff.1 :: result)
      refine ⟨front ++ [digitChar diff.1], out, by rw [eq]; simp, allDigits_concat digits small,
        by simp [size], ?_⟩
      rw [natural_digitChar small, natural_reverse_cons, List.length_cons, pow_succ,
        ← Nat.mul_assoc]
      simp only [List.reverse_nil, natural_nil] at sum ⊢
      generalize out * 10 ^ a.length = high at sum ⊢
      omega
    | cons d b =>
      rw [AllDigits.cons] at hb
      have smallD := digit_lt hb.1
      simp only [List.length_cons, Nat.add_le_add_iff_right] at length
      obtain ⟨value, small, next⟩ := @borrowed_eq ((digit c : Int) - borrow - digit d) (by omega)
        (by omega)
      rw [subtractIntegers]
      generalize borrowed ((digit c : Int) - borrow - digit d) = diff at *
      obtain ⟨front, out, eq, digits, size, sum⟩ := ih ha.2 hb.2 length next
        (digitChar diff.1 :: result)
      refine ⟨front ++ [digitChar diff.1], out, by rw [eq]; simp, allDigits_concat digits small,
        by simp [size], ?_⟩
      rw [natural_digitChar small, natural_reverse_cons, natural_reverse_cons, List.length_cons,
        pow_succ, ← Nat.mul_assoc]
      generalize out * 10 ^ a.length = high at sum ⊢
      omega

/-- The last borrow is paid for when the difference is not negative. -/
theorem subtractIntegers_exact {i j : Text} (hi : AllDigits i) (hj : AllDigits j)
    (length : j.length ≤ i.length) {borrow : Nat} (one : borrow ≤ 1)
    (enough : natural j + borrow ≤ natural i) :
    AllDigits (subtractIntegers i.reverse j.reverse borrow []) ∧
      (subtractIntegers i.reverse j.reverse borrow []).length = i.length ∧
      natural (subtractIntegers i.reverse j.reverse borrow []) + natural j + borrow =
        natural i := by
  obtain ⟨front, out, eq, digits, size, sum⟩ := subtractIntegers_difference
    (AllDigits.reverse.mpr hi) (AllDigits.reverse.mpr hj) (by simpa using length) one []
  simp only [List.append_nil, List.reverse_reverse, List.length_reverse] at *
  rw [eq]
  refine ⟨digits, size, ?_⟩
  have bound := natural_lt digits
  rw [size] at bound
  cases out with
  | zero => omega
  | succ out =>
    rw [Nat.add_mul] at sum
    omega

theorem subtractPositiveNumbers_writes {a b : Text} {u v : ℚ} (ha : Writes a u)
    (hb : Writes b v) (order : v ≤ u) : Writes (subtractPositiveNumbers a b) (u - v) := by
  obtain ⟨i, f, pa, rfl, rfl⟩ := ha
  obtain ⟨j, g, pb, rfl, rfl⟩ := hb
  unfold subtractPositiveNumbers
  simp only [numberParts_joined pa.integerDigits pa.trimmed.1,
    numberParts_joined pb.integerDigits pb.trimmed.1]
  generalize hm : max f.length g.length = m
  have sizeF := @padded_length f m (by omega)
  have sizeG := @padded_length g m (by omega)
  have power : (0 : ℚ) < 10 ^ m := by positivity
  obtain ⟨fraction, hf, digitsF, lengthF, one, sumF⟩ := @subtractFractions_difference
    (padded f m).reverse (padded g m).reverse (AllDigits.reverse.mpr (pa.fractionDigits.padded m))
    (AllDigits.reverse.mpr (pb.fractionDigits.padded m)) (by simp [sizeF, sizeG]) 0 (by omega) []
  generalize subtractFractions (padded f m).reverse (padded g m).reverse 0 [] = out at *
  simp only [List.append_nil, List.reverse_reverse, List.length_reverse, sizeF, Nat.add_zero]
    at hf lengthF sumF
  rw [hf]
  have split : ∀ n, decimal i f - decimal j g =
      (natural i - natural j - out.2 - n : ℚ) + (n + natural fraction / 10 ^ m) := by
    intro n
    have sumF : (natural fraction : ℚ) + natural (padded g m) =
        natural (padded f m) + out.2 * 10 ^ m := by exact_mod_cast sumF
    rw [← decimal_padded i f m, ← decimal_padded j g m, decimal_eq, decimal_eq, sizeF, sizeG]
    field_simp
    linarith
  have enough : natural j + out.2 ≤ natural i := by
    have small : (natural fraction : ℚ) / 10 ^ m < 1 := by
      rw [div_lt_one power, ← lengthF]
      exact_mod_cast natural_lt digitsF
    have positive := split 0
    by_contra less
    have less : (natural i : ℚ) + 1 ≤ natural j + out.2 := by
      exact_mod_cast Nat.lt_of_not_le less
    linarith
  have length : j.length ≤ i.length := by
    by_contra longer
    have := natural_lt_of_length_lt pa.integerDigits pb.integerDigits pb.trimmed pa.trimmed.1
      (Nat.lt_of_not_le longer)
    omega
  obtain ⟨digitsI, lengthI, sumI⟩ := subtractIntegers_exact pa.integerDigits pb.integerDigits
    length one enough
  generalize subtractIntegers i.reverse j.reverse out.2 [] = integer at *
  have nonempty : integer ≠ [] := by
    have := List.length_pos_iff.mpr pa.trimmed.1
    exact List.length_pos_iff.mp (by omega)
  have difference : decimal i f - decimal j g = decimal integer fraction := by
    have sumI : (natural integer : ℚ) + natural j + out.2 = natural i := by exact_mod_cast sumI
    rw [split (natural integer), decimal_eq, lengthF]
    linarith
  rw [difference]
  exact writes_combined digitsI digitsF nonempty

end Dross
