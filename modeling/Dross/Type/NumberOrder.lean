import Dross.Type.Number
import Mathlib.Data.Sign.Basic
import Mathlib.Order.WithBot

/-!
# The order of numbers

Texts are compared as strings, integer length first. As every stored text is canonical
this is the order of the rationals, with the one NaN below them.
-/

namespace Dross

theorem compareNumbers_signed {m n : Text} {u v : ℚ} (hm : Writes m u) (hn : Writes n v)
    (negative : Bool) : compareNumbers (signed negative m) (signed negative n) =
      if negative then -compareNumbers m n else compareNumbers m n := by
  cases negative with
  | false => rfl
  | true =>
    unfold compareNumbers
    simp only [hm.positive, hn.positive, signed, if_true, List.head?_cons, beq_self_eq_true,
      bne_self_eq_false, Bool.false_eq_true, if_false, List.drop_succ_cons, List.drop_zero]

/-- What `compare_numbers` returns is the order of the values, signs included. -/
theorem Canonical.compareNumbers {a b : Text} (ha : Canonical a) (hb : Canonical b) :
    (Dross.compareNumbers a b = 0 ∧ textValue a = textValue b) ∨
      (Dross.compareNumbers a b = -1 ∧ textValue a < textValue b) ∨
        (Dross.compareNumbers a b = 1 ∧ textValue b < textValue a) := by
  obtain ⟨negA, m, u, hm, nonzeroA, rfl, valueA⟩ := ha.magnitude
  obtain ⟨negB, n, v, hn, nonzeroB, rfl, valueB⟩ := hb.magnitude
  have headA := hm.signed_head negA
  have headB := hn.signed_head negB
  have nonnegU := hm.nonneg
  have nonnegV := hn.nonneg
  have order := compareNumbers_order hm hn
  rw [valueA, valueB]
  cases negA with
  | false =>
    cases negB with
    | false => simpa [signed] using order
    | true =>
      have positive : 0 < v := lt_of_le_of_ne nonnegV (nonzeroB rfl).symm
      have sign : Dross.compareNumbers (signed false m) (signed true n) = 1 := by
        simp [Dross.compareNumbers, headA, headB]
      refine Or.inr (Or.inr ⟨sign, ?_⟩)
      simp only [if_true, Bool.false_eq_true, if_false]
      linarith
  | true =>
    cases negB with
    | false =>
      have positive : 0 < u := lt_of_le_of_ne nonnegU (nonzeroA rfl).symm
      have sign : Dross.compareNumbers (signed true m) (signed false n) = -1 := by
        simp [Dross.compareNumbers, headA, headB]
      refine Or.inr (Or.inl ⟨sign, ?_⟩)
      simp only [if_true, Bool.false_eq_true, if_false]
      linarith
    | true =>
      rw [compareNumbers_signed hm hn true]
      simp only [if_true]
      rcases order with ⟨cmp, same⟩ | ⟨cmp, less⟩ | ⟨cmp, less⟩
      · exact Or.inl ⟨by omega, by rw [same]⟩
      · exact Or.inr (Or.inr ⟨by omega, by linarith⟩)
      · exact Or.inr (Or.inl ⟨by omega, by linarith⟩)

theorem Canonical.valid {t : Text} (h : Canonical t) : isValidNumber t = true := by
  obtain ⟨s, -, rfl, -⟩ := h.spelling
  exact s.valid

namespace Number

/-- `number::compare`, as a sign. -/
def compare (a b : Number) : Int :=
  let valid1 := isValidNumber a.number
  let valid2 := isValidNumber b.number
  if ! valid1 || ! valid2 then
    if ! valid1 && ! valid2 then 0 else if valid1 then 1 else -1
  else compareNumbers a.number b.number

/-- `==` -/
def equals (a b : Number) : Bool :=
  if ! isValidNumber a.number || ! isValidNumber b.number then
    ! isValidNumber a.number && ! isValidNumber b.number
  else compareNumbers a.number b.number == 0

/-- Where a number stands among the others: at its value, or below all of them. -/
def rank (n : Number) : WithBot ℚ := if n.isNan then ⊥ else n.value

theorem valid_iff (n : Number) : isValidNumber n.number = ! n.isNan := by
  cases nan : n.isNan with
  | false => exact (canonical_of nan).valid
  | true =>
    rw [isNan_iff.mp nan]
    decide

theorem equals_compare (a b : Number) : a.equals b = (a.compare b == 0) := by
  unfold equals compare
  cases isValidNumber a.number <;> cases isValidNumber b.number <;> rfl

/-- `compare` is the order of the ranks. -/
theorem compare_rank (a b : Number) :
    (a.compare b = 0 ∧ a.rank = b.rank) ∨ (a.compare b = -1 ∧ a.rank < b.rank) ∨
      (a.compare b = 1 ∧ b.rank < a.rank) := by
  unfold compare rank
  simp only [valid_iff, Bool.not_not]
  cases nanA : a.isNan with
  | true =>
    cases nanB : b.isNan with
    | true => exact Or.inl ⟨rfl, rfl⟩
    | false => exact Or.inr (Or.inl ⟨rfl, WithBot.bot_lt_coe _⟩)
  | false =>
    cases nanB : b.isNan with
    | true => exact Or.inr (Or.inr ⟨rfl, WithBot.bot_lt_coe _⟩)
    | false =>
      have order := (canonical_of nanA).compareNumbers (canonical_of nanB)
      simpa [value, WithBot.coe_lt_coe] using order

theorem compare_lt {a b : Number} : a.compare b < 0 ↔ a.rank < b.rank := by
  rcases a.compare_rank b with ⟨cmp, same⟩ | ⟨cmp, less⟩ | ⟨cmp, more⟩
  · simp [cmp, same]
  · simp [cmp, less]
  · simp [cmp, more.le]

theorem compare_eq {a b : Number} : a.compare b = 0 ↔ a.rank = b.rank := by
  rcases a.compare_rank b with ⟨cmp, same⟩ | ⟨cmp, less⟩ | ⟨cmp, more⟩
  · simp [cmp, same]
  · simp [cmp, less.ne]
  · simp [cmp, more.ne']

theorem compare_le {a b : Number} : a.compare b ≤ 0 ↔ a.rank ≤ b.rank := by
  rw [le_iff_lt_or_eq, le_iff_lt_or_eq, compare_lt, compare_eq]

theorem compare_swap (a b : Number) : b.compare a = -a.compare b := by
  rcases a.compare_rank b with ⟨cmp, same⟩ | ⟨cmp, less⟩ | ⟨cmp, more⟩
  · rw [cmp, compare_eq.mpr same.symm, neg_zero]
  · rcases b.compare_rank a with ⟨_, same⟩ | ⟨_, more⟩ | ⟨cmp', _⟩
    · exact absurd same less.ne'
    · exact absurd more less.asymm
    · rw [cmp, cmp', neg_neg]
  · rw [cmp]
    rcases b.compare_rank a with ⟨_, same⟩ | ⟨cmp', _⟩ | ⟨_, less⟩
    · exact absurd same more.ne
    · exact cmp'
    · exact absurd less more.asymm

theorem rank_number {n : Number} (h : n.isNan = false) : n.rank = n.value := by simp [rank, h]

theorem rank_nan {n : Number} (h : n.isNan = true) : n.rank = ⊥ := by simp [rank, h]

/-- One rank is one text. -/
theorem rank_eq {a b : Number} : a.rank = b.rank ↔ a.number = b.number := by
  constructor
  · intro same
    cases nanA : a.isNan with
    | true =>
      cases nanB : b.isNan with
      | true => rw [isNan_iff.mp nanA, isNan_iff.mp nanB]
      | false =>
        rw [rank_nan nanA, rank_number nanB] at same
        exact absurd same.symm WithBot.coe_ne_bot
    | false =>
      cases nanB : b.isNan with
      | true =>
        rw [rank_number nanA, rank_nan nanB] at same
        exact absurd same WithBot.coe_ne_bot
      | false =>
        rw [rank_number nanA, rank_number nanB, WithBot.coe_inj] at same
        exact (canonical_of nanA).unique (canonical_of nanB) same
  · intro same
    unfold rank isNan value
    rw [same]

theorem equals_iff_number {a b : Number} : a.equals b = true ↔ a.number = b.number := by
  rw [equals_compare, beq_iff_eq, compare_eq, rank_eq]

/-- A difference is exact, and has the sign of the comparison. -/
theorem compare_difference {a b : Number} (notA : a.isNan = false) (notB : b.isNan = false) :
    ∃ d, a.calculate b .minus = some d ∧ d.isNan = false ∧
      a.compare b = (SignType.sign d.value : Int) := by
  obtain ⟨d, difference, exactly'⟩ := ((exact_arithmetic a b).1 notA notB).2.1
  refine ⟨d, difference, beq_eq_false_iff_ne.mpr exactly'.canonical.ne_nan, ?_⟩
  have order := a.compare_rank b
  rw [rank_number notA, rank_number notB, WithBot.coe_inj, WithBot.coe_lt_coe,
    WithBot.coe_lt_coe] at order
  rw [exactly'.value_eq]
  rcases order with ⟨cmp, same⟩ | ⟨cmp, less⟩ | ⟨cmp, more⟩
  · rw [cmp, same, sub_self, sign_zero]
    rfl
  · rw [cmp, sign_neg (by linarith)]
    rfl
  · rw [cmp, sign_pos (by linarith)]
    rfl

/-- Comparison is a total preorder with the one NaN at its bottom, and above it the order
of the values; what is equal in it is one text. -/
theorem compare_orders (a b c : Number) :
    (a.compare a = 0 ∧ (a.compare b ≤ 0 → b.compare c ≤ 0 → a.compare c ≤ 0) ∧
      (a.compare b ≤ 0 ∨ b.compare a ≤ 0) ∧
      (a.compare b ≤ 0 → b.compare a ≤ 0 → a.compare b = 0) ∧ b.compare a = -a.compare b) ∧
    (a.isNan = true → a.compare b = if b.isNan then 0 else -1) ∧
    (a.equals b = true ↔ a.number = b.number) ∧
    (a.isNan = false → b.isNan = false →
      (a.compare b < 0 ↔ a.value < b.value) ∧ (a.compare b = 0 ↔ a.value = b.value) ∧
        (a.compare b > 0 ↔ b.value < a.value) ∧
        ∃ d, a.calculate b .minus = some d ∧ d.isNan = false ∧
          a.compare b = (SignType.sign d.value : Int)) := by
  refine ⟨⟨compare_eq.mpr rfl, ?_, ?_, ?_, compare_swap a b⟩, ?_, equals_iff_number, ?_⟩
  · rw [compare_le, compare_le, compare_le]
    exact le_trans
  · rw [compare_le, compare_le]
    exact le_total _ _
  · rw [compare_le, compare_le, compare_eq]
    exact le_antisymm
  · intro nan
    unfold compare
    rw [valid_iff, valid_iff, nan]
    cases b.isNan <;> rfl
  · intro notA notB
    refine ⟨?_, ?_, ?_, compare_difference notA notB⟩
    · rw [compare_lt, rank_number notA, rank_number notB, WithBot.coe_lt_coe]
    · rw [compare_eq, rank_number notA, rank_number notB, WithBot.coe_inj]
    · rw [gt_iff_lt, ← neg_neg_iff_pos, ← compare_swap, compare_lt, rank_number notA,
        rank_number notB, WithBot.coe_lt_coe]

/-- -0.5 below 12, as numbers of different lengths and signs. -/
theorem compare_orders_mixed :
    ((ofText ("-0.5".toList.map ch)).compare (ofText ("12".toList.map ch)) < 0 ↔
      (ofText ("-0.5".toList.map ch)).value < (ofText ("12".toList.map ch)).value) ∧
    ((ofText ("five".toList.map ch)).compare (ofText ("12".toList.map ch)) = -1) :=
  ⟨((compare_orders (ofText ("-0.5".toList.map ch)) (ofText ("12".toList.map ch))
      (ofText ("12".toList.map ch))).2.2.2 (by decide) (by decide)).1,
    (compare_orders (ofText ("five".toList.map ch)) (ofText ("12".toList.map ch))
      (ofText ("12".toList.map ch))).2.1 (by decide)⟩

end Number

end Dross
