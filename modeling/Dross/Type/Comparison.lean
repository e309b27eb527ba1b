import Dross.Type.Canonicalization

/-!
# Comparing canonical text

`compare_numbers` looks at lengths and characters only. On canonical text that
is the order of the values, because neither a leading nor a trailing zero can
get in the way.
-/

namespace Dross

theorem decimal_cons (c : UInt8) (t : Text) :
    decimal [] (c :: t) = (digit c + decimal [] t) / 10 := by
  have power : (10 : ℚ) ^ t.length ≠ 0 := by positivity
  unfold decimal
  rw [List.nil_append, List.nil_append, natural_cons, List.length_cons, pow_succ]
  push_cast
  field_simp

theorem decimal_lt_one {t : Text} (h : AllDigits t) : decimal [] t < 1 := by
  have power : (0 : ℚ) < 10 ^ t.length := by positivity
  unfold decimal
  rw [div_lt_one power, List.nil_append]
  exact_mod_cast natural_lt h

theorem decimal_split (integer fraction : Text) :
    decimal integer fraction = natural integer + decimal [] fraction := by
  rw [decimal_eq integer fraction, decimal_eq [] fraction, natural_nil]
  simp

/-- The greater integer part decides. -/
theorem decimal_lt {i j f : Text} (less : natural i < natural j) (hf : AllDigits f) (g : Text) :
    decimal i f < decimal j g := by
  have small := decimal_lt_one hf
  have nonneg := decimal_nonneg [] g
  have step : (natural i : ℚ) + 1 ≤ natural j := by exact_mod_cast less
  rw [decimal_split, decimal_split j]
  linarith

theorem compareText_self (t : Text) : compareText t t = 0 := by
  induction t with
  | nil => rfl
  | cons c t ih => simp [compareText, ih]

/-- Comparing digits from the left never contradicts their values after a point. -/
theorem compareText_order {s t : Text} (hs : AllDigits s) (ht : AllDigits t) :
    (compareText s t = 0 ∧ s = t) ∨ (compareText s t = -1 ∧ decimal [] s ≤ decimal [] t) ∨
      (compareText s t = 1 ∧ decimal [] t ≤ decimal [] s) := by
  induction s generalizing t with
  | nil =>
    cases t with
    | nil => exact Or.inl ⟨rfl, rfl⟩
    | cons d t =>
      have zero : decimal [] [] = 0 := by simp [decimal]
      exact Or.inr (Or.inl ⟨rfl, by rw [zero]; exact decimal_nonneg _ _⟩)
  | cons c s ih =>
    cases t with
    | nil =>
      have zero : decimal [] [] = 0 := by simp [decimal]
      exact Or.inr (Or.inr ⟨rfl, by rw [zero]; exact decimal_nonneg _ _⟩)
    | cons d t =>
      rw [AllDigits.cons] at hs ht
      have boundC := isDigit_iff.mp hs.1
      have boundD := isDigit_iff.mp ht.1
      have first : ∀ {c d : UInt8} {s t : Text}, 48 ≤ c.toNat → AllDigits s → c < d →
          decimal [] (c :: s) ≤ decimal [] (d :: t) := by
        intro c d s t low hs less
        have small := decimal_lt_one hs
        have nonneg := decimal_nonneg [] t
        have digits : digit c + 1 ≤ digit d := by
          rw [UInt8.lt_iff_toNat_lt] at less
          unfold digit
          omega
        have digits : (digit c : ℚ) + 1 ≤ digit d := by exact_mod_cast digits
        rw [decimal_cons, decimal_cons]
        linarith
      by_cases less : c < d
      · exact Or.inr (Or.inl ⟨by simp [compareText, less], first boundC.1 hs.2 less⟩)
      by_cases greater : d < c
      · exact Or.inr (Or.inr ⟨by simp [compareText, less, greater], first boundD.1 ht.2 greater⟩)
      · have same : c = d := UInt8.le_antisymm (UInt8.not_lt.mp greater) (UInt8.not_lt.mp less)
        subst same
        simp only [compareText, if_neg less, decimal_cons, List.cons.injEq, true_and]
        rcases ih hs.2 ht.2 with h | h | h
        · exact Or.inl h
        · exact Or.inr (Or.inl ⟨h.1, by linarith⟩)
        · exact Or.inr (Or.inr ⟨h.1, by linarith⟩)

/-- Integer parts of one length, by their first characters that differ. -/
theorem compareText_natural {s t : Text} (hs : AllDigits s) (ht : AllDigits t)
    (length : s.length = t.length) :
    (compareText s t = 0 ∧ s = t) ∨ (compareText s t = -1 ∧ natural s < natural t) ∨
      (compareText s t = 1 ∧ natural t < natural s) := by
  have power : (0 : ℚ) < 10 ^ t.length := by positivity
  have scaled : ∀ {s t : Text}, AllDigits s → AllDigits t → s.length = t.length →
      compareText s t ≠ 0 → decimal [] s ≤ decimal [] t → natural s < natural t := by
    intro s t hs ht length differ less
    have power : (0 : ℚ) < 10 ^ t.length := by positivity
    unfold decimal at less
    rw [length, div_le_div_iff_of_pos_right power, List.nil_append, List.nil_append] at less
    refine Nat.lt_of_le_of_ne (by exact_mod_cast less) ?_
    intro same
    apply differ
    rw [natural_injective hs ht length same]
    exact compareText_self t
  rcases compareText_order hs ht with h | h | h
  · exact Or.inl h
  · exact Or.inr (Or.inl ⟨h.1, scaled hs ht length (by omega) h.2⟩)
  · refine Or.inr (Or.inr ⟨h.1, scaled ht hs length.symm ?_ h.2⟩)
    intro zero
    rcases compareText_order ht hs with k | k | k
    · rw [k.2, compareText_self] at h
      omega
    · omega
    · omega

theorem joined_tail {integer fraction : Text} (hi : AllDigits integer) :
    (joined integer fraction).dropWhile (fun c => ! c == ch '.') =
      if fraction.isEmpty then [] else ch '.' :: fraction := by
  unfold joined
  split
  · have all := @Span.dropWhile_stop _ (fun c => ! c == ch '.') integer [] (not_point hi) (by simp)
    rwa [List.append_nil] at all
  · refine Span.dropWhile_stop (not_point hi) ?_
    intro c first
    cases first
    rfl

theorem compareText_fractions {f g : Text} (hf : AllDigits f) (hg : AllDigits g) :
    let cmp := compareText (if f.isEmpty then [] else ch '.' :: f)
      (if g.isEmpty then [] else ch '.' :: g)
    (cmp = 0 ∧ f = g) ∨ (cmp = -1 ∧ decimal [] f ≤ decimal [] g) ∨
      (cmp = 1 ∧ decimal [] g ≤ decimal [] f) := by
  have order := compareText_order hf hg
  cases f <;> cases g
  · exact order
  · exact order
  · exact order
  · have point : ¬ ch '.' < ch '.' := by decide
    simpa [compareText, point] using order

theorem Writes.positive {t : Text} {v : ℚ} (h : Writes t v) :
    (t.head? == some (ch '-')) = false := by
  obtain ⟨i, f, parts, rfl, _⟩ := h
  have split := @numberParts_joined i f parts.integerDigits parts.trimmed.1
  exact congrArg NumberParts.negative split

/-- What `compare_numbers` returns is the order of the values. -/
theorem compareNumbers_order {a b : Text} {u v : ℚ} (ha : Writes a u) (hb : Writes b v) :
    (compareNumbers a b = 0 ∧ u = v) ∨ (compareNumbers a b = -1 ∧ u < v) ∨
      (compareNumbers a b = 1 ∧ v < u) := by
  have positiveA := ha.positive
  have positiveB := hb.positive
  -- the weak order, from which equal values fall out as equal texts
  have weak : (compareNumbers a b = 0 ∧ u = v) ∨ (compareNumbers a b = -1 ∧ u ≤ v) ∨
      (compareNumbers a b = 1 ∧ v ≤ u) := by
    obtain ⟨i, f, pa, rfl, rfl⟩ := ha
    obtain ⟨j, g, pb, rfl, rfl⟩ := hb
    unfold compareNumbers
    simp only [positiveA, positiveB, bne_self_eq_false, Bool.false_eq_true, if_false,
      @beforePoint_joined i f pa.integerDigits, @beforePoint_joined j g pb.integerDigits,
      @joined_tail i f pa.integerDigits, @joined_tail j g pb.integerDigits]
    rcases Nat.lt_trichotomy i.length j.length with shorter | length | longer
    · rw [if_pos (by omega), if_pos shorter]
      have less := natural_lt_of_length_lt pa.integerDigits pb.integerDigits pb.trimmed
        pa.trimmed.1 shorter
      exact Or.inr (Or.inl ⟨rfl, (decimal_lt less pa.fractionDigits g).le⟩)
    · rw [if_neg (by omega)]
      rcases compareText_natural pa.integerDigits pb.integerDigits length with h | h | h
      · obtain ⟨zero, rfl⟩ := h
        rw [if_neg (by omega), decimal_split i f, decimal_split i g]
        rcases compareText_fractions pa.fractionDigits pb.fractionDigits with h | h | h
        · rw [if_neg (by omega), h.2]
          exact Or.inl ⟨rfl, rfl⟩
        · rw [if_pos (by omega), if_pos (by omega)]
          exact Or.inr (Or.inl ⟨rfl, by linarith⟩)
        · rw [if_pos (by omega), if_neg (by omega)]
          exact Or.inr (Or.inr ⟨rfl, by linarith⟩)
      · rw [if_pos (by omega), if_pos (by omega)]
        exact Or.inr (Or.inl ⟨rfl, (decimal_lt h.2 pa.fractionDigits g).le⟩)
      · rw [if_pos (by omega), if_neg (by omega)]
        exact Or.inr (Or.inr ⟨rfl, (decimal_lt h.2 pb.fractionDigits f).le⟩)
    · rw [if_pos (by omega), if_neg (by omega)]
      have less := natural_lt_of_length_lt pb.integerDigits pa.integerDigits pa.trimmed
        pb.trimmed.1 longer
      exact Or.inr (Or.inr ⟨rfl, (decimal_lt less pb.fractionDigits f).le⟩)
  have self : u = v → compareNumbers a b = 0 := by
    intro same
    rw [ha.unique hb same]
    unfold compareNumbers
    simp [compareText_self]
  rcases weak with h | h | h
  · exact Or.inl h
  · exact Or.inr (Or.inl ⟨h.1, lt_of_le_of_ne h.2 (fun same => by have := self same; omega)⟩)
  · exact Or.inr (Or.inr ⟨h.1, lt_of_le_of_ne h.2 (fun same => by
      have := self same.symm
      omega)⟩)

end Dross
