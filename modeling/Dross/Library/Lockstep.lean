import Mathlib.Tactic.Common

/-!
# Two runs side by side

Two readers that start from states which are near each other agree where both fail, or
both give the same result and stay near. A run that has spent the turns it was given
tells nothing, so it agrees with any other.
-/

namespace Lockstep

variable {ε α β σ : Type} {near : σ → σ → Prop} {spent : ε}

inductive Agree (near : σ → σ → Prop) (spent : ε) :
    Except ε (α × σ) → Except ε (α × σ) → Prop
  | left {r} : Agree near spent (.error spent) r
  | right {r} : Agree near spent r (.error spent)
  | failed {e e'} : Agree near spent (.error e) (.error e')
  | ok {a s s'} (still : near s s') : Agree near spent (.ok (a, s)) (.ok (a, s'))

namespace Agree

variable {q q' r r' : Except ε (α × σ)}

/-- The same branch of both runs is taken. -/
theorem ite {p p' : Prop} [Decidable p] [Decidable p'] (same : p' ↔ p)
    (yes : p → Agree near spent q q') (no : ¬ p → Agree near spent r r') :
    Agree near spent (if p then q else r) (if p' then q' else r') := by
  by_cases h : p
  · rw [if_pos h, if_pos (same.mpr h)]
    exact yes h
  · rw [if_neg h, if_neg (fun h' => h (same.mp h'))]
    exact no h

theorem map (h : Agree near spent r r') (f : α → β) :
    Agree near spent (r.map (fun read => (f read.1, read.2)))
      (r'.map (fun read => (f read.1, read.2))) := by
  cases h with
  | left => exact .left
  | right => exact .right
  | failed => exact .failed
  | ok still => exact .ok still

/-- Runs that have turns left both fail, or both give the same. -/
theorem outcomes (h : Agree near spent r r') (turns : r ≠ .error spent)
    (turns' : r' ≠ .error spent) :
    (∃ e e', r = .error e ∧ r' = .error e') ∨
      ∃ a s s', r = .ok (a, s) ∧ r' = .ok (a, s') ∧ near s s' := by
  cases h with
  | left => exact absurd rfl turns
  | right => exact absurd rfl turns'
  | failed => exact Or.inl ⟨_, _, rfl, rfl⟩
  | ok still => exact Or.inr ⟨_, _, _, rfl, rfl, still⟩

end Agree

end Lockstep
