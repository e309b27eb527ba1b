import Mathlib.Tactic.Common

/-!
# Loops given turns

A loop that may take so many turns. Each turn leaves with a result or goes on at a state
nearer the end, so it never needs more turns than there are states between.
-/

namespace Turns

variable {σ ρ : Type} {loop : Nat → σ → ρ} {measure : σ → Nat} {Good : σ → ρ → Prop} {s : σ}

/-- The loop leaves at this state. -/
def Leaves (loop : Nat → σ → ρ) (s : σ) (r : ρ) : Prop := ∀ n, loop (n + 1) s = r

/-- The loop goes on at another state, and completes what that comes to. -/
def GoesOn (loop : Nat → σ → ρ) (s t : σ) (complete : ρ → ρ) : Prop :=
  ∀ n, loop (n + 1) s = complete (loop n t)

/-- Every turn leaves with a good result, or goes on nearer the end and keeps results good. -/
def Progressive (loop : Nat → σ → ρ) (measure : σ → Nat) (Good : σ → ρ → Prop) : Prop :=
  ∀ s, (∃ r, Leaves loop s r ∧ Good s r) ∨ ∃ t complete, measure t < measure s ∧
    GoesOn loop s t complete ∧ ∀ r, Good t r → Good s (complete r)

namespace Progressive

theorem good (h : Progressive loop measure Good) {n : Nat} (enough : measure s < n) :
    Good s (loop n s) := by
  induction n generalizing s with
  | zero => exact absurd enough (Nat.not_lt_zero _)
  | succ n ih =>
    rcases h s with ⟨r, leaves, good⟩ | ⟨t, complete, nearer, goesOn, keeps⟩
    · rw [leaves n]
      exact good
    · rw [goesOn n]
      exact keeps _ (ih (by omega))

end Progressive

end Turns
