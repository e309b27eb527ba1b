import Mathlib.Logic.Relation
import Mathlib.Tactic.Push

/-!
# Transition systems

States, one relation for a step, and what holds of every run. An invariant is
proved once for the initial states and once for a step.
-/

namespace Transition

universe u
variable {State : Type u}

/-- The states some run from an initial state ends in. -/
def Reachable (init : State → Prop) (step : State → State → Prop) (s : State) : Prop :=
  ∃ s₀, init s₀ ∧ Relation.ReflTransGen step s₀ s

variable {init : State → Prop} {step : State → State → Prop}

theorem Reachable.start {s : State} (h : init s) : Reachable init step s :=
  ⟨s, h, .refl⟩

theorem Reachable.next {s t : State} (hs : Reachable init step s) (ht : step s t) :
    Reachable init step t := by
  obtain ⟨s₀, h₀, run⟩ := hs
  exact ⟨s₀, h₀, run.tail ht⟩

theorem Reachable.later {s t : State} (hs : Reachable init step s)
    (run : Relation.ReflTransGen step s t) : Reachable init step t := by
  obtain ⟨s₀, h₀, run₀⟩ := hs
  exact ⟨s₀, h₀, run₀.trans run⟩

/-- What a step preserves, a run preserves. -/
theorem preserved {P : State → Prop} (keeps : ∀ s t, P s → step s t → P t) {s t : State}
    (hs : P s) (run : Relation.ReflTransGen step s t) : P t := by
  induction run with
  | refl => exact hs
  | tail _ he ih => exact keeps _ _ ih he

theorem Reachable.invariant {P : State → Prop} (holds : ∀ s, init s → P s)
    (keeps : ∀ s t, P s → step s t → P t) {s : State} (hs : Reachable init step s) : P s := by
  obtain ⟨s₀, h₀, run⟩ := hs
  exact preserved keeps (holds s₀ h₀) run

/-- With more steps there are more runs. -/
theorem Reachable.mono {step' : State → State → Prop} (more : ∀ s t, step s t → step' s t)
    {s : State} (hs : Reachable init step s) : Reachable init step' s := by
  obtain ⟨s₀, h₀, run⟩ := hs
  refine ⟨s₀, h₀, ?_⟩
  induction run with
  | refl => exact .refl
  | tail _ he ih => exact ih.tail (more _ _ he)

/-- Where each step shows as a step of another system, or as none, what a run reaches shows as
what a run of that system reaches. -/
theorem Reachable.shown {Shown : Type*} {init' : Shown → Prop} {step' : Shown → Shown → Prop}
    {P : State → Prop} (view : State → Shown)
    (starts : ∀ s, init s → P s ∧ init' (view s))
    (steps : ∀ s t, P s → Reachable init' step' (view s) → step s t →
      P t ∧ (view t = view s ∨ step' (view s) (view t)))
    {s : State} (hs : Reachable init step s) : P s ∧ Reachable init' step' (view s) := by
  refine hs.invariant (P := fun s => P s ∧ Reachable init' step' (view s))
    (fun s start => ?_) fun s t before step => ?_
  · obtain ⟨holds, start'⟩ := starts s start
    exact ⟨holds, Reachable.start start'⟩
  · obtain ⟨holds, same | above⟩ := steps s t before.1 before.2 step
    · exact ⟨holds, same ▸ before.2⟩
    · exact ⟨holds, before.2.next above⟩

/-- So many steps, one after another. -/
inductive Steps (step : State → State → Prop) : Nat → State → State → Prop
  | none (s : State) : Steps step 0 s s
  | more {n : Nat} {s t u : State} (steps : Steps step n s t) (last : step t u) :
      Steps step (n + 1) s u

variable {measure : State → Nat} {P : State → Prop}

/-- Where each step brings a measure down, there are no more steps than that allows. -/
theorem Steps.fewer (falls : ∀ s t, P s → step s t → P t ∧ measure t < measure s)
    {n : Nat} {s t : State} (hs : P s) (steps : Steps step n s t) :
    P t ∧ measure t + n ≤ measure s := by
  induction steps with
  | none => exact ⟨hs, Nat.le_refl _⟩
  | more _ last ih =>
    obtain ⟨before, fewer⟩ := ih hs
    obtain ⟨after, less⟩ := falls _ _ before last
    exact ⟨after, by omega⟩

/-- And every run comes to where there is no step more. -/
theorem rests (falls : ∀ s t, P s → step s t → P t ∧ measure t < measure s) {s : State}
    (hs : P s) : ∃ t, Relation.ReflTransGen step s t ∧ ∀ u, ¬ step t u := by
  induction size : measure s using Nat.strongRecOn generalizing s with
  | ind n ih =>
    by_cases stuck : ∀ u, ¬ step s u
    · exact ⟨s, .refl, stuck⟩
    · push Not at stuck
      obtain ⟨t, first⟩ := stuck
      obtain ⟨after, less⟩ := falls s t hs first
      obtain ⟨u, run, last⟩ := ih (measure t) (size ▸ less) after rfl
      exact ⟨u, run.head first, last⟩

end Transition
