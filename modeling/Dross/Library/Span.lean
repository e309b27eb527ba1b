import Mathlib.Data.List.TakeWhile
import Mathlib.Data.List.DropRight

/-!
# Spans

Where a list is read up to the first element a predicate refuses, what was read
and what is left are known as soon as the refused element is.
-/

namespace Span

universe u
variable {α : Type u} {p : α → Bool}

theorem takeWhile_stop {l r : List α} (all : ∀ x ∈ l, p x = true)
    (stop : ∀ x, r.head? = some x → p x = false) : (l ++ r).takeWhile p = l := by
  rw [List.takeWhile_append_of_pos all]
  cases r with
  | nil => simp
  | cons x r => simp [stop x rfl]

theorem dropWhile_stop {l r : List α} (all : ∀ x ∈ l, p x = true)
    (stop : ∀ x, r.head? = some x → p x = false) : (l ++ r).dropWhile p = r := by
  rw [List.dropWhile_append_of_pos all]
  cases r with
  | nil => simp
  | cons x r => simp [stop x rfl]

theorem dropWhile_head {l : List α} {x : α} (h : (l.dropWhile p).head? = some x) :
    p x = false := by
  have stops := List.head?_dropWhile_not p l
  rw [h] at stops
  simpa using stops

theorem takeWhile_all {l : List α} : ∀ x ∈ l.takeWhile p, p x = true :=
  fun _ mem => List.mem_takeWhile_imp mem

/-- What a span from the back leaves out is a run of what the predicate takes. -/
theorem rdropWhile_append (l : List α) :
    ∃ r, l = l.rdropWhile p ++ r ∧ ∀ x ∈ r, p x = true := by
  induction l using List.reverseRecOn with
  | nil => exact ⟨[], by simp, by simp⟩
  | append_singleton l x ih =>
    by_cases hx : p x = true
    · obtain ⟨r, eq, all⟩ := ih
      refine ⟨r ++ [x], ?_, ?_⟩
      · rw [List.rdropWhile_concat_pos p l x hx, ← List.append_assoc, ← eq]
      · intro y mem
        rcases List.mem_append.mp mem with mem | mem
        · exact all y mem
        · rw [List.mem_singleton.mp mem]
          exact hx
    · exact ⟨[], by rw [List.rdropWhile_concat_neg p l x hx, List.append_nil], by simp⟩

theorem rdropWhile_getLast {l : List α} {x : α} (h : (l.rdropWhile p).getLast? = some x) :
    p x = false := by
  have nonempty : l.rdropWhile p ≠ [] := by
    intro empty
    simp [empty] at h
  have stops := List.rdropWhile_last_not p l nonempty
  rw [List.getLast?_eq_some_getLast nonempty] at h
  rw [Option.some.inj h] at stops
  simpa using stops

end Span
