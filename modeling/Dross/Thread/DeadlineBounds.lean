import Dross.Library.MachineInt
import Dross.Thread.TimerSchedule

/-!
# Bounds of deadlines

A timeout is compared with the room that is left before the end of the clock, rounded
down to milliseconds. No sum is formed that might not fit.
-/

namespace Dross

open MachineInt

namespace Deadline

/-- `deadline::after` with each of its operations in 64 bits. -/
def afterChecked (base : TimePoint) (timeout : Int) : Option TimePoint :=
  if timeout ≤ 0 then some base
  else do
    let limit ← checked 64 (noDeadline - 1)
    let headroom ← checked 64 (limit - base)
    let room ← checked 64 (headroom.tdiv 1000000)
    if timeout < room then
      let nanoseconds ← checked 64 (nanoseconds timeout)
      checked 64 (base + nanoseconds)
    else some limit

section Bounds

variable {base timeout : Int}

theorem long_of_between {x : Int} (low : 0 ≤ x) (high : x ≤ noDeadline) : InWidth 64 x := by
  have limit : x ≤ 9223372036854775807 := high
  constructor <;> omega

/-- The whole milliseconds that are left. -/
theorem room_iff (below : base ≤ noDeadline - 1) {t : Int} :
    t ≤ (noDeadline - 1 - base).tdiv 1000000 ↔ nanoseconds t ≤ noDeadline - 1 - base := by
  rw [Int.tdiv_eq_ediv_of_nonneg (by omega), Int.le_ediv_iff_mul_le (by decide), nanoseconds]

theorem after_nonpositive (none : timeout ≤ 0) : after base timeout = base := if_pos none

theorem after_positive (some : 0 < timeout) : after base timeout =
    if timeout < (noDeadline - 1 - base).tdiv 1000000 then base + nanoseconds timeout
    else noDeadline - 1 := if_neg (by omega)

/-- A timeout that leaves a millisecond is kept. -/
theorem after_exact (below : base ≤ noDeadline - 1) (some : 0 < timeout)
    (fits : base + nanoseconds timeout ≤ noDeadline - 1 - 1000000) :
    after base timeout = base + nanoseconds timeout := by
  have inside : timeout + 1 ≤ (noDeadline - 1 - base).tdiv 1000000 := by
    rw [room_iff below]
    simp only [nanoseconds] at fits ⊢
    omega
  rw [after_positive some, if_pos (Int.lt_of_add_one_le inside)]

theorem after_cases (below : base ≤ noDeadline - 1) (some : 0 < timeout) :
    after base timeout = base + nanoseconds timeout ∧ base + nanoseconds timeout ≤ noDeadline - 1 ∨
      after base timeout = noDeadline - 1 := by
  rw [after_positive some]
  split
  · rename_i inside
    have fits := (room_iff below).mp inside.le
    exact Or.inl ⟨rfl, by omega⟩
  · exact Or.inr rfl

theorem after_between (below : base ≤ noDeadline - 1) (timeout : Int) :
    base ≤ after base timeout ∧ after base timeout ≤ noDeadline - 1 := by
  rcases le_or_gt timeout 0 with none | some
  · rw [after_nonpositive none]
    exact ⟨le_rfl, below⟩
  · rcases after_cases below some with ⟨same, fits⟩ | clamped
    · rw [same]
      simp only [nanoseconds] at fits ⊢
      exact ⟨by omega, fits⟩
    · rw [clamped]
      exact ⟨below, le_rfl⟩

theorem after_least (below : base ≤ noDeadline - 1) (some : 0 < timeout) :
    min (base + nanoseconds timeout) (noDeadline - 1) ≤ after base timeout := by
  rcases after_cases below some with ⟨same, -⟩ | clamped
  · rw [same]
    exact min_le_left _ _
  · rw [clamped]
    exact min_le_right _ _

theorem after_mono (below : base ≤ noDeadline - 1) {later : Int} (order : timeout ≤ later) :
    after base timeout ≤ after base later := by
  rcases le_or_gt timeout 0 with none | some
  · rw [after_nonpositive none]
    exact (after_between below later).1
  · rw [after_positive some, after_positive (some.trans_le order)]
    split
    · rename_i inside
      split
      · have scaled : nanoseconds timeout ≤ nanoseconds later := by
          simp only [nanoseconds]
          omega
        exact Int.add_le_add_left scaled base
      · have fits := (room_iff below).mp inside.le
        exact Int.add_le_of_le_sub_left fits
    · rw [if_neg (by omega)]

/-- No operation of `deadline::after` overflows. -/
theorem afterChecked_eq (nonneg : 0 ≤ base) (below : base ≤ noDeadline - 1) (timeout : Int) :
    afterChecked base timeout = some (after base timeout) := by
  rcases le_or_gt timeout 0 with none | some
  · rw [afterChecked, if_pos none, after_nonpositive none]
  · have limit : InWidth 64 (noDeadline - 1) := by decide
    have headroom : InWidth 64 (noDeadline - 1 - base) := long_of_between (by omega) (by omega)
    have room : InWidth 64 ((noDeadline - 1 - base).tdiv 1000000) :=
      headroom.tdiv (by decide) (by decide)
    rw [afterChecked, if_neg (by omega), after_positive some]
    simp only [checked_eq limit, checked_eq headroom, checked_eq room, Option.bind_eq_bind,
      Option.bind_some]
    split
    · rename_i inside
      have fits := (room_iff below).mp inside.le
      have positive : 0 < nanoseconds timeout := by
        simp only [nanoseconds]
        omega
      have sum : InWidth 64 (base + nanoseconds timeout) := long_of_between (by omega) (by omega)
      rw [checked_eq (long_of_between positive.le (by omega)), Option.bind_some, checked_eq sum]
    · rfl

/-- What `deadline::after` gives, whatever the timeout. -/
theorem after_bounds (nonneg : 0 ≤ base) (below : base ≤ noDeadline - 1) :
    afterChecked base timeout = some (after base timeout) ∧
      (timeout ≤ 0 → after base timeout = base) ∧
      (base ≤ after base timeout ∧ after base timeout ≤ noDeadline - 1) ∧
      (0 < timeout → base + nanoseconds timeout ≤ noDeadline - 1 - 1000000 →
        after base timeout = base + nanoseconds timeout) ∧
      (0 < timeout → min (base + nanoseconds timeout) (noDeadline - 1) ≤ after base timeout) ∧
      ∀ later, timeout ≤ later → after base timeout ≤ after base later :=
  ⟨afterChecked_eq nonneg below timeout, after_nonpositive, after_between below timeout,
    after_exact below, after_least below, fun _ order => after_mono below order⟩

/-- A millisecond and a nanosecond before the end, a millisecond is clamped to it. -/
theorem after_bounds_last :
    afterChecked (noDeadline - 1000001) 1 = some (after (noDeadline - 1000001) 1) ∧
      after (noDeadline - 1000001) 1 = noDeadline - 1 := by
  have bounds := @after_bounds (noDeadline - 1000001) 1 (by decide) (by decide)
  exact ⟨bounds.1, by decide⟩

end Bounds

end Deadline

end Dross
