import Mathlib.Order.MinMax

/-!
# Timers on a loop

The schedule a run loop keeps of its timers. Time points are nanoseconds, and
none is read from a clock here: every one comes in as an argument.
-/

namespace Dross

abbrev TimePoint := Int

/-- `steady_clock::time_point::max()`, which is also `kNoDeadline`. -/
def noDeadline : TimePoint := 9223372036854775807

namespace Deadline

def nanoseconds (milliseconds : Int) : Int := milliseconds * 1000000

/-- `deadline::after(base, timeout)`, the timeout in milliseconds. -/
def after (base : TimePoint) (timeout : Int) : TimePoint :=
  if timeout ≤ 0 then base
  else
    let limit := noDeadline - 1
    let room := (limit - base).tdiv 1000000
    if timeout < room then base + nanoseconds timeout else limit

end Deadline

/-- An installed timer, and when it is next due. -/
structure Slot where
  id : Nat
  repeats : Bool
  interval : Int
  deadline : TimePoint
  deriving DecidableEq, Repr

namespace TimerSchedule

def install (slots : List Slot) (which : Slot) : List Slot := slots ++ [which]

def remove (slots : List Slot) (id : Nat) : List Slot := slots.eraseP (fun slot => slot.id == id)

def earliest (slots : List Slot) : TimePoint :=
  slots.foldl (fun earliest slot => min earliest slot.deadline) noDeadline

/-- Whether a slot is a candidate in a pass. -/
def due (boundary : TimePoint) (handled : List Nat) (slot : Slot) : Bool :=
  decide (slot.deadline ≤ boundary) && ! handled.contains slot.id

/-- The loop over the slots, with the earliest candidate so far. -/
def earliestDue (boundary : TimePoint) (handled : List Nat) : List Slot → Option Slot → Option Slot
  | [], found => found
  | slot :: rest, found =>
    if due boundary handled slot then
      match found with
      | none => earliestDue boundary handled rest (some slot)
      | some earliest =>
        earliestDue boundary handled rest
          (if slot.deadline < earliest.deadline then some slot else some earliest)
    else earliestDue boundary handled rest found

/-- What is left of the slots once one is claimed: a repeating timer is due again, a
one-shot is taken out. -/
def claim (slots : List Slot) (which : Slot) (claimedAt : TimePoint) : List Slot :=
  if which.repeats then
    slots.map (fun slot =>
      if slot.id = which.id then
        { slot with deadline := Deadline.after claimedAt which.interval }
      else slot)
  else slots.eraseP (fun slot => slot.id == which.id)

/-- `take_due`: the timer claimed, and the slots with it claimed. -/
def takeDue (slots : List Slot) (boundary claimedAt : TimePoint) (handled : List Nat) :
    Option (Slot × List Slot) :=
  (earliestDue boundary handled slots none).map (fun which => (which, claim slots which claimedAt))

theorem earliestDue_some (boundary : TimePoint) (handled : List Nat) (slots : List Slot)
    (found : Slot) : (earliestDue boundary handled slots (some found)).isSome = true := by
  induction slots generalizing found with
  | nil => rfl
  | cons slot slots ih =>
    simp only [earliestDue]
    split
    · split
      · exact ih slot
      · exact ih found
    · exact ih found

/-- Nothing is taken only if nothing is due. -/
theorem takeDue_none {slots : List Slot} {boundary claimedAt : TimePoint} {handled : List Nat} :
    takeDue slots boundary claimedAt handled = none ↔
      ∀ slot ∈ slots, due boundary handled slot = false := by
  rw [takeDue, Option.map_eq_none_iff]
  induction slots with
  | nil => simp [earliestDue]
  | cons slot slots ih =>
    rw [List.forall_mem_cons, ← ih]
    cases h : due boundary handled slot with
    | true =>
      have taken := earliestDue_some boundary handled slots slot
      simp only [earliestDue, h, if_true, Bool.true_eq_false, false_and, iff_false]
      intro none
      rw [none] at taken
      cases taken
    | false => simp [earliestDue, h]

theorem earliestDue_mem {boundary : TimePoint} {handled : List Nat} {slots : List Slot}
    {found : Option Slot} {which : Slot}
    (h : earliestDue boundary handled slots found = some which) : which ∈ slots ∨ found = some which := by
  induction slots generalizing found with
  | nil => exact Or.inr h
  | cons slot slots ih =>
    have later {found : Option Slot} (h : earliestDue boundary handled slots found = some which)
        (known : found = some which → which ∈ slot :: slots) : which ∈ slot :: slots := by
      rcases ih h with mem | same
      · exact List.mem_cons_of_mem _ mem
      · exact known same
    have first (same : some slot = some which) : which ∈ slot :: slots := by
      obtain rfl := Option.some.inj same
      exact List.mem_cons_self
    simp only [earliestDue] at h
    split at h
    · split at h
      · exact Or.inl (later h first)
      · rcases ih h with mem | same
        · exact Or.inl (List.mem_cons_of_mem _ mem)
        · split at same
          · exact Or.inl (first same)
          · exact Or.inr same
    · rcases ih h with mem | same
      · exact Or.inl (List.mem_cons_of_mem _ mem)
      · exact Or.inr same

/-- What is taken is one of the slots, and is claimed. -/
theorem takeDue_some {slots left : List Slot} {boundary claimedAt : TimePoint} {handled : List Nat}
    {which : Slot} (h : takeDue slots boundary claimedAt handled = some (which, left)) :
    which ∈ slots ∧ left = claim slots which claimedAt := by
  rw [takeDue, Option.map_eq_some_iff] at h
  obtain ⟨slot, earliest, same⟩ := h
  obtain ⟨rfl, rfl⟩ := Prod.mk.inj same
  rcases earliestDue_mem earliest with mem | none
  · exact ⟨mem, rfl⟩
  · cases none

theorem eraseP_ids (slots : List Slot) (id : Nat) :
    (slots.eraseP (fun slot => slot.id == id)).map Slot.id = (slots.map Slot.id).erase id := by
  induction slots with
  | nil => rfl
  | cons slot slots ih =>
    by_cases same : slot.id = id
    · simp [same]
    · simp [same, ih]

/-- A claim keeps every timer but the one-shot it takes. -/
theorem claim_ids (slots : List Slot) (which : Slot) (claimedAt : TimePoint) :
    (claim slots which claimedAt).map Slot.id =
      if which.repeats then slots.map Slot.id else (slots.map Slot.id).erase which.id := by
  unfold claim
  split
  · rw [List.map_map]
    refine List.map_congr_left fun slot _ => ?_
    dsimp only [Function.comp]
    split <;> rfl
  · exact eraseP_ids slots which.id

theorem remove_ids (slots : List Slot) (id : Nat) :
    (remove slots id).map Slot.id = (slots.map Slot.id).erase id :=
  eraseP_ids slots id

/-- No slot of a claim is new. -/
theorem mem_claim {slots : List Slot} {which slot : Slot} {claimedAt : TimePoint}
    (h : slot ∈ claim slots which claimedAt) :
    ∃ old ∈ slots, old.id = slot.id ∧ old.repeats = slot.repeats := by
  unfold claim at h
  split at h
  · obtain ⟨old, mem, same⟩ := List.mem_map.mp h
    refine ⟨old, mem, ?_⟩
    split at same
    · rw [← same]
      exact ⟨rfl, rfl⟩
    · rw [same]
      exact ⟨rfl, rfl⟩
  · exact ⟨slot, List.mem_of_mem_eraseP h, rfl, rfl⟩

theorem foldl_min_le (slots : List Slot) (first t : TimePoint) :
    slots.foldl (fun earliest slot => min earliest slot.deadline) first ≤ t ↔
      first ≤ t ∨ ∃ slot ∈ slots, slot.deadline ≤ t := by
  induction slots generalizing first with
  | nil => simp
  | cons slot slots ih =>
    rw [List.foldl_cons, ih, min_le_iff, or_assoc]
    simp

/-- The earliest deadline has come when one of them has. -/
theorem earliest_le {slots : List Slot} {t : TimePoint} :
    earliest slots ≤ t ↔ noDeadline ≤ t ∨ ∃ slot ∈ slots, slot.deadline ≤ t :=
  foldl_min_le slots noDeadline t

end TimerSchedule

end Dross
