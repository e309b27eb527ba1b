import Dross.Thread.Passes
import Mathlib.Data.List.Basic

/-!
# A pass over the timers

One pass claims timer after timer with the same boundary and the same list, until nothing
is left to claim. The schedule changes with every claim, but a slot that was claimed is
not looked at again.
-/

namespace Dross

namespace TimerSchedule

/-- So many calls of `take_due` with one boundary and one list, each with a claim time of its
own, up to the one that returns nothing: what they return and the slots they leave. -/
def takeAll (boundary : TimePoint) (claims : Nat → TimePoint) :
    Nat → Nat → List Nat → List Slot → Option (List Slot × List Slot)
  | 0, _, _, _ => none
  | calls + 1, claim, handled, slots =>
    match takeDue slots boundary (claims claim) handled with
    | none => some ([], slots)
    | some (which, left) =>
      (takeAll boundary claims calls (claim + 1) (handled ++ [which.id]) left).map
        (fun rest => (which :: rest.1, rest.2))

/-- A timer that comes before another in a pass. -/
def Before (slots : List Slot) (a b : Slot) : Prop :=
  a.deadline < b.deadline ∨ a.deadline = b.deadline ∧ List.Sublist [a, b] slots

/-- A timer once it is claimed. -/
def claimed (which : Slot) (claimedAt : TimePoint) : Option Slot :=
  if which.repeats then some { which with deadline := Deadline.after claimedAt which.interval }
  else none

/-- The slots that a pass leaves. -/
def leftBy (returned : List Slot) (claims : Nat → TimePoint) (slots : List Slot) : List Slot :=
  slots.filterMap (fun slot =>
    if slot ∈ returned then claimed slot (claims (returned.idxOf slot)) else some slot)

section Earliest

variable {boundary : TimePoint} {handled : List Nat} {slots : List Slot} {which found : Slot}

/-- What the loop ends with is the candidate it has, or a later one that is due before it. -/
theorem earliestDue_found (h : earliestDue boundary handled slots (some found) = some which) :
    which = found ∧ (∀ slot ∈ slots, due boundary handled slot = true → found.deadline ≤ slot.deadline) ∨
      ∃ front rest, slots = front ++ which :: rest ∧ which.deadline < found.deadline ∧
        (∀ slot ∈ front, due boundary handled slot = true → which.deadline < slot.deadline) ∧
        ∀ slot ∈ rest, due boundary handled slot = true → which.deadline ≤ slot.deadline := by
  induction slots generalizing found with
  | nil => exact Or.inl ⟨(Option.some.inj h).symm, by simp⟩
  | cons slot slots ih =>
    simp only [earliestDue] at h
    split at h
    · split at h
      · rename_i earlier
        right
        rcases ih h with ⟨rfl, least⟩ | ⟨front, rest, rfl, sooner, before, after⟩
        · exact ⟨[], slots, rfl, earlier, by simp, least⟩
        · refine ⟨slot :: front, rest, rfl, sooner.trans earlier, ?_, after⟩
          exact List.forall_mem_cons.mpr ⟨fun _ => sooner, before⟩
      · rename_i later
        rcases ih h with ⟨rfl, least⟩ | ⟨front, rest, rfl, sooner, before, after⟩
        · exact Or.inl ⟨rfl, List.forall_mem_cons.mpr ⟨fun _ => not_lt.mp later, least⟩⟩
        · refine Or.inr ⟨slot :: front, rest, rfl, sooner, ?_, after⟩
          exact List.forall_mem_cons.mpr ⟨fun _ => sooner.trans_le (not_lt.mp later), before⟩
    · rename_i idle
      rcases ih h with ⟨rfl, least⟩ | ⟨front, rest, rfl, sooner, before, after⟩
      · exact Or.inl ⟨rfl, List.forall_mem_cons.mpr ⟨fun here => absurd here idle, least⟩⟩
      · refine Or.inr ⟨slot :: front, rest, rfl, sooner, ?_, after⟩
        exact List.forall_mem_cons.mpr ⟨fun here => absurd here idle, before⟩

/-- What is claimed is due before all that come ahead of it and no later than the others. -/
theorem earliestDue_first (h : earliestDue boundary handled slots none = some which) :
    ∃ front rest, slots = front ++ which :: rest ∧
      (∀ slot ∈ front, due boundary handled slot = true → which.deadline < slot.deadline) ∧
      ∀ slot ∈ rest, due boundary handled slot = true → which.deadline ≤ slot.deadline := by
  induction slots with
  | nil => cases h
  | cons slot slots ih =>
    simp only [earliestDue] at h
    split at h
    · rcases earliestDue_found h with ⟨rfl, least⟩ | ⟨front, rest, rfl, sooner, before, after⟩
      · exact ⟨[], slots, rfl, by simp, least⟩
      · refine ⟨slot :: front, rest, rfl, ?_, after⟩
        exact List.forall_mem_cons.mpr ⟨fun _ => sooner, before⟩
    · rename_i idle
      obtain ⟨front, rest, rfl, before, after⟩ := ih h
      refine ⟨slot :: front, rest, rfl, ?_, after⟩
      exact List.forall_mem_cons.mpr ⟨fun here => absurd here idle, before⟩

end Earliest

section Pass

variable {boundary : TimePoint} {claims : Nat → TimePoint} {handled : List Nat}
variable {front rest slots returned : List Slot} {which slot : Slot}

theorem others_apart (distinct : ((front ++ which :: rest).map Slot.id).Nodup) :
    ∀ slot ∈ front ++ rest, slot.id ≠ which.id := by
  rw [List.map_append, List.map_cons, List.nodup_append] at distinct
  obtain ⟨-, own, apart⟩ := distinct
  intro slot mem
  rcases List.mem_append.mp mem with mem | mem
  · exact apart _ (List.mem_map_of_mem mem) _ List.mem_cons_self
  · exact fun same => (List.nodup_cons.mp own).1 (same ▸ List.mem_map_of_mem mem)

theorem claim_split (apart : ∀ slot ∈ front ++ rest, slot.id ≠ which.id) (claimedAt : TimePoint) :
    claim (front ++ which :: rest) which claimedAt =
      front ++ ((claimed which claimedAt).toList ++ rest) := by
  have inFront : ∀ slot ∈ front, slot.id ≠ which.id := fun slot mem =>
    apart slot (List.mem_append_left rest mem)
  have inRest : ∀ slot ∈ rest, slot.id ≠ which.id := fun slot mem =>
    apart slot (List.mem_append_right front mem)
  rw [claim, claimed]
  split
  · have keeps {slots : List Slot} (others : ∀ slot ∈ slots, slot.id ≠ which.id) :
        slots.map (fun slot => if slot.id = which.id then
          { slot with deadline := Deadline.after claimedAt which.interval } else slot) = slots := by
      conv_rhs => rw [← List.map_id slots]
      exact List.map_congr_left fun slot mem => if_neg (others slot mem)
    rw [List.map_append, List.map_cons, keeps inFront, keeps inRest, if_pos rfl]
    rfl
  · rw [List.eraseP_append_right _ (by simpa using inFront), List.eraseP_cons_of_pos (by simp)]
    rfl

theorem claimed_id {claimedAt : TimePoint} (mem : slot ∈ (claimed which claimedAt).toList) :
    slot.id = which.id := by
  rw [Option.mem_toList, claimed] at mem
  split at mem
  · rw [← Option.some.inj mem]
  · cases mem

/-- The timers that are still to be claimed are all but the one that was. -/
theorem due_claimed (apart : ∀ slot ∈ front ++ rest, slot.id ≠ which.id) (claimedAt : TimePoint) :
    (claim (front ++ which :: rest) which claimedAt).filter (due boundary (handled ++ [which.id])) =
      (front ++ rest).filter (due boundary handled) := by
  have own : (claimed which claimedAt).toList.filter (due boundary (handled ++ [which.id])) = [] := by
    rw [List.filter_eq_nil_iff]
    intro slot mem
    rw [due_iff, claimed_id mem]
    simp
  have others : ∀ slot ∈ front ++ rest,
      due boundary (handled ++ [which.id]) slot = due boundary handled slot := by
    intro slot mem
    rw [Bool.eq_iff_iff, due_iff, due_iff]
    simp [apart slot mem]
  rw [claim_split apart, List.filter_append, List.filter_append, own, List.nil_append,
    ← List.filter_append, List.filter_congr others]

theorem ids_claimed (distinct : (slots.map Slot.id).Nodup) (which : Slot) (claimedAt : TimePoint) :
    ((claim slots which claimedAt).map Slot.id).Nodup := by
  rw [claim_ids]
  split
  · exact distinct
  · exact distinct.erase _

/-- The order of two others is not changed by a claim. -/
theorem before_claimed (apart : ∀ slot ∈ front ++ rest, slot.id ≠ which.id) {claimedAt : TimePoint}
    {a b : Slot} (first : a ∈ front ++ rest) (second : b ∈ front ++ rest)
    (before : Before (claim (front ++ which :: rest) which claimedAt) a b) :
    Before (front ++ which :: rest) a b := by
  refine before.imp_right fun ⟨same, order⟩ => ⟨same, ?_⟩
  have own : (claimed which claimedAt).toList.filter (fun slot => slot.id != which.id) = [] := by
    rw [List.filter_eq_nil_iff]
    intro slot mem
    simp [claimed_id mem]
  have others : (front ++ rest).filter (fun slot => slot.id != which.id) = front ++ rest := by
    rw [List.filter_eq_self]
    intro slot mem
    simpa using apart slot mem
  have kept := order.filter (fun slot => slot.id != which.id)
  rw [claim_split apart, List.filter_append, List.filter_append, own, List.nil_append,
    ← List.filter_append, others] at kept
  simp only [List.filter_cons, bne_iff_ne, apart a first, apart b second, ne_eq, not_false_eq_true,
    if_true, List.filter_nil] at kept
  exact kept.trans ((List.sublist_cons_self which rest).append_left front)

theorem leftBy_append (returned : List Slot) (claims : Nat → TimePoint) (front rest : List Slot) :
    leftBy returned claims (front ++ rest) =
      leftBy returned claims front ++ leftBy returned claims rest :=
  List.filterMap_append

theorem leftBy_none (claims : Nat → TimePoint) (slots : List Slot) :
    leftBy [] claims slots = slots := by
  simp [leftBy]

theorem leftBy_claimed (apart : ∀ slot ∈ front ++ rest, slot.id ≠ which.id)
    (others : ∀ slot ∈ returned, slot ∈ front ++ rest) :
    leftBy (which :: returned) claims (front ++ which :: rest) =
      leftBy returned (fun claim => claims (claim + 1))
        (claim (front ++ which :: rest) which (claims 0)) := by
  have same {slots : List Slot} (inside : ∀ slot ∈ slots, slot ∈ front ++ rest) :
      leftBy (which :: returned) claims slots =
        leftBy returned (fun claim => claims (claim + 1)) slots := by
    refine List.filterMap_congr fun slot mem => ?_
    have other : slot ≠ which := fun same => apart slot (inside slot mem) (by rw [same])
    rw [List.idxOf_cons_ne _ (Ne.symm other)]
    simp [other]
  have first : leftBy (which :: returned) claims [which] = (claimed which (claims 0)).toList := by
    cases taken : claimed which (claims 0) with
    | none => simp [leftBy, taken]
    | some slot => simp [leftBy, taken]
  have own : leftBy returned (fun claim => claims (claim + 1)) (claimed which (claims 0)).toList =
      (claimed which (claims 0)).toList := by
    cases taken : claimed which (claims 0) with
    | none => rfl
    | some slot =>
      have mem : slot ∈ (claimed which (claims 0)).toList := by simp [taken]
      have kept : slot ∉ returned := fun given => apart slot (others slot given) (claimed_id mem)
      simp [leftBy, kept]
  rw [claim_split apart, List.append_cons, leftBy_append, leftBy_append, leftBy_append,
    leftBy_append, first, own, List.append_assoc,
    same fun slot mem => List.mem_append_left rest mem,
    same fun slot mem => List.mem_append_right front mem]

/-- What one more call of a pass returns comes before what the rest of it does. -/
theorem takeDue_before {left : List Slot} {claimedAt : TimePoint}
    (h : takeDue slots boundary claimedAt handled = some (which, left)) :
    ∃ front rest, slots = front ++ which :: rest ∧ left = claim slots which claimedAt ∧
      due boundary handled which = true ∧
      ∀ slot ∈ front ++ rest, due boundary handled slot = true → Before slots which slot := by
  rw [takeDue, Option.map_eq_some_iff] at h
  obtain ⟨slot, found, same⟩ := h
  obtain ⟨rfl, rfl⟩ := Prod.mk.inj same
  have isDue := earliestDue_due (fun _ none => by cases none) found
  obtain ⟨front, rest, rfl, before, after⟩ := earliestDue_first found
  refine ⟨front, rest, rfl, rfl, isDue, fun other mem here => ?_⟩
  rcases List.mem_append.mp mem with mem | mem
  · exact Or.inl (before other mem here)
  · refine (after other mem here).lt_or_eq.imp id fun same => ⟨same, ?_⟩
    exact List.sublist_append_of_sublist_right ((List.singleton_sublist.mpr mem).cons_cons slot)

/-- The calls of one pass, from any place in it. -/
theorem takeAll_returns (distinct : (slots.map Slot.id).Nodup) (boundary : TimePoint)
    (claims : Nat → TimePoint) (handled : List Nat) (claim : Nat) :
    ∃ returned : List Slot, returned.Perm (slots.filter (due boundary handled)) ∧
      returned.Pairwise (Before slots) ∧
      ∀ calls, takeAll boundary claims calls claim handled slots =
        if returned.length < calls then
          some (returned, leftBy returned (fun k => claims (claim + k)) slots)
        else none := by
  generalize size : (slots.filter (due boundary handled)).length = n
  induction n generalizing slots handled claim with
  | zero =>
    have nothing := List.eq_nil_of_length_eq_zero size
    have taken : takeDue slots boundary (claims claim) handled = none :=
      takeDue_none.mpr fun slot mem => by
        simpa using List.filter_eq_nil_iff.mp nothing slot mem
    refine ⟨[], by rw [nothing], List.Pairwise.nil, fun calls => ?_⟩
    cases calls with
    | zero => rfl
    | succ calls =>
      rw [takeAll, taken, leftBy_none, List.length_nil, if_pos (Nat.succ_pos calls)]
  | succ n ih =>
    obtain ⟨some, mem⟩ := List.exists_mem_of_length_eq_add_one size
    cases taken : takeDue slots boundary (claims claim) handled with
    | none =>
      have idle := takeDue_none.mp taken some (List.mem_filter.mp mem).1
      rw [(List.mem_filter.mp mem).2] at idle
      cases idle
    | some pair =>
      obtain ⟨which, left⟩ := pair
      obtain ⟨front, rest, rfl, rfl, isDue, before⟩ := takeDue_before taken
      have apart := others_apart distinct
      have remaining := @due_claimed boundary handled front rest which apart (claims claim)
      have split : ((front ++ which :: rest).filter (due boundary handled)).Perm
          (which :: (front ++ rest).filter (due boundary handled)) := by
        rw [List.filter_append, List.filter_cons_of_pos isDue, List.filter_append]
        exact List.perm_middle
      obtain ⟨returned, perm, ordered, calls⟩ := ih
        (ids_claimed distinct which (claims claim)) (handled ++ [which.id]) (claim + 1) (by
          have length := split.length_eq
          rw [size] at length
          rw [remaining]
          exact (Nat.succ.inj length).symm)
      rw [remaining] at perm
      have inside : ∀ slot ∈ returned, slot ∈ front ++ rest ∧ due boundary handled slot = true :=
        fun slot mem => List.mem_filter.mp (perm.mem_iff.mp mem)
      refine ⟨which :: returned, (perm.cons which).trans split.symm, ?_, ?_⟩
      · refine List.pairwise_cons.mpr
          ⟨fun slot mem => before slot (inside slot mem).1 (inside slot mem).2, ?_⟩
        exact ordered.imp_of_mem fun first second =>
          before_claimed apart (inside _ first).1 (inside _ second).1
      · intro n
        cases n with
        | zero => rfl
        | succ n =>
          rw [takeAll, taken, leftBy_claimed apart fun slot mem => (inside slot mem).1]
          simp only [calls n, List.length_cons, Nat.add_lt_add_iff_right, Nat.add_zero]
          split
          · simp only [Option.map_some, Nat.add_assoc, Nat.add_comm 1]
          · rfl

/-- A pass returns the timers that are due, each once and in order, in as many calls. -/
theorem pass_claims (distinct : (slots.map Slot.id).Nodup) (boundary : TimePoint)
    (claims : Nat → TimePoint) :
    ∃ returned : List Slot,
      returned.Perm (slots.filter (fun slot => decide (slot.deadline ≤ boundary))) ∧
        returned.Pairwise (Before slots) ∧
        ∀ calls, takeAll boundary claims calls 0 [] slots =
          if returned.length < calls then some (returned, leftBy returned claims slots)
          else none := by
  obtain ⟨returned, perm, ordered, calls⟩ := takeAll_returns distinct boundary claims [] 0
  have all : due boundary [] = fun slot => decide (slot.deadline ≤ boundary) := by
    funext slot
    simp [due]
  rw [all] at perm
  refine ⟨returned, perm, ordered, fun n => ?_⟩
  rw [calls n]
  simp only [Nat.zero_add]

theorem pass_claims_tie :
    let slots : List Slot := [⟨1, true, 0, 5⟩, ⟨2, false, 0, 5⟩, ⟨3, true, 1, 4⟩, ⟨4, true, 1, 9⟩]
    ∃ returned : List Slot,
      returned.Perm (slots.filter (fun slot => decide (slot.deadline ≤ 5))) ∧
        returned.Pairwise (Before slots) ∧
        ∀ calls, takeAll 5 (fun claim => 6 + claim) calls 0 [] slots =
          if returned.length < calls then
            some (returned, leftBy returned (fun claim => 6 + claim) slots)
          else none :=
  pass_claims (by decide) 5 (fun claim => 6 + claim)

end Pass

end TimerSchedule

end Dross
