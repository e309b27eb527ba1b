import Mathlib.Data.List.Basic

/-!
# Erasing in place

Values are erased from a vector by moving those that stay onto earlier slots. The value that
is compared with is read again for every slot, and may be in a slot itself. What is moved
leaves a null behind.
-/

namespace InPlace

universe u
variable {α : Type u}

/-- A value on its own or in a slot of the vector. -/
inductive Reference (α : Type u) where
  | own (v : α)
  | slot (i : Nat)

def Reference.read (null : α) (slots : List α) : Reference α → α
  | own v => v
  | slot i => slots.getD i null

/-- A move assignment from one slot to another before it. -/
def moved (null : α) (slots : List α) (target source : Nat) : List α :=
  (slots.set target (slots.getD source null)).set source null

/-- The loop of `std::remove` behind the first slot that is removed, over so many slots. -/
def removeLoop (equals : α → α → Bool) (null : α) (v : Reference α) :
    Nat → List α → Nat → Nat → List α × Nat
  | 0, slots, result, _ => (slots, result)
  | count + 1, slots, result, first =>
    if equals (slots.getD first null) (v.read null slots) then
      removeLoop equals null v count slots result (first + 1)
    else removeLoop equals null v count (moved null slots result first) (result + 1) (first + 1)

/-- `std::erase` -/
def erase (equals : α → α → Bool) (null : α) (slots : List α) (v : Reference α) : List α :=
  let result := slots.findIdx (fun x => equals x (v.read null slots))
  let left := removeLoop equals null v (slots.length - (result + 1)) slots result (result + 1)
  left.1.take left.2

/-- What stays when the value changes to the element that comes to a slot, so many elements on. -/
def sweep (equals : α → α → Bool) (v : α) : Nat → List α → List α
  | _, [] => []
  | count, x :: rest =>
    if equals x v then sweep equals v count rest
    else
      match count with
      | 0 => x :: rest.filter (fun y => ! equals y x)
      | count + 1 => x :: sweep equals v count rest

section Loop

variable {equals : α → α → Bool} {null : α} {v : Reference α} {value x : α}
variable {kept middle rest : List α}

theorem read_first (null : α) (kept middle : List α) (x : α) (rest : List α) :
    (kept ++ (middle ++ x :: rest)).getD (kept.length + middle.length) null = x := by
  simp

/-- The first of the slots that may be written takes what the loop has come to. -/
theorem moved_next (null : α) (kept : List α) (m : α) (middle : List α) (x : α) (rest : List α) :
    moved null (kept ++ (m :: middle ++ x :: rest)) kept.length (kept.length + (m :: middle).length) =
      (kept ++ [x]) ++ ((middle ++ [null]) ++ rest) := by
  rw [moved, read_first]
  simp [List.set_append_right]

theorem next_counts (kept : List α) (m : α) (middle : List α) (x null : α) :
    kept.length + 1 = (kept ++ [x]).length ∧ kept.length + (m :: middle).length + 1 =
      (kept ++ [x]).length + (middle ++ [null]).length := by
  constructor
  · simp
  · simp
    omega

theorem sweep_removed (removed : equals x value = true) (count : Nat) (rest : List α) :
    sweep equals value count (x :: rest) = sweep equals value count rest := by
  cases count <;> simp [sweep, removed]

theorem sweep_last (stays : equals x value = false) (rest : List α) :
    sweep equals value 0 (x :: rest) = x :: rest.filter (fun y => ! equals y x) := by
  simp [sweep, stays]

theorem sweep_more (stays : equals x value = false) (count : Nat) (rest : List α) :
    sweep equals value (count + 1) (x :: rest) = x :: sweep equals value count rest := by
  simp [sweep, stays]

/-- The slots before the end that the loop comes to. -/
def left (r : List α × Nat) : List α := r.1.take r.2

/-- With a value that the slots already written decide, the rest is filtered. -/
theorem removeLoop_fixed (reads : ∀ more, v.read null (kept ++ more) = value)
    (nonempty : middle ≠ []) :
    left (removeLoop equals null v rest.length (kept ++ (middle ++ rest)) kept.length
      (kept.length + middle.length)) = kept ++ rest.filter (fun y => ! equals y value) := by
  induction rest generalizing kept middle with
  | nil => simp [left, removeLoop]
  | cons x rest ih =>
    obtain ⟨m, middle, rfl⟩ := List.exists_cons_of_ne_nil nonempty
    rw [List.length_cons, removeLoop, read_first, reads]
    cases removes : equals x value with
    | true =>
      have others := @ih kept (m :: middle ++ [x]) reads (by simp)
      rw [List.append_assoc, List.singleton_append, List.length_append] at others
      rw [if_pos rfl, List.filter_cons_of_neg (by simp [removes])]
      exact others
    | false =>
      have still (more : List α) : v.read null (kept ++ [x] ++ more) = value := by
        rw [List.append_assoc, reads]
      have others := @ih (kept ++ [x]) (middle ++ [null]) still (by simp)
      obtain ⟨result, first⟩ := next_counts kept m middle x null
      rw [if_neg (by simp), moved_next, result, first, List.filter_cons_of_pos (by simp [removes]),
        others, List.append_assoc, List.singleton_append]

/-- What is in a slot is not changed by moving another value from it. -/
theorem getElem?_replaced {a b : α} {k : Nat} (at' : (middle ++ a :: rest)[k]? = some value)
    (other : k ≠ middle.length) : (middle ++ b :: rest)[k]? = some value := by
  rcases Nat.lt_or_gt_of_ne other with before | after
  · rwa [List.getElem?_append_left before] at at' ⊢
  · obtain ⟨n, rfl⟩ := Nat.exists_eq_add_of_lt after
    rw [List.getElem?_append_right (by omega)] at at' ⊢
    have step : middle.length + n + 1 - middle.length = n + 1 := by omega
    rw [step, List.getElem?_cons_succ] at at' ⊢
    exact at'

/-- With a value in a slot that is not written yet, the rest is swept. -/
theorem removeLoop_slot (refl : ∀ x, equals x x = true) {i : Nat} (le : kept.length ≤ i)
    (nonempty : middle ≠ []) (at' : (middle ++ rest)[i - kept.length]? = some value) :
    left (removeLoop equals null (.slot i) rest.length (kept ++ (middle ++ rest)) kept.length
      (kept.length + middle.length)) = kept ++ sweep equals value (i - kept.length) rest := by
  induction rest generalizing kept middle with
  | nil => simp [left, removeLoop, sweep]
  | cons x rest ih =>
    obtain ⟨m, middle, rfl⟩ := List.exists_cons_of_ne_nil nonempty
    have reads : (Reference.slot i).read null (kept ++ (m :: middle ++ x :: rest)) = value := by
      rw [Reference.read, List.getD_eq_getElem?_getD, List.getElem?_append_right le, at']
      rfl
    rw [List.length_cons, removeLoop, read_first, reads]
    cases removes : equals x value with
    | true =>
      rw [List.append_cons (m :: middle) x rest] at at'
      have others := @ih kept (m :: middle ++ [x]) le (by simp) at'
      rw [List.append_assoc, List.singleton_append, List.length_append] at others
      rw [if_pos rfl, sweep_removed removes]
      exact others
    | false =>
      obtain ⟨result, first⟩ := next_counts kept m middle x null
      rw [if_neg (by simp), moved_next, result, first]
      cases further : i - kept.length with
      | zero =>
        have here : i = kept.length := by omega
        have still (more : List α) : (Reference.slot i).read null (kept ++ [x] ++ more) = x := by
          rw [Reference.read, here]
          simp
        rw [removeLoop_fixed still (by simp), sweep_last removes, List.append_assoc,
          List.singleton_append]
      | succ n =>
        rw [further, List.cons_append, List.getElem?_cons_succ] at at'
        have other : n ≠ middle.length := by
          rintro rfl
          have same : x = value := by simpa using at'
          rw [same, refl] at removes
          cases removes
        have next : i - (kept ++ [x]).length = n := by
          rw [← result]
          omega
        have others := @ih (kept ++ [x]) (middle ++ [null]) (by rw [← result]; omega) (by simp) (by
          rw [next, List.append_assoc, List.singleton_append]
          exact getElem?_replaced at' other)
        rw [others, next, sweep_more removes, List.append_assoc, List.singleton_append]

theorem sweep_front {front : List α} (stay : ∀ y ∈ front, equals y value = false) {count : Nat}
    (le : front.length ≤ count) (rest : List α) :
    sweep equals value count (front ++ rest) = front ++ sweep equals value (count - front.length) rest := by
  induction front generalizing count with
  | nil => rfl
  | cons y front ih =>
    obtain ⟨stays, others⟩ := List.forall_mem_cons.mp stay
    rw [List.length_cons] at le
    obtain ⟨n, rfl⟩ := Nat.exists_eq_add_one_of_ne_zero (show count ≠ 0 by omega)
    rw [List.cons_append, sweep_more stays, ih others (by omega), List.length_cons,
      Nat.add_sub_add_right, List.cons_append]

/-- What is found first splits the slots. -/
theorem findIdx_split (p : α → Bool) {slots : List α} (found : slots.findIdx p < slots.length) :
    ∃ front x rest, slots = front ++ x :: rest ∧ slots.findIdx p = front.length ∧ p x = true ∧
      ∀ y ∈ front, p y = false := by
  refine ⟨slots.take (slots.findIdx p), slots[slots.findIdx p], slots.drop (slots.findIdx p + 1),
    ?_, ?_, List.findIdx_getElem, ?_⟩
  · rw [← List.drop_eq_getElem_cons, List.take_append_drop]
  · rw [List.length_take, Nat.min_eq_left (Nat.le_of_lt found)]
  · intro y mem
    obtain ⟨k, bound, rfl⟩ := List.mem_take_iff_getElem.mp mem
    simpa using List.not_of_lt_findIdx (show k < slots.findIdx p by omega)

theorem erase_found {front : List α} (first : (front ++ x :: rest).findIdx
    (fun y => equals y (v.read null (front ++ x :: rest))) = front.length) :
    erase equals null (front ++ x :: rest) v =
      left (removeLoop equals null v rest.length (front ++ ([x] ++ rest)) front.length
        (front.length + [x].length)) := by
  have count : (front ++ x :: rest).length - (front.length + 1) = rest.length := by
    simp
    omega
  rw [erase, first, count]
  rfl

/-- Erasing a value of its own filters the vector. -/
theorem erase_own (equals : α → α → Bool) (null : α) (slots : List α) (v : α) :
    erase equals null slots (.own v) = slots.filter (fun x => ! equals x v) := by
  by_cases found : slots.findIdx (fun x => equals x v) < slots.length
  · obtain ⟨front, x, rest, rfl, first, removed, stay⟩ := findIdx_split _ found
    have kept : front.filter (fun x => ! equals x v) = front :=
      List.filter_eq_self.mpr fun y mem => by simp [stay y mem]
    rw [erase_found first, removeLoop_fixed (fun _ => rfl) (by simp), List.filter_append, kept,
      List.filter_cons_of_neg (by simp [removed])]
  · have none : slots.findIdx (fun x => equals x v) = slots.length :=
      Nat.le_antisymm List.findIdx_le_length (Nat.le_of_not_lt found)
    have kept : slots.filter (fun x => ! equals x v) = slots :=
      List.filter_eq_self.mpr fun y mem => by
        simpa using List.findIdx_eq_length.mp none y mem
    rw [kept, erase, Reference.read, none, Nat.sub_eq_zero_of_le (Nat.le_succ _), removeLoop,
      List.take_length]

/-- Erasing the value in a slot sweeps the vector. -/
theorem erase_slot (refl : ∀ x, equals x x = true) (null : α) {slots : List α} {i : Nat}
    (at' : slots[i]? = some value) :
    erase equals null slots (.slot i) = sweep equals value i slots := by
  have reads : (Reference.slot i).read null slots = value := by
    rw [Reference.read, List.getD_eq_getElem?_getD, at']
    rfl
  obtain ⟨bound, here⟩ := List.getElem?_eq_some_iff.mp at'
  have found : slots.findIdx (fun x => equals x value) ≤ i := by
    by_contra late
    have stays := List.not_of_lt_findIdx (Nat.lt_of_not_le late)
    rw [here, refl] at stays
    cases stays
  obtain ⟨front, x, rest, rfl, first, removed, stay⟩ :=
    findIdx_split (fun x => equals x value) (Nat.lt_of_le_of_lt found bound)
  rw [first] at found
  rw [erase_found (by rw [reads]; exact first),
    removeLoop_slot refl found (by simp) (by rwa [← List.getElem?_append_right found]),
    sweep_front stay found, sweep_removed removed]

end Loop

section Unchanged

variable {equals : α → α → Bool} {value x : α}

/-- After its value has changed, the loop removes the same as before from what holds neither. -/
theorem filter_changed_iff (symm : ∀ x y, equals x y = true → equals y x = true)
    (trans : ∀ x y z, equals x y = true → equals y z = true → equals x z = true)
    (apart : equals x value = false) {rest : List α} :
    rest.filter (fun y => ! equals y x) = rest.filter (fun y => ! equals y value) ↔
      ∀ y ∈ rest, equals y value = false ∧ equals y x = false := by
  constructor
  · intro same y mem
    have both : equals y value = equals y x := by
      have kept : y ∈ rest.filter (fun y => ! equals y x) ↔
          y ∈ rest.filter (fun y => ! equals y value) := by rw [same]
      rw [List.mem_filter, List.mem_filter] at kept
      rw [Bool.eq_iff_iff]
      simpa [mem, not_iff_not] using kept.symm
    cases here : equals y value with
    | false => exact ⟨rfl, both ▸ here⟩
    | true =>
      have same := trans x y value (symm y x (both ▸ here)) here
      rw [apart] at same
      cases same
  · intro none
    have all {v : α} (stay : ∀ y ∈ rest, equals y v = false) :
        rest.filter (fun y => ! equals y v) = rest :=
      List.filter_eq_self.mpr fun y mem => by simp [stay y mem]
    rw [all fun y mem => (none y mem).1, all fun y mem => (none y mem).2]

/-- An element with what is around it is the first, or one of the others. -/
theorem forall_split {P : List α → α → List α → Prop} (z : α) (slots : List α) :
    (∀ front x rest, z :: slots = front ++ x :: rest → P front x rest) ↔
      P [] z slots ∧ ∀ front x rest, slots = front ++ x :: rest → P (z :: front) x rest := by
  constructor
  · intro all
    exact ⟨all [] z slots rfl, fun front x rest same => all (z :: front) x rest (by rw [same]; rfl)⟩
  · rintro ⟨first, others⟩ front x rest same
    cases front with
    | nil =>
      obtain ⟨rfl, rfl⟩ := List.cons.inj same
      exact first
    | cons y front =>
      obtain ⟨rfl, tail⟩ := List.cons.inj same
      exact others front x rest tail

/-- The sweep filters unless it changes its value before it has come to the last of both. -/
theorem sweep_eq_iff (symm : ∀ x y, equals x y = true → equals y x = true)
    (trans : ∀ x y z, equals x y = true → equals y z = true → equals x z = true)
    (count : Nat) (slots : List α) :
    sweep equals value count slots = slots.filter (fun y => ! equals y value) ↔
      ∀ front x rest, slots = front ++ x :: rest →
        (front.filter (fun y => ! equals y value)).length = count → equals x value = false →
        ∀ y ∈ rest, equals y value = false ∧ equals y x = false := by
  induction slots generalizing count with
  | nil => simp [sweep]
  | cons z slots ih =>
    rw [forall_split]
    cases removed : equals z value with
    | true =>
      rw [sweep_removed removed, List.filter_cons_of_neg (by simp [removed]), ih]
      simp [removed]
    | false =>
      rw [List.filter_cons_of_pos (by simp [removed])]
      cases count with
      | zero =>
        rw [sweep_last removed, List.cons.injEq, filter_changed_iff symm trans removed]
        simp [removed]
      | succ count =>
        rw [sweep_more removed, List.cons.injEq, ih]
        simp [removed]

end Unchanged

end InPlace
