import Mathlib.Data.List.Basic
import Mathlib.Order.Lattice

/-!
# Ordered maps

A tree map is read in key order, so it is the list of its pairs with strictly
increasing keys. The lookup laws need no order; the order makes the list the
only one with its lookups.
-/

namespace OrderedMap

universe u v w
variable {κ : Type u} {ν : Type v} {ω : Type w} [LinearOrder κ]

def find : List (κ × ν) → κ → Option ν
  | [], _ => none
  | (j, x) :: m, k => if k = j then some x else find m k

def contains (m : List (κ × ν)) (k : κ) : Bool := (find m k).isSome

/-- `m[k] = x` -/
def set : List (κ × ν) → κ → ν → List (κ × ν)
  | [], k, x => [(k, x)]
  | (j, y) :: m, k, x =>
    if k = j then (k, x) :: m
    else if k < j then (k, x) :: (j, y) :: m
    else (j, y) :: set m k x

/-- Keys in strictly increasing order, so each of them once. -/
def Sorted (m : List (κ × ν)) : Prop := m.Pairwise (fun p q => p.1 < q.1)

@[simp] theorem find_nil (k : κ) : find ([] : List (κ × ν)) k = none := rfl

@[simp] theorem find_cons_self (k : κ) (x : ν) (m : List (κ × ν)) :
    find ((k, x) :: m) k = some x := if_pos rfl

theorem find_cons_ne {j k : κ} (h : k ≠ j) (x : ν) (m : List (κ × ν)) :
    find ((j, x) :: m) k = find m k := if_neg h

theorem contains_iff {m : List (κ × ν)} {k : κ} :
    contains m k = true ↔ ∃ x, find m k = some x := by
  rw [contains, Option.isSome_iff_exists]

theorem contains_eq_false {m : List (κ × ν)} {k : κ} :
    contains m k = false ↔ find m k = none := by
  simp [contains]

@[simp] theorem find_set_self (m : List (κ × ν)) (k : κ) (x : ν) :
    find (set m k x) k = some x := by
  induction m with
  | nil => simp [set]
  | cons p m ih =>
    obtain ⟨j, y⟩ := p
    by_cases same : k = j
    · simp [set, same]
    · by_cases before : k < j
      · simp [set, same, before]
      · simp [set, same, before, find_cons_ne, ih]

theorem find_set_ne {j k : κ} (h : j ≠ k) (m : List (κ × ν)) (x : ν) :
    find (set m k x) j = find m j := by
  induction m with
  | nil => simp [set, find_cons_ne h]
  | cons p m ih =>
    obtain ⟨i, y⟩ := p
    by_cases same : k = i
    · subst same
      simp [set, find_cons_ne h]
    · by_cases before : k < i
      · simp [set, same, before, find_cons_ne h]
      · by_cases here : j = i
        · simp [set, same, before, here]
        · simp [set, same, before, find_cons_ne here, ih]

theorem find_set (m : List (κ × ν)) (j k : κ) (x : ν) :
    find (set m k x) j = if j = k then some x else find m j := by
  split
  · rename_i h
    rw [h, find_set_self]
  · rename_i h
    exact find_set_ne h m x

/-- What is set last stays. -/
theorem set_set (m : List (κ × ν)) (k : κ) (x y : ν) : set (set m k x) k y = set m k y := by
  induction m with
  | nil => simp [set]
  | cons p m ih =>
    obtain ⟨j, z⟩ := p
    by_cases same : k = j
    · simp [set, same]
    · by_cases before : k < j
      · simp [set, same, before]
      · simp [set, same, before, ih]

theorem mem_of_find {m : List (κ × ν)} {k : κ} {x : ν} (h : find m k = some x) :
    (k, x) ∈ m := by
  induction m with
  | nil => cases h
  | cons p m ih =>
    obtain ⟨j, y⟩ := p
    by_cases here : k = j
    · rw [here, find_cons_self] at h
      obtain rfl := Option.some.inj h
      simp [here]
    · rw [find_cons_ne here] at h
      exact List.mem_cons_of_mem _ (ih h)

theorem mem_set {m : List (κ × ν)} {k : κ} {x : ν} {p : κ × ν} (h : p ∈ set m k x) :
    p = (k, x) ∨ p ∈ m := by
  induction m with
  | nil => exact Or.inl (by simpa [set] using h)
  | cons q m ih =>
    obtain ⟨j, y⟩ := q
    by_cases same : k = j
    · rw [set, if_pos same] at h
      exact (List.mem_cons.mp h).imp_right (List.mem_cons_of_mem _)
    · by_cases before : k < j
      · rw [set, if_neg same, if_pos before] at h
        exact List.mem_cons.mp h
      · rw [set, if_neg same, if_neg before] at h
        rcases List.mem_cons.mp h with here | rest
        · exact Or.inr (here ▸ List.mem_cons_self)
        · exact (ih rest).imp_right (List.mem_cons_of_mem _)

/-! ## The order of the keys -/

theorem sorted_nil : Sorted ([] : List (κ × ν)) := List.Pairwise.nil

theorem sorted_cons {p : κ × ν} {m : List (κ × ν)} :
    Sorted (p :: m) ↔ (∀ q ∈ m, p.1 < q.1) ∧ Sorted m := List.pairwise_cons

theorem Sorted.set {m : List (κ × ν)} (h : Sorted m) (k : κ) (x : ν) : Sorted (set m k x) := by
  induction m with
  | nil => simp [OrderedMap.set, Sorted]
  | cons p m ih =>
    obtain ⟨j, y⟩ := p
    obtain ⟨below, rest⟩ := sorted_cons.mp h
    rcases lt_trichotomy k j with before | rfl | after
    · rw [OrderedMap.set, if_neg before.ne, if_pos before, sorted_cons]
      refine ⟨?_, h⟩
      intro q hq
      rcases List.mem_cons.mp hq with rfl | hq
      · exact before
      · exact before.trans (below q hq)
    · rw [OrderedMap.set, if_pos rfl, sorted_cons]
      exact ⟨below, rest⟩
    · rw [OrderedMap.set, if_neg after.ne', if_neg after.not_gt, sorted_cons]
      refine ⟨?_, ih rest⟩
      intro q hq
      rcases mem_set hq with rfl | hq
      · exact after
      · exact below q hq

theorem find_of_mem {m : List (κ × ν)} (h : Sorted m) {k : κ} {x : ν} (mem : (k, x) ∈ m) :
    find m k = some x := by
  induction m with
  | nil => cases mem
  | cons p m ih =>
    obtain ⟨below, rest⟩ := sorted_cons.mp h
    rcases List.mem_cons.mp mem with rfl | mem
    · exact find_cons_self _ _ _
    · rw [show p = (p.1, p.2) from rfl, find_cons_ne (below (k, x) mem).ne']
      exact ih rest mem

theorem find_eq_none_of_below {m : List (κ × ν)} {k : κ} (below : ∀ q ∈ m, k < q.1) :
    find m k = none := by
  rw [← Option.not_isSome_iff_eq_none]
  intro some
  obtain ⟨x, found⟩ := Option.isSome_iff_exists.mp some
  exact (below _ (mem_of_find found)).false

/-- Two ordered maps with the same lookups are the same list. -/
theorem Sorted.ext {m n : List (κ × ν)} (hm : Sorted m) (hn : Sorted n)
    (same : ∀ k, find m k = find n k) : m = n := by
  induction m generalizing n with
  | nil =>
    cases n with
    | nil => rfl
    | cons q n => exact absurd (same q.1) (by simp [find])
  | cons p m ih =>
    cases n with
    | nil => exact absurd (same p.1) (by simp [find])
    | cons q n =>
      obtain ⟨belowM, restM⟩ := sorted_cons.mp hm
      obtain ⟨belowN, restN⟩ := sorted_cons.mp hn
      have inN := mem_of_find ((same p.1).symm.trans (find_cons_self p.1 p.2 m))
      have inM := mem_of_find ((same q.1).trans (find_cons_self q.1 q.2 n))
      have head : p = q := by
        rcases List.mem_cons.mp inN with here | later
        · exact here
        · rcases List.mem_cons.mp inM with here | later'
          · exact here.symm
          · exact absurd (belowN _ later) (belowM _ later').not_gt
      subst head
      refine congrArg _ (ih restM restN ?_)
      intro k
      by_cases here : k = p.1
      · rw [here, find_eq_none_of_below belowM, find_eq_none_of_below belowN]
      · have := same k
        rwa [find_cons_ne here, find_cons_ne here] at this

theorem contains_of_above {m : List (κ × ν)} {k : κ} (above : ∀ p ∈ m, p.1 < k) :
    contains m k = false := by
  rw [contains_eq_false, ← Option.not_isSome_iff_eq_none]
  intro some
  obtain ⟨x, found⟩ := Option.isSome_iff_exists.mp some
  exact (above _ (mem_of_find found)).false

/-- A key above all others goes to the end. -/
theorem set_of_above {m : List (κ × ν)} {k : κ} (above : ∀ p ∈ m, p.1 < k) (x : ν) :
    set m k x = m ++ [(k, x)] := by
  induction m with
  | nil => rfl
  | cons p m ih =>
    obtain ⟨j, y⟩ := p
    have after : j < k := above (j, y) List.mem_cons_self
    rw [set, if_neg after.ne', if_neg after.not_gt,
      ih (fun q hq => above q (List.mem_cons_of_mem _ hq))]
    rfl

end OrderedMap
