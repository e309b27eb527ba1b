import Mathlib.Data.List.Basic

/-!
# Maps as lists of pairs

A hash map read only by key is the list of its pairs. `extract` takes a key out
with its value, so the two halves of the map it leaves are the old map again.
-/

namespace AssocList

universe u v
variable {κ : Type u} {ν : Type v} [DecidableEq κ]

def contains (m : List (κ × ν)) (k : κ) : Bool := m.any (fun p => p.1 == k)

def modify (m : List (κ × ν)) (k : κ) (f : ν → ν) : List (κ × ν) :=
  m.map (fun p => if p.1 = k then (p.1, f p.2) else p)

def tryEmplace (m : List (κ × ν)) (k : κ) (x : ν) : List (κ × ν) :=
  if contains m k then m else m ++ [(k, x)]

def erase (m : List (κ × ν)) (k : κ) : List (κ × ν) := m.filter (fun p => ! p.1 == k)

def extract (m : List (κ × ν)) (k : κ) : Option ν × List (κ × ν) := (m.lookup k, erase m k)

theorem contains_iff {m : List (κ × ν)} {k : κ} :
    contains m k = true ↔ ∃ x, (k, x) ∈ m := by
  simp only [contains, List.any_eq_true, beq_iff_eq, Prod.exists]
  constructor
  · rintro ⟨a, x, hx, rfl⟩
    exact ⟨x, hx⟩
  · rintro ⟨x, hx⟩
    exact ⟨k, x, hx, rfl⟩

theorem contains_iff_key {m : List (κ × ν)} {k : κ} :
    contains m k = true ↔ k ∈ m.map Prod.fst := by
  simp [contains_iff]

@[simp] theorem modify_keys (m : List (κ × ν)) (k : κ) (f : ν → ν) :
    (modify m k f).map Prod.fst = m.map Prod.fst := by
  simp only [modify, List.map_map]
  apply List.map_congr_left
  intro p _
  simp only [Function.comp_apply]
  split <;> rfl

theorem mem_erase {m : List (κ × ν)} {k : κ} {p : κ × ν} :
    p ∈ erase m k ↔ p ∈ m ∧ p.1 ≠ k := by
  simp [erase]

theorem erase_keys_nodup {m : List (κ × ν)} (k : κ) (h : (m.map Prod.fst).Nodup) :
    ((erase m k).map Prod.fst).Nodup :=
  h.sublist ((List.filter_sublist (p := fun p => ! p.1 == k)).map Prod.fst)

theorem erase_of_missing {m : List (κ × ν)} {k : κ} (h : contains m k = false) :
    erase m k = m := by
  apply List.filter_eq_self.mpr
  intro p hp
  simp only [Bool.not_eq_true', beq_eq_false_iff_ne, ne_eq]
  intro he
  have : contains m k = true := contains_iff.mpr ⟨p.2, by rw [← he]; exact hp⟩
  rw [h] at this
  cases this

theorem lookup_eq_none_iff {m : List (κ × ν)} {k : κ} :
    m.lookup k = none ↔ contains m k = false := by
  induction m with
  | nil => simp [contains]
  | cons p m ih =>
    obtain ⟨a, x⟩ := p
    by_cases h : k = a
    · simp [h, contains]
    · have h' : (a == k) = false := by simpa using fun he => h he.symm
      simp [List.lookup_cons, beq_false_of_ne h, contains, h', ih]

/-- A key found is in the map, and what is left together with it is the map. -/
theorem lookup_some_perm {m : List (κ × ν)} {k : κ} {x : ν}
    (nodup : (m.map Prod.fst).Nodup) (h : m.lookup k = some x) :
    ((k, x) :: erase m k).Perm m := by
  induction m with
  | nil => simp at h
  | cons p m ih =>
    obtain ⟨a, y⟩ := p
    simp only [List.map_cons, List.nodup_cons] at nodup
    by_cases hk : k = a
    · subst hk
      have hy : y = x := by simpa using h
      have missing : contains m k = false := by
        rw [Bool.eq_false_iff, ne_eq, contains_iff_key]
        exact nodup.1
      rw [hy]
      simp only [erase, List.filter_cons, beq_self_eq_true, Bool.not_true, Bool.false_eq_true,
        if_false]
      rw [show m.filter (fun p => ! p.1 == k) = m from erase_of_missing missing]
    · have hl : m.lookup k = some x := by simpa [List.lookup_cons, beq_false_of_ne hk] using h
      have hf : erase ((a, y) :: m) k = (a, y) :: erase m k := by
        simp [erase, Ne.symm hk]
      rw [hf]
      exact (List.Perm.swap (a, y) (k, x) _).trans ((ih nodup.2 hl).cons (a, y))

theorem lookup_some_of_mem {m : List (κ × ν)} {k : κ} {x : ν}
    (nodup : (m.map Prod.fst).Nodup) (h : (k, x) ∈ m) : m.lookup k = some x := by
  induction m with
  | nil => cases h
  | cons p m ih =>
    obtain ⟨a, y⟩ := p
    simp only [List.map_cons, List.nodup_cons] at nodup
    rcases List.mem_cons.mp h with he | hm
    · cases he
      simp
    · have hne : k ≠ a := by
        intro he
        subst he
        exact nodup.1 (List.mem_map_of_mem (f := Prod.fst) hm)
      simpa [List.lookup_cons, beq_false_of_ne hne] using ih nodup.2 hm

theorem mem_of_lookup_some {m : List (κ × ν)} {k : κ} {x : ν} (h : m.lookup k = some x) :
    (k, x) ∈ m := by
  induction m with
  | nil => simp at h
  | cons p m ih =>
    obtain ⟨a, y⟩ := p
    by_cases hk : k = a
    · subst hk
      have hy : y = x := by simpa using h
      simp [hy]
    · exact List.mem_cons_of_mem _ (ih (by simpa [List.lookup_cons, beq_false_of_ne hk] using h))

end AssocList
