import Dross.Format.TableRefinement

/-!
# What the tables are merged to

At the end the tables of a node are put among its pairs. No key of a sound node is
in both maps, so nothing is overwritten, and what stands at each path decides the
dictionary that comes out.
-/

namespace Dross

namespace TableNode

open OrderedMap

section Lookups

variable {pairs : Dictionary} {tables : List (Text × TableNode)} {node : TableNode}

theorem find_mergeInto (sorted : Sorted tables) (pairs : Dictionary) (k : Text) :
    find (mergeInto pairs tables) k = ((find tables k).map toValue).or (find pairs k) := by
  induction tables generalizing pairs with
  | nil => simp [mergeInto]
  | cons p tables ih =>
    obtain ⟨j, table⟩ := p
    obtain ⟨below, rest⟩ := sorted_cons.mp sorted
    rw [mergeInto, ih rest]
    by_cases here : k = j
    · subst here
      rw [find_eq_none_of_below below, find_set_self, find_cons_self]
      rfl
    · rw [find_set_ne here, find_cons_ne here]

theorem sorted_mergeInto (sorted : Sorted pairs) : Sorted (mergeInto pairs tables) := by
  induction tables generalizing pairs with
  | nil => exact sorted
  | cons p tables ih => exact ih (sorted.set p.1 p.2.toValue)

theorem elementValues_eq (elements : List TableNode) :
    elementValues elements = elements.map (fun e => .dictionary e.mergeTables) := by
  induction elements with
  | nil => rfl
  | cons e elements ih =>
    obtain ⟨pairs, tables, named, dotted, array, inner⟩ := e
    rw [elementValues, ih]
    rfl

theorem toValue_eq (node : TableNode) : node.toValue =
    if node.array then .array (elementValues node.elements) else .dictionary node.mergeTables := by
  obtain ⟨pairs, tables, named, dotted, array, elements⟩ := node
  rfl

theorem WellFormed.find_mergeTables (h : node.WellFormed) (k : Text) :
    find node.mergeTables k = ((find node.tables k).map toValue).or (find node.pairs k) :=
  find_mergeInto h.sound.sorted.2 _ _

theorem WellFormed.sorted_mergeTables (h : node.WellFormed) : Sorted node.mergeTables :=
  sorted_mergeInto h.sound.sorted.1

end Lookups

/-! ## The view decides the dictionary -/

section Same

variable {a b : TableNode} {k : Text} {v : Value}

theorem place_not_value (node : TableNode) (v : Value) : node.place ≠ .value v := by
  unfold place
  split <;> nofun

/-- The values of a node are what the view shows one key below it. -/
theorem view_value_iff : a.view [.key k] = some (.value v) ↔ find a.pairs k = some v := by
  cases found : find a.pairs k with
  | some w =>
    rw [view_pair found, if_pos rfl]
    simp
  | none =>
    rw [view_key found]
    constructor
    · intro shown
      obtain ⟨child, -, here⟩ := Option.bind_eq_some_iff.mp shown
      rw [view] at here
      exact absurd (Option.some.inj here) (place_not_value child v)
    · intro none
      cases none

theorem find_pairs_congr (same : a.view = b.view) (k : Text) :
    find a.pairs k = find b.pairs k := by
  apply Option.ext
  intro v
  rw [← view_value_iff, ← view_value_iff, same]

/-- The tables of two nodes with one view, under the same key. -/
theorem tables_congr (same : a.view = b.view) {child : TableNode}
    (absent : find a.pairs k = none) (found : find a.tables k = some child) :
    ∃ child', find b.tables k = some child' ∧ child.view = child'.view := by
  have absent' : find b.pairs k = none := by rw [← find_pairs_congr same, absent]
  have shown : ∀ P, child.view P = (find b.tables k).bind (fun child => child.view P) := by
    intro P
    rw [← view_child absent found, same, view_key absent']
  have here := shown []
  rw [view] at here
  obtain ⟨child', found', -⟩ := Option.bind_eq_some_iff.mp here.symm
  refine ⟨child', found', ?_⟩
  funext P
  rw [shown P, found']
  rfl

theorem place_congr (same : a.view = b.view) : a.place = b.place := by
  have here := congrFun same []
  rw [view, view] at here
  exact Option.some.inj here

theorem array_congr (same : a.view = b.view) :
    a.array = b.array ∧ (a.array = true → a.elements.length = b.elements.length) := by
  have here := place_congr same
  unfold place at here
  cases first : a.array <;> cases second : b.array <;> simp_all

theorem elements_congr (same : a.view = b.view) {i : Nat} {e e' : TableNode}
    (found : a.elements[i]? = some e) (found' : b.elements[i]? = some e') : e.view = e'.view := by
  funext P
  have here := congrFun same (.element i :: P)
  rwa [view, view, found, found'] at here

/-- Two sound trees in which the same stands at every path merge to the same dictionary. -/
theorem WellFormed.merge_congr (ha : a.WellFormed) (hb : b.WellFormed) (same : a.view = b.view) :
    a.mergeTables = b.mergeTables ∧
      (a.array = true → elementValues a.elements = elementValues b.elements) := by
  induction ha generalizing b with
  | @intro a sound children members ihChildren ihMembers =>
    have wf : a.WellFormed := ⟨sound, children, members⟩
    constructor
    · apply wf.sorted_mergeTables.ext hb.sorted_mergeTables
      intro k
      rw [wf.find_mergeTables, hb.find_mergeTables, find_pairs_congr same]
      congr 1
      cases found : find a.tables k with
      | none =>
        cases found' : find b.tables k with
        | none => rfl
        | some child' =>
          have absent := hb.noPair found'
          obtain ⟨child, here, -⟩ := tables_congr same.symm absent found'
          rw [found] at here
          cases here
      | some child =>
        obtain ⟨child', found', view⟩ := tables_congr same (wf.noPair found) found
        obtain ⟨merged, elements⟩ := ihChildren k child found (hb.child found') view
        rw [found', Option.map_some, Option.map_some, toValue_eq, toValue_eq,
          ← (array_congr view).1, merged]
        split
        · rename_i array
          rw [elements array]
        · rfl
    · intro array
      have lengths := (array_congr same).2 array
      rw [elementValues_eq, elementValues_eq]
      apply List.ext_getElem
      · simpa using lengths
      · intro i inside inside'
        rw [List.length_map] at inside inside'
        rw [List.getElem_map, List.getElem_map]
        have view := elements_congr same (List.getElem?_eq_getElem inside)
          (List.getElem?_eq_getElem inside')
        exact congrArg Value.dictionary
          (ihMembers _ (List.getElem_mem inside) (hb.member _ (List.getElem_mem inside')) view).1

end Same

end TableNode

end Dross
