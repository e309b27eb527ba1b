import Dross.Format.TableTree
import Mathlib.Logic.Function.Basic

/-!
# What stands at each path

The tree of tables, seen as a map from paths to what stands there. On this view
a statement changes a few paths and leaves the others, and the tree does exactly
what the view does.
-/

namespace Dross

/-- What a path leads to. -/
inductive Place where
  | value (v : Value)
  | table (named dotted : Bool)
  | array (length : Nat)

abbrev Layout := Path → Option Place

namespace Layout

def put (L : Layout) (P : Path) (place : Place) : Layout := Function.update L P (some place)

/-- How many elements an array of tables has, and none where there is no array. -/
def length (L : Layout) (P : Path) : Nat :=
  match L P with
  | some (.array n) => n
  | _ => 0

/-- `add_pair` below a table -/
def addPair (L : Layout) (base : Path) (key : Text) (rest : List Text) (val : Value) :
    Option Layout :=
  let name := base ++ [.key key]
  match rest with
  | [] =>
    match L name with
    | none => some (L.put name (.value val))
    | some _ => none
  | next :: rest =>
    match L name with
    | none => (L.put name (.table false true)).addPair name next rest val
    | some (.table _ true) => L.addPair name next rest val
    | some _ => none

/-- The last part of a header. -/
def nameTable (L : Layout) (name : Path) (array : Bool) : Option (Layout × Path) :=
  match array, L name with
  | true, none =>
    some ((L.put name (.array 1)).put (name ++ [.element 0]) (.table false false),
      name ++ [.element 0])
  | true, some (.array n) =>
    some ((L.put name (.array (n + 1))).put (name ++ [.element n]) (.table false false),
      name ++ [.element n])
  | true, some _ => none
  | false, none => some (L.put name (.table true false), name)
  | false, some (.table false false) => some (L.put name (.table true false), name)
  | false, some _ => none

/-- `open_table` from a table on -/
def openTable (L : Layout) (base : Path) (key : Text) (rest : List Text) (array : Bool) :
    Option (Layout × Path) :=
  let name := base ++ [.key key]
  match rest with
  | [] => L.nameTable name array
  | next :: rest =>
    match L name with
    | none => (L.put name (.table false false)).openTable name next rest array
    | some (.value _) => none
    | some (.table _ _) => L.openTable name next rest array
    | some (.array n) => L.openTable (name ++ [.element (n - 1)]) next rest array

@[simp] theorem put_self (L : Layout) (P : Path) (place : Place) : L.put P place P = some place :=
  Function.update_self _ _ _

theorem put_ne {P Q : Path} (h : Q ≠ P) (L : Layout) (place : Place) :
    L.put P place Q = L Q := Function.update_of_ne h _ _

/-- Nothing changes but below a path. -/
def Frame (L M : Layout) (B : Path) : Prop := ∀ Q, ¬ B <+: Q → M Q = L Q

@[simp] theorem put_put (L : Layout) (P : Path) (place place' : Place) :
    (L.put P place).put P place' = L.put P place' := Function.update_idem _ _ _

theorem frame_put (L : Layout) (P : Path) (place : Place) : Frame L (L.put P place) P := by
  intro Q h
  refine put_ne ?_ L place
  rintro rfl
  exact h List.prefix_rfl

namespace Frame

variable {L M N : Layout} {B : Path}

theorem refl : Frame L L B := fun _ _ => rfl

theorem trans (h : Frame L M B) (k : Frame M N B) : Frame L N B :=
  fun Q out => (k Q out).trans (h Q out)

theorem up {C : Path} (h : Frame L M (B ++ C)) : Frame L M B :=
  fun Q out => h Q (fun inside => out ((List.prefix_append B C).trans inside))

theorem first {s : Segment} {P : Path} (h : Frame L M (B ++ s :: P)) : Frame L M (B ++ [s]) := by
  rw [List.append_cons] at h
  exact h.up

end Frame

end Layout

namespace TableNode

open OrderedMap

/-! ## The view of a tree -/

def place (node : TableNode) : Place :=
  if node.array then .array node.elements.length else .table node.named node.dotted

/-- What stands at a path below a node. -/
def view : TableNode → Layout
  | node, [] => some node.place
  | node, .key k :: P =>
    match find node.pairs k with
    | some v => if P = [] then some (.value v) else none
    | none => (find node.tables k).bind (fun child => child.view P)
  | node, .element i :: P => node.elements[i]?.bind (fun child => child.view P)

/-- A key is in one of the two maps of a node, and an array has elements and
nothing else. -/
structure Sound (node : TableNode) : Prop where
  disjoint : ∀ k, contains node.pairs k = true → contains node.tables k = false
  sorted : Sorted node.pairs ∧ Sorted node.tables
  isArray : node.array = true →
    node.pairs = [] ∧ node.tables = [] ∧ node.dotted = false ∧ node.elements ≠ []
  isTable : node.array = false → node.elements = []
  members : ∀ e ∈ node.elements, e.array = false

/-- Every node of the tree is sound. -/
inductive WellFormed : TableNode → Prop
  | intro {node : TableNode} (sound : node.Sound)
      (children : ∀ k child, find node.tables k = some child → WellFormed child)
      (members : ∀ e ∈ node.elements, WellFormed e) : WellFormed node

namespace WellFormed

variable {node table : TableNode} {k : Text}

theorem sound (h : WellFormed node) : node.Sound := by
  cases h
  assumption

theorem child (h : WellFormed node) (found : find node.tables k = some table) :
    WellFormed table := by
  cases h with
  | intro _ children _ => exact children k table found

theorem member (h : WellFormed node) : ∀ e ∈ node.elements, WellFormed e := by
  cases h
  assumption

theorem fresh (dotted : Bool) : WellFormed { TableNode.fresh with dotted := dotted } :=
  ⟨⟨nofun, ⟨sorted_nil, sorted_nil⟩, nofun, fun _ => rfl, nofun⟩, nofun, nofun⟩

theorem setTable (h : WellFormed node) (absent : find node.pairs k = none)
    (plain : node.array = false) (ht : WellFormed table) : WellFormed (node.setTable k table) := by
  refine ⟨⟨?_, ⟨h.sound.sorted.1, h.sound.sorted.2.set k table⟩, ?_, h.sound.isTable,
    h.sound.members⟩, ?_, h.member⟩
  · intro j inPairs
    have absent' := contains_eq_false.mpr absent
    have other : j ≠ k := by
      rintro rfl
      rw [show contains node.pairs j = true from inPairs] at absent'
      cases absent'
    rw [contains_eq_false, TableNode.setTable, find_set_ne other]
    exact contains_eq_false.mp (h.sound.disjoint j inPairs)
  · intro array
    rw [show (node.setTable k table).array = node.array from rfl, plain] at array
    cases array
  · intro j other found
    rw [TableNode.setTable, find_set] at found
    split at found
    · exact Option.some.inj found ▸ ht
    · exact h.child found

theorem setPairs (h : WellFormed node) (absent : find node.tables k = none)
    (plain : node.array = false) (v : Value) :
    WellFormed { node with pairs := set node.pairs k v } := by
  refine ⟨⟨?_, ⟨h.sound.sorted.1.set k v, h.sound.sorted.2⟩, ?_, h.sound.isTable,
    h.sound.members⟩, fun _ _ => h.child, h.member⟩
  · intro j inPairs
    by_cases same : j = k
    · rw [same]
      exact contains_eq_false.mpr absent
    · refine h.sound.disjoint j ?_
      rwa [contains, find_set_ne same] at inPairs
  · intro array
    rw [show node.array = true from array] at plain
    cases plain

theorem setElements (h : WellFormed node) (array : node.array = true)
    {elements : List TableNode} (nonempty : elements ≠ [])
    (members : ∀ e ∈ elements, WellFormed e ∧ e.array = false) :
    WellFormed { node with elements := elements } := by
  obtain ⟨pairs, tables, dotted, -⟩ := h.sound.isArray array
  refine ⟨⟨h.sound.disjoint, h.sound.sorted, fun _ => ⟨pairs, tables, dotted, nonempty⟩, ?_,
    fun e mem => (members e mem).2⟩, fun _ _ => h.child, fun e mem => (members e mem).1⟩
  intro plain
  rw [show node.array = false from plain] at array
  cases array

end WellFormed

section View

variable {node child : TableNode} {k j : Text} {P : Path}

theorem view_key (absent : find node.pairs k = none) :
    node.view (.key k :: P) = (find node.tables k).bind (fun child => child.view P) := by
  rw [view, absent]

theorem view_child (absent : find node.pairs k = none) (found : find node.tables k = some child) :
    node.view (.key k :: P) = child.view P := by
  rw [view_key absent, found]
  rfl

theorem view_pair {v : Value} (found : find node.pairs k = some v) :
    node.view (.key k :: P) = if P = [] then some (.value v) else none := by
  rw [view, found]

theorem view_setTable_self (absent : find node.pairs k = none) :
    (node.setTable k child).view (.key k :: P) = child.view P := by
  rw [@view_child (node.setTable k child) _ _ _ absent (find_set_self _ _ _)]

theorem view_setTable_ne (h : j ≠ k) :
    (node.setTable k child).view (.key j :: P) = node.view (.key j :: P) := by
  simp only [view, setTable, find_set_ne h]

end View

/-- A layout shows a node at a path where it has the node's places below. -/
def ShownBy (node : TableNode) (L : Layout) (B : Path) : Prop := ∀ P, L (B ++ P) = node.view P

section Shown

variable {node table : TableNode} {L M : Layout} {B : Path} {k : Text}

theorem ShownBy.child (h : node.ShownBy L B) (absent : find node.pairs k = none)
    (found : find node.tables k = some table) : table.ShownBy L (B ++ [.key k]) := by
  intro P
  rw [List.append_assoc, List.singleton_append, h, view_child absent found]

/-- A node below which something was changed. -/
theorem ShownBy.setTable (h : node.ShownBy L B) (absent : find node.pairs k = none)
    (changed : table.ShownBy M (B ++ [.key k])) (frame : Layout.Frame L M (B ++ [.key k])) :
    (node.setTable k table).ShownBy M B := by
  have outside : ∀ P, ¬ [Segment.key k] <+: P → M (B ++ P) = node.view P := by
    intro P out
    rw [frame (B ++ P) (fun inside => out (by simpa using inside)), h]
  intro P
  cases P with
  | nil => exact outside [] (by simp)
  | cons s P =>
    cases s with
    | element i => exact outside _ (by simp)
    | key j =>
      by_cases same : j = k
      · subst same
        have below := changed P
        rw [List.append_assoc, List.singleton_append] at below
        rw [below, view_setTable_self absent]
      · rw [view_setTable_ne same]
        exact outside _ (by simpa using fun same' => same same'.symm)

/-- A node that did not exist and has nothing in it is shown once its place is put. -/
theorem ShownBy.created (h : node.ShownBy L B) (noPair : find node.pairs k = none)
    (missing : find node.tables k = none) (bare : ∀ s P, table.view (s :: P) = none) :
    table.ShownBy (L.put (B ++ [.key k]) table.place) (B ++ [.key k]) := by
  intro P
  cases P with
  | nil =>
    rw [List.append_nil, Layout.put_self]
    rfl
  | cons s P =>
    rw [Layout.put_ne (by simp), List.append_assoc, List.singleton_append, h, view_key noPair,
      missing, bare]
    rfl

theorem ShownBy.element (h : node.ShownBy L B) {i : Nat} (found : node.elements[i]? = some table) :
    table.ShownBy L (B ++ [.element i]) := by
  intro P
  rw [List.append_assoc, List.singleton_append, h, view, found]
  rfl

/-- An element below which something was changed. -/
theorem ShownBy.setElement (h : node.ShownBy L B) {i : Nat} (inside : i < node.elements.length)
    (changed : table.ShownBy M (B ++ [.element i]))
    (frame : Layout.Frame L M (B ++ [.element i])) :
    ({ node with elements := node.elements.set i table } : TableNode).ShownBy M B := by
  have outside : ∀ P, ¬ [Segment.element i] <+: P → M (B ++ P) = node.view P := by
    intro P out
    rw [frame (B ++ P) (fun inside => out (by simpa using inside)), h]
  intro P
  cases P with
  | nil =>
    rw [outside [] (by simp)]
    simp [view, place]
  | cons s P =>
    cases s with
    | key j => exact outside _ (by simp)
    | element j =>
      by_cases same : j = i
      · subst same
        have below := changed P
        rw [List.append_assoc, List.singleton_append] at below
        rw [below, view, List.getElem?_set_self inside]
        rfl
      · rw [outside _ (by simpa using fun same' => same same'.symm), view, view,
          List.getElem?_set_ne (Ne.symm same)]

end Shown

end TableNode

end Dross
