import Dross.Library.OrderedMap
import Dross.Type.Number
import Dross.Type.Timestamp
import Mathlib.Data.List.Lex

/-!
# Values

A value is one of the types of the library, an array of values or a dictionary.
A dictionary is a map ordered by its keys as bytes, so a value that can occur
has the keys of each of its dictionaries in increasing order.
-/

namespace Dross

instance byteOrder : LinearOrder UInt8 where
  le_refl := UInt8.le_refl
  le_trans _ _ _ := UInt8.le_trans
  le_antisymm _ _ := UInt8.le_antisymm
  le_total := UInt8.le_total
  lt_iff_le_not_ge a b := by
    simp only [UInt8.lt_iff_toNat_lt, UInt8.le_iff_toNat_le]
    omega
  toDecidableLE := inferInstance
  toDecidableLT := inferInstance
  toDecidableEq := inferInstance

inductive Value where
  | null
  | boolean (b : Bool)
  | number (n : Number)
  | string (s : Text)
  | array (elements : List Value)
  | dictionary (properties : List (Text × Value))
  | timestamp (t : Timestamp)
  | data (bytes : Text)

abbrev Dictionary := List (Text × Value)

namespace Value

variable {motive : Value → Prop}

mutual

/-- Induction over a value, its elements and the values under its keys. -/
@[elab_as_elim] theorem induction (null : motive .null) (boolean : ∀ b, motive (.boolean b))
    (number : ∀ n, motive (.number n)) (string : ∀ s, motive (.string s))
    (array : ∀ elements, (∀ v ∈ elements, motive v) → motive (.array elements))
    (dictionary : ∀ d : Dictionary, (∀ p ∈ d, motive p.2) → motive (.dictionary d))
    (timestamp : ∀ t, motive (.timestamp t)) (data : ∀ bytes, motive (.data bytes)) :
    ∀ v, motive v
  | .null => null
  | .boolean b => boolean b
  | .number n => number n
  | .string s => string s
  | .array elements =>
    array elements (forElements null boolean number string array dictionary timestamp data elements)
  | .dictionary d =>
    dictionary d (forProperties null boolean number string array dictionary timestamp data d)
  | .timestamp t => timestamp t
  | .data bytes => data bytes

theorem forElements (null : motive .null) (boolean : ∀ b, motive (.boolean b))
    (number : ∀ n, motive (.number n)) (string : ∀ s, motive (.string s))
    (array : ∀ elements, (∀ v ∈ elements, motive v) → motive (.array elements))
    (dictionary : ∀ d : Dictionary, (∀ p ∈ d, motive p.2) → motive (.dictionary d))
    (timestamp : ∀ t, motive (.timestamp t)) (data : ∀ bytes, motive (.data bytes)) :
    ∀ elements : List Value, ∀ v ∈ elements, motive v
  | [], _, mem => by cases mem
  | e :: es, v, mem =>
    (List.mem_cons.mp mem).elim
      (fun here => here ▸ induction null boolean number string array dictionary timestamp data e)
      (forElements null boolean number string array dictionary timestamp data es v)

theorem forProperties (null : motive .null) (boolean : ∀ b, motive (.boolean b))
    (number : ∀ n, motive (.number n)) (string : ∀ s, motive (.string s))
    (array : ∀ elements, (∀ v ∈ elements, motive v) → motive (.array elements))
    (dictionary : ∀ d : Dictionary, (∀ p ∈ d, motive p.2) → motive (.dictionary d))
    (timestamp : ∀ t, motive (.timestamp t)) (data : ∀ bytes, motive (.data bytes)) :
    ∀ d : Dictionary, ∀ p ∈ d, motive p.2
  | [], _, mem => by cases mem
  | (_, w) :: rest, p, mem =>
    (List.mem_cons.mp mem).elim
      (fun here => here ▸ induction null boolean number string array dictionary timestamp data w)
      (forProperties null boolean number string array dictionary timestamp data rest p)

end

mutual

/-- The keys of every dictionary in the value are in order. -/
def Ordered : Value → Prop
  | .array elements => OrderedElements elements
  | .dictionary d => OrderedMap.Sorted d ∧ OrderedProperties d
  | _ => True

def OrderedElements : List Value → Prop
  | [] => True
  | v :: rest => v.Ordered ∧ OrderedElements rest

def OrderedProperties : Dictionary → Prop
  | [] => True
  | (_, v) :: rest => v.Ordered ∧ OrderedProperties rest

end

theorem orderedElements_iff {elements : List Value} :
    OrderedElements elements ↔ ∀ v ∈ elements, v.Ordered := by
  induction elements with
  | nil => simp [OrderedElements]
  | cons v rest ih => simp [OrderedElements, ih]

theorem orderedProperties_iff {d : Dictionary} :
    OrderedProperties d ↔ ∀ p ∈ d, p.2.Ordered := by
  induction d with
  | nil => simp [OrderedProperties]
  | cons p rest ih => simp [OrderedProperties, ih]

section Everywhere

variable (leaf : Value → Prop) (name : Text → Prop)

mutual

/-- What holds of every value at any depth that holds no others, and of every key. -/
def Everywhere : Value → Prop
  | .array elements => EverywhereElements elements
  | .dictionary d => EverywhereProperties d
  | v => leaf v

def EverywhereElements : List Value → Prop
  | [] => True
  | v :: rest => v.Everywhere ∧ EverywhereElements rest

def EverywhereProperties : Dictionary → Prop
  | [] => True
  | (key, v) :: rest => (name key ∧ v.Everywhere) ∧ EverywhereProperties rest

end

end Everywhere

theorem everywhereElements_iff {leaf : Value → Prop} {name : Text → Prop} {elements : List Value} :
    EverywhereElements leaf name elements ↔ ∀ v ∈ elements, v.Everywhere leaf name := by
  induction elements with
  | nil => simp [EverywhereElements]
  | cons v rest ih => simp [EverywhereElements, ih]

theorem everywhereProperties_iff {leaf : Value → Prop} {name : Text → Prop} {d : Dictionary} :
    EverywhereProperties leaf name d ↔ ∀ p ∈ d, name p.1 ∧ p.2.Everywhere leaf name := by
  induction d with
  | nil => simp [EverywhereProperties]
  | cons p rest ih => simp [EverywhereProperties, ih]

end Value

end Dross
