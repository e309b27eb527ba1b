import Dross.Format.AcceptedValues
import Dross.Type.ArrayRemove

/-!
# Accepted documents normalise

What is accepted is written, and what is written for it is read as an equal dictionary
for which the same text is written again.
-/

namespace Dross

open OrderedMap Toml

/-! ## Equality -/

namespace Value

variable {elements : List Value} {d : Dictionary}

theorem equalElements_back (all : ∀ v ∈ elements, v.equals v.comesBack = true) :
    equalElements elements (elementsBack elements) = true := by
  induction elements with
  | nil => rfl
  | cons v rest ih =>
    obtain ⟨first, others⟩ := List.forall_mem_cons.mp all
    rw [elementsBack, equalElements, first, ih others]
    rfl

theorem equalProperties_back (all : ∀ p ∈ d, p.2.equals p.2.comesBack = true) :
    equalProperties d (propertiesBack d) = true := by
  induction d with
  | nil => rfl
  | cons p rest ih =>
    obtain ⟨first, others⟩ := List.forall_mem_cons.mp all
    rw [propertiesBack, equalProperties, first, ih others]
    simp

/-- A value equals what it comes back as. -/
theorem equals_comesBack (v : Value) : v.equals v.comesBack = true := by
  induction v using Value.induction with
  | number n => exact Number.equals_iff_number.mpr rfl
  | array elements ih => exact equalElements_back ih
  | dictionary d ih => exact equalProperties_back ih
  | _ => exact equals_refl _

end Value

/-! ## The same text -/

namespace Toml

variable {v : Value} {d : Dictionary} {elements : List Value}

/-- What a number comes back as is written as the number is. -/
theorem numberText_comesBack (n : Number) : numberText n.comesBack = numberText n := by
  have nan : n.comesBack.isNan = n.isNan := rfl
  have integer : n.comesBack.isInteger = n.isInteger := rfl
  have out : n.comesBack.outOfInt64 = n.outOfInt64 := rfl
  have text : n.comesBack.number = n.number := rfl
  rw [numberText, nan, integer, out, text, numberText]
  cases number : n.isNan with
  | true => rfl
  | false =>
    have beyond := Number.outOfInt64_iff number
    have floating : (n.comesBack.isFloatingPoint || n.outOfInt64) =
        (n.isFloatingPoint || n.outOfInt64) := by
      rw [Number.isFloatingPoint, nan, Number.isFloatingPoint, number, Number.comesBack]
      by_cases large : n.BeyondInt64
      · rw [beyond.mpr large]
        simp
      · simp [large]
    rw [floating]

theorem isDictionary_comesBack (v : Value) : isDictionary v.comesBack = isDictionary v := by
  cases v <;> rfl

theorem isArrayOfTables_back (elements : List Value) :
    isArrayOfTables (.array (Value.elementsBack elements)) = isArrayOfTables (.array elements) := by
  have all : (elements.map Value.comesBack).all isDictionary = elements.all isDictionary := by
    rw [List.all_map]
    exact congrArg (List.all elements) (funext isDictionary_comesBack)
  rw [isArrayOfTables, isArrayOfTables, Value.elementsBack_eq, all]
  simp

theorem isWrittenAsTable_comesBack (v : Value) :
    isWrittenAsTable v.comesBack = isWrittenAsTable v := by
  cases v with
  | array elements => exact isArrayOfTables_back elements
  | _ => rfl

theorem elements_same (all : ∀ v ∈ elements, serializeValue v.comesBack = serializeValue v)
    (first : Bool) :
    serializeElements first (Value.elementsBack elements) = serializeElements first elements := by
  induction elements generalizing first with
  | nil => rfl
  | cons v rest ih =>
    obtain ⟨here, others⟩ := List.forall_mem_cons.mp all
    rw [Value.elementsBack, serializeElements_cons, serializeElements_cons, here, ih others]

theorem properties_same (all : ∀ p ∈ d, serializeValue p.2.comesBack = serializeValue p.2)
    (first : Bool) :
    serializeProperties first (Value.propertiesBack d) = serializeProperties first d := by
  induction d generalizing first with
  | nil => rfl
  | cons p rest ih =>
    obtain ⟨key, v⟩ := p
    obtain ⟨here, others⟩ := List.forall_mem_cons.mp all
    rw [Value.propertiesBack, serializeProperties_cons, serializeProperties_cons, here, ih others]

theorem serializeValue_comesBack (v : Value) : serializeValue v.comesBack = serializeValue v := by
  induction v using Value.induction with
  | number n => exact numberText_comesBack n
  | array elements ih =>
    rw [Value.comesBack, serializeValue, serializeValue, elements_same ih]
  | dictionary d ih =>
    rw [Value.comesBack, serializeValue, serializeValue, properties_same ih]
  | _ => rfl

theorem pairs_same (d : Dictionary) :
    serializePairs (Value.propertiesBack d) = serializePairs d := by
  induction d with
  | nil => rfl
  | cons p rest ih =>
    obtain ⟨key, v⟩ := p
    rw [Value.propertiesBack, serializePairs, serializePairs, isWrittenAsTable_comesBack, ih,
      serializeKeyValue, serializeKeyValue, serializeValue_comesBack]

/-- What is written under headers for the image of a value is what is written for the value. -/
def TablesSame : Value → Prop
  | .dictionary t => ∀ path, serializeTables path (Value.propertiesBack t) = serializeTables path t
  | .array elements => ∀ path,
      serializeElementTables path (Value.elementsBack elements) = serializeElementTables path elements
  | _ => True

theorem headed_same {t : Dictionary} (same : TablesSame (.dictionary t)) (path : List Text)
    (array : Bool) : headedTable path array (Value.propertiesBack t) = headedTable path array t := by
  rw [headedTable, headedTable, pairs_same, same]

theorem tables_same (same : ∀ p ∈ d, TablesSame p.2) (path : List Text) :
    serializeTables path (Value.propertiesBack d) = serializeTables path d := by
  induction d with
  | nil => rfl
  | cons p rest ih =>
    obtain ⟨key, v⟩ := p
    obtain ⟨here, others⟩ := List.forall_mem_cons.mp same
    rw [Value.propertiesBack]
    cases v with
    | dictionary t =>
      rw [Value.comesBack, serializeTables_dictionary, serializeTables_dictionary, headed_same here,
        ih others]
    | array elements =>
      rw [Value.comesBack, serializeTables, serializeTables, isArrayOfTables_back, here, ih others]
    | _ => simp only [Value.comesBack, serializeTables, ih others]

theorem elementTables_same (same : ∀ v ∈ elements, TablesSame v) (path : List Text) :
    serializeElementTables path (Value.elementsBack elements) = serializeElementTables path elements := by
  induction elements with
  | nil => rfl
  | cons v rest ih =>
    obtain ⟨here, others⟩ := List.forall_mem_cons.mp same
    rw [Value.elementsBack]
    cases v with
    | dictionary t =>
      rw [Value.comesBack, serializeElementTables_cons, serializeElementTables_cons,
        headed_same here, ih others]
    | _ => simp only [Value.comesBack, serializeElementTables, ih others]

theorem tablesSame (v : Value) : TablesSame v := by
  induction v using Value.induction with
  | array elements ih => exact elementTables_same ih
  | dictionary d ih => exact tables_same ih
  | _ => trivial

theorem serialize_propertiesBack (d : Dictionary) :
    serialize (Value.propertiesBack d) = serialize d := by
  rw [serialize, serialize, serializeDictionary, serializeDictionary, pairs_same,
    tablesSame (.dictionary d)]

/-- Whatever is accepted can be written, is read again as its equal, and is then written as the
same text. -/
theorem accepted_normalises {input : Text} {d : Dictionary} (accepted : deserialize input = .ok d) :
    AllValid (.dictionary d) ∧ Formed (.dictionary d) ∧
      ∃ text e, serialize d = .ok text ∧ deserialize text = .ok e ∧
        (Value.dictionary d).equals (.dictionary e) = true ∧ serialize e = .ok text := by
  have writable := accepted_writable accepted
  refine ⟨writable.valid, writable.formed, ?_⟩
  obtain ⟨text, written⟩ := (serialize_succeeds_iff d).1.mpr ⟨writable.formed, writable.valid⟩
  refine ⟨text, Value.propertiesBack d, written, deserialize_serialize writable.ordered written,
    Value.equals_comesBack (.dictionary d), ?_⟩
  rw [serialize_propertiesBack]
  exact written

/-- An integer of more than 64 bits, which comes back as floating point, after a string with an
escape. -/
def beyondInteger : Dictionary :=
  [([ch 'a'], .string [0xC3, 0xA9]),
    ([ch 'b'], .number (Number.ofText ("99999999999999999999".toList.map ch)))]

theorem accepted_normalises_beyond :
    AllValid (.dictionary beyondInteger) ∧ Formed (.dictionary beyondInteger) ∧
      ∃ text e, serialize beyondInteger = .ok text ∧ deserialize text = .ok e ∧
        (Value.dictionary beyondInteger).equals (.dictionary e) = true ∧ serialize e = .ok text :=
  @accepted_normalises ("a = \"\\u00e9\"\nb = 99999999999999999999\n".toList.map ch) _ rfl

end Toml

end Dross
