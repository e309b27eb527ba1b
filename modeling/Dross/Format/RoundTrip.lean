import Dross.Format.DocumentForms

/-!
# The round trip

What is written for a dictionary is read as the dictionary it came from. Only an
integral number that no TOML integer holds comes back otherwise, as floating point.
-/

namespace Dross

open OrderedMap Toml

namespace Value

mutual

/-- The same structure with the same contents, where an integral number beyond 64 bits has
become floating point. -/
def Returns : Value → Value → Prop
  | .null, .null => True
  | .boolean a, .boolean b => b = a
  | .number a, .number b => b.number = a.number ∧
      (b.isFloatingPoint = true ↔ a.isFloatingPoint = true ∨ (a.isInteger = true ∧ a.BeyondInt64))
  | .string a, .string b => b = a
  | .array a, .array b => ElementsReturn a b
  | .dictionary a, .dictionary b => PropertiesReturn a b
  | .timestamp a, .timestamp b => b = a
  | .data a, .data b => b = a
  | _, _ => False

def ElementsReturn : List Value → List Value → Prop
  | [], [] => True
  | v :: a, w :: b => v.Returns w ∧ ElementsReturn a b
  | _, _ => False

def PropertiesReturn : Dictionary → Dictionary → Prop
  | [], [] => True
  | (key, v) :: a, (key', w) :: b => key' = key ∧ v.Returns w ∧ PropertiesReturn a b
  | _, _ => False

end

theorem elements_return {elements : List Value} (all : ∀ v ∈ elements, v.Returns v.comesBack) :
    ElementsReturn elements (elementsBack elements) := by
  induction elements with
  | nil => trivial
  | cons v rest ih =>
    obtain ⟨first, others⟩ := List.forall_mem_cons.mp all
    exact ⟨first, ih others⟩

theorem properties_return {d : Dictionary} (all : ∀ p ∈ d, p.2.Returns p.2.comesBack) :
    PropertiesReturn d (propertiesBack d) := by
  induction d with
  | nil => trivial
  | cons p rest ih =>
    obtain ⟨first, others⟩ := List.forall_mem_cons.mp all
    exact ⟨rfl, first, ih others⟩

theorem number_returns (n : Number) : (Value.number n).Returns (.number n.comesBack) := by
  refine ⟨rfl, ?_⟩
  have text : n.comesBack.isNan = n.isNan := rfl
  rw [Number.isFloatingPoint, text, Number.isFloatingPoint, Number.isInteger, Number.comesBack]
  cases nan : n.isNan with
  | true => simp
  | false => simp [Number.isInteger, nan]

theorem returns_comesBack (v : Value) : v.Returns v.comesBack := by
  induction v using Value.induction with
  | number n => exact number_returns n
  | array elements ih => exact elements_return ih
  | dictionary d ih => exact properties_return ih
  | null => trivial
  | _ => rfl

theorem ordered_comesBack {v : Value} (ordered : v.Ordered) : v.comesBack.Ordered := by
  induction v using Value.induction with
  | array elements ih =>
    rw [comesBack, elementsBack_eq]
    refine orderedElements_iff.mpr fun w mem => ?_
    obtain ⟨v, here, rfl⟩ := List.mem_map.mp mem
    exact ih v here (orderedElements_iff.mp ordered v here)
  | dictionary d ih =>
    obtain ⟨sorted, inside⟩ := ordered
    refine ⟨sorted_propertiesBack.mpr sorted, ?_⟩
    rw [propertiesBack_eq]
    refine orderedProperties_iff.mpr fun q mem => ?_
    obtain ⟨p, here, rfl⟩ := List.mem_map.mp mem
    exact ih p here (orderedProperties_iff.mp inside p here)
  | _ => trivial

end Value

namespace Toml

variable {d : Dictionary} {text : Text}

theorem serialize_ok (written : serialize d = .ok text) :
    serializeDictionary d [] = .ok text ∧ isValidUtf8 text = true := by
  unfold serialize at written
  split at written
  · cases written
  · rename_i output done
    split at written
    · cases written
    · rename_i valid
      obtain rfl := Except.ok.inj written
      exact ⟨done, by simpa using valid⟩

/-- What is written for a dictionary is read as its image. -/
theorem deserialize_serialize (ordered : (Value.dictionary d).Ordered)
    (written : serialize d = .ok text) : deserialize text = .ok (Value.propertiesBack d) := by
  obtain ⟨output, valid⟩ := serialize_ok written
  obtain ⟨read, same, spells⟩ := Cursor.dictionary_spelled ordered output
  obtain ⟨after, builds⟩ := dictionary_builds ordered
  have parsed : (Cursor.start text).parse = .ok (Value.propertiesBack d) :=
    Cursor.parse_ok_iff.mpr ⟨read, _, spells, builds read same, (merges ordered).symm⟩
  rw [deserialize]
  cases text with
  | nil =>
    have nothing : (Cursor.start []).parse = .ok [] := rfl
    rw [nothing] at parsed
    exact parsed
  | cons byte text =>
    rw [valid, parsed]
    rfl

/-- Whatever dictionary can be written is read again, with the same keys, kinds and contents. -/
theorem round_trip (ordered : (Value.dictionary d).Ordered) (written : serialize d = .ok text) :
    ∃ e, deserialize text = .ok e ∧ (Value.dictionary e).Ordered ∧
      (Value.dictionary d).Returns (.dictionary e) :=
  ⟨_, deserialize_serialize ordered written, Value.ordered_comesBack ordered,
    Value.returns_comesBack (.dictionary d)⟩

/-- A string under an empty key, and an array of tables with a table in the first. -/
def nestedTables : Dictionary :=
  [([], .string [ch '"', 1]),
    ([ch 'a'], .array [
      .dictionary [([ch 'n'], .number (Number.ofText [ch '7'])), ([ch 't'], .dictionary [])],
      .dictionary []])]

theorem round_trip_nested : ∃ e,
    deserialize ("\"\" = \"\\\"\\u0001\"\n\n[[a]]\nn = 7\n\n[a.t]\n\n[[a]]\n".toList.map ch) = .ok e ∧
      (Value.dictionary e).Ordered ∧ (Value.dictionary nestedTables).Returns (.dictionary e) := by
  refine round_trip ?_ (by decide +kernel)
  have less : ([] : Text) < [ch 'a'] ∧ [ch 'n'] < [ch 't'] := by decide
  simp [nestedTables, Value.Ordered, Value.OrderedElements, Value.OrderedProperties, Sorted, less]

end Toml

end Dross
