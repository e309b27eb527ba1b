import Dross.Library.InPlaceErase
import Dross.Type.NumberOrder
import Dross.Type.Value

/-!
# Removing a value from an array

The argument of `array::remove` may be an element of the array itself. It is read while the
array is compacted, so its value can change before all its occurrences are removed.
-/

namespace Dross

namespace Value

mutual

/-- `value::equals`, the equality of what the two hold. -/
def equals : Value → Value → Bool
  | .null, .null => true
  | .boolean a, .boolean b => a == b
  | .number a, .number b => a.equals b
  | .string a, .string b => a == b
  | .array a, .array b => equalElements a b
  | .dictionary a, .dictionary b => equalProperties a b
  | .timestamp a, .timestamp b => a.equals b
  | .data a, .data b => a == b
  | _, _ => false

def equalElements : List Value → List Value → Bool
  | [], [] => true
  | v :: a, w :: b => v.equals w && equalElements a b
  | _, _ => false

def equalProperties : Dictionary → Dictionary → Bool
  | [], [] => true
  | (key, v) :: a, (key', w) :: b => key == key' && v.equals w && equalProperties a b
  | _, _ => false

end

section Equality

variable {a b c : List Value} {d e f : Dictionary}

theorem equalElements_refl (same : ∀ v ∈ a, v.equals v = true) : equalElements a a = true := by
  induction a with
  | nil => rfl
  | cons v a ih =>
    obtain ⟨first, others⟩ := List.forall_mem_cons.mp same
    rw [equalElements, first, ih others]
    rfl

theorem equalProperties_refl (same : ∀ p ∈ d, p.2.equals p.2 = true) :
    equalProperties d d = true := by
  induction d with
  | nil => rfl
  | cons p d ih =>
    obtain ⟨first, others⟩ := List.forall_mem_cons.mp same
    rw [equalProperties, first, ih others]
    simp

theorem equals_refl (v : Value) : v.equals v = true := by
  induction v using Value.induction with
  | null => rfl
  | boolean b => simp [equals]
  | number n => exact Number.equals_iff_number.mpr rfl
  | string s => simp [equals]
  | array elements ih => exact equalElements_refl ih
  | dictionary d ih => exact equalProperties_refl ih
  | timestamp t => simp [equals, Timestamp.equals]
  | data bytes => simp [equals]

theorem equalElements_symm (symm : ∀ v ∈ a, ∀ w : Value, v.equals w = true → w.equals v = true)
    (same : equalElements a b = true) : equalElements b a = true := by
  induction a generalizing b with
  | nil =>
    cases b with
    | nil => rfl
    | cons w b => cases same
  | cons v a ih =>
    cases b with
    | nil => cases same
    | cons w b =>
      obtain ⟨first, others⟩ := List.forall_mem_cons.mp symm
      rw [equalElements, Bool.and_eq_true] at same ⊢
      exact ⟨first w same.1, ih others same.2⟩

theorem equalProperties_symm
    (symm : ∀ p ∈ d, ∀ w : Value, p.2.equals w = true → w.equals p.2 = true)
    (same : equalProperties d e = true) : equalProperties e d = true := by
  induction d generalizing e with
  | nil =>
    cases e with
    | nil => rfl
    | cons q e => cases same
  | cons p d ih =>
    cases e with
    | nil => cases same
    | cons q e =>
      obtain ⟨first, others⟩ := List.forall_mem_cons.mp symm
      rw [equalProperties, Bool.and_eq_true, Bool.and_eq_true, beq_iff_eq] at same ⊢
      exact ⟨⟨same.1.1.symm, first q.2 same.1.2⟩, ih others same.2⟩

theorem equals_symm (v w : Value) (same : v.equals w = true) : w.equals v = true := by
  induction v using Value.induction generalizing w with
  | array elements ih =>
    cases w with
    | array b => exact equalElements_symm ih same
    | _ => cases same
  | dictionary d ih =>
    cases w with
    | dictionary e => exact equalProperties_symm ih same
    | _ => cases same
  | number n =>
    cases w with
    | number m =>
      exact Number.equals_iff_number.mpr (Number.equals_iff_number.mp same).symm
    | _ => cases same
  | null =>
    cases w with
    | null => rfl
    | _ => cases same
  | boolean b =>
    cases w with
    | boolean other => exact beq_iff_eq.mpr (beq_iff_eq.mp same).symm
    | _ => cases same
  | string s =>
    cases w with
    | string other => exact beq_iff_eq.mpr (beq_iff_eq.mp same).symm
    | _ => cases same
  | timestamp t =>
    cases w with
    | timestamp other => exact beq_iff_eq.mpr (beq_iff_eq.mp same).symm
    | _ => cases same
  | data bytes =>
    cases w with
    | data other => exact beq_iff_eq.mpr (beq_iff_eq.mp same).symm
    | _ => cases same

theorem equalElements_trans
    (trans : ∀ u ∈ a, ∀ v w : Value, u.equals v = true → v.equals w = true → u.equals w = true)
    (first : equalElements a b = true) (second : equalElements b c = true) :
    equalElements a c = true := by
  induction a generalizing b c with
  | nil =>
    cases b with
    | nil => exact second
    | cons v b => cases first
  | cons u a ih =>
    cases b with
    | nil => cases first
    | cons v b =>
      cases c with
      | nil => cases second
      | cons w c =>
        obtain ⟨here, others⟩ := List.forall_mem_cons.mp trans
        rw [equalElements, Bool.and_eq_true] at first second ⊢
        exact ⟨here v w first.1 second.1, ih others first.2 second.2⟩

theorem equalProperties_trans
    (trans : ∀ p ∈ d, ∀ v w : Value, p.2.equals v = true → v.equals w = true → p.2.equals w = true)
    (first : equalProperties d e = true) (second : equalProperties e f = true) :
    equalProperties d f = true := by
  induction d generalizing e f with
  | nil =>
    cases e with
    | nil => exact second
    | cons q e => cases first
  | cons p d ih =>
    cases e with
    | nil => cases first
    | cons q e =>
      cases f with
      | nil => cases second
      | cons r f =>
        obtain ⟨here, others⟩ := List.forall_mem_cons.mp trans
        rw [equalProperties, Bool.and_eq_true, Bool.and_eq_true, beq_iff_eq] at first second ⊢
        exact ⟨⟨first.1.1.trans second.1.1, here q.2 r.2 first.1.2 second.1.2⟩,
          ih others first.2 second.2⟩

theorem equals_trans (u v w : Value) (first : u.equals v = true) (second : v.equals w = true) :
    u.equals w = true := by
  induction u using Value.induction generalizing v w with
  | array elements ih =>
    cases v with
    | array b =>
      cases w with
      | array c => exact equalElements_trans ih first second
      | _ => cases second
    | _ => cases first
  | dictionary d ih =>
    cases v with
    | dictionary e =>
      cases w with
      | dictionary f => exact equalProperties_trans ih first second
      | _ => cases second
    | _ => cases first
  | number n =>
    cases v with
    | number m =>
      cases w with
      | number k =>
        exact Number.equals_iff_number.mpr
          ((Number.equals_iff_number.mp first).trans (Number.equals_iff_number.mp second))
      | _ => cases second
    | _ => cases first
  | null =>
    cases v with
    | null => exact second
    | _ => cases first
  | boolean b =>
    cases v with
    | boolean other =>
      cases w with
      | boolean last => exact beq_iff_eq.mpr ((beq_iff_eq.mp first).trans (beq_iff_eq.mp second))
      | _ => cases second
    | _ => cases first
  | string s =>
    cases v with
    | string other =>
      cases w with
      | string last => exact beq_iff_eq.mpr ((beq_iff_eq.mp first).trans (beq_iff_eq.mp second))
      | _ => cases second
    | _ => cases first
  | timestamp t =>
    cases v with
    | timestamp other =>
      cases w with
      | timestamp last => exact beq_iff_eq.mpr ((beq_iff_eq.mp first).trans (beq_iff_eq.mp second))
      | _ => cases second
    | _ => cases first
  | data bytes =>
    cases v with
    | data other =>
      cases w with
      | data last => exact beq_iff_eq.mpr ((beq_iff_eq.mp first).trans (beq_iff_eq.mp second))
      | _ => cases second
    | _ => cases first

end Equality

end Value

/-- An argument of `array::remove`: a value of its own, or an element of the array. -/
inductive RemoveArgument (contents : List Value) where
  | own (v : Value)
  | element (i : Fin contents.length)

namespace RemoveArgument

variable {contents : List Value}

/-- Its value at the call. -/
def value : RemoveArgument contents → Value
  | own v => v
  | element i => contents[i]

def reference : RemoveArgument contents → InPlace.Reference Value
  | own v => .own v
  | element i => .slot i

end RemoveArgument

/-- `array::remove` -/
def removeValue (contents : List Value) (v : RemoveArgument contents) : List Value :=
  InPlace.erase Value.equals .null contents v.reference

section Removing

variable {contents : List Value}

/-- No element takes the place of the argument before all that equal either have been removed. -/
def Undisturbed : RemoveArgument contents → Prop
  | .own _ => True
  | .element i => ∀ front x rest, contents = front ++ x :: rest →
      (front.filter (fun y => ! y.equals contents[i])).length = i.val →
      x.equals contents[i] = false →
      ∀ y ∈ rest, y.equals contents[i] = false ∧ y.equals x = false

/-- What is removed is what equals the value of the argument at the call, unless an element
takes its place too soon. -/
theorem removeValue_iff (v : RemoveArgument contents) :
    removeValue contents v = contents.filter (fun x => ! x.equals v.value) ↔ Undisturbed v := by
  cases v with
  | own v => exact iff_of_true (InPlace.erase_own _ _ _ _) trivial
  | element i =>
    have here : contents[i.val]? = some contents[i] := List.getElem?_eq_getElem i.isLt
    rw [removeValue, RemoveArgument.reference, InPlace.erase_slot Value.equals_refl _ here]
    exact InPlace.sweep_eq_iff Value.equals_symm Value.equals_trans i contents

/-- Of two occurrences around another value the second stays, and the other value goes. -/
theorem removeValue_first :
    removeValue [.boolean true, .boolean false, .boolean true] (.element 0) =
        [.boolean false, .boolean true] ∧
      removeValue [.boolean true, .boolean false, .boolean true] (.element 0) ≠
        [.boolean true, .boolean false, .boolean true].filter
          (fun x => ! x.equals (.boolean true)) := by
  have left : removeValue [.boolean true, .boolean false, .boolean true] (.element 0) =
      [.boolean false, .boolean true] := rfl
  have right : [Value.boolean true, .boolean false, .boolean true].filter
      (fun x => ! x.equals (.boolean true)) = [.boolean false] := rfl
  refine ⟨left, ?_⟩
  rw [left, right]
  nofun

end Removing

end Dross
