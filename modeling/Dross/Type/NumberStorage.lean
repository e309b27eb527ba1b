import Dross.Library.Transition
import Dross.Type.Modulo

/-!
# The storage of numbers

A number owns its storage. Nothing in the storage itself says that its text is canonical
or that a fraction is floating point: this follows from every way there is to make,
move and assign numbers, in any order.
-/

namespace Dross

/-- `number::storage`, as declared. -/
structure Storage where
  number : Text
  floatingPoint : Bool
  deriving DecidableEq

/-- What an arithmetic type gives: the value of an integer, or what `std::to_chars` writes
of a floating-point value, if it has the room. -/
inductive ArithmeticValue where
  | integer (n : Int)
  | floating (written : Option Text)

namespace ArithmeticValue

/-- `std::to_string` -/
def integerText (n : Int) : Text := signed (n < 0) (countText n.natAbs)

/-- `arithmetic_text` -/
def arithmeticText : ArithmeticValue → Text
  | integer n => integerText n
  | floating written => written.getD []

def isFloatingPoint : ArithmeticValue → Bool
  | integer _ => false
  | floating _ => true

end ArithmeticValue

namespace Storage

/-- `storage()` -/
def zero : Storage := ⟨[ch '0'], false⟩

/-- `storage(s)`, and `assign(s)` -/
def ofText (s : Text) : Storage := ⟨canonicalText s, isWrittenAsFloatingPoint s⟩

/-- `number(n)` for an arithmetic type -/
def ofArithmetic (n : ArithmeticValue) : Storage :=
  ⟨canonicalText n.arithmeticText, n.isFloatingPoint⟩

def isNan (s : Storage) : Bool := s.number == nanValue

def isFloatingPoint (s : Storage) : Bool := ! s.isNan && s.floatingPoint

/-- `number(number&& n)`: what was in `n`, and what is left there. -/
def takeFrom (n : Storage) : Storage × Storage := (n, zero)

/-- `operator=(number&& n)` between two numbers: the storages swap, and the source is
made zero. -/
def moveFrom (own n : Storage) : Storage × Storage :=
  let swapped := (n, own)
  (swapped.1, { number := zero.number, floatingPoint := false })

def calculate (a b : Storage) (op : ArithmeticOperation) : Option Storage :=
  (performArithmetic a.number b.number op).map (fun text =>
    let result := ofText text
    { result with floatingPoint := result.floatingPoint || a.floatingPoint || b.floatingPoint })

/-- The text has a fraction. -/
def Fractional (s : Storage) : Prop := ¬ ∃ m : ℤ, textValue s.number = m

/-- What every number stores: canonical text or the one NaN, and never a fraction that is
not floating point. -/
structure Sound (s : Storage) : Prop where
  stored : s.number = nanValue ∨ Canonical s.number
  fractional : ch '.' ∈ s.number → s.floatingPoint = true

end Storage

/-! ## Numbers that are made and assigned -/

/-- What a program does with the numbers it has names for. -/
inductive NumberAction (ι : Type) where
  | construct (x : ι)
  | constructCopy (x y : ι)
  | constructMove (x y : ι)
  | constructText (x : ι) (text : Text)
  | constructArithmetic (x : ι) (n : ArithmeticValue)
  | constructResult (x y z : ι) (op : ArithmeticOperation)
  | assignCopy (x y : ι)
  | assignMove (x y : ι)
  | assignText (x : ι) (text : Text)
  | assignArithmetic (x : ι) (n : ArithmeticValue)
  | assignResult (x y z : ι) (op : ArithmeticOperation)
  | compound (x y : ι) (op : ArithmeticOperation)
  | destroy (x : ι)

/-- The storage of the numbers that exist. -/
abbrev Numbers (ι : Type) := ι → Option Storage

namespace Numbers

variable {ι : Type} [DecidableEq ι]

/-- A number is made where there is none. -/
def make (s : Numbers ι) (x : ι) (held : Storage) : Option (Numbers ι) :=
  if (s x).isSome then none else some (Function.update s x (some held))

/-- `*this = result`, from a temporary. -/
def assign (s : Numbers ι) (x : ι) (result : Storage) : Option (Numbers ι) := do
  let own ← s x
  some (Function.update s x (some (own.moveFrom result).1))

def step (s : Numbers ι) : NumberAction ι → Option (Numbers ι)
  | .construct x => s.make x .zero
  | .constructCopy x y => do s.make x (← s y)
  | .constructMove x y => do
    let n ← s y
    make (Function.update s y (some n.takeFrom.2)) x n.takeFrom.1
  | .constructText x text => s.make x (.ofText text)
  | .constructArithmetic x n => s.make x (.ofArithmetic n)
  | .constructResult x y z op => do s.make x (← (← s y).calculate (← s z) op)
  | .assignCopy x y => do
    let _ ← s x
    let n ← s y
    some (Function.update s x (some ⟨n.number, n.floatingPoint⟩))
  | .assignMove x y => do
    let own ← s x
    let n ← s y
    -- `if (this != &n)`
    if x = y then some s
    else
      let moved := own.moveFrom n
      some (Function.update (Function.update s x (some moved.1)) y (some moved.2))
  | .assignText x text => do
    let _ ← s x
    some (Function.update s x (some (.ofText text)))
  | .assignArithmetic x n => s.assign x (.ofArithmetic n)
  | .assignResult x y z op => do s.assign x (← (← s y).calculate (← s z) op)
  | .compound x y op => do s.assign x (← (← s x).calculate (← s y) op)
  | .destroy x => do
    let _ ← s x
    some (Function.update s x none)

/-- What some program can bring about that starts without any number. -/
def Reached (s : Numbers ι) : Prop :=
  Transition.Reachable (fun s : Numbers ι => s = fun _ => none)
    (fun s t => ∃ action, s.step action = some t) s

end Numbers

/-! ## What every number stores -/

theorem integerText_integral (n : Int) :
    isWrittenAsFloatingPoint (ArithmeticValue.integerText n) = false := by
  rw [ArithmeticValue.integerText, isWrittenAsFloatingPoint, List.any_eq_false]
  intro c mem
  have plain : isDigit c = true ∨ c = ch '-' := by
    unfold signed at mem
    split at mem
    · rcases List.mem_cons.mp mem with minus | mem
      · exact Or.inr minus
      · exact Or.inl ((countText_digits _).1 c mem)
    · exact Or.inl ((countText_digits _).1 c mem)
  rcases plain with digit | rfl
  · simp [isDigit_ne digit (d := ch '.') (by decide), isDigit_ne digit (d := ch 'e') (by decide),
      isDigit_ne digit (d := ch 'E') (by decide)]
  · decide

namespace Storage

theorem sound_zero : zero.Sound := ⟨Or.inr Writes.zero.canonical.1, by decide⟩

theorem sound_ofText (s : Text) : (ofText s).Sound :=
  ⟨canonicalText_canonical s, canonicalText_point⟩

theorem sound_ofArithmetic (n : ArithmeticValue) : (ofArithmetic n).Sound := by
  refine ⟨canonicalText_canonical _, fun point => ?_⟩
  cases n with
  | integer n =>
    have written := canonicalText_point point
    rw [ArithmeticValue.arithmeticText, integerText_integral] at written
    exact absurd written (by decide)
  | floating written => rfl

theorem sound_calculate {a b r : Storage} {op : ArithmeticOperation}
    (h : a.calculate b op = some r) : r.Sound := by
  obtain ⟨t, _, rfl⟩ := Option.map_eq_some_iff.mp h
  refine ⟨canonicalText_canonical t, fun point => ?_⟩
  have written := canonicalText_point point
  simp [ofText, written]

/-- A sound storage is that of a number. -/
def Sound.toNumber {s : Storage} (h : s.Sound) : Number :=
  ⟨s.number, s.floatingPoint, h.stored, h.fractional⟩

end Storage

/-! ## What an operation leaves -/

section Flags

variable {m : Text} {w : ℚ}

theorem Writes.written_iff (h : Writes m w) (negative : Bool) :
    isWrittenAsFloatingPoint (signed negative m) = true ↔ ch '.' ∈ m := by
  obtain ⟨i, f, parts, rfl, rfl⟩ := h
  have plain : ∀ c ∈ joined i f, isDigit c = true ∨ c = ch '.' := by
    intro c mem
    unfold joined at mem
    split at mem
    · exact Or.inl (parts.integerDigits c mem)
    · rcases List.mem_append.mp mem with mem | mem
      · exact Or.inl (parts.integerDigits c mem)
      · rcases List.mem_cons.mp mem with point | mem
        · exact Or.inr point
        · exact Or.inl (parts.fractionDigits c mem)
  rw [isWrittenAsFloatingPoint, List.any_eq_true]
  constructor
  · rintro ⟨c, mem, mark⟩
    have inside : c ∈ joined i f := by
      unfold signed at mem
      split at mem
      · refine (List.mem_cons.mp mem).resolve_left ?_
        rintro rfl
        exact absurd mark (by decide)
      · exact mem
    rcases plain c inside with digit | rfl
    · simp [isDigit_ne digit (d := ch '.') (by decide), isDigit_ne digit (d := ch 'e') (by decide),
        isDigit_ne digit (d := ch 'E') (by decide)] at mark
    · exact inside
  · intro point
    refine ⟨ch '.', ?_, by decide⟩
    unfold signed
    split
    · exact List.mem_cons_of_mem _ point
    · exact point

/-- Stored again, a result has its fraction if it had one. -/
theorem Writes.fractional_iff (h : Writes m w) (negative : Bool) :
    ch '.' ∈ m ↔ ¬ ∃ k : ℤ, textValue (canonicalText (signed negative m)) = k := by
  obtain ⟨canonical, value⟩ := h.canonicalText_signed negative
  rw [← not_iff_not, not_not, h.integral, value]
  constructor
  · rintro ⟨k, rfl⟩
    exact ⟨if negative then -k else k, by cases negative <;> simp⟩
  · rintro ⟨k, same⟩
    refine ⟨k.natAbs, ?_⟩
    have magnitude := congrArg abs same
    rw [abs_sign, abs_of_nonneg h.nonneg, ← Int.cast_abs, Int.abs_eq_natAbs] at magnitude
    exact magnitude

end Flags

namespace Number

/-- Every operation comes to an end, with NaN or with a magnitude under a sign. -/
theorem performArithmetic_total (a b : Number) (op : ArithmeticOperation) :
    ∃ t, performArithmetic a.number b.number op = some t ∧
      (t = nanValue ∨ ∃ negative m w, Writes m w ∧ t = signed negative m) := by
  by_cases nan : a.isNan = true ∨ b.isNan = true
  · refine ⟨nanValue, ?_, Or.inl rfl⟩
    unfold performArithmetic
    rw [if_pos (by simpa [isNan] using nan)]
  rw [not_or, Bool.not_eq_true, Bool.not_eq_true] at nan
  obtain ⟨notA, notB⟩ := nan
  obtain ⟨plus, minus, times⟩ := performArithmetic_leaves (canonical_of notA) (canonical_of notB)
  have leaves : ∀ {t : Text} {v : ℚ}, Leaves t v →
      t = nanValue ∨ ∃ negative m w, Writes m w ∧ t = signed negative m := by
    intro t v h
    obtain ⟨negative, m, w, written, _, text, _⟩ := h.1.magnitude
    exact Or.inr ⟨negative, m, w, written, text⟩
  cases op with
  | plus => exact plus.imp fun t h => ⟨h.1, leaves h.2⟩
  | minus => exact minus.imp fun t h => ⟨h.1, leaves h.2⟩
  | times => exact times.imp fun t h => ⟨h.1, leaves h.2⟩
  | modulo =>
    by_cases none : b.value = 0 ∨ ¬ a.Integral ∨ ¬ b.Integral
    · exact ⟨nanValue, performArithmetic_modulo_nan notA notB none, Or.inl rfl⟩
    · rw [not_or, not_or, not_not, not_not] at none
      obtain ⟨nonzero, integralA, integralB⟩ := none
      obtain ⟨negA, negB, i, f, j, g, D, V, h⟩ := exists_operands notA notB
      obtain ⟨t, result, written⟩ := h.performArithmetic_modulo ((isInteger_iff notA).mpr integralA)
        ((isInteger_iff notB).mpr integralB) (h.zero_iff.not.mp nonzero)
      exact ⟨_, result, Or.inr ⟨negA, t, _, written, rfl⟩⟩
  | _ =>
    by_cases zero : b.value = 0
    · exact ⟨nanValue, performArithmetic_over_zero notA notB zero, Or.inl rfl⟩
    · obtain ⟨negA, negB, i, f, j, g, D, V, h⟩ := exists_operands notA notB
      have nonzero := h.zero_iff.not.mp zero
      obtain ⟨t, w, division, written, _⟩ := @dividePositiveNumbers_spec i f j g h.partsA h.partsB
        D V h.dividend h.divisor nonzero quotientSignificantDigits (by decide)
      exact ⟨_, h.performArithmetic_over nonzero division written, Or.inr ⟨_, t, w, written, rfl⟩⟩

end Number

namespace Storage

variable {a b : Storage}

theorem Sound.floating_of_fractional (h : a.Sound) (number : a.isNan = false)
    (fraction : a.Fractional) : a.isFloatingPoint = true := by
  rw [isFloatingPoint, number, Bool.not_false, Bool.true_and]
  apply h.fractional
  have integral := (Number.isInteger_iff (n := h.toNumber) number).not.mpr fraction
  rw [Number.isInteger] at integral
  change ¬ (! a.isNan && ! a.number.contains (ch '.')) = true at integral
  rw [number] at integral
  simpa using integral

/-- The flag of a result is that of an operand, or shows a fraction. -/
theorem calculate_flag (ha : a.Sound) (hb : b.Sound) (op : ArithmeticOperation) :
    ∃ r, a.calculate b op = some r ∧ r.Sound ∧ (r.isNan = false →
      (r.isFloatingPoint = true ↔
        a.floatingPoint = true ∨ b.floatingPoint = true ∨ r.Fractional)) := by
  obtain ⟨t, result, shape⟩ := Number.performArithmetic_total ha.toNumber hb.toNumber op
  have calculated : a.calculate b op = some ⟨canonicalText t,
      isWrittenAsFloatingPoint t || a.floatingPoint || b.floatingPoint⟩ := by
    change performArithmetic a.number b.number op = some t at result
    rw [calculate, result]
    rfl
  refine ⟨_, calculated, sound_calculate calculated, ?_⟩
  intro number
  rcases shape with rfl | ⟨negative, m, w, written, rfl⟩
  · have marker : canonicalText nanValue = nanValue := by decide
    change (canonicalText nanValue == nanValue) = false at number
    rw [marker] at number
    exact absurd number (by decide)
  · rw [isFloatingPoint, number, Fractional, ← written.fractional_iff,
      ← written.written_iff negative]
    simp only [Bool.not_false, Bool.true_and, Bool.or_eq_true]
    tauto

end Storage

/-! ## Runs -/

namespace Numbers

variable {ι : Type} [DecidableEq ι] {s t : Numbers ι}

/-- Every number there is stores what it should. -/
def AllSound (s : Numbers ι) : Prop := ∀ x n, s x = some n → n.Sound

theorem AllSound.update (h : s.AllSound) (x : ι) {held : Option Storage}
    (sound : ∀ n, held = some n → n.Sound) : AllSound (Function.update s x held) := by
  intro y n at'
  by_cases same : y = x
  · subst same
    rw [Function.update_self] at at'
    exact sound n at'
  · rw [Function.update_of_ne same] at at'
    exact h y n at'

theorem AllSound.set (h : s.AllSound) (x : ι) {held : Storage} (sound : held.Sound) :
    AllSound (Function.update s x (some held)) :=
  h.update x fun _ same => Option.some.inj same ▸ sound

theorem AllSound.make (h : s.AllSound) {x : ι} {held : Storage} (sound : held.Sound)
    (made : s.make x held = some t) : t.AllSound := by
  unfold Numbers.make at made
  split at made
  · cases made
  · rw [← Option.some.inj made]
    exact h.set x sound

theorem AllSound.assign (h : s.AllSound) {x : ι} {result : Storage} (sound : result.Sound)
    (assigned : s.assign x result = some t) : t.AllSound := by
  obtain ⟨own, _, assigned⟩ := Option.bind_eq_some_iff.mp assigned
  rw [← Option.some.inj assigned]
  exact h.set x sound

/-- What one action leaves. -/
theorem AllSound.step (h : s.AllSound) {action : NumberAction ι}
    (taken : s.step action = some t) : t.AllSound := by
  cases action with
  | construct x => exact h.make Storage.sound_zero taken
  | constructCopy x y =>
    obtain ⟨n, at', taken⟩ := Option.bind_eq_some_iff.mp taken
    exact h.make (h y n at') taken
  | constructMove x y =>
    obtain ⟨n, at', taken⟩ := Option.bind_eq_some_iff.mp taken
    exact (h.set y Storage.sound_zero).make (h y n at') taken
  | constructText x text => exact h.make (Storage.sound_ofText text) taken
  | constructArithmetic x n => exact h.make (Storage.sound_ofArithmetic n) taken
  | constructResult x y z op =>
    obtain ⟨a, _, taken⟩ := Option.bind_eq_some_iff.mp taken
    obtain ⟨b, _, taken⟩ := Option.bind_eq_some_iff.mp taken
    obtain ⟨r, result, taken⟩ := Option.bind_eq_some_iff.mp taken
    exact h.make (Storage.sound_calculate result) taken
  | assignCopy x y =>
    obtain ⟨own, _, taken⟩ := Option.bind_eq_some_iff.mp taken
    obtain ⟨n, at', taken⟩ := Option.bind_eq_some_iff.mp taken
    rw [← Option.some.inj taken]
    exact h.set x ⟨(h y n at').stored, (h y n at').fractional⟩
  | assignMove x y =>
    obtain ⟨own, _, taken⟩ := Option.bind_eq_some_iff.mp taken
    obtain ⟨n, at', taken⟩ := Option.bind_eq_some_iff.mp taken
    split at taken
    · rw [← Option.some.inj taken]
      exact h
    · rw [← Option.some.inj taken]
      exact (h.set x (h y n at')).set y Storage.sound_zero
  | assignText x text =>
    obtain ⟨own, _, taken⟩ := Option.bind_eq_some_iff.mp taken
    rw [← Option.some.inj taken]
    exact h.set x (Storage.sound_ofText text)
  | assignArithmetic x n => exact h.assign (Storage.sound_ofArithmetic n) taken
  | assignResult x y z op =>
    obtain ⟨a, _, taken⟩ := Option.bind_eq_some_iff.mp taken
    obtain ⟨b, _, taken⟩ := Option.bind_eq_some_iff.mp taken
    obtain ⟨r, result, taken⟩ := Option.bind_eq_some_iff.mp taken
    exact h.assign (Storage.sound_calculate result) taken
  | compound x y op =>
    obtain ⟨a, _, taken⟩ := Option.bind_eq_some_iff.mp taken
    obtain ⟨b, _, taken⟩ := Option.bind_eq_some_iff.mp taken
    obtain ⟨r, result, taken⟩ := Option.bind_eq_some_iff.mp taken
    exact h.assign (Storage.sound_calculate result) taken
  | destroy x =>
    obtain ⟨own, _, taken⟩ := Option.bind_eq_some_iff.mp taken
    rw [← Option.some.inj taken]
    exact h.update x fun _ none' => by cases none'

theorem reached_none : Reached (fun _ : ι => none) := Transition.Reachable.start rfl

theorem Reached.next (h : s.Reached) (action : NumberAction ι) (taken : s.step action = some t) :
    t.Reached :=
  Transition.Reachable.next h ⟨action, taken⟩

theorem Reached.allSound (h : s.Reached) : s.AllSound := by
  refine Transition.Reachable.invariant ?_ ?_ h
  · rintro _ rfl x n none'
    cases none'
  · rintro u v sound ⟨action, taken⟩
    exact sound.step taken

/-- Whatever a program has done with its numbers, every one of them, also one that was
moved from, stores canonical text or NaN; NaN is not floating point and a fraction is; and
of any two of them a result is floating point if an operand is or it has a fraction. -/
theorem reached_sound (h : s.Reached) :
    (∀ x n, s x = some n → (n.number = nanValue ∨ Canonical n.number) ∧
      (n.isNan = true → n.isFloatingPoint = false) ∧
      (n.isNan = false → n.Fractional → n.isFloatingPoint = true)) ∧
    ∀ x y a b, s x = some a → s y = some b → ∀ op, ∃ r, a.calculate b op = some r ∧
      (r.isNan = false → (r.isFloatingPoint = true ↔
        a.floatingPoint = true ∨ b.floatingPoint = true ∨ r.Fractional)) := by
  have sound := h.allSound
  constructor
  · intro x n at'
    refine ⟨(sound x n at').stored, ?_, (sound x n at').floating_of_fractional⟩
    intro nan
    rw [Storage.isFloatingPoint, nan]
    rfl
  · intro x y a b atX atY op
    obtain ⟨r, result, _, flag⟩ := Storage.calculate_flag (sound x a atX) (sound y b atY) op
    exact ⟨r, result, flag⟩

/-- A number is made from text, moved to another, and added to itself there. -/
theorem reached_sound_moved : ∃ s : Numbers Bool, s.Reached ∧
    ∃ n, s true = some n ∧ (n.number = nanValue ∨ Canonical n.number) := by
  have run : ∃ s : Numbers Bool, s.Reached ∧ (s true).isSome = true := by
    have made := reached_none.next (.constructText false ("-0.50".toList.map ch)) rfl
    have moved := made.next (.constructMove true false) rfl
    exact ⟨_, moved.next (.compound true true .plus) rfl, rfl⟩
  obtain ⟨s, reached, some'⟩ := run
  obtain ⟨n, at'⟩ := Option.isSome_iff_exists.mp some'
  exact ⟨s, reached, n, at', ((reached_sound reached).1 true n at').1⟩

end Numbers

end Dross
