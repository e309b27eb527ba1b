import Dross.Format.TableRefinement

/-!
# Where statements stand

Statements are put in place without the tree: a path is resolved by counting
the headers of each array of tables before it. What an operation on a layout
needs and changes is said by the paths its statement is resolved to.
-/

namespace Dross

/-- The table a name leads on to: the last element, if it is an array of tables. -/
def enter (lengths : Path → Nat) (name : Path) : Path :=
  if lengths name = 0 then name else name ++ [.element (lengths name - 1)]

/-- The tables that the parts of a key path but the last name, and what the last names. -/
def resolve (lengths : Path → Nat) (base : Path) (key : Text) (rest : List Text) :
    List Path × Path :=
  let name := base ++ [.key key]
  match rest with
  | [] => ([], name)
  | next :: rest =>
    let r := resolve lengths (enter lengths name) next rest
    (name :: r.1, r.2)

/-- A path that ends in a key, as the path of a value or of a named table does. -/
def KeyEnded (P : Path) : Prop := ∃ base k, P = base ++ [.key k]

theorem KeyEnded.ne_nil {P : Path} (h : KeyEnded P) : P ≠ [] := by
  obtain ⟨base, k, rfl⟩ := h
  simp

theorem KeyEnded.not_element {B : Path} {i : Nat} : ¬ KeyEnded (B ++ [.element i]) := by
  rintro ⟨base, k, same⟩
  have last := congrArg List.getLast? same
  simp at last

/-- A path before a longer one by one segment. -/
theorem prefix_concat {P B : Path} {s : Segment} (h : P <+: B ++ [s]) :
    P = B ++ [s] ∨ P <+: B := by
  rcases List.prefix_concat_iff.mp h with same | inside
  · exact Or.inl same
  · exact Or.inr inside

section Resolve

variable {lengths : Path → Nat} {base : Path} {key : Text} {rest : List Text} {P : Path}

theorem enter_of_zero {name : Path} (zero : lengths name = 0) : enter lengths name = name :=
  if_pos zero

theorem prefix_enter (name : Path) : name <+: enter lengths name := by
  unfold enter
  split
  · exact List.prefix_rfl
  · exact List.prefix_append _ _

/-- A path that ends in a key and leads to where an array is entered is before the array. -/
theorem KeyEnded.enter {name : Path} (h : KeyEnded P) (inside : P <+: enter lengths name) :
    P <+: name := by
  unfold Dross.enter at inside
  split at inside
  · exact inside
  · rcases prefix_concat inside with rfl | inside
    · exact absurd h KeyEnded.not_element
    · exact inside

theorem resolve_keyEnded : KeyEnded (resolve lengths base key rest).2 := by
  induction rest generalizing base key with
  | nil => exact ⟨base, key, rfl⟩
  | cons next rest ih => exact ih

theorem resolve_passes_keyEnded (h : P ∈ (resolve lengths base key rest).1) : KeyEnded P := by
  induction rest generalizing base key with
  | nil => cases h
  | cons next rest ih =>
    rcases List.mem_cons.mp h with rfl | h
    · exact ⟨base, key, rfl⟩
    · exact ih h

/-- Everything named is below the base. -/
theorem resolve_below : base.length < (resolve lengths base key rest).2.length ∧
    base <+: (resolve lengths base key rest).2 := by
  induction rest generalizing base key with
  | nil =>
    refine ⟨?_, List.prefix_append _ _⟩
    simp [resolve]
  | cons next rest ih =>
    obtain ⟨longer, inside⟩ := @ih (enter lengths (base ++ [.key key])) next
    have front : base <+: enter lengths (base ++ [.key key]) :=
      (List.prefix_append _ _).trans (prefix_enter _)
    exact ⟨lt_of_le_of_lt front.length_le longer, front.trans inside⟩

theorem resolve_passes_below (h : P ∈ (resolve lengths base key rest).1) :
    base.length < P.length ∧ base <+: P ∧ P <+: (resolve lengths base key rest).2 ∧
      P.length < (resolve lengths base key rest).2.length := by
  induction rest generalizing base key with
  | nil => cases h
  | cons next rest ih =>
    have front : base <+: enter lengths (base ++ [.key key]) :=
      (List.prefix_append _ _).trans (prefix_enter _)
    rcases List.mem_cons.mp h with rfl | h
    · obtain ⟨longer, inside⟩ :=
        @resolve_below lengths (enter lengths (base ++ [.key key])) next rest
      have entered : base ++ [.key key] <+: enter lengths (base ++ [.key key]) := prefix_enter _
      exact ⟨by simp, List.prefix_append _ _, entered.trans inside,
        lt_of_le_of_lt entered.length_le longer⟩
    · obtain ⟨longer, inside, before, shorter⟩ := ih h
      exact ⟨lt_of_le_of_lt front.length_le longer, front.trans inside, before, shorter⟩

/-- Every path that ends in a key, on the way to what is named, is the base's or is passed. -/
theorem resolve_stem (ended : KeyEnded P) (h : P <+: (resolve lengths base key rest).2) :
    P <+: base ∨ P ∈ (resolve lengths base key rest).1 ∨ P = (resolve lengths base key rest).2 := by
  induction rest generalizing base key with
  | nil =>
    rcases prefix_concat h with same | inside
    · exact Or.inr (Or.inr same)
    · exact Or.inl inside
  | cons next rest ih =>
    rcases ih h with inside | passed | same
    · rcases prefix_concat (ended.enter inside) with same | inside
      · exact Or.inr (Or.inl (same ▸ List.mem_cons_self))
      · exact Or.inl inside
    · exact Or.inr (Or.inl (List.mem_cons_of_mem _ passed))
    · exact Or.inr (Or.inr same)

/-- Resolution looks at no lengths but those of the tables passed. -/
theorem resolve_congr {others : Path → Nat}
    (same : ∀ P ∈ (resolve lengths base key rest).1, lengths P = others P) :
    resolve lengths base key rest = resolve others base key rest := by
  induction rest generalizing base key with
  | nil => rfl
  | cons next rest ih =>
    have first : lengths (base ++ [.key key]) = others (base ++ [.key key]) :=
      same _ List.mem_cons_self
    have entered : enter lengths (base ++ [.key key]) = enter others (base ++ [.key key]) := by
      simp only [enter, first]
    have later := @ih (enter lengths (base ++ [.key key])) next
      (fun P mem => same P (List.mem_cons_of_mem _ mem))
    rw [resolve, resolve, later, entered]

/-- Where no array is passed, a path is its parts. -/
theorem resolve_plain (plain : ∀ P ∈ (resolve lengths base key rest).1, lengths P = 0) :
    (resolve lengths base key rest).2 = base ++ (key :: rest).map Segment.key := by
  induction rest generalizing base key with
  | nil => rfl
  | cons next rest ih =>
    have first : enter lengths (base ++ [.key key]) = base ++ [.key key] :=
      enter_of_zero (plain _ List.mem_cons_self)
    have later := @ih (enter lengths (base ++ [.key key])) next
      (fun P mem => plain P (List.mem_cons_of_mem _ mem))
    rw [resolve]
    simp only
    rw [later, first]
    simp

end Resolve

/-! ## Operations by the paths they are resolved to -/

namespace Layout

variable {L M : Layout} {B : Path} {key : Text} {rest : List Text}

/-- A place that a dotted key may pass through. -/
def Dotted (L : Layout) (P : Path) : Prop := L P = none ∨ ∃ named, L P = some (.table named true)

/-- What a header may pass through. -/
def NoValue (L : Layout) (P : Path) : Prop := ∀ v, L P ≠ some (.value v)

/-- The tables that are new are put, and nothing else. -/
def pass (L : Layout) (passes : List Path) (dotted : Bool) : Layout :=
  fun P => if P ∈ passes ∧ L P = none then some (.table false dotted) else L P

theorem pass_of_some {passes : List Path} {dotted : Bool} {P : Path} (h : L P ≠ none) :
    L.pass passes dotted P = L P := if_neg (fun k => h k.2)

theorem pass_not_mem {passes : List Path} {dotted : Bool} {P : Path} (h : P ∉ passes) :
    L.pass passes dotted P = L P := if_neg (fun k => h k.1)

theorem pass_cons_new {passes : List Path} {dotted : Bool} {name : Path} (absent : L name = none)
    (other : name ∉ passes) :
    (L.put name (.table false dotted)).pass passes dotted = L.pass (name :: passes) dotted := by
  funext P
  by_cases same : P = name
  · subst same
    rw [pass_not_mem other, put_self, pass, if_pos ⟨List.mem_cons_self, absent⟩]
  · simp only [pass, put_ne same, List.mem_cons, same, false_or]

theorem pass_cons_old {passes : List Path} {dotted : Bool} {name : Path} (present : L name ≠ none) :
    L.pass passes dotted = L.pass (name :: passes) dotted := by
  funext P
  by_cases same : P = name
  · subst same
    rw [pass_of_some present, pass_of_some present]
  · simp only [pass, List.mem_cons, same, false_or]

/-- A name is none of what is passed below it. -/
theorem name_not_passed {lengths : Path → Nat} {name : Path} {next : Text} :
    name ∉ (resolve lengths name next rest).1 ∧ name ≠ (resolve lengths name next rest).2 := by
  constructor
  · intro mem
    exact absurd (resolve_passes_below mem).1 (Nat.lt_irrefl _)
  · intro same
    have longer := (@resolve_below lengths name next rest).1
    rw [← same] at longer
    exact absurd longer (Nat.lt_irrefl _)

theorem addPair_iff {val : Value} :
    L.addPair B key rest val = some M ↔
      (∀ P ∈ (resolve (fun _ => 0) B key rest).1, L.Dotted P) ∧
        L (resolve (fun _ => 0) B key rest).2 = none ∧
        M = (L.pass (resolve (fun _ => 0) B key rest).1 true).put
          (resolve (fun _ => 0) B key rest).2 (.value val) := by
  induction rest generalizing L B key with
  | nil =>
    have same : L.pass [] true = L := funext (fun P => pass_not_mem List.not_mem_nil)
    simp only [addPair, resolve, List.not_mem_nil, false_implies, implies_true, true_and, same]
    cases L (B ++ [.key key]) with
    | none => simp [eq_comm]
    | some place => simp
  | cons next rest ih =>
    obtain ⟨notPassed, notPath⟩ := @name_not_passed rest (fun _ => 0) (B ++ [.key key]) next
    rw [addPair, resolve]
    simp only [enter, if_true, List.forall_mem_cons]
    generalize r : resolve (fun _ => 0) (B ++ [.key key]) next rest = resolved at *
    cases place : L (B ++ [.key key]) with
    | none =>
      simp only
      rw [ih, r, pass_cons_new place notPassed, put_ne (Ne.symm notPath)]
      have first : L.Dotted (B ++ [.key key]) := Or.inl place
      have below : (∀ P ∈ resolved.1, (L.put (B ++ [.key key]) (.table false true)).Dotted P) ↔
          ∀ P ∈ resolved.1, L.Dotted P := by
        refine forall₂_congr (fun P mem => ?_)
        have other : P ≠ B ++ [.key key] := by
          rintro rfl
          exact notPassed mem
        rw [Dotted, Dotted, put_ne other]
      rw [below]
      simp only [first, true_and]
    | some place' =>
      have present : L (B ++ [.key key]) ≠ none := by simp [place]
      cases place' with
      | value v => simp [Dotted, place]
      | array n => simp [Dotted, place]
      | table named dotted =>
        cases dotted with
        | false => simp [Dotted, place]
        | true =>
          have first : L.Dotted (B ++ [.key key]) := Or.inr ⟨named, place⟩
          simp only
          rw [ih, r, pass_cons_old present]
          simp only [first, true_and]

theorem length_put {name : Path} (absent : L name = none) (named dotted : Bool) :
    (L.put name (.table named dotted)).length = L.length := by
  funext P
  by_cases same : P = name
  · subst same
    simp [length, absent]
  · simp only [length, put_ne same]

theorem enter_length {name : Path} : enter L.length name =
    match L name with
    | some (.array n) => if n = 0 then name else name ++ [.element (n - 1)]
    | _ => name := by
  unfold enter length
  cases L name with
  | none => rfl
  | some place =>
    cases place with
    | value v => rfl
    | table named dotted => rfl
    | array n => rfl

/-- No array of tables is empty. -/
def Nonempty (L : Layout) : Prop := ∀ P, L P ≠ some (.array 0)

theorem Nonempty.put {name : Path} {place : Place} (h : L.Nonempty) (other : place ≠ .array 0) :
    (L.put name place).Nonempty := by
  intro P
  by_cases same : P = name
  · subst same
    simpa using other
  · rw [put_ne same]
    exact h P

theorem openTable_iff (nonempty : L.Nonempty) {array : Bool} {r : Layout × Path} :
    L.openTable B key rest array = some r ↔
      (∀ P ∈ (resolve L.length B key rest).1, L.NoValue P) ∧
        (L.pass (resolve L.length B key rest).1 false).nameTable
          (resolve L.length B key rest).2 array = some r := by
  induction rest generalizing L B key with
  | nil =>
    have same : L.pass [] false = L := funext (fun P => pass_not_mem List.not_mem_nil)
    simp only [openTable, resolve, List.not_mem_nil, false_implies, implies_true, true_and, same]
  | cons next rest ih =>
    rw [openTable, resolve]
    simp only [List.forall_mem_cons, enter_length]
    cases place : L (B ++ [.key key]) with
    | none =>
      obtain ⟨notPassed, -⟩ := @name_not_passed rest L.length (B ++ [.key key]) next
      simp only
      rw [ih (nonempty.put (by simp)), length_put place, pass_cons_new place notPassed]
      have first : L.NoValue (B ++ [.key key]) := by simp [NoValue, place]
      have below : (∀ P ∈ (resolve L.length (B ++ [.key key]) next rest).1,
            (L.put (B ++ [.key key]) (.table false false)).NoValue P) ↔
          ∀ P ∈ (resolve L.length (B ++ [.key key]) next rest).1, L.NoValue P := by
        refine forall₂_congr (fun P mem => ?_)
        have other : P ≠ B ++ [.key key] := by
          rintro rfl
          exact notPassed mem
        rw [NoValue, NoValue, put_ne other]
      rw [below]
      simp only [first, true_and]
    | some place' =>
      have present : L (B ++ [.key key]) ≠ none := by simp [place]
      cases place' with
      | value v => simp [NoValue, place]
      | table named dotted =>
        have first : L.NoValue (B ++ [.key key]) := by simp [NoValue, place]
        simp only
        rw [ih nonempty, pass_cons_old present]
        simp only [first, true_and]
      | array n =>
        have first : L.NoValue (B ++ [.key key]) := by simp [NoValue, place]
        have positive : n ≠ 0 := by
          rintro rfl
          exact nonempty _ place
        simp only [if_neg positive]
        rw [ih nonempty, pass_cons_old present]
        simp only [first, true_and]

end Layout

end Dross
