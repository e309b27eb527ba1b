import Dross.Format.TableRules

/-!
# Acceptance

Where the rules hold, what stands at a path is decided by the placements alone.
A further statement then does to the view what its placement says, exactly when
the rules hold with it.
-/

namespace Dross

def mentioned (ps : List Placement) (P : Path) : Bool :=
  P == [] || ps.any (fun p => p.tables.contains P)

def valueAt (ps : List Placement) (P : Path) : Option Value :=
  ps.findSome? (fun p => if p.path = P then p.value? else none)

/-- What stands at a path after some statements. -/
def placeAt (ps : List Placement) : Layout := fun P =>
  if lengths ps P ≠ 0 then some (.array (lengths ps P))
  else if mentioned ps P then
    some (.table (ps.any (fun p => p.isNamed && p.path == P))
      (ps.any (fun p => p.isPair && p.passes.contains P)))
  else (valueAt ps P).map Place.value

section PlaceAt

variable {ps : List Placement} {p q : Placement} {P : Path}

theorem mentioned_iff : mentioned ps P = true ↔ P = [] ∨ ∃ p ∈ ps, P ∈ p.tables := by
  simp [mentioned]

theorem valueAt_none : valueAt ps P = none ↔ ∀ p ∈ ps, p.isPair = true → p.path ≠ P := by
  simp only [valueAt, List.findSome?_eq_none_iff, ite_eq_right_iff, Placement.isPair,
    Option.isSome_iff_ne_none]
  refine forall₂_congr (fun p _ => ?_)
  exact ⟨fun h k same => k (h same), fun h same => by_contra (fun k => h k same)⟩

theorem valueAt_some {v : Value} (h : valueAt ps P = some v) :
    ∃ p ∈ ps, p.path = P ∧ p.value? = some v := by
  obtain ⟨p, mem, found⟩ := List.exists_of_findSome?_eq_some h
  split at found
  · rename_i same
    exact ⟨p, mem, same, found⟩
  · cases found

/-- A path is that of one pair at most. -/
theorem pair_unique
    (once : ps.Pairwise (fun p q => p.isPair = true → q.isPair = true → p.path ≠ q.path))
    (hp : p ∈ ps) (hq : q ∈ ps) (pair : p.isPair = true) (pair' : q.isPair = true)
    (same : p.path = q.path) : p = q := by
  have symm : Std.Symm (fun p q : Placement =>
      p.isPair = true → q.isPair = true → p.path ≠ q.path) :=
    ⟨fun p q apart pair pair' same => apart pair' pair same.symm⟩
  by_contra other
  exact once.forall hp hq other pair pair' same

/-- Where no path is given two values, the value at one is that of any pair there. -/
theorem valueAt_iff
    (once : ps.Pairwise (fun p q => p.isPair = true → q.isPair = true → p.path ≠ q.path))
    {v : Value} : valueAt ps P = some v ↔ ∃ p ∈ ps, p.path = P ∧ p.value? = some v := by
  refine ⟨valueAt_some, ?_⟩
  rintro ⟨p, mem, rfl, value⟩
  have pair : p.isPair = true := by rw [Placement.isPair, value, Option.isSome_some]
  cases found : valueAt ps p.path with
  | none => exact absurd rfl (valueAt_none.mp found p mem pair)
  | some w =>
    obtain ⟨q, mem', same, value'⟩ := valueAt_some found
    have pair' : q.isPair = true := by rw [Placement.isPair, value', Option.isSome_some]
    have one : q = p := pair_unique once mem' mem pair' pair same
    rw [← value', one, value]

theorem lengths_eq_zero : lengths ps P = 0 ↔ ∀ p ∈ ps, p.isArray = true → p.path ≠ P := by
  simp [lengths, List.countP_eq_zero]

theorem placeAt_none : placeAt ps P = none ↔
    lengths ps P = 0 ∧ mentioned ps P = false ∧ valueAt ps P = none := by
  unfold placeAt
  split
  · rename_i h
    simp [h]
  · rename_i h
    rw [ne_eq, not_not] at h
    split
    · rename_i h'
      simp [h']
    · rename_i h'
      simp [h, h']

theorem placeAt_value {v : Value} (h : placeAt ps P = some (.value v)) :
    lengths ps P = 0 ∧ mentioned ps P = false ∧ valueAt ps P = some v := by
  unfold placeAt at h
  split at h
  · cases h
  · rename_i zero
    rw [ne_eq, not_not] at zero
    split at h
    · cases h
    · rename_i unmentioned
      obtain ⟨w, found, same⟩ := Option.map_eq_some_iff.mp h
      obtain rfl := Place.value.inj same
      exact ⟨zero, by simpa using unmentioned, found⟩

theorem placeAt_array {n : Nat} : placeAt ps P = some (.array n) ↔ n = lengths ps P ∧ n ≠ 0 := by
  unfold placeAt
  split
  · rename_i h
    simp only [Option.some.injEq, Place.array.injEq]
    exact ⟨fun same => ⟨same.symm, same ▸ h⟩, fun both => both.1.symm⟩
  · rename_i h
    rw [ne_eq, not_not] at h
    have contra : ¬ (n = lengths ps P ∧ n ≠ 0) := by omega
    split
    · simp [contra]
    · rw [iff_false_intro contra, iff_false]
      cases valueAt ps P <;> simp

theorem placeAt_table {named dotted : Bool} (h : placeAt ps P = some (.table named dotted)) :
    lengths ps P = 0 ∧ mentioned ps P = true ∧
      named = ps.any (fun p => p.isNamed && p.path == P) ∧
      dotted = ps.any (fun p => p.isPair && p.passes.contains P) := by
  unfold placeAt at h
  split at h
  · cases h
  · rename_i zero
    rw [ne_eq, not_not] at zero
    split at h
    · rename_i here
      obtain ⟨rfl, rfl⟩ := Place.table.inj (Option.some.inj h)
      exact ⟨zero, here, rfl, rfl⟩
    · obtain ⟨w, found, same⟩ := Option.map_eq_some_iff.mp h
      cases same

theorem placeAt_length : (placeAt ps).length = lengths ps := by
  funext P
  unfold Layout.length
  by_cases zero : lengths ps P = 0
  · split
    · rename_i n array
      exact (placeAt_array.mp array).1
    · exact zero.symm
  · rw [placeAt_array.mpr ⟨rfl, zero⟩]

theorem placeAt_nonempty : (placeAt ps).Nonempty :=
  fun _ empty => (placeAt_array.mp empty).2 rfl

/-! ## One more placement -/

theorem lengths_concat (q : Placement) : lengths (ps ++ [q]) P =
    lengths ps P + if q.isArray = true ∧ q.path = P then 1 else 0 := by
  simp [lengths, List.countP_append, List.countP_cons]

theorem mentioned_concat (q : Placement) :
    mentioned (ps ++ [q]) P = (mentioned ps P || q.tables.contains P) := by
  simp [mentioned, Bool.or_assoc]

theorem valueAt_concat (q : Placement) : valueAt (ps ++ [q]) P =
    (valueAt ps P).or (if q.path = P then q.value? else none) := by
  simp only [valueAt, List.findSome?_append, List.findSome?_cons, List.findSome?_nil]
  congr 1
  cases (if q.path = P then q.value? else none) <;> rfl

theorem named_mentioned (h : ps.any (fun p => p.isNamed && p.path == P) = true) :
    mentioned ps P = true := by
  rw [List.any_eq_true] at h
  obtain ⟨p, mem, both⟩ := h
  simp only [Bool.and_eq_true, beq_iff_eq] at both
  refine mentioned_iff.mpr (Or.inr ⟨p, mem, ?_⟩)
  rw [← both.2]
  exact path_mem_tables (isNamed_kind both.1).1

theorem dotted_mentioned (h : ps.any (fun p => p.isPair && p.passes.contains P) = true) :
    mentioned ps P = true := by
  rw [List.any_eq_true] at h
  obtain ⟨p, mem, both⟩ := h
  simp only [Bool.and_eq_true, List.contains_iff_mem] at both
  exact mentioned_iff.mpr (Or.inr ⟨p, mem, passes_subset_tables both.2⟩)

theorem unmentioned_flags (h : mentioned ps P = false) :
    ps.any (fun p => p.isNamed && p.path == P) = false ∧
      ps.any (fun p => p.isPair && p.passes.contains P) = false := by
  constructor
  · by_contra named
    rw [named_mentioned (by simpa using named)] at h
    cases h
  · by_contra dotted
    rw [dotted_mentioned (by simpa using dotted)] at h
    cases h

/-- A path a statement says nothing about keeps what stands there. -/
theorem placeAt_other (unmentioned : P ∉ q.tables) (other : q.path ≠ P) :
    placeAt (ps ++ [q]) P = placeAt ps P := by
  have named : (ps ++ [q]).any (fun p => p.isNamed && p.path == P) =
      ps.any (fun p => p.isNamed && p.path == P) := by simp [other]
  have dotted : (ps ++ [q]).any (fun p => p.isPair && p.passes.contains P) =
      ps.any (fun p => p.isPair && p.passes.contains P) := by
    simp only [List.any_append, List.any_cons, List.any_nil, Bool.or_false]
    rw [show q.passes.contains P = false by
      simpa using fun mem => unmentioned (passes_subset_tables mem)]
    simp
  simp only [placeAt, lengths_concat, mentioned_concat, valueAt_concat, named, dotted, other,
    and_false, if_false, Nat.add_zero, show q.tables.contains P = false by simpa using unmentioned,
    Bool.or_false, Option.or_none]

/-- A table that is passed, by a dotted key or by a header. -/
theorem placeAt_passed (passed : P ∈ q.passes) (other : q.path ≠ P)
    (noValue : (placeAt ps).NoValue P) : placeAt (ps ++ [q]) P =
      match placeAt ps P with
      | none => some (.table false q.isPair)
      | some (.table named dotted) => some (.table named (dotted || q.isPair))
      | some place => some place := by
  have named : (ps ++ [q]).any (fun p => p.isNamed && p.path == P) =
      ps.any (fun p => p.isNamed && p.path == P) := by simp [other]
  have dotted : (ps ++ [q]).any (fun p => p.isPair && p.passes.contains P) =
      (ps.any (fun p => p.isPair && p.passes.contains P) || q.isPair) := by
    simp [passed]
  have mention : mentioned (ps ++ [q]) P = true := by
    rw [mentioned_concat]
    simp [passes_subset_tables passed]
  have length : lengths (ps ++ [q]) P = lengths ps P := by
    simp [lengths_concat, other]
  split
  · rename_i absent
    obtain ⟨zero, unmentioned, -⟩ := placeAt_none.mp absent
    obtain ⟨notNamed, notDotted⟩ := unmentioned_flags unmentioned
    simp only [placeAt, length, zero, mention, named, dotted, notNamed, notDotted, ne_eq,
      not_true_eq_false, if_false, if_true, Bool.false_or]
  · rename_i n d present
    obtain ⟨zero, -, rfl, rfl⟩ := placeAt_table present
    simp only [placeAt, length, zero, mention, named, dotted, ne_eq, not_true_eq_false, if_false,
      if_true]
  · rename_i place notTable present
    cases place with
    | value v => exact absurd present (noValue v)
    | table n d => exact absurd rfl (notTable n d)
    | array n =>
      rw [placeAt_array] at present ⊢
      rwa [length]

/-- The view after a pair. -/
theorem placeAt_pair {v : Value} (value : q.value? = some v) (outside : q.path ∉ q.passes)
    (dotted : ∀ P ∈ q.passes, (placeAt ps).Dotted P) (absent : placeAt ps q.path = none) :
    placeAt (ps ++ [q]) = ((placeAt ps).pass q.passes true).put q.path (.value v) := by
  have pair : q.isPair = true := by simp [Placement.isPair, value]
  have notArray := (isPair_iff.mp pair).2
  funext P
  by_cases here : P = q.path
  · subst here
    obtain ⟨zero, unmentioned, none⟩ := placeAt_none.mp absent
    rw [Layout.put_self]
    simp [placeAt, lengths_concat, mentioned_concat, valueAt_concat, notArray, zero, unmentioned,
      none, tables_of_pair pair, outside, value]
  · rw [Layout.put_ne here]
    by_cases passed : P ∈ q.passes
    · rcases dotted P passed with new | ⟨named, old⟩
      · rw [placeAt_passed passed (Ne.symm here) (by simp [Layout.NoValue, new]), new, pair,
          Layout.pass, if_pos ⟨passed, new⟩]
      · rw [placeAt_passed passed (Ne.symm here) (by simp [Layout.NoValue, old]), old,
          Layout.pass_of_some (by simp [old]), old]
        rfl
    · rw [Layout.pass_not_mem passed,
        placeAt_other (by rwa [tables_of_pair pair]) (Ne.symm here)]

/-- What a header passes, as the view after it shows it. -/
theorem placeAt_header_passed (header : q.isPair = false)
    (noValue : ∀ P ∈ q.passes, (placeAt ps).NoValue P) (passed : P ∈ q.passes)
    (other : P ≠ q.path) :
    placeAt (ps ++ [q]) P = (placeAt ps).pass q.passes false P := by
  rw [placeAt_passed passed (Ne.symm other) (noValue P passed), header]
  cases place : placeAt ps P with
  | none => rw [Layout.pass, if_pos ⟨passed, place⟩]
  | some place' =>
    rw [Layout.pass_of_some (by simp [place]), place]
    cases place' <;> simp

/-- The view after a `[p]` header. -/
theorem placeAt_named (named : q.isNamed = true)
    (table : q.table = q.path) (noValue : ∀ P ∈ q.passes, (placeAt ps).NoValue P)
    (free : placeAt ps q.path = none ∨ placeAt ps q.path = some (.table false false)) :
    placeAt (ps ++ [q]) = ((placeAt ps).pass q.passes false).put q.path (.table true false) := by
  obtain ⟨header, notArray⟩ := isNamed_kind named
  have tables : q.tables = q.passes ++ [q.path, q.path] := by rw [tables_of_header header, table]
  funext P
  by_cases here : P = q.path
  · subst here
    rw [Layout.put_self]
    have flags : lengths ps q.path = 0 ∧
        ps.any (fun p => p.isPair && p.passes.contains q.path) = false := by
      rcases free with absent | present
      · obtain ⟨zero, unmentioned, -⟩ := placeAt_none.mp absent
        exact ⟨zero, (unmentioned_flags unmentioned).2⟩
      · obtain ⟨zero, -, -, dotted⟩ := placeAt_table present
        exact ⟨zero, dotted.symm⟩
    simp only [placeAt, lengths_concat, mentioned_concat, List.any_append, flags, tables, notArray]
    simp [named, header]
  · rw [Layout.put_ne here]
    by_cases passed : P ∈ q.passes
    · exact placeAt_header_passed header noValue passed here
    · rw [Layout.pass_not_mem passed, placeAt_other (by simp [tables, passed, here]) (Ne.symm here)]

/-- The view after a `[[p]]` header. -/
theorem placeAt_element (array : q.isArray = true)
    (table : q.table = q.path ++ [.element (lengths ps q.path)])
    (noValue : ∀ P ∈ q.passes, (placeAt ps).NoValue P)
    (ended : ∀ p ∈ ps ++ [q], KeyEnded p.path ∧ ∀ P ∈ p.passes, KeyEnded P) :
    placeAt (ps ++ [q]) = (((placeAt ps).pass q.passes false).put q.path
      (.array (lengths ps q.path + 1))).put q.table (.table false false) := by
  have header := (isArray_kind array).1
  have tables : q.tables = q.passes ++ [q.path, q.table] := tables_of_header header
  have notNamed : ∀ p ∈ ps ++ [q], p.path ≠ q.table := by
    intro p mem same
    exact KeyEnded.not_element (table ▸ same ▸ (ended p mem).1)
  have notPassed : ∀ p ∈ ps ++ [q], q.table ∉ p.passes := by
    intro p mem passed
    exact KeyEnded.not_element (table ▸ (ended p mem).2 _ passed)
  funext P
  by_cases opened : P = q.table
  · subst opened
    rw [Layout.put_self]
    have zero : lengths (ps ++ [q]) q.table = 0 :=
      lengths_eq_zero.mpr (fun p mem _ => notNamed p mem)
    have named : (ps ++ [q]).any (fun p => p.isNamed && p.path == q.table) = false := by
      rw [List.any_eq_false]
      intro p mem
      simp [notNamed p mem]
    have dotted : (ps ++ [q]).any (fun p => p.isPair && p.passes.contains q.table) = false := by
      rw [List.any_eq_false]
      intro p mem
      simp [notPassed p mem]
    have mention : mentioned (ps ++ [q]) q.table = true := by simp [mentioned_concat, tables]
    simp only [placeAt, zero, ne_eq, not_true_eq_false, if_false, mention, if_true, named, dotted]
  · rw [Layout.put_ne opened]
    by_cases here : P = q.path
    · subst here
      rw [Layout.put_self, placeAt_array]
      simp [lengths_concat, array]
    · rw [Layout.put_ne here]
      by_cases passed : P ∈ q.passes
      · exact placeAt_header_passed header noValue passed here
      · rw [Layout.pass_not_mem passed,
          placeAt_other (by simp [tables, passed, here, opened]) (Ne.symm here)]

end PlaceAt

/-! ## The rules, one placement at a time -/

/-- What the rules ask of a placement after those before it. -/
structure Obeys (ps : List Placement) (q : Placement) : Prop where
  valueOnce : q.isPair = true → ∀ p ∈ ps, p.isPair = true → p.path ≠ q.path
  noValue : ∀ p ∈ ps, p.isPair = true → ∀ T ∈ q.tables, ¬ p.path <+: T
  valueNoTable : q.isPair = true → ∀ p ∈ ps, ∀ T ∈ p.tables, ¬ q.path <+: T
  valueApart : q.isPair = true → ∀ p ∈ ps, p.isPair = true →
    (p.path <+: q.path → p.path = q.path) ∧ (q.path <+: p.path → q.path = p.path)
  namedOnce : q.isNamed = true → ∀ p ∈ ps, p.isNamed = true → p.path ≠ q.path
  namedTable : q.isNamed = true → ∀ p ∈ ps,
    (p.isPair = true → q.path ∉ p.passes) ∧ (p.isArray = true → q.path ≠ p.path)
  namedBefore : ∀ p ∈ ps, p.isNamed = true →
    (q.isPair = true → p.path ∉ q.passes) ∧ (q.isArray = true → p.path ≠ q.path)
  array : q.isArray = true → (∃ p ∈ ps, p.isArray = true ∧ p.path = q.path) ∨
    ∀ p ∈ ps, q.path ∉ p.tables ∧ (p.isPair = true → q.path ≠ p.path)
  dotted : q.isPair = true → ∀ p ∈ ps, ∀ P ∈ q.passes, P ∈ p.tables →
    p.isPair = true ∧ p.sectionIndex = q.sectionIndex

theorem rules_nil : Rules [] := by
  refine ⟨List.Pairwise.nil, nofun, nofun, List.Pairwise.nil, nofun, ?_, List.Pairwise.nil⟩
  intro before p after split
  simp at split

theorem pairwise_concat {α : Type} {R : α → α → Prop} {l : List α} {x : α} :
    (l ++ [x]).Pairwise R ↔ l.Pairwise R ∧ ∀ y ∈ l, R y x := by
  simp [List.pairwise_append]

theorem concat_split {α : Type} {l before after : List α} {x y : α}
    (h : l ++ [x] = before ++ y :: after) :
    (before = l ∧ y = x ∧ after = []) ∨ ∃ rest, after = rest ++ [x] ∧ l = before ++ y :: rest := by
  rcases List.eq_nil_or_concat after with rfl | ⟨rest, z, rfl⟩
  · have both := List.append_inj' h rfl
    exact Or.inl ⟨both.1.symm, (List.cons.inj both.2).1.symm, rfl⟩
  · rw [List.concat_eq_append, ← List.cons_append, ← List.append_assoc] at h
    have both := List.append_inj' h rfl
    refine Or.inr ⟨rest, ?_, both.1⟩
    rw [(List.cons.inj both.2).1, List.concat_eq_append]

theorem rules_concat {ps : List Placement} {q : Placement} (self : ∀ T ∈ q.tables, q.isPair = true →
    ¬ q.path <+: T) : Rules (ps ++ [q]) ↔ Rules ps ∧ Obeys ps q := by
  constructor
  · intro h
    have inside : ∀ {p}, p ∈ ps → p ∈ ps ++ [q] := fun mem => List.mem_append_left _ mem
    have last : q ∈ ps ++ [q] := by simp
    obtain ⟨once, once'⟩ := pairwise_concat.mp h.valuesOnce
    obtain ⟨named, named'⟩ := pairwise_concat.mp h.namedOnce
    obtain ⟨dotted, dotted'⟩ := pairwise_concat.mp h.dotted
    constructor
    · refine ⟨once, fun p mem pair r mem' => h.valuesNoTables p (inside mem) pair r (inside mem'),
        fun p mem pair r mem' => h.valuesApart p (inside mem) pair r (inside mem'), named,
        fun p mem isNamed r mem' => h.namedTables p (inside mem) isNamed r (inside mem'),
        ?_, dotted⟩
      intro before p after split array
      exact h.arrays before p (after ++ [q]) (by simp [split]) array
    · exact {
        valueOnce := fun pair p mem pair' => once' p mem pair' pair
        noValue := fun p mem pair => h.valuesNoTables p (inside mem) pair q last
        valueNoTable := fun pair p mem => h.valuesNoTables q last pair p (inside mem)
        valueApart := fun pair p mem pair' => ⟨h.valuesApart p (inside mem) pair' q last pair,
          h.valuesApart q last pair p (inside mem) pair'⟩
        namedOnce := fun isNamed p mem isNamed' => named' p mem isNamed' isNamed
        namedTable := fun isNamed p mem => h.namedTables q last isNamed p (inside mem)
        namedBefore := fun p mem isNamed => h.namedTables p (inside mem) isNamed q last
        array := fun array => h.arrays ps q [] rfl array
        dotted := fun pair p mem => dotted' p mem pair }
  · rintro ⟨h, obeys⟩
    have cases' : ∀ {p}, p ∈ ps ++ [q] → p ∈ ps ∨ p = q := by simp
    refine ⟨pairwise_concat.mpr ⟨h.valuesOnce, fun p mem pair pair' =>
        obeys.valueOnce pair' p mem pair⟩, ?_, ?_, pairwise_concat.mpr ⟨h.namedOnce,
        fun p mem isNamed isNamed' => obeys.namedOnce isNamed' p mem isNamed⟩, ?_, ?_,
        pairwise_concat.mpr ⟨h.dotted, fun p mem pair => obeys.dotted pair p mem⟩⟩
    · intro p mem pair r mem' T hT
      rcases cases' mem with here | rfl <;> rcases cases' mem' with there | rfl
      · exact h.valuesNoTables p here pair r there T hT
      · exact obeys.noValue p here pair T hT
      · exact obeys.valueNoTable pair r there T hT
      · exact self T hT pair
    · intro p mem pair r mem' pair'
      rcases cases' mem with here | rfl <;> rcases cases' mem' with there | rfl
      · exact h.valuesApart p here pair r there pair'
      · exact (obeys.valueApart pair' p here pair).1
      · exact (obeys.valueApart pair r there pair').2
      · exact fun _ => rfl
    · intro p mem isNamed r mem'
      rcases cases' mem with here | rfl <;> rcases cases' mem' with there | rfl
      · exact h.namedTables p here isNamed r there
      · exact obeys.namedBefore p here isNamed
      · exact obeys.namedTable isNamed r there
      · obtain ⟨notPair, notArray⟩ := isNamed_kind isNamed
        rw [notPair, notArray]
        exact ⟨nofun, nofun⟩
    · intro before p after split array
      rcases concat_split split with ⟨rfl, rfl, -⟩ | ⟨rest, -, split⟩
      · exact obeys.array array
      · exact h.arrays before p rest split array

end Dross
