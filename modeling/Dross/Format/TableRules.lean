import Dross.Format.Placement

/-!
# The rules of table definitions

Each statement of a document is placed: the section it stands in, the tables its
path passes and what it names. The rules speak of these places only. A document
is accepted exactly when they all hold.
-/

namespace Dross

structure Placement where
  statement : Statement
  /-- How many headers stand before the statement. -/
  sectionIndex : Nat
  /-- The tables its parts name, but for the last. -/
  passes : List Path
  /-- What its last part names. -/
  path : Path
  /-- The table that is open after it. -/
  table : Path

namespace Placement

def value? (p : Placement) : Option Value :=
  match p.statement with
  | .pair _ val => some val
  | .header _ _ => none

def isPair (p : Placement) : Bool := p.value?.isSome

/-- A `[p]` header. -/
def isNamed (p : Placement) : Bool :=
  match p.statement with
  | .header _ array => ! array
  | .pair _ _ => false

/-- A `[[p]]` header. -/
def isArray (p : Placement) : Bool :=
  match p.statement with
  | .header _ array => array
  | .pair _ _ => false

/-- The paths of the tables a statement names or passes. -/
def tables (p : Placement) : List Path :=
  if p.isPair then p.passes else p.passes ++ [p.path, p.table]

end Placement

/-- How many elements the `[[p]]` headers have given an array. -/
def lengths (ps : List Placement) (P : Path) : Nat := ps.countP (fun p => p.isArray && p.path == P)

/-- The table that is open after some statements. -/
def openIn (ps : List Placement) : Path := (ps.getLast?.map Placement.table).getD []

def headers (ps : List Placement) : Nat := ps.countP (fun p => ! p.isPair)

def placed (ps : List Placement) (s : Statement) : Placement :=
  match s with
  | .pair keyPath _ =>
    let r := resolve (lengths ps) (openIn ps) keyPath.first keyPath.rest
    ⟨s, headers ps, r.1, r.2, openIn ps⟩
  | .header keyPath array =>
    let r := resolve (lengths ps) [] keyPath.first keyPath.rest
    ⟨s, headers ps, r.1, r.2, if array then r.2 ++ [.element (lengths ps r.2)] else r.2⟩

/-- The statements of a document, each placed after those before it. -/
def placements (ss : List Statement) : List Placement :=
  ss.foldl (fun ps s => ps ++ [placed ps s]) []

/-- The table definition rules. -/
structure Rules (ps : List Placement) : Prop where
  /-- No value path is defined twice. -/
  valuesOnce : ps.Pairwise (fun p q => p.isPair = true → q.isPair = true → p.path ≠ q.path)
  /-- No value path is the path of a table or leads to one. -/
  valuesNoTables : ∀ p ∈ ps, p.isPair = true → ∀ q ∈ ps, ∀ T ∈ q.tables, ¬ p.path <+: T
  /-- No value path leads to another. -/
  valuesApart : ∀ p ∈ ps, p.isPair = true → ∀ q ∈ ps, q.isPair = true →
    p.path <+: q.path → p.path = q.path
  /-- Each table is named by at most one `[p]` header. -/
  namedOnce : ps.Pairwise (fun p q => p.isNamed = true → q.isNamed = true → p.path ≠ q.path)
  /-- A `[p]` header names no table that dotted keys create and no array of tables. -/
  namedTables : ∀ p ∈ ps, p.isNamed = true → ∀ q ∈ ps,
    (q.isPair = true → p.path ∉ q.passes) ∧ (q.isArray = true → p.path ≠ q.path)
  /-- A `[[p]]` header names a new path or an array of tables. -/
  arrays : ∀ before p after, ps = before ++ p :: after → p.isArray = true →
    (∃ q ∈ before, q.isArray = true ∧ q.path = p.path) ∨
      ∀ q ∈ before, p.path ∉ q.tables ∧ (q.isPair = true → p.path ≠ q.path)
  /-- What a dotted key passes was only named by dotted keys of its own section. -/
  dotted : ps.Pairwise (fun p q => q.isPair = true → ∀ P ∈ q.passes, P ∈ p.tables →
    p.isPair = true ∧ p.sectionIndex = q.sectionIndex)

theorem placements_concat (ss : List Statement) (s : Statement) :
    placements (ss ++ [s]) = placements ss ++ [placed (placements ss) s] := by
  simp [placements]

/-! ## What is known of each placement -/

section Placed

variable {ps : List Placement} {s : Statement} {p q : Placement} {P : Path}

theorem isPair_iff : p.isPair = true ↔ p.isNamed = false ∧ p.isArray = false := by
  unfold Placement.isPair Placement.value? Placement.isNamed Placement.isArray
  cases p.statement with
  | pair keyPath val => simp
  | header keyPath array => cases array <;> simp

theorem isNamed_kind (h : p.isNamed = true) : p.isPair = false ∧ p.isArray = false := by
  unfold Placement.isNamed at h
  unfold Placement.isPair Placement.value? Placement.isArray
  split at h
  · rename_i keyPath array statement
    rw [statement]
    exact ⟨rfl, by simpa using h⟩
  · cases h

theorem isArray_kind (h : p.isArray = true) : p.isPair = false ∧ p.isNamed = false := by
  unfold Placement.isArray at h
  unfold Placement.isPair Placement.value? Placement.isNamed
  split at h
  · rename_i keyPath array statement
    rw [statement]
    exact ⟨rfl, by simpa using h⟩
  · cases h

theorem tables_of_pair (h : p.isPair = true) : p.tables = p.passes := if_pos h

theorem tables_of_header (h : p.isPair = false) : p.tables = p.passes ++ [p.path, p.table] :=
  if_neg (by simp [h])

theorem passes_subset_tables (h : P ∈ p.passes) : P ∈ p.tables := by
  unfold Placement.tables
  split
  · exact h
  · exact List.mem_append_left _ h

theorem path_mem_tables (h : p.isPair = false) : p.path ∈ p.tables := by
  rw [tables_of_header h]
  simp

/-- Where a statement starts from. -/
def base (ps : List Placement) (s : Statement) : Path :=
  match s with
  | .pair _ _ => openIn ps
  | .header _ _ => []

theorem placed_resolve (ps : List Placement) (s : Statement) : ∃ key rest,
    resolve (lengths ps) (base ps s) key rest = ((placed ps s).passes, (placed ps s).path) := by
  cases s with
  | pair keyPath val => exact ⟨keyPath.first, keyPath.rest, rfl⟩
  | header keyPath array => exact ⟨keyPath.first, keyPath.rest, rfl⟩

theorem placed_path_keyEnded : KeyEnded (placed ps s).path := by
  obtain ⟨key, rest, r⟩ := placed_resolve ps s
  have ended := @resolve_keyEnded (lengths ps) (base ps s) key rest
  rwa [r] at ended

theorem placed_passes_keyEnded (h : P ∈ (placed ps s).passes) : KeyEnded P := by
  obtain ⟨key, rest, r⟩ := placed_resolve ps s
  exact @resolve_passes_keyEnded (lengths ps) (base ps s) key rest _ (by rwa [r])

theorem placed_passes_below (h : P ∈ (placed ps s).passes) :
    (base ps s).length < P.length ∧ base ps s <+: P ∧ P <+: (placed ps s).path ∧
      P.length < (placed ps s).path.length := by
  obtain ⟨key, rest, r⟩ := placed_resolve ps s
  have below := @resolve_passes_below (lengths ps) (base ps s) key rest P (by rwa [r])
  rwa [r] at below

theorem placed_prefix (ended : KeyEnded P) (h : P <+: (placed ps s).path) :
    P <+: base ps s ∨ P ∈ (placed ps s).passes ∨ P = (placed ps s).path := by
  obtain ⟨key, rest, r⟩ := placed_resolve ps s
  have known := @resolve_stem (lengths ps) (base ps s) key rest P ended (by rwa [r])
  rwa [r] at known

/-- A path that ends in a key and leads to a table of a statement is one of them, or
leads to where the statement starts from. -/
theorem placed_tables_prefix {T : Path} (ended : KeyEnded P) (mem : T ∈ (placed ps s).tables)
    (h : P <+: T) : P <+: base ps s ∨ P ∈ (placed ps s).tables := by
  have onPath : P <+: (placed ps s).path →
      ((placed ps s).isPair = true → P ≠ (placed ps s).path) →
      P <+: base ps s ∨ P ∈ (placed ps s).tables := by
    intro inside notValue
    rcases placed_prefix ended inside with inside | passed | same
    · exact Or.inl inside
    · exact Or.inr (passes_subset_tables passed)
    · cases pair : (placed ps s).isPair with
      | true => exact absurd same (notValue pair)
      | false => exact Or.inr (same ▸ path_mem_tables pair)
  have onPasses : T ∈ (placed ps s).passes →
      P <+: base ps s ∨ P ∈ (placed ps s).tables := by
    intro passed
    obtain ⟨-, -, front, shorter⟩ := placed_passes_below passed
    refine onPath (h.trans front) ?_
    rintro - rfl
    exact absurd (lt_of_lt_of_le shorter h.length_le) (Nat.lt_irrefl _)
  cases pair : (placed ps s).isPair with
  | true =>
    rw [tables_of_pair pair] at mem
    exact onPasses mem
  | false =>
    rw [tables_of_header pair] at mem
    have notValue : (placed ps s).isPair = true → P ≠ (placed ps s).path := by
      rw [pair]
      nofun
    rcases List.mem_append.mp mem with passed | named
    · exact onPasses passed
    · rcases List.mem_cons.mp named with rfl | opened
      · exact onPath h notValue
      · obtain rfl := List.mem_singleton.mp opened
        refine onPath ?_ notValue
        cases s with
        | pair keyPath val => cases pair
        | header keyPath array =>
          cases array with
          | false => exact h
          | true =>
            rcases prefix_concat h with same | inside
            · exact absurd ended (same ▸ KeyEnded.not_element)
            · exact inside

end Placed

/-- Every path that ends in a key and leads to a table is a table. -/
structure Closed (ps : List Placement) : Prop where
  tables : ∀ q ∈ ps, ∀ T ∈ q.tables, ∀ P, KeyEnded P → P <+: T → ∃ p ∈ ps, P ∈ p.tables
  values : ∀ q ∈ ps, q.isPair = true → ∀ P, KeyEnded P → P <+: q.path → P ≠ q.path →
    ∃ p ∈ ps, P ∈ p.tables
  opened : openIn ps = [] ∨ ∃ p ∈ ps, openIn ps ∈ p.tables

theorem openIn_concat (ps : List Placement) (q : Placement) : openIn (ps ++ [q]) = q.table := by
  simp [openIn]

theorem closed_placements (ss : List Statement) : Closed (placements ss) := by
  induction ss using List.reverseRecOn with
  | nil => exact ⟨nofun, nofun, Or.inl rfl⟩
  | append_singleton ss s ih =>
    rw [placements_concat]
    generalize placements ss = ps at ih ⊢
    have later : ∀ {P}, (∃ p ∈ ps, P ∈ p.tables) → ∃ p ∈ ps ++ [placed ps s], P ∈ p.tables := by
      rintro P ⟨p, mem, h⟩
      exact ⟨p, List.mem_append_left _ mem, h⟩
    have last : ∀ {P}, P ∈ (placed ps s).tables → ∃ p ∈ ps ++ [placed ps s], P ∈ p.tables :=
      fun h => ⟨_, by simp, h⟩
    -- a path to the base is a path to the table that was open
    have below : ∀ {P}, KeyEnded P → P <+: base ps s → ∃ p ∈ ps, P ∈ p.tables := by
      intro P ended inside
      have empty : ¬ P <+: ([] : Path) := fun h => ended.ne_nil (List.prefix_nil.mp h)
      cases s with
      | header keyPath array => exact absurd inside empty
      | pair keyPath val =>
        rcases ih.opened with none | ⟨p, mem, opened⟩
        · rw [base, none] at inside
          exact absurd inside empty
        · exact ih.tables p mem _ opened P ended inside
    refine ⟨?_, ?_, ?_⟩
    · intro q mem T hT P ended inside
      rcases List.mem_append.mp mem with mem | mem
      · exact later (ih.tables q mem T hT P ended inside)
      · rw [List.mem_singleton.mp mem] at hT
        rcases placed_tables_prefix ended hT inside with inside | here
        · exact later (below ended inside)
        · exact last here
    · intro q mem pair P ended inside other
      rcases List.mem_append.mp mem with mem | mem
      · exact later (ih.values q mem pair P ended inside other)
      · rw [List.mem_singleton.mp mem] at inside other
        rcases placed_prefix ended inside with inside | passed | same
        · exact later (below ended inside)
        · exact last (passes_subset_tables passed)
        · exact absurd same other
    · rw [openIn_concat]
      cases s with
      | pair keyPath val =>
        rcases ih.opened with none | opened
        · exact Or.inl none
        · exact Or.inr (later opened)
      | header keyPath array =>
        refine Or.inr (last ?_)
        rw [tables_of_header rfl]
        simp

end Dross
