import Dross.Format.SectionOrder
import Dross.Format.TableFrames
import Dross.Format.ValueForms

/-!
# The tables the serializer writes

What is written for a dictionary is a list of statements: the pairs of a table, then a
header for each of its tables and for each element of its arrays of tables, with what is
under it. Defining them one after the other builds the tables they came from.
-/

namespace Dross

open OrderedMap Toml

/-! ## Statements and tables -/

/-- The pairs of a dictionary that are written as pairs, as they come back. -/
def pairsOf (d : Dictionary) : Dictionary :=
  (d.filter (fun p => ! isWrittenAsTable p.2)).map (fun p => (p.1, p.2.comesBack))

mutual

/-- The tables under a path that are written for a dictionary. -/
def tableStatements (path : List Text) : Dictionary → List Statement
  | [] => []
  | (key, .dictionary table) :: rest =>
    .header (KeyPath.to path key) false :: ((pairsOf table).map plainPair ++
      tableStatements (path ++ [key]) table) ++ tableStatements path rest
  | (key, .array elements) :: rest =>
    (if isArrayOfTables (.array elements) then elementStatements path key elements else []) ++
      tableStatements path rest
  | _ :: rest => tableStatements path rest

def elementStatements (path : List Text) (key : Text) : List Value → List Statement
  | [] => []
  | .dictionary table :: rest =>
    .header (KeyPath.to path key) true :: ((pairsOf table).map plainPair ++
      tableStatements (path ++ [key]) table) ++ elementStatements path key rest
  | _ :: rest => elementStatements path key rest

end

/-- What is written for a dictionary under its header, or for the root. -/
def bodyStatements (path : List Text) (d : Dictionary) : List Statement :=
  (pairsOf d).map plainPair ++ tableStatements path d

mutual

/-- The tables that the statements of a dictionary build. -/
def tablesOf : Dictionary → List (Text × TableNode)
  | [] => []
  | (key, .dictionary table) :: rest =>
    (key, { TableNode.fresh with named := true, pairs := pairsOf table, tables := tablesOf table }) ::
      tablesOf rest
  | (key, .array elements) :: rest =>
    if isArrayOfTables (.array elements) then
      (key, { TableNode.fresh with array := true, elements := elementsOf elements }) :: tablesOf rest
    else tablesOf rest
  | _ :: rest => tablesOf rest

def elementsOf : List Value → List TableNode
  | [] => []
  | .dictionary table :: rest =>
    { TableNode.fresh with pairs := pairsOf table, tables := tablesOf table } :: elementsOf rest
  | _ :: rest => elementsOf rest

end

section Shape

variable {d rest : Dictionary} {key : Text} {v : Value}

theorem tablesOf_append (a b : Dictionary) : tablesOf (a ++ b) = tablesOf a ++ tablesOf b := by
  induction a with
  | nil => rw [tablesOf, List.nil_append, List.nil_append]
  | cons p a ih =>
    obtain ⟨key, v⟩ := p
    cases v with
    | dictionary table => simp only [List.cons_append, tablesOf, ih]
    | array elements =>
      simp only [List.cons_append, tablesOf, ih]
      split
      · rfl
      · rfl
    | _ => simp only [List.cons_append, tablesOf, ih]

/-- The tables are under the keys whose values are written as tables. -/
theorem tablesOf_key {p : Text × TableNode} (mem : p ∈ tablesOf d) :
    ∃ v, (p.1, v) ∈ d ∧ isWrittenAsTable v = true := by
  induction d with
  | nil =>
    rw [tablesOf] at mem
    cases mem
  | cons q d ih =>
    obtain ⟨key, v⟩ := q
    have later (mem : p ∈ tablesOf d) :
        ∃ w, (p.1, w) ∈ (key, v) :: d ∧ isWrittenAsTable w = true := by
      obtain ⟨w, here, table⟩ := ih mem
      exact ⟨w, List.mem_cons_of_mem _ here, table⟩
    cases v with
    | dictionary table =>
      rw [tablesOf] at mem
      rcases List.mem_cons.mp mem with rfl | mem
      · exact ⟨.dictionary table, List.mem_cons_self, rfl⟩
      · exact later mem
    | array elements =>
      rw [tablesOf] at mem
      split at mem
      · rename_i arrayOfTables
        rcases List.mem_cons.mp mem with rfl | mem
        · exact ⟨.array elements, List.mem_cons_self, by simp [isWrittenAsTable, arrayOfTables]⟩
        · exact later mem
      · exact later mem
    | _ =>
      simp only [tablesOf] at mem
      exact later mem

theorem pairsOf_key {p : Text × Value} (mem : p ∈ pairsOf d) :
    ∃ v, (p.1, v) ∈ d ∧ isWrittenAsTable v = false := by
  obtain ⟨q, inside, rfl⟩ := List.mem_map.mp mem
  obtain ⟨here, pair⟩ := List.mem_filter.mp inside
  exact ⟨q.2, here, by simpa using pair⟩

theorem sorted_pairsOf (sorted : Sorted d) : Sorted (pairsOf d) := by
  rw [pairsOf, Sorted, List.pairwise_map]
  exact sorted.sublist List.filter_sublist

/-- No key of a sorted dictionary is written both as a pair and as a table. -/
theorem pairs_absent (sorted : Sorted d) (mem : (key, v) ∈ d) (table : isWrittenAsTable v = true) :
    contains (pairsOf d) key = false := by
  rw [contains_eq_false, ← Option.not_isSome_iff_eq_none]
  intro some
  obtain ⟨w, found⟩ := Option.isSome_iff_exists.mp some
  obtain ⟨u, here, pair⟩ := pairsOf_key (mem_of_find found)
  have same := find_of_mem sorted here
  rw [find_of_mem sorted mem] at same
  rw [Option.some.inj same, pair] at table
  cases table

theorem tables_below {done : Dictionary} (sorted : Sorted (done ++ (key, v) :: rest)) :
    ∀ p ∈ tablesOf done, p.1 < key := by
  intro p mem
  obtain ⟨w, here, -⟩ := tablesOf_key mem
  exact (List.pairwise_append.mp sorted).2.2 (p.1, w) here (key, v) List.mem_cons_self

end Shape

/-! ## Defining them -/

namespace Document

/-- Wherever these statements stand, they lead from one document to the other. -/
def Defines (D : Document) (ss : List Statement) (E : Document) : Prop :=
  ∀ read : List (Statement × Position), read.map Prod.fst = ss → D.defineAll read = (E, .ok ())

variable {D E F : Document} {ss ts : List Statement} {s : Statement}

theorem defineAll_append {before after : List (Statement × Position)}
    (all : D.defineAll before = (E, .ok ())) : D.defineAll (before ++ after) = E.defineAll after := by
  induction before generalizing D with
  | nil =>
    obtain rfl : D = E := (Prod.mk.inj all).1
    rfl
  | cons s before ih =>
    obtain ⟨s, pos⟩ := s
    obtain ⟨D', first, rest⟩ := Cursor.defineAll_cons.mp all
    rw [List.cons_append, defineAll, first]
    exact ih rest

theorem Defines.nil (D : Document) : D.Defines [] D := by
  intro read same
  rw [List.map_eq_nil_iff.mp same]
  rfl

theorem Defines.cons (first : ∀ pos, D.define s pos = (E, .ok ())) (rest : E.Defines ss F) :
    D.Defines (s :: ss) F := by
  intro read same
  obtain ⟨⟨t, pos⟩, read, rfl, rfl, others⟩ := List.map_eq_cons_iff.mp same
  rw [defineAll, first]
  exact rest read others

theorem Defines.append (h : D.Defines ss E) (k : E.Defines ts F) : D.Defines (ss ++ ts) F := by
  intro read same
  obtain ⟨before, after, rfl, first, second⟩ := List.map_eq_append_iff.mp same
  rw [defineAll_append (h before first), k after second]

end Document

section Building

variable {frames : List TableFrame} {node : TableNode} {key : Text}

open Document

theorem header_defines (passable : ∀ f ∈ frames, f.Passable) (table : node.array = false)
    {array : Bool}
    {opened : TableNode} {P : Path}
    (first : ∀ pos, node.openTableParts key [] array pos = (opened, .ok P)) (current : Path) (pos : Position) :
    (Document.mk (plug frames node) current).define (.header (KeyPath.to (framesKeys frames) key) array)
      pos = (⟨plug frames opened, framesPath frames ++ P⟩, .ok ()) := by
  rw [define, openTable_plug passable table, first]
  rfl

theorem openTableParts_new (inPairs : contains node.pairs key = false)
    (inTables : find node.tables key = none) (pos : Position) :
    node.openTableParts key [] false pos =
      (node.setTable key { TableNode.fresh with named := true }, .ok [.key key]) := by
  unfold TableNode.openTableParts
  simp [inPairs, inTables, TableNode.nameTable, TableNode.fresh, Except.map]

/-- The node of an array of tables. -/
def arrayOf (elements : List TableNode) : TableNode :=
  { TableNode.fresh with array := true, elements := elements }

theorem openTableParts_element {done : List TableNode} (inPairs : contains node.pairs key = false)
    (here : (find node.tables key).getD { TableNode.fresh with array := true } = arrayOf done)
    (pos : Position) :
    node.openTableParts key [] true pos =
      (node.setTable key (arrayOf (done ++ [TableNode.fresh])),
        .ok [.key key, .element done.length]) := by
  unfold TableNode.openTableParts
  simp [inPairs, here, TableNode.nameTable, arrayOf, Except.map]

/-- The pairs of a table that has none of its tables yet. -/
theorem pairs_define (frames : List TableFrame) {ps : Dictionary} (bare : node.tables = [])
    (sorted : Sorted (node.pairs ++ ps)) :
    Defines ⟨plug frames node, framesPath frames⟩ (ps.map plainPair)
      ⟨plug frames { node with pairs := node.pairs ++ ps }, framesPath frames⟩ := by
  induction ps generalizing node with
  | nil =>
    have same : { node with pairs := node.pairs ++ [] } = node := by
      cases node
      rw [List.append_nil]
    rw [same]
    exact Defines.nil _
  | cons p ps ih =>
    obtain ⟨key, v⟩ := p
    have above : ∀ p ∈ node.pairs, p.1 < key := fun p mem =>
      (List.pairwise_append.mp sorted).2.2 p mem (key, v) List.mem_cons_self
    have added (pos : Position) :
        node.addPair ⟨key, []⟩ v pos = ({ node with pairs := node.pairs ++ [(key, v)] }, .ok ()) := by
      rw [TableNode.addPair_plain (by rw [bare]; rfl) (contains_of_above above), set_of_above above]
    rw [List.append_cons] at sorted
    have others := @ih { node with pairs := node.pairs ++ [(key, v)] } bare sorted
    rw [← List.append_cons] at others
    refine Defines.cons (fun pos => ?_) others
    rw [plainPair, define, nodeAt_plug, Option.getD_some, added, replaceAt_plug]

/-- Under frames that let headers through, the statements of a table build it. -/
def BodyBuilds (t : Dictionary) : Prop :=
  ∀ (frames : List TableFrame) (base : TableNode), (∀ f ∈ frames, f.Passable) → base.array = false →
    base.pairs = [] → base.tables = [] → ∃ current,
      Defines ⟨plug frames base, framesPath frames⟩ (bodyStatements (framesKeys frames) t)
        ⟨plug frames { base with pairs := pairsOf t, tables := tablesOf t }, current⟩

/-- The tables that are written for a value build it. -/
def Builds : Value → Prop
  | .dictionary t => BodyBuilds t
  | .array elements => ∀ t, .dictionary t ∈ elements → BodyBuilds t
  | _ => True

/-- What stands under a header builds the table that the header opens, in one frame more. -/
theorem headed_builds (passable : ∀ f ∈ frames, f.Passable) {f : TableFrame} (through : f.Passable)
    {t : Dictionary} (builds : BodyBuilds t) {base : TableNode} (plain : base.array = false)
    (noPairs : base.pairs = []) (noTables : base.tables = []) {array : Bool} {current : Path}
    (header : ∀ pos, (Document.mk (plug frames f.parent) current).define
      (.header (KeyPath.to (framesKeys frames) f.key) array) pos =
        (⟨plug frames (f.plug base), framesPath frames ++ f.path⟩, .ok ())) :
    ∃ after, Defines ⟨plug frames f.parent, current⟩
      (.header (KeyPath.to (framesKeys frames) f.key) array ::
        bodyStatements (framesKeys frames ++ [f.key]) t)
      ⟨plug frames (f.plug { base with pairs := pairsOf t, tables := tablesOf t }), after⟩ := by
  have inner : ∀ g ∈ frames ++ [f], g.Passable := by
    intro g mem
    rcases List.mem_append.mp mem with mem | mem
    · exact passable g mem
    · rw [List.mem_singleton.mp mem]
      exact through
  obtain ⟨after, body⟩ := builds (frames ++ [f]) base inner plain noPairs noTables
  rw [plug_concat, plug_concat, framesPath_concat, framesKeys_concat] at body
  exact ⟨after, Defines.cons header body⟩

theorem element_builds (passable : ∀ f ∈ frames, f.Passable) (table : node.array = false)
    (inPairs : contains node.pairs key = false) {done : List TableNode}
    (here : (find node.tables key).getD { TableNode.fresh with array := true } = arrayOf done)
    {t : Dictionary} (builds : BodyBuilds t) (current : Path) :
    ∃ after, Defines ⟨plug frames node, current⟩
      (.header (KeyPath.to (framesKeys frames) key) true ::
        bodyStatements (framesKeys frames ++ [key]) t)
      ⟨plug frames (node.setTable key
        (arrayOf (done ++ [{ TableNode.fresh with pairs := pairsOf t, tables := tablesOf t }]))),
        after⟩ := by
  have header := header_defines passable table (openTableParts_element inPairs here) current
  exact headed_builds passable (f := ⟨node, key, some (arrayOf done)⟩)
    ⟨table, inPairs, fun array same => by rw [← Option.some.inj same]; rfl⟩ builds rfl rfl rfl header

theorem isDictionary_iff {v : Value} : isDictionary v = true ↔ ∃ t, v = .dictionary t := by
  cases v <;> simp [isDictionary]

/-- The elements after the first. -/
theorem more_elements_build (passable : ∀ f ∈ frames, f.Passable) (table : node.array = false)
    (inPairs : contains node.pairs key = false) (done : List TableNode) {elements : List Value}
    (tables : ∀ u ∈ elements, isDictionary u = true)
    (builds : ∀ t, .dictionary t ∈ elements → BodyBuilds t) (current : Path) :
    ∃ after, Defines ⟨plug frames (node.setTable key (arrayOf done)), current⟩
      (elementStatements (framesKeys frames) key elements)
      ⟨plug frames (node.setTable key (arrayOf (done ++ elementsOf elements))), after⟩ := by
  induction elements generalizing done current with
  | nil =>
    rw [elementStatements, elementsOf, List.append_nil]
    exact ⟨current, Defines.nil _⟩
  | cons v rest ih =>
    obtain ⟨t, rfl⟩ := isDictionary_iff.mp (tables v List.mem_cons_self)
    have here : (find (node.setTable key (arrayOf done)).tables key).getD
        { TableNode.fresh with array := true } = arrayOf done := by
      simp [TableNode.setTable]
    obtain ⟨middle, first⟩ := @element_builds frames (node.setTable key (arrayOf done)) key passable table
      inPairs done here t (builds t List.mem_cons_self) current
    rw [setTable_setTable] at first
    obtain ⟨after, others⟩ := ih
      (done ++ [{ TableNode.fresh with pairs := pairsOf t, tables := tablesOf t }])
      (fun u mem => tables u (List.mem_cons_of_mem _ mem))
      (fun u mem => builds u (List.mem_cons_of_mem _ mem)) middle
    rw [List.append_assoc] at others
    rw [elementStatements, elementsOf]
    exact ⟨after, first.append others⟩

theorem elements_build (passable : ∀ f ∈ frames, f.Passable) (table : node.array = false)
    (inPairs : contains node.pairs key = false) (inTables : find node.tables key = none)
    {elements : List Value} (some : elements ≠ []) (tables : ∀ u ∈ elements, isDictionary u = true)
    (builds : ∀ t, .dictionary t ∈ elements → BodyBuilds t) (current : Path) :
    ∃ after, Defines ⟨plug frames node, current⟩ (elementStatements (framesKeys frames) key elements)
      ⟨plug frames (node.setTable key (arrayOf (elementsOf elements))), after⟩ := by
  obtain ⟨v, rest, rfl⟩ := List.exists_cons_of_ne_nil some
  obtain ⟨t, rfl⟩ := isDictionary_iff.mp (tables v List.mem_cons_self)
  have here : (find node.tables key).getD { TableNode.fresh with array := true } = arrayOf [] := by
    rw [inTables]
    rfl
  obtain ⟨middle, first⟩ :=
    element_builds passable table inPairs here (builds t List.mem_cons_self) current
  obtain ⟨after, others⟩ := more_elements_build passable table inPairs
    ([] ++ [{ TableNode.fresh with pairs := pairsOf t, tables := tablesOf t }])
    (fun u mem => tables u (List.mem_cons_of_mem _ mem))
    (fun u mem => builds u (List.mem_cons_of_mem _ mem)) middle
  rw [elementStatements, elementsOf]
  exact ⟨after, first.append others⟩

theorem table_builds (passable : ∀ f ∈ frames, f.Passable) (table : node.array = false)
    (inPairs : contains node.pairs key = false) (inTables : find node.tables key = none)
    {t : Dictionary} (builds : BodyBuilds t) (current : Path) :
    ∃ after, Defines ⟨plug frames node, current⟩
      (.header (KeyPath.to (framesKeys frames) key) false ::
        bodyStatements (framesKeys frames ++ [key]) t)
      ⟨plug frames (node.setTable key
        { TableNode.fresh with
          named := true, pairs := pairsOf t, tables := tablesOf t }), after⟩ := by
  have header := header_defines passable table (openTableParts_new inPairs inTables) current
  exact headed_builds passable (f := ⟨node, key, none⟩)
    ⟨table, inPairs, fun array same => by cases same⟩ builds rfl rfl rfl header

/-- The tables after those that stand already. -/
theorem tables_build (passable : ∀ f ∈ frames, f.Passable) (table : node.array = false)
    {done rest : Dictionary} (sorted : Sorted (done ++ rest)) (here : node.tables = tablesOf done)
    (inPairs : ∀ p ∈ rest, isWrittenAsTable p.2 = true → contains node.pairs p.1 = false)
    (builds : ∀ p ∈ rest, Builds p.2) (current : Path) :
    ∃ after, Defines ⟨plug frames node, current⟩ (tableStatements (framesKeys frames) rest)
      ⟨plug frames { node with tables := tablesOf (done ++ rest) }, after⟩ := by
  induction rest generalizing done node current with
  | nil =>
    have same : { node with tables := tablesOf (done ++ []) } = node := by
      cases node
      rw [List.append_nil, ← here]
    rw [same, tableStatements]
    exact ⟨current, Defines.nil _⟩
  | cons p rest ih =>
    obtain ⟨key, v⟩ := p
    have above : ∀ p ∈ node.tables, p.1 < key := by
      rw [here]
      exact tables_below sorted
    have absent : find node.tables key = none := contains_eq_false.mp (contains_of_above above)
    have first := inPairs (key, v) List.mem_cons_self
    have defined := builds (key, v) List.mem_cons_self
    rw [List.append_cons] at sorted ⊢
    have others (node' : TableNode) (same : node'.tables = tablesOf (done ++ [(key, v)]))
        (pairs : node'.pairs = node.pairs) (plain : node'.array = false) (current : Path) :=
      @ih node' plain (done ++ [(key, v)]) sorted same
        (fun p mem => by rw [pairs]; exact inPairs p (List.mem_cons_of_mem _ mem))
        (fun p mem => builds p (List.mem_cons_of_mem _ mem)) current
    have plain (none : tablesOf [(key, v)] = []) : ∃ after,
        Defines ⟨plug frames node, current⟩ (tableStatements (framesKeys frames) rest)
          ⟨plug frames { node with tables := tablesOf (done ++ [(key, v)] ++ rest) }, after⟩ :=
      others node (by rw [tablesOf_append, none, List.append_nil, here]) rfl table current
    cases v with
    | dictionary t =>
      obtain ⟨middle, opened⟩ := table_builds passable table (first rfl) absent defined current
      obtain ⟨after, rest'⟩ := others (node.setTable key
          { TableNode.fresh with named := true, pairs := pairsOf t, tables := tablesOf t })
        (by
          rw [TableNode.setTable, set_of_above above, here, tablesOf_append, tablesOf, tablesOf])
        rfl table middle
      rw [tableStatements]
      exact ⟨after, opened.append rest'⟩
    | array elements =>
      cases arrayOfTables : isArrayOfTables (.array elements) with
      | false =>
        rw [tableStatements, arrayOfTables]
        exact plain (by rw [tablesOf, arrayOfTables, tablesOf]; rfl)
      | true =>
        have shape := arrayOfTables
        rw [isArrayOfTables, Bool.and_eq_true, List.all_eq_true] at shape
        obtain ⟨middle, opened⟩ := elements_build passable table
          (first (by simp [isWrittenAsTable, arrayOfTables])) absent (by simpa using shape.1) shape.2
          defined current
        obtain ⟨after, rest'⟩ := others (node.setTable key (arrayOf (elementsOf elements)))
          (by
            rw [TableNode.setTable, set_of_above above, here, tablesOf_append, tablesOf,
              arrayOfTables, tablesOf]
            rfl)
          rfl table middle
        rw [tableStatements, arrayOfTables]
        exact ⟨after, opened.append rest'⟩
    | _ =>
      simp only [tableStatements]
      exact plain (by simp only [tablesOf])

/-- A table whose own tables can be built is built from its statements. -/
theorem bodyBuilds {t : Dictionary} (sorted : Sorted t) (builds : ∀ p ∈ t, Builds p.2) :
    BodyBuilds t := by
  intro frames base passable table noPairs noTables
  have pairs := @pairs_define base frames (pairsOf t) noTables (by
    rw [noPairs]
    exact sorted_pairsOf sorted)
  rw [noPairs, List.nil_append] at pairs
  obtain ⟨after, tables⟩ := @tables_build frames { base with pairs := pairsOf t } passable table []
    t sorted (by rw [tablesOf]; exact noTables)
    (fun p mem written => pairs_absent sorted mem written) builds (framesPath frames)
  exact ⟨after, pairs.append tables⟩

theorem builds {v : Value} (ordered : v.Ordered) : Builds v := by
  induction v using Value.induction with
  | array elements ih =>
    intro t mem
    exact ih _ mem (Value.orderedElements_iff.mp ordered _ mem)
  | dictionary t ih =>
    obtain ⟨sorted, properties⟩ := ordered
    have inside := Value.orderedProperties_iff.mp properties
    exact bodyBuilds sorted fun p mem => ih p mem (inside p mem)
  | _ => trivial

/-- The statements that are written for a dictionary build its tables from the start. -/
theorem dictionary_builds {d : Dictionary} (ordered : (Value.dictionary d).Ordered) :
    ∃ after, Document.start.Defines (bodyStatements [] d)
      ⟨{ TableNode.fresh with pairs := pairsOf d, tables := tablesOf d }, after⟩ :=
  builds ordered [] TableNode.fresh (by simp) rfl rfl rfl

end Building

/-! ## Merging them -/

section Merging

variable {d rest : Dictionary} {v : Value}

theorem tablesOf_pair {key : Text} (pair : isWrittenAsTable v = false) :
    tablesOf ((key, v) :: rest) = tablesOf rest := by
  cases v with
  | dictionary t => cases pair
  | array elements =>
    rw [tablesOf, if_neg]
    simpa [isWrittenAsTable, isDictionary] using pair
  | _ => simp only [tablesOf]

theorem sorted_tablesOf (sorted : Sorted d) : Sorted (tablesOf d) := by
  induction d with
  | nil =>
    rw [tablesOf]
    exact sorted_nil
  | cons p rest ih =>
    obtain ⟨key, v⟩ := p
    obtain ⟨below, others⟩ := sorted_cons.mp sorted
    have first (node : TableNode) : Sorted ((key, node) :: tablesOf rest) := by
      refine sorted_cons.mpr ⟨fun q mem => ?_, ih others⟩
      obtain ⟨w, here, -⟩ := tablesOf_key mem
      exact below (q.1, w) here
    cases v with
    | dictionary t =>
      rw [tablesOf]
      exact first _
    | array elements =>
      rw [tablesOf]
      split
      · exact first _
      · exact ih others
    | _ =>
      simp only [tablesOf]
      exact ih others

/-- The table that is built for a value becomes its image. -/
def Merges : Value → Prop
  | .dictionary t => TableNode.mergeInto (pairsOf t) (tablesOf t) = Value.propertiesBack t
  | .array elements => isArrayOfTables (.array elements) = true →
      TableNode.elementValues (elementsOf elements) = Value.elementsBack elements
  | _ => True

/-- A value that is written as a table has one, with its image. -/
theorem tablesOf_table {key : Text} (table : isWrittenAsTable v = true) (merges : Merges v) :
    ∃ node : TableNode, tablesOf ((key, v) :: rest) = (key, node) :: tablesOf rest ∧
      node.toValue = v.comesBack := by
  cases v with
  | dictionary t =>
    refine ⟨_, by rw [tablesOf], ?_⟩
    rw [TableNode.toValue_eq, Value.comesBack, ← merges]
    rfl
  | array elements =>
    have arrayOfTables : isArrayOfTables (.array elements) = true := by
      simpa [isWrittenAsTable, isDictionary] using table
    refine ⟨_, by rw [tablesOf, if_pos arrayOfTables], ?_⟩
    rw [TableNode.toValue_eq, Value.comesBack, ← merges arrayOfTables]
    rfl
  | _ => cases table

theorem find_written (sorted : Sorted d) (merges : ∀ p ∈ d, Merges p.2) (k : Text) :
    ((find (tablesOf d) k).map TableNode.toValue).or (find (pairsOf d) k) =
      find (Value.propertiesBack d) k := by
  induction d with
  | nil =>
    rw [tablesOf]
    rfl
  | cons p rest ih =>
    obtain ⟨key, v⟩ := p
    obtain ⟨below, others⟩ := sorted_cons.mp sorted
    have inner := ih others fun p mem => merges p (List.mem_cons_of_mem _ mem)
    rw [Value.propertiesBack]
    cases table : isWrittenAsTable v with
    | true =>
      obtain ⟨node, same, image⟩ :=
        @tablesOf_table rest v key table (merges (key, v) List.mem_cons_self)
      have pairs : pairsOf ((key, v) :: rest) = pairsOf rest := by simp [pairsOf, table]
      rw [same, pairs]
      by_cases here : k = key
      · rw [here, find_cons_self, find_cons_self, Option.map_some, image, Option.some_or]
      · rw [find_cons_ne here, find_cons_ne here, inner]
    | false =>
      have pairs : pairsOf ((key, v) :: rest) = (key, v.comesBack) :: pairsOf rest := by
        simp [pairsOf, table]
      rw [tablesOf_pair table, pairs]
      by_cases here : k = key
      · have absent : find (tablesOf rest) key = none := by
          refine find_eq_none_of_below fun q mem => ?_
          obtain ⟨w, inside, -⟩ := tablesOf_key mem
          exact below (q.1, w) inside
        rw [here, absent, find_cons_self, find_cons_self, Option.map_none, Option.none_or]
      · rw [find_cons_ne here, find_cons_ne here, inner]

theorem elements_merge {elements : List Value} (tables : ∀ u ∈ elements, isDictionary u = true)
    (merges : ∀ u ∈ elements, Merges u) :
    TableNode.elementValues (elementsOf elements) = Value.elementsBack elements := by
  induction elements with
  | nil => rw [elementsOf, TableNode.elementValues, Value.elementsBack]
  | cons v rest ih =>
    obtain ⟨t, rfl⟩ := isDictionary_iff.mp (tables v List.mem_cons_self)
    have first : TableNode.mergeInto (pairsOf t) (tablesOf t) = Value.propertiesBack t :=
      merges (.dictionary t) List.mem_cons_self
    have others := ih (fun u mem => tables u (List.mem_cons_of_mem _ mem))
      fun u mem => merges u (List.mem_cons_of_mem _ mem)
    rw [elementsOf, TableNode.elementValues, Value.elementsBack, Value.comesBack, first, others]

theorem merges {v : Value} (ordered : v.Ordered) : Merges v := by
  induction v using Value.induction with
  | array elements ih =>
    intro arrayOfTables
    have inside := Value.orderedElements_iff.mp ordered
    rw [isArrayOfTables, Bool.and_eq_true, List.all_eq_true] at arrayOfTables
    exact elements_merge arrayOfTables.2 fun v mem => ih v mem (inside v mem)
  | dictionary t ih =>
    obtain ⟨sorted, properties⟩ := ordered
    have inside := Value.orderedProperties_iff.mp properties
    refine Sorted.ext (TableNode.sorted_mergeInto (sorted_pairsOf sorted))
      (Value.sorted_propertiesBack.mpr sorted) fun k => ?_
    rw [TableNode.find_mergeInto (sorted_tablesOf sorted)]
    exact find_written sorted (fun p mem => ih p mem (inside p mem)) k
  | _ => trivial

end Merging

end Dross
