import Dross.Format.DocumentStatements
import Dross.Format.TableMerge

/-!
# The order of sections

A document without arrays of tables in which no key is dotted puts each of its
sections where its own header names it, whatever comes before. The rules that are
left ask nothing about the order, so sections may change places.
-/

namespace Dross

/-- A `[p]` header and the pairs under it. -/
structure HeaderSection where
  keyPath : KeyPath
  pairs : List (Text × Value)

/-- A pair of which the key has a single part. -/
def plainPair (p : Text × Value) : Statement := .pair ⟨p.1, []⟩ p.2

def HeaderSection.statements (s : HeaderSection) : List Statement :=
  .header s.keyPath false :: s.pairs.map plainPair

/-- The pairs of the root, and then the sections. -/
def inSections (root : List (Text × Value)) (sections : List HeaderSection) : List Statement :=
  root.map plainPair ++ sections.flatMap HeaderSection.statements

/-- A header that makes no array, or a pair of which the key has a single part. -/
def Statement.IsPlain : Statement → Prop
  | .pair keyPath _ => keyPath.rest = []
  | .header _ array => array = false

theorem inSections_plain {root : List (Text × Value)} {sections : List HeaderSection} :
    ∀ s ∈ inSections root sections, s.IsPlain := by
  have pairs (ps : List (Text × Value)) : ∀ s ∈ ps.map plainPair, s.IsPlain := by
    intro s mem
    obtain ⟨p, -, rfl⟩ := List.mem_map.mp mem
    rfl
  intro s mem
  rcases List.mem_append.mp mem with mem | mem
  · exact pairs root s mem
  · obtain ⟨t, -, mem⟩ := List.mem_flatMap.mp mem
    rcases List.mem_cons.mp mem with rfl | mem
    · rfl
    · exact pairs t.pairs s mem

/-! ## Places without numbers -/

/-- A placement but for how many headers stand before it. -/
def Placement.unnumbered (p : Placement) : Placement := { p with sectionIndex := 0 }

/-- Where a statement stands under a table, if there are no arrays of tables. -/
def placedUnder (table : Path) (s : Statement) : Placement :=
  match s with
  | .pair keyPath _ =>
    let r := resolve (fun _ => 0) table keyPath.first keyPath.rest
    ⟨s, 0, r.1, r.2, table⟩
  | .header keyPath array =>
    let r := resolve (fun _ => 0) [] keyPath.first keyPath.rest
    ⟨s, 0, r.1, r.2, if array then r.2 ++ [.element 0] else r.2⟩

def placedFrom (table : Path) : List Statement → List Placement
  | [] => []
  | s :: ss => placedUnder table s :: placedFrom (placedUnder table s).table ss

/-- The table that is open after some more statements. -/
def openAfter (table : Path) : List Statement → Path
  | [] => table
  | s :: ss => openAfter (placedUnder table s).table ss

section Unnumbered

variable {ps qs : List Placement} {p : Placement} {P : Path} {ss : List Statement}

theorem placedFrom_append (table : Path) (ss ts : List Statement) :
    placedFrom table (ss ++ ts) = placedFrom table ss ++ placedFrom (openAfter table ss) ts := by
  induction ss generalizing table with
  | nil => rfl
  | cons s ss ih => simp only [List.cons_append, placedFrom, openAfter, ih]

theorem openAfter_append (table : Path) (ss ts : List Statement) :
    openAfter table (ss ++ ts) = openAfter (openAfter table ss) ts := by
  induction ss generalizing table with
  | nil => rfl
  | cons s ss ih => simp only [List.cons_append, openAfter, ih]

/-- A section stands where its header puts it, whatever was open before. -/
theorem placedFrom_section (table : Path) (s : HeaderSection) :
    placedFrom table s.statements = placedFrom [] s.statements := rfl

theorem placedFrom_sections (table : Path) (sections : List HeaderSection) :
    placedFrom table (sections.flatMap HeaderSection.statements) =
      sections.flatMap (fun s => placedFrom [] s.statements) := by
  induction sections generalizing table with
  | nil => rfl
  | cons s sections ih =>
    rw [List.flatMap_cons, List.flatMap_cons, placedFrom_append, ih, placedFrom_section]

theorem placed_unnumbered (zero : lengths ps = fun _ => 0) (s : Statement) :
    (placed ps s).unnumbered = placedUnder (openIn ps) s := by
  cases s with
  | pair keyPath val => simp only [placed, placedUnder, Placement.unnumbered, zero]
  | header keyPath array => simp only [placed, placedUnder, Placement.unnumbered, zero]

theorem lengths_of_noArray (h : ∀ p ∈ ps, p.isArray = false) : lengths ps = fun _ => 0 := by
  funext P
  rw [lengths_eq_zero]
  intro p mem array
  rw [h p mem] at array
  cases array

/-- The placement of a plain statement is no array, and passes nothing if it is a pair. -/
def Placement.IsPlain (p : Placement) : Prop :=
  p.isArray = false ∧ (p.isPair = true → p.passes = [])

theorem placed_plain {s : Statement} (plain : s.IsPlain) : (placed ps s).IsPlain := by
  cases s with
  | pair keyPath val =>
    refine ⟨rfl, fun _ => ?_⟩
    rw [placed, show keyPath.rest = [] from plain]
    rfl
  | header keyPath array =>
    obtain rfl : array = false := plain
    exact ⟨rfl, nofun⟩

/-- Without arrays of tables each statement is placed by what was open before it alone. -/
theorem placements_plain (plain : ∀ s ∈ ss, s.IsPlain) :
    (∀ p ∈ placements ss, p.IsPlain) ∧
      (placements ss).map Placement.unnumbered = placedFrom [] ss ∧
      openIn (placements ss) = openAfter [] ss := by
  induction ss using List.reverseRecOn with
  | nil => exact ⟨nofun, rfl, rfl⟩
  | append_singleton ss s ih =>
    obtain ⟨known, same, opened⟩ := ih (fun t mem => plain t (List.mem_append_left _ mem))
    have zero := lengths_of_noArray (fun p mem => (known p mem).1)
    have last := placed_unnumbered zero s
    rw [opened] at last
    rw [placements_concat]
    refine ⟨?_, ?_, ?_⟩
    · intro p mem
      rcases List.mem_append.mp mem with mem | mem
      · exact known p mem
      · rw [List.mem_singleton.mp mem]
        exact placed_plain (plain s (by simp))
    · rw [List.map_append, same, placedFrom_append, List.map_singleton, last]
      rfl
    · rw [openIn_concat, openAfter_append]
      have table := congrArg Placement.table last
      exact table

end Unnumbered

/-! ## Rules that ask nothing about the order -/

/-- What the rules ask of plain statements. -/
structure OrderFree (ps : List Placement) : Prop where
  valuesOnce : ps.Pairwise (fun p q => p.isPair = true → q.isPair = true → p.path ≠ q.path)
  valuesNoTables : ∀ p ∈ ps, p.isPair = true → ∀ q ∈ ps, ∀ T ∈ q.tables, ¬ p.path <+: T
  valuesApart : ∀ p ∈ ps, p.isPair = true → ∀ q ∈ ps, q.isPair = true →
    p.path <+: q.path → p.path = q.path
  namedOnce : ps.Pairwise (fun p q => p.isNamed = true → q.isNamed = true → p.path ≠ q.path)

section OrderFree

variable {ps qs : List Placement} {P : Path}

theorem rules_iff_orderFree (plain : ∀ p ∈ ps, p.IsPlain) : Rules ps ↔ OrderFree ps := by
  have noArray : ∀ p ∈ ps, p.isArray ≠ true := by
    intro p mem
    rw [(plain p mem).1]
    nofun
  constructor
  · intro h
    exact ⟨h.valuesOnce, h.valuesNoTables, h.valuesApart, h.namedOnce⟩
  · intro h
    refine ⟨h.valuesOnce, h.valuesNoTables, h.valuesApart, h.namedOnce, ?_, ?_, ?_⟩
    · intro p _ _ q mem
      refine ⟨fun pair => ?_, fun array => absurd array (noArray q mem)⟩
      rw [(plain q mem).2 pair]
      exact List.not_mem_nil
    · rintro before p after rfl array
      exact absurd array (noArray p (by simp))
    · rw [List.pairwise_iff_forall_sublist]
      intro p q both pair P passed
      rw [(plain q (both.subset (by simp))).2 pair] at passed
      cases passed

theorem orderFree_unnumbered : OrderFree (ps.map Placement.unnumbered) ↔ OrderFree ps := by
  constructor
  · rintro ⟨once, noTables, apart, named⟩
    exact ⟨List.pairwise_map.mp once,
      fun p mem pair q mem' => noTables p.unnumbered (List.mem_map_of_mem mem) pair q.unnumbered
        (List.mem_map_of_mem mem'),
      fun p mem pair q mem' => apart p.unnumbered (List.mem_map_of_mem mem) pair q.unnumbered
        (List.mem_map_of_mem mem'),
      List.pairwise_map.mp named⟩
  · rintro ⟨once, noTables, apart, named⟩
    refine ⟨List.pairwise_map.mpr once, ?_, ?_, List.pairwise_map.mpr named⟩
    · rw [List.forall_mem_map]
      intro p mem pair
      rw [List.forall_mem_map]
      exact noTables p mem pair
    · rw [List.forall_mem_map]
      intro p mem pair
      rw [List.forall_mem_map]
      exact apart p mem pair

theorem OrderFree.perm (h : OrderFree ps) (perm : ps.Perm qs) : OrderFree qs := by
  refine ⟨perm.pairwise h.valuesOnce ?_, ?_, ?_, perm.pairwise h.namedOnce ?_⟩
  · exact fun apart pair pair' same => apart pair' pair same.symm
  · exact fun p mem pair q mem' =>
      h.valuesNoTables p (perm.mem_iff.mpr mem) pair q (perm.mem_iff.mpr mem')
  · exact fun p mem pair q mem' =>
      h.valuesApart p (perm.mem_iff.mpr mem) pair q (perm.mem_iff.mpr mem')
  · exact fun apart named named' same => apart named' named same.symm

/-! ## The places of statements in another order -/

theorem placeAt_unnumbered (ps : List Placement) :
    placeAt (ps.map Placement.unnumbered) = placeAt ps := by
  funext P
  have length : lengths (ps.map Placement.unnumbered) P = lengths ps P := by
    rw [lengths, List.countP_map]
    rfl
  have mention : mentioned (ps.map Placement.unnumbered) P = mentioned ps P := by
    rw [mentioned, List.any_map]
    rfl
  have value : valueAt (ps.map Placement.unnumbered) P = valueAt ps P := by
    rw [valueAt, List.findSome?_map]
    rfl
  simp only [placeAt, length, mention, value, List.any_map]
  rfl

theorem placeAt_perm (h : OrderFree ps) (perm : ps.Perm qs) : placeAt ps = placeAt qs := by
  funext P
  have length : lengths ps P = lengths qs P := perm.countP_eq _
  have mention : mentioned ps P = mentioned qs P := by
    rw [mentioned, mentioned, perm.any_eq]
  have value : valueAt ps P = valueAt qs P := by
    apply Option.ext
    intro v
    rw [valueAt_iff h.valuesOnce, valueAt_iff (h.perm perm).valuesOnce]
    simp only [perm.mem_iff]
  simp only [placeAt, length, mention, value, perm.any_eq]

end OrderFree

/-! ## Sections in another order -/

/-- A text from which these statements are read. -/
def ReadsAs (x : Text) (ss : List Statement) : Prop :=
  ∃ read, (Cursor.start x).Spells read ∧ read.map Prod.fst = ss

theorem deserialize_ok_iff {x : Text} {result : Dictionary} :
    Toml.deserialize x = .ok result ↔
      isValidUtf8 x = true ∧ (Cursor.start x).parse = .ok result := by
  rw [Toml.deserialize]
  cases x with
  | nil =>
    have empty : (Cursor.start []).parse = .ok [] := rfl
    have valid : isValidUtf8 [] = true := rfl
    simp [empty, valid]
  | cons c x =>
    cases valid : isValidUtf8 (c :: x) with
    | false => simp
    | true => simp

/-- A text from which plain statements are read is accepted where the rules that ask nothing
about the order hold, and what it gives is decided by where the statements stand. -/
theorem parse_of_plain {x : Text} {ss : List Statement} (reads : ReadsAs x ss)
    (plain : ∀ s ∈ ss, s.IsPlain) {result : Dictionary} :
    (Cursor.start x).parse = .ok result ↔ OrderFree (placedFrom [] ss) ∧
      ∃ node : TableNode, node.WellFormed ∧ node.view = placeAt (placedFrom [] ss) ∧
        result = node.mergeTables := by
  obtain ⟨read, spells, rfl⟩ := reads
  obtain ⟨known, same, -⟩ := placements_plain plain
  have rules : Rules (placements (read.map Prod.fst)) ↔
      OrderFree (placedFrom [] (read.map Prod.fst)) := by
    rw [rules_iff_orderFree known, ← same, orderFree_unnumbered]
  have root {d : Document} (all : Document.start.defineAll read = (d, .ok ())) :
      d.root.WellFormed ∧ d.root.view = placeAt (placedFrom [] (read.map Prod.fst)) := by
    have shows := Document.shows_of_defined all
    refine ⟨shows.wellFormed, ?_⟩
    rw [← same, placeAt_unnumbered]
    funext P
    exact (shows.shown P).symm
  rw [Cursor.parse_ok_iff]
  constructor
  · rintro ⟨read', d, spells', all, rfl⟩
    obtain rfl := spells.unique spells'
    exact ⟨rules.mp ((Document.defined_iff read).mp ⟨d, all⟩), d.root, (root all).1, (root all).2,
      rfl⟩
  · rintro ⟨free, node, wf, view, rfl⟩
    obtain ⟨d, all⟩ := (Document.defined_iff read).mpr (rules.mpr free)
    refine ⟨read, d, spells, all, ?_⟩
    exact (wf.merge_congr (root all).1 (view.trans (root all).2.symm)).1

/-- A document of root pairs and sections, no header of which is `[[p]]` and no key of which
is dotted, is accepted as the one with its sections in any other order is, and gives the same. -/
theorem sections_commute (root : List (Text × Value)) {sections sections' : List HeaderSection}
    (perm : sections.Perm sections') {x y : Text} (hx : ReadsAs x (inSections root sections))
    (hy : ReadsAs y (inSections root sections')) (result : Dictionary) :
    ((Cursor.start x).parse = .ok result ↔ (Cursor.start y).parse = .ok result) ∧
      (isValidUtf8 x = isValidUtf8 y →
        (Toml.deserialize x = .ok result ↔ Toml.deserialize y = .ok result)) := by
  have placed : (placedFrom [] (inSections root sections)).Perm
      (placedFrom [] (inSections root sections')) := by
    rw [inSections, inSections, placedFrom_append, placedFrom_append, placedFrom_sections,
      placedFrom_sections]
    exact (perm.flatMap_right _).append_left _
  have same : (Cursor.start x).parse = .ok result ↔ (Cursor.start y).parse = .ok result := by
    rw [parse_of_plain hx inSections_plain, parse_of_plain hy inSections_plain]
    constructor
    · rintro ⟨free, shown⟩
      rw [placeAt_perm free placed] at shown
      exact ⟨free.perm placed, shown⟩
    · rintro ⟨free, shown⟩
      rw [placeAt_perm free placed.symm] at shown
      exact ⟨free.perm placed.symm, shown⟩
  refine ⟨same, fun valid => ?_⟩
  rw [deserialize_ok_iff, deserialize_ok_iff, valid, same]

/-- A table is filled after its subtable is, or before. -/
theorem sections_commute_nested :
    Toml.deserialize ("[a.b]\nx=true\n[a]\ny=false".toList.map ch) =
        .ok [([ch 'a'], .dictionary [([ch 'b'], .dictionary [([ch 'x'], .boolean true)]),
          ([ch 'y'], .boolean false)])] ↔
      Toml.deserialize ("[a]\ny=false\n[a.b]\nx=true".toList.map ch) =
        .ok [([ch 'a'], .dictionary [([ch 'b'], .dictionary [([ch 'x'], .boolean true)]),
          ([ch 'y'], .boolean false)])] := by
  have first : ReadsAs ("[a.b]\nx=true\n[a]\ny=false".toList.map ch) (inSections []
      [⟨⟨[ch 'a'], [[ch 'b']]⟩, [([ch 'x'], .boolean true)]⟩,
        ⟨⟨[ch 'a'], []⟩, [([ch 'y'], .boolean false)]⟩]) :=
    ⟨_, .next rfl rfl (.next rfl rfl (.next rfl rfl (.next rfl rfl (.done rfl)))), rfl⟩
  have second : ReadsAs ("[a]\ny=false\n[a.b]\nx=true".toList.map ch) (inSections []
      [⟨⟨[ch 'a'], []⟩, [([ch 'y'], .boolean false)]⟩,
        ⟨⟨[ch 'a'], [[ch 'b']]⟩, [([ch 'x'], .boolean true)]⟩]) :=
    ⟨_, .next rfl rfl (.next rfl rfl (.next rfl rfl (.next rfl rfl (.done rfl)))), rfl⟩
  exact (sections_commute [] (.swap _ _ []) first second _).2 (by decide)

end Dross
