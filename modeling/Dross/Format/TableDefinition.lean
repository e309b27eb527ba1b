import Dross.Format.TableAcceptance

/-!
# Table definitions

A statement is defined exactly when the rules hold with it. The rule of the one
section is not stored in the tree: it follows from where a table that dotted
keys made can be reached from.
-/

namespace Dross

section Step

variable {ps : List Placement} {q : Placement} {P : Path} {M : Layout}

theorem dotted_length {L : Layout} (h : L.Dotted P) : L.length P = 0 := by
  unfold Layout.length
  rcases h with none | ⟨named, table⟩
  · rw [none]
  · rw [table]

/-- Whether arrays are counted or not is the same, where none is passed. -/
theorem resolve_zero {lengths : Path → Nat} {base : Path} {key : Text} {rest : List Text}
    (h : (∀ P ∈ (resolve (fun _ => 0) base key rest).1, lengths P = 0) ∨
      ∀ P ∈ (resolve lengths base key rest).1, lengths P = 0) :
    resolve (fun _ => 0) base key rest = resolve lengths base key rest := by
  rcases h with h | h
  · exact resolve_congr (fun P mem => (h P mem).symm)
  · exact (resolve_congr h).symm

theorem define_pair_iff {keyPath : KeyPath} {val : Value} :
    (placeAt ps).addPair (openIn ps) keyPath.first keyPath.rest val = some M ↔
      (∀ P ∈ (placed ps (.pair keyPath val)).passes, (placeAt ps).Dotted P) ∧
        placeAt ps (placed ps (.pair keyPath val)).path = none ∧
        M = placeAt (ps ++ [placed ps (.pair keyPath val)]) := by
  have zero : ∀ {passes : List Path}, (∀ P ∈ passes, (placeAt ps).Dotted P) →
      ∀ P ∈ passes, lengths ps P = 0 := by
    intro passes dotted P mem
    rw [← placeAt_length]
    exact dotted_length (dotted P mem)
  have after : (∀ P ∈ (placed ps (.pair keyPath val)).passes, (placeAt ps).Dotted P) →
      placeAt ps (placed ps (.pair keyPath val)).path = none →
      placeAt (ps ++ [placed ps (.pair keyPath val)]) =
        ((placeAt ps).pass (placed ps (.pair keyPath val)).passes true).put
          (placed ps (.pair keyPath val)).path (.value val) := by
    intro dotted absent
    refine placeAt_pair rfl ?_ dotted absent
    intro mem
    exact absurd (placed_passes_below mem).2.2.2 (Nat.lt_irrefl _)
  rw [Layout.addPair_iff]
  constructor
  · rintro ⟨dotted, absent, rfl⟩
    have same := @resolve_zero (lengths ps) _ _ _ (Or.inl (zero dotted))
    rw [same] at dotted absent ⊢
    exact ⟨dotted, absent, (after dotted absent).symm⟩
  · rintro ⟨dotted, absent, rfl⟩
    have same := @resolve_zero (lengths ps) _ _ _ (Or.inr (zero dotted))
    rw [same, after dotted absent]
    exact ⟨dotted, absent, rfl⟩

/-- What may stand where a header names a table. -/
def Free (L : Layout) (P : Path) (array : Bool) : Prop :=
  L P = none ∨ if array then ∃ n, L P = some (.array n) else L P = some (.table false false)

theorem nameTable_free {L : Layout} {name : Path} {array : Bool} {r : Layout × Path}
    (h : L.nameTable name array = some r) : Free L name array := by
  unfold Layout.nameTable at h
  split at h
  · rename_i absent
    exact Or.inl absent
  · rename_i n present
    exact Or.inr ⟨n, present⟩
  · cases h
  · rename_i absent
    exact Or.inl absent
  · rename_i present
    exact Or.inr present
  · cases h

theorem nameTable_named {L : Layout} {name : Path} (free : Free L name false) :
    L.nameTable name false = some (L.put name (.table true false), name) := by
  unfold Layout.nameTable
  rcases free with absent | present
  · rw [absent]
  · rw [show L name = some (.table false false) from present]

theorem nameTable_array {L : Layout} {name : Path} (free : Free L name true) :
    L.nameTable name true = some ((L.put name (.array (L.length name + 1))).put
      (name ++ [.element (L.length name)]) (.table false false),
      name ++ [.element (L.length name)]) := by
  unfold Layout.nameTable Layout.length
  rcases free with absent | ⟨n, present⟩
  · rw [absent]
  · rw [present]

theorem define_header_iff {keyPath : KeyPath} {array : Bool} {table : Path}
    (ended : ∀ p ∈ ps, KeyEnded p.path ∧ ∀ P ∈ p.passes, KeyEnded P) :
    (placeAt ps).openTable [] keyPath.first keyPath.rest array = some (M, table) ↔
      (∀ P ∈ (placed ps (.header keyPath array)).passes, (placeAt ps).NoValue P) ∧
        Free (placeAt ps) (placed ps (.header keyPath array)).path array ∧
        M = placeAt (ps ++ [placed ps (.header keyPath array)]) ∧
        table = (placed ps (.header keyPath array)).table := by
  have outside : (placed ps (.header keyPath array)).path ∉
      (placed ps (.header keyPath array)).passes := by
    intro mem
    exact absurd (placed_passes_below mem).2.2.2 (Nat.lt_irrefl _)
  have endedAll : ∀ p ∈ ps ++ [placed ps (.header keyPath array)],
      KeyEnded p.path ∧ ∀ P ∈ p.passes, KeyEnded P := by
    intro p mem
    rcases List.mem_append.mp mem with mem | mem
    · exact ended p mem
    · rw [List.mem_singleton.mp mem]
      exact ⟨placed_path_keyEnded, fun P => placed_passes_keyEnded⟩
  rw [Layout.openTable_iff placeAt_nonempty, placeAt_length]
  generalize q_eq : placed ps (.header keyPath array) = q at outside endedAll
  have resolved : resolve (lengths ps) [] keyPath.first keyPath.rest = (q.passes, q.path) := by
    rw [← q_eq]
    rfl
  have unchanged := @Layout.pass_not_mem (placeAt ps) _ false _ outside
  have free_iff : Free ((placeAt ps).pass q.passes false) q.path array ↔
      Free (placeAt ps) q.path array := by
    simp only [Free, unchanged]
  have length : ((placeAt ps).pass q.passes false).length q.path = lengths ps q.path := by
    rw [← placeAt_length]
    simp only [Layout.length, unchanged]
  rw [resolved]
  -- what naming the table leaves is the view after the header
  have result : (∀ P ∈ q.passes, (placeAt ps).NoValue P) → Free (placeAt ps) q.path array →
      ((placeAt ps).pass q.passes false).nameTable q.path array =
        some (placeAt (ps ++ [q]), q.table) := by
    intro noValue free
    have free' := free_iff.mpr free
    cases array with
    | false =>
      have table : q.table = q.path := by
        rw [← q_eq]
        rfl
      rw [nameTable_named free', placeAt_named (by rw [← q_eq]; rfl) table noValue
        (free.imp_right id), table]
    | true =>
      have table : q.table = q.path ++ [.element (lengths ps q.path)] := by
        rw [← q_eq]
        rfl
      rw [nameTable_array free', length,
        placeAt_element (by rw [← q_eq]; rfl) table noValue endedAll, table]
  constructor
  · rintro ⟨noValue, named⟩
    have free := free_iff.mp (nameTable_free named)
    rw [result noValue free] at named
    obtain ⟨rfl, rfl⟩ := Prod.mk.inj (Option.some.inj named)
    exact ⟨noValue, free, rfl, rfl⟩
  · rintro ⟨noValue, free, rfl, rfl⟩
    exact ⟨noValue, result noValue free⟩

end Step

/-! ## Sections -/

/-- Each statement is placed after those before it. -/
def Sequenced (ps : List Placement) : Prop :=
  ∀ before p after, ps = before ++ p :: after → ∃ s, p = placed before s

theorem sequenced_placements (ss : List Statement) : Sequenced (placements ss) := by
  induction ss using List.reverseRecOn with
  | nil =>
    intro before p after split
    simp [placements] at split
  | append_singleton ss s ih =>
    rw [placements_concat]
    intro before p after split
    rcases concat_split split with ⟨rfl, rfl, -⟩ | ⟨rest, -, split⟩
    · exact ⟨s, rfl⟩
    · exact ih before p rest split

namespace Sequenced

variable {ps before after : List Placement} {p h : Placement}

theorem left (sequenced : Sequenced (before ++ after)) : Sequenced before := by
  rintro front p rest rfl
  exact sequenced front p (rest ++ after) (by simp)

theorem ended (sequenced : Sequenced ps) :
    ∀ p ∈ ps, KeyEnded p.path ∧ ∀ P ∈ p.passes, KeyEnded P := by
  intro p mem
  obtain ⟨before, after, split⟩ := List.append_of_mem mem
  obtain ⟨s, rfl⟩ := sequenced before p after split
  exact ⟨placed_path_keyEnded, fun P => placed_passes_keyEnded⟩

theorem table_of_pair (sequenced : Sequenced (before ++ p :: after)) (pair : p.isPair = true) :
    p.table = openIn before ∧ p.sectionIndex = headers before := by
  obtain ⟨s, rfl⟩ := sequenced before p after rfl
  cases s with
  | pair keyPath val => exact ⟨rfl, rfl⟩
  | header keyPath array => cases pair

theorem table_of_named (sequenced : Sequenced (before ++ p :: after)) (named : p.isNamed = true) :
    p.table = p.path := by
  obtain ⟨s, rfl⟩ := sequenced before p after rfl
  cases s with
  | pair keyPath val => cases named
  | header keyPath array =>
    cases array with
    | false => rfl
    | true => cases named

theorem table_of_array (sequenced : Sequenced (before ++ p :: after)) (array : p.isArray = true) :
    p.table = p.path ++ [.element (lengths before p.path)] := by
  obtain ⟨s, rfl⟩ := sequenced before p after rfl
  cases s with
  | pair keyPath val => cases array
  | header keyPath array' =>
    cases array' with
    | false => cases array
    | true => rfl

/-- The table that is open is the root or the one the last header opened. -/
theorem openIn_cases (sequenced : Sequenced ps) :
    (headers ps = 0 ∧ openIn ps = []) ∨ ∃ front h pairs, ps = front ++ h :: pairs ∧
      h.isPair = false ∧ (∀ p ∈ pairs, p.isPair = true) ∧ openIn ps = h.table := by
  induction ps using List.reverseRecOn with
  | nil => exact Or.inl ⟨rfl, rfl⟩
  | append_singleton ps p ih =>
    rw [openIn_concat]
    cases pair : p.isPair with
    | false => exact Or.inr ⟨ps, p, [], rfl, pair, nofun, rfl⟩
    | true =>
      rw [(sequenced.table_of_pair pair).1]
      rcases ih sequenced.left with ⟨none, root⟩ | ⟨front, h, pairs, rfl, header, all, opened⟩
      · refine Or.inl ⟨?_, root⟩
        rw [headers, List.countP_append, ← headers, none]
        simp [pair]
      · refine Or.inr ⟨front, h, pairs ++ [p], by simp, header, ?_, opened⟩
        intro r mem
        rcases List.mem_append.mp mem with mem | mem
        · exact all r mem
        · rw [List.mem_singleton.mp mem, pair]

theorem header_kind (header : p.isPair = false) : p.isNamed = true ∨ p.isArray = true := by
  by_contra neither
  simp only [not_or, Bool.not_eq_true] at neither
  rw [isPair_iff.mpr neither] at header
  cases header

/-- Two headers open two tables. -/
theorem tables_distinct (sequenced : Sequenced ps) (rules : Rules ps)
    (split : ps = before ++ p :: after) (mem : h ∈ before) (header : p.isPair = false)
    (header' : h.isPair = false) : h.table ≠ p.table := by
  subst split
  obtain ⟨front, rest, rfl⟩ := List.append_of_mem mem
  have first : Sequenced (front ++ h :: (rest ++ p :: after)) := by simpa using sequenced
  have once := (List.pairwise_append.mp rules.namedOnce).2.2 h (by simp) p (by simp)
  have endedH := (sequenced.ended h (by simp)).1
  have endedP := (sequenced.ended p (by simp)).1
  rcases header_kind header with named | array
  · rcases header_kind header' with named' | array'
    · rw [sequenced.table_of_named named, first.table_of_named named']
      exact once named' named
    · rw [sequenced.table_of_named named, first.table_of_array array']
      intro same
      exact KeyEnded.not_element (same ▸ endedP)
  · rcases header_kind header' with named' | array'
    · rw [sequenced.table_of_array array, first.table_of_named named']
      intro same
      exact KeyEnded.not_element (same ▸ endedH)
    · rw [sequenced.table_of_array array, first.table_of_array array']
      intro same
      obtain ⟨path, index⟩ := List.append_inj' same rfl
      have count : lengths (front ++ h :: rest) p.path =
          lengths front p.path + 1 + lengths rest p.path := by
        simp only [lengths, List.countP_append, List.countP_cons, array', path, beq_self_eq_true,
          Bool.and_true, if_true]
        omega
      simp only [List.cons.injEq, Segment.element.injEq, and_true, count, path] at index
      omega

end Sequenced

/-- A table that a dotted key passes is reached by keys from where it starts. -/
theorem passes_keys {lengths : Path → Nat} {base : Path} {key : Text} {rest : List Text} {P : Path}
    (plain : ∀ P ∈ (resolve lengths base key rest).1, lengths P = 0)
    (mem : P ∈ (resolve lengths base key rest).1) :
    ∃ k ks, P = base ++ (k :: ks).map Segment.key := by
  induction rest generalizing base key with
  | nil => cases mem
  | cons next rest ih =>
    have first : enter lengths (base ++ [.key key]) = base ++ [.key key] :=
      enter_of_zero (plain _ List.mem_cons_self)
    rcases List.mem_cons.mp mem with rfl | mem
    · exact ⟨key, [], rfl⟩
    · obtain ⟨k, ks, rfl⟩ := ih (fun P mem => plain P (List.mem_cons_of_mem _ mem)) mem
      refine ⟨key, k :: ks, ?_⟩
      rw [first]
      simp

/-- Of two tables from which keys lead to one path, one is reached by keys from the other. -/
theorem keys_between {T T' : Path} {ks ks' : List Text}
    (same : T ++ ks.map Segment.key = T' ++ ks'.map Segment.key) (shorter : T.length < T'.length) :
    KeyEnded T' ∧ T <+: T' := by
  obtain ⟨middle, rfl⟩ : T <+: T' :=
    List.prefix_of_prefix_length_le (List.prefix_append _ _)
      (by rw [same]; exact List.prefix_append _ _) shorter.le
  rw [List.append_assoc] at same
  have tail := List.append_cancel_left same
  refine ⟨?_, List.prefix_append _ _⟩
  have nonempty : middle ≠ [] := by
    rintro rfl
    simp at shorter
  have last : middle.getLast nonempty ∈ ks.map Segment.key := by
    rw [tail]
    exact List.mem_append_left _ (List.getLast_mem _)
  obtain ⟨k, -, eq⟩ := List.mem_map.mp last
  refine ⟨T ++ middle.dropLast, k, ?_⟩
  rw [eq, List.append_assoc, List.dropLast_append_getLast]

section SameSection

variable {ps before after : List Placement} {p : Placement} {P : Path} {keyPath : KeyPath}
  {val : Value}

theorem passes_plain (rules : Rules (before ++ p :: after)) (pair : p.isPair = true) :
    ∀ P ∈ p.passes, lengths before P = 0 := by
  intro P mem
  refine lengths_eq_zero.mpr ?_
  rintro r hr array rfl
  have header := (isArray_kind array).1
  have kind := (List.pairwise_append.mp rules.dotted).2.2 r hr p (by simp) pair r.path mem
    (path_mem_tables header)
  rw [header] at kind
  cases kind.1

/-- What a header has named is a table that no dotted key made. -/
theorem named_not_dotted (rules : Rules ps) {h : Placement} (mem : h ∈ ps)
    (named : h.isNamed = true) : ¬ (placeAt ps).Dotted h.path := by
  have inTables : h.path ∈ h.tables := path_mem_tables (isNamed_kind named).1
  rintro (absent | ⟨n, table⟩)
  · have unmentioned := (placeAt_none.mp absent).2.1
    rw [mentioned_iff.mpr (Or.inr ⟨h, mem, inTables⟩)] at unmentioned
    cases unmentioned
  · have dotted := (placeAt_table table).2.2.2.symm
    rw [List.any_eq_true] at dotted
    obtain ⟨r, hr, both⟩ := dotted
    simp only [Bool.and_eq_true, List.contains_iff_mem] at both
    exact (rules.namedTables h mem named r hr).1 both.1 both.2

/-- A table that ends in a key is passed, if what leads on from it is. -/
theorem placed_passes_prefix {s : Statement} {T : Path} (mem : P ∈ (placed ps s).passes)
    (ended : KeyEnded T) (inside : T <+: P) (longer : (base ps s).length < T.length) :
    T ∈ (placed ps s).passes := by
  obtain ⟨-, -, front, shorter⟩ := placed_passes_below mem
  rcases placed_prefix ended (inside.trans front) with below | passed | same
  · exact absurd below.length_le (Nat.not_le.mpr longer)
  · exact passed
  · rw [← same] at shorter
    exact absurd inside.length_le (Nat.not_le.mpr shorter)

theorem Sequenced.named_of_keyEnded (sequenced : Sequenced (before ++ p :: after))
    (header : p.isPair = false) (ended : KeyEnded p.table) : p.isNamed = true := by
  rcases Sequenced.header_kind header with named | array
  · exact named
  · rw [sequenced.table_of_array array] at ended
    exact absurd ended KeyEnded.not_element

theorem Sequenced.table_ne_nil (sequenced : Sequenced (before ++ p :: after))
    (header : p.isPair = false) : p.table ≠ [] := by
  rcases Sequenced.header_kind header with named | array
  · rw [sequenced.table_of_named named]
    exact ((sequenced.ended p (by simp)).1).ne_nil
  · rw [sequenced.table_of_array array]
    simp

/-- The header that opened a table stands after a pair of another section. -/
theorem header_after {front pairs : List Placement} {h : Placement}
    (split : before ++ p :: after = front ++ h :: pairs) (pair : p.isPair = true)
    (header : h.isPair = false) (all : ∀ r ∈ pairs, r.isPair = true)
    (differ : headers before ≠ headers (before ++ p :: after)) :
    ∃ middle, front = before ++ p :: middle := by
  rcases List.append_eq_append_iff.mp split with ⟨more, rfl, rest⟩ | ⟨more, rfl, rest⟩
  · cases more with
    | nil =>
      obtain ⟨rfl, -⟩ := List.cons.inj rest
      rw [pair] at header
      cases header
    | cons r more =>
      obtain ⟨rfl, -⟩ := List.cons.inj rest
      exact ⟨more, rfl⟩
  · exfalso
    cases more with
    | nil =>
      obtain ⟨rfl, -⟩ := List.cons.inj rest
      rw [pair] at header
      cases header
    | cons r more =>
      obtain ⟨rfl, rfl⟩ := List.cons.inj rest
      refine differ ?_
      have none : after.countP (fun p => ! p.isPair) = 0 := by
        rw [List.countP_eq_zero]
        intro r mem
        simp [all r (by simp [mem])]
      simp only [headers, List.countP_append, List.countP_cons, pair, Bool.not_true,
        Bool.false_eq_true, if_false, none]
      omega

/-- The dotted keys that pass one table stand in one section. -/
theorem same_section (sequenced : Sequenced ps) (rules : Rules ps)
    (split : ps = before ++ p :: after) (pair : p.isPair = true) (passed : P ∈ p.passes)
    (dotted : ∀ P ∈ (placed ps (.pair keyPath val)).passes, (placeAt ps).Dotted P)
    (mem : P ∈ (placed ps (.pair keyPath val)).passes) : p.sectionIndex = headers ps := by
  have zero : ∀ P ∈ (placed ps (.pair keyPath val)).passes, lengths ps P = 0 := by
    intro P mem
    rw [← placeAt_length]
    exact dotted_length (dotted P mem)
  obtain ⟨k, ks, here⟩ := passes_keys zero mem
  have sequenced' : Sequenced (before ++ p :: after) := split ▸ sequenced
  have rules' : Rules (before ++ p :: after) := split ▸ rules
  obtain ⟨table, index⟩ := sequenced'.table_of_pair pair
  obtain ⟨s, placedP⟩ := sequenced' before p after rfl
  have baseP : base before s = openIn before := by
    cases s with
    | pair keyPath val => rfl
    | header keyPath array =>
      rw [placedP] at pair
      cases pair
  obtain ⟨key, rest, resolved⟩ := placed_resolve before s
  rw [← placedP, baseP] at resolved
  obtain ⟨k', ks', there⟩ := @passes_keys (lengths before) (openIn before)
    key rest _ (by rw [resolved]; exact passes_plain rules' pair)
    (by rw [resolved]; exact passed)
  rcases sequenced.openIn_cases with ⟨none, -⟩ | ⟨front, h, pairs, split', header, all, opened⟩
  · -- no header at all
    rw [index, none]
    rw [split, headers, List.countP_append] at none
    exact Nat.eq_zero_of_add_eq_zero_right none
  by_contra differ
  -- the header that opened the table comes after the dotted key
  obtain ⟨middle, rfl⟩ := header_after (split ▸ split') pair header all
    (by rw [← split, ← index]; exact differ)
  have sequencedH : Sequenced ((before ++ p :: middle) ++ h :: pairs) := split' ▸ sequenced
  have memH : h ∈ ps := split' ▸ (by simp)
  have memP : p ∈ ps := split ▸ (by simp)
  have same : openIn ps ++ (k :: ks).map Segment.key =
      openIn before ++ (k' :: ks').map Segment.key := here.symm.trans there
  rcases Nat.lt_trichotomy (openIn ps).length (openIn before).length with shorter | equal | longer
  · -- the dotted key starts at a table that a header names and this key passes
    obtain ⟨ended, inside⟩ := keys_between same shorter
    rcases sequenced'.left.openIn_cases with ⟨-, root⟩ | ⟨front, h', rest, splitB, header', -, opened'⟩
    · exact ended.ne_nil root
    · have sequenced'' : Sequenced (front ++ h' :: rest) := splitB ▸ sequenced'.left
      rw [opened'] at ended inside shorter
      have named := sequenced''.named_of_keyEnded header' ended
      have passed' := placed_passes_prefix mem ended
        (by rw [there, opened']; exact List.prefix_append _ _) shorter
      refine named_not_dotted rules (h := h') ?_ named ?_
      · rw [split, splitB]
        simp
      · rw [← sequenced''.table_of_named named]
        exact dotted _ passed'
  · -- one table is not opened twice
    have tables : openIn ps = openIn before := (List.append_inj same equal).1
    rcases sequenced'.left.openIn_cases with ⟨-, root⟩ | ⟨front, h', rest, splitB, header', -, opened'⟩
    · exact sequencedH.table_ne_nil header (by rw [← opened, tables, root])
    · refine sequenced.tables_distinct rules split' (h := h') ?_ header header' ?_
      · rw [splitB]
        simp
      · rw [← opened', ← tables, opened]
  · -- the header names a table that the dotted key passes
    obtain ⟨ended, inside⟩ := keys_between same.symm longer
    rw [opened] at ended inside longer
    have named := sequencedH.named_of_keyEnded header ended
    have passed' : h.table ∈ p.passes := by
      rw [placedP]
      refine placed_passes_prefix (P := P) (by rw [← placedP]; exact passed) ended ?_
        (by rw [baseP]; exact longer)
      rw [here, opened]
      exact List.prefix_append _ _
    rw [sequencedH.table_of_named named] at passed'
    exact (rules.namedTables h memH named p memP).1 pair passed'

end SameSection

/-! ## A statement and the rules -/

section Statements

variable {ps : List Placement} {p : Placement} {P : Path}

theorem value_place (sequenced : Sequenced ps) (rules : Rules ps) (mem : p ∈ ps)
    (pair : p.isPair = true) : ∃ v, placeAt ps p.path = some (.value v) := by
  have noTable : ∀ r ∈ ps, p.path ∉ r.tables :=
    fun r hr inTables => rules.valuesNoTables p mem pair r hr _ inTables List.prefix_rfl
  have length : lengths ps p.path = 0 := by
    refine lengths_eq_zero.mpr ?_
    intro r hr array same
    exact noTable r hr (same ▸ path_mem_tables (isArray_kind array).1)
  have unmentioned : ¬ mentioned ps p.path = true := by
    intro mention
    rcases mentioned_iff.mp mention with root | ⟨r, hr, inTables⟩
    · exact (sequenced.ended p mem).1.ne_nil root
    · exact noTable r hr inTables
  unfold placeAt
  rw [if_neg (not_not.mpr length), if_neg unmentioned]
  cases value : valueAt ps p.path with
  | some v => exact ⟨v, rfl⟩
  | none => exact absurd rfl (valueAt_none.mp value p mem pair)

theorem value_not_dotted (sequenced : Sequenced ps) (rules : Rules ps) (mem : p ∈ ps)
    (pair : p.isPair = true) : ¬ (placeAt ps).Dotted p.path := by
  obtain ⟨v, place⟩ := value_place sequenced rules mem pair
  rintro (none | ⟨n, table⟩)
  · rw [place] at none
    cases none
  · rw [place] at table
    cases table

/-- Nothing stands where no statement says anything. -/
theorem placeAt_none_iff (nonempty : P ≠ []) : placeAt ps P = none ↔
    ∀ p ∈ ps, P ∉ p.tables ∧ (p.isPair = true → p.path ≠ P) := by
  rw [placeAt_none, valueAt_none]
  constructor
  · rintro ⟨-, unmentioned, values⟩ p mem
    refine ⟨?_, values p mem⟩
    intro inTables
    rw [mentioned_iff.mpr (Or.inr ⟨p, mem, inTables⟩)] at unmentioned
    cases unmentioned
  · intro h
    refine ⟨lengths_eq_zero.mpr ?_, ?_, fun p mem pair => (h p mem).2 pair⟩
    · intro p mem array same
      exact (h p mem).1 (same ▸ path_mem_tables (isArray_kind array).1)
    · by_contra mention
      rcases mentioned_iff.mp (by simpa using mention) with root | ⟨p, mem, inTables⟩
      · exact nonempty root
      · exact (h p mem).1 inTables

/-- A value never leads to the table that is open. -/
theorem value_not_base (closed : Closed ps) (sequenced : Sequenced ps) (rules : Rules ps)
    (mem : p ∈ ps) (pair : p.isPair = true) (s : Statement) : ¬ p.path <+: base ps s := by
  intro inside
  have nonempty := (sequenced.ended p mem).1.ne_nil
  cases s with
  | header keyPath array => exact nonempty (List.prefix_nil.mp inside)
  | pair keyPath val =>
    rw [base] at inside
    rcases closed.opened with root | ⟨r, hr, opened⟩
    · rw [root] at inside
      exact nonempty (List.prefix_nil.mp inside)
    · exact rules.valuesNoTables p mem pair r hr _ opened inside

/-- A table that only dotted keys made was named by dotted keys of this section. -/
theorem dotted_section (sequenced : Sequenced ps) (rules : Rules ps) {keyPath : KeyPath}
    {val : Value} (dotted : ∀ P ∈ (placed ps (.pair keyPath val)).passes, (placeAt ps).Dotted P)
    (passed : P ∈ (placed ps (.pair keyPath val)).passes) (mem : p ∈ ps) (inTables : P ∈ p.tables) :
    p.isPair = true ∧ p.sectionIndex = headers ps := by
  -- some dotted key passed the table before
  obtain ⟨r, hr, pair, passes⟩ : ∃ r ∈ ps, r.isPair = true ∧ P ∈ r.passes := by
    rcases dotted P passed with absent | ⟨n, table⟩
    · have unmentioned := (placeAt_none.mp absent).2.1
      rw [mentioned_iff.mpr (Or.inr ⟨p, mem, inTables⟩)] at unmentioned
      cases unmentioned
    · have any := (placeAt_table table).2.2.2.symm
      rw [List.any_eq_true] at any
      obtain ⟨r, hr, both⟩ := any
      simp only [Bool.and_eq_true, List.contains_iff_mem] at both
      exact ⟨r, hr, both.1, both.2⟩
  obtain ⟨before, after, split⟩ := List.append_of_mem hr
  have index := same_section sequenced rules split pair passes dotted passed
  have sectionR := ((split ▸ sequenced : Sequenced (before ++ r :: after)).table_of_pair pair).2
  have isPair : p.isPair = true := by
    rw [split] at mem
    rcases List.mem_append.mp mem with earlier | here
    · exact ((List.pairwise_append.mp (split ▸ rules : Rules (before ++ r :: after)).dotted).2.2
        p earlier r (by simp) pair P passes inTables).1
    · rcases List.mem_cons.mp here with rfl | later
      · exact pair
      · -- a header after it would have begun another section
        by_contra header
        have counted : 0 < after.countP (fun p => ! p.isPair) :=
          List.countP_pos_iff.mpr ⟨p, later, by simpa using header⟩
        rw [sectionR, split, headers, headers, List.countP_append, List.countP_cons] at index
        omega
  obtain ⟨before', after', split'⟩ := List.append_of_mem mem
  rw [tables_of_pair isPair] at inTables
  exact ⟨isPair, same_section sequenced rules split' isPair inTables dotted passed⟩

theorem obeys_pair (closed : Closed ps) (sequenced : Sequenced ps) (rules : Rules ps)
    {keyPath : KeyPath} {val : Value}
    (dotted : ∀ P ∈ (placed ps (.pair keyPath val)).passes, (placeAt ps).Dotted P)
    (absent : placeAt ps (placed ps (.pair keyPath val)).path = none) :
    Obeys ps (placed ps (.pair keyPath val)) := by
  have ended : KeyEnded (placed ps (.pair keyPath val)).path := placed_path_keyEnded
  have tables : (placed ps (.pair keyPath val)).tables = (placed ps (.pair keyPath val)).passes :=
    tables_of_pair rfl
  have new := (placeAt_none_iff ended.ne_nil).mp absent
  -- a value on the way would stand at a table that is passed, or below the base
  have apart : ∀ p ∈ ps, p.isPair = true → ∀ T ∈ (placed ps (.pair keyPath val)).tables,
      ¬ p.path <+: T := by
    intro p mem pair T hT inside
    rcases placed_tables_prefix (sequenced.ended p mem).1 hT inside with below | passed
    · exact value_not_base closed sequenced rules mem pair _ below
    · rw [tables] at passed
      exact value_not_dotted sequenced rules mem pair (dotted _ passed)
  exact {
    valueOnce := fun _ p mem pair => (new p mem).2 pair
    noValue := apart
    valueNoTable := by
      intro _ p mem T hT inside
      obtain ⟨r, hr, inTables⟩ := closed.tables p mem T hT _ ended inside
      exact (new r hr).1 inTables
    valueApart := by
      intro _ p mem pair
      constructor
      · intro inside
        rcases placed_prefix (sequenced.ended p mem).1 inside with below | passed | same
        · exact absurd below (value_not_base closed sequenced rules mem pair _)
        · exact absurd (dotted _ passed) (value_not_dotted sequenced rules mem pair)
        · exact same
      · intro inside
        by_contra other
        obtain ⟨r, hr, inTables⟩ := closed.values p mem pair _ ended inside other
        exact (new r hr).1 inTables
    namedOnce := nofun
    namedTable := nofun
    namedBefore := fun p mem named =>
      ⟨fun _ passed => named_not_dotted rules mem named (dotted _ passed), nofun⟩
    array := nofun
    dotted := fun _ p mem P passed inTables =>
      dotted_section sequenced rules dotted passed mem inTables }

/-- What a pair that obeys the rules passes is new, or was dotted in its section. -/
theorem dotted_of_obeys {keyPath : KeyPath} {val : Value}
    (obeys : Obeys ps (placed ps (.pair keyPath val)))
    (passed : P ∈ (placed ps (.pair keyPath val)).passes) : (placeAt ps).Dotted P := by
  by_cases mention : ∃ p ∈ ps, P ∈ p.tables
  · obtain ⟨p, mem, inTables⟩ := mention
    have pair := (obeys.dotted rfl p mem P passed inTables).1
    have zero : lengths ps P = 0 := by
      refine lengths_eq_zero.mpr ?_
      intro r hr array same
      have kind := (obeys.dotted rfl r hr P passed
        (same ▸ path_mem_tables (isArray_kind array).1)).1
      rw [(isArray_kind array).1] at kind
      cases kind
    have any : ps.any (fun p => p.isPair && p.passes.contains P) = true := by
      rw [List.any_eq_true]
      refine ⟨p, mem, ?_⟩
      rw [tables_of_pair pair] at inTables
      simp [pair, inTables]
    refine Or.inr ⟨ps.any (fun p => p.isNamed && p.path == P), ?_⟩
    unfold placeAt
    rw [if_neg (not_not.mpr zero), if_pos (mentioned_iff.mpr (Or.inr ⟨p, mem, inTables⟩)), any]
  · refine Or.inl ((placeAt_none_iff (placed_passes_keyEnded passed).ne_nil).mpr ?_)
    intro p mem
    refine ⟨fun inTables => mention ⟨p, mem, inTables⟩, ?_⟩
    rintro pair rfl
    exact obeys.noValue p mem pair _ (passes_subset_tables passed) List.prefix_rfl

theorem absent_of_obeys {keyPath : KeyPath} {val : Value}
    (obeys : Obeys ps (placed ps (.pair keyPath val))) :
    placeAt ps (placed ps (.pair keyPath val)).path = none := by
  have ended : KeyEnded (placed ps (.pair keyPath val)).path := placed_path_keyEnded
  refine (placeAt_none_iff ended.ne_nil).mpr ?_
  intro p mem
  exact ⟨fun inTables => obeys.valueNoTable rfl p mem _ inTables List.prefix_rfl,
    fun pair => obeys.valueOnce rfl p mem pair⟩

theorem obeys_pair_iff (closed : Closed ps) (sequenced : Sequenced ps) (rules : Rules ps)
    {keyPath : KeyPath} {val : Value} :
    ((∀ P ∈ (placed ps (.pair keyPath val)).passes, (placeAt ps).Dotted P) ∧
      placeAt ps (placed ps (.pair keyPath val)).path = none) ↔
        Obeys ps (placed ps (.pair keyPath val)) := by
  constructor
  · rintro ⟨dotted, absent⟩
    exact obeys_pair closed sequenced rules dotted absent
  · intro obeys
    exact ⟨fun P passed => dotted_of_obeys obeys passed, absent_of_obeys obeys⟩

theorem free_not_value {L : Layout} {array : Bool} (free : Free L P array) : L.NoValue P := by
  intro v value
  rcases free with absent | present
  · rw [value] at absent
    cases absent
  · split at present
    · obtain ⟨n, present⟩ := present
      rw [value] at present
      cases present
    · rw [value] at present
      cases present

/-- Where an array of tables stands, a header has named an element of it. -/
theorem array_placed {n : Nat} (present : placeAt ps P = some (.array n)) :
    ∃ p ∈ ps, p.isArray = true ∧ p.path = P := by
  obtain ⟨count, nonzero⟩ := placeAt_array.mp present
  rw [count, ne_eq, lengths_eq_zero] at nonzero
  push Not at nonzero
  exact nonzero

/-- No value stands at a table of a statement that obeys the rules. -/
theorem Obeys.noValue_tables {q : Placement} (obeys : Obeys ps q) (inTables : P ∈ q.tables) :
    (placeAt ps).NoValue P := by
  intro v value
  obtain ⟨p, mem, same, some⟩ := valueAt_some (placeAt_value value).2.2
  refine obeys.noValue p mem ?_ P inTables (same ▸ List.prefix_rfl)
  simp [Placement.isPair, some]

theorem obeys_header (sequenced : Sequenced ps) (rules : Rules ps) {keyPath : KeyPath}
    {array : Bool}
    (noValue : ∀ P ∈ (placed ps (.header keyPath array)).passes, (placeAt ps).NoValue P)
    (free : Free (placeAt ps) (placed ps (.header keyPath array)).path array) :
    Obeys ps (placed ps (.header keyPath array)) := by
  have ended : KeyEnded (placed ps (.header keyPath array)).path := placed_path_keyEnded
  have tables : (placed ps (.header keyPath array)).tables =
      (placed ps (.header keyPath array)).passes ++
        [(placed ps (.header keyPath array)).path, (placed ps (.header keyPath array)).table] :=
    tables_of_header rfl
  have isArray : (placed ps (.header keyPath array)).isArray = array := rfl
  have isNamed : (placed ps (.header keyPath array)).isNamed = ! array := rfl
  exact {
    valueOnce := nofun
    noValue := by
      intro p mem pair T hT inside
      obtain ⟨v, value⟩ := value_place sequenced rules mem pair
      rcases placed_tables_prefix (sequenced.ended p mem).1 hT inside with below | inTables
      · exact (sequenced.ended p mem).1.ne_nil (List.prefix_nil.mp below)
      · rw [tables] at inTables
        rcases List.mem_append.mp inTables with passed | named
        · exact noValue _ passed v value
        · rcases List.mem_cons.mp named with same | opened
          · exact free_not_value free v (same ▸ value)
          · have same := List.mem_singleton.mp opened
            cases array with
            | false =>
              rw [same] at value
              exact free_not_value free v value
            | true => exact KeyEnded.not_element (same ▸ (sequenced.ended p mem).1)
    valueNoTable := nofun
    valueApart := nofun
    namedOnce := by
      intro named p mem named' same
      rw [isNamed] at named
      obtain rfl : array = false := by simpa using named
      have present : mentioned ps (placed ps (.header keyPath false)).path = true :=
        mentioned_iff.mpr (Or.inr ⟨p, mem, same ▸ path_mem_tables (isNamed_kind named').1⟩)
      rcases free with absent | table
      · rw [(placeAt_none.mp absent).2.1] at present
        cases present
      · have any := (placeAt_table table).2.2.1
        have here := List.any_eq_false.mp any.symm p mem
        simp [named', same] at here
    namedTable := by
      intro named p mem
      rw [isNamed] at named
      obtain rfl : array = false := by simpa using named
      constructor
      · intro pair passed
        rcases free with absent | table
        · exact ((placeAt_none_iff ended.ne_nil).mp absent p mem).1 (passes_subset_tables passed)
        · have any := (placeAt_table table).2.2.2
          have here := List.any_eq_false.mp any.symm p mem
          simp [pair, passed] at here
      · intro array' same
        have zero : lengths ps (placed ps (.header keyPath false)).path = 0 := by
          rcases free with absent | table
          · exact (placeAt_none.mp absent).1
          · exact (placeAt_table table).1
        exact lengths_eq_zero.mp zero p mem array' same.symm
    namedBefore := by
      intro p mem named
      refine ⟨nofun, ?_⟩
      intro isArray' same
      rw [isArray] at isArray'
      subst isArray'
      rcases free with absent | ⟨n, present⟩
      · exact ((placeAt_none_iff ended.ne_nil).mp absent p mem).1
          (same ▸ path_mem_tables (isNamed_kind named).1)
      · obtain ⟨r, hr, array', same'⟩ := array_placed present
        exact (rules.namedTables p mem named r hr).2 array' (same.trans same'.symm)
    array := by
      intro isArray'
      rw [isArray] at isArray'
      subst isArray'
      rcases free with absent | ⟨n, present⟩
      · refine Or.inr (fun p mem => ?_)
        have none := (placeAt_none_iff ended.ne_nil).mp absent p mem
        exact ⟨none.1, fun pair same => none.2 pair same.symm⟩
      · obtain ⟨r, hr, array', same'⟩ := array_placed present
        exact Or.inl ⟨r, hr, array', same'⟩
    dotted := nofun }

theorem free_of_obeys {keyPath : KeyPath} {array : Bool}
    (obeys : Obeys ps (placed ps (.header keyPath array))) :
    Free (placeAt ps) (placed ps (.header keyPath array)).path array := by
  have ended : KeyEnded (placed ps (.header keyPath array)).path := placed_path_keyEnded
  have pathNoValue := obeys.noValue_tables (path_mem_tables (p := placed ps (.header keyPath array)) rfl)
  cases place : placeAt ps (placed ps (.header keyPath array)).path with
  | none => exact Or.inl place
  | some place' =>
    refine Or.inr ?_
    cases place' with
    | value v => exact absurd place (pathNoValue v)
    | array n =>
      cases array with
      | true => exact ⟨n, place⟩
      | false =>
        exfalso
        obtain ⟨r, hr, array', same'⟩ := array_placed place
        exact (obeys.namedTable rfl r hr).2 array' same'.symm
    | table named dotted =>
      obtain ⟨zero, mention, namedEq, dottedEq⟩ := placeAt_table place
      obtain ⟨p, mem, inTables⟩ := (mentioned_iff.mp mention).resolve_left ended.ne_nil
      cases array with
      | true =>
        exfalso
        rcases obeys.array rfl with ⟨r, hr, array', same⟩ | new
        · exact lengths_eq_zero.mp zero r hr array' same
        · exact (new p mem).1 inTables
      | false =>
        have notNamed : named = false := by
          rw [namedEq, List.any_eq_false]
          intro r hr both
          simp only [Bool.and_eq_true, beq_iff_eq] at both
          exact obeys.namedOnce rfl r hr both.1 both.2
        have notDotted : dotted = false := by
          rw [dottedEq, List.any_eq_false]
          intro r hr both
          simp only [Bool.and_eq_true, List.contains_iff_mem] at both
          exact (obeys.namedTable rfl r hr).1 both.1 both.2
        rw [notNamed, notDotted] at place
        exact place

theorem obeys_header_iff (sequenced : Sequenced ps) (rules : Rules ps) {keyPath : KeyPath}
    {array : Bool} :
    ((∀ P ∈ (placed ps (.header keyPath array)).passes, (placeAt ps).NoValue P) ∧
      Free (placeAt ps) (placed ps (.header keyPath array)).path array) ↔
        Obeys ps (placed ps (.header keyPath array)) := by
  constructor
  · rintro ⟨noValue, free⟩
    exact obeys_header sequenced rules noValue free
  · intro obeys
    exact ⟨fun P passed => obeys.noValue_tables (passes_subset_tables passed), free_of_obeys obeys⟩

end Statements

/-! ## Documents -/

namespace Layout

/-- The statements one after the other on the view, with the table that is open. -/
def defineAll (r : Layout × Path) : List Statement → Option (Layout × Path)
  | [] => some r
  | s :: ss => (r.1.define r.2 s).bind (fun r => defineAll r ss)

theorem defineAll_concat (r : Layout × Path) (ss : List Statement) (s : Statement) :
    defineAll r (ss ++ [s]) = (defineAll r ss).bind (fun r => r.1.define r.2 s) := by
  induction ss generalizing r with
  | nil => simp [defineAll]
  | cons t ss ih =>
    rw [List.cons_append, defineAll, defineAll]
    cases r.1.define r.2 t with
    | none => rfl
    | some r' => exact ih r'

end Layout

/-- A statement is defined where the rules hold with it, and then the view is what the
placements say. -/
theorem define_iff {ps : List Placement} (closed : Closed ps) (sequenced : Sequenced ps)
    (rules : Rules ps) (s : Statement) (r : Layout × Path) :
    (placeAt ps).define (openIn ps) s = some r ↔
      Rules (ps ++ [placed ps s]) ∧ r = (placeAt (ps ++ [placed ps s]), (placed ps s).table) := by
  obtain ⟨M, table⟩ := r
  have self : ∀ T ∈ (placed ps s).tables, (placed ps s).isPair = true →
      ¬ (placed ps s).path <+: T := by
    intro T hT pair inside
    rw [tables_of_pair pair] at hT
    exact absurd inside.length_le (Nat.not_le.mpr (placed_passes_below hT).2.2.2)
  rw [rules_concat self, Prod.mk.injEq]
  cases s with
  | pair keyPath val =>
    have step := @define_pair_iff ps M keyPath val
    rw [← obeys_pair_iff closed sequenced rules]
    simp only [Layout.define, Option.map_eq_some_iff, Prod.mk.injEq]
    constructor
    · rintro ⟨N, added, rfl, rfl⟩
      obtain ⟨dotted, absent, view⟩ := step.mp added
      exact ⟨⟨rules, dotted, absent⟩, view, rfl⟩
    · rintro ⟨⟨-, dotted, absent⟩, view, rfl⟩
      exact ⟨M, step.mpr ⟨dotted, absent, view⟩, rfl, rfl⟩
  | header keyPath array =>
    have step := @define_header_iff ps M keyPath array table sequenced.ended
    rw [← obeys_header_iff sequenced rules]
    rw [Layout.define, step]
    constructor
    · rintro ⟨noValue, free, view, opened⟩
      exact ⟨⟨rules, noValue, free⟩, view, opened⟩
    · rintro ⟨⟨-, noValue, free⟩, view, opened⟩
      exact ⟨noValue, free, view, opened⟩

theorem placeAt_nil : placeAt [] = Layout.start := by
  funext P
  cases P <;> rfl

/-- On the view, a document is accepted exactly when the rules hold. -/
theorem defineAll_iff (ss : List Statement) (r : Layout × Path) :
    Layout.defineAll (Layout.start, []) ss = some r ↔
      Rules (placements ss) ∧ r = (placeAt (placements ss), openIn (placements ss)) := by
  induction ss using List.reverseRecOn generalizing r with
  | nil =>
    simp only [Layout.defineAll, Option.some.injEq]
    constructor
    · rintro rfl
      exact ⟨rules_nil, by rw [show placements [] = [] from rfl, placeAt_nil]; rfl⟩
    · rintro ⟨-, rfl⟩
      rw [show placements [] = [] from rfl, placeAt_nil]
      rfl
  | append_singleton ss s ih =>
    rw [Layout.defineAll_concat, Option.bind_eq_some_iff, placements_concat, openIn_concat]
    constructor
    · rintro ⟨r', before, step⟩
      obtain ⟨rules, rfl⟩ := (ih r').mp before
      exact (define_iff (closed_placements ss) (sequenced_placements ss) rules s r).mp step
    · rintro ⟨rules, rfl⟩
      have before : Rules (placements ss) :=
        ((rules_concat (fun T hT pair inside => rules.valuesNoTables _ (by simp) pair _ (by simp)
          T hT inside)).mp rules).1
      exact ⟨_, (ih _).mpr ⟨before, rfl⟩, (define_iff (closed_placements ss)
        (sequenced_placements ss) before s _).mpr ⟨rules, rfl⟩⟩

/-- The tree takes the statements the view takes, up to the first that fails. -/
theorem Document.defineAll_follows {d : Document} {L : Layout} (h : d.Shows L)
    (ss : List (Statement × Position)) :
    match Layout.defineAll (L, d.current) (ss.map Prod.fst) with
    | none => ∃ e, (d.defineAll ss).2 = .error e
    | some r => (d.defineAll ss).2 = .ok () ∧ (d.defineAll ss).1.Shows r.1 ∧
        (d.defineAll ss).1.current = r.2 := by
  induction ss generalizing d L with
  | nil => exact ⟨rfl, h, rfl⟩
  | cons s ss ih =>
    obtain ⟨s, pos⟩ := s
    have step := define_follows h s pos
    rw [List.map_cons, Layout.defineAll, defineAll]
    cases o : L.define d.current s with
    | none =>
      rw [o] at step
      obtain ⟨e, failed⟩ := step
      generalize d.define s pos = next at failed
      obtain ⟨d', result⟩ := next
      obtain rfl : result = .error e := failed
      exact ⟨e, rfl⟩
    | some r =>
      rw [o] at step
      obtain ⟨ok, shows, current⟩ := step
      generalize d.define s pos = next at ok shows current
      obtain ⟨d', result⟩ := next
      obtain rfl : result = .ok () := ok
      have rest := ih shows
      rw [show d'.current = r.2 from current] at rest
      exact rest

/-- A document is accepted exactly when its statements keep the table definition rules. -/
theorem Document.accepted_iff (ss : List (Statement × Position)) :
    (Document.start.defineAll ss).2 = .ok () ↔ Rules (placements (ss.map Prod.fst)) := by
  have follows := Document.defineAll_follows Document.Shows.start ss
  cases o : Layout.defineAll (Layout.start, []) (ss.map Prod.fst) with
  | none =>
    rw [show Document.start.current = [] from rfl, o] at follows
    obtain ⟨e, failed⟩ := follows
    rw [failed]
    constructor
    · nofun
    · intro rules
      have some := (defineAll_iff _ _).mpr ⟨rules, rfl⟩
      rw [o] at some
      cases some
  | some r =>
    rw [show Document.start.current = [] from rfl, o] at follows
    exact ⟨fun _ => ((defineAll_iff _ _).mp o).1, fun _ => follows.1⟩

end Dross
