import Dross.Format.StringForms

/-!
# When serialization succeeds

The output is checked for UTF-8 once, as a whole. Everything that is written around a string
or a key is ASCII and ends in ASCII, and so do they once they are escaped, so the check says
what each of them is on its own.
-/

namespace Dross

namespace Toml

/-! ## Strings and keys -/

theorem escapeByte_ascii (c : UInt8) (ascii : c ≤ 0x7F) :
    (escapeByte c).all (fun byte => byte ≤ 0x7F) = true := by
  revert c
  exact everyByte (by decide +kernel)

theorem escapeByte_high (c : UInt8) (high : ¬ c ≤ 0x7F) : escapeByte c = [c] := by
  revert c
  exact everyByte (by decide +kernel)

/-- Escapes are complete where a sequence may start, and as wrong as what they stand for
where one has to go on. -/
theorem validFrom_escapeString {count : Nat} {low high : UInt8} (bound : 0x80 ≤ low) (s : Text) :
    validFrom count low high (escapeString s) = validFrom count low high s := by
  induction s generalizing count low high with
  | nil => rfl
  | cons c s ih =>
    have split : escapeString (c :: s) = escapeByte c ++ escapeString s := List.flatMap_cons
    rw [split]
    by_cases ascii : c ≤ 0x7F
    · have all := escapeByte_ascii c ascii
      rw [List.all_eq_true] at all
      cases count with
      | zero =>
        have front := valid_append (valid_ascii fun d mem => of_decide_eq_true (all d mem))
          (escapeString s)
        have back := valid_cons_ascii ascii s
        rw [validFrom_zero low high 0x80 0xBF, validFrom_zero low high 0x80 0xBF]
        exact front.trans ((ih (by decide)).trans back.symm)
      | succ count =>
        obtain ⟨byte, code, written, _⟩ := escapeByte_start c
        have refused : ∀ {d : UInt8} {t : Text}, d ≤ 0x7F →
            validFrom (count + 1) low high (d :: t) = false := by
          intro d t small
          have below : d < low := by
            rw [UInt8.lt_iff_toNat_lt]
            rw [UInt8.le_iff_toNat_le] at small bound
            exact Nat.lt_of_lt_of_le (Nat.lt_succ_of_le small) bound
          rw [validFrom, if_pos (by simp [below])]
        rw [written] at all ⊢
        rw [List.cons_append, refused ascii,
          refused (of_decide_eq_true (all byte List.mem_cons_self))]
    · rw [escapeByte_high c ascii, List.singleton_append]
      cases count with
      | zero =>
        rw [validFrom, validFrom]
        split
        · rfl
        · next follows => exact ih (followedBy_low follows)
      | succ count =>
        rw [validFrom, validFrom]
        split
        · rfl
        · exact ih (by decide)

theorem valid_quoted (s : Text) : isValidUtf8 (quoted s) = true ↔ isValidUtf8 s = true := by
  have inside := @valid_split (ch '"') (escapeString s) [] (by decide)
  rw [quoted, valid_cons_ascii (by decide), inside, isValidUtf8,
    validFrom_escapeString (by decide)]
  exact and_iff_left valid_nil

theorem quoted_ends (s : Text) : EndsSequence (quoted s) :=
  endsSequence_concat (by decide : ch '"' ≤ 0x7F) (ch '"' :: escapeString s)

theorem bareKeyChar_ascii (c : UInt8) (bare : isBareKeyChar c = true) : c ≤ 0x7F := by
  revert c
  exact everyByte (by decide +kernel)

theorem escapeKey_valid (key : Text) : EndsSequence (escapeKey key) ∧
    (isValidUtf8 (escapeKey key) = true ↔ isValidUtf8 key = true) := by
  unfold escapeKey
  split
  · exact ⟨quoted_ends key, valid_quoted key⟩
  · next bare =>
    simp only [Bool.or_eq_true, List.any_eq_true, Bool.not_eq_true', not_or, not_exists, not_and,
      Bool.not_eq_false] at bare
    exact ⟨endsSequence_ascii fun c mem => bareKeyChar_ascii c (bare.2 c mem), Iff.rfl⟩

/-! ## What a part of the serializer produces -/

/-- A run of the serializer that succeeds when it should, with a text that what follows
cannot change and that is valid when it should be. -/
def Produces (result : Except Error Text) (writable valid : Prop) : Prop :=
  (¬ writable ∧ ∃ e, result = .error e) ∨ (writable ∧ ∃ text, result = .ok text ∧
    EndsSequence text ∧ (isValidUtf8 text = true ↔ valid))

theorem Produces.mono {result : Except Error Text} {writable valid writable' valid' : Prop}
    (h : Produces result writable valid) (same : writable ↔ writable') (same' : valid ↔ valid') :
    Produces result writable' valid' := by
  rwa [← propext same, ← propext same']

theorem produces_ok {text : Text} {valid : Prop} (ends : EndsSequence text)
    (same : isValidUtf8 text = true ↔ valid) : Produces (.ok text) True valid :=
  Or.inr ⟨trivial, text, rfl, ends, same⟩

theorem produces_ascii {text : Text} (ascii : ∀ c ∈ text, c ≤ 0x7F) :
    Produces (.ok text) True True :=
  produces_ok (endsSequence_ascii ascii) (iff_true_intro (valid_ascii ascii))

section Glue

variable {result more : Except Error Text} {P Q U V W : Prop} {f : Text → Text → Text}

/-- Two parts one after the other, with what is written around them. -/
theorem Produces.both (first : Produces result P U) (second : Produces more Q V)
    (glue : ∀ s t, EndsSequence s → EndsSequence t → EndsSequence (f s t) ∧
      (isValidUtf8 (f s t) = true ↔ W ∧ isValidUtf8 s = true ∧ isValidUtf8 t = true)) :
    Produces (result.bind fun s => more.map (f s)) (P ∧ Q) (W ∧ U ∧ V) := by
  rcases first with ⟨no, e, rfl⟩ | ⟨yes, s, rfl, ends, valid⟩
  · exact Or.inl ⟨fun both => no both.1, e, rfl⟩
  · rcases second with ⟨no', e, rfl⟩ | ⟨yes', t, rfl, ends', valid'⟩
    · exact Or.inl ⟨fun both => no' both.2, e, rfl⟩
    · obtain ⟨endsBoth, validBoth⟩ := glue s t ends ends'
      exact Or.inr ⟨⟨yes, yes'⟩, f s t, rfl, endsBoth, by rw [validBoth, valid, valid']⟩

end Glue

/-! ## Scalars -/

def Ascii (t : Text) : Prop := ∀ c ∈ t, c ≤ 0x7F

theorem ascii_nil : Ascii [] := fun _ mem => by cases mem

theorem ascii_of_all {t : Text} (h : t.all (fun c => decide (c ≤ 0x7F)) = true) : Ascii t :=
  fun c mem => of_decide_eq_true (List.all_eq_true.mp h c mem)

theorem ascii_cons {c : UInt8} {t : Text} : Ascii (c :: t) ↔ c ≤ 0x7F ∧ Ascii t :=
  List.forall_mem_cons

theorem ascii_append {s t : Text} : Ascii (s ++ t) ↔ Ascii s ∧ Ascii t :=
  List.forall_mem_append

theorem ascii_digits {t : Text} (digits : AllDigits t) : Ascii t := by
  intro c mem
  have small := isDigit_iff.mp (digits c mem)
  rw [UInt8.le_iff_toNat_le]
  exact small.2.trans (by decide)

theorem ascii_canonical {t : Text} (h : Canonical t) : Ascii t := by
  obtain ⟨negative, i, f, parts, _, rfl⟩ := h
  have plain : Ascii (joined i f) := by
    unfold joined
    split
    · exact ascii_digits parts.integerDigits
    · exact ascii_append.mpr ⟨ascii_digits parts.integerDigits,
        ascii_cons.mpr ⟨by decide, ascii_digits parts.fractionDigits⟩⟩
  cases negative with
  | false => exact plain
  | true => exact ascii_cons.mpr ⟨by decide, plain⟩

theorem ascii_formatIso8601 (t : Timestamp) : Ascii t.formatIso8601 := by
  have filled (width n : Nat) : Ascii (zeroFilled width n) := ascii_digits zeroFilled_digits
  have three {width : Nat} {c : Char} {first second third : Nat} (between : ch c ≤ 0x7F) :
      Ascii (Timestamp.writeThree width c first second third) :=
    ascii_append.mpr ⟨filled _ _, ascii_cons.mpr ⟨between, ascii_append.mpr ⟨filled _ _,
      ascii_cons.mpr ⟨between, filled _ _⟩⟩⟩⟩
  have fraction : Ascii (Timestamp.fractionText t.subseconds) := by
    unfold Timestamp.fractionText
    split
    · exact ascii_nil
    · refine ascii_cons.mpr ⟨by decide, fun c mem => filled 9 t.subseconds c ?_⟩
      exact (List.rdropWhile_prefix _ _).subset mem
  have zone : Ascii t.timezone.format := by
    unfold Timezone.format
    split
    · exact ascii_cons.mpr ⟨by decide, ascii_nil⟩
    · refine ascii_cons.mpr ⟨by split <;> decide, ?_⟩
      exact ascii_append.mpr ⟨filled _ _, ascii_cons.mpr ⟨by decide, filled _ _⟩⟩
  exact ascii_append.mpr ⟨three (by decide), ascii_cons.mpr ⟨by decide,
    ascii_append.mpr ⟨three (by decide), ascii_append.mpr ⟨fraction, zone⟩⟩⟩⟩

theorem numberText_produces (n : Number) : Produces (numberText n) (n.isNan = false) True := by
  unfold numberText
  split
  · next nan => exact Or.inl ⟨by simp [nan], _, rfl⟩
  · next number =>
    rw [Bool.not_eq_true] at number
    have canonical := ascii_canonical (Number.canonical_of number)
    have yes : True ↔ n.isNan = false := (iff_true_intro number).symm
    split
    · exact (produces_ascii (ascii_append.mpr ⟨canonical, ascii_cons.mpr ⟨by decide,
        ascii_cons.mpr ⟨by decide, ascii_nil⟩⟩⟩)).mono yes Iff.rfl
    · exact (produces_ascii canonical).mono yes Iff.rfl

/-! ## Values -/

/-- A value of its own that TOML has: not empty, not data and not NaN. -/
def HasForm : Value → Prop
  | .null => False
  | .data _ => False
  | .number n => n.isNan = false
  | _ => True

/-- A value of its own that is valid UTF-8 where it is a string. -/
def StringValid : Value → Prop
  | .string s => isValidUtf8 s = true
  | _ => True

/-- Nothing at any depth is without a form. -/
abbrev Formed (v : Value) : Prop := v.Everywhere HasForm (fun _ => True)

/-- Every string and key at any depth is valid. -/
abbrev AllValid (v : Value) : Prop := v.Everywhere StringValid (fun key => isValidUtf8 key = true)

theorem Produces.wrap {result : Except Error Text} {P U : Prop} {f : Text → Text}
    (h : Produces result P U) (glue : ∀ s, EndsSequence s → EndsSequence (f s) ∧
      (isValidUtf8 (f s) = true ↔ isValidUtf8 s = true)) : Produces (result.map f) P U := by
  rcases h with ⟨no, e, rfl⟩ | ⟨yes, s, rfl, ends, valid⟩
  · exact Or.inl ⟨no, e, rfl⟩
  · obtain ⟨endsBoth, same⟩ := glue s ends
    exact Or.inr ⟨yes, f s, rfl, endsBoth, same.trans valid⟩

theorem bracketed {open' close : UInt8} (ascii : open' ≤ 0x7F) (ascii' : close ≤ 0x7F) (s : Text) :
    EndsSequence (open' :: (s ++ [close])) ∧
      (isValidUtf8 (open' :: (s ++ [close])) = true ↔ isValidUtf8 s = true) := by
  refine ⟨endsSequence_concat ascii' (open' :: s), ?_⟩
  rw [valid_cons_ascii ascii, valid_split ascii']
  exact and_iff_left valid_nil

theorem serializeElements_cons (first : Bool) (v : Value) (rest : List Value) :
    serializeElements first (v :: rest) = (serializeValue v).bind fun text =>
      (serializeElements false rest).map fun more =>
        (if first then [] else [ch ',', ch ' ']) ++ text ++ more := by
  rw [serializeElements]
  cases serializeValue v <;> rfl

theorem serializeProperties_cons (first : Bool) (key : Text) (v : Value) (rest : Dictionary) :
    serializeProperties first ((key, v) :: rest) = (serializeValue v).bind fun text =>
      (serializeProperties false rest).map fun more =>
        (if first then [] else [ch ',', ch ' ']) ++ escapeKey key ++ [ch ' ', ch '=', ch ' '] ++
          text ++ more := by
  rw [serializeProperties]
  cases serializeValue v <;> rfl

/-- What is between two elements, and before the first. -/
theorem ascii_between (first : Bool) : Ascii (if first then [] else [ch ',', ch ' ']) := by
  cases first with
  | true => exact ascii_nil
  | false => exact ascii_cons.mpr ⟨by decide, ascii_cons.mpr ⟨by decide, ascii_nil⟩⟩

theorem serializeElements_produces {elements : List Value} (first : Bool)
    (all : ∀ v ∈ elements, Produces (serializeValue v) (Formed v) (AllValid v)) :
    Produces (serializeElements first elements) (∀ v ∈ elements, Formed v)
      (∀ v ∈ elements, AllValid v) := by
  induction elements generalizing first with
  | nil =>
    exact (produces_ascii ascii_nil).mono (by simp) (by simp)
  | cons v rest ih =>
    have head := all v List.mem_cons_self
    have tail := ih false fun w mem => all w (List.mem_cons_of_mem v mem)
    have both := head.both tail (W := True)
      (f := fun text more => (if first then [] else [ch ',', ch ' ']) ++ text ++ more) (by
        intro s t ends ends'
        have between := ascii_between first
        have front := endsSequence_ascii between
        refine ⟨(front.append ends).append ends', ?_⟩
        rw [(front.append ends) t, front s]
        simp [valid_ascii between])
    rw [serializeElements_cons]
    refine both.mono (List.forall_mem_cons).symm ?_
    rw [true_and]
    exact (List.forall_mem_cons).symm

/-- A key with what is between it and its value. -/
theorem keyed {before key : Text} (ascii : Ascii before) {s : Text} (ends : EndsSequence s) :
    EndsSequence (before ++ escapeKey key ++ [ch ' ', ch '=', ch ' '] ++ s) ∧
      (isValidUtf8 (before ++ escapeKey key ++ [ch ' ', ch '=', ch ' '] ++ s) = true ↔
        isValidUtf8 key = true ∧ isValidUtf8 s = true) := by
  obtain ⟨keyEnds, keyValid⟩ := escapeKey_valid key
  have equals : Ascii [ch ' ', ch '=', ch ' '] :=
    ascii_cons.mpr ⟨by decide, ascii_cons.mpr ⟨by decide, ascii_cons.mpr ⟨by decide, ascii_nil⟩⟩⟩
  have front := (endsSequence_ascii ascii).append keyEnds
  have sign := front.append (endsSequence_ascii equals)
  refine ⟨sign.append ends, ?_⟩
  rw [sign s, front, endsSequence_ascii ascii, keyValid]
  simp [valid_ascii ascii, valid_ascii equals]

theorem serializeProperties_produces {d : Dictionary} (first : Bool)
    (all : ∀ p ∈ d, Produces (serializeValue p.2) (Formed p.2) (AllValid p.2)) :
    Produces (serializeProperties first d) (∀ p ∈ d, True ∧ Formed p.2)
      (∀ p ∈ d, isValidUtf8 p.1 = true ∧ AllValid p.2) := by
  induction d generalizing first with
  | nil =>
    exact (produces_ascii ascii_nil).mono (by simp) (by simp)
  | cons p rest ih =>
    obtain ⟨key, v⟩ := p
    have head := all (key, v) List.mem_cons_self
    have tail := ih false fun w mem => all w (List.mem_cons_of_mem _ mem)
    have both := head.both tail (W := isValidUtf8 key = true)
      (f := fun text more => (if first then [] else [ch ',', ch ' ']) ++ escapeKey key ++
        [ch ' ', ch '=', ch ' '] ++ text ++ more) (by
        intro s t ends ends'
        have between := ascii_between first
        obtain ⟨front, valid⟩ := @keyed _ key between s ends
        refine ⟨front.append ends', ?_⟩
        rw [front t, valid, and_assoc])
    rw [serializeProperties_cons]
    refine both.mono (by simp) ?_
    rw [List.forall_mem_cons, and_assoc]

theorem serializeValue_produces (v : Value) :
    Produces (serializeValue v) (Formed v) (AllValid v) := by
  induction v using Value.induction with
  | null => exact Or.inl ⟨id, _, rfl⟩
  | data bytes => exact Or.inl ⟨id, _, rfl⟩
  | boolean b => exact produces_ascii (ascii_of_all (by cases b <;> decide))
  | number n => exact numberText_produces n
  | string s => exact produces_ok (quoted_ends s) (valid_quoted s)
  | timestamp t => exact produces_ascii (ascii_formatIso8601 t)
  | array elements ih =>
    have inside := (serializeElements_produces true ih).wrap
      (f := fun text => ch '[' :: (text ++ [ch ']']))
      fun s _ => bracketed (by decide) (by decide) s
    refine inside.mono ?_ ?_
    · exact Value.everywhereElements_iff.symm
    · exact Value.everywhereElements_iff.symm
  | dictionary d ih =>
    have inside := (serializeProperties_produces true ih).wrap
      (f := fun text => ch '{' :: (text ++ [ch '}']))
      fun s _ => bracketed (by decide) (by decide) s
    refine inside.mono ?_ ?_
    · exact (@Value.everywhereProperties_iff HasForm (fun _ => True) d).symm
    · exact (@Value.everywhereProperties_iff StringValid (fun key => isValidUtf8 key = true) d).symm

/-! ## Tables -/

theorem serializePairs_cons (key : Text) (v : Value) (rest : Dictionary)
    (pair : isWrittenAsTable v = false) :
    serializePairs ((key, v) :: rest) = (serializeValue v).bind fun text =>
      (serializePairs rest).map fun more =>
        escapeKey key ++ [ch ' ', ch '=', ch ' '] ++ text ++ [ch '\n'] ++ more := by
  rw [serializePairs, serializeKeyValue, pair]
  cases serializeValue v <;> rfl

theorem serializePairs_produces (d : Dictionary) : Produces (serializePairs d)
    (∀ p ∈ d, isWrittenAsTable p.2 = false → Formed p.2)
    (∀ p ∈ d, isWrittenAsTable p.2 = false → isValidUtf8 p.1 = true ∧ AllValid p.2) := by
  induction d with
  | nil => exact (produces_ascii ascii_nil).mono (by simp) (by simp)
  | cons p rest ih =>
    obtain ⟨key, v⟩ := p
    cases table : isWrittenAsTable v with
    | true =>
      rw [serializePairs, if_pos table]
      exact ih.mono (by simp [table]) (by simp [table])
    | false =>
      have both := (serializeValue_produces v).both ih (W := isValidUtf8 key = true)
        (f := fun text more => escapeKey key ++ [ch ' ', ch '=', ch ' '] ++ text ++ [ch '\n'] ++
          more) (by
          intro s t ends ends'
          obtain ⟨front, valid⟩ := @keyed [] key ascii_nil s ends
          have line : EndsSequence [ch '\n'] := @endsSequence_concat (ch '\n') (by decide) []
          have whole := front.append line
          rw [List.nil_append] at front valid whole
          refine ⟨whole.append ends', ?_⟩
          rw [whole t, front, valid, valid_cons_ascii (by decide)]
          simp [valid_nil, and_assoc])
      rw [serializePairs_cons key v rest table]
      refine both.mono (by simp [table]) ?_
      simp [table, and_assoc]

theorem joinPath_valid (path : List Text) : EndsSequence (joinPath path) ∧
    (isValidUtf8 (joinPath path) = true ↔ ∀ key ∈ path, isValidUtf8 key = true) := by
  induction path using joinPath.induct with
  | case1 => exact ⟨endsSequence_ascii ascii_nil, by simp [joinPath, valid_nil]⟩
  | case2 key => simpa [joinPath] using escapeKey_valid key
  | case3 key rest nonempty ih =>
    obtain ⟨ends, valid⟩ := escapeKey_valid key
    have point : EndsSequence [ch '.'] := @endsSequence_concat (ch '.') (by decide) []
    have written : joinPath (key :: rest) = escapeKey key ++ ([ch '.'] ++ joinPath rest) := by
      rw [joinPath]
      · rfl
      · exact nonempty
    rw [written]
    refine ⟨ends.append (point.append ih.1), ?_⟩
    rw [ends, List.singleton_append, valid_cons_ascii (by decide), valid, ih.2,
      List.forall_mem_cons]

theorem header_valid (path : List Text) (array : Bool) : EndsSequence (header path array) ∧
    (isValidUtf8 (header path array) = true ↔ ∀ key ∈ path, isValidUtf8 key = true) := by
  obtain ⟨ends, valid⟩ := joinPath_valid path
  have brackets (count : Nat) (c : UInt8) (ascii : c ≤ 0x7F) : Ascii (List.replicate count c) :=
    fun d mem => List.eq_of_mem_replicate mem ▸ ascii
  generalize count : (if array then 2 else 1) = brackets'
  have front : Ascii (ch '\n' :: List.replicate brackets' (ch '[')) :=
    ascii_cons.mpr ⟨by decide, brackets _ _ (by decide)⟩
  have back : Ascii (List.replicate brackets' (ch ']') ++ [ch '\n']) :=
    ascii_append.mpr ⟨brackets _ _ (by decide), ascii_cons.mpr ⟨by decide, ascii_nil⟩⟩
  have written : header path array = ch '\n' :: List.replicate brackets' (ch '[') ++
      (joinPath path ++ (List.replicate brackets' (ch ']') ++ [ch '\n'])) := by
    simp only [header, count, List.cons_append, List.append_assoc]
  rw [written]
  refine ⟨(endsSequence_ascii front).append (ends.append (endsSequence_ascii back)), ?_⟩
  rw [endsSequence_ascii front, ends, valid, valid_ascii front, valid_ascii back]
  simp

/-- A table under a header of its own. -/
def headedTable (path : List Text) (array : Bool) (table : Dictionary) : Except Error Text :=
  (serializePairs table).bind fun pairs =>
    (serializeTables path table).map fun tables => header path array ++ pairs ++ tables

theorem serializeTables_dictionary (path : List Text) (key : Text) (table rest : Dictionary) :
    serializeTables path ((key, .dictionary table) :: rest) =
      (headedTable (path ++ [key]) false table).bind fun text =>
        (serializeTables path rest).map (text ++ ·) := by
  rw [serializeTables, headedTable]
  cases serializePairs table with
  | error e => rfl
  | ok pairs => cases serializeTables (path ++ [key]) table <;> rfl

theorem serializeTables_array (path : List Text) (key : Text) (elements : List Value)
    (rest : Dictionary) (tables : isArrayOfTables (.array elements) = true) :
    serializeTables path ((key, .array elements) :: rest) =
      (serializeElementTables (path ++ [key]) elements).bind fun text =>
        (serializeTables path rest).map (text ++ ·) := by
  rw [serializeTables, if_pos tables]
  cases serializeElementTables (path ++ [key]) elements <;> rfl

/-- What is written as a pair is no table. -/
theorem serializeTables_pair (path : List Text) (key : Text) (v : Value) (rest : Dictionary)
    (pair : isWrittenAsTable v = false) :
    serializeTables path ((key, v) :: rest) = serializeTables path rest := by
  rw [isWrittenAsTable, Bool.or_eq_false_iff] at pair
  cases v with
  | dictionary d => cases pair.1
  | array elements => rw [serializeTables, if_neg (by simp [pair.2])]
  | _ => rw [serializeTables] <;> simp

theorem serializeElementTables_cons (path : List Text) (table : Dictionary) (rest : List Value) :
    serializeElementTables path (.dictionary table :: rest) =
      (headedTable path true table).bind fun text =>
        (serializeElementTables path rest).map (text ++ ·) := by
  rw [serializeElementTables, headedTable]
  cases serializePairs table with
  | error e => rfl
  | ok pairs => cases serializeTables path table <;> rfl

/-- The tables of a dictionary, under a path, are written when all they hold is. -/
def TablesProduce (d : Dictionary) : Prop := ∀ path, Produces (serializeTables path d)
  (∀ p ∈ d, isWrittenAsTable p.2 = true → Formed p.2)
  (∀ p ∈ d, isWrittenAsTable p.2 = true → (∀ key ∈ path, isValidUtf8 key = true) ∧
    isValidUtf8 p.1 = true ∧ AllValid p.2)

theorem formed_dictionary {d : Dictionary} : Formed (.dictionary d) ↔ ∀ p ∈ d, Formed p.2 := by
  have iff := @Value.everywhereProperties_iff HasForm (fun _ => True) d
  refine iff.trans ?_
  simp

theorem allValid_dictionary {d : Dictionary} :
    AllValid (.dictionary d) ↔ ∀ p ∈ d, isValidUtf8 p.1 = true ∧ AllValid p.2 :=
  @Value.everywhereProperties_iff StringValid (fun key => isValidUtf8 key = true) d

/-- A property of the pairs and one of the tables is one of all. -/
theorem forall_written {d : Dictionary} {P : Text × Value → Prop} :
    (∀ p ∈ d, isWrittenAsTable p.2 = false → P p) ∧
      (∀ p ∈ d, isWrittenAsTable p.2 = true → P p) ↔ ∀ p ∈ d, P p := by
  constructor
  · rintro ⟨pairs, tables⟩ p mem
    cases table : isWrittenAsTable p.2 with
    | false => exact pairs p mem table
    | true => exact tables p mem table
  · intro all
    exact ⟨fun p mem _ => all p mem, fun p mem _ => all p mem⟩

theorem TablesProduce.headed {table : Dictionary} (h : TablesProduce table) (path : List Text)
    (array : Bool) : Produces (headedTable path array table) (Formed (.dictionary table))
      ((∀ key ∈ path, isValidUtf8 key = true) ∧ AllValid (.dictionary table)) := by
  obtain ⟨ends, valid⟩ := header_valid path array
  have both := (serializePairs_produces table).both (h path)
    (W := ∀ key ∈ path, isValidUtf8 key = true)
    (f := fun pairs tables => header path array ++ pairs ++ tables) (by
      intro s t endsS endsT
      refine ⟨(ends.append endsS).append endsT, ?_⟩
      rw [(ends.append endsS) t, ends s, valid, and_assoc])
  refine both.mono ?_ ?_
  · rw [formed_dictionary]
    exact forall_written
  · rw [allValid_dictionary,
      ← @forall_written table fun p => isValidUtf8 p.1 = true ∧ AllValid p.2]
    constructor
    · rintro ⟨keys, pairs, tables⟩
      exact ⟨keys, pairs, fun p mem table => (tables p mem table).2⟩
    · rintro ⟨keys, pairs, tables⟩
      exact ⟨keys, pairs, fun p mem table => ⟨keys, tables p mem table⟩⟩

theorem serializeElementTables_produces (path : List Text) {elements : List Value}
    (tables : elements.all isDictionary = true)
    (all : ∀ v ∈ elements, ∀ d, v = .dictionary d → TablesProduce d) :
    Produces (serializeElementTables path elements) (∀ v ∈ elements, Formed v)
      (∀ v ∈ elements, (∀ key ∈ path, isValidUtf8 key = true) ∧ AllValid v) := by
  induction elements with
  | nil =>
    rw [serializeElementTables]
    exact (produces_ascii ascii_nil).mono (by simp) (by simp)
  | cons v rest ih =>
    rw [List.all_cons, Bool.and_eq_true] at tables
    obtain ⟨table, rfl⟩ : ∃ table, v = .dictionary table := by
      cases v with
      | dictionary table => exact ⟨table, rfl⟩
      | _ => cases tables.1
    have head := (all _ List.mem_cons_self table rfl).headed path true
    have tail := ih tables.2 fun w mem => all w (List.mem_cons_of_mem _ mem)
    have both := head.both tail (W := True) (f := fun text more => text ++ more) (by
      intro s t ends ends'
      exact ⟨ends.append ends', by rw [ends t, true_and]⟩)
    rw [serializeElementTables_cons]
    refine both.mono (List.forall_mem_cons).symm ?_
    rw [true_and, List.forall_mem_cons]

theorem forall_tables_cons {key : Text} {v : Value} {rest : Dictionary} {Q : Text × Value → Prop}
    (written : isWrittenAsTable v = true) :
    (∀ p ∈ (key, v) :: rest, isWrittenAsTable p.2 = true → Q p) ↔
      Q (key, v) ∧ ∀ p ∈ rest, isWrittenAsTable p.2 = true → Q p := by
  rw [List.forall_mem_cons]
  exact and_congr_left' (forall_prop_of_true written)

theorem keys_concat {path : List Text} {key : Text} :
    (∀ k ∈ path ++ [key], isValidUtf8 k = true) ↔
      (∀ k ∈ path, isValidUtf8 k = true) ∧ isValidUtf8 key = true := by
  rw [List.forall_mem_append, List.forall_mem_singleton]

/-- Each entry of a dictionary that is written as a table brings its own text. -/
theorem tablesProduce {d : Dictionary}
    (table : ∀ p ∈ d, ∀ inner, p.2 = .dictionary inner → TablesProduce inner)
    (array : ∀ p ∈ d, ∀ elements, p.2 = .array elements →
      ∀ v ∈ elements, ∀ inner, v = .dictionary inner → TablesProduce inner) :
    TablesProduce d := by
  intro path
  induction d with
  | nil =>
    rw [serializeTables]
    exact (produces_ascii ascii_nil).mono (by simp) (by simp)
  | cons p rest ih =>
    obtain ⟨key, v⟩ := p
    have tail := ih (fun q mem => table q (List.mem_cons_of_mem _ mem))
      (fun q mem => array q (List.mem_cons_of_mem _ mem))
    have glue : ∀ s t : Text, EndsSequence s → EndsSequence t → EndsSequence (s ++ t) ∧
        (isValidUtf8 (s ++ t) = true ↔ True ∧ isValidUtf8 s = true ∧ isValidUtf8 t = true) :=
      fun s t ends ends' => ⟨ends.append ends', by rw [ends t, true_and]⟩
    cases written : isWrittenAsTable v with
    | false =>
      rw [serializeTables_pair path key v rest written]
      exact tail.mono (by simp [written]) (by simp [written])
    | true =>
      cases v with
      | dictionary inner =>
        have head := (table _ List.mem_cons_self inner rfl).headed (path ++ [key]) false
        rw [serializeTables_dictionary]
        refine (head.both tail glue).mono ?_ ?_
        · rw [forall_tables_cons written]
        · rw [forall_tables_cons written, true_and]
          refine and_congr_left' ?_
          rw [keys_concat, and_assoc]
      | array elements =>
        have tables : isArrayOfTables (.array elements) = true := by
          simpa [isWrittenAsTable, isDictionary] using written
        have parts := tables
        rw [isArrayOfTables, Bool.and_eq_true] at parts
        have head := serializeElementTables_produces (path ++ [key]) parts.2
          (array _ List.mem_cons_self _ rfl)
        rw [serializeTables_array path key _ rest tables]
        refine (head.both tail glue).mono ?_ ?_
        · rw [forall_tables_cons written]
          exact and_congr_left' (@Value.everywhereElements_iff HasForm (fun _ => True) elements).symm
        · have inside := @Value.everywhereElements_iff StringValid
            (fun key => isValidUtf8 key = true) elements
          have some' : ∃ v, v ∈ elements := List.exists_mem_of_ne_nil _ (by simpa using parts.1)
          rw [forall_tables_cons written, true_and]
          refine and_congr_left' ?_
          change _ ↔ _ ∧ _ ∧ Value.EverywhereElements StringValid _ elements
          rw [inside, keys_concat]
          constructor
          · intro all
            obtain ⟨v, mem⟩ := some'
            exact ⟨(all v mem).1.1, (all v mem).1.2, fun w mem => (all w mem).2⟩
          · rintro ⟨keys, this, all⟩ v mem
            exact ⟨⟨keys, this⟩, all v mem⟩
      | _ => cases written

theorem tablesProduce_all (v : Value) : (∀ d, v = .dictionary d → TablesProduce d) ∧
    (∀ elements, v = .array elements →
      ∀ w ∈ elements, ∀ d, w = .dictionary d → TablesProduce d) := by
  induction v using Value.induction with
  | dictionary d ih =>
    constructor
    · rintro _ ⟨⟩
      exact tablesProduce (fun p mem => (ih p mem).1) (fun p mem => (ih p mem).2)
    · intro elements same
      cases same
  | array elements ih =>
    constructor
    · intro d same
      cases same
    · rintro _ ⟨⟩ w mem
      exact (ih w mem).1
  | _ =>
    constructor <;>
    · intro _ same
      cases same

theorem serializeDictionary_produces (d : Dictionary) :
    Produces (serializeDictionary d []) (Formed (.dictionary d)) (AllValid (.dictionary d)) := by
  have both := (serializePairs_produces d).both ((tablesProduce_all (.dictionary d)).1 d rfl [])
    (W := True) (f := fun pairs tables => pairs ++ tables)
    (fun s t ends ends' => ⟨ends.append ends', by rw [ends t, true_and]⟩)
  have whole : serializeDictionary d [] = (serializePairs d).bind fun pairs =>
      (serializeTables [] d).map (pairs ++ ·) := by
    rw [serializeDictionary]
    cases serializePairs d <;> rfl
  rw [whole]
  refine both.mono ?_ ?_
  · rw [formed_dictionary]
    exact forall_written
  · rw [allValid_dictionary,
      ← @forall_written d fun p => isValidUtf8 p.1 = true ∧ AllValid p.2]
    simp

/-- Serialization succeeds exactly when everything at any depth has a form in TOML and every
string and key there is valid UTF-8. The one check of the output is as good as a check of each
of them: where the rest can be written, it passes exactly if they are all valid. -/
theorem serialize_succeeds_iff (d : Dictionary) :
    ((∃ text, serialize d = .ok text) ↔ Formed (.dictionary d) ∧ AllValid (.dictionary d)) ∧
      ∀ output, serializeDictionary d [] = .ok output →
        (isValidUtf8 output = true ↔ AllValid (.dictionary d)) := by
  rcases serializeDictionary_produces d with ⟨no, e, failed⟩ | ⟨yes, output, done, ends, valid⟩
  · constructor
    · constructor
      · rintro ⟨text, same⟩
        rw [serialize, failed] at same
        cases same
      · exact fun formed => absurd formed.1 no
    · intro output same
      rw [failed] at same
      cases same
  · constructor
    · rw [← valid, serialize, done]
      cases check : isValidUtf8 output with
      | false => simp [check]
      | true => simp [check, yes]
    · intro output' same
      rw [done] at same
      rw [← Except.ok.inj same]
      exact valid

end Toml

end Dross
