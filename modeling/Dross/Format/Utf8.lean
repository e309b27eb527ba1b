import Dross.Type.Digits

/-!
# UTF-8

Validity as the reader and the writer check it, and the encoding of an escape. A
text is valid from a point inside a sequence as well, which is how long the rest of
the sequence is and what its next byte may be; a byte of ASCII is always a sequence
of its own, so a valid text splits there.
-/

namespace Dross

/-- What a lead byte asks for: the bytes still to come, and the bounds of the next one. -/
def followedBy (lead : UInt8) : Option (Nat × UInt8 × UInt8) :=
  if lead ≤ 0x7F then some (0, 0x80, 0xBF)
  else if 0xC2 ≤ lead && lead ≤ 0xDF then some (1, 0x80, 0xBF)
  else if lead = 0xE0 then some (2, 0xA0, 0xBF)
  else if lead = 0xED then some (2, 0x80, 0x9F)
  else if 0xE1 ≤ lead && lead ≤ 0xEF then some (2, 0x80, 0xBF)
  else if lead = 0xF0 then some (3, 0x90, 0xBF)
  else if lead = 0xF4 then some (3, 0x80, 0x8F)
  else if 0xF1 ≤ lead && lead ≤ 0xF3 then some (3, 0x80, 0xBF)
  else none

/-- Both loops of `is_valid_utf8`: with bytes of a sequence still to come the inner one, else
the outer one. -/
def validFrom : Nat → UInt8 → UInt8 → Text → Bool
  | 0, _, _, [] => true
  | _ + 1, _, _, [] => false
  | 0, _, _, lead :: rest =>
    match followedBy lead with
    | none => false
    | some (count, low, high) => validFrom count low high rest
  | count + 1, low, high, byte :: rest =>
    if byte < low || byte > high then false else validFrom count 0x80 0xBF rest

/-- `is_valid_utf8` -/
def isValidUtf8 (text : Text) : Bool := validFrom 0 0x80 0xBF text

/-- `append_utf8`, as the bytes it appends. -/
def encodeUtf8 (codePoint : Nat) : Text :=
  let byte (bits : Nat) : UInt8 := UInt8.ofNat bits
  if codePoint ≤ 0x7F then [byte codePoint]
  else if codePoint ≤ 0x7FF then
    [byte (0xC0 ||| codePoint >>> 6), byte (0x80 ||| (codePoint &&& 0x3F))]
  else if codePoint ≤ 0xFFFF then
    [byte (0xE0 ||| codePoint >>> 12), byte (0x80 ||| (codePoint >>> 6 &&& 0x3F)),
      byte (0x80 ||| (codePoint &&& 0x3F))]
  else
    [byte (0xF0 ||| codePoint >>> 18), byte (0x80 ||| (codePoint >>> 12 &&& 0x3F)),
      byte (0x80 ||| (codePoint >>> 6 &&& 0x3F)), byte (0x80 ||| (codePoint &&& 0x3F))]

/-- No surrogate, and nothing beyond U+10FFFF. -/
def IsScalar (codePoint : Nat) : Prop :=
  ¬ (0xD800 ≤ codePoint ∧ codePoint ≤ 0xDFFF) ∧ codePoint ≤ 0x10FFFF

/-! ## Splitting a valid text -/

theorem validFrom_zero (low high low' high' : UInt8) (text : Text) :
    validFrom 0 low high text = validFrom 0 low' high' text := by
  cases text with
  | nil => rfl
  | cons lead rest => rfl

theorem followedBy_ascii {lead : UInt8} (ascii : lead ≤ 0x7F) :
    followedBy lead = some (0, 0x80, 0xBF) := if_pos ascii

theorem followedBy_low {lead : UInt8} {count : Nat} {low high : UInt8}
    (h : followedBy lead = some (count, low, high)) : 0x80 ≤ low := by
  unfold followedBy at h
  repeat' split at h
  all_goals cases h
  all_goals decide

theorem valid_nil : isValidUtf8 [] = true := rfl

theorem valid_cons_ascii {c : UInt8} (ascii : c ≤ 0x7F) (text : Text) :
    isValidUtf8 (c :: text) = isValidUtf8 text := by
  unfold isValidUtf8
  rw [validFrom, followedBy_ascii ascii]

/-- What follows a valid text is checked from the start. -/
theorem validFrom_append {count : Nat} {low high : UInt8} {s : Text}
    (valid : validFrom count low high s = true) (t : Text) :
    validFrom count low high (s ++ t) = isValidUtf8 t := by
  induction s generalizing count low high with
  | nil =>
    cases count with
    | zero => exact validFrom_zero _ _ _ _ t
    | succ count => cases valid
  | cons c s ih =>
    cases count with
    | zero =>
      rw [validFrom] at valid
      rw [List.cons_append, validFrom]
      split at valid
      · cases valid
      · exact ih valid
    | succ count =>
      rw [validFrom] at valid
      rw [List.cons_append, validFrom]
      split at valid
      · cases valid
      · next inside =>
        rw [if_neg inside]
        exact ih valid

theorem valid_append {s : Text} (valid : isValidUtf8 s = true) (t : Text) :
    isValidUtf8 (s ++ t) = isValidUtf8 t := validFrom_append valid t

theorem validFrom_split {count : Nat} {low high c : UInt8} {s t : Text} (ascii : c ≤ 0x7F)
    (bound : 0x80 ≤ low) (valid : validFrom count low high (s ++ c :: t) = true) :
    validFrom count low high s = true ∧ isValidUtf8 t = true := by
  induction s generalizing count low high with
  | nil =>
    cases count with
    | zero =>
      rw [List.nil_append, validFrom, followedBy_ascii ascii] at valid
      exact ⟨rfl, valid⟩
    | succ count =>
      have below : c < low := by
        rw [UInt8.lt_iff_toNat_lt]
        rw [UInt8.le_iff_toNat_le] at ascii bound
        exact Nat.lt_of_lt_of_le (Nat.lt_succ_of_le ascii) bound
      rw [List.nil_append, validFrom, if_pos (by simp [below])] at valid
      cases valid
  | cons d s ih =>
    cases count with
    | zero =>
      rw [List.cons_append, validFrom] at valid
      rw [validFrom]
      split at valid
      · cases valid
      · next follows => exact ih (followedBy_low follows) valid
    | succ count =>
      rw [List.cons_append, validFrom] at valid
      rw [validFrom]
      split at valid
      · cases valid
      · next inside =>
        rw [if_neg inside]
        exact ih (by decide) valid

/-- A valid text is valid on both sides of a byte of ASCII. -/
theorem valid_split {c : UInt8} {s t : Text} (ascii : c ≤ 0x7F) :
    isValidUtf8 (s ++ c :: t) = true ↔ isValidUtf8 s = true ∧ isValidUtf8 t = true := by
  constructor
  · exact validFrom_split ascii (by decide)
  · rintro ⟨front, back⟩
    rw [valid_append front, valid_cons_ascii ascii]
    exact back

theorem valid_ascii {s : Text} (ascii : ∀ c ∈ s, c ≤ 0x7F) : isValidUtf8 s = true := by
  induction s with
  | nil => rfl
  | cons c s ih =>
    rw [valid_cons_ascii (ascii c List.mem_cons_self)]
    exact ih (fun d mem => ascii d (List.mem_cons_of_mem c mem))

/-! ## Texts put one after the other -/

/-- What follows does not complete or spoil the last sequence, whether that is valid or not. -/
def EndsSequence (s : Text) : Prop :=
  ∀ t, isValidUtf8 (s ++ t) = true ↔ isValidUtf8 s = true ∧ isValidUtf8 t = true

theorem endsSequence_ascii {s : Text} (ascii : ∀ c ∈ s, c ≤ 0x7F) : EndsSequence s := by
  intro t
  rw [valid_append (valid_ascii ascii), valid_ascii ascii]
  exact (and_iff_right rfl).symm

theorem endsSequence_concat {c : UInt8} (ascii : c ≤ 0x7F) (s : Text) :
    EndsSequence (s ++ [c]) := by
  intro t
  have alone := @valid_split c s [] ascii
  rw [List.append_assoc, List.singleton_append, valid_split ascii, alone]
  exact and_congr_left' (and_iff_left valid_nil).symm

theorem EndsSequence.append {s t : Text} (hs : EndsSequence s) (ht : EndsSequence t) :
    EndsSequence (s ++ t) := by
  intro more
  rw [List.append_assoc, hs, hs, ht, and_assoc]

/-! ## Encoding -/

theorem byte_toNat {n : Nat} (h : n < 256) : (UInt8.ofNat n).toNat = n := by
  rw [UInt8.toNat_ofNat']
  omega

/-- A byte of a sequence after the first. -/
theorem tail_toNat (bits : Nat) : (UInt8.ofNat (0x80 ||| (bits &&& 0x3F))).toNat =
    128 + bits % 64 := by
  have low : bits &&& 0x3F = bits % 64 := Nat.and_two_pow_sub_one_eq_mod bits 6
  have small : bits % 64 < 2 ^ 7 := Nat.lt_of_lt_of_le (Nat.mod_lt _ (by decide)) (by decide)
  have sum : 128 + bits % 64 = 0x80 ||| bits % 64 := Nat.two_pow_add_eq_or_of_lt small 1
  rw [low, ← sum, byte_toNat (by omega)]

theorem validFrom_tail {count : Nat} {low high : UInt8} {bits : Nat} {rest : Text}
    (inside : low.toNat ≤ 128 + bits % 64 ∧ 128 + bits % 64 ≤ high.toNat) :
    validFrom (count + 1) low high (UInt8.ofNat (0x80 ||| (bits &&& 0x3F)) :: rest) =
      validFrom count 0x80 0xBF rest := by
  have bounds : ¬ ((UInt8.ofNat (0x80 ||| (bits &&& 0x3F)) < low ||
      UInt8.ofNat (0x80 ||| (bits &&& 0x3F)) > high : Bool) = true) := by
    simp only [Bool.or_eq_true, decide_eq_true_eq, UInt8.lt_iff_toNat_lt, GT.gt, tail_toNat]
    omega
  rw [validFrom, if_neg bounds]

theorem followedBy_ofNat {n : Nat} (h : n < 256) : followedBy (UInt8.ofNat n) =
    if n ≤ 127 then some (0, 0x80, 0xBF)
    else if 194 ≤ n ∧ n ≤ 223 then some (1, 0x80, 0xBF)
    else if n = 224 then some (2, 0xA0, 0xBF)
    else if n = 237 then some (2, 0x80, 0x9F)
    else if 225 ≤ n ∧ n ≤ 239 then some (2, 0x80, 0xBF)
    else if n = 240 then some (3, 0x90, 0xBF)
    else if n = 244 then some (3, 0x80, 0x8F)
    else if 241 ≤ n ∧ n ≤ 243 then some (3, 0x80, 0xBF)
    else none := by
  have same (m : Nat) (hm : m < 256) : UInt8.ofNat n = UInt8.ofNat m ↔ n = m := by
    rw [← UInt8.toNat_inj, byte_toNat h, byte_toNat hm]
  have le (m : Nat) (hm : m < 256) : UInt8.ofNat n ≤ UInt8.ofNat m ↔ n ≤ m := by
    rw [UInt8.le_iff_toNat_le, byte_toNat h, byte_toNat hm]
  have ge (m : Nat) (hm : m < 256) : UInt8.ofNat m ≤ UInt8.ofNat n ↔ m ≤ n := by
    rw [UInt8.le_iff_toNat_le, byte_toNat h, byte_toNat hm]
  unfold followedBy
  simp only [Bool.and_eq_true, decide_eq_true_eq]
  rw [show (0x7F : UInt8) = UInt8.ofNat 127 from rfl, show (0xC2 : UInt8) = UInt8.ofNat 194 from rfl,
    show (0xDF : UInt8) = UInt8.ofNat 223 from rfl, show (0xE0 : UInt8) = UInt8.ofNat 224 from rfl,
    show (0xED : UInt8) = UInt8.ofNat 237 from rfl, show (0xE1 : UInt8) = UInt8.ofNat 225 from rfl,
    show (0xEF : UInt8) = UInt8.ofNat 239 from rfl, show (0xF0 : UInt8) = UInt8.ofNat 240 from rfl,
    show (0xF4 : UInt8) = UInt8.ofNat 244 from rfl, show (0xF1 : UInt8) = UInt8.ofNat 241 from rfl,
    show (0xF3 : UInt8) = UInt8.ofNat 243 from rfl]
  simp only [same _ (show 224 < 256 by decide), same _ (show 237 < 256 by decide),
    same _ (show 240 < 256 by decide), same _ (show 244 < 256 by decide),
    le _ (show 127 < 256 by decide), le _ (show 223 < 256 by decide),
    le _ (show 239 < 256 by decide), le _ (show 243 < 256 by decide),
    ge _ (show 194 < 256 by decide), ge _ (show 225 < 256 by decide),
    ge _ (show 241 < 256 by decide)]

/-- A lead byte, as the sum of its mark and what it carries. -/
theorem lead_eq {mark room bits : Nat} (k : Nat) (marks : mark = 2 ^ k * room)
    (small : bits < 2 ^ k) : mark ||| bits = mark + bits := by
  rw [marks]
  exact (Nat.two_pow_add_eq_or_of_lt small room).symm

/-- The lead of three bytes bounds the second so that neither a shorter form nor a surrogate
passes. -/
theorem followedBy_three {codePoint : Nat} (least : 0x7FF < codePoint) (most : codePoint ≤ 0xFFFF)
    (scalar : ¬ (0xD800 ≤ codePoint ∧ codePoint ≤ 0xDFFF)) : ∃ low high : UInt8,
    followedBy (UInt8.ofNat (224 + codePoint / 4096)) = some (2, low, high) ∧
      low.toNat ≤ 128 + codePoint / 64 % 64 ∧ 128 + codePoint / 64 % 64 ≤ high.toNat := by
  rw [followedBy_ofNat (by omega), if_neg (by omega), if_neg (by omega)]
  by_cases zero : codePoint / 4096 = 0
  · rw [if_pos (by omega)]
    exact ⟨_, _, rfl, by simp; omega, by simp; omega⟩
  · rw [if_neg (by omega)]
    by_cases surrogate : codePoint / 4096 = 13
    · rw [if_pos (by omega)]
      exact ⟨_, _, rfl, by simp, by simp; omega⟩
    · rw [if_neg (by omega), if_pos (by omega)]
      exact ⟨_, _, rfl, by simp, by simp; omega⟩

theorem followedBy_four {codePoint : Nat} (least : 0xFFFF < codePoint)
    (most : codePoint ≤ 0x10FFFF) : ∃ low high : UInt8,
    followedBy (UInt8.ofNat (240 + codePoint / 262144)) = some (3, low, high) ∧
      low.toNat ≤ 128 + codePoint / 4096 % 64 ∧ 128 + codePoint / 4096 % 64 ≤ high.toNat := by
  rw [followedBy_ofNat (by omega), if_neg (by omega), if_neg (by omega), if_neg (by omega),
    if_neg (by omega), if_neg (by omega)]
  by_cases zero : codePoint / 262144 = 0
  · rw [if_pos (by omega)]
    exact ⟨_, _, rfl, by simp; omega, by simp; omega⟩
  · rw [if_neg (by omega)]
    by_cases last : codePoint / 262144 = 4
    · rw [if_pos (by omega)]
      exact ⟨_, _, rfl, by simp, by simp; omega⟩
    · rw [if_neg (by omega), if_pos (by omega)]
      exact ⟨_, _, rfl, by simp, by simp; omega⟩

theorem tail_inside (bits : Nat) : (0x80 : UInt8).toNat ≤ 128 + bits % 64 ∧
    128 + bits % 64 ≤ (0xBF : UInt8).toNat := by
  have := Nat.mod_lt bits (show 0 < 64 by decide)
  simp
  omega

theorem valid_encodeUtf8 {codePoint : Nat} (scalar : IsScalar codePoint) :
    isValidUtf8 (encodeUtf8 codePoint) = true := by
  obtain ⟨notSurrogate, most⟩ := scalar
  unfold isValidUtf8 encodeUtf8
  simp only [Nat.shiftRight_eq_div_pow]
  split
  · next ascii =>
    rw [validFrom, followedBy_ofNat (by omega), if_pos ascii]
    rfl
  · split
    · next two =>
      have lead : 0xC0 ||| codePoint / 2 ^ 6 = 192 + codePoint / 64 :=
        @lead_eq _ 3 _ 6 rfl (by omega)
      rw [lead, validFrom, followedBy_ofNat (by omega), if_neg (by omega), if_pos (by omega)]
      simp only [validFrom_tail (tail_inside _)]
      rfl
    · split
      · next three =>
        have lead : 0xE0 ||| codePoint / 2 ^ 12 = 224 + codePoint / 4096 :=
          @lead_eq _ 7 _ 5 rfl (by omega)
        obtain ⟨low, high, follows, inside⟩ := followedBy_three (by omega) three notSurrogate
        rw [lead, validFrom, follows]
        simp only [validFrom_tail inside, validFrom_tail (tail_inside _)]
        rfl
      · next four =>
        have lead : 0xF0 ||| codePoint / 2 ^ 18 = 240 + codePoint / 262144 :=
          @lead_eq _ 15 _ 4 rfl (by omega)
        obtain ⟨low, high, follows, inside⟩ := followedBy_four (by omega) most
        rw [lead, validFrom, follows]
        simp only [validFrom_tail inside, validFrom_tail (tail_inside _)]
        rfl

end Dross
