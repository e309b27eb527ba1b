import Dross.Format.Cursor

/-!
# Texts as sequences of scalar values

What the check for UTF-8 accepts is what the encoding of scalar values writes, one after
the other. No encoding is the start of another, so a text is that of one sequence only.
-/

namespace Dross

/-- The bytes of a scalar value as numbers. -/
def codeUnits (codePoint : Nat) : List Nat :=
  if codePoint ≤ 0x7F then [codePoint]
  else if codePoint ≤ 0x7FF then [192 + codePoint / 64, 128 + codePoint % 64]
  else if codePoint ≤ 0xFFFF then
    [224 + codePoint / 4096, 128 + codePoint / 64 % 64, 128 + codePoint % 64]
  else
    [240 + codePoint / 262144, 128 + codePoint / 4096 % 64, 128 + codePoint / 64 % 64,
      128 + codePoint % 64]

section Encoding

variable {codePoint : Nat}

theorem lead_toNat {mark room bits : Nat} (k : Nat) (marks : mark = 2 ^ k * room)
    (small : bits < 2 ^ k) (fits : mark + bits < 256) :
    (UInt8.ofNat (mark ||| bits)).toNat = mark + bits := by
  rw [lead_eq k marks small, byte_toNat fits]

theorem encodeUtf8_units (most : codePoint ≤ 0x10FFFF) :
    (encodeUtf8 codePoint).map UInt8.toNat = codeUnits codePoint := by
  unfold encodeUtf8 codeUnits
  simp only [Nat.shiftRight_eq_div_pow]
  split
  · rw [List.map_singleton, byte_toNat (by omega)]
  · split
    · rw [List.map_cons, List.map_singleton, tail_toNat,
        @lead_toNat 192 3 _ 6 rfl (by omega) (by omega)]
    · split
      · rw [List.map_cons, List.map_cons, List.map_singleton, tail_toNat, tail_toNat,
          @lead_toNat 224 7 _ 5 rfl (by omega) (by omega)]
      · rw [List.map_cons, List.map_cons, List.map_cons, List.map_singleton, tail_toNat,
          tail_toNat, tail_toNat, @lead_toNat 240 15 _ 4 rfl (by omega) (by omega)]

theorem toNat_injective {s t : Text} (same : s.map UInt8.toNat = t.map UInt8.toNat) : s = t :=
  List.map_injective_iff.mpr (fun _ _ => UInt8.toNat_inj.mp) same

theorem codeUnits_nonempty (codePoint : Nat) : codeUnits codePoint ≠ [] := by
  unfold codeUnits
  split_ifs <;> exact List.cons_ne_nil _ _

/-- The first byte tells how many there are, so no encoding is the start of another. -/
theorem codeUnits_prefix {c d : Nat} {rest rest' : List Nat} (hc : c ≤ 0x10FFFF)
    (hd : d ≤ 0x10FFFF) (same : codeUnits c ++ rest = codeUnits d ++ rest') : c = d := by
  unfold codeUnits at same
  split_ifs at same <;> simp only [List.cons_append, List.nil_append, List.cons.injEq] at same <;>
    omega

/-- Scalar values one after the other are those of their text alone. -/
theorem encodeUtf8_unique {cs ds : List Nat} (hc : ∀ c ∈ cs, IsScalar c)
    (hd : ∀ d ∈ ds, IsScalar d) (same : cs.flatMap encodeUtf8 = ds.flatMap encodeUtf8) :
    cs = ds := by
  have units {c : Nat} (scalar : IsScalar c) : (encodeUtf8 c).map UInt8.toNat = codeUnits c :=
    encodeUtf8_units scalar.2
  induction cs generalizing ds with
  | nil =>
    cases ds with
    | nil => rfl
    | cons d ds =>
      have empty := congrArg (List.map UInt8.toNat) same
      rw [List.flatMap_nil, List.flatMap_cons, List.map_append,
        units (hd d List.mem_cons_self)] at empty
      exact absurd (List.append_eq_nil_iff.mp empty.symm).1 (codeUnits_nonempty d)
  | cons c cs ih =>
    have first := hc c List.mem_cons_self
    cases ds with
    | nil =>
      have empty := congrArg (List.map UInt8.toNat) same
      rw [List.flatMap_nil, List.flatMap_cons, List.map_append, units first] at empty
      exact absurd (List.append_eq_nil_iff.mp empty).1 (codeUnits_nonempty c)
    | cons d ds =>
      have first' := hd d List.mem_cons_self
      have bytes := congrArg (List.map UInt8.toNat) same
      rw [List.flatMap_cons, List.flatMap_cons, List.map_append, List.map_append, units first,
        units first'] at bytes
      obtain rfl := codeUnits_prefix first.2 first'.2 bytes
      rw [List.flatMap_cons, List.flatMap_cons] at same
      rw [ih (fun c mem => hc c (List.mem_cons_of_mem _ mem))
        (fun d mem => hd d (List.mem_cons_of_mem _ mem)) (List.append_cancel_left same)]

end Encoding

/-! ## Decoding -/

section Decoding

variable {count : Nat} {low high lead : UInt8} {s : Text}

/-- What a lead byte carries, and what it asks of the next byte. -/
def LeadFits (lead : UInt8) (count : Nat) (low high : UInt8) : Prop :=
  128 ≤ low.toNat ∧ high.toNat ≤ 191 ∧
    (count = 0 ∧ lead.toNat ≤ 127 ∨ count = 1 ∧ 194 ≤ lead.toNat ∧ lead.toNat ≤ 223 ∨
      count = 2 ∧ 224 ≤ lead.toNat ∧ lead.toNat ≤ 239 ∧ (lead.toNat = 224 → 160 ≤ low.toNat) ∧
        (lead.toNat = 237 → high.toNat ≤ 159) ∨
      count = 3 ∧ 240 ≤ lead.toNat ∧ lead.toNat ≤ 244 ∧ (lead.toNat = 240 → 144 ≤ low.toNat) ∧
        (lead.toNat = 244 → high.toNat ≤ 143))

instance decidableLeadFits (lead : UInt8) (count : Nat) (low high : UInt8) :
    Decidable (LeadFits lead count low high) := by
  unfold LeadFits
  infer_instance

theorem followedBy_fits (follows : followedBy lead = some (count, low, high)) :
    LeadFits lead count low high := by
  have all (lead : UInt8) :
      (followedBy lead).all (fun r => decide (LeadFits lead r.1 r.2.1 r.2.2)) = true := by
    revert lead
    exact everyByte (by decide +kernel)
  have this := all lead
  rw [follows] at this
  exact of_decide_eq_true this

/-- A sequence goes on with a byte inside the bounds. -/
theorem validFrom_next (valid : validFrom (count + 1) low high s = true) : ∃ byte rest,
    s = byte :: rest ∧ low.toNat ≤ byte.toNat ∧ byte.toNat ≤ high.toNat ∧
      validFrom count 0x80 0xBF rest = true := by
  cases s with
  | nil => cases valid
  | cons byte rest =>
    rw [validFrom] at valid
    split at valid
    · cases valid
    · rename_i inside
      simp only [Bool.or_eq_true, decide_eq_true_eq, UInt8.lt_iff_toNat_lt, GT.gt, not_or,
        Nat.not_lt] at inside
      exact ⟨byte, rest, rfl, inside.1, inside.2, valid⟩

/-- A valid text starts with the encoding of a scalar value. -/
theorem valid_decode (nonempty : s ≠ []) (valid : isValidUtf8 s = true) : ∃ codePoint rest,
    IsScalar codePoint ∧ s = encodeUtf8 codePoint ++ rest ∧ isValidUtf8 rest = true := by
  obtain ⟨lead, s, rfl⟩ := List.exists_cons_of_ne_nil nonempty
  -- the bytes of a scalar value are those of its encoding
  have known {codePoint : Nat} {front : Text} (scalar : IsScalar codePoint)
      (bytes : front.map UInt8.toNat = codeUnits codePoint) : front = encodeUtf8 codePoint :=
    toNat_injective (bytes.trans (encodeUtf8_units scalar.2).symm)
  have bounds : (0x80 : UInt8).toNat = 128 ∧ (0xBF : UInt8).toNat = 191 := ⟨rfl, rfl⟩
  rw [isValidUtf8, validFrom] at valid
  split at valid
  · cases valid
  · rename_i count low high follows
    obtain ⟨least, most, ⟨rfl, one⟩ | ⟨rfl, two⟩ | ⟨rfl, three⟩ | ⟨rfl, four⟩⟩ :=
      followedBy_fits follows
    · have scalar : IsScalar lead.toNat := ⟨by omega, by omega⟩
      have front : [lead] = encodeUtf8 lead.toNat := known scalar (by
        rw [codeUnits, if_pos (by omega)]
        rfl)
      refine ⟨lead.toNat, s, scalar, ?_, (validFrom_zero _ _ _ _ s).trans valid⟩
      rw [← front]
      rfl
    · obtain ⟨b, s, rfl, hb, hb', valid⟩ := validFrom_next valid
      have scalar : IsScalar ((lead.toNat - 192) * 64 + (b.toNat - 128)) := ⟨by omega, by omega⟩
      have front : [lead, b] = encodeUtf8 ((lead.toNat - 192) * 64 + (b.toNat - 128)) :=
        known scalar (by
          rw [codeUnits, if_neg (by omega), if_pos (by omega)]
          simp only [List.map_cons, List.map_nil, List.cons.injEq, and_true]
          omega)
      refine ⟨_, s, scalar, ?_, (validFrom_zero _ _ _ _ s).trans valid⟩
      rw [← front]
      rfl
    · obtain ⟨b, s, rfl, hb, hb', valid⟩ := validFrom_next valid
      obtain ⟨d, s, rfl, hd, hd', valid⟩ := validFrom_next valid
      rw [bounds.1] at hd
      rw [bounds.2] at hd'
      have scalar : IsScalar ((lead.toNat - 224) * 4096 + (b.toNat - 128) * 64 + (d.toNat - 128)) :=
        ⟨by omega, by omega⟩
      have front : [lead, b, d] =
          encodeUtf8 ((lead.toNat - 224) * 4096 + (b.toNat - 128) * 64 + (d.toNat - 128)) :=
        known scalar (by
          rw [codeUnits, if_neg (by omega), if_neg (by omega), if_pos (by omega)]
          simp only [List.map_cons, List.map_nil, List.cons.injEq, and_true]
          omega)
      refine ⟨_, s, scalar, ?_, (validFrom_zero _ _ _ _ s).trans valid⟩
      rw [← front]
      rfl
    · obtain ⟨b, s, rfl, hb, hb', valid⟩ := validFrom_next valid
      obtain ⟨d, s, rfl, hd, hd', valid⟩ := validFrom_next valid
      obtain ⟨e, s, rfl, he, he', valid⟩ := validFrom_next valid
      rw [bounds.1] at hd he
      rw [bounds.2] at hd' he'
      have scalar : IsScalar ((lead.toNat - 240) * 262144 + (b.toNat - 128) * 4096 +
          (d.toNat - 128) * 64 + (e.toNat - 128)) := ⟨by omega, by omega⟩
      have front : [lead, b, d, e] = encodeUtf8 ((lead.toNat - 240) * 262144 +
          (b.toNat - 128) * 4096 + (d.toNat - 128) * 64 + (e.toNat - 128)) :=
        known scalar (by
          rw [codeUnits, if_neg (by omega), if_neg (by omega), if_neg (by omega)]
          simp only [List.map_cons, List.map_nil, List.cons.injEq, and_true]
          omega)
      refine ⟨_, s, scalar, ?_, (validFrom_zero _ _ _ _ s).trans valid⟩
      rw [← front]
      rfl

theorem length_encodeUtf8 {codePoint : Nat} (scalar : IsScalar codePoint) :
    0 < (encodeUtf8 codePoint).length := by
  have same := congrArg List.length (encodeUtf8_units scalar.2)
  rw [List.length_map] at same
  rw [same]
  exact List.length_pos_iff.mpr (codeUnits_nonempty codePoint)

/-- A valid text is made of encodings. -/
theorem valid_encoded (valid : isValidUtf8 s = true) :
    ∃ cs : List Nat, (∀ c ∈ cs, IsScalar c) ∧ s = cs.flatMap encodeUtf8 := by
  induction bound : s.length using Nat.strong_induction_on generalizing s with
  | h n ih =>
    by_cases empty : s = []
    · exact ⟨[], nofun, empty⟩
    · obtain ⟨codePoint, rest, scalar, rfl, more⟩ := valid_decode empty valid
      have shorter : rest.length < n := by
        have := length_encodeUtf8 scalar
        rw [← bound, List.length_append]
        omega
      obtain ⟨cs, scalars, rfl⟩ := ih _ shorter more rfl
      refine ⟨codePoint :: cs, ?_, rfl⟩
      intro c mem
      rcases List.mem_cons.mp mem with rfl | mem
      · exact scalar
      · exact scalars c mem

theorem encoded_valid {cs : List Nat} (scalars : ∀ c ∈ cs, IsScalar c) :
    isValidUtf8 (cs.flatMap encodeUtf8) = true := by
  induction cs with
  | nil => exact valid_nil
  | cons c cs ih =>
    rw [List.flatMap_cons, valid_append (valid_encodeUtf8 (scalars c List.mem_cons_self))]
    exact ih (fun d mem => scalars d (List.mem_cons_of_mem _ mem))

/-- A text is valid exactly when it is scalar values encoded one after the other. Which they
are is then settled, and a valid text may be put behind another. -/
theorem validUtf8_exact (s : Text) :
    (isValidUtf8 s = true ↔
      ∃ cs : List Nat, (∀ c ∈ cs, IsScalar c) ∧ s = cs.flatMap encodeUtf8) ∧
    (∀ cs ds : List Nat, (∀ c ∈ cs, IsScalar c) → (∀ d ∈ ds, IsScalar d) →
      s = cs.flatMap encodeUtf8 → s = ds.flatMap encodeUtf8 → cs = ds) ∧
    ∀ t, isValidUtf8 s = true → isValidUtf8 t = true → isValidUtf8 (s ++ t) = true := by
  refine ⟨⟨valid_encoded, ?_⟩, ?_, ?_⟩
  · rintro ⟨cs, scalars, rfl⟩
    exact encoded_valid scalars
  · intro cs ds hc hd first second
    exact encodeUtf8_unique hc hd (first.symm.trans second)
  · intro t valid valid'
    rw [valid_append valid]
    exact valid'

end Decoding

end Dross
