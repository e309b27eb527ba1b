import Dross.Format.DigitRuns
import Dross.Format.NumberForms

/-!
# Integers with a prefix

The digits after `0x`, `0o` or `0b` are put together in chunks that a word of 64 bits
holds, and the chunks in decimal digits. That is the value of all the digits by their
places.
-/

namespace Dross

/-- The letters of the prefixes, the base of each and the bits of one digit. -/
def integerPrefixes : List (UInt8 × Nat × Nat) := [(ch 'x', 16, 4), (ch 'o', 8, 3), (ch 'b', 2, 1)]

def digitOr0 (base : Nat) (c : UInt8) : Nat := (digitValue c base).getD 0

/-- The value of digits by their places. -/
def positional (base : Nat) (digits : Text) : Nat := Numeral.value base (digits.map (digitOr0 base))

/-- Their value, put together digit by digit. -/
def horner (base : Nat) (digits : Text) : Nat :=
  digits.foldl (fun total c => total * base + digitOr0 base c) 0

namespace Number

theorem writes_countText (n : Nat) : Writes (countText n) n := by
  have written := writes_natural (countText_digits n).1 (countText_trimmed n)
  rwa [(countText_digits n).2] at written

theorem ofUnsigned_number (n : Nat) : (ofUnsigned n).number = countText n :=
  (writes_countText n).canonical.1.canonicalText

theorem ofUnsigned_exactly (n : Nat) : (ofUnsigned n).Exactly n := by
  apply exactly
  rw [ofUnsigned_number]
  exact (writes_countText n).canonical

theorem ofUnsigned_integral (n : Nat) : (ofUnsigned n).isFloatingPoint = false := by
  simp [isFloatingPoint, ofUnsigned, ofTextAs]

/-- Whole numbers give whole numbers. -/
theorem ofUnsigned_calculate {a b r : Nat} {op : ArithmeticOperation}
    (leaves : ∃ t, performArithmetic (ofUnsigned a).number (ofUnsigned b).number op = some t ∧
      Leaves t r) : (ofUnsigned a).calculate (ofUnsigned b) op = some (ofUnsigned r) := by
  obtain ⟨t, result, canonical, value⟩ := leaves
  have written := (writes_countText r).canonical
  obtain rfl : t = countText r := canonical.unique written.1 (value.trans written.2.symm)
  rw [calculate, result, Option.map_some]
  refine congrArg some (eq_of_parts ?_ ?_)
  · rfl
  · have integral := digits_integral (countText_digits r).1
    simp [ofText, ofUnsigned, ofTextAs, integral]

theorem ofUnsigned_times_plus (total power part : Nat) :
    ((ofUnsigned total).calculate (ofUnsigned power) .times).bind
      (fun n => n.calculate (ofUnsigned part) .plus) = some (ofUnsigned (total * power + part)) := by
  have canonical (n : Nat) := (ofUnsigned_exactly n).canonical
  have value (n : Nat) : textValue (ofUnsigned n).number = n := (ofUnsigned_exactly n).value_eq
  have times : (ofUnsigned total).calculate (ofUnsigned power) .times =
      some (ofUnsigned (total * power)) := by
    apply ofUnsigned_calculate
    obtain ⟨-, -, product⟩ := performArithmetic_leaves (canonical total) (canonical power)
    simpa only [value, Nat.cast_mul] using product
  have plus : (ofUnsigned (total * power)).calculate (ofUnsigned part) .plus =
      some (ofUnsigned (total * power + part)) := by
    apply ofUnsigned_calculate
    obtain ⟨sum, -, -⟩ := performArithmetic_leaves (canonical (total * power)) (canonical part)
    simpa only [value, Nat.cast_add] using sum
  rw [times, Option.bind_some, plus]

end Number

section Chunks

variable {base bits : Nat}

theorem digitOr0_lt {c : UInt8} (digit : isDigitOf base c = true) : digitOr0 base c < base := by
  obtain ⟨d, value⟩ := Option.isSome_iff_exists.mp digit
  rw [digitOr0, value]
  exact digitValue_lt value

theorem positional_concat (digits : Text) (c : UInt8) :
    positional base (digits ++ [c]) = positional base digits * base + digitOr0 base c := by
  rw [positional, List.map_append, List.map_singleton, Numeral.value_concat, Nat.mul_comm]
  rfl

theorem positional_append (left right : Text) :
    positional base (left ++ right) =
      positional base left * base ^ right.length + positional base right := by
  rw [positional, List.map_append, Numeral.value_append, List.length_map]
  rfl

theorem horner_eq (digits : Text) : horner base digits = positional base digits := by
  induction digits using List.reverseRecOn with
  | nil => rfl
  | append_singleton digits c ih =>
    rw [positional_concat, ← ih, horner, List.foldl_append]
    rfl

theorem positional_lt {digits : Text} (one : 1 < base)
    (all : ∀ c ∈ digits, isDigitOf base c = true) :
    positional base digits < base ^ digits.length := by
  have small : ∀ d ∈ digits.map (digitOr0 base), d < base := by
    intro d mem
    obtain ⟨c, inside, rfl⟩ := List.mem_map.mp mem
    exact digitOr0_lt (all c inside)
  have bound := Numeral.value_lt one small
  rwa [List.length_map] at bound

/-- A shift by less than the width of the word is by what was asked for. -/
theorem shiftAmount {amount : Nat} (width : amount < 64) :
    (UInt64.ofNat amount).toNat % 64 = amount := by
  have fits : amount < 2 ^ 64 := by omega
  rw [UInt64.toNat_ofNat', Nat.mod_eq_of_lt fits, Nat.mod_eq_of_lt width]

/-- A digit behind a chunk: the shift loses no bit and the digit meets none. -/
theorem shift_or_digit {part : UInt64} {d : Nat} (width : bits < 64) (small : d < 2 ^ bits)
    (fits : part.toNat * 2 ^ bits + d < 2 ^ 64) :
    (part <<< UInt64.ofNat bits ||| UInt64.ofNat d).toNat = part.toNat * 2 ^ bits + d := by
  have digit : (UInt64.ofNat d).toNat = d := by
    rw [UInt64.toNat_ofNat', Nat.mod_eq_of_lt (by omega)]
  rw [UInt64.toNat_or, UInt64.toNat_shiftLeft, shiftAmount width, digit, Nat.shiftLeft_eq,
    Nat.mod_eq_of_lt (by omega), ← Nat.shiftLeft_eq, Nat.shiftLeft_add_eq_or_of_lt small]

/-- What a chunk of digits asks of words of 64 bits, and that it gets it. -/
structure ChunkExact (base bits : Nat) (digits : Text) : Prop where
  /-- The shift of the multiplier is less than the width of the word. -/
  amount : bits * digits.length < 64
  multiplier : ((1 : UInt64) <<< UInt64.ofNat (bits * digits.length)).toNat =
    2 ^ (bits * digits.length)
  steps : ∀ front c back, digits = front ++ c :: back →
    (chunkValue base bits front).toNat * 2 ^ bits + digitOr0 base c < 2 ^ 64 ∧
      (chunkValue base bits (front ++ [c])).toNat =
        (chunkValue base bits front).toNat * 2 ^ bits + digitOr0 base c
  value : (chunkValue base bits digits).toNat = positional base digits

theorem chunkValue_concat (digits : Text) (c : UInt8) :
    chunkValue base bits (digits ++ [c]) =
      chunkValue base bits digits <<< UInt64.ofNat bits ||| UInt64.ofNat (digitOr0 base c) := by
  rw [chunkValue, List.foldl_append]
  rfl

theorem chunkValue_room {digits : Text} {c : UInt8} (some : 0 < bits) (power : base = 2 ^ bits)
    (all : ∀ d ∈ digits ++ [c], isDigitOf base d = true)
    (fits : bits * (digits ++ [c]).length ≤ 63) :
    positional base digits * 2 ^ bits + digitOr0 base c < 2 ^ 64 := by
  have one : 1 < base := by
    rw [power]
    exact Nat.one_lt_two_pow some.ne'
  have bound := positional_lt one all
  rw [positional_concat] at bound
  have powers : base ^ (digits ++ [c]).length ≤ 2 ^ 63 := by
    rw [power, ← pow_mul]
    exact Nat.pow_le_pow_right (by omega) fits
  rw [← power]
  omega

/-- A chunk of at most 63 bits is put together without a loss. -/
theorem chunkValue_exact {digits : Text} (some : 0 < bits) (power : base = 2 ^ bits)
    (all : ∀ d ∈ digits, isDigitOf base d = true) (fits : bits * digits.length ≤ 63) :
    (chunkValue base bits digits).toNat = positional base digits := by
  induction digits using List.reverseRecOn with
  | nil => rfl
  | append_singleton digits c ih =>
    have room := chunkValue_room some power all fits
    rw [List.length_append, List.length_singleton, Nat.mul_add, Nat.mul_one] at fits
    have front := ih (fun d mem => all d (List.mem_append_left _ mem)) (by omega)
    have small : digitOr0 base c < 2 ^ bits := power ▸ digitOr0_lt (all c (by simp))
    rw [← front] at room
    rw [chunkValue_concat, shift_or_digit (by omega) small room, front, positional_concat, power]

theorem chunkExact {digits : Text} (some : 0 < bits) (power : base = 2 ^ bits)
    (all : ∀ d ∈ digits, isDigitOf base d = true) (fits : bits * digits.length ≤ 63) :
    ChunkExact base bits digits := by
  constructor
  · omega
  · have one : 1 * 2 ^ (bits * digits.length) < 2 ^ 64 := by
      rw [Nat.one_mul]
      exact Nat.pow_lt_pow_right (by omega) (by omega)
    rw [UInt64.toNat_shiftLeft, shiftAmount (by omega), UInt64.toNat_one, Nat.shiftLeft_eq, Nat.mod_eq_of_lt one,
      Nat.one_mul]
  · rintro front c back rfl
    have split : front ++ c :: back = front ++ [c] ++ back := by simp
    rw [split] at all fits
    have inside : ∀ d ∈ front ++ [c], isDigitOf base d = true :=
      fun d mem => all d (List.mem_append_left _ mem)
    have less : bits * (front ++ [c]).length ≤ 63 :=
      (Nat.mul_le_mul_left _ (by simp)).trans fits
    have short : bits * front.length ≤ 63 := (Nat.mul_le_mul_left _ (by simp)).trans less
    have before := chunkValue_exact some power
      (fun d mem => inside d (List.mem_append_left _ mem)) short
    rw [before, chunkValue_exact some power inside less, positional_concat, power]
    exact ⟨power ▸ chunkValue_room some power inside less, rfl⟩
  · exact chunkValue_exact some power all fits

/-- The loop over the chunks, from what the digits before have given. -/
theorem sumChunks_exact {chunk turns total : Nat} {digits : Text} (some : 0 < bits)
    (power : base = 2 ^ bits) (positive : 0 < chunk) (fits : bits * chunk ≤ 63)
    (all : ∀ d ∈ digits, isDigitOf base d = true) (enough : digits.length < turns) :
    sumChunks base bits chunk turns digits (Number.ofUnsigned total) =
      .ok (Number.ofUnsigned (total * base ^ digits.length + positional base digits)) := by
  induction turns generalizing digits total with
  | zero => exact absurd enough (Nat.not_lt_zero _)
  | succ turns ih =>
    rw [sumChunks]
    by_cases empty : digits.isEmpty = true
    · rw [List.isEmpty_iff.mp empty]
      simp [positional]
    · have nonempty : 0 < digits.length := by
        rw [List.length_pos_iff]
        simpa using empty
      have inChunk : (digits.take (min chunk digits.length)).length = min chunk digits.length := by
        rw [List.length_take, Nat.min_eq_left (Nat.min_le_right _ _)]
      have front : ∀ d ∈ digits.take (min chunk digits.length), isDigitOf base d = true :=
        fun d mem => all d (List.mem_of_mem_take mem)
      have part := chunkValue_exact some power front (by
        rw [inChunk]
        exact (Nat.mul_le_mul_left _ (Nat.min_le_left _ _)).trans fits)
      have rest := @ih
        (total * 2 ^ (bits * min chunk digits.length) +
          positional base (digits.take (min chunk digits.length)))
        (digits.drop (min chunk digits.length)) (fun d mem => all d (List.mem_of_mem_drop mem)) (by
          rw [List.length_drop]
          omega)
      have split := @positional_append base (digits.take (min chunk digits.length))
        (digits.drop (min chunk digits.length))
      rw [List.take_append_drop] at split
      have powers : base ^ digits.length =
          2 ^ (bits * min chunk digits.length) *
            base ^ (digits.drop (min chunk digits.length)).length := by
        rw [pow_mul, ← power, ← pow_add, List.length_drop]
        congr 1
        omega
      simp only [if_neg empty, part, Number.ofUnsigned_times_plus, rest]
      rw [split, powers]
      congr 2
      ring

end Chunks

namespace Cursor

theorem base_of_prefix {letter : UInt8} {base bits : Nat}
    (known : (letter, base, bits) ∈ integerPrefixes) :
    (if letter = ch 'x' then 16 else if letter = ch 'o' then 8 else 2) = base ∧
      (if base = 16 then 4 else if base = 8 then 3 else 1) = bits ∧
      base = 2 ^ bits ∧ 0 < bits ∧ 0 < 63 / bits := by
  simp only [integerPrefixes, List.mem_cons, List.not_mem_nil, or_false, Prod.mk.injEq] at known
  rcases known with ⟨rfl, rfl, rfl⟩ | ⟨rfl, rfl, rfl⟩ | ⟨rfl, rfl, rfl⟩
  · decide
  · decide
  · decide

/-- An integer with a prefix is read where it has a digit and every underscore of it stands
between two, it is the value of the digits by their places, and putting them together in
chunks loses nothing. -/
theorem parsePrefixedInteger_exact {letter : UInt8} {base bits : Nat}
    (known : (letter, base, bits) ∈ integerPrefixes) {c : Cursor} {more : Text}
    (here : c.rest = ch '0' :: letter :: more) :
    ((∃ result, c.parsePrefixedInteger = .ok result) ↔
      (∃ place, DigitAt base (digitRun base more) place) ∧ Separated base (digitRun base more)) ∧
    ((∃ place, DigitAt base (digitRun base more) place) → Separated base (digitRun base more) →
      ∃ n : Number, c.parsePrefixedInteger =
          .ok (.number n, c.skip (2 + (digitRun base more).length)) ∧
        n.Exactly (positional base (runDigits base (digitRun base more))) ∧
        n.isFloatingPoint = false) ∧
    ∀ digits : Text, (∀ d ∈ digits, isDigitOf base d = true) →
      sumChunks base bits (63 / bits) (digits.length + 1) digits (Number.ofUnsigned 0) =
        .ok (Number.ofUnsigned (horner base digits)) ∧
      horner base digits = positional base digits ∧
      (digits.length ≤ 63 / bits → ChunkExact base bits digits) := by
  obtain ⟨baseOf, bitsOf, power, some, positive⟩ := base_of_prefix known
  have chunks : bits * (63 / bits) ≤ 63 := Nat.mul_div_le 63 bits
  have letterAt : c.peekChar 1 = letter := by simp [peekChar, here]
  have after : (c.skip 2).rest = more := by simp [here]
  have summed (digits : Text) (all : ∀ d ∈ digits, isDigitOf base d = true) :
      sumChunks base bits (63 / bits) (digits.length + 1) digits (Number.ofUnsigned 0) =
        .ok (Number.ofUnsigned (positional base digits)) := by
    have sum := @sumChunks_exact base bits (63 / bits) (digits.length + 1) 0 digits some power
      positive chunks all (Nat.lt_succ_self _)
    rwa [Nat.zero_mul, Nat.zero_add] at sum
  have reads (digit : ∃ place, DigitAt base (digitRun base more) place)
      (separated : Separated base (digitRun base more)) :
      c.parsePrefixedInteger = .ok (.number (Number.ofUnsigned
        (positional base (runDigits base (digitRun base more)))),
          c.skip (2 + (digitRun base more).length)) := by
    have run := @digitsOf_separated base (c.skip 2) (by rwa [after]) []
    have sum := summed (runDigits base (digitRun base more))
      (fun d mem => (List.mem_filter.mp mem).2)
    have count := List.length_pos_iff.mpr (runDigits_ne_nil.mpr digit)
    rw [after, List.nil_append, skip_skip] at run
    simp only [parsePrefixedInteger, letterAt, baseOf, run, bitsOf, Nat.ne_of_gt count, sum]
    simp
  refine ⟨⟨?_, fun well => ⟨_, reads well.1 well.2⟩⟩, fun digit separated => ?_,
    fun digits all => ?_⟩
  · rintro ⟨result, read⟩
    rw [parsePrefixedInteger, letterAt, baseOf] at read
    by_cases separated : Separated base (digitRun base more)
    · have run := @digitsOf_separated base (c.skip 2) (by rwa [after]) []
      refine ⟨?_, separated⟩
      by_contra none
      rw [← runDigits_ne_nil, not_not] at none
      rw [after, List.nil_append, none] at run
      simp only [run, List.length_nil, if_true] at read
      cases read
    · obtain ⟨d, failed⟩ := @digitsOf_misplaced base (c.skip 2) (by rwa [after]) []
      simp only [failed] at read
      cases read
  · exact ⟨_, reads digit separated, Number.ofUnsigned_exactly _, Number.ofUnsigned_integral _⟩
  · refine ⟨horner_eq digits ▸ summed digits all, horner_eq digits, fun short => ?_⟩
    exact chunkExact some power all ((Nat.mul_le_mul_left bits short).trans chunks)

/-- Digits in two chunks, the last of them short. -/
theorem parsePrefixedInteger_exact_hex :
    ∃ n : Number, (start ("0xff_0000_0000_0000_0001 ".toList.map ch)).parsePrefixedInteger =
        .ok (.number n, (start ("0xff_0000_0000_0000_0001 ".toList.map ch)).skip 24) ∧
      n.Exactly (positional 16 (runDigits 16 (digitRun 16
        ("ff_0000_0000_0000_0001 ".toList.map ch)))) ∧ n.isFloatingPoint = false :=
  (@parsePrefixedInteger_exact (ch 'x') 16 4 (by decide)
    (start ("0xff_0000_0000_0000_0001 ".toList.map ch))
    ("ff_0000_0000_0000_0001 ".toList.map ch) rfl).2.1 ⟨0, ch 'f', by decide, by decide⟩
    (separatedAfter_false.mp (by decide))

end Cursor

end Dross
