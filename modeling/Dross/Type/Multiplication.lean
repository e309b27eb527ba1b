import Dross.Type.Addition

/-!
# Multiplication

The rows of the product are added in place. While a row is written the
character in front of it may pass '9', up to 18, and is brought back when its
own turn comes; `room` says how far each character may be at every moment.
-/

namespace Dross

/-- How large the digit at a place may be once the row of `i` is written down to `j`. -/
def room (i j place : Nat) : Nat :=
  if place < i then 0
  else if place = i then if j = 0 then 9 else 0
  else if place = i + j then 18
  else 9

/-- The characters of a product that is being written. -/
def Fits (bound : Nat → Nat) (result : Text) : Prop :=
  ∀ place c, result[place]? = some c → 48 ≤ c.toNat ∧ digit c ≤ bound place

theorem Fits.mono {bound more : Nat → Nat} {result : Text} (h : Fits bound result)
    (le : ∀ place, bound place ≤ more place) : Fits more result :=
  fun place c at' => ⟨(h place c at').1, Nat.le_trans (h place c at').2 (le place)⟩

theorem Fits.allDigits {bound : Nat → Nat} {result : Text} (h : Fits bound result)
    (nine : ∀ place, bound place ≤ 9) : AllDigits result := by
  intro c mem
  obtain ⟨place, at'⟩ := List.mem_iff_getElem?.mp mem
  obtain ⟨low, high⟩ := h place c at'
  have := nine place
  unfold digit at high
  rw [isDigit_iff]
  omega

theorem room_next_row (i place : Nat) {j : Nat} (positive : 0 < j) :
    room (i + 1) 0 place ≤ room i j place := by
  unfold room
  split_ifs <;> omega

/-- The last character written has its room, and the one in front is a plain digit, or
not there yet where the row ends. -/
theorem room_last (i j : Nat) : room i (j + 1) (i + j + 1) ≤ 18 := by
  unfold room
  split_ifs <;> omega

theorem room_front (i j : Nat) : room i (j + 1) (i + j) ≤ if j = 0 then 0 else 9 := by
  unfold room
  split_ifs <;> first | contradiction | omega

theorem room_carried {i j d carried : Nat} (high : d ≤ if j = 0 then 0 else 9)
    (small : carried ≤ 9) : d + carried ≤ room i j (i + j) := by
  unfold room
  split_ifs at high ⊢ <;> omega

theorem room_other {i j place : Nat} (second : i + j + 1 ≠ place) :
    room i (j + 1) place ≤ room i j place := by
  unfold room
  split_ifs <;> first | contradiction | omega

theorem room_zero (place : Nat) : room 0 0 place ≤ 9 := by
  unfold room
  split_ifs <;> omega

theorem natural_set {result : Text} {place : Nat} (inside : place < result.length) (c : UInt8) :
    natural (result.set place c) +
        digit (result.getD place 0) * 10 ^ (result.length - (place + 1)) =
      natural result + digit c * 10 ^ (result.length - (place + 1)) := by
  have set := @Numeral.value_set 10 (result.map digit) place (by simpa using inside) (digit c)
  have at' : (result.map digit).getD place 0 = digit (result.getD place 0) := by
    simp [inside]
  rw [at', List.length_map, ← List.map_set] at set
  exact set

theorem Fits.getD {bound : Nat → Nat} {result : Text} (h : Fits bound result) {place : Nat}
    (inside : place < result.length) :
    48 ≤ (result.getD place 0).toNat ∧ digit (result.getD place 0) ≤ bound place := by
  apply h place
  simp [inside]

theorem AllDigits.getD {t : Text} (h : AllDigits t) {place : Nat} (inside : place < t.length) :
    isDigit (t.getD place 0) = true := by
  apply h
  simp [inside]

theorem multiplyDigits_length (a b : Text) (i j : Nat) (result : Text) :
    (multiplyDigits a b i j result).length = result.length := by
  simp [multiplyDigits]

section Row

variable {a b : Text} {i j : Nat} {result : Text}

/-- A character takes a carry without wrapping. -/
theorem toNat_carried {c : UInt8} {carry : Nat} (digits : digit c ≤ 9) (small : carry ≤ 9) :
    (c + UInt8.ofNat carry).toNat = c.toNat + carry := by
  unfold digit at digits
  rw [UInt8.toNat_add, UInt8.toNat_ofNat']
  omega

theorem digit_carried {c : UInt8} {carry : Nat} (low : 48 ≤ c.toNat) (digits : digit c ≤ 9)
    (small : carry ≤ 9) : digit (c + UInt8.ofNat carry) = digit c + carry := by
  unfold digit
  rw [toNat_carried digits small]
  omega

theorem getD_front (c : UInt8) :
    (result.set (i + j + 1) c).getD (i + j) 0 = result.getD (i + j) 0 := by
  simp [List.getD_eq_getElem?_getD]

/-- The character in front is a digit still, since its own turn has not come. -/
theorem Fits.front (fits : Fits (room i (j + 1)) result) (inside : i + j < result.length) :
    48 ≤ (result.getD (i + j) 0).toNat ∧ digit (result.getD (i + j) 0) ≤ 9 := by
  obtain ⟨low, high⟩ := fits.getD inside
  have front := Nat.le_trans high (room_front i j)
  refine ⟨low, ?_⟩
  split at front <;> omega

/-- The low digit of a sum written at its place, and its carry added to the character in
front, keep the characters in their room. -/
theorem Fits.written (fits : Fits (room i (j + 1)) result) (inside : i + j + 1 < result.length)
    {sum : Nat} (carried : sum / 10 ≤ 9) :
    Fits (room i j) ((result.set (i + j + 1) (digitChar (sum % 10))).set (i + j)
      (result.getD (i + j) 0 + UInt8.ofNat (sum / 10))) := by
  have small : sum % 10 < 10 := Nat.mod_lt _ (by omega)
  have place1 : i + j < result.length := by omega
  obtain ⟨low, nine⟩ := fits.front place1
  have front := Nat.le_trans (fits.getD place1).2 (room_front i j)
  intro place c at'
  rw [List.getElem?_set] at at'
  by_cases first : i + j = place
  · subst first
    rw [if_pos rfl, if_pos (by simpa using place1), Option.some.injEq] at at'
    subst at'
    rw [toNat_carried nine carried, digit_carried low nine carried]
    exact ⟨by omega, room_carried front carried⟩
  rw [if_neg first, List.getElem?_set] at at'
  by_cases second : i + j + 1 = place
  · subst second
    rw [if_pos rfl, if_pos inside, Option.some.injEq] at at'
    subst at'
    rw [digit_digitChar small, digitChar_toNat small]
    refine ⟨by omega, ?_⟩
    unfold room
    split_ifs <;> omega
  · rw [if_neg second] at at'
    exact ⟨(fits place c at').1, Nat.le_trans (fits place c at').2 (room_other second)⟩

/-- The value then grows by what the sum has on top of the digit it replaces. -/
theorem natural_written (inside : i + j + 1 < result.length)
    (low : 48 ≤ (result.getD (i + j) 0).toNat) (nine : digit (result.getD (i + j) 0) ≤ 9)
    {mul sum : Nat} (added : mul + digit (result.getD (i + j + 1) 0) = sum)
    (carried : sum / 10 ≤ 9) :
    natural ((result.set (i + j + 1) (digitChar (sum % 10))).set (i + j)
        (result.getD (i + j) 0 + UInt8.ofNat (sum / 10))) =
      natural result + mul * 10 ^ (result.length - (i + j + 2)) := by
  have last := natural_set inside (digitChar (sum % 10))
  have next := @natural_set (result.set (i + j + 1) (digitChar (sum % 10))) (i + j)
    (by simp; omega) (result.getD (i + j) 0 + UInt8.ofNat (sum / 10))
  rw [getD_front, digit_carried low nine carried, List.length_set] at next
  rw [digit_digitChar (Nat.mod_lt _ (by omega))] at last
  obtain ⟨places, weight⟩ : ∃ places, result.length = i + j + 2 + places :=
    ⟨_, (Nat.add_sub_cancel' (by omega)).symm⟩
  rw [show result.length - (i + j + 1 + 1) = places by omega] at last
  rw [show result.length - (i + j + 1) = places + 1 by omega, pow_succ] at next
  rw [show result.length - (i + j + 2) = places by omega]
  generalize natural (List.set _ (i + j) _) = after at next ⊢
  have split : mul + digit (result.getD (i + j + 1) 0) = 10 * (sum / 10) + sum % 10 := by
    rw [added, Nat.div_add_mod]
  generalize sum / 10 = high at next split
  generalize sum % 10 = low at last next split
  have weighted := congrArg (· * 10 ^ places) split
  linarith

/-- One product of digits: the value grows by it, and what it carries fits. -/
theorem multiplyDigits_step (ha : AllDigits a) (hb : AllDigits b) (insideA : i < a.length)
    (insideB : j < b.length) (length : result.length = a.length + b.length)
    (fits : Fits (room i (j + 1)) result) :
    Fits (room i j) (multiplyDigits a b i j result) ∧
      natural (multiplyDigits a b i j result) = natural result +
        digit (a.getD i 0) * digit (b.getD j 0) * 10 ^ (result.length - (i + j + 2)) := by
  have digitA := digit_lt (ha.getD insideA)
  have digitB := digit_lt (hb.getD insideB)
  have inside : i + j + 1 < result.length := by omega
  obtain ⟨low, nine⟩ := fits.front (by omega)
  have last := Nat.le_trans (fits.getD inside).2 (room_last i j)
  have product : digit (a.getD i 0) * digit (b.getD j 0) ≤ 9 * 9 :=
    Nat.mul_le_mul (by omega) (by omega)
  have carried : (digit (a.getD i 0) * digit (b.getD j 0) +
      digit (result.getD (i + j + 1) 0)) / 10 ≤ 9 := by
    omega
  unfold multiplyDigits
  simp only [getD_front]
  exact ⟨fits.written inside carried, natural_written inside low nine rfl carried⟩

theorem natural_take_succ {t : Text} {j : Nat} (inside : j < t.length) :
    natural (t.take (j + 1)) = 10 * natural (t.take j) + digit (t.getD j 0) := by
  rw [← List.take_concat_get' t j inside, natural_concat]
  simp [inside]

theorem multiplyRow_length (a b : Text) (i j : Nat) (result : Text) :
    (multiplyRow a b i j result).length = result.length := by
  induction j generalizing result with
  | zero => rfl
  | succ j ih => rw [multiplyRow, ih, multiplyDigits_length]

/-- One row: the value grows by its digit times the digits of `b`. -/
theorem multiplyRow_sum (ha : AllDigits a) (hb : AllDigits b) (insideA : i < a.length)
    (insideB : j ≤ b.length) (length : result.length = a.length + b.length)
    (fits : Fits (room i j) result) :
    Fits (room i 0) (multiplyRow a b i j result) ∧
      natural (multiplyRow a b i j result) = natural result +
        digit (a.getD i 0) * natural (b.take j) * 10 ^ (result.length - (i + j + 1)) := by
  induction j generalizing result with
  | zero => exact ⟨fits, by simp [multiplyRow]⟩
  | succ j ih =>
    obtain ⟨fits, value⟩ := multiplyDigits_step ha hb insideA insideB length fits
    have sameLength := multiplyDigits_length a b i j result
    obtain ⟨fits, row⟩ := ih (by omega) (by omega) fits
    refine ⟨fits, ?_⟩
    rw [multiplyRow, row, value, sameLength, natural_take_succ insideB,
      show result.length - (i + (j + 1) + 1) = result.length - (i + j + 2) by omega,
      show result.length - (i + j + 1) = result.length - (i + j + 2) + 1 by omega, pow_succ]
    ring

/-- All rows from one of them down. -/
theorem multiplyRows_product (ha : AllDigits a) (hb : AllDigits b) (nonempty : b ≠ [])
    (inside : i ≤ a.length) (length : result.length = a.length + b.length)
    (fits : Fits (room i 0) result) :
    Fits (room 0 0) (multiplyRows a b i result) ∧
      (multiplyRows a b i result).length = result.length ∧
      natural (multiplyRows a b i result) = natural result +
        natural (a.take i) * natural b * 10 ^ (a.length - i) := by
  induction i generalizing result with
  | zero => exact ⟨fits, rfl, by simp [multiplyRows]⟩
  | succ i ih =>
    have start := fits.mono (fun place => room_next_row i place (List.length_pos_iff.mpr nonempty))
    obtain ⟨fits, row⟩ := multiplyRow_sum ha hb inside (Nat.le_refl _) length start
    have sameLength := multiplyRow_length a b i b.length result
    obtain ⟨fits, lengths, rows⟩ := ih (by omega) (by omega) fits
    refine ⟨fits, by rw [multiplyRows, lengths, sameLength], ?_⟩
    rw [multiplyRows, rows, row, natural_take_succ inside, List.take_length,
      show result.length - (i + b.length + 1) = a.length - (i + 1) by omega,
      show a.length - i = a.length - (i + 1) + 1 by omega, pow_succ]
    ring

end Row

/-! ## The product as text -/

theorem natural_trimZeros (t : Text) : natural (trimZeros t) = natural t := by
  induction t using trimZeros.induct with
  | case1 => rfl
  | case2 c => rfl
  | case3 c rest nonempty zero ih =>
    rw [trimZeros, if_pos zero, ih, natural_cons, beq_iff_eq.mp zero]
    · change _ = 0 * _ + _
      omega
    · exact nonempty
  | case4 c rest nonempty nonzero =>
    rw [trimZeros, if_neg nonzero]
    exact nonempty

theorem trimZeros_digits {t : Text} (h : AllDigits t) : AllDigits (trimZeros t) := by
  induction t using trimZeros.induct with
  | case1 => exact h
  | case2 c => exact h
  | case3 c rest nonempty zero ih =>
    rw [trimZeros, if_pos zero]
    · exact ih (AllDigits.cons.mp h).2
    · exact nonempty
  | case4 c rest nonempty nonzero =>
    rw [trimZeros, if_neg nonzero]
    · exact h
    · exact nonempty

theorem trimZeros_trimmed {t : Text} (nonempty : t ≠ []) : Trimmed (trimZeros t) := by
  induction t using trimZeros.induct with
  | case1 => exact absurd rfl nonempty
  | case2 c =>
    refine ⟨nonempty, fun first => ?_⟩
    rw [trimZeros] at first ⊢
    rw [Option.some.inj first]
  | case3 c rest more zero ih =>
    rw [trimZeros, if_pos zero]
    · refine ih ?_
      rintro rfl
      exact more rfl
    · exact more
  | case4 c rest more nonzero =>
    rw [trimZeros, if_neg nonzero]
    · refine ⟨by simp, fun first => ?_⟩
      rw [Option.some.inj first] at nonzero
      simp at nonzero
    · exact more

theorem insertPoint_writes {result : Text} (h : AllDigits result) (nonempty : result ≠ [])
    (places : Nat) :
    Writes (canonicalText (insertPoint result places)) (natural result / 10 ^ places) := by
  unfold insertPoint
  split
  · rename_i positive
    simp only
    generalize hp : (if result.length ≤ places then
      List.replicate (places - result.length + 1) (ch '0') ++ result else result) = full
    have digits : AllDigits full := by
      rw [← hp]
      split
      · exact AllDigits.append.mpr ⟨AllDigits.replicate _, h⟩
      · exact h
    have value : natural full = natural result := by
      rw [← hp]
      split
      · rw [natural_append, natural_zeros]
        omega
      · rfl
    have longer : places < full.length := by
      rw [← hp]
      split
      · rw [List.length_append, List.length_replicate]
        omega
      · omega
    rw [if_neg (by omega), ← value]
    have split := List.take_append_drop (full.length - places) full
    have size : (full.drop (full.length - places)).length = places := by
      rw [List.length_drop]
      omega
    have point : (full.drop (full.length - places)).isEmpty = false := by
      rw [List.isEmpty_eq_false_iff, ← List.length_pos_iff]
      omega
    have parts := digits
    rw [← split, AllDigits.append] at parts
    have written := writes_joined parts.1 parts.2 (List.length_pos_iff.mp (by
      rw [List.length_take]
      omega))
    rw [joined, point, decimal, split, size] at written
    simpa using written
  · rename_i zero
    have written := writes_joined h AllDigits.nil nonempty
    rw [decimal_nil] at written
    have zero : places = 0 := by omega
    simpa [joined, zero] using written

theorem multiplyPositiveNumbers_writes {a b : Text} {u v : ℚ} (ha : Writes a u)
    (hb : Writes b v) : Writes (multiplyPositiveNumbers a b) (u * v) := by
  obtain ⟨i, f, pa, rfl, rfl⟩ := ha
  obtain ⟨j, g, pb, rfl, rfl⟩ := hb
  unfold multiplyPositiveNumbers
  simp only [numberParts_joined pa.integerDigits pa.trimmed.1,
    numberParts_joined pb.integerDigits pb.trimmed.1]
  have zero : natural [ch '0'] = 0 := by decide
  split
  · rename_i either
    have product : decimal i f * decimal j g = 0 := by
      simp only [Bool.or_eq_true, decide_eq_true_eq] at either
      rcases either with either | either
      · simp [decimal, either, zero]
      · simp [decimal, either, zero]
    rw [product]
    exact Writes.zero
  · have digitsA : AllDigits (i ++ f) := AllDigits.append.mpr ⟨pa.integerDigits, pa.fractionDigits⟩
    have digitsB : AllDigits (j ++ g) := AllDigits.append.mpr ⟨pb.integerDigits, pb.fractionDigits⟩
    generalize hr : List.replicate ((i ++ f).length + (j ++ g).length) (ch '0') = zeros
    have blank : Fits (room (i ++ f).length 0) zeros := by
      intro place c at'
      have same : c = ch '0' := by
        rw [← hr] at at'
        exact (List.mem_replicate.mp (List.mem_of_getElem? at')).2
      rw [same]
      exact ⟨by decide, Nat.zero_le _⟩
    have length : zeros.length = (i ++ f).length + (j ++ g).length := by
      rw [← hr, List.length_replicate]
    obtain ⟨fits, size, product⟩ := multiplyRows_product digitsA digitsB
      (by simp [pb.trimmed.1]) (Nat.le_refl _) length blank
    have digits := fits.allDigits room_zero
    have nonempty : multiplyRows (i ++ f) (j ++ g) (i ++ f).length zeros ≠ [] := by
      have := List.length_pos_iff.mpr pa.trimmed.1
      rw [List.length_append] at length
      exact List.length_pos_iff.mp (by omega)
    have written := insertPoint_writes (trimZeros_digits digits) (trimZeros_trimmed nonempty).1
      (f.length + g.length)
    have value : decimal i f * decimal j g =
        natural (trimZeros (multiplyRows (i ++ f) (j ++ g) (i ++ f).length zeros)) /
          10 ^ (f.length + g.length) := by
      rw [natural_trimZeros, product, ← hr, natural_zeros, List.take_length, decimal, decimal,
        pow_add]
      push_cast
      field_simp
      simp
    rw [value]
    exact written

end Dross
