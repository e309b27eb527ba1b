import Dross.Type.TimestampArithmetic

/-!
# Differences and order of timestamps

An exact difference is held in seconds and nanoseconds, brought to one sign and then to the
ticks of the clock, where it fits. What it fits is decided before anything is multiplied, and
the two parts together are rounded as the whole of them would be.
-/

namespace Dross

open MachineInt

/-- `clock_duration::max()` and `clock_duration::min()` -/
def maxTicks : Int := 9223372036854775807

def minTicks : Int := -9223372036854775808

/-- `with_the_same_sign` -/
def withTheSameSign (seconds subseconds : Int) : Option (Int × Int) :=
  if seconds < 0 ∧ subseconds > 0 then do
    let seconds ← checked 64 (seconds + 1)
    let subseconds ← checked 64 (subseconds - nanosecondsPerSecond)
    some (seconds, subseconds)
  else if seconds > 0 ∧ subseconds < 0 then do
    let seconds ← checked 64 (seconds - 1)
    let subseconds ← checked 64 (subseconds + nanosecondsPerSecond)
    some (seconds, subseconds)
  else some (seconds, subseconds)

/-- Above what the clock holds, which is compared with the room that is left. -/
def exceedsMax (whole subseconds : Int) : Option Bool :=
  if whole > 0 then (checked 64 (maxTicks - whole)).map (fun room => decide (subseconds > room))
  else some false

def exceedsMin (whole subseconds : Int) : Option Bool :=
  if whole < 0 then (checked 64 (minTicks - whole)).map (fun room => decide (subseconds < room))
  else some false

/-- `in_clock_duration` -/
def inClockDuration (tick : Timestamp.Tick) (seconds subseconds : Int) : Option (Option Int) :=
  if seconds > maxTicks.tdiv tick.perSecond ∨ seconds < minTicks.tdiv tick.perSecond then some none
  else do
    let whole ← checked 64 (seconds * tick.perSecond)
    let above ← exceedsMax whole subseconds
    let below ← exceedsMin whole subseconds
    if above || below then some none
    else (checked 64 (whole + subseconds)).map some

namespace RawTimestamp

/-- `operator<=>`, that of pairs -/
def compare (t u : RawTimestamp) : Option Ordering := do
  let here ← t.instant
  let there ← u.instant
  some ((Ord.compare here.1 there.1).then (Ord.compare here.2 there.2))

/-- `operator==` -/
def equals (t u : RawTimestamp) : Option Bool := do
  let here ← t.instant
  let there ← u.instant
  some (here == there)

def durationSince (tick : Timestamp.Tick) (t u : RawTimestamp) : Option (Option Int) := do
  let here ← t.instant
  let there ← u.instant
  let seconds ← checked 64 (here.1 - there.1)
  let subseconds ← checked 64 (here.2 - there.2)
  let (whole, rest) ← withTheSameSign seconds subseconds
  let ticks ← checked 64 (rest.tdiv tick.nanoseconds)
  inClockDuration tick whole ticks

/-- `operator-`, for two timestamps -/
def difference (tick : Timestamp.Tick) (t u : RawTimestamp) : Option Int := do
  let duration ← durationSince tick t u
  match duration with
  | some duration => some duration
  | none => do
    let order ← t.compare u
    some (if order = .lt then minTicks else maxTicks)

end RawTimestamp

/-! ## Ticks -/

section Ticks

open Timestamp

variable (tick : Tick) {seconds subseconds : Int}

theorem Timestamp.Tick.second_eq :
    (1000000000 : Int) = tick.perSecond * tick.nanoseconds := by
  have whole := congrArg (fun n : Nat => (n : Int)) tick.whole
  simp only [Nat.cast_mul, nanoseconds_cast] at whole
  rw [← whole, Int.mul_comm]

/-- The seconds alone are compared with the seconds of the ends of the clock. -/
theorem seconds_fit : (¬ (seconds > maxTicks.tdiv tick.perSecond ∨
      seconds < minTicks.tdiv tick.perSecond)) ↔
    minTicks ≤ seconds * tick.perSecond ∧ seconds * tick.perSecond ≤ maxTicks := by
  have positive : (0 : Int) < tick.perSecond := Int.natCast_pos.mpr tick.perSecond_pos
  have high : seconds ≤ maxTicks.tdiv tick.perSecond ↔ seconds * tick.perSecond ≤ maxTicks := by
    rw [Int.tdiv_eq_ediv_of_nonneg (by decide), Int.le_ediv_iff_mul_le positive]
  have low : minTicks.tdiv tick.perSecond ≤ seconds ↔ minTicks ≤ seconds * tick.perSecond := by
    have opposite : minTicks.tdiv tick.perSecond = -((-minTicks) / tick.perSecond) := by
      rw [← Int.tdiv_eq_ediv_of_nonneg (by decide), Int.neg_tdiv, neg_neg]
    rw [opposite, neg_le, Int.le_ediv_iff_mul_le positive, Int.neg_mul, neg_le_neg_iff]
  rw [← high, ← low]
  omega

/-- Two parts of one sign. -/
def SameSign (seconds subseconds : Int) : Prop :=
  0 ≤ seconds ∧ 0 ≤ subseconds ∨ seconds ≤ 0 ∧ subseconds ≤ 0

theorem exceedsMax_eq {whole : Int} (fits : whole ≤ maxTicks) :
    exceedsMax whole subseconds = some (decide (0 < whole ∧ maxTicks < whole + subseconds)) := by
  unfold exceedsMax
  unfold maxTicks at *
  by_cases above : whole > 0
  · rw [if_pos above, checked_long (by omega) (by omega), Option.map_some]
    congr 1
    rw [decide_eq_decide]
    omega
  · rw [if_neg above, decide_eq_false (fun both => above both.1)]

theorem exceedsMin_eq {whole : Int} (fits : minTicks ≤ whole) :
    exceedsMin whole subseconds = some (decide (whole < 0 ∧ whole + subseconds < minTicks)) := by
  unfold exceedsMin
  unfold minTicks at *
  by_cases below : whole < 0
  · rw [if_pos below, checked_long (by omega) (by omega), Option.map_some]
    congr 1
    rw [decide_eq_decide]
    omega
  · rw [if_neg below, decide_eq_false (fun both => below both.1)]

/-- The sum of parts of one sign is given where it fits, and what is computed on the way fits. -/
theorem inClockDuration_eq (sign : SameSign seconds subseconds)
    (small : -tick.perSecond ≤ subseconds ∧ subseconds ≤ tick.perSecond) :
    inClockDuration tick seconds subseconds =
      some (if InWidth 64 (seconds * tick.perSecond + subseconds)
        then some (seconds * tick.perSecond + subseconds) else none) := by
  obtain ⟨positive, few, -⟩ := tick.bounds
  have up (above : 0 < seconds) : 0 < seconds * tick.perSecond := by positivity
  have down (below : seconds < 0) : seconds * tick.perSecond < 0 :=
    Int.mul_neg_of_neg_of_pos below (Int.natCast_pos.mpr positive)
  have zero (none : seconds = 0) : seconds * tick.perSecond = 0 := by rw [none, Int.zero_mul]
  have fits := @seconds_fit tick seconds
  unfold SameSign at sign
  rw [inClockDuration]
  by_cases out : seconds > maxTicks.tdiv tick.perSecond ∨ seconds < minTicks.tdiv tick.perSecond
  · have wide := mt fits.mpr (not_not.mpr out)
    rw [if_pos out, if_neg]
    unfold InWidth
    unfold maxTicks minTicks at wide
    omega
  · have inside := fits.mp out
    generalize seconds * (tick.perSecond : Int) = whole at *
    rw [if_neg out, checked_long inside.1 inside.2]
    simp only [Option.bind_eq_bind, Option.bind_some, exceedsMax_eq inside.2,
      exceedsMin_eq inside.1]
    unfold maxTicks minTicks at inside ⊢
    by_cases fit : InWidth 64 (whole + subseconds)
    · rw [if_pos fit, checked_eq fit, if_neg]
      · rfl
      · unfold InWidth at fit
        rw [Bool.or_eq_true, decide_eq_true_iff, decide_eq_true_iff]
        omega
    · rw [if_neg fit, if_pos]
      unfold InWidth at fit
      rw [Bool.or_eq_true, decide_eq_true_iff, decide_eq_true_iff]
      omega

/-- A second is moved from one part to the other where their signs differ. -/
theorem withTheSameSign_eq (range : -2 ^ 47 ≤ seconds ∧ seconds ≤ 2 ^ 47)
    (small : -1000000000 < subseconds ∧ subseconds < 1000000000) :
    ∃ whole rest, withTheSameSign seconds subseconds = some (whole, rest) ∧ SameSign whole rest ∧
      whole * 1000000000 + rest = seconds * 1000000000 + subseconds ∧
        -1000000000 < rest ∧ rest < 1000000000 := by
  unfold withTheSameSign SameSign
  rw [nanoseconds_cast]
  split
  · refine ⟨seconds + 1, subseconds - 1000000000, ?_, by omega, by omega, by omega⟩
    rw [checked_long (by omega) (by omega), Option.bind_eq_bind, Option.bind_some,
      checked_long (by omega) (by omega), Option.bind_some]
  · split
    · refine ⟨seconds - 1, subseconds + 1000000000, ?_, by omega, by omega, by omega⟩
      rw [checked_long (by omega) (by omega), Option.bind_eq_bind, Option.bind_some,
        checked_long (by omega) (by omega), Option.bind_some]
    · exact ⟨_, _, rfl, by omega, rfl, small⟩

/-- Parts of one sign are rounded toward zero as their sum is. -/
theorem tdiv_parts (sign : SameSign seconds subseconds) :
    (seconds * 1000000000 + subseconds).tdiv tick.nanoseconds =
      seconds * tick.perSecond + subseconds.tdiv tick.nanoseconds := by
  have positive : (tick.nanoseconds : Int) ≠ 0 := by
    have := tick.bounds
    omega
  have up {s r : Int} (first : 0 ≤ s) (second : 0 ≤ r) :
      (s * 1000000000 + r).tdiv tick.nanoseconds =
        s * tick.perSecond + r.tdiv tick.nanoseconds := by
    rw [Int.tdiv_eq_ediv_of_nonneg (by omega), Int.tdiv_eq_ediv_of_nonneg second,
      tick.second_eq, ← Int.mul_assoc, Int.add_comm, Int.add_mul_ediv_right _ _ positive,
      Int.add_comm]
  rcases sign with ⟨first, second⟩ | ⟨first, second⟩
  · exact up first second
  · have opposite := @up (-seconds) (-subseconds) (by omega) (by omega)
    rw [Int.neg_mul, ← Int.neg_add, Int.neg_tdiv, Int.neg_tdiv, Int.neg_mul, ← Int.neg_add] at opposite
    exact Int.neg_inj.mp opposite

end Ticks

namespace Timestamp

/-- The instant in nanoseconds since 1970, exactly. -/
def exactInstant (t : Timestamp) : Int := t.instant.1 * 1000000000 + t.instant.2

theorem instant_bounds (t : Timestamp) :
    -2 ^ 40 ≤ t.instant.1 ∧ t.instant.1 ≤ 2 ^ 40 ∧ t.instant.2 < 1000000000 := by
  have bounds := t.localSeconds_bounds
  have range := t.timezone.inRange
  have small := t.subseconds_lt
  rw [nanoseconds_eq] at small
  unfold firstSecond endSecond at bounds
  unfold maxOffset at range
  refine ⟨?_, ?_, small⟩
  · rw [instant]
    omega
  · rw [instant]
    omega

/-- Pairs of seconds and nanoseconds are in the order of what they come to. -/
theorem compare_instant (t u : Timestamp) :
    (Ord.compare t.instant.1 u.instant.1).then (Ord.compare (t.instant.2 : Int) u.instant.2) =
      Ord.compare t.exactInstant u.exactInstant := by
  have here := t.instant_bounds
  have there := u.instant_bounds
  unfold exactInstant
  rcases lt_trichotomy t.instant.1 u.instant.1 with less | same | more
  · rw [compare_lt_iff_lt.mpr less, Ordering.lt_then, compare_lt_iff_lt.mpr]
    omega
  · rw [same, compare_eq_iff_eq.mpr rfl, Ordering.eq_then]
    rcases lt_trichotomy t.instant.2 u.instant.2 with less | same' | more
    · rw [compare_lt_iff_lt.mpr (Int.ofNat_lt.mpr less), compare_lt_iff_lt.mpr]
      omega
    · rw [same', compare_eq_iff_eq.mpr rfl, compare_eq_iff_eq.mpr rfl]
    · rw [compare_gt_iff_gt.mpr (Int.ofNat_lt.mpr more), compare_gt_iff_gt.mpr]
      omega
  · rw [compare_gt_iff_gt.mpr more, Ordering.gt_then, compare_gt_iff_gt.mpr]
    omega

theorem raw_compare (t u : Timestamp) :
    t.raw.compare u.raw = some (Ord.compare t.exactInstant u.exactInstant) := by
  unfold RawTimestamp.compare
  rw [t.raw_instant, u.raw_instant, Option.bind_eq_bind, Option.bind_some, Option.bind_some,
    compare_instant]

theorem exactInstant_inj {t u : Timestamp} :
    t.exactInstant = u.exactInstant ↔ t.instant = u.instant := by
  have here := t.instant_bounds
  have there := u.instant_bounds
  rw [Prod.ext_iff]
  unfold exactInstant
  omega

theorem raw_equals (t u : Timestamp) :
    t.raw.equals u.raw = some (decide (t.exactInstant = u.exactInstant)) := by
  unfold RawTimestamp.equals
  rw [t.raw_instant, u.raw_instant, Option.bind_eq_bind, Option.bind_some, Option.bind_some]
  congr 1
  rw [Bool.eq_iff_iff, beq_iff_eq, decide_eq_true_iff, exactInstant_inj]
  simp [Prod.ext_iff]

/-- The difference of two instants, in whole ticks toward zero. -/
def ticksSince (tick : Tick) (t u : Timestamp) : Int :=
  (t.exactInstant - u.exactInstant).tdiv tick.nanoseconds

theorem tdiv_small (tick : Tick) {rest : Int}
    (small : -1000000000 < rest ∧ rest < 1000000000) :
    -(tick.perSecond : Int) ≤ rest.tdiv tick.nanoseconds ∧
      rest.tdiv tick.nanoseconds ≤ tick.perSecond := by
  have positive : (0 : Int) < tick.nanoseconds := by
    have := tick.bounds
    omega
  have below {r : Int} (nonneg : 0 ≤ r) (less : r < 1000000000) :
      0 ≤ r.tdiv tick.nanoseconds ∧ r.tdiv tick.nanoseconds ≤ tick.perSecond := by
    rw [Int.tdiv_eq_ediv_of_nonneg nonneg]
    refine ⟨Int.ediv_nonneg nonneg positive.le, ?_⟩
    apply Int.le_of_lt
    rwa [Int.ediv_lt_iff_lt_mul positive, ← tick.second_eq]
  rcases le_or_gt 0 rest with nonneg | negative
  · have bounds := below nonneg small.2
    omega
  · have bounds := below (show 0 ≤ -rest by omega) (by omega)
    rw [Int.neg_tdiv] at bounds
    omega

theorem sameSign_tdiv {tick : Tick} {seconds subseconds : Int}
    (sign : SameSign seconds subseconds) :
    SameSign seconds (subseconds.tdiv tick.nanoseconds) := by
  have positive : (0 : Int) ≤ tick.nanoseconds := Int.natCast_nonneg _
  rcases sign with ⟨first, second⟩ | ⟨first, second⟩
  · exact Or.inl ⟨first, Int.tdiv_nonneg second positive⟩
  · refine Or.inr ⟨first, ?_⟩
    have opposite := Int.tdiv_nonneg (show 0 ≤ -subseconds by omega) positive
    rw [Int.neg_tdiv] at opposite
    omega

/-- A difference is exact toward zero, or does not fit. -/
theorem raw_durationSince (tick : Tick) (t u : Timestamp) :
    t.raw.durationSince tick u.raw =
      some (if InWidth 64 (ticksSince tick t u) then some (ticksSince tick t u) else none) := by
  have here := t.instant_bounds
  have there := u.instant_bounds
  obtain ⟨positive, few, -⟩ := tick.bounds
  obtain ⟨whole, rest, moved, sign, sum, small⟩ :=
    @withTheSameSign_eq (t.instant.1 - u.instant.1) ((t.instant.2 : Int) - u.instant.2)
      (by omega) (by omega)
  have ticks := tdiv_small tick small
  have exact_ : ticksSince tick t u = whole * tick.perSecond + rest.tdiv tick.nanoseconds := by
    rw [← tdiv_parts tick sign, sum, ticksSince, exactInstant, exactInstant]
    congr 1
    omega
  unfold RawTimestamp.durationSince
  rw [t.raw_instant, u.raw_instant]
  simp only [Option.bind_eq_bind, Option.bind_some]
  rw [checked_long (by omega) (by omega), Option.bind_some, checked_long (by omega) (by omega),
    Option.bind_some, moved]
  simp only [Option.bind_some, checked_long (show -9223372036854775808 ≤ _ by omega)
    (show rest.tdiv tick.nanoseconds ≤ _ by omega)]
  rw [inClockDuration_eq tick (sameSign_tdiv sign) ticks, exact_]

theorem durationSince_some_iff {tick : Tick} {t u : Timestamp} {d : Int} :
    t.raw.durationSince tick u.raw = some (some d) ↔
      InWidth 64 (ticksSince tick t u) ∧ d = ticksSince tick t u := by
  rw [raw_durationSince]
  split
  · rename_i fits
    simp [fits, eq_comm]
  · rename_i wide
    simp [wide]

theorem durationSince_none_iff {tick : Tick} {t u : Timestamp} :
    t.raw.durationSince tick u.raw = some none ↔ ¬ InWidth 64 (ticksSince tick t u) := by
  rw [raw_durationSince]
  split
  · rename_i fits
    simp [fits]
  · rename_i wide
    simp [wide]

/-- Instants whose difference does not fit are apart. -/
theorem apart_of_wide {tick : Tick} {t u : Timestamp}
    (wide : ¬ InWidth 64 (ticksSince tick t u)) : t.exactInstant ≠ u.exactInstant := by
  intro same
  refine wide ?_
  rw [ticksSince, same, Int.sub_self, Int.zero_tdiv]
  decide

theorem raw_difference (tick : Tick) (t u : Timestamp) :
    t.raw.difference tick u.raw = some (if InWidth 64 (ticksSince tick t u) then ticksSince tick t u
      else if t.exactInstant < u.exactInstant then minTicks else maxTicks) := by
  unfold RawTimestamp.difference
  rw [raw_durationSince, raw_compare, Option.bind_eq_bind, Option.bind_some]
  by_cases fits : InWidth 64 (ticksSince tick t u)
  · rw [if_pos fits, if_pos fits]
  · rw [if_neg fits, if_neg fits]
    exact congrArg some (if_congr compare_lt_iff_lt rfl rfl)

theorem ticksSince_swap (tick : Tick) (t u : Timestamp) :
    ticksSince tick u t = -ticksSince tick t u := by
  rw [ticksSince, ticksSince, ← Int.neg_tdiv, Int.neg_sub]

/-- Timestamps are in the total order of their instants. Their difference is exact toward zero
where the clock holds it, and at the end of the clock on its side where not, and nothing
overflows on the way. -/
theorem differences_exact (tick : Tick) (a b c : Timestamp) :
    (∃ order : Ordering, a.raw.compare b.raw = some order ∧
      b.raw.compare a.raw = some order.swap ∧
      (order = .lt ↔ a.exactInstant < b.exactInstant) ∧
      (order = .eq ↔ a.exactInstant = b.exactInstant) ∧
      a.raw.equals b.raw = some (decide (order = .eq))) ∧
    (a.raw.compare b.raw ≠ some .gt → b.raw.compare c.raw ≠ some .gt →
      a.raw.compare c.raw ≠ some .gt) ∧
    (∃ duration, a.raw.durationSince tick b.raw = some duration ∧
      (duration.isSome ↔
        InWidth 64 ((a.exactInstant - b.exactInstant).tdiv tick.nanoseconds)) ∧
      ∀ d ∈ duration, d = (a.exactInstant - b.exactInstant).tdiv tick.nanoseconds) ∧
    (∀ d e, a.raw.durationSince tick b.raw = some (some d) →
      b.raw.durationSince tick a.raw = some (some e) → e = -d) ∧
    ∃ difference, a.raw.difference tick b.raw = some difference ∧
      (∀ d, a.raw.durationSince tick b.raw = some (some d) → difference = d) ∧
      (a.raw.durationSince tick b.raw = some none →
        (a.raw.compare b.raw = some .gt ∧ difference = maxTicks) ∨
          (a.raw.compare b.raw = some .lt ∧ difference = minTicks)) := by
  refine ⟨⟨_, raw_compare a b, ?_, compare_lt_iff_lt, compare_eq_iff_eq, ?_⟩, ?_,
    ⟨_, raw_durationSince tick a b, ?_, ?_⟩, ?_, ⟨_, raw_difference tick a b, ?_, ?_⟩⟩
  · rw [raw_compare]
    exact congrArg some Std.OrientedCmp.eq_swap
  · rw [raw_equals]
    simp only [compare_eq_iff_eq]
  · simp only [raw_compare, ne_eq, Option.some.injEq, compare_gt_iff_gt, not_lt]
    exact le_trans
  · rw [ticksSince]
    split <;> simp_all
  · intro d mem
    have read := (raw_durationSince tick a b).trans (congrArg some mem)
    exact (durationSince_some_iff.mp read).2
  · intro d e forth back
    rw [(durationSince_some_iff.mp forth).2, (durationSince_some_iff.mp back).2, ticksSince_swap]
  · intro d read
    obtain ⟨fits, rfl⟩ := durationSince_some_iff.mp read
    rw [if_pos fits]
  · intro none
    have wide := durationSince_none_iff.mp none
    rw [if_neg wide, raw_compare, Option.some.injEq, Option.some.injEq, compare_gt_iff_gt,
      compare_lt_iff_lt]
    rcases lt_or_gt_of_ne (apart_of_wide wide) with less | more
    · exact Or.inr ⟨less, if_pos less⟩
    · exact Or.inl ⟨more, if_neg more.le.not_gt⟩

end Timestamp

end Dross
