import Mathlib.Data.Nat.Basic
import Mathlib.Tactic.Common

/-!
# Gregorian dates

Day counts start at the first of January of the year 0. A date is found by its
year first and then by passing over whole months.
-/

namespace Calendar

def isLeap (year : Nat) : Bool := year % 4 == 0 && (year % 100 != 0 || year % 400 == 0)

def lastDay (year month : Nat) : Nat :=
  if month = 2 then if isLeap year then 29 else 28
  else if month = 4 ∨ month = 6 ∨ month = 9 ∨ month = 11 then 30
  else 31

theorem lastDay_le (year month : Nat) : lastDay year month ≤ 31 := by
  unfold lastDay
  split_ifs <;> omega

/-- `year_month_day::ok()` -/
def Exists (year month day : Nat) : Prop :=
  1 ≤ month ∧ month ≤ 12 ∧ 1 ≤ day ∧ day ≤ lastDay year month

instance (year month day : Nat) : Decidable (Exists year month day) :=
  inferInstanceAs (Decidable (1 ≤ month ∧ month ≤ 12 ∧ 1 ≤ day ∧ day ≤ lastDay year month))

def daysBeforeYear (year : Nat) : Nat :=
  365 * year + (year + 3) / 4 + (year + 399) / 400 - (year + 99) / 100

/-- The days of the months from `month` on, `count` of them. -/
def daysOfMonths (year : Nat) : Nat → Nat → Nat
  | _, 0 => 0
  | month, count + 1 => lastDay year month + daysOfMonths year (month + 1) count

def dayNumber (year month day : Nat) : Nat :=
  daysBeforeYear year + daysOfMonths year 1 (month - 1) + (day - 1)

/-- The average year is off by less than one. -/
def yearOf (days : Nat) : Nat :=
  let guess := days * 400 / 146097
  if daysBeforeYear (guess + 1) ≤ days then guess + 1
  else if days < daysBeforeYear guess then guess - 1
  else guess

/-- The month and the day, `rest` days after `month` began. -/
def monthAndDay (year : Nat) : Nat → Nat → Nat → Nat × Nat
  | month, 0, rest => (month, rest + 1)
  | month, later + 1, rest =>
    if rest < lastDay year month then (month, rest + 1)
    else monthAndDay year (month + 1) later (rest - lastDay year month)

def dateOf (days : Nat) : Nat × Nat × Nat :=
  let year := yearOf days
  (year, monthAndDay year 1 11 (days - daysBeforeYear year))

/-- Four hundred years have 146097 days. -/
theorem daysBeforeYear_bounds (year : Nat) :
    146097 * year ≤ 400 * daysBeforeYear year + 400 ∧
      400 * daysBeforeYear year ≤ 146097 * year + 700 := by
  have fours : year ≤ (year + 3) / 4 * 4 ∧ (year + 3) / 4 * 4 ≤ year + 3 := by omega
  have hundreds : year ≤ (year + 99) / 100 * 100 ∧ (year + 99) / 100 * 100 ≤ year + 99 := by omega
  have cycles : year ≤ (year + 399) / 400 * 400 ∧ (year + 399) / 400 * 400 ≤ year + 399 := by omega
  unfold daysBeforeYear
  generalize (year + 3) / 4 = q at *
  generalize (year + 99) / 100 = r at *
  generalize (year + 399) / 400 = s at *
  omega

theorem yearOf_spec (days : Nat) :
    daysBeforeYear (yearOf days) ≤ days ∧ days < daysBeforeYear (yearOf days + 1) := by
  have near : days * 400 / 146097 * 146097 ≤ days * 400 ∧
      days * 400 < (days * 400 / 146097 + 1) * 146097 := by omega
  unfold yearOf
  generalize days * 400 / 146097 = guess at near
  by_cases later : daysBeforeYear (guess + 1) ≤ days
  · have next := daysBeforeYear_bounds (guess + 1 + 1)
    rw [if_pos later]
    omega
  · by_cases sooner : days < daysBeforeYear guess
    · have before := daysBeforeYear_bounds (guess - 1)
      have positive : guess ≠ 0 := by
        rintro rfl
        exact absurd sooner (Nat.not_lt_zero _)
      rw [if_neg later, if_pos sooner, Nat.sub_add_cancel (Nat.pos_of_ne_zero positive)]
      omega
    · rw [if_neg later, if_neg sooner]
      omega

theorem daysBeforeYear_mono {early late : Nat} (h : early ≤ late) :
    daysBeforeYear early ≤ daysBeforeYear late := by
  have fromEarly := daysBeforeYear_bounds early
  have toLate := daysBeforeYear_bounds late
  rcases Nat.eq_or_lt_of_le h with rfl | earlier
  · exact Nat.le_refl _
  · omega

theorem yearOf_lt {days bound : Nat} (h : days < daysBeforeYear bound) : yearOf days < bound := by
  by_contra late
  have := daysBeforeYear_mono (Nat.le_of_not_lt late)
  have := (yearOf_spec days).1
  omega

theorem daysOfMonths_year (year : Nat) :
    daysOfMonths year 1 12 = if isLeap year then 366 else 365 := by
  cases leap : isLeap year <;> simp [daysOfMonths, lastDay, leap]

theorem isLeap_iff {year : Nat} :
    isLeap year = true ↔ year % 4 = 0 ∧ (year % 100 ≠ 0 ∨ year % 400 = 0) := by
  simp [isLeap]

theorem daysOfYear (year : Nat) :
    daysBeforeYear (year + 1) = daysBeforeYear year + daysOfMonths year 1 12 := by
  have fours : (year + 1 + 3) / 4 = (year + 3) / 4 + if year % 4 = 0 then 1 else 0 := by
    split <;> omega
  have hundreds : (year + 1 + 99) / 100 = (year + 99) / 100 + if year % 100 = 0 then 1 else 0 := by
    split <;> omega
  have cycles : (year + 1 + 399) / 400 = (year + 399) / 400 + if year % 400 = 0 then 1 else 0 := by
    split <;> omega
  have fewer : (year + 99) / 100 ≤ (year + 3) / 4 := by omega
  have cycle : year % 400 = 0 → year % 100 = 0 := by omega
  have hundred : year % 100 = 0 → year % 4 = 0 := by omega
  rw [daysOfMonths_year]
  unfold daysBeforeYear
  rw [fours, hundreds, cycles]
  clear fours hundreds cycles
  by_cases leap : isLeap year = true
  · rw [if_pos leap]
    rw [isLeap_iff] at leap
    split_ifs <;> omega
  · rw [if_neg leap]
    rw [isLeap_iff] at leap
    split_ifs <;> omega

theorem monthAndDay_exists {year month later rest : Nat} (first : 1 ≤ month)
    (last : month + later = 12) (inside : rest < daysOfMonths year month (later + 1)) :
    Exists year (monthAndDay year month later rest).1 (monthAndDay year month later rest).2 := by
  induction later generalizing month rest with
  | zero =>
    simp only [daysOfMonths, Nat.add_zero] at inside
    exact ⟨first, by simp only [monthAndDay]; omega, by simp [monthAndDay],
      by simp only [monthAndDay]; omega⟩
  | succ later ih =>
    rw [daysOfMonths] at inside
    unfold monthAndDay
    split
    · exact ⟨first, by show month ≤ 12; omega, by show 1 ≤ rest + 1; omega,
        by show rest + 1 ≤ lastDay year month; omega⟩
    · exact ih (by omega) (by omega) (by omega)

/-- A day before a year begins has a date that exists, in an earlier year. -/
theorem dateOf_exists {days bound : Nat} (h : days < daysBeforeYear bound) :
    (dateOf days).1 < bound ∧ Exists (dateOf days).1 (dateOf days).2.1 (dateOf days).2.2 := by
  have spec := yearOf_spec days
  have length := daysOfYear (yearOf days)
  have inside : days - daysBeforeYear (yearOf days) < daysOfMonths (yearOf days) 1 12 := by
    omega
  exact ⟨yearOf_lt h, monthAndDay_exists (by omega) (by omega) inside⟩

/-! ## Dates and day counts -/

theorem daysOfMonths_add (year month early late : Nat) :
    daysOfMonths year month (early + late) =
      daysOfMonths year month early + daysOfMonths year (month + early) late := by
  induction early generalizing month with
  | zero => simp [daysOfMonths]
  | succ early ih =>
    rw [Nat.succ_add, daysOfMonths, daysOfMonths, ih, Nat.add_assoc (lastDay year month),
      show month + (early + 1) = month + 1 + early by omega]

/-- Passing over whole months finds the day it is given. -/
theorem monthAndDay_days {year month later rest : Nat} :
    month ≤ (monthAndDay year month later rest).1 ∧
      daysOfMonths year month ((monthAndDay year month later rest).1 - month) +
        ((monthAndDay year month later rest).2 - 1) = rest := by
  induction later generalizing month rest with
  | zero => simp [monthAndDay, daysOfMonths]
  | succ later ih =>
    unfold monthAndDay
    split
    · simp [daysOfMonths]
    · rename_i long
      obtain ⟨later', sum⟩ := @ih (month + 1) (rest - lastDay year month)
      generalize (monthAndDay year (month + 1) later (rest - lastDay year month)).1 = m at *
      obtain ⟨more, rfl⟩ := Nat.exists_eq_add_of_le later'
      refine ⟨by omega, ?_⟩
      rw [Nat.add_sub_cancel_left] at sum
      rw [show month + 1 + more - month = more + 1 by omega, daysOfMonths]
      omega

theorem monthAndDay_eq {year month passed left day : Nat} (positive : 1 ≤ day)
    (inside : day ≤ lastDay year (month + passed)) :
    monthAndDay year month (passed + left) (daysOfMonths year month passed + (day - 1)) =
      (month + passed, day) := by
  induction passed generalizing month with
  | zero =>
    simp only [daysOfMonths, Nat.zero_add, Nat.add_zero] at inside ⊢
    cases left with
    | zero => simp [monthAndDay, Nat.sub_add_cancel positive]
    | succ left => rw [monthAndDay, if_pos (by omega), Nat.sub_add_cancel positive]
  | succ passed ih =>
    rw [show month + (passed + 1) = month + 1 + passed by omega] at inside ⊢
    rw [Nat.succ_add, monthAndDay, if_neg (by rw [daysOfMonths]; omega), daysOfMonths,
      Nat.add_assoc, Nat.add_sub_cancel_left]
    exact ih inside

/-- The date of a day has that day. -/
theorem dayNumber_dateOf (days : Nat) :
    dayNumber (dateOf days).1 (dateOf days).2.1 (dateOf days).2.2 = days := by
  have spec := yearOf_spec days
  obtain ⟨_, sum⟩ := @monthAndDay_days (yearOf days) 1 11 (days - daysBeforeYear (yearOf days))
  unfold dayNumber dateOf
  simp only
  omega

section Date

variable {year month day : Nat}

theorem Exists.day_within (h : Exists year month day) :
    daysOfMonths year 1 (month - 1) + (day - 1) < daysOfMonths year 1 12 := by
  obtain ⟨first, last, positive, inside⟩ := h
  have split := daysOfMonths_add year 1 (month - 1) (12 - (month - 1))
  have rest : 12 - (month - 1) = (12 - month) + 1 := by omega
  have month' : 1 + (month - 1) = month := by omega
  rw [Nat.add_sub_cancel' (show month - 1 ≤ 12 by omega), month', rest] at split
  have head : lastDay year month ≤ daysOfMonths year month ((12 - month) + 1) :=
    Nat.le_add_right _ _
  omega

theorem Exists.dayNumber_bounds (h : Exists year month day) :
    daysBeforeYear year ≤ dayNumber year month day ∧
      dayNumber year month day < daysBeforeYear (year + 1) := by
  have within := h.day_within
  have length := daysOfYear year
  unfold dayNumber
  omega

theorem yearOf_eq {days : Nat} (low : daysBeforeYear year ≤ days)
    (high : days < daysBeforeYear (year + 1)) : yearOf days = year := by
  have spec := yearOf_spec days
  apply Nat.le_antisymm
  · by_contra later
    have := @daysBeforeYear_mono (year + 1) (yearOf days) (by omega)
    omega
  · by_contra sooner
    have := @daysBeforeYear_mono (yearOf days + 1) year (by omega)
    omega

/-- The day of a date that exists has that date. -/
theorem dateOf_dayNumber (h : Exists year month day) :
    dateOf (dayNumber year month day) = (year, month, day) := by
  obtain ⟨low, high⟩ := h.dayNumber_bounds
  obtain ⟨first, last, positive, inside⟩ := h
  have found := @monthAndDay_eq year 1 (month - 1) (12 - month) day positive
    (by rwa [Nat.add_sub_cancel' first])
  rw [Nat.add_sub_cancel' first, show month - 1 + (12 - month) = 11 by omega] at found
  unfold dateOf
  rw [yearOf_eq low high]
  simp only
  rw [show dayNumber year month day - daysBeforeYear year =
    daysOfMonths year 1 (month - 1) + (day - 1) by unfold dayNumber; omega, found]

end Date

/-! ## Years before the year 0 -/

/-- The year of any day, before the year 0 too: dates repeat after four hundred years. -/
def yearOfDay (days : Int) : Int := yearOf (days % 146097).toNat + 400 * (days / 146097)

theorem yearOfDay_bounds (days : Int) :
    400 * (days / 146097) ≤ yearOfDay days ∧ yearOfDay days < 400 * (days / 146097) + 400 := by
  have inside : yearOf (days % 146097).toNat < 400 := by
    apply yearOf_lt
    rw [show daysBeforeYear 400 = 146097 by rfl]
    omega
  unfold yearOfDay
  omega

/-- The years 0 to 9999 are 25 times four hundred. -/
theorem yearOfDay_range (days : Int) :
    0 ≤ yearOfDay days ∧ yearOfDay days ≤ 9999 ↔ 0 ≤ days ∧ days < 3652425 := by
  have bounds := yearOfDay_bounds days
  omega

end Calendar
