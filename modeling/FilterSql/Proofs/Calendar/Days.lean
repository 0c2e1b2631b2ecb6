import Mathlib.Algebra.BigOperators.Intervals
import Mathlib.Algebra.Order.BigOperators.Group.Finset
import Mathlib.Tactic.Ring
import FilterSql.Calendar.Timestamp

/-!
# Days and instants

The days of the calendar are numbered one after another by `Date.number`, and `Timestamp.instant`
counts instants in nanoseconds from the first of them. An instant has one date and one time
(`Timestamp.instant_injective`). What clocks show that are ahead is an instant that lies back by as
much as they are ahead, be it in the day, the month or the year before
(`Timestamp.exists_atOffset`).
-/

namespace FilterSql.Calendar

/-! ## Years and months

The days in front of a year and of a month are counted in closed form and as a sum. What matters of
both is how much the next year or the next month adds. -/

/-- The days of the years in front of `y`, from the year zero on. Each fourth year is a leap year,
apart from the hundredth, and apart from these the four hundredth. -/
def daysBeforeYear (y : ℤ) : ℤ :=
  365 * y + (y + 3) / 4 - (y + 99) / 100 + (y + 399) / 400

def daysInYear (y : ℤ) : ℕ :=
  if isLeapYear y then 366 else 365

/-- The days of the months in front of `m`, in the year `y`. -/
def daysBeforeMonth (y : ℤ) (m : ℕ) : ℕ :=
  ∑ k ∈ Finset.Ico 1 m, daysInMonth y k

variable {y y' : ℤ} {m m' : ℕ}

theorem daysBeforeYear_succ (y : ℤ) : daysBeforeYear (y + 1) = daysBeforeYear y + daysInYear y := by
  have hleap : isLeapYear y = true ↔ y % 4 = 0 ∧ (y % 100 ≠ 0 ∨ y % 400 = 0) := by
    simp [isLeapYear]
  unfold daysBeforeYear daysInYear
  split <;> simp_all <;> omega

theorem daysBeforeYear_mono (h : y ≤ y') : daysBeforeYear y ≤ daysBeforeYear y' := by
  unfold daysBeforeYear
  omega

theorem daysBeforeMonth_one : daysBeforeMonth y 1 = 0 := rfl

theorem daysBeforeMonth_succ (hm : 1 ≤ m) :
    daysBeforeMonth y (m + 1) = daysBeforeMonth y m + daysInMonth y m :=
  Finset.sum_Ico_succ_top hm _

theorem daysBeforeMonth_mono (h : m ≤ m') : daysBeforeMonth y m ≤ daysBeforeMonth y m' :=
  Finset.sum_le_sum_of_subset (Finset.Ico_subset_Ico_right h)

/-- The twelve months make up `daysInYear`. -/
theorem daysBeforeMonth_year : daysBeforeMonth y 13 = daysInYear y := by
  simp only [daysBeforeMonth, Finset.sum_Ico_eq_sum_range, Finset.sum_range_succ,
    Finset.sum_range_zero, daysInMonth, daysInYear]
  split <;> rfl

theorem one_le_daysInMonth (y : ℤ) (m : ℕ) : 1 ≤ daysInMonth y m := by
  unfold daysInMonth
  split
  · split <;> decide
  all_goals decide

theorem daysInMonth_le (y : ℤ) (m : ℕ) : daysInMonth y m ≤ 31 := by
  unfold daysInMonth
  split
  · split <;> decide
  all_goals decide

/-! ## Days

The calendar is shown to be a row of numbers: `next?` and `previous?` are one number apart from a
date, and `number_injective` says that no number is given twice. -/

namespace Date

variable {t u : Date}

/-- The number of the day, counted from the first day of the year zero. -/
def number (t : Date) : ℤ :=
  daysBeforeYear t.year + daysBeforeMonth t.year t.month + t.day

example : epoch.number = 719529 := by decide +kernel

theorem number_mk {y : ℤ} {m d : ℕ} {h : DateExists y m d} :
    (Date.mk y m d h).number = daysBeforeYear y + daysBeforeMonth y m + d := rfl

theorem of?_eq {y : ℤ} {m d : ℕ} (h : DateExists y m d) : of? y m d = some ⟨y, m, d, h⟩ :=
  dif_pos h

/-- **The next day has the next number**, also across the ends of months and years. -/
theorem exists_next (hyear : t.year < lastYear) :
    ∃ u, t.next? = some u ∧ u.number = t.number + 1 := by
  obtain ⟨hfirst, hlast, hm, hm', hd, hd'⟩ := t.valid
  unfold next?
  split
  next hday =>
    have hexists : DateExists t.year t.month (t.day + 1) := ⟨hfirst, hlast, hm, hm', by omega, hday⟩
    refine ⟨_, of?_eq hexists, ?_⟩
    rw [number_mk, number]
    omega
  next hday =>
    split
    next hmonth =>
      have hexists : DateExists t.year (t.month + 1) 1 :=
        ⟨hfirst, hlast, by omega, hmonth, le_rfl, one_le_daysInMonth _ _⟩
      refine ⟨_, of?_eq hexists, ?_⟩
      rw [number_mk, number, daysBeforeMonth_succ hm]
      omega
    next hmonth =>
      have hexists : DateExists (t.year + 1) 1 1 :=
        ⟨by omega, by omega, le_rfl, by decide, le_rfl, one_le_daysInMonth _ _⟩
      have hend : daysBeforeMonth t.year t.month + daysInMonth t.year t.month =
        daysInYear t.year := by
        rw [← daysBeforeMonth_succ hm, show t.month + 1 = 13 by omega, daysBeforeMonth_year]
      refine ⟨_, of?_eq hexists, ?_⟩
      rw [number_mk, number, daysBeforeYear_succ, daysBeforeMonth_one]
      omega

/-- **The day before has the number before**, also across the beginnings of months and years. -/
theorem exists_previous (hyear : firstYear < t.year) :
    ∃ u, t.previous? = some u ∧ u.number = t.number - 1 := by
  obtain ⟨hfirst, hlast, hm, hm', hd, hd'⟩ := t.valid
  unfold previous?
  split
  next hday =>
    have hexists : DateExists t.year t.month (t.day - 1) :=
      ⟨hfirst, hlast, hm, hm', by omega, by omega⟩
    refine ⟨_, of?_eq hexists, ?_⟩
    rw [number_mk, number]
    omega
  next hday =>
    split
    next hmonth =>
      -- In front of the first day of a month stands the last one of the month before.
      have hexists : DateExists t.year (t.month - 1) (daysInMonth t.year (t.month - 1)) :=
        ⟨hfirst, hlast, by omega, by omega, one_le_daysInMonth _ _, le_rfl⟩
      have hend := daysBeforeMonth_succ (y := t.year) (Nat.le_sub_one_of_lt hmonth)
      rw [Nat.sub_add_cancel hm] at hend
      refine ⟨_, of?_eq hexists, ?_⟩
      rw [number_mk, number]
      omega
    next hmonth =>
      -- In front of the first day of a year stands the last one of the year before.
      have hexists : DateExists (t.year - 1) 12 31 :=
        ⟨by omega, by omega, by decide, le_rfl, by decide, le_rfl⟩
      have hend : daysBeforeMonth (t.year - 1) 12 + 31 = daysInYear (t.year - 1) :=
        (daysBeforeMonth_succ (by decide)).symm.trans daysBeforeMonth_year
      have hbefore := daysBeforeYear_succ (t.year - 1)
      rw [Int.sub_add_cancel] at hbefore
      have hnone : daysBeforeMonth t.year t.month = 0 := by
        rw [show t.month = 1 by omega, daysBeforeMonth_one]
      refine ⟨_, of?_eq hexists, ?_⟩
      rw [number_mk, number]
      omega

/-- A day of an earlier year, month or day of the month has a smaller `number`. With the three
cases for either order of `t` and `u`, that is all there is to `number_injective`. -/
theorem number_lt
    (h : t.year < u.year ∨ t.year = u.year ∧
      (t.month < u.month ∨ t.month = u.month ∧ t.day < u.day)) :
    t.number < u.number := by
  obtain ⟨-, -, hm, hm', hd, hd'⟩ := t.valid
  obtain ⟨-, -, -, -, hpos, -⟩ := u.valid
  have hmonth := daysBeforeMonth_succ (y := t.year) hm
  rw [number, number]
  rcases h with hlt | ⟨hyear, hlt | ⟨hsame, hlt⟩⟩
  · have hend := daysBeforeMonth_mono (y := t.year) (Nat.add_le_add_right hm' 1)
    have hnext := daysBeforeYear_mono (Int.add_one_le_iff.mpr hlt)
    rw [daysBeforeMonth_year] at hend
    rw [daysBeforeYear_succ] at hnext
    omega
  · have hend := daysBeforeMonth_mono (y := t.year) (Nat.add_one_le_iff.mpr hlt)
    rw [← hyear]
    omega
  · rw [← hyear, ← hsame]
    omega

/-- No two days have one number. -/
theorem number_injective (h : t.number = u.number) : t = u := by
  have hlt := mt (number_lt (t := t) (u := u)) (Int.not_lt.mpr h.ge)
  have hgt := mt (number_lt (t := u) (u := t)) (Int.not_lt.mpr h.le)
  have hyear : t.year = u.year := by omega
  have hmonth : t.month = u.month := by omega
  have hday : t.day = u.day := by omega
  cases t
  cases u
  simp_all

end Date

/-! ## Instants

A day has as many nanoseconds as `nanoseconds_lt` says, if no leap second is counted. So the day
and the time of an instant are its quotient and its remainder. -/

namespace Time

variable {t u : Time}

/-- The nanoseconds since midnight. -/
def nanoseconds (t : Time) : ℕ :=
  ((t.hour * 60 + t.minute) * 60 + t.second) * 10 ^ 9 + t.nanosecond

/-- The clock does not show a leap second. `Time.valid` allows one in every minute. -/
def IsOrdinary (t : Time) : Prop :=
  t.second ≤ 59

theorem nanoseconds_lt (ht : t.IsOrdinary) : t.nanoseconds < 86400 * 10 ^ 9 := by
  have := t.valid
  unfold IsOrdinary at ht
  unfold nanoseconds
  omega

/-- No two times have the same `nanoseconds`, leap seconds apart. -/
theorem nanoseconds_injective (ht : t.IsOrdinary) (hu : u.IsOrdinary)
    (h : t.nanoseconds = u.nanoseconds) : t = u := by
  obtain ⟨hour, minute, second, nanosecond, hvalid⟩ := t
  obtain ⟨hour', minute', second', nanosecond', hvalid'⟩ := u
  simp only [IsOrdinary, nanoseconds] at *
  obtain rfl : nanosecond = nanosecond' := by omega
  obtain rfl : second = second' := by omega
  obtain rfl : minute = minute' := by omega
  obtain rfl : hour = hour' := by omega
  rfl

end Time

namespace Timestamp

variable {t u : Timestamp} {date : Date} {time : Time} {offset : ℤ}

/-- The nanoseconds since the first midnight of the year zero, at offset zero. -/
def instant (t : Timestamp) : ℤ :=
  (t.date.number - 1) * (86400 * 10 ^ 9) + t.time.nanoseconds

/-- No two timestamps are one instant, leap seconds apart. -/
theorem instant_injective (ht : t.time.IsOrdinary) (hu : u.time.IsOrdinary)
    (h : t.instant = u.instant) : t = u := by
  have hlt := Time.nanoseconds_lt ht
  have hlt' := Time.nanoseconds_lt hu
  unfold instant at h
  have hdate : t.date = u.date := Date.number_injective (by omega)
  have htime : t.time = u.time := Time.nanoseconds_injective ht hu (by omega)
  cases t
  cases u
  simp_all

/-- The date moves if the minutes go beyond it, and the time is what is left of them: `atOffset?`
with both of its steps given. -/
theorem atOffset?_eq {u : Date} {shown : Time}
    (hu : (if (time.hour * 60 + time.minute - offset : ℤ) < 0 then date.previous?
      else if 1440 ≤ (time.hour * 60 + time.minute - offset : ℤ) then date.next?
      else some date) = some u)
    (hshown : Time.of? (((time.hour * 60 + time.minute - offset : ℤ) % 1440).toNat / 60)
      (((time.hour * 60 + time.minute - offset : ℤ) % 1440).toNat % 60) time.second
        time.nanosecond = some shown) :
    atOffset? date time offset = some ⟨u, shown⟩ := by
  unfold atOffset?
  simp only [hshown]
  split at hu
  next h =>
    rw [if_pos h, hu]
    rfl
  next h =>
    rw [if_neg h]
    split at hu
    next h' =>
      rw [if_pos h', hu]
      rfl
    next h' =>
      obtain rfl := Option.some.inj hu
      rw [if_neg h']
      rfl

/-- **What clocks show that are ahead by less than a day is the instant that lies back by as many
minutes.** The seconds are those that are shown, so a leap second stays one. The years at both ends
of the calendar are left out, for there the day before or behind may be missing. -/
theorem exists_atOffset (hfirst : firstYear < date.year) (hlast : date.year < lastYear)
    (hoffset : offset.natAbs < 1440) :
    ∃ t, atOffset? date time offset = some t ∧ t.time.second = time.second ∧
      t.instant = (Timestamp.mk date time).instant - offset * (60 * 10 ^ 9) := by
  obtain ⟨hhour, hminute, hsecond, hnanosecond⟩ := time.valid
  -- The date moves by the days that the minutes go beyond it.
  have hdate : ∃ u, (if (time.hour * 60 + time.minute - offset : ℤ) < 0 then date.previous?
      else if 1440 ≤ (time.hour * 60 + time.minute - offset : ℤ) then date.next?
      else some date) = some u ∧
      u.number = date.number + (time.hour * 60 + time.minute - offset) / 1440 := by
    split
    next h =>
      obtain ⟨u, hu, hnumber⟩ := Date.exists_previous hfirst
      exact ⟨u, hu, by omega⟩
    next h =>
      split
      next h' =>
        obtain ⟨u, hu, hnumber⟩ := Date.exists_next hlast
        exact ⟨u, hu, by omega⟩
      next h' => exact ⟨date, rfl, by omega⟩
  obtain ⟨u, hu, hnumber⟩ := hdate
  have hvalid : ((time.hour * 60 + time.minute - offset : ℤ) % 1440).toNat / 60 ≤ 23 ∧
      ((time.hour * 60 + time.minute - offset : ℤ) % 1440).toNat % 60 ≤ 59 ∧ time.second ≤ 60 ∧
      time.nanosecond < 10 ^ 9 := by
    omega
  refine ⟨⟨u, _, _, _, _, hvalid⟩, atOffset?_eq hu (dif_pos hvalid), rfl, ?_⟩
  simp only [instant, Time.nanoseconds, hnumber]
  omega

end Timestamp

end FilterSql.Calendar
