import Mathlib.Tactic.Common
import Mathlib.Order.Monotone.Basic

/-!
# Civil dates

Dates of the Gregorian calendar from day numbers, by the usual era arithmetic: an
era is 400 years of 146097 days, counted from the first of March, so that the leap
day is the last day of its year.  `toDays_ofDays` reads the day number back.
-/

namespace Civil

structure Date where
  year : Int
  month : Int
  day : Int
deriving DecidableEq, Repr

/-- The date `days` days after 1 January 1970. -/
def ofDays (days : Int) : Date :=
  let z := days + 719468
  let era := (if z ≥ 0 then z else z - 146096).tdiv 146097
  let doe := z - era * 146097
  let yoe := (doe - doe.tdiv 1460 + doe.tdiv 36524 - doe.tdiv 146096).tdiv 365
  let y := yoe + era * 400
  let doy := doe - (365 * yoe + yoe.tdiv 4 - yoe.tdiv 100)
  let mp := (5 * doy + 2).tdiv 153
  let d := doy - (153 * mp + 2).tdiv 5 + 1
  let m := if mp < 10 then mp + 3 else mp - 9
  let y := if m ≤ 2 then y + 1 else y
  ⟨y, m, d⟩

/-- The day number of a date. -/
def toDays (date : Date) : Int :=
  let y := if date.month ≤ 2 then date.year - 1 else date.year
  let mp := if date.month ≤ 2 then date.month + 9 else date.month - 3
  let yoe := y % 400
  y / 400 * 146097 + (365 * yoe + yoe / 4 - yoe / 100) + ((153 * mp + 2) / 5 + date.day - 1) -
    719468

/-! ### The year of an era -/

/-- The days of an era before its `y`-th year. -/
def yearStart (y : Nat) : Nat := 365 * y + y / 4 - y / 100

/-- The days of an era up to `n` without its leap days. -/
def leapless (n : Nat) : Nat := n - n / 1460 + n / 36524 - n / 146096

theorem leapless_mono : Monotone leapless := by
  apply monotone_nat_of_le_succ
  intro n
  have hfour : ∀ k : Nat, k / 146096 = k / 36524 / 4 := by
    intro k
    rw [Nat.div_div_eq_div_mul]
  unfold leapless
  rw [hfour n, hfour (n + 1)]
  omega

/-- A year of an era holds 365 of the leapless days. -/
theorem leapless_yearStart :
    ∀ y < 400, 365 * y ≤ leapless (yearStart y) ∧
      (y < 399 → leapless (yearStart (y + 1) - 1) < 365 * (y + 1)) := by
  decide +kernel

/-- The day before the first of March of the next year is a day of this one. -/
theorem lt_yearStart_succ {n : Nat} (h : leapless n / 365 < 399) :
    n < yearStart (leapless n / 365 + 1) := by
  by_contra hge
  have hfirst := (leapless_yearStart (leapless n / 365 + 1) (by omega)).1
  have hmono : leapless (yearStart (leapless n / 365 + 1)) ≤ leapless n :=
    leapless_mono (Nat.le_of_not_lt hge)
  omega

/-- The year in which a day of an era falls. -/
theorem yearStart_le {n : Nat} (h : n < 146097) :
    leapless n / 365 < 400 ∧ yearStart (leapless n / 365) ≤ n ∧
      n ≤ yearStart (leapless n / 365) + 365 := by
  have hlast : leapless 146096 = 145999 := by decide
  have hmax : leapless n ≤ 145999 := hlast ▸ leapless_mono (Nat.le_of_lt_succ h)
  generalize hy : leapless n / 365 = y
  have hyear : y < 400 := by omega
  refine ⟨hyear, ?_, ?_⟩
  · by_contra hlt
    have hpos : y ≠ 0 := by
      rintro rfl
      exact hlt (Nat.zero_le _)
    obtain ⟨x, rfl⟩ := Nat.exists_eq_add_one_of_ne_zero hpos
    have hbefore := (leapless_yearStart x (by omega)).2 (by omega)
    have hmono : leapless n ≤ leapless (yearStart (x + 1) - 1) := leapless_mono (by omega)
    omega
  · by_contra hlt
    by_cases hlasty : y = 399
    · subst hlasty
      have hstart : yearStart 399 = 145731 := by decide
      omega
    · have hafter := (leapless_yearStart (y + 1) (by omega)).1
      have hnext : yearStart (y + 1) ≤ yearStart y + 366 := by
        unfold yearStart
        omega
      have hmono : leapless (yearStart (y + 1)) ≤ leapless n := leapless_mono (by omega)
      omega

/-! ### Reading a date back -/

/-- The year that the algorithm finds for a day of an era; on the numbers it divides,
    truncating is rounding down. -/
theorem year_of_day (doe : Nat) (h : doe < 146097) : ∃ yoe : Nat,
    ((doe : Int) - (doe : Int).tdiv 1460 + (doe : Int).tdiv 36524 -
      (doe : Int).tdiv 146096).tdiv 365 = yoe ∧ yoe < 400 ∧
    (doe : Int) - (365 * yoe + (yoe : Int).tdiv 4 - (yoe : Int).tdiv 100) =
      (doe - yearStart yoe : Nat) ∧
    yearStart yoe ≤ doe ∧ doe ≤ yearStart yoe + 365 ∧
    (yoe < 399 → doe < yearStart (yoe + 1)) := by
  obtain ⟨hyoe, hstart, hend⟩ := yearStart_le h
  refine ⟨leapless doe / 365, ?_, hyoe, ?_, hstart, hend, lt_yearStart_succ⟩
  · have hleap : (doe : Int) - (doe : Int).tdiv 1460 + (doe : Int).tdiv 36524 -
        (doe : Int).tdiv 146096 = leapless doe := by
      rw [Int.tdiv_eq_ediv_of_nonneg (by omega), Int.tdiv_eq_ediv_of_nonneg (by omega),
        Int.tdiv_eq_ediv_of_nonneg (by omega)]
      unfold leapless
      omega
    rw [hleap, Int.ofNat_tdiv]
    rfl
  · rw [Int.tdiv_eq_ediv_of_nonneg (by omega), Int.tdiv_eq_ediv_of_nonneg (by omega)]
    unfold yearStart at *
    omega

/-- What the algorithm computes: an era, a day and a year in it, a day and a month in
    that year. -/
theorem ofDays_eq {days : Int} (h : 0 ≤ days) :
    ∃ (era : Int) (doe yoe doy mp : Nat), days = era * 146097 + doe - 719468 ∧ doe < 146097 ∧
      yoe < 400 ∧ doe = yearStart yoe + doy ∧ doy ≤ 365 ∧ (yoe < 399 → doe < yearStart (yoe + 1)) ∧
      mp = (5 * doy + 2) / 153 ∧ ofDays days =
        ⟨yoe + era * 400 + (if mp < 10 then 0 else 1), if mp < 10 then mp + 3 else mp - 9,
          doy - (153 * mp + 2) / 5 + 1⟩ := by
  obtain ⟨n, rfl⟩ := Int.eq_ofNat_of_zero_le h
  have hdoe : (n + 719468) % 146097 < 146097 := Nat.mod_lt _ (by decide)
  have hera : (if (n : Int) + 719468 ≥ 0 then (n : Int) + 719468 else n + 719468 - 146096).tdiv
      146097 = ((n + 719468) / 146097 : Nat) := by
    rw [if_pos (by omega), Int.ofNat_tdiv]
    rfl
  have hday : (n : Int) + 719468 - ((n + 719468) / 146097 : Nat) * 146097 =
      ((n + 719468) % 146097 : Nat) := by omega
  obtain ⟨yoe, hyear, hyoe, hinyear, hstart, hend, hnext⟩ := year_of_day _ hdoe
  generalize (n + 719468) % 146097 = doe at *
  refine ⟨((n + 719468) / 146097 : Nat), doe, yoe, doe - yearStart yoe,
    (5 * (doe - yearStart yoe) + 2) / 153, by omega, hdoe, hyoe, by omega, by omega, hnext, rfl, ?_⟩
  have hmax : (5 * (doe - yearStart yoe) + 2) / 153 ≤ 11 := by omega
  generalize doe - yearStart yoe = doy at *
  have hmonth : (5 * (doy : Int) + 2).tdiv 153 = ((5 * doy + 2) / 153 : Nat) := by
    rw [Int.ofNat_tdiv]
    rfl
  generalize (5 * doy + 2) / 153 = mp at *
  have hbefore : (153 * (mp : Int) + 2).tdiv 5 = (153 * (mp : Int) + 2) / 5 :=
    Int.tdiv_eq_ediv_of_nonneg (by omega)
  simp only [ofDays, hera, hday, hyear, hinyear, hmonth, hbefore]
  by_cases hmp : mp < 10
  · have hcast : (mp : Int) < 10 := Int.ofNat_lt.mpr hmp
    have hlate : ¬ (mp : Int) + 3 ≤ 2 := by omega
    simp only [hmp, hcast, hlate, if_true, if_false, Int.add_zero]
  · have hcast : ¬ (mp : Int) < 10 := by omega
    have hearly : (mp : Int) - 9 ≤ 2 := by omega
    simp only [hmp, hcast, hearly, if_true, if_false]

theorem ofDays_nonneg {days : Int} (h : 0 ≤ days) :
    0 ≤ (ofDays days).year ∧ 0 ≤ (ofDays days).month ∧ 0 ≤ (ofDays days).day := by
  obtain ⟨era, doe, yoe, doy, mp, hdays, hdoe, hyoe, hsum, hdoy, -, hmp, heq⟩ := ofDays_eq h
  rw [heq]
  by_cases hlt : mp < 10
  · simp only [hlt, if_true]
    omega
  · simp only [hlt, if_false]
    omega

/-- The day number of a date computed from a day number is that number. -/
theorem toDays_ofDays {days : Int} (h : 0 ≤ days) : toDays (ofDays days) = days := by
  obtain ⟨era, doe, yoe, doy, mp, hdays, hdoe, hyoe, hsum, hdoy, -, hmp, heq⟩ := ofDays_eq h
  rw [heq, hdays]
  unfold yearStart at hsum
  have hera : ((yoe : Int) + era * 400) / 400 = era := by omega
  have hyear : ((yoe : Int) + era * 400) % 400 = yoe := by omega
  by_cases hlt : mp < 10
  · have hlate : ¬ (mp : Int) + 3 ≤ 2 := by omega
    simp only [toDays, hlt, hlate, if_true, if_false, Int.add_zero, Int.add_sub_cancel, hera,
      hyear]
    omega
  · have hearly : (mp : Int) - 9 ≤ 2 := by omega
    simp only [toDays, hlt, hearly, if_true, if_false, Int.add_sub_cancel, Int.sub_add_cancel,
      hera, hyear]
    omega

theorem ofDays_injective {days days' : Int} (h : 0 ≤ days) (h' : 0 ≤ days')
    (heq : ofDays days = ofDays days') : days = days' := by
  rw [← toDays_ofDays h, ← toDays_ofDays h', heq]

/-! ### Counting day by day -/

/-- The leap years of the Gregorian calendar. -/
def IsLeap (year : Int) : Prop := year % 4 = 0 ∧ (year % 100 ≠ 0 ∨ year % 400 = 0)

instance (year : Int) : Decidable (IsLeap year) :=
  inferInstanceAs (Decidable (_ ∧ (_ ∨ _)))

def monthLength (year month : Int) : Int :=
  if month = 2 then if IsLeap year then 29 else 28
  else if month = 4 ∨ month = 6 ∨ month = 9 ∨ month = 11 then 30 else 31

def epoch : Date := ⟨1970, 1, 1⟩

/-- The day after a date. -/
def Date.next (date : Date) : Date :=
  if date.day < monthLength date.year date.month then { date with day := date.day + 1 }
  else if date.month < 12 then ⟨date.year, date.month + 1, 1⟩
  else ⟨date.year + 1, 1, 1⟩

/-- A date of the calendar. -/
structure Date.Valid (date : Date) : Prop where
  month_pos : 1 ≤ date.month
  month_le : date.month ≤ 12
  day_pos : 1 ≤ date.day
  day_le : date.day ≤ monthLength date.year date.month

/-- The earlier of two dates, field by field. -/
def Date.Before (date date' : Date) : Prop :=
  date.year < date'.year ∨ date.year = date'.year ∧
    (date.month < date'.month ∨ date.month = date'.month ∧ date.day < date'.day)

theorem monthLength_le (year month : Int) :
    28 ≤ monthLength year month ∧ monthLength year month ≤ 31 := by
  unfold monthLength
  split
  · split <;> omega
  · split <;> omega

theorem Date.Valid.next {date : Date} (h : date.Valid) : date.next.Valid := by
  obtain ⟨year, month, day⟩ := date
  obtain ⟨hmonth, hmonth', hday, hday'⟩ := h
  simp only at hmonth hmonth' hday hday'
  unfold Date.next
  split
  · rename_i hlt
    exact ⟨hmonth, hmonth', by simp only; omega, by simp only at hlt ⊢; omega⟩
  · split
    · rename_i hlt
      simp only at hlt
      have hlen := monthLength_le year (month + 1)
      exact ⟨by simp only; omega, by simp only; omega, by simp only; omega, by simp only; omega⟩
    · have hlen := monthLength_le (year + 1) 1
      exact ⟨by simp only; omega, by simp only; omega, by simp only; omega, by simp only; omega⟩

/-! ### Day numbers follow the calendar -/

/-- The year of a date when years begin in March. -/
def Date.marchYear (date : Date) : Int := if date.month ≤ 2 then date.year - 1 else date.year

def Date.marchMonth (date : Date) : Int :=
  if date.month ≤ 2 then date.month + 9 else date.month - 3

/-- The days before a year that begins in March. -/
def daysBefore (year : Int) : Int := 365 * year + year / 4 - year / 100 + year / 400

/-- The days of such a year before one of its months. -/
def monthStart (month : Int) : Int := (153 * month + 2) / 5

theorem toDays_eq (date : Date) :
    toDays date =
      daysBefore date.marchYear + monthStart date.marchMonth + date.day - 1 - 719468 := by
  unfold toDays Date.marchYear Date.marchMonth daysBefore monthStart
  generalize hyear : (if date.month ≤ 2 then date.year - 1 else date.year) = year
  have hfour : year % 400 / 4 = year / 4 - 100 * (year / 400) := by omega
  have hcent : year % 400 / 100 = year / 100 - 4 * (year / 400) := by omega
  simp only [hfour, hcent]
  omega

theorem daysBefore_mono {year year' : Int} (h : year ≤ year') :
    daysBefore year ≤ daysBefore year' := by
  unfold daysBefore
  omega

/-- A year that begins in March ends with February of the next. -/
theorem daysBefore_succ (year : Int) :
    daysBefore (year + 1) = daysBefore year + 365 + if IsLeap (year + 1) then 1 else 0 := by
  unfold daysBefore
  by_cases hleap : IsLeap (year + 1)
  · rw [if_pos hleap]
    unfold IsLeap at hleap
    omega
  · rw [if_neg hleap]
    unfold IsLeap at hleap
    omega

/-- Every month but February is as long as the distance to the next month. -/
theorem monthStart_succ (year month : Int) (hpos : 3 ≤ month) (hle : month ≤ 12) :
    monthStart (month - 3) + monthLength year month = monthStart (month - 2) := by
  have hcases : month = 3 ∨ month = 4 ∨ month = 5 ∨ month = 6 ∨ month = 7 ∨ month = 8 ∨
      month = 9 ∨ month = 10 ∨ month = 11 ∨ month = 12 := by omega
  rcases hcases with rfl | rfl | rfl | rfl | rfl | rfl | rfl | rfl | rfl | rfl <;>
    simp [monthStart, monthLength]

theorem monthStart_january (year : Int) : monthStart 10 + monthLength year 1 = monthStart 11 := by
  simp [monthStart, monthLength]

theorem monthStart_mono {month month' : Int} (h : month ≤ month') :
    monthStart month ≤ monthStart month' := by
  unfold monthStart
  omega

theorem Date.Valid.march {date : Date} (h : date.Valid) :
    0 ≤ date.marchMonth ∧ date.marchMonth ≤ 11 := by
  obtain ⟨hpos, hle, -, -⟩ := h
  unfold Date.marchMonth
  split
  · omega
  · omega

/-- The days of a month stay before the next month. -/
theorem Date.Valid.day_lt_monthStart {date : Date} (h : date.Valid) (month : Int)
    (hlt : date.marchMonth < month) (hlast : date.marchMonth < 11) :
    monthStart date.marchMonth + date.day ≤ monthStart month := by
  obtain ⟨hpos, hle, hday, hlen⟩ := h
  have hmono := monthStart_mono (Int.add_one_le_of_lt hlt)
  have hsucc : monthStart date.marchMonth + monthLength date.year date.month ≤
      monthStart (date.marchMonth + 1) := by
    unfold Date.marchMonth at hlast ⊢
    split at hlast
    · rename_i hearly
      have hjan : date.month = 1 := by omega
      rw [if_pos hearly, hjan]
      exact Int.le_of_eq (monthStart_january date.year)
    · rename_i hlate
      have hmonth := monthStart_succ date.year date.month (by omega) hle
      rw [if_neg hlate, hmonth]
      exact monthStart_mono (by omega)
  omega

/-- The days of a year stay before the next year. -/
theorem Date.Valid.day_lt_year {date : Date} (h : date.Valid) :
    monthStart date.marchMonth + date.day ≤
      daysBefore (date.marchYear + 1) - daysBefore date.marchYear := by
  rw [daysBefore_succ]
  by_cases hlast : date.marchMonth < 11
  · have hfeb := h.day_lt_monthStart 11 hlast hlast
    have hstart : monthStart 11 = 337 := by decide
    split <;> omega
  · obtain ⟨hpos, hle, hday, hlen⟩ := h
    -- only February is the last month of such a year
    have hmonth : date.month = 2 := by
      unfold Date.marchMonth at hlast
      split at hlast <;> omega
    have hstart : monthStart date.marchMonth = 337 := by
      unfold Date.marchMonth
      rw [hmonth]
      decide
    have hyear : date.marchYear + 1 = date.year := by
      unfold Date.marchYear
      rw [if_pos (by omega)]
      omega
    rw [hmonth, monthLength, if_pos rfl] at hlen
    rw [hyear, hstart]
    split at hlen
    · rename_i hleap
      rw [if_pos hleap]
      omega
    · rename_i hleap
      rw [if_neg hleap]
      omega

theorem Date.before_iff_march {date date' : Date} (h : date.Valid) (h' : date'.Valid) :
    date.Before date' ↔ date.marchYear < date'.marchYear ∨
      date.marchYear = date'.marchYear ∧ (date.marchMonth < date'.marchMonth ∨
        date.marchMonth = date'.marchMonth ∧ date.day < date'.day) := by
  obtain ⟨hpos, hle, -, -⟩ := h
  obtain ⟨hpos', hle', -, -⟩ := h'
  unfold Date.Before Date.marchYear Date.marchMonth
  by_cases hearly : date.month ≤ 2
  · by_cases hearly' : date'.month ≤ 2
    · simp only [hearly, hearly', if_true]
      omega
    · simp only [hearly, hearly', if_true, if_false]
      omega
  · by_cases hearly' : date'.month ≤ 2
    · simp only [hearly, hearly', if_true, if_false]
      omega
    · simp only [hearly, hearly', if_false]
      omega

/-- The day number grows along the calendar. -/
theorem toDays_lt {date date' : Date} (h : date.Valid) (h' : date'.Valid)
    (hbefore : date.Before date') : toDays date < toDays date' := by
  rw [toDays_eq, toDays_eq]
  have hstart : 0 ≤ monthStart date'.marchMonth := by
    have hmarch := h'.march
    unfold monthStart
    omega
  have hday := h'.day_pos
  rcases (Date.before_iff_march h h').mp hbefore with hyear | ⟨hyear, hmonth | ⟨hmonth, hlt⟩⟩
  · have hend := h.day_lt_year
    have hnext := daysBefore_mono (Int.add_one_le_of_lt hyear)
    omega
  · have hmarch' := h'.march
    have hend := h.day_lt_monthStart _ hmonth (by omega)
    rw [hyear]
    omega
  · rw [hyear, hmonth]
    omega

theorem Date.before_trichotomy (date date' : Date) :
    date.Before date' ∨ date = date' ∨ date'.Before date := by
  obtain ⟨year, month, day⟩ := date
  obtain ⟨year', month', day'⟩ := date'
  simp only [Date.Before, Date.mk.injEq]
  omega

theorem toDays_inj {date date' : Date} (h : date.Valid) (h' : date'.Valid)
    (heq : toDays date = toDays date') : date = date' := by
  rcases date.before_trichotomy date' with hlt | hsame | hgt
  · have hdays := toDays_lt h h' hlt
    omega
  · exact hsame
  · have hdays := toDays_lt h' h hgt
    omega

/-- The next date has the next day number. -/
theorem toDays_next {date : Date} (h : date.Valid) : toDays date.next = toDays date + 1 := by
  obtain ⟨year, month, day⟩ := date
  obtain ⟨hpos, hle, hday, hlen⟩ := h
  rw [toDays_eq, toDays_eq]
  simp only at hpos hle hday hlen
  by_cases hlt : day < monthLength year month
  · have hnext : Date.next ⟨year, month, day⟩ = ⟨year, month, day + 1⟩ := if_pos hlt
    rw [hnext]
    simp only [Date.marchYear, Date.marchMonth]
    omega
  · have hlast : day = monthLength year month := by omega
    by_cases hmonth : month < 12
    · have hnext : Date.next ⟨year, month, day⟩ = ⟨year, month + 1, 1⟩ := by
        simp only [Date.next, hlt, hmonth, if_true, if_false]
      rw [hnext, hlast]
      by_cases hfeb : month = 2
      · subst hfeb
        have hyear := daysBefore_succ (year - 1)
        rw [Int.sub_add_cancel] at hyear
        have hstart : monthStart 11 = 337 := by decide
        have hstart' : monthStart 0 = 0 := by decide
        have hfeb : monthLength year 2 = if IsLeap year then 29 else 28 := if_pos rfl
        simp only [Date.marchYear, Date.marchMonth, Int.reduceAdd, Int.reduceSub, Int.reduceLE,
          if_true, if_false, hstart, hstart', hyear, hfeb]
        split
        · omega
        · omega
      · by_cases hjan : month = 1
        · subst hjan
          have hstart := monthStart_january year
          simp only [Date.marchYear, Date.marchMonth, Int.reduceAdd, Int.reduceLE, if_true]
          omega
        · have hlate : ¬ month ≤ 2 := by omega
          have hlate' : ¬ month + 1 ≤ 2 := by omega
          have hstart := monthStart_succ year month (by omega) hle
          have hcomm : month + 1 - 3 = month - 2 := by omega
          simp only [Date.marchYear, Date.marchMonth, hlate, hlate', if_false, hcomm]
          omega
    · obtain rfl : month = 12 := by omega
      have hnext : Date.next ⟨year, 12, day⟩ = ⟨year + 1, 1, 1⟩ := by
        simp only [Date.next, hlt, if_false]
        rw [if_neg (by decide)]
      rw [hnext, hlast]
      simp [Date.marchYear, Date.marchMonth, monthStart, monthLength]
      omega

/-! ### Dates of days -/

theorem isLeap_add_era (year era : Int) : IsLeap (year + era * 400) ↔ IsLeap year := by
  have hfour : (year + era * 400) % 4 = year % 4 := by omega
  have hcent : (year + era * 400) % 100 = year % 100 := by omega
  unfold IsLeap
  rw [hfour, hcent, Int.add_mul_emod_self_right]

/-- A year of an era ends where the next one begins. -/
theorem yearStart_succ {year : Nat} (h : year < 399) :
    (yearStart (year + 1) : Int) = yearStart year + 365 + if IsLeap (year + 1) then 1 else 0 := by
  have hstart : (yearStart year : Int) = daysBefore year := by
    unfold yearStart daysBefore
    omega
  have hstart' : (yearStart (year + 1) : Int) = daysBefore (year + 1) := by
    unfold yearStart daysBefore
    omega
  rw [hstart, hstart', daysBefore_succ]

/-- The day after February of a leap year is the last of a year that begins in March. -/
theorem day_le_of_not_leap {era : Int} {doe yoe doy : Nat} (hyoe : yoe < 400)
    (hsum : doe = yearStart yoe + doy) (hend : yoe < 399 → doe < yearStart (yoe + 1))
    (hleap : ¬ IsLeap (yoe + era * 400 + 1)) : doy < 365 := by
  have hcomm : (yoe : Int) + era * 400 + 1 = (yoe + 1 : Int) + era * 400 := by omega
  rw [hcomm, isLeap_add_era] at hleap
  by_cases hlast : yoe < 399
  · have hsucc := yearStart_succ hlast
    have hnext := hend hlast
    rw [if_neg hleap] at hsucc
    omega
  · obtain rfl : yoe = 399 := by omega
    exact absurd (by decide) hleap

/-- A day of a year lies in the month it is divided into. -/
theorem day_lt_next_month (doy : Nat) :
    (doy : Int) < monthStart ((5 * doy + 2) / 153 + 1) ∧
      monthStart ((5 * doy + 2) / 153) ≤ doy := by
  unfold monthStart
  omega

theorem ofDays_valid {days : Int} (h : 0 ≤ days) : (ofDays days).Valid := by
  obtain ⟨era, doe, yoe, doy, mp, hdays, hdoe, hyoe, hsum, hdoy, hend, hmp, heq⟩ := ofDays_eq h
  have hshort := @day_le_of_not_leap era doe yoe doy hyoe hsum hend
  obtain ⟨hbefore, hafter⟩ := day_lt_next_month doy
  have hmonth : ((5 * doy + 2) / 153 : Int) = mp := by omega
  have hle : mp ≤ 11 := by omega
  rw [heq]
  clear heq hsum hend hdays hmp
  rw [hmonth] at hbefore hafter
  have hfirst : (153 * (mp : Int) + 2) / 5 = monthStart mp := rfl
  rw [hfirst]
  by_cases hlt : mp < 10
  · have hlen := monthStart_succ (yoe + era * 400) (mp + 3) (by omega) (by omega)
    have hcomm : (mp : Int) + 3 - 2 = mp + 1 := by omega
    rw [Int.add_sub_cancel, hcomm] at hlen
    simp only [hlt, if_true, Int.add_zero]
    exact ⟨by simp only; omega, by simp only; omega, by simp only; omega, by simp only; omega⟩
  · simp only [hlt, if_false]
    by_cases hjan : mp = 10
    · have hmonth : (mp : Int) - 9 = 1 := by omega
      have hstart : monthStart mp = 306 := by
        rw [hjan]
        rfl
      have hstart' : monthStart (mp + 1) = 337 := by
        rw [hjan]
        rfl
      have hlen : monthLength (yoe + era * 400 + 1) 1 = 31 := rfl
      rw [hmonth, hstart]
      exact ⟨by simp only; omega, by simp only; omega, by simp only; omega, by simp only; omega⟩
    · have hmonth : (mp : Int) - 9 = 2 := by omega
      have hstart : monthStart mp = 337 := by
        obtain rfl : mp = 11 := by omega
        rfl
      have hlen : monthLength (yoe + era * 400 + 1) 2 =
          if IsLeap (yoe + era * 400 + 1) then 29 else 28 := if_pos rfl
      rw [hmonth, hstart]
      refine ⟨by simp only; omega, by simp only; omega, by simp only; omega, ?_⟩
      rw [hlen]
      by_cases hleap : IsLeap (yoe + era * 400 + 1)
      · rw [if_pos hleap]
        simp only
        omega
      · have hday := hshort hleap
        rw [if_neg hleap]
        simp only
        omega

theorem ofDays_succ {days : Int} (h : 0 ≤ days) : ofDays (days + 1) = (ofDays days).next := by
  have hvalid := ofDays_valid h
  apply toDays_inj (ofDays_valid (by omega)) hvalid.next
  rw [toDays_ofDays (by omega), toDays_next hvalid, toDays_ofDays h]

/-- The date of a day is reached from 1 January 1970 in that many steps. -/
theorem ofDays_eq_iterate (n : Nat) : ofDays n = Date.next^[n] epoch := by
  induction n with
  | zero => rfl
  | succ n ih =>
    have hcast : ((n + 1 : Nat) : Int) = n + 1 := by omega
    rw [Function.iterate_succ_apply', ← ih, hcast, ofDays_succ (Int.natCast_nonneg n)]

/-- A later day has a later date. -/
theorem ofDays_before {days days' : Int} (h : 0 ≤ days) (hlt : days < days') :
    (ofDays days).Before (ofDays days') := by
  have hvalid := ofDays_valid h
  have hvalid' : (ofDays days').Valid := ofDays_valid (by omega)
  rcases Date.before_trichotomy (ofDays days) (ofDays days') with hbefore | hsame | hafter
  · exact hbefore
  · have hdays := ofDays_injective h (by omega) hsame
    omega
  · have hdays := toDays_lt hvalid' hvalid hafter
    rw [toDays_ofDays h, toDays_ofDays (by omega)] at hdays
    omega

end Civil
