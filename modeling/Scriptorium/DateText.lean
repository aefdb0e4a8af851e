import Scriptorium.ObjectKeys
import Mathlib.Algebra.Order.Group.Int

/-!
# The day in a key

`ymd_from_unix` over the whole range of `u64`: no step of its `i64` arithmetic leaves
the range or truncates a negative number (`ymdChecked_eq`), the fields are those of the
calendar counted day by day, and the texts of the years up to 9999 stand in the order
of the days (`ymdFromUnix_lt`).
-/

namespace Scriptorium

/-! ### Machine arithmetic -/

def i64 (x : Int) : Option Int := if -2 ^ 63 ≤ x ∧ x < 2 ^ 63 then some x else none

/-- A quotient that truncating and rounding down agree on. -/
def quotient (a b : Int) : Option Int := if 0 ≤ a then i64 (a.tdiv b) else none

/-- `ymd_from_unix` that stops where a step overflows an `i64` or divides a negative
    number. -/
def ymdChecked (secs : Nat) : Option String := do
  let days ← i64 (secs / 86400)
  let z ← i64 (days + 719468)
  let rounded ← i64 (if z ≥ 0 then z else z - 146096)
  let era ← quotient rounded 146097
  let eraDays ← i64 (era * 146097)
  let doe ← i64 (z - eraDays)
  let fours ← quotient doe 1460
  let hundreds ← quotient doe 36524
  let fourHundreds ← quotient doe 146096
  let leapless ← i64 (doe - fours)
  let leapless ← i64 (leapless + hundreds)
  let leapless ← i64 (leapless - fourHundreds)
  let yoe ← quotient leapless 365
  let eraYears ← i64 (era * 400)
  let y ← i64 (yoe + eraYears)
  let whole ← i64 (365 * yoe)
  let fourth ← quotient yoe 4
  let hundredth ← quotient yoe 100
  let before ← i64 (whole + fourth)
  let before ← i64 (before - hundredth)
  let doy ← i64 (doe - before)
  let fives ← i64 (5 * doy)
  let fives ← i64 (fives + 2)
  let mp ← quotient fives 153
  let months ← i64 (153 * mp)
  let months ← i64 (months + 2)
  let start ← quotient months 5
  let d ← i64 (doy - start)
  let d ← i64 (d + 1)
  let m ← i64 (if mp < 10 then mp + 3 else mp - 9)
  let y ← i64 (if m ≤ 2 then y + 1 else y)
  return decimal 4 y ++ "-" ++ decimal 2 m ++ "-" ++ decimal 2 d

theorem i64_of_bounds {x : Int} (h : -2 ^ 63 ≤ x) (h' : x < 2 ^ 63) : i64 x = some x :=
  if_pos ⟨h, h'⟩

theorem quotient_of_bounds {a b : Int} (ha : 0 ≤ a) (hb : 0 ≤ b) (h : a < 2 ^ 63) :
    quotient a b = some (a.tdiv b) := by
  have hnonneg : 0 ≤ a.tdiv b := Int.tdiv_nonneg ha hb
  have hle : a.tdiv b ≤ a := Int.tdiv_le_self b ha
  rw [quotient, if_pos ha, i64_of_bounds (by omega) (by omega)]

theorem bind_i64 {β : Type} {x : Int} (f : Int → Option β) (h : -2 ^ 63 ≤ x) (h' : x < 2 ^ 63) :
    (i64 x >>= f) = f x := by
  rw [i64_of_bounds h h']
  rfl

theorem bind_quotient {β : Type} {a b : Int} (f : Int → Option β) (ha : 0 ≤ a) (hb : 0 ≤ b)
    (h : a < 2 ^ 63) : (quotient a b >>= f) = f (a.tdiv b) := by
  rw [quotient_of_bounds ha hb h]
  rfl

theorem tdiv_bounds {a b : Int} (ha : 0 ≤ a) (hb : 0 < b) :
    0 ≤ a.tdiv b ∧ b * a.tdiv b ≤ a ∧ a < b * a.tdiv b + b := by
  have hquot := Int.tdiv_eq_ediv_of_nonneg (b := b) ha
  have hnonneg := Int.ediv_nonneg ha (Int.le_of_lt hb)
  have hle := Int.mul_ediv_self_le (x := a) (k := b) (by omega)
  have hlt := Int.lt_mul_ediv_self_add (x := a) (k := b) hb
  rw [hquot]
  exact ⟨hnonneg, hle, hlt⟩

/-- Over the whole range of `u64` the arithmetic stays in range. -/
theorem ymdChecked_eq {secs : Nat} (h : secs < 2 ^ 64) :
    ymdChecked secs = some (ymdFromUnix secs) := by
  have hdays : (0 : Int) ≤ secs / 86400 ∧ (secs : Int) / 86400 < 2 ^ 48 := by omega
  unfold ymdChecked ymdFromUnix
  generalize (secs : Int) / 86400 = days at *
  -- the era and the day in it
  rw [bind_i64 _ (by omega) (by omega), bind_i64 _ (by omega) (by omega), if_pos (by omega),
    bind_i64 _ (by omega) (by omega), bind_quotient _ (by omega) (by omega) (by omega)]
  have hera := tdiv_bounds (a := days + 719468) (b := 146097) (by omega) (by decide)
  generalize hround : (days + 719468).tdiv 146097 = era at hera ⊢
  rw [bind_i64 _ (by omega) (by omega), bind_i64 _ (by omega) (by omega)]
  obtain ⟨doe, hdoe⟩ := Int.eq_ofNat_of_zero_le (a := days + 719468 - era * 146097) (by omega)
  obtain ⟨yoe, hyear, hyoe, hinyear, hstart, hend, -⟩ := Civil.year_of_day doe (by omega)
  -- the year and the day in it
  have hfour := tdiv_bounds (a := doe) (b := 1460) (by omega) (by decide)
  have hcent := tdiv_bounds (a := doe) (b := 36524) (by omega) (by decide)
  have hfourcent := tdiv_bounds (a := doe) (b := 146096) (by omega) (by decide)
  rw [hdoe, bind_quotient _ (by omega) (by omega) (by omega),
    bind_quotient _ (by omega) (by omega) (by omega),
    bind_quotient _ (by omega) (by omega) (by omega), bind_i64 _ (by omega) (by omega),
    bind_i64 _ (by omega) (by omega), bind_i64 _ (by omega) (by omega),
    bind_quotient _ (by omega) (by omega) (by omega), hyear, bind_i64 _ (by omega) (by omega),
    bind_i64 _ (by omega) (by omega), bind_i64 _ (by omega) (by omega)]
  have hfourth := tdiv_bounds (a := yoe) (b := 4) (by omega) (by decide)
  have hhundredth := tdiv_bounds (a := yoe) (b := 100) (by omega) (by decide)
  rw [bind_quotient _ (by omega) (by omega) (by omega),
    bind_quotient _ (by omega) (by omega) (by omega), bind_i64 _ (by omega) (by omega),
    bind_i64 _ (by omega) (by omega), bind_i64 _ (by omega) (by omega), hinyear]
  have hdoy : doe - Civil.yearStart yoe ≤ 365 := by omega
  generalize doe - Civil.yearStart yoe = doy at hinyear hdoy ⊢
  -- the month and the day in it
  have hmonth := tdiv_bounds (a := 5 * (doy : Int) + 2) (b := 153) (by omega) (by decide)
  rw [bind_i64 _ (by omega) (by omega), bind_i64 _ (by omega) (by omega),
    bind_quotient _ (by omega) (by omega) (by omega)]
  generalize hmp : (5 * (doy : Int) + 2).tdiv 153 = mp at hmonth ⊢
  have hstart := tdiv_bounds (a := 153 * mp + 2) (b := 5) (by omega) (by decide)
  rw [bind_i64 _ (by omega) (by omega), bind_i64 _ (by omega) (by omega),
    bind_quotient _ (by omega) (by omega) (by omega), bind_i64 _ (by omega) (by omega),
    bind_i64 _ (by omega) (by omega)]
  have hm : (if mp < 10 then mp + 3 else mp - 9) ≤ 12 ∧
      -9 ≤ (if mp < 10 then mp + 3 else mp - 9) := by
    split
    · omega
    · omega
  generalize hm' : (if mp < 10 then mp + 3 else mp - 9) = m at hm ⊢
  rw [bind_i64 _ (by omega) (by omega), bind_i64 _ (by split <;> omega) (by split <;> omega)]
  simp only [ge_iff_le, if_pos (show (0 : Int) ≤ days + 719468 by omega), hround, hdoe, hyear,
    hinyear, hmp, hm']
  rfl

/-! ### The order of texts -/

/-- Digits, read behind a smaller number, give a smaller number. -/
theorem foldl_digits_lt {a b : List Char} (hlen : a.length = b.length)
    (ha : ∀ c ∈ a, c.isDigit) {v w : Nat} (h : v < w) :
    a.foldl (fun value c => 10 * value + digitValue c) v <
      b.foldl (fun value c => 10 * value + digitValue c) w := by
  induction a generalizing b v w with
  | nil =>
    obtain rfl := List.eq_nil_of_length_eq_zero hlen.symm
    exact h
  | cons c a ih =>
    cases b with
    | nil => exact absurd hlen (Nat.succ_ne_zero _)
    | cons d b =>
      have hdigit : digitValue c < 10 := by
        have hc := ha c List.mem_cons_self
        simp only [Char.isDigit, Bool.and_eq_true, decide_eq_true_eq] at hc
        unfold digitValue
        have hle : c.toNat ≤ 57 := UInt32.le_iff_toNat_le.mp hc.2
        rw [if_pos (by omega)]
        omega
      apply ih (Nat.succ.inj hlen) (fun e he => ha e (List.mem_cons_of_mem _ he))
      change 10 * v + digitValue c < 10 * w + digitValue d
      omega

theorem digit_lt {c d : Char} (hc : c.isDigit) (hd : d.isDigit) (h : digitValue c < digitValue d) :
    c < d := by
  simp only [Char.isDigit, Bool.and_eq_true, decide_eq_true_eq] at hc hd
  have hle : c.toNat ≤ 57 := UInt32.le_iff_toNat_le.mp hc.2
  have hle' : d.toNat ≤ 57 := UInt32.le_iff_toNat_le.mp hd.2
  unfold digitValue at h
  rw [if_pos (by omega), if_pos (by omega)] at h
  exact UInt32.lt_iff_toNat_lt.mpr (by change c.toNat < d.toNat; omega)

theorem digit_eq {c d : Char} (hc : c.isDigit) (hd : d.isDigit) (h : digitValue c = digitValue d) :
    c = d := by
  simp only [Char.isDigit, Bool.and_eq_true, decide_eq_true_eq] at hc hd
  have hge : 48 ≤ c.toNat := UInt32.le_iff_toNat_le.mp hc.1
  have hge' : 48 ≤ d.toNat := UInt32.le_iff_toNat_le.mp hd.1
  have hle : c.toNat ≤ 57 := UInt32.le_iff_toNat_le.mp hc.2
  have hle' : d.toNat ≤ 57 := UInt32.le_iff_toNat_le.mp hd.2
  unfold digitValue at h
  rw [if_pos (by omega), if_pos (by omega)] at h
  exact Char.toNat_inj.mp (by omega)

/-- Of two digit strings of one length, the one with the smaller value is the smaller
    text. -/
theorem digits_lt {a b : List Char} (hlen : a.length = b.length) (ha : ∀ c ∈ a, c.isDigit)
    (hb : ∀ c ∈ b, c.isDigit) {v : Nat}
    (h : a.foldl (fun value c => 10 * value + digitValue c) v <
      b.foldl (fun value c => 10 * value + digitValue c) v) : a < b := by
  induction a generalizing b v with
  | nil =>
    obtain rfl := List.eq_nil_of_length_eq_zero hlen.symm
    exact absurd h (Nat.lt_irrefl _)
  | cons c a ih =>
    cases b with
    | nil => exact absurd hlen (Nat.succ_ne_zero _)
    | cons d b =>
      have hc := ha c List.mem_cons_self
      have hd := hb d List.mem_cons_self
      have hdigits : ∀ e ∈ a, e.isDigit := fun e he => ha e (List.mem_cons_of_mem _ he)
      have hdigits' : ∀ e ∈ b, e.isDigit := fun e he => hb e (List.mem_cons_of_mem _ he)
      rw [List.cons_lt_cons_iff]
      rcases Nat.lt_trichotomy (digitValue c) (digitValue d) with hlt | heq | hgt
      · exact Or.inl (digit_lt hc hd hlt)
      · rw [List.foldl_cons, List.foldl_cons, heq] at h
        exact Or.inr ⟨digit_eq hc hd heq, ih (Nat.succ.inj hlen) hdigits hdigits' h⟩
      · have hafter := foldl_digits_lt (Nat.succ.inj hlen).symm hdigits'
          (v := 10 * v + digitValue d) (w := 10 * v + digitValue c) (by omega)
        rw [List.foldl_cons, List.foldl_cons] at h
        omega

theorem append_lt_append {a b x y : List Char} (hlen : a.length = b.length) (h : a < b) :
    a ++ x < b ++ y := by
  induction a generalizing b with
  | nil =>
    obtain rfl := List.eq_nil_of_length_eq_zero hlen.symm
    exact absurd h (List.lt_irrefl _)
  | cons c a ih =>
    cases b with
    | nil => exact absurd hlen (Nat.succ_ne_zero _)
    | cons d b =>
      rw [List.cons_append, List.cons_append, List.cons_lt_cons_iff]
      rcases List.cons_lt_cons_iff.mp h with hlt | ⟨heq, hlt⟩
      · exact Or.inl hlt
      · exact Or.inr ⟨heq, ih (Nat.succ.inj hlen) hlt⟩

theorem length_padLeft {width n : Nat} (h : n < 10 ^ width) (hpos : 0 < width) :
    (padLeft width (Nat.toDigits 10 n)).length = width := by
  have hlen : (Nat.toDigits 10 n).length ≤ width :=
    (Nat.length_toDigits_le_iff (by decide) hpos).mpr h
  rw [padLeft, List.length_append, List.length_replicate]
  omega

theorem padLeft_lt {width m n : Nat} (hpos : 0 < width) (hn : n < 10 ^ width) (h : m < n) :
    padLeft width (Nat.toDigits 10 m) < padLeft width (Nat.toDigits 10 n) := by
  have hlen := length_padLeft (Nat.lt_trans h hn) hpos
  have hlen' := length_padLeft hn hpos
  apply digits_lt (hlen.trans hlen'.symm) (fun c => isDigit_of_mem_padLeft)
    (fun c => isDigit_of_mem_padLeft) (v := 0)
  have hvalue := valueOf_padLeft 10 width (Nat.toDigits 10 m)
  have hvalue' := valueOf_padLeft 10 width (Nat.toDigits 10 n)
  rw [valueOf_toDigits (by decide) (by decide)] at hvalue hvalue'
  unfold valueOf at hvalue hvalue'
  rw [hvalue, hvalue']
  exact h

/-! ### The text of a day -/

/-- The text of a day, from the date that stepping reaches. -/
theorem toList_ymdFromUnix_iterate (secs : Nat) : ∃ year month day : Nat,
    Civil.Date.next^[dayOf secs] Civil.epoch = ⟨year, month, day⟩ ∧
      Civil.Date.Valid ⟨year, month, day⟩ ∧
      (ymdFromUnix secs).toList = padLeft 4 (Nat.toDigits 10 year) ++ '-' ::
        (padLeft 2 (Nat.toDigits 10 month) ++ '-' :: padLeft 2 (Nat.toDigits 10 day)) := by
  obtain ⟨year, month, day, hdate, htext⟩ := toList_ymdFromUnix secs
  refine ⟨year, month, day, ?_, ?_, htext⟩
  · rw [← Civil.ofDays_eq_iterate, hdate]
  · rw [← hdate]
    exact Civil.ofDays_valid (Int.natCast_nonneg _)

/-- Later days have greater texts, as long as the year has four digits. -/
theorem ymdFromUnix_lt {secs secs' : Nat} (hday : dayOf secs < dayOf secs')
    (hyear : (Civil.Date.next^[dayOf secs'] Civil.epoch).year ≤ 9999) :
    ymdFromUnix secs < ymdFromUnix secs' := by
  obtain ⟨year, month, day, hdate, hvalid, htext⟩ := toList_ymdFromUnix_iterate secs
  obtain ⟨year', month', day', hdate', hvalid', htext'⟩ := toList_ymdFromUnix_iterate secs'
  have hbefore := Civil.ofDays_before (Int.natCast_nonneg (dayOf secs)) (Int.ofNat_lt.mpr hday)
  rw [Civil.ofDays_eq_iterate, Civil.ofDays_eq_iterate, hdate, hdate'] at hbefore
  rw [hdate'] at hyear
  have hlen := Civil.monthLength_le year' month'
  obtain ⟨hmonth, hmonth', hday, hday'⟩ := hvalid'
  simp only at hyear hmonth hmonth' hday hday'
  rw [String.lt_iff, htext, htext']
  rcases hbefore with hlt | ⟨heq, hlt | ⟨heq', hlt⟩⟩
  · have hy : year < year' := Int.ofNat_lt.mp hlt
    exact append_lt_append ((length_padLeft (by omega) (by decide)).trans
      (length_padLeft (by omega) (by decide)).symm) (padLeft_lt (by decide) (by omega) hy)
  · obtain rfl : year = year' := Int.ofNat_inj.mp heq
    have hm : month < month' := Int.ofNat_lt.mp hlt
    apply List.append_left_lt
    apply List.cons_lt_cons_iff.mpr
    refine Or.inr ⟨rfl, ?_⟩
    exact append_lt_append ((length_padLeft (by omega) (by decide)).trans
      (length_padLeft (by omega) (by decide)).symm) (padLeft_lt (by decide) (by omega) hm)
  · obtain rfl : year = year' := Int.ofNat_inj.mp heq
    obtain rfl : month = month' := Int.ofNat_inj.mp heq'
    have hd : day < day' := Int.ofNat_lt.mp hlt
    apply List.append_left_lt
    apply List.cons_lt_cons_iff.mpr
    refine Or.inr ⟨rfl, ?_⟩
    apply List.append_left_lt
    apply List.cons_lt_cons_iff.mpr
    exact Or.inr ⟨rfl, padLeft_lt (by decide) (by omega) hd⟩

/-- **The date in a key.**  For every reading of the clock the arithmetic stays inside
    `i64` and rounds as it should, and the text shows the date that counting the days
    from 1 January 1970 one by one reaches: at least four digits of a year, two of a
    month, two of a day of that month.  Days have different texts, and for years up to
    9999 the later day has the greater text. -/
theorem ymdFromUnix_civil :
    (∀ secs : UInt64, ymdChecked secs.toNat = some (ymdFromUnix secs.toNat) ∧
      ∃ year month day : Nat,
        Civil.Date.next^[secs.toNat / 86400] Civil.epoch = ⟨year, month, day⟩ ∧
        (1 ≤ month ∧ month ≤ 12) ∧ (1 ≤ day ∧ (day : Int) ≤ Civil.monthLength year month) ∧
        (ymdFromUnix secs.toNat).toList = padLeft 4 (Nat.toDigits 10 year) ++ '-' ::
          (padLeft 2 (Nat.toDigits 10 month) ++ '-' :: padLeft 2 (Nat.toDigits 10 day)) ∧
        4 ≤ (padLeft 4 (Nat.toDigits 10 year)).length ∧
        (padLeft 2 (Nat.toDigits 10 month)).length = 2 ∧
        (padLeft 2 (Nat.toDigits 10 day)).length = 2) ∧
    (∀ secs secs' : UInt64, secs.toNat / 86400 ≠ secs'.toNat / 86400 →
      ymdFromUnix secs.toNat ≠ ymdFromUnix secs'.toNat) ∧
    ∀ secs secs' : UInt64, secs.toNat / 86400 < secs'.toNat / 86400 →
      (Civil.Date.next^[secs'.toNat / 86400] Civil.epoch).year ≤ 9999 →
      ymdFromUnix secs.toNat < ymdFromUnix secs'.toNat := by
  refine ⟨?_, ?_, ?_⟩
  · intro secs
    refine ⟨ymdChecked_eq secs.toNat_lt, ?_⟩
    obtain ⟨year, month, day, hdate, hvalid, htext⟩ := toList_ymdFromUnix_iterate secs.toNat
    have hlen := Civil.monthLength_le year month
    obtain ⟨hmonth, hmonth', hday, hday'⟩ := hvalid
    simp only at hmonth hmonth' hday hday'
    refine ⟨year, month, day, hdate, by omega, ⟨by omega, hday'⟩, htext, ?_,
      length_padLeft (by omega) (by decide), length_padLeft (by omega) (by decide)⟩
    rw [padLeft, List.length_append, List.length_replicate]
    omega
  · intro secs secs' hdays heq
    exact hdays (ymdFromUnix_inj heq)
  · intro secs secs' hdays hyear
    exact ymdFromUnix_lt hdays hyear

end Scriptorium
