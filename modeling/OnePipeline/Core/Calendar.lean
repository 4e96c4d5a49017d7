/-
The Gregorian calendar, counted in days.

Months are counted from March of year 0, so that the day a leap year adds is the last of its year; a date's number is the days
before its month, and the days of the month before it.

Results:
- `monthDays_eq`: a month is as long as the days between its first and the next one's;
- `number_lt`, `number_inj`: later dates have greater numbers, and no two dates one number;
- `yearOfEra_spec`: the year a day of a 400-year era falls in, by one division;
- `monthOfYear_spec`: the month a day of a year falls in, by another.

Nothing in this file names the program.
-/
import Mathlib.Tactic

namespace OnePipeline.Calendar

/-! ## Dates -/

def IsLeap (year : ℤ) : Prop := year % 4 = 0 ∧ (year % 100 ≠ 0 ∨ year % 400 = 0)

instance : DecidablePred IsLeap := fun _ => inferInstanceAs (Decidable (_ ∧ _))

def monthDays (year month : ℤ) : ℤ :=
  if month = 2 then if IsLeap year then 29 else 28
  else if month ∈ [4, 6, 9, 11] then 30
  else 31

structure Date where
  year : ℤ
  month : ℤ
  day : ℤ
deriving DecidableEq, Repr

namespace Date

/-- a date there is -/
structure Real (d : Date) : Prop where
  month_pos : 1 ≤ d.month
  month_le : d.month ≤ 12
  day_pos : 1 ≤ d.day
  day_le : d.day ≤ monthDays d.year d.month

/-- the order of dates: by year, then month, then day -/
def Before (a b : Date) : Prop :=
  a.year < b.year ∨ a.year = b.year ∧ (a.month < b.month ∨ a.month = b.month ∧ a.day < b.day)

theorem before_or_eq (a b : Date) : a.Before b ∨ a = b ∨ b.Before a := by
  obtain ⟨y, m, d⟩ := a
  obtain ⟨y', m', d'⟩ := b
  simp only [Before, Date.mk.injEq]
  omega

end Date

/-! ## The days before a month -/

/-- the days before a year that begins with March -/
def yearStart (year : ℤ) : ℤ := 365 * year + year / 4 - year / 100 + year / 400

/-- the days of such a year before its month, March being month 0 -/
def monthStart (month : ℤ) : ℤ := (153 * month + 2) / 5

/-- the days before a month, counted from March of year 0 -/
def firstOf (month : ℤ) : ℤ := yearStart (month / 12) + monthStart (month % 12)

/-- the count of a date's month -/
def Date.count (d : Date) : ℤ := 12 * d.year + d.month - 3

/-- the days before a date -/
def Date.number (d : Date) : ℤ := firstOf d.count + d.day - 1

theorem firstOf_eq (year month : ℤ) (h : 0 ≤ month) (h' : month < 12) :
    firstOf (12 * year + month) = yearStart year + monthStart month := by
  have hyear : (12 * year + month) / 12 = year := by omega
  have hmonth : (12 * year + month) % 12 = month := by omega
  rw [firstOf, hyear, hmonth]

/-- a year is 365 days, or 366 where the February at its end has a leap day -/
theorem yearStart_succ (year : ℤ) : yearStart (year + 1) = yearStart year + 365 + if IsLeap (year + 1) then 1 else 0 := by
  unfold yearStart IsLeap
  split_ifs with h
  · omega
  · omega

theorem firstOf_succ (year month : ℤ) (h : 0 ≤ month) (h' : month < 12) :
    firstOf (12 * year + month + 1) = firstOf (12 * year + month) +
      if month = 11 then if IsLeap (year + 1) then 29 else 28 else monthStart (month + 1) - monthStart month := by
  rw [firstOf_eq year month h h']
  by_cases hlast : month = 11
  · have hnext : 12 * year + month + 1 = 12 * (year + 1) + 0 := by omega
    rw [hnext, firstOf_eq (year + 1) 0 (by omega) (by omega), yearStart_succ, if_pos hlast, hlast]
    have h11 : monthStart 11 = 337 := by decide
    have h0 : monthStart 0 = 0 := by decide
    rw [h11, h0]
    split_ifs <;> omega
  · have hnext : 12 * year + month + 1 = 12 * year + (month + 1) := by omega
    rw [hnext, firstOf_eq year (month + 1) (by omega) (by omega), if_neg hlast]
    omega

/-- **A month's length.** It is the days between its first and the next one's. -/
theorem monthDays_eq {year month : ℤ} (h : 1 ≤ month) (h' : month ≤ 12) :
    firstOf (12 * year + month - 3 + 1) = firstOf (12 * year + month - 3) + monthDays year month := by
  by_cases hlate : 3 ≤ month
  · have hcount : 12 * year + month - 3 = 12 * year + (month - 3) := by omega
    rw [hcount, firstOf_succ year (month - 3) (by omega) (by omega), if_neg (by omega)]
    interval_cases month <;> rfl
  · have hcount : 12 * year + month - 3 = 12 * (year - 1) + (month + 9) := by omega
    rw [hcount, firstOf_succ (year - 1) (month + 9) (by omega) (by omega), Int.sub_add_cancel]
    have hmonth : month = 1 ∨ month = 2 := by omega
    rcases hmonth with rfl | rfl
    · rfl
    · rfl

theorem firstOf_lt_succ (count : ℤ) : firstOf count < firstOf (count + 1) := by
  have hcount : count = 12 * (count / 12) + count % 12 := by omega
  have hlow : 0 ≤ count % 12 := by omega
  have hhigh : count % 12 < 12 := by omega
  rw [hcount, firstOf_succ _ _ hlow hhigh]
  generalize count % 12 = month at hlow hhigh
  interval_cases month <;> simp only [monthStart] <;> split_ifs <;> omega

theorem firstOf_strictMono : StrictMono firstOf := strictMono_int_of_lt_succ firstOf_lt_succ

/-! ## The number of a date -/

theorem number_lt_next {d : Date} (h : d.Real) : d.number < firstOf (d.count + 1) := by
  have hlength := @monthDays_eq d.year d.month h.month_pos h.month_le
  have hday := h.day_le
  unfold Date.number Date.count
  omega

/-- **Later dates have greater numbers.** -/
theorem number_lt {a b : Date} (ha : a.Real) (hb : b.Real) (h : a.Before b) : a.number < b.number := by
  by_cases hcount : a.count < b.count
  · have hnext : firstOf (a.count + 1) ≤ firstOf b.count := firstOf_strictMono.monotone (by omega)
    have hbefore := number_lt_next ha
    have hday := hb.day_pos
    unfold Date.number at hbefore ⊢
    omega
  · -- of one month
    have hsame : a.count = b.count ∧ a.day < b.day := by
      have h₁ := ha.month_pos
      have h₂ := ha.month_le
      have h₃ := hb.month_pos
      have h₄ := hb.month_le
      simp only [Date.Before, Date.count] at h hcount ⊢
      omega
    unfold Date.number
    rw [hsame.1]
    omega

theorem number_inj {a b : Date} (ha : a.Real) (hb : b.Real) (h : a.number = b.number) : a = b := by
  rcases a.before_or_eq b with hbefore | heq | hafter
  · exact absurd h (number_lt ha hb hbefore).ne
  · exact heq
  · exact absurd h (number_lt hb ha hafter).ne'

/-! ## The year and the month of a day -/

/-- the days before a year of an era -/
def eraYearStart (year : ℕ) : ℕ := 365 * year + year / 4 - year / 100 + year / 400

/-- the days of an era, less one for every leap day before it -/
def leapless (day : ℕ) : ℕ := day - day / 1460 + day / 36524 - day / 146096

theorem leapless_mono {a b : ℕ} (h : a ≤ b) : leapless a ≤ leapless b := by
  induction b, h using Nat.le_induction with
  | base => exact le_rfl
  | succ b _ ih =>
    refine ih.trans ?_
    have hera (n : ℕ) : n / 146096 = n / 36524 / 4 := by rw [Nat.div_div_eq_div_mul]
    unfold leapless
    rw [hera, hera]
    omega

/-- each year of an era, by its first and its last day -/
theorem leapless_bounds : ∀ year < 400, 365 * year ≤ leapless (eraYearStart year) ∧
    leapless (eraYearStart (year + 1) - 1) < 365 * (year + 1) := by
  decide +kernel

/-- **The year of a day.** -/
theorem yearOfEra_spec {day : ℕ} (h : day < 146097) : ∃ year < 400, leapless day / 365 = year ∧ eraYearStart year ≤ day ∧
    day < eraYearStart (year + 1) := by
  have hfind : ∀ n, day < eraYearStart n → ∃ year < n, eraYearStart year ≤ day ∧ day < eraYearStart (year + 1) := by
    intro n
    induction n with
    | zero => exact fun hn => absurd hn (by simp [eraYearStart])
    | succ n ih =>
      intro hn
      by_cases hbefore : day < eraYearStart n
      · obtain ⟨year, hyear, hin⟩ := ih hbefore
        exact ⟨year, by omega, hin⟩
      · exact ⟨n, by omega, by omega, hn⟩
  obtain ⟨year, hyear, hfrom, hto⟩ := hfind 400 h
  refine ⟨year, hyear, ?_, hfrom, hto⟩
  obtain ⟨hlow, hhigh⟩ := leapless_bounds year hyear
  have hfirst := leapless_mono hfrom
  have hlast : leapless day ≤ leapless (eraYearStart (year + 1) - 1) := leapless_mono (by omega)
  omega

/-- **The month of a day.** -/
theorem monthOfYear_spec {day : ℤ} (h : 0 ≤ day) (h' : day ≤ 365) : 0 ≤ (5 * day + 2) / 153 ∧ (5 * day + 2) / 153 ≤ 11 ∧
    monthStart ((5 * day + 2) / 153) ≤ day ∧ ((5 * day + 2) / 153 < 11 → day < monthStart ((5 * day + 2) / 153 + 1)) := by
  unfold monthStart
  omega

end OnePipeline.Calendar
