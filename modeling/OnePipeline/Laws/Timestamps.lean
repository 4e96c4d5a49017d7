/-
The timestamps this crate renders and the ones it reads (`sys::rfc3339_from_millis`, `projection::millis_of`).

A stamp is seven fields at fixed widths. Its milliseconds are counted on the calendar; the renderer and the reader are each shown to
spell and to count the same stamp.

Results:
- `daysFromCivil_eq`, `civilFromDays_spec`: the two pieces of era arithmetic, against the calendar's own count of days;
- `millisOf_spelled`, `millisOf_eq_some`: what is read is a stamp there is, at its milliseconds, and nothing else is read;
- `spelled_lt`: stamps sort as text in the order of their milliseconds;
- `timestamps_round_trip`: the two together;
- `leap_second_before_1970`: the one date before 1970 that is read.
-/
import Mathlib.Tactic
import OnePipeline.Core.Calendar
import OnePipeline.Model.Timestamp

namespace OnePipeline

open Calendar Decimal

/-! ## Days -/

/-- the days from March of year 0 to 1970 -/
theorem number_1970 : (⟨1970, 1, 1⟩ : Date).number = 719468 := by decide

theorem monthDays_real {year month : ℤ} (h : 1 ≤ month) (h' : month ≤ 12) : daysInMonth year month = monthDays year month := by
  unfold daysInMonth monthDays IsLeap
  interval_cases month <;> simp

/-- **Date to days.** For a year from 0 on, the reader's count is the calendar's. -/
theorem daysFromCivil_eq {d : Date} (h : d.Real) (hyear : 0 ≤ d.year) :
    daysFromCivil d.year d.month d.day = d.number - 719468 := by
  have hlow := h.month_pos
  have hhigh := h.month_le
  unfold daysFromCivil Date.number Date.count
  by_cases hlate : 2 < d.month
  · have hcount : 12 * d.year + d.month - 3 = 12 * d.year + (d.month - 3) := by omega
    rw [hcount, firstOf_eq _ _ (by omega) (by omega)]
    simp only [if_neg (show ¬d.month ≤ 2 by omega), if_pos hlate, if_pos hyear, yearStart, monthStart]
    omega
  · have hcount : 12 * d.year + d.month - 3 = 12 * (d.year - 1) + (d.month + 9) := by omega
    rw [hcount, firstOf_eq _ _ (by omega) (by omega)]
    simp only [if_pos (show d.month ≤ 2 by omega), if_neg hlate, yearStart, monthStart]
    split_ifs <;> omega

theorem eraYearStart_cast (year : ℕ) : (eraYearStart year : ℤ) = yearStart year := by
  unfold eraYearStart yearStart
  omega

theorem yearStart_era (year era : ℤ) : yearStart (year + era * 400) = yearStart year + 146097 * era := by
  unfold yearStart
  omega

/-- the date of a month counted from March of year 0, and a day of it -/
def dateOf (year month day : ℤ) : Date :=
  { year := if month < 10 then year else year + 1, month := if month < 10 then month + 3 else month - 9, day }

theorem count_dateOf {year month day : ℤ} : (dateOf year month day).count = 12 * year + month := by
  unfold dateOf Date.count
  split_ifs <;> simp only <;> omega

/-- a day of a year is a day of its month -/
theorem dateOf_real {year day : ℤ} (h : 0 ≤ day) (h' : yearStart year + day < yearStart (year + 1)) :
    (dateOf year ((5 * day + 2) / 153) (day - monthStart ((5 * day + 2) / 153) + 1)).Real ∧
      (dateOf year ((5 * day + 2) / 153) (day - monthStart ((5 * day + 2) / 153) + 1)).number = yearStart year + day := by
  have hyear : day ≤ 365 := by
    rw [yearStart_succ] at h'
    split_ifs at h' <;> omega
  obtain ⟨hlow, hhigh, hfrom, hto⟩ := monthOfYear_spec h hyear
  generalize (5 * day + 2) / 153 = month at *
  have hfirst : firstOf (dateOf year month (day - monthStart month + 1)).count = yearStart year + monthStart month := by
    rw [count_dateOf, firstOf_eq _ _ hlow (by omega)]
  have hnumber : (dateOf year month (day - monthStart month + 1)).number = yearStart year + day := by
    unfold Date.number
    rw [hfirst]
    simp only [dateOf]
    omega
  -- the day comes before the month after its own
  have hnext : yearStart year + day < firstOf ((dateOf year month (day - monthStart month + 1)).count + 1) := by
    rw [count_dateOf]
    by_cases hlast : month = 11
    · rw [hlast, show 12 * year + 11 + 1 = 12 * (year + 1) + 0 by omega, firstOf_eq _ _ (by omega) (by omega)]
      have h0 : monthStart 0 = 0 := by decide
      omega
    · rw [Int.add_assoc, firstOf_eq _ _ (by omega) (by omega)]
      have := hto (by omega)
      omega
  have hmonth : 1 ≤ (dateOf year month (day - monthStart month + 1)).month ∧
      (dateOf year month (day - monthStart month + 1)).month ≤ 12 := by
    unfold dateOf
    split_ifs <;> simp only <;> omega
  refine ⟨⟨hmonth.1, hmonth.2, ?_, ?_⟩, hnumber⟩
  · show 1 ≤ day - monthStart month + 1
    omega
  · have hlength := @monthDays_eq (dateOf year month (day - monthStart month + 1)).year _ hmonth.1 hmonth.2
    change firstOf ((dateOf year month (day - monthStart month + 1)).count + 1) = _ at hlength
    change _ = firstOf (dateOf year month (day - monthStart month + 1)).count + _ at hlength
    rw [hfirst] at hlength
    show day - monthStart month + 1 ≤ _
    omega

/-- **Days to date.** -/
theorem civilFromDays_spec (days : ℕ) : ∃ d : Date, d.Real ∧ d.number = days + 719468 ∧
    civilFromDays days = (d.year, d.month.toNat, d.day.toNat) := by
  obtain ⟨year, hyear, hyoe, hfrom, hto⟩ := yearOfEra_spec (Nat.mod_lt (days + 719468) (by decide : 0 < 146097))
  generalize hdoe : (days + 719468) % 146097 = doe at *
  generalize hera : (days + 719468) / 146097 = era
  have hz : days + 719468 = doe + era * 146097 := by omega
  have hfrom' : yearStart year ≤ doe := by
    rw [← eraYearStart_cast]
    exact_mod_cast hfrom
  have hto' : (doe : ℤ) < yearStart (year + 1) := by
    have hcast := eraYearStart_cast (year + 1)
    push_cast at hcast
    rw [← hcast]
    exact_mod_cast hto
  have hnext : yearStart (year + era * 400) + ((doe : ℤ) - yearStart year) < yearStart (year + era * 400 + 1) := by
    rw [show (year : ℤ) + era * 400 + 1 = (year + 1) + era * 400 by omega, yearStart_era, yearStart_era]
    omega
  obtain ⟨hreal, hnumber⟩ := dateOf_real (sub_nonneg.mpr hfrom') hnext
  refine ⟨_, hreal, ?_, ?_⟩
  · rw [hnumber, yearStart_era]
    omega
  · have hera' : (if 0 ≤ (days : ℤ) + 719468 then (days : ℤ) + 719468 else (days : ℤ) + 719468 - 146096).tdiv 146097 = era := by
      rw [if_pos (by omega), Int.tdiv_eq_ediv_of_nonneg (by omega)]
      omega
    have hrest : (days : ℤ) + 719468 - era * 146097 = doe := by omega
    have hyoe' : ((doe : ℤ) - doe / 1460 + doe / 36524 - doe / 146096) / 365 = year := by
      unfold leapless at hyoe
      omega
    have hdoy : (doe : ℤ) - (365 * year + year / 4 - year / 100) = doe - yearStart year := by
      unfold yearStart
      omega
    unfold civilFromDays
    simp only [hera', hrest, hyoe', hdoy]
    unfold dateOf monthStart
    split_ifs <;> simp only <;> first | rfl | omega

/-! ## Moments -/

/-- the fields of `YYYY-MM-DDThh:mm:ss.sssZ` -/
structure Moment where
  year : ℕ
  month : ℕ
  day : ℕ
  hour : ℕ
  minute : ℕ
  second : ℕ
  ms : ℕ
deriving DecidableEq, Repr

namespace Moment

def date (t : Moment) : Date := ⟨t.year, t.month, t.day⟩

/-- the stamp as characters, each field at its width -/
def chars (t : Moment) : List Char :=
  pad 4 t.year ++ '-' :: (pad 2 t.month ++ '-' :: (pad 2 t.day ++ 'T' :: (pad 2 t.hour ++ ':' :: (pad 2 t.minute ++ ':' ::
    (pad 2 t.second ++ '.' :: (pad 3 t.ms ++ ['Z']))))))

def spelled (t : Moment) : String := String.ofList t.chars

@[simp] theorem date_year (t : Moment) : t.date.year = t.year := rfl

@[simp] theorem date_month (t : Moment) : t.date.month = t.month := rfl

@[simp] theorem date_day (t : Moment) : t.date.day = t.day := rfl

/-- a time of a date there is, a leap second among them -/
structure Real (t : Moment) : Prop where
  year : t.year < 10000
  date : t.date.Real
  hour : t.hour ≤ 23
  minute : t.minute ≤ 59
  second : t.second ≤ 60
  ms : t.ms ≤ 999

/-- the milliseconds since midnight -/
def clock (t : Moment) : ℤ := (t.hour * 3600 + t.minute * 60 + t.second) * 1000 + t.ms

/-- the milliseconds since 1970 -/
def millis (t : Moment) : ℤ := (t.date.number - 719468) * 86400000 + t.clock

theorem millis_eq (t : Moment) :
    t.millis = ((t.date.number - 719468) * 86400 + t.hour * 3600 + t.minute * 60 + t.second) * 1000 + t.ms := by
  unfold millis clock
  ring

variable {t t' : Moment}

theorem Real.month_lt (h : t.Real) : t.month < 10 ^ 2 := by
  have hmonth : (t.month : ℤ) ≤ 12 := h.date.month_le
  omega

theorem Real.day_lt (h : t.Real) : t.day < 10 ^ 2 := by
  have hday : (t.day : ℤ) ≤ monthDays t.date.year t.date.month := h.date.day_le
  have hlength : monthDays t.date.year t.date.month ≤ 31 := by
    unfold monthDays
    split_ifs <;> decide
  omega

/-! ### The order of stamps -/

theorem field_lt_iff {width n n' : ℕ} (hwidth : 0 < width) (h : n < 10 ^ width) (h' : n' < 10 ^ width) {c : Char} {x y : List Char} :
    pad width n ++ c :: x < pad width n' ++ c :: y ↔ n < n' ∨ n = n' ∧ x < y := by
  have hlen : (pad width n).length = (pad width n').length := (pad_spec hwidth h).1.trans (pad_spec hwidth h').1.symm
  rw [append_lt_iff hlen, pad_lt_iff hwidth h h', List.cons_lt_cons_iff]
  have hinj : pad width n = pad width n' ↔ n = n' := ⟨pad_inj hwidth h h', fun heq => heq ▸ rfl⟩
  rw [hinj]
  simp

theorem spelled_lt_iff (h : t.Real) (h' : t'.Real) : t.spelled < t'.spelled ↔
    t.year < t'.year ∨ t.year = t'.year ∧ (t.month < t'.month ∨ t.month = t'.month ∧ (t.day < t'.day ∨ t.day = t'.day ∧
      (t.hour < t'.hour ∨ t.hour = t'.hour ∧ (t.minute < t'.minute ∨ t.minute = t'.minute ∧
        (t.second < t'.second ∨ t.second = t'.second ∧ t.ms < t'.ms))))) := by
  obtain ⟨hy, -, hh, hmi, hs, hms⟩ := id h
  obtain ⟨hy', -, hh', hmi', hs', hms'⟩ := id h'
  rw [String.lt_iff, spelled, spelled, String.toList_ofList, String.toList_ofList, chars, chars,
    field_lt_iff (by decide) (by omega) (by omega), field_lt_iff (by decide) h.month_lt h'.month_lt,
    field_lt_iff (by decide) h.day_lt h'.day_lt, field_lt_iff (by decide) (by omega) (by omega),
    field_lt_iff (by decide) (by omega) (by omega), field_lt_iff (by decide) (by omega) (by omega),
    field_lt_iff (by decide) (by omega) (by omega)]
  simp

/-- **Sorted as text.** With no leap second among them, the earlier of two stamps sorts first. -/
theorem spelled_lt (h : t.Real) (h' : t'.Real) (hs : t.second ≤ 59) (hs' : t'.second ≤ 59) (hlt : t.millis < t'.millis) :
    t.spelled < t'.spelled := by
  obtain ⟨-, hdate, hh, hmi, -, hms⟩ := id h
  obtain ⟨-, hdate', hh', hmi', -, hms'⟩ := id h'
  rw [spelled_lt_iff h h']
  unfold millis clock at hlt
  rcases t.date.before_or_eq t'.date with hbefore | hsame | hafter
  · simp only [date, Date.Before] at hbefore
    omega
  · rw [hsame] at hlt
    simp only [date, Date.mk.injEq] at hsame
    omega
  · have hnumber := number_lt hdate' hdate hafter
    omega

theorem eq_of_millis (h : t.Real) (h' : t'.Real) (hs : t.second ≤ 59) (hs' : t'.second ≤ 59) (heq : t.millis = t'.millis) :
    t = t' := by
  obtain ⟨-, hdate, hh, hmi, -, hms⟩ := id h
  obtain ⟨-, hdate', hh', hmi', -, hms'⟩ := id h'
  unfold millis clock at heq
  have hnumber : t.date.number = t'.date.number := by omega
  have hsame := number_inj hdate hdate' hnumber
  simp only [date, Date.mk.injEq] at hsame
  obtain ⟨y, mo, d, hr, mi, s, ms⟩ := t
  obtain ⟨y', mo', d', hr', mi', s', ms'⟩ := t'
  simp only [Moment.mk.injEq] at *
  omega

/-! ### Moment -/

theorem digits_read {l f : List Char} {m n : ℕ} (hf : (l.drop m).take (n - m) = f) (hdigits : Digits f) :
    digitsAt l m n = some (value f : ℤ) := by
  have hall : f.all isAsciiDigit = true := List.all_eq_true.mpr fun c hc => by simpa [isAsciiDigit] using hdigits c hc
  have hfold : ∀ (f : List Char) (k : ℕ), Digits f →
      f.foldl (fun n c => n * 10 + ((c.toNat : ℤ) - 48)) (k : ℤ) = (Nat.ofDigitChars 10 f k : ℕ) := by
    intro f
    induction f with
    | nil => exact fun k _ => by simp
    | cons c f ih =>
      intro k h
      have hc := h c List.mem_cons_self
      rw [List.foldl_cons, Nat.ofDigitChars_cons, ← ih _ h.tail]
      congr 1
      have hzero : '0'.toNat = 48 := rfl
      omega
  unfold digitsAt
  simp only [hf, hall, if_true]
  exact congrArg some (hfold f 0 hdigits)

theorem read_digits {l : List Char} {m n : ℕ} {v : ℤ} (h : digitsAt l m n = some v) :
    Digits ((l.drop m).take (n - m)) ∧ v = value ((l.drop m).take (n - m)) := by
  have hdigits : Digits ((l.drop m).take (n - m)) := by
    unfold digitsAt at h
    simp only at h
    split_ifs at h with hall
    exact fun c hc => by simpa [isAsciiDigit] using List.all_eq_true.mp hall c hc
  exact ⟨hdigits, Option.some.inj (h.symm.trans (digits_read rfl hdigits))⟩

/-- the reader's answer for fields that are digits at their places -/
theorem millisOf_of_fields {s : String} {t : Moment} (hlen : s.toList.length = 24)
    (hsep : separators.any (fun p => s.toList[p.1]? ≠ some p.2) = false)
    (hyear : digitsAt s.toList 0 4 = some (t.year : ℤ)) (hmonth : digitsAt s.toList 5 7 = some (t.month : ℤ))
    (hday : digitsAt s.toList 8 10 = some (t.day : ℤ)) (hhour : digitsAt s.toList 11 13 = some (t.hour : ℤ))
    (hminute : digitsAt s.toList 14 16 = some (t.minute : ℤ)) (hsecond : digitsAt s.toList 17 19 = some (t.second : ℤ))
    (hms : digitsAt s.toList 20 23 = some (t.ms : ℤ)) {m : ℕ} :
    millisOf s = some m ↔ (t.date.Real ∧ t.hour ≤ 23 ∧ t.minute ≤ 59 ∧ t.second ≤ 60) ∧ t.millis = m := by
  have hdate : t.date.Real ↔ 1 ≤ (t.month : ℤ) ∧ (t.month : ℤ) ≤ 12 ∧ 1 ≤ (t.day : ℤ) ∧
      (t.day : ℤ) ≤ daysInMonth t.year t.month := by
    constructor
    · rintro ⟨h₁, h₂, h₃, h₄⟩
      rw [date_month] at h₁ h₂
      exact ⟨h₁, h₂, h₃, by rw [monthDays_real h₁ h₂]; exact h₄⟩
    · rintro ⟨h₁, h₂, h₃, h₄⟩
      exact ⟨h₁, h₂, h₃, by rw [monthDays_real h₁ h₂] at h₄; exact h₄⟩
  unfold millisOf
  simp only [hlen, hsep, hyear, hmonth, hday, hhour, hminute, hsecond, hms, ne_eq, not_true_eq_false, Bool.false_eq_true, or_self,
    if_false, Option.bind_eq_bind, Option.bind_some]
  by_cases hreal : t.date.Real ∧ t.hour ≤ 23 ∧ t.minute ≤ 59 ∧ t.second ≤ 60
  · obtain ⟨hd, hh, hmi, hs⟩ := hreal
    have hdays := daysFromCivil_eq hd (by rw [date_year]; omega)
    rw [date_year, date_month, date_day] at hdays
    obtain ⟨h₁, h₂, h₃, h₄⟩ := hdate.mp hd
    rw [if_neg (by omega), hdays, ← millis_eq]
    split_ifs with hneg
    · refine ⟨fun h => (nomatch h), fun ⟨_, h⟩ => ?_⟩
      omega
    · rw [Option.some.injEq]
      refine ⟨fun h => ⟨⟨hd, hh, hmi, hs⟩, ?_⟩, fun ⟨_, h⟩ => ?_⟩
      · omega
      · omega
  · refine ⟨fun h => ?_, fun h => absurd h.1 hreal⟩
    split_ifs at h with hout
    exact absurd ⟨hdate.mpr (by omega), by omega, by omega, by omega⟩ hreal

/-- a stamp whose fields have their widths -/
structure Fits (t : Moment) : Prop where
  year : t.year < 10 ^ 4
  month : t.month < 10 ^ 2
  day : t.day < 10 ^ 2
  hour : t.hour < 10 ^ 2
  minute : t.minute < 10 ^ 2
  second : t.second < 10 ^ 2
  ms : t.ms < 10 ^ 3

theorem Real.fits (h : t.Real) : t.Fits := by
  obtain ⟨hy, -, hh, hmi, hs, hms⟩ := id h
  exact ⟨by omega, h.month_lt, h.day_lt, by omega, by omega, by omega, by omega⟩

theorem exists_two {n : ℕ} (h : n < 10 ^ 2) : ∃ c d, pad 2 n = [c, d] := List.length_eq_two.mp (pad_spec (by decide) h).1

/-- **A stamp read.** Its spelling reads as its milliseconds, where it is a time there is. -/
theorem millisOf_spelled (h : t.Fits) {m : ℕ} :
    millisOf t.spelled = some m ↔ (t.date.Real ∧ t.hour ≤ 23 ∧ t.minute ≤ 59 ∧ t.second ≤ 60) ∧ t.millis = m := by
  obtain ⟨a, b, c, d, hyear⟩ : ∃ a b c d, pad 4 t.year = [a, b, c, d] := by
    have hlen := (pad_spec (by decide) h.year).1
    match hpad : pad 4 t.year, hlen with
    | [a, b, c, d], _ => exact ⟨a, b, c, d, rfl⟩
  obtain ⟨e, f, hmonth⟩ := exists_two h.month
  obtain ⟨g, i, hday⟩ := exists_two h.day
  obtain ⟨j, k, hhour⟩ := exists_two h.hour
  obtain ⟨l, n, hminute⟩ := exists_two h.minute
  obtain ⟨o, p, hsecond⟩ := exists_two h.second
  obtain ⟨q, r, u, hms⟩ := List.length_eq_three.mp (pad_spec (by decide) h.ms).1
  have hlist : t.spelled.toList =
      [a, b, c, d, '-', e, f, '-', g, i, 'T', j, k, ':', l, n, ':', o, p, '.', q, r, u, 'Z'] := by
    rw [spelled, String.toList_ofList, chars, hyear, hmonth, hday, hhour, hminute, hsecond, hms]
    rfl
  have hread {width n lo hi : ℕ} {field : List Char} (hwidth : 0 < width) (hn : n < 10 ^ width) (hpad : pad width n = field)
      (hat : (t.spelled.toList.drop lo).take (hi - lo) = field) : digitsAt t.spelled.toList lo hi = some (n : ℤ) := by
    rw [digits_read (hat.trans hpad.symm) (pad_spec hwidth hn).2.1, (pad_spec hwidth hn).2.2]
  refine millisOf_of_fields (by rw [hlist]; rfl) (by rw [hlist]; simp [separators]) ?_ ?_ ?_ ?_ ?_ ?_ ?_
  · exact hread (by decide) h.year hyear (by rw [hlist]; rfl)
  · exact hread (by decide) h.month hmonth (by rw [hlist]; rfl)
  · exact hread (by decide) h.day hday (by rw [hlist]; rfl)
  · exact hread (by decide) h.hour hhour (by rw [hlist]; rfl)
  · exact hread (by decide) h.minute hminute (by rw [hlist]; rfl)
  · exact hread (by decide) h.second hsecond (by rw [hlist]; rfl)
  · exact hread (by decide) h.ms hms (by rw [hlist]; rfl)

/-- text up to a character at its place, and on from there -/
theorem drop_field {l : List Char} {m n : ℕ} {c : Char} (hmn : m ≤ n) (hc : l[n]? = some c) :
    l.drop m = (l.drop m).take (n - m) ++ c :: l.drop (n + 1) := by
  obtain ⟨hlt, hget⟩ := List.getElem?_eq_some_iff.mp hc
  conv_lhs => rw [← List.take_append_drop (n - m) (l.drop m), List.drop_drop, Nat.add_sub_cancel' hmn,
    List.drop_eq_getElem_cons hlt, hget]

/-- **What is read.** Text that reads as milliseconds is the spelling of a stamp. -/
theorem exists_of_millisOf {s : String} {m : ℕ} (h : millisOf s = some m) : ∃ t : Moment, t.Fits ∧ s = t.spelled := by
  have hshape : s.toList.length = 24 ∧ separators.any (fun p => s.toList[p.1]? ≠ some p.2) = false := by
    unfold millisOf at h
    simp only at h
    split_ifs at h with hshape
    push Not at hshape
    exact ⟨hshape.1, by simpa using hshape.2⟩
  obtain ⟨hlen, hsep⟩ := hshape
  have hfields : (digitsAt s.toList 0 4).isSome ∧ (digitsAt s.toList 5 7).isSome ∧ (digitsAt s.toList 8 10).isSome ∧
      (digitsAt s.toList 11 13).isSome ∧ (digitsAt s.toList 14 16).isSome ∧ (digitsAt s.toList 17 19).isSome ∧
      (digitsAt s.toList 20 23).isSome := by
    unfold millisOf at h
    simp only [hlen, hsep, ne_eq, not_true_eq_false, Bool.false_eq_true, or_self, if_false, Option.bind_eq_bind,
      Option.bind_eq_some_iff] at h
    obtain ⟨y, hy, mo, hmo, d, hd, hr, hhr, mi, hmi, se, hse, ms, hms, -⟩ := h
    simp [hy, hmo, hd, hhr, hmi, hse, hms]
  have hread {lo hi : ℕ} (hhi : hi ≤ 24) (hlo : lo < hi) (hsome : (digitsAt s.toList lo hi).isSome) :
      ((s.toList.drop lo).take (hi - lo)).length = hi - lo ∧ Digits ((s.toList.drop lo).take (hi - lo)) := by
    obtain ⟨v, hv⟩ := Option.isSome_iff_exists.mp hsome
    refine ⟨?_, (read_digits hv).1⟩
    rw [List.length_take, List.length_drop, hlen]
    omega
  obtain ⟨hy, hmo, hd, hhr, hmi, hse, hms⟩ := hfields
  have hspell {lo hi : ℕ} (hhi : hi ≤ 24) (hlo : lo < hi) (hsome : (digitsAt s.toList lo hi).isSome) :
      pad (hi - lo) (value ((s.toList.drop lo).take (hi - lo))) = (s.toList.drop lo).take (hi - lo) := by
    obtain ⟨hlength, hdigits⟩ := hread hhi hlo hsome
    have hpad := pad_value (l := (s.toList.drop lo).take (hi - lo)) (by omega) hdigits
    rwa [hlength] at hpad
  have hwidth {lo hi : ℕ} (hhi : hi ≤ 24) (hlo : lo < hi) (hsome : (digitsAt s.toList lo hi).isSome) :
      value ((s.toList.drop lo).take (hi - lo)) < 10 ^ (hi - lo) := by
    obtain ⟨hlength, hdigits⟩ := hread hhi hlo hsome
    have hlt := value_lt hdigits
    rwa [hlength] at hlt
  have hat {p : ℕ × Char} (hp : p ∈ separators) : s.toList[p.1]? = some p.2 := by
    simpa using List.any_eq_false.mp hsep p hp
  let field (lo hi : ℕ) : ℕ := value ((s.toList.drop lo).take (hi - lo))
  refine ⟨⟨field 0 4, field 5 7, field 8 10, field 11 13, field 14 16, field 17 19, field 20 23⟩,
    ⟨hwidth (by decide) (by decide) hy, hwidth (by decide) (by decide) hmo, hwidth (by decide) (by decide) hd,
      hwidth (by decide) (by decide) hhr, hwidth (by decide) (by decide) hmi, hwidth (by decide) (by decide) hse,
      hwidth (by decide) (by decide) hms⟩, ?_⟩
  rw [← String.toList_inj, spelled, String.toList_ofList]
  have hend : s.toList.drop 24 = [] := List.drop_eq_nil_of_le (by omega)
  have htext : s.toList = (s.toList.drop 0).take (4 - 0) ++ '-' :: ((s.toList.drop 5).take (7 - 5) ++ '-' ::
      ((s.toList.drop 8).take (10 - 8) ++ 'T' :: ((s.toList.drop 11).take (13 - 11) ++ ':' ::
      ((s.toList.drop 14).take (16 - 14) ++ ':' :: ((s.toList.drop 17).take (19 - 17) ++ '.' ::
      ((s.toList.drop 20).take (23 - 20) ++ ['Z'])))))) := by
    rw [← hend, ← drop_field (by decide) (hat (p := (23, 'Z')) (by decide)),
      ← drop_field (by decide) (hat (p := (19, '.')) (by decide)), ← drop_field (by decide) (hat (p := (16, ':')) (by decide)),
      ← drop_field (by decide) (hat (p := (13, ':')) (by decide)), ← drop_field (by decide) (hat (p := (10, 'T')) (by decide)),
      ← drop_field (by decide) (hat (p := (7, '-')) (by decide)), ← drop_field (by decide) (hat (p := (4, '-')) (by decide)),
      List.drop_zero]
  refine htext.trans ?_
  rw [← hspell (by decide) (by decide) hy, ← hspell (by decide) (by decide) hmo, ← hspell (by decide) (by decide) hd,
    ← hspell (by decide) (by decide) hhr, ← hspell (by decide) (by decide) hmi, ← hspell (by decide) (by decide) hse,
    ← hspell (by decide) (by decide) hms]
  rfl

/-- a stamp is 24 bytes -/
theorem utf8ByteSize_spelled (h : t.Fits) : t.spelled.utf8ByteSize = 24 := by
  have hascii : ∀ l : List Char, (∀ c ∈ l, c.toNat ≤ 127) → (String.ofList l).utf8ByteSize = l.length := by
    intro l
    induction l with
    | nil => exact fun _ => rfl
    | cons c l ih =>
      intro hl
      have hc : c.utf8Size = 1 := Char.utf8Size_eq_one_iff.mpr (hl c List.mem_cons_self)
      rw [← List.singleton_append, String.ofList_append, String.utf8ByteSize_append, ← String.singleton_eq_ofList,
        String.utf8ByteSize_singleton, hc, ih fun d hd => hl d (List.mem_cons_of_mem _ hd), List.length_append, List.length_singleton]
  have hpad {width n : ℕ} (hwidth : 0 < width) (hn : n < 10 ^ width) : ∀ c ∈ pad width n, c.toNat ≤ 127 := fun c hc => by
    have := ((pad_spec hwidth hn).2.1 c hc).2
    omega
  have hlen {width n : ℕ} (hwidth : 0 < width) (hn : n < 10 ^ width) : (pad width n).length = width := (pad_spec hwidth hn).1
  rw [spelled, hascii]
  · simp [chars, hlen _ h.year, hlen _ h.month, hlen _ h.day, hlen _ h.hour, hlen _ h.minute, hlen _ h.second, hlen _ h.ms]
  · have hmark : ∀ c ∈ ['-', 'T', ':', '.', 'Z'], c.toNat ≤ 127 := by
      intro c hc
      exact of_decide_eq_true (List.all_eq_true.mp (rfl : (['-', 'T', ':', '.', 'Z'].all fun c => c.toNat ≤ 127) = true) c hc)
    intro c hc
    simp only [chars, List.mem_append, List.mem_cons, List.not_mem_nil, or_false] at hc
    rcases hc with hc | rfl | hc | rfl | hc | rfl | hc | rfl | hc | rfl | hc | rfl | hc | rfl
    · exact hpad (by decide) h.year c hc
    · decide
    · exact hpad (by decide) h.month c hc
    · decide
    · exact hpad (by decide) h.day c hc
    · decide
    · exact hpad (by decide) h.hour c hc
    · decide
    · exact hpad (by decide) h.minute c hc
    · decide
    · exact hpad (by decide) h.second c hc
    · decide
    · exact hpad (by decide) h.ms c hc
    · decide

/-! ### Rendering -/

/-- the last millisecond of year 9999 -/
def lastMillis : ℕ := 253402300799999

/-- **A stamp rendered.** Up to year 9999 the renderer spells the stamp of its milliseconds. -/
theorem rfc_spelled {m : ℕ} (h : m ≤ lastMillis) :
    ∃ t : Moment, t.Real ∧ t.second ≤ 59 ∧ t.millis = m ∧ rfc3339FromMillis m = t.spelled := by
  obtain ⟨d, hreal, hnumber, hcivil⟩ := civilFromDays_spec (m / 1000 / 86400)
  have hdays : m / 1000 / 86400 ≤ 2932896 := by
    rw [lastMillis] at h
    omega
  have hfirst : (⟨1970, 1, 1⟩ : Date).Real := ⟨by decide, by decide, by decide, by decide⟩
  have hlast : (⟨9999, 12, 31⟩ : Date).Real := ⟨by decide, by decide, by decide, by decide⟩
  have hfrom : 1970 ≤ d.year := by
    by_contra hbefore
    have hlt := number_lt hreal hfirst (.inl (by simpa using hbefore))
    rw [number_1970] at hlt
    omega
  have hto : d.year ≤ 9999 := by
    by_contra hafter
    have hlt := number_lt hlast hreal (.inl (by simpa using hafter))
    have h9999 : (⟨9999, 12, 31⟩ : Date).number = 719468 + 2932896 := by decide
    omega
  obtain ⟨h₁, h₂, h₃, h₄⟩ := id hreal
  let t : Moment := ⟨d.year.toNat, d.month.toNat, d.day.toNat, m / 1000 % 86400 / 3600, m / 1000 % 86400 % 3600 / 60,
    m / 1000 % 86400 % 60, m % 1000⟩
  have hdate : t.date = d := by
    obtain ⟨y, mo, da⟩ := d
    simp only [date, Date.mk.injEq, t] at *
    omega
  refine ⟨t, ⟨?_, hdate ▸ hreal, ?_, ?_, ?_, ?_⟩, ?_, ?_, ?_⟩
  · show d.year.toNat < 10000
    omega
  · show m / 1000 % 86400 / 3600 ≤ 23
    omega
  · show m / 1000 % 86400 % 3600 / 60 ≤ 59
    omega
  · show m / 1000 % 86400 % 60 ≤ 60
    omega
  · show m % 1000 ≤ 999
    omega
  · show m / 1000 % 86400 % 60 ≤ 59
    omega
  · rw [millis, hdate, hnumber, clock]
    simp only [t]
    omega
  · rw [rfc3339FromMillis]
    simp only [hcivil, spelled, chars, padded, t]
    rw [← String.toList_inj]
    simp [String.toList_append]

/-- **What is read is there.** From 1970 on, or the leap second before it. -/
theorem year_of_millis (h : t.Real) (hpos : 0 ≤ t.millis) : 1970 ≤ t.year ∨ t = ⟨1969, 12, 31, 23, 59, 60, t.ms⟩ := by
  obtain ⟨-, hdate, hh, hmi, hs, hms⟩ := id h
  unfold millis clock at hpos
  by_cases hday : t.date.number = 719467
  · right
    have hlast : (⟨1969, 12, 31⟩ : Date).Real := ⟨by decide, by decide, by decide, by decide⟩
    have hsame : t.date = ⟨1969, 12, 31⟩ := number_inj hdate hlast (hday.trans (by decide))
    simp only [date, Date.mk.injEq] at hsame
    obtain ⟨y, mo, da, hr, mi, s, ms⟩ := t
    simp only [Moment.mk.injEq, and_true] at *
    omega
  · left
    have hfirst : (⟨1970, 1, 1⟩ : Date).Real := ⟨by decide, by decide, by decide, by decide⟩
    by_contra hbefore
    have hlt := number_lt hdate hfirst (.inl (by simp only [date]; omega))
    rw [number_1970] at hlt
    omega

theorem millis_le (h : t.Real) (hs : t.second ≤ 59) : t.millis ≤ lastMillis := by
  obtain ⟨hy, hdate, hh, hmi, -, hms⟩ := id h
  have hlast : (⟨9999, 12, 31⟩ : Date).Real := ⟨by decide, by decide, by decide, by decide⟩
  have h9999 : (⟨9999, 12, 31⟩ : Date).number = 719468 + 2932896 := by decide
  have hday : t.date.number ≤ 719468 + 2932896 := by
    rw [← h9999]
    by_contra hafter
    rcases t.date.before_or_eq ⟨9999, 12, 31⟩ with hbefore | hsame | hlater
    · have := number_lt hdate hlast hbefore
      omega
    · rw [hsame] at hafter
      omega
    · have hmonth := hdate.month_le
      have hdayle := hdate.day_le
      have hlength : monthDays t.date.year t.date.month ≤ 31 := by
        unfold monthDays
        split_ifs <;> decide
      simp only [Date.Before, date] at hlater hmonth hdayle hlength
      omega
  unfold millis clock lastMillis
  omega

end Moment

open Moment

/-- **Timestamps.** Up to year 9999 what is rendered reads back, and sorts as it is numbered; and what reads at all is 24 bytes that
spell a time of a date there is, from 1970 on or the leap second before it, and is rendered again but for a leap second. -/
theorem timestamps_round_trip :
    (∀ m ≤ lastMillis, millisOf (rfc3339FromMillis m) = some m) ∧
    (∀ m m', m < m' → m' ≤ lastMillis → rfc3339FromMillis m < rfc3339FromMillis m') ∧
    ∀ s m, millisOf s = some m → s.utf8ByteSize = 24 ∧ ∃ t : Moment, s = t.spelled ∧ t.Real ∧
      (1970 ≤ t.year ∨ t = ⟨1969, 12, 31, 23, 59, 60, t.ms⟩) ∧ (t.second ≠ 60 → rfc3339FromMillis m = s) := by
  refine ⟨fun m hm => ?_, fun m m' hlt hm' => ?_, fun s m h => ?_⟩
  · obtain ⟨t, hreal, -, hmillis, hspelled⟩ := rfc_spelled hm
    rw [hspelled, millisOf_spelled hreal.fits]
    exact ⟨⟨hreal.date, hreal.hour, hreal.minute, hreal.second⟩, hmillis⟩
  · obtain ⟨t, hreal, hs, hmillis, hspelled⟩ := rfc_spelled (hlt.le.trans hm')
    obtain ⟨t', hreal', hs', hmillis', hspelled'⟩ := rfc_spelled hm'
    rw [hspelled, hspelled']
    exact spelled_lt hreal hreal' hs hs' (by omega)
  · obtain ⟨t, hfits, rfl⟩ := exists_of_millisOf h
    obtain ⟨⟨hdate, hh, hmi, hs⟩, hmillis⟩ := (millisOf_spelled hfits).mp h
    have hreal : t.Real := ⟨hfits.year, hdate, hh, hmi, hs, by have := hfits.ms; omega⟩
    refine ⟨utf8ByteSize_spelled hfits, t, rfl, hreal, year_of_millis hreal (by omega), fun hleap => ?_⟩
    have hplain : t.second ≤ 59 := by omega
    obtain ⟨t', hreal', hs', hmillis', hspelled'⟩ := rfc_spelled (m := m) (by have := millis_le hreal hplain; omega)
    rw [hspelled', eq_of_millis hreal' hreal hs' hplain (hmillis'.trans hmillis.symm)]

theorem timestamps_round_trip_leap_day :
    millisOf (rfc3339FromMillis 1709164800000) = some 1709164800000 ∧
      rfc3339FromMillis 1709164800000 < rfc3339FromMillis 1709251199999 :=
  ⟨timestamps_round_trip.1 _ (by decide), timestamps_round_trip.2.1 _ _ (by decide) (by decide)⟩

/-- the leap second before 1970 reads as the first second of it -/
theorem leap_second_before_1970 :
    millisOf "1969-12-31T23:59:60.000Z" = some 0 ∧
      ¬∃ t : Moment, "1969-12-31T23:59:60.000Z" = t.spelled ∧ t.Real ∧ 1970 ≤ t.year := by
  have hread : millisOf "1969-12-31T23:59:60.000Z" = some 0 := by decide +kernel
  refine ⟨hread, fun ⟨t, hspelled, hreal, hyear⟩ => ?_⟩
  have hlast : (⟨1969, 12, 31, 23, 59, 60, 0⟩ : Moment).Fits := by constructor <;> decide
  have hchars : (⟨1969, 12, 31, 23, 59, 60, 0⟩ : Moment).spelled = t.spelled := by
    rw [← hspelled]
    decide +kernel
  rw [spelled, spelled, String.ofList_inj, chars, chars] at hchars
  have hfour : pad 4 1969 = pad 4 t.year :=
    (List.append_inj hchars (((pad_spec (by decide) hlast.year).1).trans ((pad_spec (by decide) hreal.fits.year).1).symm)).1
  have hsame := pad_inj (by decide) hlast.year hreal.fits.year hfour
  simp only at hsame
  omega

end OnePipeline
