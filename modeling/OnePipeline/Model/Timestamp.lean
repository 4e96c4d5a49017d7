/-
The envelope's one timestamp format, as it is rendered (`src/sys.rs`). `millisOf` reads it back.
-/
import Mathlib.Tactic
import OnePipeline.Core.Decimal
import OnePipeline.Model.Record

namespace OnePipeline

/-- days since 1970-01-01 to a Gregorian date -/
def civilFromDays (days : ℤ) : ℤ × ℕ × ℕ :=
  let z := days + 719468
  let era := (if 0 ≤ z then z else z - 146096).tdiv 146097
  let doe := z - era * 146097
  let yoe := (doe - doe / 1460 + doe / 36524 - doe / 146096) / 365
  let y := yoe + era * 400
  let doy := doe - (365 * yoe + yoe / 4 - yoe / 100)
  let mp := (5 * doy + 2) / 153
  let d := doy - (153 * mp + 2) / 5 + 1
  let m := if mp < 10 then mp + 3 else mp - 9
  let year := if m ≤ 2 then y + 1 else y
  (year, m.toNat, d.toNat)

/-- a number in at least `width` digits -/
def padded (width n : ℕ) : String := String.ofList (Decimal.pad width n)

/-- epoch milliseconds as RFC 3339, millisecond precision, UTC -/
def rfc3339FromMillis (millis : ℕ) : String :=
  let secs := millis / 1000
  let ms := millis % 1000
  let days : ℤ := (secs / 86400 : ℕ)
  let sod := secs % 86400
  let (year, month, day) := civilFromDays days
  let (hour, minute, second) := (sod / 3600, sod % 3600 / 60, sod % 60)
  padded 4 year.toNat ++ "-" ++ padded 2 month ++ "-" ++ padded 2 day ++ "T" ++ padded 2 hour ++ ":" ++ padded 2 minute ++ ":" ++
    padded 2 second ++ "." ++ padded 3 ms ++ "Z"

end OnePipeline
