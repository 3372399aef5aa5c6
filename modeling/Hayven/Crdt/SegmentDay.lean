import Hayven.Lib.Json
/-!
# Segment days

UTC days as segment names: `utcDate` and the acceptance window of `crdt/oplog.ts`,
and `isSafeSegmentName` of `daemon/routes/sync.ts`. Days are counted from the
epoch; the calendar is the proleptic Gregorian one.
-/
open Hayven.Lib

namespace Hayven.Crdt

def msPerDay : Int := 86400000

/-- The largest time a `Date` can hold, in milliseconds. -/
def maxDateMs : Int := 8640000000000000

structure CivilDate where
  year : Int
  month : Int
  day : Int
deriving DecidableEq, Repr

/-- The date of a day number, by eras of 400 years that start on a 1 March. -/
def civilOfDays (days : Int) : CivilDate :=
  let z := days + 719468
  let era := z / 146097
  let doe := z % 146097
  let yoe := (doe - doe / 1460 + doe / 36524 - doe / 146096) / 365
  let doy := doe - (365 * yoe + yoe / 4 - yoe / 100)
  let mp := (5 * doy + 2) / 153
  let month := if mp < 10 then mp + 3 else mp - 9
  { year := yoe + era * 400 + (if month ≤ 2 then 1 else 0), month, day := doy - (153 * mp + 2) / 5 + 1 }

/-- The day number of the first of a month, 1 to 12. -/
def daysOfMonth (year month : Int) : Int :=
  let y := if month ≤ 2 then year - 1 else year
  let era := y / 400
  let yoe := y % 400
  let doy := (153 * (if month > 2 then month - 3 else month + 9) + 2) / 5
  era * 146097 + (yoe * 365 + yoe / 4 - yoe / 100 + doy) - 719468

/-- `Date.UTC(year, monthIndex, date)` in days: month and date may run over, and years 0
to 99 mean 1900 to 1999. -/
def dateUtc (year monthIndex date : Int) : Int :=
  let year := if 0 ≤ year ∧ year ≤ 99 then 1900 + year else year
  daysOfMonth (year + monthIndex / 12) (monthIndex % 12 + 1) + (date - 1)

/-! ## Text -/

/-- `padStart(2, "0")`. -/
def pad2 (s : JsString) : JsString := List.replicate (2 - s.length) 0x30 ++ s

/-- `utcDate`: an instant no `Date` can hold has no parts. -/
def utcDate (unixMs : Int) : JsString :=
  if unixMs.natAbs > maxDateMs then ascii "NaN-NaN-NaN"
  else
    let c := civilOfDays (unixMs / msPerDay)
    intText c.year ++ 0x2D :: pad2 (intText c.month) ++ 0x2D :: pad2 (intText c.day)

/-! ## Acceptance window -/

def maxFutureSegmentDays : Int := 7

def minSegmentDay : JsString := ascii "1970-01-01"

/-- `assertAcceptableSegmentDay` does not throw. -/
def acceptableSegmentDay (day : JsString) (nowMs : Int) : Bool :=
  ¬ day < minSegmentDay ∧ ¬ utcDate (nowMs + maxFutureSegmentDays * msPerDay) < day

def digitsValue (s : JsString) : Option Nat := if s.all isDigit then some (decValue s) else none

/-- `YYYY-MM-DD`, and a day of the calendar: the date must come back from `Date.UTC`. -/
def isSafeSegmentName (s : JsString) : Bool :=
  match s with
  | [y1, y2, y3, y4, d1, m1, m2, d2, t1, t2] =>
    match digitsValue [y1, y2, y3, y4], digitsValue [m1, m2], digitsValue [t1, t2] with
    | some y, some mo, some d => d1 = 0x2D ∧ d2 = 0x2D ∧ civilOfDays (dateUtc y (mo - 1) d) = ⟨y, mo, d⟩
    | _, _, _ => false
  | _ => false

example : utcDate 1709164800000 = ascii "2024-02-29" := by decide +kernel

example : isSafeSegmentName (ascii "2023-02-29") = false := by decide +kernel

end Hayven.Crdt
