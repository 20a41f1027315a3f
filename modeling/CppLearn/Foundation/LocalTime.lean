import Mathlib.Data.Int.Notation
import Mathlib.Tactic.Common

/-!
# Broken-down local time

`Tm` is the broken-down time of the C library, and a `TimeZone` the two functions through which a
program sees the zone of its host: `localtime`, which fails where the year does not fit, and
`mktime`. Nothing is assumed about a zone here, so that offsets that change in the course of a year
are covered. `utc` is the zone without an offset, on the proleptic Gregorian calendar.
-/

set_option autoImplicit false
set_option relaxedAutoImplicit false

namespace CppLearn.Foundation.LocalTime

/-- `struct tm`, with years counted from 1900 and months from zero. -/
structure Tm where
  year : ℤ
  mon : ℤ
  mday : ℤ
  hour : ℤ
  min : ℤ
  sec : ℤ
  deriving DecidableEq

/-- `localtime` and `mktime` of a host. -/
structure TimeZone where
  localtime : ℤ → Option Tm
  mktime : Tm → ℤ

/-- The days from 1 January 1970 to a day of a month counted from zero, which may lie outside the
year. -/
def daysOfCivil (year mon mday : ℤ) : ℤ :=
  let normalYear := year + mon / 12
  let month := mon % 12 + 1
  let y := if month ≤ 2 then normalYear - 1 else normalYear
  let era := y / 400
  let yearOfEra := y % 400
  let dayOfYear := (153 * (if month > 2 then month - 3 else month + 9) + 2) / 5
  era * 146097 + (yearOfEra * 365 + yearOfEra / 4 - yearOfEra / 100 + dayOfYear) - 719468 +
    (mday - 1)

/-- The civil date of a day counted from 1 January 1970: year, month from zero, day of month. -/
def civilOfDays (days : ℤ) : ℤ × ℤ × ℤ :=
  let z := days + 719468
  let era := z / 146097
  let dayOfEra := z % 146097
  let yearOfEra := (dayOfEra - dayOfEra / 1460 + dayOfEra / 36524 - dayOfEra / 146096) / 365
  let dayOfYear := dayOfEra - (365 * yearOfEra + yearOfEra / 4 - yearOfEra / 100)
  let shifted := (5 * dayOfYear + 2) / 153
  let mday := dayOfYear - (153 * shifted + 2) / 5 + 1
  let month := if shifted < 10 then shifted + 3 else shifted - 9
  let year := yearOfEra + era * 400 + if month ≤ 2 then 1 else 0
  (year, month - 1, mday)

/-- The zone without an offset. -/
def utc : TimeZone where
  localtime := fun t ↦
    let (year, mon, mday) := civilOfDays (t / 86400)
    some
      { year := year - 1900
        mon := mon
        mday := mday
        hour := t % 86400 / 3600
        min := t % 3600 / 60
        sec := t % 60 }
  mktime := fun tm ↦
    daysOfCivil (tm.year + 1900) tm.mon tm.mday * 86400 + tm.hour * 3600 + tm.min * 60 + tm.sec

-- 1 September 2017, the day of the directory name in the source's own example
example : utc.mktime ⟨117, 8, 1, 0, 0, 0⟩ = 1504224000 := by decide

example : utc.localtime 1504271045 = some ⟨117, 8, 1, 13, 4, 5⟩ := by decide

end CppLearn.Foundation.LocalTime
