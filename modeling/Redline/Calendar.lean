/-!
# Points in time and their calendar fields

Times count seconds and nanoseconds from the start of 1970 in universal time;
dates are those of the Gregorian calendar, extended to all years.
-/

namespace Redline

/-- `nanoseconds` counts forward from `seconds`, also before 1970. -/
structure Timestamp where
  seconds : Int
  nanoseconds : Nat
  deriving DecidableEq, Inhabited, Repr

namespace Calendar

/-- A day of the Gregorian calendar; `month` and `day` count from one. -/
structure Date where
  year : Int
  month : Nat
  day : Nat
  deriving DecidableEq, Inhabited, Repr

def daysPerCycle : Int := 146097

/-- The date that lies so many days after 1 January 1970.  Years are counted
from March, which puts the leap day at a year's end. -/
def Date.ofDays (days : Int) : Date :=
  let shifted := days + 719468
  let cycle := shifted.fdiv daysPerCycle
  let dayOfCycle := (shifted.fmod daysPerCycle).toNat
  let yearOfCycle :=
    (dayOfCycle - dayOfCycle / 1460 + dayOfCycle / 36524 - dayOfCycle / 146096) / 365
  let dayOfYear := dayOfCycle - (365 * yearOfCycle + yearOfCycle / 4 - yearOfCycle / 100)
  let monthFromMarch := (5 * dayOfYear + 2) / 153
  let month := if monthFromMarch < 10 then monthFromMarch + 3 else monthFromMarch - 9
  { year := cycle * 400 + yearOfCycle + if month ≤ 2 then 1 else 0
    month
    day := dayOfYear - (153 * monthFromMarch + 2) / 5 + 1 }

def weekday (days : Int) : Nat :=
  ((days + 4).fmod 7).toNat

/-- A date and a time of day, as a clock with some offset from universal time
shows them. -/
structure Reading where
  days : Int
  date : Date
  hour : Nat
  minute : Nat
  second : Nat
  nanosecond : Nat
  offsetMinutes : Int
  deriving DecidableEq, Inhabited, Repr

/-- What a clock that runs `offsetMinutes` ahead of universal time shows. -/
def Reading.ofTimestamp (t : Timestamp) (offsetMinutes : Int) : Reading :=
  let clock := t.seconds + 60 * offsetMinutes
  let days := clock.fdiv 86400
  let secondOfDay := (clock.fmod 86400).toNat
  { days
    date := Date.ofDays days
    hour := secondOfDay / 3600
    minute := secondOfDay / 60 % 60
    second := secondOfDay % 60
    nanosecond := t.nanoseconds
    offsetMinutes }

def padded (fill : Char) (width n : Nat) : String :=
  String.ofList ((toString n).toList.leftpad width fill)

/-- At least four digits; a sign in front of years after 9999 and before 0. -/
def yearText (year : Int) : String :=
  let digits := padded '0' 4 year.natAbs
  if year < 0 then "-" ++ digits else if 9999 < year then "+" ++ digits else digits

/-- Hours and minutes ahead of, or behind, universal time. -/
def offsetText (minutes : Int) : String :=
  let ahead := minutes.natAbs
  (if minutes < 0 then "-" else "+") ++ padded '0' 2 (ahead / 60) ++ padded '0' 2 (ahead % 60)

def weekdayNames : List String :=
  ["Sun", "Mon", "Tue", "Wed", "Thu", "Fri", "Sat"]

def monthNames : List String :=
  ["Jan", "Feb", "Mar", "Apr", "May", "Jun", "Jul", "Aug", "Sep", "Oct", "Nov", "Dec"]

namespace Reading

def clockText (r : Reading) : String :=
  padded '0' 2 r.hour ++ ":" ++ padded '0' 2 r.minute ++ ":" ++ padded '0' 2 r.second

/-- Year, month and day between hyphens, then the time with nanoseconds and the
offset: `2001-09-09 01:46:40.000000005 +0000`. -/
def numericText (r : Reading) : String :=
  yearText r.date.year ++ "-" ++ padded '0' 2 r.date.month ++ "-" ++
    padded '0' 2 r.date.day ++ " " ++ r.clockText ++ "." ++
    padded '0' 9 r.nanosecond ++ " " ++ offsetText r.offsetMinutes

/-- Names of day and month, the day of the month in two columns, the time and
the year: `Sun Sep  9 01:46:40 2001`. -/
def namedText (r : Reading) : String :=
  weekdayNames.getD (weekday r.days) "" ++ " " ++ monthNames.getD (r.date.month - 1) "" ++
    " " ++ padded ' ' 2 r.date.day ++ " " ++ r.clockText ++ " " ++ yearText r.date.year

end Reading

end Calendar

end Redline
