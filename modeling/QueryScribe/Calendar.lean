/-!
# Moments of the calendar

Moments in universal time by the proleptic Gregorian calendar, from the year 1 to the year 9999, to
the microsecond, and their distance from the start of 1970.
-/

namespace QueryScribe

/-- The components of a moment. -/
structure Moment where
  year : Int
  month : Int
  day : Int
  hour : Int := 0
  minute : Int := 0
  second : Int := 0
  microsecond : Int := 0
deriving DecidableEq, Repr

/-- Why numbers are no moment. -/
inductive MomentFault
  | componentTooLarge
  | componentTooSmall
  | componentTooWide
  | notAnInteger
  | year (y : Int)
  | month
  | day
  | hour
  | minute
  | second
  | microsecond
deriving DecidableEq, Repr

namespace Moment

/-- Every fourth year is a leap year, but of the full centuries only every fourth. -/
def isLeap (y : Int) : Bool := y % 4 = 0 && (y % 100 ≠ 0 || y % 400 = 0)

/-- The number of days of a month. -/
def daysInMonth (y m : Int) : Int :=
  if m = 2 then if isLeap y then 29 else 28
  else if m = 4 || m = 6 || m = 9 || m = 11 then 30
  else 31

/-- The days of a year before one of its months. -/
def daysBeforeMonth (y : Int) : Nat → Int
  | 0 => 0
  | 1 => 0
  | m + 1 => daysBeforeMonth y m + daysInMonth y m

/-- The days before a year, from the start of the year 1. -/
def daysBeforeYear (y : Int) : Int :=
  let z := y - 1
  z * 365 + z / 4 - z / 100 + z / 400

/-- The day of a date, where the first day of the year 1 is day 0. -/
def dayNumber (y m d : Int) : Int := daysBeforeYear y + daysBeforeMonth y m.toNat + (d - 1)

/-- The first fault of the components, from the year to the microsecond. -/
def fault? (t : Moment) : Option MomentFault :=
  if t.year < 1 || 9999 < t.year then some (.year t.year)
  else if t.month < 1 || 12 < t.month then some .month
  else if t.day < 1 || daysInMonth t.year t.month < t.day then some .day
  else if t.hour < 0 || 23 < t.hour then some .hour
  else if t.minute < 0 || 59 < t.minute then some .minute
  else if t.second < 0 || 59 < t.second then some .second
  else if t.microsecond < 0 || 999999 < t.microsecond then some .microsecond
  else none

/-- A component has to be a number of 32 bits. -/
def componentFault? (n : Int) : Option MomentFault :=
  if n < -Int.pow 2 63 || Int.pow 2 63 ≤ n then some .componentTooWide
  else if Int.pow 2 31 ≤ n then some .componentTooLarge
  else if n < -Int.pow 2 31 then some .componentTooSmall
  else none

/-- The moment of three to seven components; missing ones are zero. -/
def ofParts? (parts : List Int) : Except MomentFault Moment :=
  match parts.findSome? componentFault? with
  | some f => .error f
  | none =>
    let at' (i : Nat) : Int := parts.getD i 0
    let t : Moment := ⟨at' 0, at' 1, at' 2, at' 3, at' 4, at' 5, at' 6⟩
    match t.fault? with
    | some f => .error f
    | none => .ok t

/-- The seven components. -/
def parts (t : Moment) : List Int :=
  [t.year, t.month, t.day, t.hour, t.minute, t.second, t.microsecond]

/-- The start of 1970. -/
def epoch : Moment := ⟨1970, 1, 1, 0, 0, 0, 0⟩

end Moment

/-- A stretch of time: days, of which the last may be broken off after seconds and microseconds. -/
structure Interval where
  days : Int
  seconds : Int
  microseconds : Int
deriving DecidableEq, Repr

/-- A stretch of time from any numbers of days, seconds and microseconds. -/
def Interval.normal (days seconds microseconds : Int) : Interval :=
  let seconds := seconds + microseconds / 1000000
  ⟨days + seconds / 86400, seconds % 86400, microseconds % 1000000⟩

namespace Moment

/-- The time from one moment to another. -/
def since (t start : Moment) : Interval :=
  .normal (dayNumber t.year t.month t.day - dayNumber start.year start.month start.day)
    ((t.hour * 60 + t.minute) * 60 + t.second - ((start.hour * 60 + start.minute) * 60 + start.second))
    (t.microsecond - start.microsecond)

/-- The whole milliseconds from the start of 1970, negative before it. -/
def epochMillis (t : Moment) : Int :=
  let time := t.since epoch
  (time.days * 86400 + time.seconds) * 1000 + time.microseconds / 1000

end Moment

end QueryScribe
