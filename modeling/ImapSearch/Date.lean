import ImapSearch.Decimal

/-!
# ImapSearch.Date

**Calendar days.** A `Date` is a day of the Gregorian calendar, extended to
years before its introduction, so that year 0 comes before year 1. A search
writes a day between double quotes, as in `"1-Jan-2025"`: a day without leading
zeros, the English name of the month in three letters, and a year of four digits
at least, with a sign where it lies outside the years 0 to 9999.
-/

namespace ImapSearch

namespace Date

/-- The first year of the calendar. -/
def minYear : Int := -262143

/-- The last year of the calendar. -/
def maxYear : Int := 262142

/-- Every fourth year is a leap year, but of the full centuries only every fourth. -/
def isLeapYear (year : Int) : Bool := year % 4 == 0 && (year % 100 != 0 || year % 400 == 0)

/-- How many days a month has. -/
def daysIn (year : Int) (month : Nat) : Nat :=
  match month with
  | 2 => if isLeapYear year then 29 else 28
  | 4 | 6 | 9 | 11 => 30
  | _ => 31

/-- Whether the calendar has such a day. -/
def isDay (year : Int) (month day : Nat) : Bool :=
  minYear ≤ year && year ≤ maxYear && 1 ≤ month && month ≤ 12
    && 1 ≤ day && day ≤ daysIn year month

end Date

/-- A day of the calendar. -/
structure Date where
  /-- The year, zero and negative years included. -/
  year : Int
  /-- The month, from 1 to 12. -/
  month : Nat
  /-- The day of the month, from 1. -/
  day : Nat
  /-- The calendar has this day. -/
  valid : Date.isDay year month day
deriving DecidableEq, Repr

namespace Date

/-- The day with the given year, month and day of the month, if the calendar has it. -/
def ofParts? (year : Int) (month day : Nat) : Option Date :=
  if h : isDay year month day then some ⟨year, month, day, h⟩ else none

/-- The day after, if the calendar does not end. -/
def next? (d : Date) : Option Date :=
  if d.day < daysIn d.year d.month then ofParts? d.year d.month (d.day + 1)
  else if d.month < 12 then ofParts? d.year (d.month + 1) 1
  else ofParts? (d.year + 1) 1 1

/-- The name of a month in three letters. -/
def monthName (month : Nat) : Bytes :=
  match month with
  | 1 => utf8 "Jan"
  | 2 => utf8 "Feb"
  | 3 => utf8 "Mar"
  | 4 => utf8 "Apr"
  | 5 => utf8 "May"
  | 6 => utf8 "Jun"
  | 7 => utf8 "Jul"
  | 8 => utf8 "Aug"
  | 9 => utf8 "Sep"
  | 10 => utf8 "Oct"
  | 11 => utf8 "Nov"
  | _ => utf8 "Dec"

/-- A year in four digits or more, with a sign if it is negative or has more than four. -/
def encodeYear (year : Int) : Bytes :=
  if year < 0 then Ascii.minus :: Decimal.padded 4 year.natAbs
  else if year > 9999 then Ascii.plus :: Decimal.padded 4 year.natAbs
  else Decimal.padded 4 year.natAbs

/-- The day as a search writes it, double quotes included. -/
def encode (d : Date) : Bytes :=
  Ascii.quote :: Decimal.encode d.day ++ Ascii.minus :: monthName d.month
    ++ Ascii.minus :: encodeYear d.year ++ [Ascii.quote]

end Date

end ImapSearch
