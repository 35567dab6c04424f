import RelSql.Text.Character
import RelSql.Number.Digits

/-!
# Dates and times

Days of the proleptic Gregorian calendar and times of such days.  Years are written in at
least four digits, with a sign outside of 0 to 9999.  The second 60 is a leap second, which
any minute may have.
-/

namespace RelSql

open Text Number

/-- A day of the calendar. -/
structure Date where
  year : Int
  month : Nat
  day : Nat
  deriving DecidableEq, Repr

/-- A time of a day, to the nanosecond. -/
structure Timestamp where
  date : Date
  hour : Nat
  minute : Nat
  second : Nat
  nano : Nat
  deriving DecidableEq, Repr

namespace Date

/-- Whether a year has a 29th of February. -/
def isLeap (year : Int) : Bool :=
  year % 4 == 0 && (year % 100 != 0 || year % 400 == 0)

/-- The number of days of a month. -/
def monthLength (year : Int) (month : Nat) : Nat :=
  if month = 2 then if isLeap year then 29 else 28
  else if month = 4 ∨ month = 6 ∨ month = 9 ∨ month = 11 then 30
  else 31

/-- Whether a date is one of the calendar, in the range of years that has one. -/
def isValid (d : Date) : Bool :=
  -262143 ≤ d.year && d.year ≤ 262142 && 1 ≤ d.month && d.month ≤ 12
    && 1 ≤ d.day && d.day ≤ monthLength d.year d.month

/-- The text of a year. -/
def yearText (year : Int) : List Char :=
  if year < 0 then '-' :: padded 4 year.natAbs
  else if year > 9999 then '+' :: digits year.natAbs
  else padded 4 year.natAbs

/-- The characters of a date. -/
def chars (d : Date) : List Char :=
  yearText d.year ++ '-' :: padded 2 d.month ++ '-' :: padded 2 d.day

/-- The text of a date. -/
def text (d : Date) : String :=
  String.ofList d.chars

end Date

/-- Reads one digit at least and `width` digits at most. -/
def readUpTo? (width : Nat) (cs : List Char) : Option (Nat × List Char) :=
  let ds := (cs.take width).takeWhile Char.isDigit
  if ds = [] then none else some (ofDigits ds, cs.drop ds.length)

/-- Reads a number after blank characters. -/
def readField? (width : Nat) (cs : List Char) : Option (Nat × List Char) :=
  readUpTo? width (trimLeft cs)

/-- Reads a mark after blank characters. -/
def readMark? (mark : Char) (cs : List Char) : Option (List Char) :=
  match trimLeft cs with
  | c :: rest => if c = mark then some rest else none
  | [] => none

/-- Reads a year: of any length after a sign, otherwise of four digits at most. -/
def readYear? (cs : List Char) : Option (Int × List Char) :=
  match trimLeft cs with
  | '-' :: rest => (readUpTo? rest.length rest).map fun (n, r) => (-(n : Int), r)
  | '+' :: rest => (readUpTo? rest.length rest).map fun (n, r) => ((n : Int), r)
  | rest => (readUpTo? 4 rest).map fun (n, r) => ((n : Int), r)

/-- Reads a date of the calendar. -/
def Date.readFrom? (cs : List Char) : Option (Date × List Char) := do
  let (year, cs) ← readYear? cs
  let cs ← readMark? '-' cs
  let (month, cs) ← readField? 2 cs
  let cs ← readMark? '-' cs
  let (day, cs) ← readField? 2 cs
  let date : Date := ⟨year, month, day⟩
  if date.isValid then some (date, cs) else none

/-- The date a text denotes. -/
def Date.read? (s : String) : Option Date := do
  let (date, rest) ← Date.readFrom? s.toList
  if trimLeft rest = [] then some date else none

namespace Timestamp

/-- Reads the fraction of a second, of which nine digits count. -/
def readFraction? : List Char → Option (Nat × List Char)
  | '.' :: cs => do
    let ds := cs.takeWhile Char.isDigit
    let counted := ds.take 9
    if counted = [] then none
    else some (ofDigits counted * tenPow (9 - counted.length), cs.drop ds.length)
  | cs => some (0, cs)

/-- The time a text denotes: a date and a time of day, with a `T` between them. -/
def read? (s : String) : Option Timestamp := do
  let (date, cs) ← Date.readFrom? s.toList
  let cs ← readMark? 'T' cs
  let (hour, cs) ← readField? 2 cs
  let cs ← readMark? ':' cs
  let (minute, cs) ← readField? 2 cs
  let cs ← readMark? ':' cs
  let (second, cs) ← readField? 2 cs
  let (nano, cs) ← readFraction? cs
  if hour ≤ 23 ∧ minute ≤ 59 ∧ second ≤ 60 ∧ trimLeft cs = [] then
    some ⟨date, hour, minute, second, nano⟩
  else none

/-- The characters of the time of day, to the second. -/
def clock (t : Timestamp) : List Char :=
  padded 2 t.hour ++ ':' :: padded 2 t.minute ++ ':' :: padded 2 t.second

/-- The text of a time, to the second, with a space after the date. -/
def text (t : Timestamp) : String :=
  String.ofList (t.date.chars ++ ' ' :: t.clock)

/-- The fraction of the second in the fewest of 0, 3, 6 and 9 digits that hold it. -/
def fraction (t : Timestamp) : List Char :=
  if t.nano = 0 then []
  else if t.nano % 1000000 = 0 then '.' :: padded 3 (t.nano / 1000000)
  else if t.nano % 1000 = 0 then '.' :: padded 6 (t.nano / 1000)
  else '.' :: padded 9 t.nano

/-- The text of a time in full, with a `T` after the date. -/
def isoText (t : Timestamp) : String :=
  String.ofList (t.date.chars ++ 'T' :: t.clock ++ t.fraction)

end Timestamp

end RelSql
