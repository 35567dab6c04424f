import RelSql.Number.Double

/-!
# Reading double precision numbers

A number is written with digits, a point among or beside them, and an exponent, or as one
of the names `nan`, `inf` and `infinity` in any case.  What is read is the nearest number
of the format.
-/

namespace RelSql.Number.Double

/-- The integer a text of digits denotes, a sign in front being allowed. -/
def readInteger? : List Char → Option Int
  | '-' :: cs => (readNat? cs).map fun n => -(n : Int)
  | cs => (readSigned? cs).map Int.ofNat

/-- The exponent that ends a number; no text is the exponent zero. -/
def readExponent? : List Char → Option Int
  | [] => some 0
  | c :: cs => if c = 'e' ∨ c = 'E' then readInteger? cs else none

/-- The digits after a point at the start of a text, and what follows them. -/
def splitPlaces : List Char → List Char × List Char
  | '.' :: cs => (cs.takeWhile Char.isDigit, cs.dropWhile Char.isDigit)
  | cs => ([], cs)

/-- The finite number, or the overflow, that digits without a sign denote. -/
def readDigits? (negative : Bool) (cs : List Char) : Option Double :=
  let whole := cs.takeWhile Char.isDigit
  let (places, rest) := splitPlaces (cs.dropWhile Char.isDigit)
  if whole = [] ∧ places = [] then none
  else
    (readExponent? rest).map fun e =>
      ofScientific negative (ofDigits (whole ++ places)) (e - places.length)

/-- The number that a text without a sign denotes. -/
def readMagnitude? (negative : Bool) (cs : List Char) : Option Double :=
  let name := String.ofList (cs.map Char.toLower)
  if name = "nan" then some { nan with negative }
  else if name = "inf" ∨ name = "infinity" then some (infinity negative)
  else readDigits? negative cs

/-- The number a text denotes. -/
def read? : List Char → Option Double
  | '-' :: cs => readMagnitude? true cs
  | '+' :: cs => readMagnitude? false cs
  | cs => readMagnitude? false cs

end RelSql.Number.Double
