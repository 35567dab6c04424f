import RelSql.Number.Digits

/-!
# Fixed point numbers

A decimal number is a mantissa of at most 96 bits counted in a power of ten with at most 28
places.  A number keeps the places it is written with; what exceeds the mantissa or the
places is rounded away, a half going up.
-/

namespace RelSql.Number

/-- The number `mantissa / 10 ^ scale`, with a sign. -/
structure Decimal where
  negative : Bool
  mantissa : Nat
  scale : Nat
  deriving DecidableEq, Repr

namespace Decimal

/-- The most places a number has. -/
def maxScale : Nat := 28

/-- The first number that no mantissa holds. -/
def mantissaLimit : Nat := twoPow 96

/-- A number, whose sign is dropped when it is zero. -/
def make (negative : Bool) (mantissa scale : Nat) : Decimal :=
  ⟨negative && mantissa != 0, mantissa, scale⟩

/-- An integer. -/
def ofInt (i : Int) : Decimal :=
  make (i < 0) i.natAbs 0

/-- Rounds the number read so far by the first digit that it has no place for. -/
def roundBy (mantissa scale digit : Nat) : Option (Nat × Nat) :=
  if digit < 5 then some (mantissa, scale)
  else if mantissa + 1 < mantissaLimit then some (mantissa + 1, scale)
  else if scale = 0 then none
  else some ((mantissa + 5) / 10, scale - 1)

/-- A number is long when it has this mantissa or a greater one without its last digit:
another digit may then exceed 64 bits. -/
def longFrom : Nat := (twoPow 64 - 1) / 10 - 255

/-- The first digit that the number read so far has no place for.  An underscore in front of
it is skipped in a long number, and is the digit zero itself in any other. -/
def excessDigit (mantissa : Nat) (cs : List Char) : Nat :=
  if cs.head? = some '_' ∧ mantissa / 10 < longFrom then 0
  else
    match cs.find? Char.isDigit with
    | some c => digitValue c
    | none => 0

/-- Reads the digits that the number read so far has no place for, and the underscores
among them. -/
def readExcess (mantissa scale : Nat) (cs : List Char) : Option (Nat × Nat) :=
  if cs.all fun c => c.isDigit || c == '_' then
    roundBy mantissa scale (excessDigit mantissa cs)
  else none

/-- Reads the digits of a number.  `point` and `digit` tell whether a point and a digit
have been read.  Underscores may separate digits. -/
def readDigits (point digit : Bool) (mantissa scale : Nat) : List Char → Option (Nat × Nat)
  | [] => if digit then some (mantissa, scale) else none
  | c :: cs =>
    if point ∧ scale ≥ maxScale then readExcess mantissa scale (c :: cs)
    else if c.isDigit then
      let next := 10 * mantissa + digitValue c
      if next < mantissaLimit then
        readDigits point true next (if point then scale + 1 else scale) cs
      else if point then readExcess mantissa scale (c :: cs)
      else none
    else if c = '.' ∧ !point then readDigits true digit mantissa scale cs
    else if c = '_' ∧ digit then readDigits point digit mantissa scale cs
    else none

/-- Reads the digits of a number of a given sign. -/
def readMagnitude? (negative : Bool) (cs : List Char) : Option Decimal :=
  (readDigits false false 0 0 cs).map fun (m, s) => make negative m s

/-- The number a text without an exponent denotes. -/
def readPlain? : List Char → Option Decimal
  | '-' :: cs => readMagnitude? true cs
  | '+' :: cs => readMagnitude? false cs
  | cs => readMagnitude? false cs

/-- The magnitude of a number without its last `n` places, a half going up. -/
def dropPlaces (mantissa n : Nat) : Nat :=
  (2 * mantissa + tenPow n) / (2 * tenPow n)

/-- Moves the point of a number to the left; the places it has no more room for are rounded
away. -/
def shiftLeft? (d : Decimal) (n : Nat) : Option Decimal :=
  if maxScale < n then none
  else if d.scale + n ≤ maxScale then some { d with scale := d.scale + n }
  else
    let mantissa := dropPlaces d.mantissa (d.scale + n - maxScale)
    some { d with mantissa, scale := maxScale }

/-- Moves the point of a number to the right. -/
def shiftRight? (d : Decimal) (n : Nat) : Option Decimal :=
  if n ≤ d.scale then some { d with scale := d.scale - n }
  else if n ≤ maxScale then
    let m := d.mantissa * tenPow (n - d.scale)
    if m < mantissaLimit then some (make d.negative m 0) else none
  else none

/-- The number a text in scientific notation denotes. -/
def readScientific? (cs : List Char) : Option Decimal :=
  let isMark := fun c => c == 'e' || c == 'E'
  match cs.dropWhile (!isMark ·) with
  | [] => none
  | _ :: exponent => do
    let d ← readPlain? (cs.takeWhile (!isMark ·))
    match exponent with
    | '-' :: e => d.shiftLeft? (← readSigned? e)
    | e => d.shiftRight? (← readSigned? e)

/-- The number a text denotes. -/
def read? (cs : List Char) : Option Decimal :=
  (readPlain? cs).or (readScientific? cs)

/-- The text of a number, with all its places. -/
def text (d : Decimal) : String :=
  let ds := padded (d.scale + 1) d.mantissa
  let whole := ds.length - d.scale
  let sign := if d.negative then ['-'] else []
  let places := if d.scale = 0 then [] else '.' :: ds.drop whole
  String.ofList (sign ++ ds.take whole ++ places)

/-- Equality of numbers, whatever their places. -/
def equals (x y : Decimal) : Bool :=
  x.mantissa * tenPow y.scale == y.mantissa * tenPow x.scale
    && (x.negative == y.negative || x.mantissa == 0)

end Decimal

end RelSql.Number
