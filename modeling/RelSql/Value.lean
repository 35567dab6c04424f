import RelSql.DataType
import RelSql.Calendar
import RelSql.Number.Shortest
import RelSql.Number.Decimal
import RelSql.Text.Quoted

/-!
# Values

The literal values of expressions and the values of result rows.
-/

namespace RelSql

open Number

/-- A literal value. -/
inductive Value where
  | null
  | boolean (b : Bool)
  | integer (i : Int)
  | float (x : Double)
  | decimal (d : Decimal)
  | string (s : String)
  | timestamp (t : Timestamp)
  | date (d : Date)
  deriving DecidableEq, Repr

namespace Value

/-- Numbers in double precision are plain from `0.0001` up to sixteen digits before the
point, and always show a point or an exponent. -/
def doubleLayout : Layout := ⟨-3, 16, true, true, false⟩

/-- The text of an integer. -/
def integerText (i : Int) : String :=
  String.ofList (Double.signedDigits i)

/-- The narrowest integer type that holds an integer. -/
def integerType (i : Int) : DataType :=
  if -128 ≤ i ∧ i < 128 then .int8
  else if -32768 ≤ i ∧ i < 32768 then .int16
  else if -2147483648 ≤ i ∧ i < 2147483648 then .int32
  else .int64

/-- The type of a value. -/
def dataType : Value → DataType
  | .null => .null
  | .boolean _ => .boolean
  | .integer i => integerType i
  | .float _ => .double
  | .decimal d => .decimal 38 (UInt8.ofNat d.scale)
  | .string _ => .string
  | .timestamp _ => .timestamp
  | .date _ => .date

/-- Whether the value is `null`. -/
def isNull : Value → Bool
  | .null => true
  | _ => false

/-- A value in words. -/
def text : Value → String
  | .null => "null"
  | .boolean true => "true"
  | .boolean false => "false"
  | .integer i => integerText i
  | .float x => x.text doubleLayout
  | .decimal d => d.text
  | .string s => Text.quoted s
  | .timestamp t => t.text
  | .date d => d.text

/-- What values have from the libraries of calendars and of fixed point numbers: how the parts of
a date and a time are written, how a fixed point number is written, and which ones are equal. -/
structure Library where
  year : Int → List Char
  month : Nat → List Char
  day : Nat → List Char
  hour : Nat → List Char
  minute : Nat → List Char
  second : Nat → List Char
  decimal : Decimal → String
  sameDecimal : Decimal → Decimal → Bool

/-- The parts with leading zeros, and the numbers of this library. -/
def Library.standard : Library where
  year := Date.yearText
  month := padded 2
  day := padded 2
  hour := padded 2
  minute := padded 2
  second := padded 2
  decimal := Decimal.text
  sameDecimal := Decimal.equals

/-- Equality of values: numbers compare as numbers, so `nan` differs from itself. -/
def equalsIn (L : Library) : Value → Value → Bool
  | .float x, .float y => x.equals y
  | .decimal x, .decimal y => L.sameDecimal x y
  | x, y => x = y

/-- Equality of values with the numbers of this library. -/
def equals : Value → Value → Bool :=
  equalsIn .standard

end Value

end RelSql
