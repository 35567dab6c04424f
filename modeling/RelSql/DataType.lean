import RelSql.Text.Character
import RelSql.Number.Digits

/-!
# Data types

The types of columns, cast targets and function signatures.  A type has a name of its own,
a name in SQL and a name in column definitions; all three are read back, without regard to
case and to white space around them.
-/

namespace RelSql

open Text Number

/-- The type of a column. -/
inductive DataType where
  | null
  | boolean
  | int8
  | int16
  | int32
  | int64
  | float
  | double
  | string
  | timestamp
  | date
  | decimal (precision scale : UInt8)
  deriving DecidableEq, Repr

/-- The faults of a type name. -/
inductive TypeError where
  | invalidType (name : String)
  | other (description : String)
  deriving DecidableEq, Repr

/-- What the fault is about. -/
def TypeError.description : TypeError → String
  | .invalidType name => name ++ " is not a supported type"
  | .other description => description

/-- The fault in words, on a line of its own. -/
def TypeError.message (e : TypeError) : String :=
  match e with
  | .invalidType _ => "InvalidType: " ++ e.description ++ "\n"
  | .other _ => e.description ++ "\n"

namespace DataType

/-- Whether the type is one of the integer types. -/
def isInteger : DataType → Bool
  | .int8 | .int16 | .int32 | .int64 => true
  | _ => false

/-- Whether the type is one of the number types. -/
def isNumeric : DataType → Bool
  | .float | .double | .decimal _ _ => true
  | t => t.isInteger

/-- Whether the type is one of the types of dates and times. -/
def isTemporal : DataType → Bool
  | .timestamp | .date => true
  | _ => false

/-- The name of a decimal type. -/
def decimalName (precision scale : UInt8) : String :=
  String.ofList ("decimal(".toList ++ digits precision.toNat ++ ',' :: digits scale.toNat ++ [')'])

/-- The name of a type. -/
def name : DataType → String
  | .null => "null"
  | .boolean => "boolean"
  | .int8 => "int8"
  | .int16 => "int16"
  | .int32 => "int32"
  | .int64 => "int64"
  | .float => "float"
  | .double => "double"
  | .string => "string"
  | .timestamp => "timestamp"
  | .date => "date"
  | .decimal precision scale => decimalName precision scale

/-- The name of a type in casts and function signatures. -/
def sqlName : DataType → String
  | .int8 => "tinyint"
  | .int16 => "smallint"
  | .int32 => "int"
  | .int64 => "bigint"
  | t => t.name

/-- The name of a type in column definitions. -/
def columnName (t : DataType) : String :=
  upper t.sqlName

/-- The place of a type in the order of promotion; types outside of it come first. -/
def rank : DataType → Nat
  | .boolean => 1
  | .int8 => 2
  | .int16 => 3
  | .int32 => 4
  | .int64 => 5
  | .decimal _ _ => 6
  | .float => 7
  | .double => 8
  | _ => 0

/-- The type of an arithmetic operation on two types: the one of higher rank, and the left
one of equal ranks. -/
def promote (left right : DataType) : DataType :=
  if right.rank > left.rank then right else left

/-- The names of the types without parameters. -/
def spellings : List (String × DataType) :=
  [("null", .null), ("boolean", .boolean), ("bool", .boolean),
    ("int8", .int8), ("tinyint", .int8), ("int16", .int16), ("smallint", .int16),
    ("int32", .int32), ("int", .int32), ("int64", .int64), ("bigint", .int64),
    ("float", .float), ("double", .double), ("string", .string),
    ("timestamp", .timestamp), ("date", .date)]

/-- The number below 256 that a text denotes, with white space around it. -/
def readByte? (cs : List Char) : Option UInt8 :=
  match readSigned? (trim cs) with
  | some n => if n < 256 then some (UInt8.ofNat n) else none
  | none => none

/-- The type `decimal(precision,scale)` that a text in lower case denotes. -/
def readDecimal? : List Char → Option DataType
  | 'd' :: 'e' :: 'c' :: 'i' :: 'm' :: 'a' :: 'l' :: '(' :: rest =>
    if rest.getLast? = some ')' then
      let arguments := rest.dropLast
      match arguments.dropWhile (· ≠ ',') with
      | _ :: scale => do
        return .decimal (← readByte? (arguments.takeWhile (· ≠ ','))) (← readByte? scale)
      | [] => none
    else none
  | _ => none

/-- The type a text denotes. -/
def read? (s : String) : Option DataType :=
  let cs := lower (trim s.toList)
  match spellings.lookup (String.ofList cs) with
  | some t => some t
  | none => readDecimal? cs

/-- The type a text denotes, or the fault that it denotes none. -/
def parse (s : String) : Except TypeError DataType :=
  match read? s with
  | some t => .ok t
  | none => .error (.invalidType s)

end DataType

end RelSql
