import RelSql.Json.Basic
import RelSql.ResultSet
import RelSql.Value

/-!
# Values and results in JSON

A variant is written as its tag, or as an object with one member, the tag with the content
of the variant.  A variant without content is read in both ways.
-/

/-! ## Types and values in JSON -/

namespace RelSql

open Number

namespace Json

/-- The tag of a document that is a variant, and its content. -/
def tagged? : Json → Option (String × Option Json)
  | .string tag => some (tag, none)
  | .object [(tag, content)] => some (tag, some content)
  | _ => none

/-- A variant with content. -/
def ofTagged (tag : String) (content : Json) : Json :=
  .object [(tag, content)]

/-- Whether there is no content. -/
def isEmptyContent : Option Json → Bool
  | none => true
  | some .null => true
  | _ => false

/-- The number in double precision that a document is. -/
def double? : Json → Option Double
  | .number (.natural n) => some (Double.ofRatio false n 1)
  | .number (.negative n) => some (Double.ofRatio true n 1)
  | .number (.double x) => some x
  | _ => none

/-- All digits of a number in double precision, without an exponent. -/
def digitLayout : Layout := ⟨-400, 400, false, true, false⟩

/-- The decimal number that a document is: a text, or the digits of a number. -/
def decimal? : Json → Option Decimal
  | .string s => Decimal.read? s.toList
  | .number (.natural n) => some (Decimal.ofInt n)
  | .number (.negative n) => some (Decimal.ofInt (-n))
  | .number (.double x) => Decimal.read? (x.text digitLayout).toList
  | _ => none

end Json

namespace DataType

/-- The tags of the types without parameters. -/
def tags : List (String × DataType) :=
  [("Null", .null), ("Boolean", .boolean), ("Int8", .int8), ("Int16", .int16),
    ("Int32", .int32), ("Int64", .int64), ("Float", .float), ("Double", .double),
    ("String", .string), ("Timestamp", .timestamp), ("Date", .date)]

/-- The tag of a type. -/
def tag : DataType → String
  | .null => "Null"
  | .boolean => "Boolean"
  | .int8 => "Int8"
  | .int16 => "Int16"
  | .int32 => "Int32"
  | .int64 => "Int64"
  | .float => "Float"
  | .double => "Double"
  | .string => "String"
  | .timestamp => "Timestamp"
  | .date => "Date"
  | .decimal _ _ => "Decimal"

/-- A type as a document. -/
def toJson : DataType → Json
  | .decimal precision scale =>
    .ofTagged "Decimal"
      (.object [("precision", .ofNat precision.toNat), ("scale", .ofNat scale.toNat)])
  | t => .string t.tag

/-- A number of digits below 256. -/
def byteMember? (key : String) (j : Json) : Option UInt8 := do
  return UInt8.ofNat (← (← j.member? key).natBelow? 256)

/-- The type that a document is. -/
def ofJson? (j : Json) : Option DataType := do
  let (tag, content) ← j.tagged?
  if tag = "Decimal" then
    let content ← content
    return .decimal (← byteMember? "precision" content) (← byteMember? "scale" content)
  else if Json.isEmptyContent content then tags.lookup tag
  else none

end DataType

namespace Value

/-- A value as a document. -/
def toJson : Value → Json
  | .null => .string "Null"
  | .boolean b => .ofTagged "Boolean" (.bool b)
  | .integer i => .ofTagged "Integer" (.ofInt i)
  | .float x => .ofTagged "Float" (.ofDouble x)
  | .decimal d => .ofTagged "Decimal" (.string d.text)
  | .string s => .ofTagged "String" (.string s)
  | .timestamp t => .ofTagged "Timestamp" (.string t.isoText)
  | .date d => .ofTagged "Date" (.string d.text)

/-- The value with content that a document is. -/
def ofContent? (tag : String) (content : Json) : Option Value :=
  match tag, content with
  | "Boolean", .bool b => some (.boolean b)
  | "Integer", j => j.int64?.map .integer
  | "Float", j => j.double?.map .float
  | "Decimal", j => j.decimal?.map .decimal
  | "String", j => j.string?.map .string
  | "Timestamp", j => (j.string?.bind Timestamp.read?).map .timestamp
  | "Date", j => (j.string?.bind Date.read?).map .date
  | _, _ => none

/-- The value that a document is. -/
def ofJson? (j : Json) : Option Value := do
  let (tag, content) ← j.tagged?
  if tag = "Null" then if Json.isEmptyContent content then return .null else none
  else ofContent? tag (← content)

end Value

end RelSql

/-! ## Results in JSON -/

namespace RelSql

/-- The documents of an array. -/
def Json.array? : Json → Option (List Json)
  | .array items => some items
  | _ => none

namespace Handler

/-- A handler as a document. -/
def toJson : Handler → Json
  | .table => .string "Table"
  | .column name => .ofTagged "Column" (.string name)
  | .scalar => .string "Scalar"

/-- The handler that a document is. -/
def ofJson? (j : Json) : Option Handler := do
  let (tag, content) ← j.tagged?
  if tag = "Column" then return .column (← (← content).string?)
  else if !Json.isEmptyContent content then none
  else if tag = "Table" then return .table
  else if tag = "Scalar" then return .scalar
  else none

end Handler

namespace ResultSet

/-- Values as a document. -/
def valuesJson (values : List Value) : Json :=
  .array (values.map Value.toJson)

/-- A result as a document. -/
def toJson (r : ResultSet) : Json :=
  .object [("columns", .array (r.columns.map .string)), ("rows", .array (r.rows.map valuesJson))]

/-- The result of a header and of rows. -/
def ofParts? (columns rows : Json) : Option ResultSet := do
  let columns ← (← columns.array?).mapM Json.string?
  let rows ← (← rows.array?).mapM fun row => do (← row.array?).mapM Value.ofJson?
  return ⟨columns, rows⟩

/-- The result that a document is: an object, whose other members do not count, or an
array of the header and the rows. -/
def ofJson? : Json → Option ResultSet
  | .array [columns, rows] => ofParts? columns rows
  | j => do ofParts? (← j.member? "columns") (← j.member? "rows")

end ResultSet

/-- What an expression denotes, as a document. -/
def Output.toJson : Output → Json
  | .scalar value => .ofTagged "Scalar" value.toJson
  | .column values => .ofTagged "Column" (ResultSet.valuesJson values)
  | .table rows => .ofTagged "Table" rows.toJson

end RelSql
