import RelSql.Error
import RelSql.Json.Printer
import RelSql.Render.Query
import RelSql.Text.Character

/-!
# Definitions of tables

The statements that create, drop, fill and cache tables.
-/

/-! ## Storage formats -/

namespace RelSql

/-- The formats tables are stored in. -/
inductive StorageFormat where
  | parquet
  | avro
  | text
  deriving DecidableEq, Repr

namespace StorageFormat

/-- The keyword of a format. -/
def keyword : StorageFormat → String
  | .parquet => "PARQUET"
  | .avro => "AVRO"
  | .text => "TEXTFILE"

/-- The format of a name, in any case. -/
def parse (s : String) : Except CompileError StorageFormat :=
  let name := String.ofList (Text.lower s.toList)
  if name = "parquet" then .ok .parquet
  else if name = "avro" then .ok .avro
  else if name = "text" then .ok .text
  else .error (.unsupportedFormat s)

end StorageFormat

end RelSql

/-! ## Definitions of tables -/

namespace RelSql.Definition

open Render Text

/-- The name of what a statement defines, and that of its database. -/
structure Target where
  name : String
  database : Option String
  deriving DecidableEq, Repr

/-- The text of a target, whose name is quoted. -/
def Target.text (t : Target) : String :=
  scopedName t.database t.name

/-- The first line of a statement that creates a table. -/
def createLine (external ifNotExists : Bool) (target : Target) : String :=
  "CREATE " ++ (if external then "EXTERNAL " else "") ++ "TABLE "
    ++ (if ifNotExists then "IF NOT EXISTS " else "") ++ target.text

/-- The line that tells where a table is stored. -/
def locationLine (path : String) : String :=
  "LOCATION " ++ stringLiteral path

/-- The line that tells the format a table is stored in. -/
def storedLine (format : StorageFormat) : String :=
  "STORED AS " ++ format.keyword

/-- The definition of a column. -/
def columnText (f : Field) : String :=
  Render.quoted f.name ++ " " ++ f.type.columnName

/-- The definitions of the columns of a schema. -/
def columnsText (s : Schema) : String :=
  "(" ++ joinWith ",\n " (s.fields.map columnText) ++ ")"

/-- A statement as its lines. -/
def ofLines (lines : List String) : String :=
  joinWith "\n" lines

/-- Drops a table. -/
def dropTable (target : Target) (ifExists : Bool) : String :=
  "DROP TABLE " ++ (if ifExists then "IF EXISTS " else "") ++ target.text

/-- Keeps a table in a cache pool. -/
def cacheTable (target : Target) (pool : String) : String :=
  "ALTER TABLE " ++ target.text ++ " SET CACHED IN " ++ stringLiteral pool

/-- The cache pool of a table that is given none. -/
def defaultPool : String := "default"

/-- Writes the rows of a query into a table, in place of its rows if `overwrite` holds. -/
def insert (target : Target) (overwrite : Bool) (s : Statement) :
    Except CompileError String := do
  let sql ← s.sql .default
  let verb := if overwrite then "OVERWRITE" else "INTO"
  return ofLines ["INSERT " ++ verb ++ " " ++ target.text, sql]

/-- A table made of the rows of a query. -/
structure TableOfQuery where
  target : Target
  external : Bool
  ifNotExists : Bool
  format : StorageFormat
  path : Option String
  deriving Repr

/-- Creates a table made of the rows of a query. -/
def TableOfQuery.create (t : TableOfQuery) (s : Statement) : Except CompileError String := do
  let sql ← s.sql .default
  return ofLines ([createLine t.external t.ifNotExists t.target, storedLine t.format]
    ++ t.path.toList.map locationLine ++ ["AS", sql])

/-- The name of the format of a table that is given none. -/
def defaultFormat : String := "parquet"

/-- A table of given columns. -/
structure TableOfSchema where
  target : Target
  schema : Schema
  external : Bool
  ifNotExists : Bool
  path : Option String
  deriving Repr

/-- Creates a table of given columns. -/
def TableOfSchema.create (t : TableOfSchema) : String :=
  ofLines ([createLine t.external t.ifNotExists t.target, columnsText t.schema]
    ++ t.path.toList.map locationLine)

/-- Where a Parquet table has its columns from. -/
inductive ColumnSource where
  | file (path : String)
  | table (target : Target)
  | schema (s : Schema)
  deriving Repr

/-- The line that tells where a table has its columns from. -/
def ColumnSource.text : ColumnSource → String
  | .file path => "LIKE PARQUET " ++ stringLiteral path
  | .table target => "LIKE " ++ target.text
  | .schema s => columnsText s

/-- A table over Parquet files. -/
structure ParquetTable where
  target : Target
  path : String
  source : ColumnSource
  external : Bool
  ifNotExists : Bool
  deriving Repr

/-- Creates a table over Parquet files. -/
def ParquetTable.create (t : ParquetTable) : String :=
  ofLines [createLine t.external t.ifNotExists t.target, t.source.text, storedLine .parquet,
    locationLine t.path]

/-- An external table over files of lines, whose fields are delimited. -/
structure DelimitedTable where
  target : Target
  path : String
  schema : Schema
  delimiter : String
  escape : Option String
  lineTerminator : Option String
  ifNotExists : Bool
  deriving Repr

/-- The delimiter of a table that is given none. -/
def defaultDelimiter : String := ","

/-- Creates a table over files of lines.  Terminators are written as they are. -/
def DelimitedTable.create (t : DelimitedTable) : String :=
  ofLines ([createLine true t.ifNotExists t.target, columnsText t.schema,
      "ROW FORMAT DELIMITED", "FIELDS TERMINATED BY " ++ plainLiteral t.delimiter]
    ++ t.escape.toList.map (fun e => "ESCAPED BY " ++ plainLiteral e)
    ++ t.lineTerminator.toList.map (fun l => "LINES TERMINATED BY " ++ plainLiteral l)
    ++ [locationLine t.path])

/-- An external table over Avro files. -/
structure AvroTable where
  target : Target
  path : String
  /-- The Avro schema of the files. -/
  schema : Json
  ifNotExists : Bool
  deriving Repr

/-- Creates a table over Avro files, whose schema `write` writes. -/
def AvroTable.createWith (write : Json → String) (t : AvroTable) : String :=
  ofLines [createLine true t.ifNotExists t.target, storedLine .avro, locationLine t.path,
    "TBLPROPERTIES ('avro.schema.literal'=" ++ plainLiteral (write t.schema) ++ ")"]

/-- Creates a table over Avro files, whose schema is written over several lines. -/
def AvroTable.create : AvroTable → String :=
  AvroTable.createWith Json.pretty

end RelSql.Definition
