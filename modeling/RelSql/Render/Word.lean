import RelSql.Text.Character
import RelSql.Value

/-!
# Names and literals

Column names are always written between back quotes.  Table names are only quoted when they
would be read as a keyword, or when they contain a space.  A string stands between single
quotes, and a single quote in it follows a backslash.  Numbers in double precision that are
not finite are cast from their names.
-/

namespace RelSql.Render

/-! ## Names -/

open Text

/-- The keywords that are no names. -/
def reserved : List String := [
  "add", "aggregate", "all", "alter", "and", "api_version", "as", "asc", "avro", "between",
  "bigint", "binary", "boolean", "by", "cached", "case", "cast", "change", "char", "class",
  "close_fn", "column", "columns", "comment", "compute", "create", "cross", "data",
  "database", "databases", "date", "datetime", "decimal", "delimited", "desc", "describe",
  "distinct", "div", "double", "drop", "else", "end", "escaped", "exists", "explain",
  "external", "false", "fields", "fileformat", "finalize_fn", "first", "float", "format",
  "formatted", "from", "full", "function", "functions", "group", "having", "if", "in",
  "incremental", "init_fn", "inner", "inpath", "insert", "int", "integer", "intermediate",
  "interval", "into", "invalidate", "is", "join", "last", "left", "like", "limit", "lines",
  "load", "location", "merge_fn", "metadata", "not", "null", "nulls", "offset", "on", "or",
  "order", "outer", "overwrite", "parquet", "parquetfile", "partition", "partitioned",
  "partitions", "prepare_fn", "produced", "rcfile", "real", "refresh", "regexp", "rename",
  "replace", "returns", "right", "rlike", "row", "schema", "schemas", "select", "semi",
  "sequencefile", "serdeproperties", "serialize_fn", "set", "show", "smallint", "stats",
  "stored", "straight_join", "string", "symbol", "table", "tables", "tblproperties",
  "terminated", "textfile", "then", "timestamp", "tinyint", "to", "true", "uncached",
  "union", "update_fn", "use", "using", "values", "view", "when", "where", "with"]

/-- Whether a name is a keyword, in any case. -/
def isReserved (name : String) : Bool :=
  reserved.contains (String.ofList (lower name.toList))

/-- The back quote, between two of which names stand. -/
def quote : Char := '\x60'

/-- The characters of a name between quotes.  A quote is doubled, and two quotes in a row
count as one, unless the last character before them other than such a quote is a
backslash. -/
def escapeName (previous : Char) : List Char → List Char
  | [] => []
  | [c] =>
    if c = quote then
      if previous = '\\' then [quote] else [quote, quote]
    else [c]
  | c :: d :: rest =>
    if c = quote then
      if previous = '\\' then quote :: escapeName previous (d :: rest)
      else if d = quote then quote :: quote :: escapeName quote rest
      else quote :: quote :: escapeName quote (d :: rest)
    else c :: escapeName c (d :: rest)

/-- A name between quotes. -/
def quoted (name : String) : String :=
  String.ofList (quote :: escapeName '\x00' name.toList ++ [quote])

/-- A name, quoted when it has to be or when `force` holds. -/
def identifier (name : String) (force : Bool) : String :=
  if force || name.toList.contains ' ' || isReserved name then quoted name else name

/-- The name of a table, after that of its database. -/
def tableName (database : Option String) (name : String) (force : Bool) : String :=
  match database with
  | some d => d ++ "." ++ identifier name force
  | none => identifier name force

/-- The quoted name of a table or a function, after that of its database. -/
def scopedName (database : Option String) (name : String) : String :=
  match database with
  | some d => d ++ "." ++ quoted name
  | none => quoted name

/-! ## Literals -/

/-- The characters of a string between its quotes. -/
def escapeString (cs : List Char) : List Char :=
  cs.flatMap fun c => if c = '\'' then ['\\', '\''] else [c]

/-- A string between single quotes. -/
def stringLiteral (s : String) : String :=
  String.ofList ('\'' :: escapeString s.toList ++ ['\''])

/-- A text without single quotes, between single quotes. -/
def plainLiteral (s : String) : String :=
  "'" ++ s ++ "'"

/-- A number in double precision. -/
def doubleLiteral (x : Number.Double) : String :=
  if x.isNaN then "CAST('nan' AS double)"
  else if x.isInfinite then
    if x.negative then "CAST('-inf' AS double)" else "CAST('inf' AS double)"
  else x.text Value.doubleLayout

/-- A date in the format `%Y-%m-%d`. -/
def dateChars (L : Value.Library) (d : Date) : List Char :=
  L.year d.year ++ '-' :: L.month d.month ++ '-' :: L.day d.day

/-- A time of day in the format `%H:%M:%S`. -/
def clockChars (L : Value.Library) (t : Timestamp) : List Char :=
  L.hour t.hour ++ ':' :: L.minute t.minute ++ ':' :: L.second t.second

/-- A constant. -/
def literalIn (L : Value.Library) : Value → String
  | .null => "NULL"
  | .boolean true => "TRUE"
  | .boolean false => "FALSE"
  | .integer i => Value.integerText i
  | .float x => doubleLiteral x
  | .decimal d => L.decimal d
  | .string s => stringLiteral s
  | .timestamp t => plainLiteral (String.ofList (dateChars L t.date ++ ' ' :: clockChars L t))
  | .date d => plainLiteral (String.ofList (dateChars L d))

/-- A constant, with the dates and the numbers of this library. -/
def literal : Value → String :=
  literalIn .standard

end RelSql.Render
