import RelSql.Error
import RelSql.Value

/-!
# Results

How the rows that a query returns are read as what its expression denotes: a table, a
column or a single value.
-/

namespace RelSql

/-- Rows under their header. -/
structure ResultSet where
  columns : List String
  rows : List (List Value)
  deriving DecidableEq, Repr

/-- What an expression denotes. -/
inductive Output where
  | scalar (value : Value)
  | column (values : List Value)
  | table (rows : ResultSet)
  deriving DecidableEq, Repr

/-- How a result is read. -/
inductive Handler where
  | table
  | column (name : String)
  | scalar
  deriving DecidableEq, Repr

/-- The values of a column. -/
def ResultSet.column (r : ResultSet) (name : String) : Except CompileError (List Value) :=
  match r.columns.findIdx? (· == name) with
  | none => .error (.missingColumn name)
  | some i => r.rows.mapM fun row =>
    match row[i]? with
    | some value => .ok value
    | none => .error .shortRow

/-- The first value of the first row. -/
def ResultSet.first? (r : ResultSet) : Option Value :=
  match r.rows with
  | (value :: _) :: _ => some value
  | _ => none

/-- Reads a result. -/
def Handler.handle (h : Handler) (r : ResultSet) : Except CompileError Output :=
  match h with
  | .table => .ok (.table r)
  | .column name => do return .column (← r.column name)
  | .scalar =>
    match r.first? with
    | some value => .ok (.scalar value)
    | none => .error .emptyResult

end RelSql
