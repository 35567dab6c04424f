import RelSql.Graph.Error
import RelSql.Text.Layout

/-!
# Schemas

A schema is a list of fields with distinct names.  Of several fields with one name the
first one counts, unless the names are checked.
-/

namespace RelSql

open Text

/-- A named and typed column. -/
structure Field where
  name : String
  type : DataType
  deriving DecidableEq, Repr

/-- A field in words. -/
def Field.text (f : Field) : String :=
  f.name ++ ": " ++ f.type.name

/-- A field under another name. -/
def Field.rename (f : Field) (name : String) : Field :=
  { f with name }

/-- A field whose type is given in words; words for no type stand for `null`. -/
def Field.ofText (name type : String) : Field :=
  ⟨name, (DataType.read? type).getD .null⟩

/-- A list of fields. -/
structure Schema where
  fields : List Field
  deriving DecidableEq, Repr

namespace Schema

/-- The schema without fields. -/
def empty : Schema := ⟨[]⟩

/-- The fields whose names are not among `seen`, the first one of each name. -/
def firsts (seen : List String) : List Field → List Field
  | [] => []
  | f :: rest =>
    if f.name ∈ seen then firsts seen rest else f :: firsts (f.name :: seen) rest

/-- The schema of the first field of each name. -/
def ofFields (fields : List Field) : Schema :=
  ⟨firsts [] fields⟩

/-- The first name that is among `seen` or that an earlier field has. -/
def repeatedName? (seen : List String) : List Field → Option String
  | [] => none
  | f :: rest => if f.name ∈ seen then some f.name else repeatedName? (f.name :: seen) rest

/-- The schema of fields whose names have to be distinct. -/
def ofDistinct (fields : List Field) : Except GraphError Schema :=
  match repeatedName? [] fields with
  | some name => .error (.repeatedName name)
  | none => .ok ⟨fields⟩

/-- A schema with one field more at the end. -/
def push (s : Schema) (f : Field) : Schema :=
  ofFields (s.fields ++ [f])

/-- The fields of a schema followed by those of another one. -/
def merge (s t : Schema) : Schema :=
  ofFields (s.fields ++ t.fields)

/-- The field of a name. -/
def field? (s : Schema) (name : String) : Option Field :=
  s.fields.find? fun f => f.name == name

/-- The field of a name, which has to be there. -/
def field (s : Schema) (name : String) : Except GraphError Field :=
  match s.field? name with
  | some f => .ok f
  | none => .error (.unknownName name)

/-- The position of the field of a name, which has to be there. -/
def position (s : Schema) (name : String) : Except GraphError Nat :=
  match s.fields.findIdx? fun f => f.name == name with
  | some i => .ok i
  | none => .error (.unknownName name)

/-- Fields that are added one at a time, and whose names are checked when the schema is built. -/
structure Builder where
  fields : List Field
  deriving DecidableEq, Repr

namespace Builder

/-- The builder without fields. -/
def empty : Builder := ⟨[]⟩

/-- Adds a field. -/
def add (b : Builder) (f : Field) : Builder :=
  ⟨b.fields ++ [f]⟩

/-- Adds a field whose type is given in words. -/
def addText (b : Builder) (name type : String) : Builder :=
  b.add (.ofText name type)

/-- The schema of the fields. -/
def build (b : Builder) : Except GraphError Schema :=
  ofDistinct b.fields

end Builder

/-- A schema in words. -/
def text (s : Schema) : String :=
  "\x7b" ++ joinWith ", " (s.fields.map Field.text) ++ "\x7d"

end Schema

end RelSql
