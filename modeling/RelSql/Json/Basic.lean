import RelSql.Number.Shortest

/-!
# JSON documents

Numbers keep the way they are written: as a natural number, as a negative integer, or with
a point or an exponent.  The members of an object are in the order of their keys, which are
distinct.
-/

namespace RelSql

open Number

/-- A number of a JSON document; `negative n` is the integer `-n`. -/
inductive JsonNumber where
  | natural (n : Nat)
  | negative (n : Nat)
  | double (x : Double)
  deriving DecidableEq, Repr

/-- A JSON document. -/
inductive Json where
  | null
  | bool (b : Bool)
  | number (n : JsonNumber)
  | string (s : String)
  | array (items : List Json)
  | object (members : List (String × Json))
  deriving Repr

namespace Json

instance : Inhabited Json := ⟨.null⟩

/-- Puts a member at its place among members in the order of their keys, over a member of
the same key. -/
def insertMember (key : String) (value : Json) :
    List (String × Json) → List (String × Json)
  | [] => [(key, value)]
  | (k, v) :: rest =>
    if key < k then (key, value) :: (k, v) :: rest
    else if key = k then (key, value) :: rest
    else (k, v) :: insertMember key value rest

/-- The object of a list of members; the last one of equal keys counts. -/
def ofMembers (members : List (String × Json)) : Json :=
  .object (members.foldl (fun sorted m => insertMember m.1 m.2 sorted) [])

/-- The member of an object with a key. -/
def member? (key : String) : Json → Option Json
  | .object members => members.lookup key
  | _ => none

/-- The integer `i`. -/
def ofInt (i : Int) : Json :=
  .number (if i < 0 then .negative i.natAbs else .natural i.natAbs)

/-- The natural number `n`. -/
def ofNat (n : Nat) : Json :=
  .number (.natural n)

/-- A number in double precision; what is not finite has no JSON number. -/
def ofDouble (x : Double) : Json :=
  if x.isNaN || x.isInfinite then .null else .number (.double x)

/-- An optional document, `null` when there is none. -/
def ofOption : Option Json → Json
  | some j => j
  | none => .null

/-- The integer a document is, within 64 bits with a sign. -/
def int64? : Json → Option Int
  | .number (.natural n) => if n < twoPow 63 then some n else none
  | .number (.negative n) => some (-(n : Int))
  | _ => none

/-- The natural number a document is, below a bound. -/
def natBelow? (bound : Nat) : Json → Option Nat
  | .number (.natural n) => if n < bound then some n else none
  | _ => none

/-- The text a document is. -/
def string? : Json → Option String
  | .string s => some s
  | _ => none

end Json

end RelSql
