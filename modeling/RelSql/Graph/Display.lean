import RelSql.Graph.Basic
import RelSql.Text.Layout

/-!
# Displayed expressions

An expression in words, with its operators, literals, names and tables in the styles of a
terminal when it is shown in colour.
-/

namespace RelSql.Graph

open Text

/-- The text of a natural number. -/
def natText (n : Nat) : String := String.ofList (Number.digits n)

/-- Displayed expressions, separated by commas. -/
def displayList (shown : NodeId → String) (ids : List NodeId) : String :=
  joinWith ", " (ids.map shown)

/-- An operator name. -/
def operatorText (color : Bool) (name : String) : String :=
  styled color .operator name

/-- A displayed table. -/
def tableText (color : Bool) (t : Table) : String :=
  let name := t.name.getD "?"
  styled color .table <|
    match t.database with
    | some database => database ++ "." ++ name
    | none => name

/-- A node in words, `shown` showing its children. -/
def displayStep (g : Graph) (color : Bool) (shown : NodeId → String) (id : NodeId) : String :=
  let list := displayList shown
  let operator := operatorText color
  match g.node id with
  | .table t => tableText color t
  | .view t => operator "View" ++ "(" ++ shown t ++ ")"
  | .projection t selections =>
    operator "Projection" ++ "[" ++ list selections ++ "](" ++ shown t ++ ")"
  | .selection t predicates =>
    operator "Selection" ++ "[" ++ list predicates ++ "](" ++ shown t ++ ")"
  | .aggregation t keys metrics having =>
    operator "Aggregation" ++ "[by: " ++ list keys ++ "; metrics: " ++ list metrics
      ++ "; having: " ++ list having ++ "](" ++ shown t ++ ")"
  | .join kind l r predicates =>
    operator "Join" ++ kind.name ++ "[" ++ list predicates ++ "](" ++ shown l ++ ", "
      ++ shown r ++ ")"
  | .sort t keys =>
    let key (k : SortKey) := shown k.expr ++ if k.ascending then " asc" else " desc"
    operator "Sort" ++ "[" ++ joinWith ", " (keys.map key) ++ "](" ++ shown t ++ ")"
  | .limit t n offset =>
    operator "Limit" ++ "[" ++ natText n ++ ", " ++ natText offset ++ "](" ++ shown t ++ ")"
  | .distinct t => operator "Distinct" ++ "(" ++ shown t ++ ")"
  | .union l r unique =>
    operator "Union" ++ (if unique then "Distinct" else "All") ++ "(" ++ shown l ++ ", "
      ++ shown r ++ ")"
  | .literal v => styled color .literal v.text
  | .interval unit count =>
    "interval(" ++ Value.integerText count ++ " " ++ unit.name ++ ")"
  | .column _ name => styled color .name name
  | .named arg name => shown arg ++ " as " ++ styled color .name name
  | .unary op arg => op.name ++ "(" ++ shown arg ++ ")"
  | .binary op l r => "(" ++ shown l ++ " " ++ op.name ++ " " ++ shown r ++ ")"
  | .call function arguments => function.name ++ "(" ++ list arguments ++ ")"
  | .cast arg target => "cast(" ++ shown arg ++ ", " ++ target.name ++ ")"
  | .extract arg unit => "extract(" ++ shown arg ++ ", " ++ unit.name ++ ")"
  | .case base whens default =>
    let branch (w : NodeId × NodeId) := shown w.1 ++ " => " ++ shown w.2
    "case(" ++ (base.map shown).getD "" ++ "; " ++ joinWith ", " (whens.map branch) ++ "; "
      ++ (default.map shown).getD "" ++ ")"
  | .between arg low high =>
    "between(" ++ shown arg ++ ", " ++ shown low ++ ", " ++ shown high ++ ")"
  | .contains arg options negated =>
    let operand := match options with
      | .list values => "[" ++ list values ++ "]"
      | .column c => shown c
    (if negated then "notin(" else "isin(") ++ shown arg ++ ", " ++ operand ++ ")"
  | .reduction aggregate arg => aggregate.name ++ "(" ++ shown arg ++ ")"
  | .countStar t => "count(*)(" ++ shown t ++ ")"
  | .topK arg k metric =>
    let ranked := match metric with
      | some m => ", by: " ++ shown m
      | none => ""
    "topk(" ++ shown arg ++ ", " ++ natText k ++ ranked ++ ")"
  | .any predicate => "any(" ++ shown predicate ++ ")"
  | .exprList exprs => "[" ++ list exprs ++ "]"

/-- An expression in words, in colour or not. -/
def displayIn (g : Graph) (color : Bool) : NodeId → String :=
  NodeId.recurse (fun id => id.text) (g.displayStep color)

/-- An expression in words. -/
def display (g : Graph) : NodeId → String :=
  g.displayIn false

end RelSql.Graph
