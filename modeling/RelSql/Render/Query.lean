import RelSql.Graph.Display
import RelSql.Render.Word
import RelSql.Render.SelectList
import RelSql.Statement.Basic

/-!
# Queries in SQL

A block is written clause by clause, each on a line of its own, and the queries nested in
it are indented.  Values are written in the scope of their block; the operands of an infix
operator stand in parentheses when they are infix themselves.
-/

namespace RelSql.Render

open Text

/-- A text, or the reason why there is none. -/
abbrev Result := Except CompileError String

/-- A text that is written when it is needed. -/
abbrev Delayed := Unit → Result

/-- A block with the texts of its nested queries. -/
structure View where
  graph : Graph
  options : Options
  clauses : Clauses
  nested : List (Nested Delayed)

/-- The symbol of an infix operator. -/
def symbol : BinaryOp → String
  | .add => "+"
  | .sub => "-"
  | .mul => "*"
  | .div => "/"
  | .mod => "%"
  | .pow => "pow"
  | .eq => "="
  | .notEq => "!="
  | .lt => "<"
  | .ltEq => "<="
  | .gt => ">"
  | .gtEq => ">="
  | .and => "AND"
  | .or => "OR"

/-- The name of an aggregate and what opens its argument. -/
def aggregateOpening : Aggregate → String
  | .sum => "sum("
  | .mean => "avg("
  | .min => "min("
  | .max => "max("
  | .count => "count("
  | .countDistinct => "COUNT(DISTINCT "

/-- The keyword of a join. -/
def joinKeyword : JoinKind → String
  | .inner => "INNER JOIN"
  | .left => "LEFT OUTER JOIN"
  | .right => "RIGHT OUTER JOIN"
  | .outer => "FULL OUTER JOIN"
  | .semi => "LEFT SEMI JOIN"
  | .anti => "LEFT ANTI JOIN"
  | .cross => "CROSS JOIN"

/-- The function that adds an interval to a time, or subtracts it. -/
def intervalFunction (unit : TimeUnit) (op : BinaryOp) : String :=
  unit.name ++ if op = .sub then "s_sub" else "s_add"

/-- The keyword of membership. -/
def membershipKeyword (negated : Bool) : String :=
  if negated then " NOT IN " else " IN "

/-- Whether a value is written in parentheses as an operand. -/
def isInfix (g : Graph) (id : NodeId) : Bool :=
  match g.node id with
  | .binary op _ r =>
    op ≠ .pow && match g.node r with
      | .interval _ _ => false
      | _ => true
  | .unary .negate _ => true
  | _ => false

/-- The text of a case.  Several branches stand on lines of their own. -/
def caseText (base : Option String) (whens : List String) (default : Option String) : String :=
  let otherwise := default.toList.map ("ELSE " ++ ·)
  if whens.length > 1 then
    joinWith " " ("CASE" :: base.toList) ++ "\n"
      ++ indent 2 (joinWith "\n" (whens ++ otherwise)) ++ "\nEND"
  else "CASE " ++ joinWith " " (base.toList ++ whens ++ otherwise) ++ " END"

namespace View

/-- Runs a computation on a value that may not be there. -/
def onOption (f : NodeId → Result) : Option NodeId → Except CompileError (Option String)
  | none => return none
  | some id => return some (← f id)

/-- The text of a column. -/
def column (v : View) (table : NodeId) (name : String) : Result :=
  if v.clauses.outputs.contains table then .ok (quoted name)
  else
    match v.clauses.scope.alias? table with
    | none => .error (.columnOutOfScope name)
    | some label =>
      .ok (if v.clauses.scope.needsAliases then label ++ "." ++ quoted name else quoted name)

/-- The text of an operand, `shown` writing the values of the block. -/
def operandStep (v : View) (shown : NodeId → Result) (id : NodeId) : Result := do
  let id := v.graph.unaliased id
  let text ← shown id
  if (nestedFor? v.nested id).isSome then return text
  else if isInfix v.graph id then return "(" ++ text ++ ")"
  else return text

/-- The text of a value that no subquery stands for. -/
def plainStep (v : View) (shown : NodeId → Result) (id : NodeId) : Result :=
  let operand := v.operandStep shown
  match v.graph.node id with
  | .literal value => .ok (literal value)
  | .column t name => v.column t name
  | .named arg _ => shown arg
  | .unary .not arg => do return "NOT " ++ (← operand arg)
  | .unary .negate arg => do return "-" ++ (← operand arg)
  | .unary .isNull arg => do return (← operand arg) ++ " IS NULL"
  | .unary .notNull arg => do return (← operand arg) ++ " IS NOT NULL"
  | .binary op l r =>
    match v.graph.node r with
    | .interval unit count =>
      if op = .add ∨ op = .sub then do
        return intervalFunction unit op ++ "(" ++ (← shown l) ++ ", "
          ++ Value.integerText count ++ ")"
      else if op = .pow then do return "pow(" ++ (← shown l) ++ ", " ++ (← shown r) ++ ")"
      else do return (← operand l) ++ " " ++ symbol op ++ " " ++ (← operand r)
    | _ =>
      if op = .pow then do return "pow(" ++ (← shown l) ++ ", " ++ (← shown r) ++ ")"
      else do return (← operand l) ++ " " ++ symbol op ++ " " ++ (← operand r)
  | .call function arguments => do
    return function.sqlName ++ "(" ++ joinWith ", " (← arguments.mapM shown) ++ ")"
  | .cast arg target => do return "CAST(" ++ (← shown arg) ++ " AS " ++ target.sqlName ++ ")"
  | .extract arg unit => do return "extract(" ++ (← shown arg) ++ ", '" ++ unit.name ++ "')"
  | .case base whens default => do
    let whens ← whens.mapM fun w => do
      return "WHEN " ++ (← shown w.1) ++ " THEN " ++ (← shown w.2)
    let base ← onOption shown base
    return caseText base whens (← onOption shown default)
  | .between arg low high => do
    return (← operand arg) ++ " BETWEEN " ++ (← shown low) ++ " AND " ++ (← shown high)
  | .contains arg (.list values) negated => do
    return (← operand arg) ++ membershipKeyword negated ++ "("
      ++ joinWith ", " (← values.mapM shown) ++ ")"
  | .contains _ (.column _) _ => .error .membershipWithoutSubquery
  | .reduction aggregate arg => do return aggregateOpening aggregate ++ (← shown arg) ++ ")"
  | .countStar _ => .ok "count(*)"
  | .interval _ _ | .topK _ _ _ | .any _ | .exprList _ =>
    .error (.notRenderable (v.graph.display id))
  | _ => .error (.tableAsValue (v.graph.display id))

/-- The text of a value. -/
def valueStep (v : View) (shown : NodeId → Result) (id : NodeId) : Result :=
  match nestedFor? v.nested id with
  | none => v.plainStep shown id
  | some subquery => do
    let body := "(\n" ++ indent v.options.indent (← subquery.query ()) ++ "\n)"
    match subquery.kind with
    | .scalar => return body
    | .exists => return "EXISTS " ++ body
    | .membership =>
      match v.graph.node id with
      | .contains arg _ negated =>
        return (← v.operandStep shown arg) ++ membershipKeyword negated ++ body
      | _ => v.plainStep shown id
    | .table => v.plainStep shown id

/-- The text of a value of the block. -/
def value (v : View) : NodeId → Result :=
  NodeId.recurse (fun _ => .error .nestingTooDeep) v.valueStep

/-- The text of a predicate of a WHERE or HAVING clause. -/
def predicate (v : View) (id : NodeId) : Result := do
  let text ← v.value id
  match v.graph.node (v.graph.unaliased id) with
  | .binary .or _ _ => return "(" ++ text ++ ")"
  | _ => return text

/-- The text of all columns of a table. -/
def starText (v : View) (id : NodeId) : String :=
  if v.clauses.scope.needsAliases then
    match v.clauses.scope.alias? id with
    | some label => label ++ ".*"
    | none => "*"
  else "*"

/-- The text of an item of the select list. -/
def item (v : View) (id : NodeId) : Result :=
  let n := v.graph.node id
  match n with
  | .join _ _ _ _ => .ok "*"
  | .named arg name => do return (← v.value arg) ++ " AS " ++ quoted name
  | _ => if n.isRelation then .ok (v.starText id) else v.value id

/-- The select list, after its keyword. -/
def selectList (v : View) : Result := do
  let items ← v.clauses.select.mapM v.item
  let keyword := if v.clauses.distinct then "SELECT DISTINCT" else "SELECT"
  return keyword ++ selectItems v.options items

/-- The name of a physical table. -/
def physicalName (v : View) (leaf : NodeId) : Result :=
  let physical := match v.graph.node leaf with
    | .view t => t
    | _ => leaf
  match v.graph.node physical with
  | .table t =>
    match t.name with
    | some name => .ok (tableName t.database name false)
    | none => .error .unnamedTable
  | _ => .error (.notPhysical leaf)

/-- A table of the FROM clause, with its alias when it needs one. -/
def table (v : View) (leaf : NodeId) : Result :=
  let scope := v.clauses.scope
  match scope.alias? leaf with
  | none => .error (.withoutAlias leaf)
  | some label =>
    match derivedFor? v.nested leaf with
    | some derived =>
      match derived.shared with
      | some index =>
        match scope.sharedName? index with
        | none => .error (.unnamedSharedTable index)
        | some name => .ok (if name = label then name else name ++ " " ++ label)
      | none => do
        return "(\n" ++ indent v.options.indent (← derived.query ()) ++ "\n) " ++ label
    | none => do
      let name ← v.physicalName leaf
      return if scope.needsAliases then name ++ " " ++ label else name

/-- A join of the FROM clause. -/
def joinText (v : View) (c : JoinClause) : Result := do
  let head := joinKeyword c.kind ++ " " ++ (← v.table c.table)
  if c.predicates = [] then return head
  else
    let on := "ON " ++ joinWith " AND\n   " (← c.predicates.mapM v.value)
    return head ++ "\n" ++ indent v.options.indent on

/-- The FROM clause, after its keyword. -/
def fromText (v : View) (t : TableSet) : Result := do
  let first ← v.table t.first
  let joins ← t.joins.mapM v.joinText
  return joinWith "\n" (first :: joins.map (indent v.options.indent))

/-- The texts of the predicates of a clause. -/
def predicates (v : View) (ids : List NodeId) : Except CompileError (List String) :=
  ids.mapM v.predicate

/-- The FROM clause of the block, if it has one. -/
def fromClause (v : View) : Except CompileError (List String) :=
  match v.clauses.from? with
  | none => return []
  | some t => do return ["FROM " ++ (← v.fromText t)]

/-- The WHERE clause of the block, if it has one. -/
def whereClause (v : View) : Except CompileError (List String) :=
  if v.clauses.predicates = [] then return []
  else do return ["WHERE " ++ joinWith " AND\n      " (← v.predicates v.clauses.predicates)]

/-- The GROUP BY clause of the block, if it has one. -/
def groupClause (v : View) : List String :=
  if v.clauses.groupBy = [] then []
  else ["GROUP BY " ++ joinWith ", " (v.clauses.groupBy.map fun i => Graph.natText (i + 1))]

/-- The HAVING clause of the block, if it has one. -/
def havingClause (v : View) : Except CompileError (List String) :=
  if v.clauses.having = [] then return []
  else do return ["HAVING " ++ joinWith " AND\n       " (← v.predicates v.clauses.having)]

/-- A key of the ORDER BY clause. -/
def orderKey (v : View) (k : SortKey) : Result := do
  return (← v.value k.expr) ++ if k.ascending then "" else " DESC"

/-- The ORDER BY clause of the block, if it has one. -/
def orderClause (v : View) : Except CompileError (List String) :=
  if v.clauses.orderBy = [] then return []
  else do return ["ORDER BY " ++ joinWith ", " (← v.clauses.orderBy.mapM v.orderKey)]

/-- The LIMIT clause of the block, if it has one. -/
def limitClause (v : View) : List String :=
  match v.clauses.limit with
  | none => []
  | some l =>
    let offset := if l.offset > 0 then " OFFSET " ++ Graph.natText l.offset else ""
    ["LIMIT " ++ Graph.natText l.n ++ offset]

/-- The text of the block. -/
def text (v : View) : Result := do
  let list ← v.selectList
  let source ← v.fromClause
  let filter ← v.whereClause
  let having ← v.havingClause
  let order ← v.orderClause
  return joinWith "\n"
    (list :: (source ++ filter ++ v.groupClause ++ having ++ order ++ v.limitClause))

end View

/-- The text of a query. -/
def query (g : Graph) (options : Options) : Query → Delayed :=
  Query.fold
    (fun clauses nested _ => View.text ⟨g, options, clauses, nested⟩)
    (fun l r distinct _ => do
      let left ← l ()
      let right ← r ()
      return left ++ "\n" ++ (if distinct then "UNION" else "UNION ALL") ++ "\n" ++ right)

/-- A block with the texts of its nested queries. -/
def view (g : Graph) (options : Options) (s : Select) : View :=
  ⟨g, options, s.clauses, s.nested.map (Nested.map (query g options))⟩

/-- The definition of a common table expression. -/
def sharedTable (g : Graph) (options : Options) (t : SharedTable) : Result := do
  return t.name ++ " AS (\n" ++ indent options.indent (← query g options t.query ()) ++ "\n)"

end RelSql.Render

namespace RelSql

/-- The SQL text of a statement. -/
def Statement.sql (s : Statement) (options : Render.Options) : Except CompileError String := do
  let body ← Render.query s.graph options s.query ()
  if s.shared.isEmpty then return body
  else
    let tables ← s.shared.mapM (Render.sharedTable s.graph options)
    return "WITH " ++ Text.joinWith ",\n" tables ++ "\n" ++ body

/-- The first block of a statement. -/
def Statement.select (s : Statement) : Select := s.query.first

/-- The text of a value in the first block of a statement. -/
def Statement.valueText (s : Statement) (options : Render.Options) (id : NodeId) :
    Except CompileError String :=
  (Render.view s.graph options s.select).value id

end RelSql
