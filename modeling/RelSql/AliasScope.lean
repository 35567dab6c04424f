import RelSql.Graph.NodeId
import RelSql.Number.Digits
import RelSql.Text.Layout

/-!
# Alias scopes

Every block names the tables of its FROM clause `t0`, `t1`, and so on.  Scopes nest: a
block sees the aliases of the blocks around it, reuses them for the same tables, and
numbers its other tables from where the scope around it stood.  The outermost scope also
names the common table expressions.
-/

namespace RelSql

/-- The aliases that one block hands out. -/
structure Frame where
  aliases : List (NodeId × String)
  /-- The number of aliases handed out, here and around. -/
  counter : Nat
  /-- Whether columns are qualified even if there is one table only. -/
  alwaysAlias : Bool
  /-- The names of the common table expressions. -/
  shared : List String
  deriving DecidableEq, Repr

/-- The frame of a block, and the frames around it, innermost first. -/
structure AliasScope where
  frame : Frame
  outer : List Frame
  deriving DecidableEq, Repr

/-- The alias of a table in a frame. -/
def Frame.alias? (f : Frame) (table : NodeId) : Option String :=
  f.aliases.lookup table

/-- The alias of a table in the first frame that has one. -/
def aliasIn? (table : NodeId) : List Frame → Option String
  | [] => none
  | f :: rest =>
    match f.alias? table with
    | some label => some label
    | none => aliasIn? table rest

namespace AliasScope

/-- The outermost scope, without aliases. -/
def root : AliasScope := ⟨⟨[], 0, false, []⟩, []⟩

/-- A scope inside another one. -/
def child (s : AliasScope) : AliasScope :=
  ⟨⟨[], s.frame.counter, false, []⟩, s.frame :: s.outer⟩

/-- The outermost frame. -/
def rootFrame (s : AliasScope) : Frame :=
  s.outer.getLast?.getD s.frame

/-- The alias of a table in this scope. -/
def localAlias? (s : AliasScope) (table : NodeId) : Option String :=
  s.frame.alias? table

/-- The alias of a table in this scope or in one around it. -/
def alias? (s : AliasScope) (table : NodeId) : Option String :=
  aliasIn? table (s.frame :: s.outer)

/-- The alias of a number. -/
def aliasText (n : Nat) : String :=
  String.ofList ('t' :: Number.digits n)

/-- Hands out an alias. -/
def fresh (s : AliasScope) : String × AliasScope :=
  (aliasText s.frame.counter,
    { s with frame := { s.frame with counter := s.frame.counter + 1 } })

/-- Gives a table an alias in this scope: the one it has, or has around, or a fresh one. -/
def assign (s : AliasScope) (table : NodeId) : String × AliasScope :=
  match s.localAlias? table with
  | some label => (label, s)
  | none =>
    let (label, s) := match aliasIn? table s.outer with
      | some label => (label, s)
      | none => s.fresh
    (label, { s with frame := { s.frame with aliases := s.frame.aliases ++ [(table, label)] } })

/-- Gives each table of a list an alias. -/
def assignAll (s : AliasScope) (tables : List NodeId) : AliasScope :=
  tables.foldl (fun s t => (s.assign t).2) s

/-- Has columns qualified from now on. -/
def qualify (s : AliasScope) : AliasScope :=
  { s with frame := { s.frame with alwaysAlias := true } }

/-- Whether columns have to be qualified. -/
def needsAliases (s : AliasScope) : Bool :=
  s.frame.alwaysAlias || s.frame.aliases.length > 1

/-- Names a common table expression by the alias of one of its occurrences, or afresh. -/
def nameShared (s : AliasScope) (occurrence : Option NodeId) : String × AliasScope :=
  let (name, s) := match occurrence.bind s.localAlias? with
    | some label => (label, s)
    | none => s.fresh
  (name, { s with frame := { s.frame with shared := s.frame.shared ++ [name] } })

/-- The name of a common table expression. -/
def sharedName? (s : AliasScope) (index : Nat) : Option String :=
  s.rootFrame.shared[index]?

/-- The scope in words. -/
def text (s : AliasScope) : String :=
  let line (a : NodeId × String) := a.1.text ++ " -> " ++ a.2
  "Context" ++ (if s.frame.alwaysAlias then " (always alias)" else "") ++ "\n"
    ++ Text.joinWith "\n" (s.frame.aliases.map line)

end AliasScope

end RelSql
