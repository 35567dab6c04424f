import RelSql.Block.Basic
import RelSql.Graph.Equality

/-!
# Bound queries

A derived table that occurs more than once in a query becomes a common table expression.
Derived tables are compared structurally, and the body of a view counts as an occurrence
of the table it views.  What is nested in a table is only searched at its first occurrence.

Every block is bound to an alias scope.  The scope of the outermost block is the root, or an
empty root stands around the branches of a union; it names the common table expressions,
whose queries are bound inside it as well.
-/

/-! ## Shared tables -/

namespace RelSql

/-- A derived table and the tables of FROM clauses that stand for it. -/
structure Occurrences where
  body : NodeId
  leaves : List NodeId
  deriving DecidableEq, Repr

/-- A common table expression before it is named. -/
structure SharedGroup where
  body : NodeId
  leaves : List NodeId
  /-- The query of the first occurrence. -/
  query : Query

namespace Occurrences

/-- Adds an occurrence to those of the first table equal to it, if there is one. -/
def add? (g : Graph) (body leaf : NodeId) : List Occurrences → Option (List Occurrences)
  | [] => none
  | o :: rest =>
    if g.equals o.body body then some ({ o with leaves := o.leaves ++ [leaf] } :: rest)
    else (add? g body leaf rest).map (o :: ·)

/-- Collects the derived tables of a block and of its nested queries. -/
def collectBlock (g : Graph) (c : Clauses)
    (nested : List (Nested (List Occurrences → List Occurrences)))
    (found : List Occurrences) : List Occurrences :=
  let found := c.leaves.foldl (fun found leaf =>
      match derivedFor? nested leaf with
      | none => found
      | some derived =>
        let body := g.body leaf
        match add? g body leaf found with
        | some found => found
        | none => derived.query (found ++ [⟨body, [leaf]⟩]))
    found
  nested.foldl (fun found s => if s.kind ≠ .table then s.query found else found) found

/-- Collects the derived tables of a query. -/
def collect (g : Graph) : Query → List Occurrences → List Occurrences :=
  Query.fold (collectBlock g) fun l r _ found => r (l found)

end Occurrences

namespace Query

/-- Refers each occurrence of a shared table to its common table expression. -/
def refer (shared : List Occurrences) : Query → Query :=
  let position (s : Nested Query) : Nested Query :=
    if s.kind = .table then
      { s with shared := shared.findIdx? fun o => o.leaves.contains s.node }
    else s
  Query.fold (fun c nested => .select c (nested.map position)) .union

/-- The query of the first derived table that stands for a leaf. -/
def derived? (q : Query) (leaf : NodeId) : Option Query :=
  (q.allNested.find? fun s => s.kind = .table ∧ s.node = leaf).map Nested.query

/-- Finds the shared tables of a query, and refers their occurrences to them. -/
def shareTables (g : Graph) (q : Query) : Query × List SharedGroup :=
  let shared := (Occurrences.collect g q []).filter fun o => o.leaves.length > 1
  let q := q.refer shared
  (q, shared.filterMap fun o => do
    let first ← o.leaves.head?
    return ⟨o.body, o.leaves, ← q.derived? first⟩)

end Query

end RelSql

/-! ## Bound queries -/

namespace RelSql

/-- Gives the tables of a block aliases. -/
def AliasScope.bindBlock (s : AliasScope) (c : Clauses) : AliasScope :=
  let s := s.assignAll c.leaves
  if c.forceAliases then s.qualify else s

namespace Query

/-- Binds the blocks of a query inside a scope. -/
def bindIn : Query → AliasScope → Query :=
  Query.fold
    (fun c nested outer =>
      let scope := outer.child.bindBlock c
      .select { c with scope } (nested.map (Nested.map fun bind => bind scope)))
    (fun l r distinct outer => .union (l outer) (r outer) distinct)

/-- Names common table expressions, after an occurrence among the leaves if there is one. -/
def nameGroups (leaves : List NodeId) :
    List SharedGroup → AliasScope → List String × AliasScope
  | [], s => ([], s)
  | group :: rest, s =>
    let (name, s) := s.nameShared (group.leaves.find? leaves.contains)
    let (names, s) := nameGroups leaves rest s
    (name :: names, s)

/-- Binds a query and its common table expressions. -/
def bind (q : Query) (groups : List SharedGroup) : Query × List SharedTable :=
  let leaves := match q with
    | .select c _ => c.leaves
    | .union _ _ _ => []
  let scope := match q with
    | .select c _ => AliasScope.root.bindBlock c
    | .union _ _ _ => AliasScope.root
  let (names, scope) := nameGroups leaves groups scope
  let bound := match q with
    | .select c nested =>
      .select { c with scope } (nested.map (Nested.map fun inner => inner.bindIn scope))
    | .union l r distinct => .union (l.bindIn scope) (r.bindIn scope) distinct
  (bound, (groups.zip names).map fun (group, name) =>
    ⟨name, group.body, group.query.bindIn scope⟩)

end Query

end RelSql
