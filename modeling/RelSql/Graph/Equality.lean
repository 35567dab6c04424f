import RelSql.Graph.Basic

/-!
# Structural equality

Two handles are equal when they denote the same computation: the same operator with the
same parameters, on equal children.  A view is only equal to itself.

Handles share their children, so a comparison keeps its answers, and compares no pair of
handles twice.
-/

namespace RelSql

/-- The answers of comparisons; a pair has the smaller handle first. -/
abbrev Comparisons := List ((NodeId × NodeId) × Bool)

namespace Graph

/-- Two handles, the smaller one first. -/
def orderedPair (left right : NodeId) : NodeId × NodeId :=
  if left.index < right.index then (left, right) else (right, left)

/-- Whether the handles of each pair are equal, up to the first pair of which they are
not. -/
def allEqual (same : NodeId → NodeId → StateM Comparisons Bool) :
    List (NodeId × NodeId) → StateM Comparisons Bool
  | [] => return true
  | (left, right) :: rest => do
    if ← same left right then allEqual same rest else return false

/-- Whether two distinct handles denote the same computation, `same` comparing their
children. -/
def compareNodes (g : Graph) (same : NodeId → NodeId → StateM Comparisons Bool)
    (left right : NodeId) : StateM Comparisons Bool :=
  match g.node left, g.node right with
  | .view _, _ => return false
  | _, .view _ => return false
  | l, r =>
    if l.shape.equals r.shape then allEqual same (l.children.zip r.children)
    else return false

/-- Whether two handles denote the same computation, to a depth of `n`. -/
def compareWithin (g : Graph) : Nat → NodeId → NodeId → StateM Comparisons Bool
  | 0, _, _ => return false
  | n + 1, left, right => do
    if left = right then return true
    else
      match (← get).lookup (orderedPair left right) with
      | some answer => return answer
      | none =>
        let answer ← g.compareNodes (compareWithin g n) left right
        modify fun answers => (orderedPair left right, answer) :: answers
        return answer

/-- Whether two handles denote the same computation, given the answers that are known. -/
def equalsWith (g : Graph) (known : Comparisons) (left right : NodeId) : Bool × Comparisons :=
  Id.run ((g.compareWithin (left.index + 1) left right).run known)

/-- Whether two handles denote the same computation. -/
def equals (g : Graph) (left right : NodeId) : Bool :=
  (g.equalsWith [] left right).1

end Graph

end RelSql
