import RelSql.Block.Basic

/-!
# Fusion

A projection that selects all columns of another one below it, with selections between the
two at most, is fused with it: the two become one projection of the inner one's input.
-/

namespace RelSql

/-- A fused projection, and what it replaces below. -/
structure Fused where
  node : NodeId
  absorbed : List NodeId

namespace Fused

/-- The items that an item of the outer projection becomes. -/
def items (absorbed : Folding) (inner : List NodeId) (item : NodeId) :
    LiftM (List NodeId) := do
  if absorbed.contains item then return inner
  else if (← get).graph.isRelation item then return [item]
  else return [← Lift.named absorbed .substitute item]

/-- The input of the fused projection. -/
def input (absorbed : Folding) (table : NodeId) (predicates : List NodeId) :
    LiftM NodeId := do
  if predicates = [] then return table
  else
    let lifted ← predicates.mapM (Lift.value absorbed .substitute)
    Lift.push (.selection table lifted)

/-- The fused projection. -/
def rebuild (absorbed : Folding) (table : NodeId) (outer inner predicates : List NodeId) :
    LiftM NodeId := do
  let selections ← outer.mapM (items absorbed inner)
  let table ← input absorbed table predicates
  Lift.push (.projection table selections.flatten)

end Fused

namespace Graph

/-- Fuses a projection with the one below it, if there is one that it can be fused with. -/
def fuse (g : Graph) (projection : NodeId) : Option Fused × Graph :=
  match g.node projection with
  | .projection input outer =>
    let peeled := g.peel input
    match g.node peeled.table with
    | .projection table inner =>
      let absorbed := peeled.chain ++ [peeled.table]
      if outer.any absorbed.contains then
        let (pushable, g) := Lift.pushable (.of absorbed) peeled.predicates g
        if pushable then
          let (node, g) :=
            Lift.run (Fused.rebuild (.of absorbed) table outer inner peeled.predicates) g
          (some ⟨node, absorbed⟩, g)
        else (none, g)
      else (none, g)
    | _ => (none, g)
  | _ => (none, g)

end Graph

namespace Block

/-- Fuses a projection as long as it can be fused, in at most `n` steps.  The block outputs
each of the projections. -/
def fuseAll : Nat → Block → NodeId → Analysis (Block × NodeId)
  | 0, b, projection => return (b, projection)
  | n + 1, b, projection => do
    match ← modifyGet fun g => g.fuse projection with
    | none => return (b, projection)
    | some fused => fuseAll n ((b.foldAll fused.absorbed).output fused.node) fused.node

end Block

end RelSql
