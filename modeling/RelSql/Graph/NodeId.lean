/-!
# Handles

A node of an expression graph is referred to by its handle, the position of the node in
the graph.
-/

namespace RelSql

/-- A handle on a node of a graph. -/
structure NodeId where
  index : Nat
  deriving DecidableEq, Repr, Inhabited

/-- The text of a handle. -/
def NodeId.text (id : NodeId) : String :=
  String.ofList ('#' :: Nat.toDigits 10 id.index)

end RelSql
