/-!
# Traversal

A depth first traversal of what depends on what.  A node is entered when it is first taken
from the stack, and left, with its output, once all its dependencies have been left.  A
node that is taken again after that is passed over.  The traversal ends early when a node
turns out to depend on itself.
-/

namespace RelSql

/-- What a traversal follows and computes: the dependencies of a node, and its output from
the outputs of these. -/
structure Visitor (α β : Type) where
  dependencies : α → List α
  visit : α → List (α × β) → β

namespace Traversal

/-- How far the traversal has got with a node. -/
inductive Mark (β : Type) where
  | pending
  | entered
  | left (output : β)

/-- What happens to a node. -/
inductive Event (α β : Type) where
  | enter (node : α)
  | leave (node : α) (output : β)
  | pass (node : α)

/-- The nodes to be taken, the next one first, and the latest mark of each node. -/
structure State (α β : Type) where
  stack : List α
  marks : List (α × Mark β)

/-- The state in which `root` is to be taken. -/
def State.start {α β : Type} (root : α) : State α β :=
  ⟨[root], [(root, .pending)]⟩

variable {α β : Type} [DecidableEq α]

/-- Marks the dependencies without a mark as pending; fails when one has been entered. -/
def markPending (marks : List (α × Mark β)) : List α → Option (List (α × Mark β))
  | [] => some marks
  | d :: rest =>
    match marks.lookup d with
    | some .entered => none
    | some _ => markPending marks rest
    | none => markPending ((d, .pending) :: marks) rest

/-- The outputs of the dependencies; fails when one has not been left. -/
def outputs (marks : List (α × Mark β)) : List α → Option (List (α × β))
  | [] => some []
  | d :: rest =>
    match marks.lookup d with
    | some (.left output) => (outputs marks rest).map ((d, output) :: ·)
    | _ => none

/-- Takes the next node from the stack. -/
def State.step (v : Visitor α β) (s : State α β) : Option (Event α β × State α β) :=
  match s.stack with
  | [] => none
  | node :: rest =>
    match s.marks.lookup node with
    | none => none
    | some .pending =>
      let dependencies := v.dependencies node
      (markPending ((node, .entered) :: s.marks) dependencies).map fun marks =>
        (.enter node, ⟨dependencies.reverse ++ node :: rest, marks⟩)
    | some .entered =>
      (outputs s.marks (v.dependencies node)).map fun visited =>
        let output := v.visit node visited
        (.leave node output, ⟨rest, (node, .left output) :: s.marks⟩)
    | some (.left _) => some (.pass node, ⟨rest, s.marks⟩)

/-- The events of at most `n` steps. -/
def State.events (v : Visitor α β) : Nat → State α β → List (Event α β)
  | 0, _ => []
  | n + 1, s =>
    match s.step v with
    | none => []
    | some (e, s) => e :: State.events v n s

/-- The output of a node that is left. -/
def Event.output? : Event α β → Option (α × β)
  | .leave node output => some (node, output)
  | _ => none

end Traversal

namespace Visitor

open Traversal

variable {α β : Type} [DecidableEq α]

/-- The number of steps a traversal of the nodes takes at most. -/
def stepBound (v : Visitor α β) (nodes : List α) : Nat :=
  1 + nodes.foldr (fun n total => 1 + (v.dependencies n).length + total) 0

/-- The events of the traversal from `root`, in at most `bound` steps. -/
def events (v : Visitor α β) (bound : Nat) (root : α) : List (Event α β) :=
  State.events v bound (.start root)

/-- The nodes that are left, in order, with their outputs. -/
def outputs (v : Visitor α β) (bound : Nat) (root : α) : List (α × β) :=
  (v.events bound root).filterMap Event.output?

/-- The output of the root, unless the traversal ends early. -/
def accept? (v : Visitor α β) (bound : Nat) (root : α) : Option β :=
  ((v.outputs bound root).reverse.find? fun o => o.1 = root).map Prod.snd

end Visitor

end RelSql
