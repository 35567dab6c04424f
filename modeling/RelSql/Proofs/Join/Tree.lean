import RelSql.Block.Source
import RelSql.Proofs.Graph.Chain
import RelSql.Proofs.Lift.Pushing

/-!
# Join trees

A left-deep join is put together from its operands: the joins along its left side, each
with its right operand.  Selections are taken off an operand when they may as well filter
the joined rows.  All of this can be read off the graph.
-/

namespace RelSql

/-- The joins along the left side of a join.  An operand is a table with the selections that
have been taken off it. -/
inductive JoinTree where
  /-- A table that is not a join. -/
  | table (t : NodeId)
  /-- The join `node` of the table `leftOperand.table`, whose joins are `left`, and of
  `rightOperand.table`. -/
  | join (node : NodeId) (kind : JoinKind) (predicates : List NodeId) (left : JoinTree)
      (leftOperand rightOperand : Peeled)

namespace JoinTree

/-- The tables that are joined, in order. -/
def leaves : JoinTree → List NodeId
  | .table t => [t]
  | .join _ _ _ left _ right => left.leaves ++ [right.table]

/-- The first table. -/
def first : JoinTree → NodeId
  | .table t => t
  | .join _ _ _ left _ _ => left.first

/-- The joins after the first table. -/
def clauses : JoinTree → List JoinClause
  | .table _ => []
  | .join _ kind predicates left _ right =>
    left.clauses ++ [⟨if predicates = [] then .cross else kind, right.table, predicates⟩]

/-- The FROM clause before its joins are put together. -/
def tables (tree : JoinTree) : TableSet :=
  ⟨tree.first, tree.first, tree.clauses⟩

/-- The predicates of the selections that have been taken off. -/
def hoisted : JoinTree → List NodeId
  | .table _ => []
  | .join _ _ _ left leftOperand rightOperand =>
    left.hoisted ++ leftOperand.predicates ++ rightOperand.predicates

/-- The joins, and the selections that have been taken off. -/
def folded : JoinTree → List NodeId
  | .table _ => []
  | .join node _ _ left leftOperand rightOperand =>
    node :: (leftOperand.chain ++ left.folded ++ rightOperand.chain)

/-- The tables of a FROM clause are those of the tree. -/
theorem leaves_tables (tree : JoinTree) :
  tree.tables.leaves = tree.leaves
  := by
  have h : ∀ tree : JoinTree,
      tree.first :: tree.clauses.map JoinClause.table = tree.leaves := by
    intro tree
    induction tree with
    | table t => rfl
    | join node kind predicates left l r ih =>
        rw [first, clauses, leaves, List.map_append, ← List.cons_append, ih]
        rfl
  exact h tree

end JoinTree

namespace Graph

variable {g g' : Graph} {id : NodeId}

/-- Whether the selections above an operand are taken off it: there are some, the join allows
it, they cannot be evaluated below a projection, and what is below them is not a right
operand that is a join. -/
def takesOff (g : Graph) (node : NodeId) (hoist left : Bool) : Bool :=
  let p := g.peel node
  hoist && !p.chain.isEmpty
    && !(g.isProjection p.table && (Folding.of (p.chain ++ [p.table])).pushes g p.predicates)
    && (left || !g.isJoin p.table)

/-- An operand of a join, without the selections that are taken off it. -/
def operand (g : Graph) (node : NodeId) (hoist left : Bool) : Peeled :=
  if g.takesOff node hoist left then g.peel node else ⟨node, [], []⟩

/-- One step of reading off the joins of a table. -/
def joinTreeStep (g : Graph) (below : NodeId → JoinTree) (id : NodeId) : JoinTree :=
  match g.node id with
  | .join kind l r predicates =>
    let left := g.operand l (kind.preservesFilters true) true
    .join id kind predicates (below left.table) left
      (g.operand r (kind.preservesFilters false) false)
  | _ => .table id

/-- The joins along the left side of a table. -/
def joinTree (g : Graph) : NodeId → JoinTree :=
  NodeId.recurse .table g.joinTreeStep

theorem WellFounded.operand_le (hg : g.WellFounded) (node : NodeId) (hoist left : Bool) :
  (g.operand node hoist left).table.index ≤ node.index
  := by
  rw [operand]
  split
  · exact hg.peel_le node
  · exact Nat.le_refl _

/-- The selections that are taken off an operand come after its table. -/
theorem WellFounded.lt_of_mem_operand (hg : g.WellFounded) (node : NodeId) (hoist left : Bool) :
  ∀ n ∈ (g.operand node hoist left).chain, (g.operand node hoist left).table.index < n.index
  := by
  rw [operand]
  split
  · exact hg.lt_of_mem_chain follows_selection node
  · exact List.forall_mem_nil _

/-- The predicates of the selections that are taken off an operand come before it. -/
theorem WellFounded.lt_of_mem_operand_predicates (hg : g.WellFounded) (node : NodeId)
    (hoist left : Bool) :
  ∀ p ∈ (g.operand node hoist left).predicates, p.index < node.index
  := by
  rw [operand]
  split
  · exact predicates_lt hg node
  · exact List.forall_mem_nil _

theorem WellFounded.has_operand (hg : g.WellFounded) {node : NodeId} (hn : g.Has node)
    (hoist left : Bool) :
  g.Has (g.operand node hoist left).table
  := Nat.lt_of_le_of_lt (hg.operand_le node hoist left) hn

/-- The predicates taken off an operand are there. -/
theorem WellFounded.has_operand_predicates (hg : g.WellFounded) {node : NodeId}
    (hn : g.Has node) (hoist left : Bool) :
  ∀ p ∈ (g.operand node hoist left).predicates, g.Has p
  := by
  rw [operand]
  split
  · exact hg.has_predicates hn
  · exact fun p hp => absurd hp List.not_mem_nil

theorem Extends.isProjection_eq (h : g.Extends g') (hid : g.Has id) :
  g'.isProjection id = g.isProjection id
  := by
  rw [isProjection, isProjection, h.node_eq hid]

/-- A handle keeps the selections that are taken off it. -/
theorem Extends.operand_eq (h : g.Extends g') (hg : g.WellFounded) (hg' : g'.WellFounded)
    (hid : g.Has id) (hoist left : Bool) :
  g'.operand id hoist left = g.operand id hoist left
  := by
  have htable := hg.has_peel hid
  rw [operand, operand, takesOff, takesOff, h.peel_eq hg hg' hid, h.isProjection_eq htable,
    h.isJoin_eq htable, Folding.pushes_extends h hg hg' _ (hg.has_predicates hid)]

attribute [local simp] joinTreeStep

/-- The step of reading off joins is local, and the same in extended graphs. -/
theorem joinTreeStep_stable :
  NodeId.StableStep joinTreeStep
  := by
  constructor
  · intro g hg f f' id h
    rw [joinTreeStep, joinTreeStep]
    split
    case h_1 kind l r predicates hn =>
        have hl : l ∈ (g.node id).children := by
          rw [hn]
          exact List.mem_cons_self
        have hle := hg.operand_le l (kind.preservesFilters true) true
        simp only [h _ (Nat.lt_of_le_of_lt hle (hg.child_lt hl))]
    · rfl
  · intro g g' below id hg hg' h hid
    rw [joinTreeStep, joinTreeStep, h.node_eq hid]
    split
    case h_1 kind l r predicates hn =>
        have hl : g.Has l := hg.has_child hid (by rw [hn]; exact List.mem_cons_self)
        have hr : g.Has r := hg.has_child hid (by rw [hn]; simp [Node.children])
        rw [h.operand_eq hg hg' hl, h.operand_eq hg hg' hr]
    · rfl

theorem joinTree_eq (hg : g.WellFounded) (id : NodeId) :
  g.joinTree id = g.joinTreeStep g.joinTree id
  := NodeId.recurse_eq (joinTreeStep_stable.isLocal hg) id

/-- A handle keeps its joins. -/
theorem Extends.joinTree_eq (h : g.Extends g') (hg : g.WellFounded) (hg' : g'.WellFounded)
    (hid : g.Has id) :
  g'.joinTree id = g.joinTree id
  := joinTreeStep_stable.recurse_eq hg hg' h hid _

theorem joinTree_join (hg : g.WellFounded) {kind : JoinKind} {l r : NodeId}
    {predicates : List NodeId} (hn : g.node id = .join kind l r predicates) :
  g.joinTree id = .join id kind predicates
    (g.joinTree (g.operand l (kind.preservesFilters true) true).table)
    (g.operand l (kind.preservesFilters true) true)
    (g.operand r (kind.preservesFilters false) false)
  := by
  rw [Graph.joinTree_eq hg]
  simp [hn]

theorem joinTree_other (hg : g.WellFounded) (hn : g.isJoin id = false) :
  g.joinTree id = .table id
  := by
  rw [Graph.joinTree_eq hg, joinTreeStep]
  split
  case h_1 h =>
      rw [isJoin, h] at hn
      cases hn
  · rfl

/-- Induction along the left side of a join. -/
theorem joinTree_induction (hg : g.WellFounded) {P : NodeId → Prop}
    (htable : ∀ id, g.isJoin id = false → P id)
    (hjoin : ∀ id kind l r predicates, g.node id = .join kind l r predicates →
      P (g.operand l (kind.preservesFilters true) true).table → P id) (id : NodeId) :
  P id
  := by
  obtain ⟨i⟩ := id
  induction i using Nat.strongRecOn with
  | ind i ih =>
      cases hn : g.node ⟨i⟩ with
      | join kind l r predicates =>
          have hl : l ∈ (g.node ⟨i⟩).children := by
            rw [hn]
            exact List.mem_cons_self
          have hle := hg.operand_le l (kind.preservesFilters true) true
          apply hjoin ⟨i⟩ kind l r predicates hn
          exact ih _ (Nat.lt_of_le_of_lt hle (hg.child_lt hl))
      | _ =>
          apply htable
          rw [isJoin, hn]

/-- The predicates of the selections in a join tree come before the join. -/
theorem WellFounded.lt_of_mem_hoisted (hg : g.WellFounded) (id : NodeId) :
  ∀ p ∈ (g.joinTree id).hoisted, p.index < id.index
  := by
  apply joinTree_induction hg (P := fun id => ∀ p ∈ (g.joinTree id).hoisted, p.index < id.index)
  · intro id hn
    rw [joinTree_other hg hn]
    exact List.forall_mem_nil _
  · intro id kind l r predicates hn ih
    have hchild : ∀ c ∈ [l, r], c.index < id.index := by
      intro c hc
      apply hg.child_lt
      rw [hn, Node.children]
      exact List.mem_append_left _ hc
    rw [joinTree_join hg hn, JoinTree.hoisted]
    have hl := hchild l List.mem_cons_self
    have hr := hchild r (List.mem_cons_of_mem _ List.mem_cons_self)
    have hle := hg.operand_le l (kind.preservesFilters true) true
    refine List.forall_mem_append.mpr ⟨List.forall_mem_append.mpr ⟨?_, ?_⟩, ?_⟩
    · exact fun p hp => Nat.lt_trans (Nat.lt_of_lt_of_le (ih p hp) hle) hl
    · exact fun p hp => Nat.lt_trans (hg.lt_of_mem_operand_predicates l _ _ p hp) hl
    · exact fun p hp => Nat.lt_trans (hg.lt_of_mem_operand_predicates r _ _ p hp) hr

/-- The operands of a join are there. -/
theorem WellFounded.has_join (hg : g.WellFounded) (hid : g.Has id) {kind : JoinKind}
    {l r : NodeId} {predicates : List NodeId} (hn : g.node id = .join kind l r predicates) :
  g.Has l ∧ g.Has r ∧ ∀ p ∈ predicates, g.Has p
  := by
  have hc : ∀ c ∈ l :: r :: predicates, g.Has c := by
    intro c hc
    apply hg.has_child hid
    rw [hn]
    exact hc
  refine ⟨hc l List.mem_cons_self, hc r (by simp), ?_⟩
  intro p hp
  exact hc p (List.mem_cons_of_mem l (List.mem_cons_of_mem r hp))

/-- The tables that are joined are there, and so is what is taken off them. -/
theorem WellFounded.has_joinTree (hg : g.WellFounded) (hid : g.Has id) :
  (∀ t ∈ (g.joinTree id).leaves, g.Has t) ∧ (∀ p ∈ (g.joinTree id).hoisted, g.Has p)
    ∧ ∀ c ∈ (g.joinTree id).clauses, ∀ p ∈ c.predicates, g.Has p
  := by
  revert hid
  apply joinTree_induction hg (P := fun id => g.Has id →
    (∀ t ∈ (g.joinTree id).leaves, g.Has t) ∧ (∀ p ∈ (g.joinTree id).hoisted, g.Has p)
      ∧ ∀ c ∈ (g.joinTree id).clauses, ∀ p ∈ c.predicates, g.Has p)
  · intro id hn hid
    rw [joinTree_other hg hn]
    refine ⟨?_, nofun, nofun⟩
    intro t ht
    rw [List.mem_singleton.mp ht]
    exact hid
  · intro id kind l r predicates hn ih hid
    obtain ⟨hl, hr, hp⟩ := hg.has_join hid hn
    obtain ⟨hleaves, hhoisted, hclauses⟩ := ih (hg.has_operand hl _ _)
    rw [joinTree_join hg hn]
    refine ⟨?_, ?_, ?_⟩
    · intro t ht
      rcases List.mem_append.mp ht with ht | ht
      · exact hleaves t ht
      · rw [List.mem_singleton.mp ht]
        exact hg.has_operand hr _ _
    · intro p hmem
      rcases List.mem_append.mp hmem with hmem | hmem
      · rcases List.mem_append.mp hmem with hmem | hmem
        · exact hhoisted p hmem
        · exact hg.has_operand_predicates hl _ _ p hmem
      · exact hg.has_operand_predicates hr _ _ p hmem
    · intro c hc p hmem
      rcases List.mem_append.mp hc with hc | hc
      · exact hclauses c hc p hmem
      · rw [List.mem_singleton.mp hc] at hmem
        exact hp p hmem

end Graph

end RelSql
