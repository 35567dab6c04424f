import RelSql.Proofs.Block.Addition
import RelSql.Proofs.Block.SemiJoins

/-!
# The way down to a FROM clause

The operators that are folded into a block lead from its node down to the tables of its FROM
clause.  They are a tree: an operator has one input, and a join two of them.  Below projections
that are fused, the way goes on through the fused projection, and perhaps the selection that it is
over, to the input of the inner one.

The operators that are folded into a block are, in order, limits, sorts and a distinct at the top
of its table, what is folded for its core, and the operators of the join tree of its FROM clause.
All of them are on the way from the table down to the FROM clause.
-/

/-! ## Ways through operators -/

namespace RelSql

open Analysis

/-- The operators on the way from a table down to tables of a FROM clause. -/
inductive Descent where
  | leaf (t : NodeId)
  | step (node : NodeId) (below : Descent)
  | join (node : NodeId) (left right : Descent)

namespace Descent

/-- The tables where the ways end, in order. -/
def leaves : Descent → List NodeId
  | .leaf t => [t]
  | .step _ d => d.leaves
  | .join _ l r => l.leaves ++ r.leaves

/-- The operators, an operator before those below it. -/
def operators : Descent → List NodeId
  | .leaf _ => []
  | .step node d => node :: d.operators
  | .join node l r => node :: (l.operators ++ r.operators)

/-- The operators on the way to each of the tables. -/
def paths : Descent → List (List NodeId)
  | .leaf _ => [[]]
  | .step node d => d.paths.map (node :: ·)
  | .join node l r => (l.paths ++ r.paths).map (node :: ·)

/-- Operators with one input each, one above the other. -/
def under (d : Descent) (chain : List NodeId) : Descent :=
  chain.foldr .step d

@[simp]
theorem leaves_under (d : Descent) (chain : List NodeId) :
  (d.under chain).leaves = d.leaves
  := by
  induction chain with
  | nil => rfl
  | cons n chain ih => exact ih

@[simp]
theorem operators_under (d : Descent) (chain : List NodeId) :
  (d.under chain).operators = chain ++ d.operators
  := by
  induction chain with
  | nil => rfl
  | cons n chain ih => exact congrArg (n :: ·) ih

theorem under_append (d : Descent) (chain chain' : List NodeId) :
  d.under (chain ++ chain') = (d.under chain').under chain
  := List.foldr_append

theorem leaves_ne_nil (d : Descent) :
  d.leaves ≠ []
  := by
  induction d with
  | leaf t => exact List.cons_ne_nil _ _
  | step n d ih => exact ih
  | join n l r ih => exact List.append_ne_nil_of_left_ne_nil ih _

/-- A way to one table is a chain of operators. -/
theorem eq_under {d : Descent} {t : NodeId} (h : d.leaves = [t]) :
  d = (leaf t).under d.operators
  := by
  induction d with
  | leaf t' =>
      rw [← List.singleton_inj.mp h]
      rfl
  | step n d ih => exact congrArg (step n) (ih h)
  | join n l r =>
      rcases List.append_eq_singleton_iff.mp h with ⟨hl, _⟩ | ⟨_, hr⟩
      · exact absurd hl l.leaves_ne_nil
      · exact absurd hr r.leaves_ne_nil

/-- A path below operators goes through them first. -/
theorem mem_paths_under {d : Descent} {chain path : List NodeId} :
  path ∈ (d.under chain).paths ↔ ∃ q ∈ d.paths, path = chain ++ q
  := by
  induction chain generalizing path with
  | nil => simp [under]
  | cons n chain ih =>
      rw [under, List.foldr_cons, ← under, paths, List.mem_map]
      simp only [ih]
      constructor
      · rintro ⟨_, ⟨q, hq, rfl⟩, rfl⟩
        exact ⟨q, hq, rfl⟩
      · rintro ⟨q, hq, rfl⟩
        exact ⟨chain ++ q, ⟨q, hq, rfl⟩, rfl⟩

/-- What is on a path is one of the operators. -/
theorem mem_operators {d : Descent} {path : List NodeId} {n : NodeId} (hpath : path ∈ d.paths)
    (hn : n ∈ path) :
  n ∈ d.operators
  := by
  induction d generalizing path with
  | leaf t =>
      rw [List.mem_singleton.mp hpath] at hn
      exact absurd hn List.not_mem_nil
  | step node d ih =>
      obtain ⟨q, hq, rfl⟩ := List.mem_map.mp hpath
      rcases List.mem_cons.mp hn with rfl | hn
      · exact List.mem_cons_self
      · exact List.mem_cons_of_mem _ (ih hq hn)
  | join node l r ihl ihr =>
      obtain ⟨q, hq, rfl⟩ := List.mem_map.mp hpath
      rcases List.mem_cons.mp hn with rfl | hn
      · exact List.mem_cons_self
      · apply List.mem_cons_of_mem
        rcases List.mem_append.mp hq with hq | hq
        · exact List.mem_append_left _ (ihl hq hn)
        · exact List.mem_append_right _ (ihr hq hn)

end Descent

namespace Graph

variable {old g g' : Graph} {id t x : NodeId} {next? : Node → Option NodeId} {d : Descent}

/-- The input of an operator that a block may fold and that has one input. -/
def foldedInput? : Node → Option NodeId
  | .selection t _ | .projection t _ | .aggregation t _ _ _ | .sort t _ | .limit t _ _
  | .distinct t => some t
  | _ => none

/-- A table of `old` itself, or a selection over it that is not one of `old`. -/
inductive Stands (old g : Graph) (t : NodeId) : NodeId → Prop where
  | itself (ht : old.Has t) : Stands old g t t
  | filtered {x : NodeId} {predicates : List NodeId} (ht : old.Has t) (hnew : ¬ old.Has x)
      (hn : g.node x = .selection t predicates) : Stands old g t x

/-- The ways lead from a table through inputs of operators.  In place of a table they may go
through a projection that is not one of `old`, over the table itself or a selection that
is not one of `old` either. -/
inductive Leads (old g : Graph) : NodeId → Descent → Prop where
  | leaf (t : NodeId) : Leads old g t (.leaf t)
  | step {id t : NodeId} {d : Descent} (ht : foldedInput? (g.node id) = some t)
      (hd : Leads old g t d) : Leads old g id (.step id d)
  | join {id l r : NodeId} {kind : JoinKind} {predicates : List NodeId} {left right : Descent}
      (hn : g.node id = .join kind l r predicates) (hl : Leads old g l left)
      (hr : Leads old g r right) : Leads old g id (.join id left right)
  | fused {t f source : NodeId} {items : List NodeId} {d : Descent} (hnew : ¬ old.Has f)
      (hn : g.node f = .projection source items) (hsource : old.Stands g t source)
      (hd : Leads old g source d) : Leads old g t (.step f d)

/-- The ways lead through the operators of a chain. -/
theorem leads_chain (hnext : Follows next?) (hg : g.WellFounded)
    (hinput : ∀ n t, next? n = some t → foldedInput? n = some t) (id : NodeId)
    (h : old.Leads g (g.chain next? id).2 d) :
  old.Leads g id (d.under (g.chain next? id).1)
  := by
  revert h
  apply chain_induction hnext hg (P := fun id => old.Leads g (g.chain next? id).2 d →
    old.Leads g id (d.under (g.chain next? id).1))
  · intro id ht h
    rw [chain_end hnext hg ht] at h ⊢
    exact h
  · intro id t ht ih h
    rw [chain_next hnext hg ht] at h ⊢
    exact .step (hinput _ t ht) (ih h)

theorem foldedInput_of_selectionInput (n : Node) (t : NodeId) (h : selectionInput? n = some t) :
  foldedInput? n = some t
  := by
  cases n <;> cases h
  rfl

theorem foldedInput_of_sortInput (n : Node) (t : NodeId) (h : sortInput? n = some t) :
  foldedInput? n = some t
  := by
  cases n <;> cases h
  rfl

theorem foldedInput_of_limitInput (n : Node) (t : NodeId) (h : limitInput? n = some t) :
  foldedInput? n = some t
  := by
  cases n <;> cases h
  rfl

/-- The ways lead through the selections above a table. -/
theorem leads_peel (hg : g.WellFounded) (id : NodeId)
    (h : old.Leads g (g.peel id).table d) :
  old.Leads g id (d.under (g.peel id).chain)
  := leads_chain follows_selection hg foldedInput_of_selectionInput id h

/-- The ways lead through the selections that are taken off an operand. -/
theorem leads_operand (hg : g.WellFounded) (id : NodeId) (hoist left : Bool)
    (h : old.Leads g (g.operand id hoist left).table d) :
  old.Leads g id (d.under (g.operand id hoist left).chain)
  := by
  rw [operand] at h ⊢
  split at h
  case isTrue htaken =>
      rw [if_pos htaken]
      exact leads_peel hg id h
  case isFalse hkept =>
      rw [if_neg hkept]
      exact h

end Graph

/-- The ways through the joins of a tree and through the selections that are taken off. -/
def JoinTree.descent : JoinTree → Descent
  | .table t => .leaf t
  | .join node _ _ left leftOperand rightOperand =>
    .join node (left.descent.under leftOperand.chain)
      ((Descent.leaf rightOperand.table).under rightOperand.chain)

namespace JoinTree

theorem leaves_descent (tree : JoinTree) :
  tree.descent.leaves = tree.leaves
  := by
  induction tree with
  | table t => rfl
  | join node kind predicates left l r ih =>
      simp [descent, Descent.leaves, leaves, ih]

theorem operators_descent (tree : JoinTree) :
  tree.descent.operators = tree.folded
  := by
  induction tree with
  | table t => rfl
  | join node kind predicates left l r ih =>
      simp [descent, Descent.operators, folded, ih]

end JoinTree

namespace Graph

variable {old g g' : Graph} {id t x : NodeId} {d : Descent}

/-- The ways lead through joins. -/
theorem leads_joinTree (hg : g.WellFounded) (id : NodeId) :
  old.Leads g id (g.joinTree id).descent
  := by
  apply joinTree_induction hg (P := fun id => old.Leads g id (g.joinTree id).descent)
  · intro id hn
    rw [joinTree_other hg hn]
    exact .leaf id
  · intro id kind l r predicates hn ih
    rw [joinTree_join hg hn]
    exact .join hn (leads_operand hg l _ _ ih) (leads_operand hg r _ _ (.leaf _))

/-! ### Fused projections -/

/-- What stands for a table has the same table below its selections. -/
theorem Stands.peel_table (hg : g.WellFounded) (h : old.Stands g t x) :
  (g.peel x).table = (g.peel t).table
  := by
  cases h with
  | itself => rfl
  | filtered _ _ hn => rw [peel_selection hg hn]

/-- What stands for a table stands for one that is there. -/
theorem Stands.has (h : old.Stands g t x) :
  old.Has t
  := by
  cases h with
  | itself ht => exact ht
  | filtered ht _ _ => exact ht

/-- One fusion: a projection over what stands for `t` is fused with the projection below the
selections above `t`, to one over what stands for the input of that. -/
structure FusesOver (old g : Graph) (t x : NodeId) (f : Fused) (table source : NodeId) : Prop where
  inner : ∃ items, g.node (g.peel t).table = .projection table items
  has : old.Has (g.peel t).table
  absorbed : f.absorbed = (g.peel x).chain ++ [(g.peel t).table]
  fused : ∃ items, g.node f.node = .projection source items
  added : ¬ old.Has f.node
  stands : old.Stands g table source
  lifts : (Folding.of f.absorbed).LiftsInput g table (g.peel x).predicates source
  pushes : (Folding.of f.absorbed).pushes g (g.peel x).predicates = true

/-- What a fusion does below a projection over what stands for a table. -/
theorem Fuses.fusesOver (hg : g.WellFounded) (hold : old.WellFounded) (e : old.Extends g)
    {p : NodeId} {outer : List NodeId} {f : Fused} (h : g.Fuses p f) (hadds : old.Adds g p f.node)
    (hp : g.node p = .projection x outer) (hx : old.Stands g t x) :
  ∃ table source, old.FusesOver g t x f table source
  := by
  obtain @⟨input, table, source, outer', inner, parts, hprojection, hinner, habsorbed, _, hpushes,
    hnode, _, hsource⟩ := h
  obtain @⟨_, source', _, _, hprojection', hnode', hnew, hadded⟩ := hadds
  obtain ⟨rfl, rfl⟩ := Node.projection.inj (hp.symm.trans hprojection)
  obtain ⟨rfl, _⟩ := Node.projection.inj (hp.symm.trans hprojection')
  obtain ⟨rfl, _⟩ := Node.projection.inj (hnode.symm.trans hnode')
  have hbelow := hx.peel_table hg
  have hhas : old.Has (g.peel t).table := by
    rw [e.peel_eq hold hg hx.has]
    exact hold.has_peel hx.has
  have htable : old.Has table := by
    apply hold.has_child hhas
    rw [← e.node_eq hhas, ← hbelow, hinner]
    exact List.mem_cons_self
  refine ⟨table, source, ⟨⟨inner, by rw [← hbelow, hinner]⟩, hhas, by rw [habsorbed, hbelow],
    ⟨_, hnode⟩, hnew, ?_, hsource, hpushes⟩⟩
  cases hsource with
  | all _ => exact .itself htable
  | filtered hne hn _ => exact .filtered htable (hadded hne) hn

/-- What is folded for fusions, in order. -/
def fusions (fs : List Fused) : List NodeId :=
  fs.flatMap fun f => f.absorbed ++ [f.node]

/-- A join below sorts and selections of what stands for a table does not come after the table. -/
theorem Stands.join_le (hg : g.WellFounded) (h : old.Stands g t x)
    (hjoin : g.isJoin (g.operand (g.chain sortInput? x).2 true true).table = true) :
  (g.operand (g.chain sortInput? x).2 true true).table.index ≤ t.index
  := by
  cases h with
  | itself => exact Nat.le_trans (hg.operand_le _ true true) (hg.chain_le follows_sort t)
  | filtered _ _ hn =>
      have hend : g.chain sortInput? x = ([], x) :=
        chain_end follows_sort hg (by rw [hn]; rfl)
      rw [hend, operand] at hjoin ⊢
      split at hjoin
      case isTrue htaken =>
          rw [if_pos htaken, peel_selection hg hn]
          exact hg.peel_le t
      · rw [isJoin, hn] at hjoin
        cases hjoin

/-- What holds at the end of fusions and is handed up by one of them holds of the projection
that is fused. -/
theorem fusesTo_induction (hg : g.WellFounded) (hold : old.WellFounded) (e : old.Extends g)
    {core input : NodeId} {items : List NodeId} (hcore : g.node core = .projection input items)
    {P : NodeId → NodeId → List Fused → Prop}
    (hend : ∀ t, old.Stands g t input → P t input [])
    (hstep : ∀ t x f table source fs, old.Stands g t x → old.FusesOver g t x f table source →
      P table source fs → P t x (f :: fs))
    {p : NodeId} {outer : List NodeId} {fs : List Fused} (hfuses : g.FusesTo p fs core)
    (hadded : (p :: fs.map Fused.node).IsChain (old.Adds g)) (hp : g.node p = .projection x outer)
    (hx : old.Stands g t x) :
  P t x fs
  := by
  induction hfuses generalizing t x outer with
  | nil projection =>
      obtain ⟨rfl, _⟩ := Node.projection.inj (hp.symm.trans hcore)
      exact hend t hx
  | @cons projection core f fs h _ ih =>
      obtain ⟨hadds, hrest⟩ := List.isChain_cons_cons.mp hadded
      obtain ⟨table, source, hover⟩ := h.fusesOver hg hold e hadds hp hx
      obtain ⟨_, hnode⟩ := hover.fused
      exact hstep t x f table source fs hx hover (ih hcore hrest hnode hover.stands)

/-- The ways lead through projections that are fused. -/
theorem leads_fusions (hg : g.WellFounded) (hold : old.WellFounded) (e : old.Extends g)
    {core input : NodeId} {items : List NodeId} (hcore : g.node core = .projection input items)
    (hd : old.Leads g input d) {p : NodeId} {outer : List NodeId} {fs : List Fused}
    (hfuses : g.FusesTo p fs core) (hadded : (p :: fs.map Fused.node).IsChain (old.Adds g))
    (hp : g.node p = .projection x outer) (hx : old.Stands g t x) :
  old.Leads g x (d.under (fusions fs))
  := by
  apply fusesTo_induction hg hold e hcore
    (P := fun _ x fs => old.Leads g x (d.under (fusions fs)))
    (fun _ _ => hd) _ hfuses hadded hp hx
  intro t x f table source fs hx hover ih
  obtain ⟨items, hinner⟩ := hover.inner
  obtain ⟨items', hnode⟩ := hover.fused
  rw [fusions, List.flatMap_cons, ← fusions, hover.absorbed, List.append_assoc, List.append_assoc,
    Descent.under_append, ← hx.peel_table hg]
  apply leads_peel hg
  rw [← hx.peel_table hg] at hinner
  exact .step (by rw [hinner]; rfl) (.fused hover.added hnode hover.stands ih)

/-- What does not come after the table at the end of fused projections comes before their
operators. -/
theorem lt_fusions (hg : g.WellFounded) (hold : old.WellFounded) (e : old.Extends g)
    {core input source : NodeId} {items : List NodeId}
    (hcore : g.node core = .projection input items)
    (hbelow : ∀ t, old.Stands g t input → source.index ≤ t.index) {p : NodeId}
    {outer : List NodeId} {fs : List Fused} (hfuses : g.FusesTo p fs core)
    (hadded : (p :: fs.map Fused.node).IsChain (old.Adds g))
    (hp : g.node p = .projection x outer) (hx : old.Stands g t x) :
  source.index ≤ t.index ∧ ∀ n ∈ fusions fs, source.index < n.index
  := by
  apply fusesTo_induction hg hold e hcore
    (P := fun t _ fs => source.index ≤ t.index ∧ ∀ n ∈ fusions fs, source.index < n.index)
    (fun t ht => ⟨hbelow t ht, fun n hn => absurd hn List.not_mem_nil⟩) _ hfuses hadded hp hx
  rintro t x f table input' fs hx hover ⟨hle, hrest⟩
  obtain ⟨items, hinner⟩ := hover.inner
  have hpeel : source.index < (g.peel t).table.index := by
    apply Nat.lt_of_le_of_lt hle
    apply hg.child_lt
    rw [hinner]
    exact List.mem_cons_self
  have hchain := hg.lt_of_mem_chain follows_selection x
  have hlt := Nat.lt_of_lt_of_le hpeel (hg.peel_le t)
  have hsource : old.Has source := Nat.lt_trans hlt hx.has
  refine ⟨Nat.le_of_lt hlt, ?_⟩
  rw [fusions, List.flatMap_cons, ← fusions, hover.absorbed]
  refine List.forall_mem_append.mpr ⟨List.forall_mem_append.mpr
    ⟨List.forall_mem_append.mpr ⟨?_, ?_⟩, ?_⟩, hrest⟩
  · intro n hn
    apply Nat.lt_trans hpeel
    rw [← hx.peel_table hg]
    exact hchain n hn
  · exact List.forall_mem_singleton.mpr hpeel
  · exact List.forall_mem_singleton.mpr
      (Nat.lt_of_lt_of_le hsource (Nat.not_lt.mp hover.added))

end Graph

end RelSql

/-! ## Operators folded into a block -/

namespace RelSql

open Analysis

variable {Q : QuerySpec} {old g g' : Graph} {node : NodeId}

namespace Block

/-- The operators from the table `node` down to a table whose join tree is the FROM clause of a
block with the given clauses.  The block takes over the predicates of the selections on the way, and
the items of the aggregation or the fused projections. -/
inductive Layout (old g : Graph) (node : NodeId) (c : Clauses) : List NodeId → NodeId → Prop where
  | aggregation {input : NodeId} {keys metrics having : List NodeId}
      (hnode : g.node (g.peel node).table = .aggregation input keys metrics having)
      (hpredicates : c.predicates = (g.joinTree (g.operand input true true).table).hoisted
        ++ (g.operand input true true).predicates)
      (hhaving : c.having = having ++ (g.peel node).predicates)
      (hselect : c.select = keys ++ metrics) :
    Layout old g node c
      ((g.peel node).chain ++ [(g.peel node).table] ++ (g.operand input true true).chain)
      (g.operand input true true).table
  | projection {fs : List Fused} {core top input : NodeId} {outer selections : List NodeId}
      (hnode : g.node (g.peel node).table = .projection top outer)
      (hfuses : g.FusesTo (g.peel node).table fs core)
      (hadded : ((g.peel node).table :: fs.map Fused.node).IsChain (old.Adds g))
      (hcore : g.node core = .projection input selections)
      (hpredicates : c.predicates
        = (g.joinTree (g.operand (g.chain Graph.sortInput? input).2 true true).table).hoisted
          ++ (g.operand (g.chain Graph.sortInput? input).2 true true).predicates
          ++ (g.peel node).predicates)
      (hhaving : c.having = []) (hselect : c.select = selections) :
    Layout old g node c
      ((g.peel node).chain ++ ((g.peel node).table :: Graph.fusions fs)
        ++ (g.chain Graph.sortInput? input).1
        ++ (g.operand (g.chain Graph.sortInput? input).2 true true).chain)
      (g.operand (g.chain Graph.sortInput? input).2 true true).table
  | other
      (hpredicates : c.predicates
        = (g.joinTree (g.peel node).table).hoisted ++ (g.peel node).predicates)
      (hhaving : c.having = []) (hselect : c.select = [(g.peel node).table]) :
    Layout old g node c (g.peel node).chain (g.peel node).table

/-- The operators of the core of a block, which are folded after those at its top. -/
theorem Built.layout {b built : Block} (h : Built Q b node g built)
    (hhaving : b.clauses.having = [])
    (hadded : ∃ nodes, built.folding.outputs = b.folding.outputs ++ nodes
      ∧ nodes.IsChain (old.Adds g)) :
  ∃ ops source, Layout old g node built.clauses ops source
    ∧ built.folding.fused = b.folding.fused ++ ops ++ (g.joinTree source).folded
    ∧ built.clauses.from? = some (g.joinTree source).tables
  := by
  obtain ⟨nodes, houtputs, hchain⟩ := hadded
  cases h with
  | aggregation hnode hdraws =>
      refine ⟨_, _, .aggregation hnode rfl rfl rfl, ?_, ?_⟩
      · simp [hdraws.folding, output, foldAll]
      · simp [hdraws.clauses]
  | @projection fs core input selections b' hnode _ hfuses hcore hdraws =>
      have hnodes : nodes = (g.peel node).table :: fs.map Fused.node := by
        have hsame := hdraws.outputs
        simp only [selecting] at houtputs
        rw [houtputs] at hsame
        simpa [fused_eq, sorted, output, foldAll] using hsame
      obtain ⟨top, outer, htable⟩ := Graph.eq_projection hnode
      rw [hnodes] at hchain
      refine ⟨_, _, .projection htable hfuses hchain hcore rfl ?_ rfl, ?_, ?_⟩
      · simp [selecting, hdraws.clauses, fused_eq, sorted, output, foldAll, hhaving]
      · simp [selecting, hdraws.folding, fused_eq, sorted, output, foldAll, Graph.fusions]
      · simp [selecting, hdraws.clauses]
  | other _ _ hdraws =>
      refine ⟨_, _, .other rfl ?_ rfl, ?_, ?_⟩
      · simp [selecting, hdraws.clauses, foldAll, hhaving]
      · simp [selecting, hdraws.folding, foldAll]
      · simp [selecting, hdraws.clauses]

/-- The ways lead through the operators of the core of a block. -/
theorem Layout.leads (hg : g.WellFounded) (hold : old.WellFounded) (e : old.Extends g)
    (hnode : old.Has node) {c : Clauses} {ops : List NodeId} {source : NodeId}
    (h : Layout old g node c ops source) {d : Descent} (hd : old.Leads g source d) :
  old.Leads g node (d.under ops)
  := by
  cases h with
  | aggregation hn =>
      rw [List.append_assoc, Descent.under_append]
      apply Graph.leads_peel hg
      exact .step (by rw [hn]; rfl) (Graph.leads_operand hg _ _ _ hd)
  | @projection fs core top input outer selections hn hfuses hadded hcore =>
      have htop : old.Has top := by
        have hpeel := hold.has_peel hnode
        rw [← e.peel_eq hold hg hnode] at hpeel
        apply hold.has_child hpeel
        rw [← e.node_eq hpeel, hn]
        exact List.mem_cons_self
      have hinner := Graph.leads_chain Graph.follows_sort hg Graph.foldedInput_of_sortInput input
        (Graph.leads_operand hg _ true true hd)
      have hfused := Graph.leads_fusions hg hold e hcore hinner hfuses hadded hn (.itself htop)
      rw [List.append_assoc, List.append_assoc, Descent.under_append]
      apply Graph.leads_peel hg
      refine .step (by rw [hn]; rfl) ?_
      rw [← Descent.under_append, ← Descent.under_append, List.append_assoc] at hfused
      exact hfused
  | other => exact Graph.leads_peel hg node hd

/-- What is folded at the top of a table: limits, sorts and one distinct at most. -/
theorem top_operators (g : Graph) (node : NodeId) :
  ∃ distincts, (top g node).1.folding.fused = (g.chain Graph.limitInput? node).1
      ++ (g.chain Graph.sortInput? (g.chain Graph.limitInput? node).2).1 ++ distincts
    ∧ ((distincts = []
        ∧ (top g node).2 = (g.chain Graph.sortInput? (g.chain Graph.limitInput? node).2).2)
      ∨ ∃ n, distincts = [n] ∧ n = (g.chain Graph.sortInput? (g.chain Graph.limitInput? node).2).2
        ∧ g.node n = .distinct (top g node).2)
  := by
  simp only [top, distinctOf]
  split
  case h_1 t hn =>
      refine ⟨[(g.chain Graph.sortInput? (g.chain Graph.limitInput? node).2).2], ?_,
        .inr ⟨_, rfl, rfl, hn⟩⟩
      simp [fold, sorted, limited, foldAll, ofNode, Folding.empty]
  · refine ⟨[], ?_, .inl ⟨rfl, rfl⟩⟩
    simp [sorted, limited, foldAll, ofNode, Folding.empty]

/-- The ways lead through the operators at the top of a table. -/
theorem leads_top (hg : g.WellFounded) (node : NodeId) {d : Descent}
    (h : old.Leads g (top g node).2 d) :
  old.Leads g node (d.under (top g node).1.folding.fused)
  := by
  obtain ⟨distincts, hfused, htop⟩ := top_operators g node
  rw [hfused, List.append_assoc, Descent.under_append, Descent.under_append]
  apply Graph.leads_chain Graph.follows_limit hg Graph.foldedInput_of_limitInput
  apply Graph.leads_chain Graph.follows_sort hg Graph.foldedInput_of_sortInput
  obtain ⟨rfl, hsame⟩ | ⟨n, rfl, rfl, hn⟩ := htop
  · rw [← hsame]
    exact h
  · exact .step (by rw [hn]; rfl) h

/-- The way from a table down to a FROM clause: through the operators at its top, and those below
them, to a table whose join tree is the FROM clause. -/
def wayDown (g : Graph) (node : NodeId) (ops : List NodeId) (source : NodeId) : Descent :=
  ((g.joinTree source).descent.under ops).under (top g node).1.folding.fused

theorem operators_wayDown (g : Graph) (node : NodeId) (ops : List NodeId) (source : NodeId) :
  (wayDown g node ops source).operators
    = (top g node).1.folding.fused ++ ops ++ (g.joinTree source).folded
  := by
  rw [wayDown, Descent.operators_under, Descent.operators_under, JoinTree.operators_descent,
    List.append_assoc]

theorem leaves_wayDown (g : Graph) (node : NodeId) (ops : List NodeId) (source : NodeId) :
  (wayDown g node ops source).leaves = (g.joinTree source).tables.leaves
  := by
  rw [wayDown, Descent.leaves_under, Descent.leaves_under, JoinTree.leaves_descent,
    JoinTree.leaves_tables]

theorem has_top_of_extends (hold : old.WellFounded) (hg : g.WellFounded) (e : old.Extends g)
    (hnode : old.Has node) :
  old.Has (top g node).2
  := by
  rw [top_extends e hold hg hnode]
  exact has_top hold hnode

/-- The way down leads from the table. -/
theorem Layout.leads_wayDown (hg : g.WellFounded) (hold : old.WellFounded) (e : old.Extends g)
    (hnode : old.Has node) {c : Clauses} {ops : List NodeId} {source : NodeId}
    (h : Layout old g (top g node).2 c ops source) :
  old.Leads g node (wayDown g node ops source)
  := by
  apply leads_top hg node
  exact h.leads hg hold e (has_top_of_extends hold hg e hnode) (Graph.leads_joinTree hg source)

/-- A join that a FROM clause is drawn from comes before the operators above it. -/
theorem Layout.lt_ops (hg : g.WellFounded) (hold : old.WellFounded) (e : old.Extends g)
    (hnode : old.Has node) {c : Clauses} {ops : List NodeId} {source : NodeId}
    (h : Layout old g node c ops source) (hjoin : g.isJoin source = true) :
  source.index ≤ node.index ∧ ∀ n ∈ ops, source.index < n.index
  := by
  have hpeel := hg.peel_le node
  have hchain := hg.lt_of_mem_chain Graph.follows_selection node
  cases h with
  | @aggregation input keys metrics having hn =>
      have hinput : input.index < (g.peel node).table.index := by
        apply hg.child_lt
        rw [hn]
        exact List.mem_cons_self
      have hlt := Nat.lt_of_le_of_lt (hg.operand_le input true true) hinput
      refine ⟨Nat.le_of_lt (Nat.lt_of_lt_of_le hlt hpeel), List.forall_mem_append.mpr
        ⟨List.forall_mem_append.mpr ⟨?_, List.forall_mem_singleton.mpr hlt⟩,
          hg.lt_of_mem_operand input true true⟩⟩
      exact fun n hn => Nat.lt_trans hlt (hchain n hn)
  | @projection fs core top input outer selections hn hfuses hadded hcore =>
      have hhas := hold.has_peel hnode
      rw [← e.peel_eq hold hg hnode] at hhas
      have htop : old.Has top := by
        apply hold.has_child hhas
        rw [← e.node_eq hhas, hn]
        exact List.mem_cons_self
      obtain ⟨hle, hfusions⟩ := Graph.lt_fusions hg hold e hcore
        (fun t ht => ht.join_le hg hjoin) hfuses hadded hn (.itself htop)
      have hbelow : top.index < (g.peel node).table.index := by
        apply hg.child_lt
        rw [hn]
        exact List.mem_cons_self
      have hlt := Nat.lt_of_le_of_lt hle hbelow
      have hsorts := hg.lt_of_mem_chain Graph.follows_sort input
      refine ⟨Nat.le_of_lt (Nat.lt_of_lt_of_le hlt hpeel), List.forall_mem_append.mpr
        ⟨List.forall_mem_append.mpr ⟨List.forall_mem_append.mpr
          ⟨fun n hn => Nat.lt_trans hlt (hchain n hn), List.forall_mem_cons.mpr ⟨hlt, hfusions⟩⟩,
          fun n hn => Nat.lt_of_le_of_lt (hg.operand_le _ true true) (hsorts n hn)⟩,
          hg.lt_of_mem_operand _ true true⟩⟩
  | other => exact ⟨hpeel, hchain⟩

/-- Among the tables up to a join that the FROM clause is drawn from, those that are folded are the
ones of its tree. -/
theorem Layout.mem_fused_iff (hg : g.WellFounded) (hold : old.WellFounded) (e : old.Extends g)
    (hnode : old.Has node) {c : Clauses} {ops : List NodeId} {source : NodeId}
    (h : Layout old g (top g node).2 c ops source) (hjoin : g.isJoin source = true) {u : NodeId}
    (hu : u.index ≤ source.index) :
  u ∈ (top g node).1.folding.fused ++ ops ++ (g.joinTree source).folded
    ↔ u ∈ (g.joinTree source).folded
  := by
  obtain ⟨hle, hops⟩ := h.lt_ops hg hold e (has_top_of_extends hold hg e hnode) hjoin
  have htop := lt_of_mem_top hg node
  rw [List.mem_append, or_iff_right]
  intro hmem
  rcases List.mem_append.mp hmem with hmem | hmem
  · exact absurd (htop u hmem) (Nat.not_lt.mpr (Nat.le_trans hu hle))
  · exact absurd (hops u hmem) (Nat.not_lt.mpr hu)

/-- A block is that of a table, over the operators that lead down to its FROM clause: the
operators, those of the join tree of the table below them, are folded into it, and its rankings
become semi joins. -/
inductive Traced (Q : QuerySpec) (old g : Graph) (node : NodeId) (b : Block) : Prop where
  | intro {built : Block} {ops : List NodeId} {source : NodeId}
      (hlayout : Layout old g (top g node).2 built.clauses ops source)
      (hfused : b.folding.fused = (wayDown g node ops source).operators)
      (hcompleted : Completed Q built (g.joinTree source).tables g b)
      (hjoins : CompletesJoins old built (g.joinTree source).tables g b)

theorem CompletesJoins.of_extends {old' : Graph} (e : old.Extends old') {b b' : Block}
    {t : TableSet} (h : CompletesJoins old' b t g b') :
  CompletesJoins old b t g b'
  := by
  obtain ⟨node, joins, more, hfrom, hsame, hmore⟩ := h
  exact ⟨node, joins, more, hfrom, hsame, hmore.imp fun _ _ h => ⟨h.1, fun ho => h.2 (ho.mono e)⟩⟩

/-- The operators on the way down to the FROM clause of a block are folded into it. -/
theorem grows_ofTable_traced (hQ : Q.Persistent) (hforce : Q.Qualifies)
    {compile : List (List NodeId) → NodeId → Analysis Query}
    (hcompile : ∀ enclosing, Q.Meets (compile enclosing)) (enclosing : List (List NodeId))
    (hg : g.WellFounded) (hnode : g.Has node) :
  Grows (fun g' b => Traced Q g g' node b) (ofTable compile enclosing node) g
  := by
  have hvalid := top_valid (Q := Q) hg hnode
  have htop := has_top hg hnode
  rw [ofTable]
  apply grows_run (run_foldLimits _ node g)
  apply grows_run (run_foldTopSorts _ _ g)
  apply grows_run (run_foldDistinct _ _ g)
  apply grows_bind ((grows_core hQ (hcompile enclosing) hg htop hvalid.nested).and
    (grows_core_adds hQ (hcompile enclosing) hg htop hvalid.nested))
  rintro built g₁ hg₁ e₁ ⟨hbuilt, nodes, houtputs, hadded⟩
  obtain ⟨hvalid₁, source, rest, hsource, hfrom, hpredicates⟩ :=
    hbuilt.valid hg₁ (htop.mono e₁) (hvalid.mono hQ hg hg₁ e₁)
  apply ((grows_complete hQ hforce hcompile enclosing hg₁ hvalid₁ hfrom).and
    (grows_complete_assembles hQ hforce hcompile enclosing hg₁ hvalid₁ hfrom)).imp
  rintro b g₂ hg₂ e₂ ⟨hcompleted, hassembles⟩
  have hjoins := hassembles.completesJoins
  have hbuilt₂ := hbuilt.mono hQ e₂ hg₁ hg₂ (htop.mono e₁)
  obtain ⟨_, _, hhaving, _⟩ := top_eq g node
  obtain ⟨ops, source', hlayout, hfused, hfrom'⟩ :=
    hbuilt₂.layout hhaving ⟨nodes, houtputs, hadded.imp fun _ _ h => h.mono e₂ hg₁ hg₂⟩
  have htables := Option.some.inj (hfrom.symm.trans hfrom')
  rw [htables] at hcompleted hjoins
  rw [← top_extends (e₁.trans e₂) hg hg₂ hnode] at hlayout hfused
  rw [← operators_wayDown] at hfused
  exact .intro hlayout (hcompleted.fused.trans hfused) hcompleted (hjoins.of_extends e₁)

end Block

end RelSql
