import RelSql.Proofs.Block.Descent
import RelSql.Proofs.Block.Range

/-!
# Boundaries of subqueries

On the way from the node of a block down to its FROM clause the operators come in the order in
which SQL evaluates a block, backwards: limits, sorts, one distinct, selections, one aggregation
or a run of fused projections, sorts below projections, and then selections and joins.  An
operator that stands elsewhere is a table of the FROM clause, and is compiled to a derived table
unless it is a physical one.
-/

namespace RelSql

open Analysis

variable {old g g' : Graph} {node : NodeId}

/-- The operators that a block folds. -/
inductive Operator where
  | limit
  | sort
  | distinct
  | selection
  | aggregation
  | projection
  | join
  deriving DecidableEq, Repr

/-- The operator that a node is, if a block may fold it. -/
def Node.operator? : Node → Option Operator
  | .limit _ _ _ => some .limit
  | .sort _ _ => some .sort
  | .distinct _ => some .distinct
  | .selection _ _ => some .selection
  | .aggregation _ _ _ _ => some .aggregation
  | .projection _ _ => some .projection
  | .join _ _ _ _ => some .join
  | _ => none

namespace Graph

/-- The nodes are all the same operator. -/
def All (g : Graph) (o : Operator) (nodes : List NodeId) : Prop :=
  ∀ n ∈ nodes, (g.node n).operator? = some o

/-- A run of projections with selections between them. -/
inductive Run (g : Graph) : List NodeId → Prop where
  | last {p : NodeId} (hp : (g.node p).operator? = some .projection) : Run g [p]
  | cons {p : NodeId} {between rest : List NodeId}
      (hp : (g.node p).operator? = some .projection) (hbetween : g.All .selection between)
      (hrest : Run g rest) : Run g (p :: (between ++ rest))

/-- Nothing, one aggregation, or a run of projections. -/
inductive Core (g : Graph) : List NodeId → Prop where
  | none : Core g []
  | aggregation {n : NodeId} (hn : (g.node n).operator? = some .aggregation) : Core g [n]
  | projections {run : List NodeId} (hrun : g.Run run) : Core g run

/-- The operators of a path come in the order in which SQL evaluates a block, backwards. -/
inductive Staged (g : Graph) (path : List NodeId) : Prop where
  | intro {limits sorts distincts filters core inner sources : List NodeId}
      (hpath : path = limits ++ sorts ++ distincts ++ filters ++ core ++ inner ++ sources)
      (hlimits : g.All .limit limits) (hsorts : g.All .sort sorts)
      (hdistincts : g.All .distinct distincts) (hone : distincts.length ≤ 1)
      (hfilters : g.All .selection filters) (hcore : g.Core core) (hinner : g.All .sort inner)
      (hbelow : inner ≠ [] → g.Run core)
      (hsources : ∀ n ∈ sources, (g.node n).operator? = some .selection
        ∨ (g.node n).operator? = some .join) : Staged g path

/-- A table of a FROM clause is physical, or there is a derived table for it, which is what it has
been compiled to. -/
def Supplied (g : Graph) (nested : List (Nested Query)) (leaf : NodeId) : Prop :=
  (∃ t, g.node (g.body leaf) = .table t)
    ∨ ∃ s ∈ nested, s.node = leaf ∧ s.kind = .table
      ∧ QuerySpec.compilation g (g.body leaf) s.query

/-! ### Operators in order -/

/-- The nodes of a graph are the same operators in a graph that extends it. -/
theorem All.restrict (e : old.Extends g) {o : Operator} {nodes : List NodeId}
    (h : g.All o nodes) :
  old.All o (nodes.filter (old.Has ·))
  := by
  intro n hn
  obtain ⟨hmem, hhas⟩ := List.mem_filter.mp hn
  rw [← e.node_eq (of_decide_eq_true hhas)]
  exact h n hmem

/-- The nodes of a chain are all the same operator. -/
theorem all_chain {next? : Node → Option NodeId} (hnext : Follows next?) (hg : g.WellFounded)
    {o : Operator} (ho : ∀ n t, next? n = some t → n.operator? = some o) (id : NodeId) :
  g.All o (g.chain next? id).1
  := by
  apply chain_induction hnext hg (P := fun id => g.All o (g.chain next? id).1)
  · intro id ht
    rw [chain_end hnext hg ht]
    exact List.forall_mem_nil _
  · intro id t ht ih
    rw [chain_next hnext hg ht]
    exact List.forall_mem_cons.mpr ⟨ho _ t ht, ih⟩

theorem all_limits (hg : g.WellFounded) (id : NodeId) :
  g.All .limit (g.chain limitInput? id).1
  := by
  apply all_chain follows_limit hg
  intro n t h
  cases n <;> cases h
  rfl

theorem all_sorts (hg : g.WellFounded) (id : NodeId) :
  g.All .sort (g.chain sortInput? id).1
  := by
  apply all_chain follows_sort hg
  intro n t h
  cases n <;> cases h
  rfl

theorem all_peel (hg : g.WellFounded) (id : NodeId) :
  g.All .selection (g.peel id).chain
  := by
  intro n hn
  obtain ⟨t, predicates, hnode⟩ := selection_of_mem_chain hg id n hn
  rw [hnode]
  rfl

theorem all_operand (hg : g.WellFounded) (id : NodeId) (hoist left : Bool) :
  g.All .selection (g.operand id hoist left).chain
  := by
  rw [operand]
  split
  · exact all_peel hg id
  · exact List.forall_mem_nil _

/-- The operators of a join tree are selections and joins. -/
theorem operators_joinTree (hg : g.WellFounded) (id : NodeId) :
  ∀ n ∈ (g.joinTree id).descent.operators,
    (g.node n).operator? = some .selection ∨ (g.node n).operator? = some .join
  := by
  apply joinTree_induction hg (P := fun id => ∀ n ∈ (g.joinTree id).descent.operators,
    (g.node n).operator? = some .selection ∨ (g.node n).operator? = some .join)
  · intro id hn
    rw [joinTree_other hg hn]
    exact List.forall_mem_nil _
  · intro id kind l r predicates hn ih
    rw [joinTree_join hg hn, JoinTree.descent, Descent.operators, Descent.operators_under,
      Descent.operators_under, Descent.operators, List.append_nil]
    refine List.forall_mem_cons.mpr ⟨.inr (by rw [hn]; rfl), List.forall_mem_append.mpr ⟨?_, ?_⟩⟩
    · exact List.forall_mem_append.mpr ⟨fun n hn => .inl (all_operand hg l _ _ n hn), ih⟩
    · exact fun n hn => .inl (all_operand hg r _ _ n hn)

/-- The projections of a graph that are fused are a run, with the selections between them. -/
theorem run_fusions (hg : g.WellFounded) (hold : old.WellFounded) (e : old.Extends g)
    {core input p : NodeId} {items : List NodeId} (hcore : g.node core = .projection input items)
    {t x : NodeId} {outer : List NodeId} {fs : List Fused} (hfuses : g.FusesTo p fs core)
    (hadded : (p :: fs.map Fused.node).IsChain (old.Adds g)) (hp : g.node p = .projection x outer)
    (hx : old.Stands g t x) :
  ∀ q, (old.node q).operator? = some .projection →
    old.Run (q :: (fusions fs).filter (old.Has ·))
  := by
  apply fusesTo_induction hg hold e hcore (P := fun _ _ fs =>
    ∀ q, (old.node q).operator? = some .projection → old.Run (q :: (fusions fs).filter (old.Has ·)))
    (fun _ _ q hq => .last hq) _ hfuses hadded hp hx
  intro t x f table source fs _ hover ih q hq
  obtain ⟨items, hinner⟩ := hover.inner
  have hprojection : (old.node (g.peel t).table).operator? = some .projection := by
    rw [← e.node_eq hover.has, hinner]
    rfl
  have hfilter : (fusions (f :: fs)).filter (old.Has ·)
      = (g.peel x).chain.filter (old.Has ·)
        ++ (g.peel t).table :: (fusions fs).filter (old.Has ·) := by
    rw [fusions, List.flatMap_cons, ← fusions, hover.absorbed]
    simp [List.filter_append, hover.has, hover.added]
  rw [hfilter]
  exact .cons hq ((all_peel hg x).restrict e) (ih _ hprojection)

end Graph

namespace Block

/-- The core of a block is one aggregation or a run of fused projections, between selections, and
sorts are folded below it when it is such a run. -/
theorem Layout.core (hg : g.WellFounded) (hold : old.WellFounded) (e : old.Extends g)
    (hnode : old.Has node) {c : Clauses} {ops : List NodeId} {source : NodeId}
    (h : Layout old g node c ops source) :
  ∃ filters core inner chain, ops = filters ++ core ++ inner ++ chain ∧ g.All .selection filters
    ∧ old.Core (core.filter (old.Has ·)) ∧ g.All .sort inner
    ∧ (inner ≠ [] → old.Run (core.filter (old.Has ·))) ∧ g.All .selection chain
  := by
  have hpeel : old.Has (g.peel node).table := by
    rw [e.peel_eq hold hg hnode]
    exact hold.has_peel hnode
  have hfilters := Graph.all_peel hg node
  cases h with
  | @aggregation input keys metrics having hn =>
      refine ⟨_, [(g.peel node).table], [], _, by rw [List.append_nil], hfilters, ?_,
        List.forall_mem_nil _, fun h => absurd rfl h, Graph.all_operand hg input true true⟩
      rw [List.filter_cons_of_pos (by simpa using hpeel), List.filter_nil]
      apply Graph.Core.aggregation
      rw [← e.node_eq hpeel, hn]
      rfl
  | @projection fs core top input outer selections hn hfuses hadded hcore =>
      have htop : old.Has top := by
        apply hold.has_child hpeel
        rw [← e.node_eq hpeel, hn]
        exact List.mem_cons_self
      have hprojection : (old.node (g.peel node).table).operator? = some .projection := by
        rw [← e.node_eq hpeel, hn]
        rfl
      have hrun := Graph.run_fusions hg hold e hcore hfuses hadded hn (.itself htop) _ hprojection
      rw [← List.filter_cons_of_pos (by simpa using hpeel)] at hrun
      exact ⟨_, (g.peel node).table :: Graph.fusions fs, _, _, rfl, hfilters, .projections hrun,
        Graph.all_sorts hg input, fun _ => hrun, Graph.all_operand hg _ true true⟩
  | other =>
      exact ⟨_, [], [], [], by simp, hfilters, .none, List.forall_mem_nil _, fun h => absurd rfl h,
        List.forall_mem_nil _⟩

/-- What is folded at the top of a table are limits, sorts and one distinct at most. -/
theorem top_stages (hg : g.WellFounded) (node : NodeId) :
  ∃ limits sorts distincts, (top g node).1.folding.fused = limits ++ sorts ++ distincts
    ∧ g.All .limit limits ∧ g.All .sort sorts ∧ g.All .distinct distincts ∧ distincts.length ≤ 1
  := by
  obtain ⟨distincts, hfused, htop⟩ := top_operators g node
  refine ⟨_, _, distincts, hfused, Graph.all_limits hg node, Graph.all_sorts hg _, ?_⟩
  obtain ⟨rfl, _⟩ | ⟨n, rfl, _, hn⟩ := htop
  · exact ⟨List.forall_mem_nil _, Nat.zero_le 1⟩
  · refine ⟨List.forall_mem_singleton.mpr ?_, Nat.le_refl 1⟩
    rw [hn]
    rfl

/-- A nested query that is found for a table has been compiled from the table. -/
theorem supplied_of_sourced {nested : List (Nested Query)}
    (hnested : ∀ s ∈ nested, s.Compiled .compilation g) {leaf : NodeId}
    (h : g.Sourced nested leaf) :
  g.Supplied nested leaf
  := by
  rcases h with ⟨t, ht, _⟩ | hderived
  · exact .inl ⟨t, ht⟩
  · obtain ⟨s, hs⟩ := Option.isSome_iff_exists.mp hderived
    rw [derivedFor?] at hs
    have hmem := List.mem_of_find?_eq_some hs
    have hfound := List.find?_some hs
    simp only [decide_eq_true_eq] at hfound
    obtain ⟨rfl, hkind⟩ := hfound
    obtain ⟨table, _, hsource, hq⟩ := (hnested s hmem).source
    rw [hkind] at hsource
    cases hsource with
    | table => exact .inr ⟨s, hmem, rfl, hkind, hq⟩

/-- The paths of a block come in order. -/
theorem Layout.staged (hg : g.WellFounded) (hold : old.WellFounded) (e : old.Extends g)
    (hnode : old.Has node) {c : Clauses} {ops : List NodeId} {source : NodeId}
    (h : Layout old g (top g node).2 c ops source) :
  ∀ path ∈ (wayDown g node ops source).paths, old.Staged (path.filter (old.Has ·))
  := by
  intro path hpath
  obtain ⟨_, hbelow, rfl⟩ := Descent.mem_paths_under.mp hpath
  obtain ⟨q, hq, rfl⟩ := Descent.mem_paths_under.mp hbelow
  obtain ⟨limits, sorts, distincts, hfused, hlimits, hsorts, hdistincts, hone⟩ := top_stages hg node
  obtain ⟨filters, core, inner, chain, rfl, hfilters, hcore, hinner, hrun, hchain⟩ :=
    h.core hg hold e (has_top_of_extends hold hg e hnode)
  rw [hfused]
  refine @Graph.Staged.intro _ _ (limits.filter (old.Has ·)) (sorts.filter (old.Has ·))
    (distincts.filter (old.Has ·)) (filters.filter (old.Has ·)) (core.filter (old.Has ·))
    (inner.filter (old.Has ·)) ((chain ++ q).filter (old.Has ·)) ?_ (hlimits.restrict e)
    (hsorts.restrict e) (hdistincts.restrict e) ?_ (hfilters.restrict e) hcore (hinner.restrict e)
    ?_ ?_
  · simp only [List.filter_append, List.append_assoc]
  · exact Nat.le_trans (List.length_filter_le _ _) hone
  · intro hne
    apply hrun
    rintro rfl
    exact hne List.filter_nil
  · intro n hn
    obtain ⟨hmem, hhas⟩ := List.mem_filter.mp hn
    rw [← e.node_eq (of_decide_eq_true hhas)]
    rcases List.mem_append.mp hmem with hmem | hmem
    · exact .inl (hchain n hmem)
    · exact Graph.operators_joinTree hg source n (Descent.mem_operators hq hmem)

/-- The way from the table of a block down to the tables of its FROM clause leads through the
operators that are folded into the block.  On each path the operators of the graph come in the
order in which SQL evaluates a block, backwards.  The tables where the paths end are those of
the FROM clause, and those behind them are tables of rankings, which are added to the graph.
All of them are physical tables or derived ones, and all nested queries have been compiled from
tables, so that the same holds of their blocks. -/
theorem ofTable_staged (hg : g.WellFounded) (hnode : g.Has node) {n : Nat}
    {enclosing : List (List NodeId)} {b : Block}
    (hrun : (Block.ofTable (queryWithin n) enclosing node).run g = .ok (b, g')) :
  g.Extends g' ∧ ∃ d ranked, g.Leads g' node d ∧ b.folding.fused = d.operators
    ∧ b.clauses.leaves = d.leaves ++ ranked ∧ (∀ leaf ∈ ranked, ¬ g.Has leaf)
    ∧ (∀ path ∈ d.paths, g.Staged (path.filter (g.Has ·)))
    ∧ (∀ leaf ∈ b.clauses.leaves, g'.Supplied b.nested leaf)
    ∧ ∀ s ∈ b.nested, s.Compiled .compilation g'
  := by
  obtain ⟨hg', e, htraced⟩ := (grows_ofTable_traced QuerySpec.compilation_persistent
    QuerySpec.compilation_qualifies (QuerySpec.compilation_meets n) enclosing hg hnode).result
      b g' hrun
  obtain @⟨built, ops, source, hlayout, hfused, hcompleted, hjoins⟩ := htraced
  obtain ⟨table, joins, more, hfrom, hsame, hmore⟩ := hjoins
  refine ⟨e, wayDown g' node ops source, more.map JoinClause.table,
    hlayout.leads_wayDown hg' hg e hnode, hfused, ?_, ?_, hlayout.staged hg' hg e hnode,
    fun leaf hleaf => supplied_of_sourced hcompleted.nested (hcompleted.sourced leaf hleaf),
    hcompleted.nested⟩
  · rw [leaves_wayDown, Clauses.leaves, hfrom]
    simp [TableSet.leaves, hsame]
  · intro leaf hleaf
    obtain ⟨c, hc, rfl⟩ := List.mem_map.mp hleaf
    exact forall₂_right hmore (fun _ _ h => h.2) c hc

end Block

/-- The first rows, sorted, of those of the first rows of a table that a filter passes on. -/
def Graph.filteredLimit : Graph := ⟨#[
  .table ⟨some "t", none, ⟨[⟨"f", .double⟩]⟩⟩,
  .limit ⟨0⟩ 3 0,
  .column ⟨1⟩ "f",
  .literal (.integer 0),
  .binary .gt ⟨2⟩ ⟨3⟩,
  .selection ⟨1⟩ [⟨4⟩],
  .column ⟨5⟩ "f",
  .sort ⟨5⟩ [⟨⟨6⟩, true⟩],
  .limit ⟨7⟩ 2 0]⟩

/-- The limit above the filter is folded, and the limit below it is a derived table. -/
theorem Block.ofTable_staged_filteredLimit :
  ∃ b g' d, (Block.ofTable (queryWithin 2) [] ⟨8⟩).run Graph.filteredLimit = .ok (b, g')
    ∧ Graph.filteredLimit.Leads g' ⟨8⟩ d ∧ d.operators = [⟨8⟩, ⟨7⟩, ⟨5⟩]
    ∧ (∀ path ∈ d.paths, Graph.filteredLimit.Staged (path.filter (Graph.filteredLimit.Has ·)))
    ∧ ∃ s ∈ b.nested, s.node = ⟨1⟩ ∧ s.kind = .table ∧ QuerySpec.compilation g' ⟨1⟩ s.query
  := by
  have heval : ((Block.ofTable (queryWithin 2) [] ⟨8⟩).run Graph.filteredLimit).toOption.map
      (fun r => (r.1.folding.fused, r.1.clauses.leaves)) = some ([⟨8⟩, ⟨7⟩, ⟨5⟩], [⟨1⟩]) := by
    decide
  obtain ⟨⟨b, g'⟩, hok, hresult⟩ := Option.map_eq_some_iff.mp heval
  have hrun := eq_ok_of_toOption hok
  obtain ⟨hfused, hleaves⟩ := Prod.mk.inj hresult
  obtain ⟨e, d, _, hleads, hoperators, _, _, hstaged, hsupplied, _⟩ :=
    ofTable_staged (g := Graph.filteredLimit) (by decide) (by decide) hrun
  refine ⟨b, g', d, hrun, hleads, hoperators.symm.trans hfused, hstaged, ?_⟩
  have hbody : g'.body ⟨1⟩ = ⟨1⟩ := e.body_eq (by decide)
  have hlimit : g'.node ⟨1⟩ = .limit ⟨0⟩ 3 0 := e.node_eq (by decide)
  have h := hsupplied ⟨1⟩ (by rw [hleaves]; exact List.mem_singleton_self _)
  rw [Graph.Supplied, hbody, hlimit] at h
  exact h.resolve_left nofun

end RelSql
