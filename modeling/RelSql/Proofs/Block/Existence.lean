import RelSql.Proofs.Block.Range
import RelSql.Proofs.Join.Crossed
import RelSql.Proofs.Meaning.Choices
import RelSql.Proofs.Meaning.Folded

/-!
# Blocks of existence tests

The rows that a test asks for are those of a cross join of tables for which the conjuncts of a
predicate hold.  Their block takes over the filters of the tables and folds nothing else, unless one
of the tables is itself a join or a projection, or one of the predicates is a ranking.  For chosen
rows of the tables around it the block has a row just when some combination of rows of its own
tables satisfies the predicate.
-/

namespace RelSql

variable {Q : QuerySpec} {g g' : Graph}

/-- The rows of a block are those of the cross join of tables for which its predicates hold. -/
structure Graph.Crosses (g : Graph) (c : Clauses) (tables : List NodeId) : Prop where
  tables : ∃ node first rest, tables = first :: rest
    ∧ c.from? = some ⟨node, first, Graph.crossed rest⟩
  select : ∀ v ∈ c.select, g.denote .reductions v = false
  groupBy : c.groupBy = []
  having : c.having = []
  limit : c.limit = none

/-- The tables of the FROM clause of a cross join. -/
theorem Graph.Crosses.leaves {c : Clauses} {tables : List NodeId} (h : g.Crosses c tables) :
  c.leaves = tables
  := by
  obtain ⟨node, first, rest, rfl, hfrom⟩ := h.tables
  simp [Clauses.leaves, hfrom, TableSet.leaves, Graph.crossed, Function.comp_def]

namespace Block

/-- No predicate of a filter above one of the tables, and no conjunct, is a ranking. -/
def Unranked (g : Graph) (q : NodeId) (tables : List NodeId) : Prop :=
  ∀ p, (p ∈ conjuncts g q ∨ ∃ t ∈ tables, p ∈ (g.peel t).predicates) → isRanking g p = false

/-- The joins of a FROM clause of cross joins stay the same when they are lifted. -/
theorem crossed_of_lifts {s : Folding} {tables : List NodeId} {joins : List JoinClause}
    (h : List.Forall₂ (JoinClause.Lifts s g) (Graph.crossed tables) joins) :
  joins = Graph.crossed tables
  := by
  induction tables generalizing joins with
  | nil => exact List.forall₂_nil_left_iff.mp h
  | cons t rest ih =>
      obtain ⟨c, joins, hc, hjoins, rfl⟩ := List.forall₂_cons_left_iff.mp h
      have hsame : c = ⟨.cross, t, []⟩ := by
        cases c
        rw [JoinClause.mk.injEq]
        exact ⟨hc.kind, hc.table, List.forall₂_nil_left_iff.mp hc.predicates⟩
      rw [hsame, ih hjoins]
      rfl

/-- The block of the rows that satisfy a predicate is a cross join of the tables below the filters,
and its predicates are the conjuncts and the filters. -/
structure Witnessing (g : Graph) (q : NodeId) (tables : List NodeId) (b : Block) : Prop where
  crosses : g.Crosses b.clauses (tables.map fun t => (g.peel t).table)
  folded : ∀ u : NodeId, u.index ≤ q.index →
    (b.folding.contains u = true ↔ ∃ t ∈ tables, u ∈ (g.peel t).chain)
  predicates : ∃ predicates, List.Forall₂ (b.folding.Lifts .substitute g) predicates
      b.clauses.predicates
    ∧ ∀ p, p ∈ predicates ↔ p ∈ conjuncts g q ∨ ∃ t ∈ tables, p ∈ (g.peel t).predicates

/-- The block of values of a table is completed from the FROM clause over the table and the filters
that it takes over, and nothing is folded above that. -/
theorem OfTable.exists_built (hg : g.WellFounded) {node input : NodeId} {values : List NodeId}
    (hn : g.node node = .projection input values)
    (hvalues : ∀ item ∈ values, g.isRelation item = false)
    (hsort : Graph.sortInput? (g.node input) = none) {b : Block} (h : OfTable Q g node b) :
  ∃ built : Block,
    Completed Q built (g.joinTree (g.operand input true true).table).tables g b
      ∧ built.clauses = { Clauses.ofNode node with
        outputs := built.clauses.outputs
        select := values
        from? := some (g.joinTree (g.operand input true true).table).tables
        predicates := g.filtersOver input }
      ∧ built.folding.fused = node :: g.foldedOver input
  := by
  obtain @⟨built, source, rest, _, hbuilt, hfrom, _, hcompleted⟩ := h
  have hpeel : g.peel node = ⟨node, [], []⟩ := Graph.peel_other hg (by rw [hn]; rfl)
  have htop : (top g node).1.folding.fused = [] ∧ (top g node).1.clauses = .ofNode node :=
    block_top_of_plain hg (by rw [hn]; rfl) (by rw [hn]; rfl) (by rw [hn]; nofun)
  obtain ⟨hfused, hclauses⟩ := htop
  rw [top_of_plain hg (by rw [hn]; rfl) (by rw [hn]; rfl) (by rw [hn]; nofun)] at hbuilt
  cases hbuilt with
  | aggregation hnode _ =>
      rw [hpeel, hn] at hnode
      cases hnode
  | other _ hpushes =>
      rw [hpeel, Graph.isProjection, hn] at hpushes
      cases hpushes
  | @projection _ _ _ _ b' _ _ hfuses hcore hdraws =>
      rw [hpeel] at hfuses hdraws hfrom hcompleted
      obtain ⟨hsame, rfl⟩ := eq_of_fusesTo hg hn hvalues hfuses
      rw [hsame] at hcore
      obtain ⟨rfl, rfl⟩ := Node.projection.inj (hn.symm.trans hcore)
      rw [Graph.chain_end Graph.follows_sort hg hsort] at hdraws hfrom hcompleted
      rw [Option.some.inj (hfrom.symm.trans (congrArg Clauses.from? hdraws.clauses))] at hcompleted
      refine ⟨_, hcompleted, ?_, ?_⟩
      · rw [selecting, hdraws.clauses, List.append_nil]
        simp only [sorted, fused, output, foldAll, hclauses]
        rfl
      · rw [selecting, hdraws.folding]
        simp only [sorted, fused, output, foldAll, hfused, List.foldl_nil, List.nil_append,
          List.append_nil, List.cons_append, Graph.foldedOver]

/-- A block that selects the value `one` and is completed from cross joins has the rows of these. -/
theorem Completed.crosses (hg : g.WellFounded) {built b : Block} {tables : TableSet}
    {node one first : NodeId} {rest : List NodeId}
    (htables : tables = ⟨node, first, Graph.crossed rest⟩) (h : Completed Q built tables g b)
    (hselect : built.clauses.select = [one]) (hone : g.node one = .literal (.integer 1))
    (hgroupBy : built.clauses.groupBy = []) (hhaving : built.clauses.having = [])
    (hlimit : built.clauses.limit = none)
    (hunranked : built.clauses.predicates.filter (isRanking g) = []) :
  g.Crosses b.clauses (first :: rest)
  := by
  refine ⟨?_, ?_, ?_, ?_, ?_⟩
  · obtain ⟨node', joins, more, hfrom, hjoins, _, _, _, hmore⟩ := h.source
    rw [htables] at hfrom hjoins
    rw [hmore hunranked, List.append_nil, crossed_of_lifts hjoins] at hfrom
    exact ⟨node', first, rest, rfl, hfrom⟩
  · have hselected := h.select
    rw [hselect] at hselected
    obtain ⟨l, _, hl, hnil, hlifted⟩ := List.forall₂_cons_left_iff.mp hselected
    rw [hlifted, List.forall₂_nil_left_iff.mp hnil, List.forall_mem_singleton]
    cases hl with
    | star hr _ =>
        rw [Graph.isRelation, hone] at hr
        cases hr
    | value _ hl =>
        have hoperator : (g.node one).isOperator = true := by
          rw [hone]
          rfl
        rw [hl.denote _ Algebra.reductions_transparent, Folding.resolve_value hg,
          Graph.denote_operator hg _ hoperator, hone]
        rfl
  · rw [h.rest]
    exact hgroupBy
  · have hlifted := h.having
    rw [hhaving] at hlifted
    exact List.forall₂_nil_left_iff.mp hlifted
  · rw [h.rest]
    exact hlimit

theorem OfTable.witnessing (hg : g.WellFounded) {q first rows : NodeId} {rest : List NodeId}
    (hw : g.Witnesses q first rest rows) (hplain : ∀ t ∈ first :: rest, g.Plain t)
    (hunranked : Unranked g q (first :: rest)) {b : Block} (h : OfTable Q g rows b) :
  Witnessing g q (first :: rest) b
  := by
  obtain @⟨joined, filtered, one, hcrossed, hnew, hfiltered, hone, hrows⟩ := hw
  have hcovers := hcrossed.covers hg hplain
  obtain ⟨htree, hfolded, hfilters⟩ := hcovers.selection hg hfiltered
  have hvalues : ∀ item ∈ [one], g.isRelation item = false := by
    rw [List.forall_mem_singleton, Graph.isRelation, hone]
    rfl
  obtain ⟨built, hcompleted, hclauses, hfused⟩ :=
    h.exists_built hg hrows hvalues (by rw [hfiltered]; rfl)
  obtain ⟨node, htables⟩ := hcovers.tables
  rw [htree] at hcompleted
  have hpredicates : ∀ p, p ∈ built.clauses.predicates
      ↔ p ∈ conjuncts g q ∨ ∃ t ∈ first :: rest, p ∈ (g.peel t).predicates := by
    intro p
    rw [hclauses, hfilters, hcovers.filters, or_comm]
  have hkept : ∀ p ∈ built.clauses.predicates, isRanking g p = false :=
    fun p hp => hunranked p ((hpredicates p).mp hp)
  refine ⟨?_, ?_, built.clauses.predicates, ?_, hpredicates⟩
  · rw [List.map_cons]
    apply hcompleted.crosses hg htables _ hone
    · rw [hclauses]
      rfl
    · rw [hclauses]
      rfl
    · rw [hclauses]
      rfl
    · rw [List.filter_eq_nil_iff]
      intro p hp
      rw [hkept p hp]
      exact Bool.false_ne_true
    · rw [hclauses]
  · intro u hu
    have hlt : filtered.index < rows.index := by
      apply hg.child_lt
      rw [hrows]
      exact List.mem_cons_self
    -- the selection and the projection come after what the predicate reads
    have hother : u ≠ rows ∧ u ≠ filtered := by
      constructor <;> rintro rfl <;> omega
    rw [Folding.contains, List.contains_iff_mem, hcompleted.fused, hfused, hfolded,
      ← hcovers.folded u hu]
    simp [hother]
  · have hlifted := hcompleted.predicates
    rw [List.filter_eq_self.mpr fun p hp => by rw [hkept p hp]; rfl] at hlifted
    exact hlifted

namespace Witnessing

variable {q : NodeId} {tables : List NodeId} {b : Block}

/-- The tables of the FROM clause are those below the filters. -/
theorem mem_leaves (h : Witnessing g q tables b) {u : NodeId} :
  u ∈ b.clauses.leaves ↔ ∃ t ∈ tables, (g.peel t).table = u
  := by
  rw [h.crosses.leaves, List.mem_map]

theorem notMem_leaves (h : Witnessing g q tables b) {u : NodeId}
    (hnone : ∀ t ∈ tables, u ∉ g.layers t) :
  u ∉ b.clauses.leaves
  := by
  rw [h.mem_leaves]
  rintro ⟨t, ht, rfl⟩
  exact hnone t ht (g.table_mem_layers t)

/-- The columns of the layers of a joined table resolve to those of the table. -/
theorem resolve_layers (hg : g.WellFounded) (h : Witnessing g q tables b)
    (htables : ∀ t ∈ tables, t.index < q.index) {α : Type} (A : Algebra α) {t : NodeId}
    (ht : t ∈ tables) :
  ∀ u ∈ g.layers t,
    (b.folding.resolve .substitute A g u).column = A.column (g.peel t).table
  := by
  have hle : ∀ u ∈ g.layers t, u.index ≤ q.index := fun u hu =>
    Nat.le_trans (Graph.layers_le hg t u hu) (Nat.le_of_lt (htables t ht))
  apply Folding.resolve_layers hg A t
  · intro u hu
    exact (h.folded u (hle u (List.mem_append_left _ hu))).mpr ⟨t, ht, hu⟩
  · rw [Bool.eq_false_iff, ne_eq, h.folded _ (hle _ (g.table_mem_layers t))]
    exact fun ⟨t', _, hchain⟩ => Graph.table_notMem_chain hg t t' hchain

/-- The columns of all other tables stay as they are. -/
theorem resolve_others (hg : g.WellFounded) (h : Witnessing g q tables b) {α : Type}
    (A : Algebra α) {u : NodeId} (hu : u.index ≤ q.index) (hnone : ∀ t ∈ tables, u ∉ g.layers t) :
  (b.folding.resolve .substitute A g u).column = A.column u
  := by
  apply Folding.resolve_kept hg
  rw [Bool.eq_false_iff, ne_eq, h.folded u hu]
  exact fun ⟨t, ht, hchain⟩ => hnone t ht (List.mem_append_left _ hchain)

/-- The predicates read tables of the block, and otherwise only tables that the predicate and the
filters read beyond the layers of the joined tables. -/
theorem reads (hg : g.WellFounded) (h : Witnessing g q tables b) (hq : g.Has q)
    (htables : ∀ t ∈ tables, t.index < q.index) {P : NodeId → Prop}
    (hread : ∀ u ∈ g.tables q, P u ∨ ∃ t ∈ tables, u ∈ g.layers t)
    (hfilters : ∀ t ∈ tables, ∀ p ∈ (g.peel t).predicates, ∀ u ∈ g.tables p,
      P u ∨ ∃ t ∈ tables, u ∈ g.layers t) :
  ∀ l ∈ b.clauses.predicates, ∀ u ∈ g.tables l, P u ∨ u ∈ b.clauses.leaves
  := by
  obtain ⟨predicates, hlifts, hpredicates⟩ := h.predicates
  intro l hl u hu
  obtain ⟨p, hp, hlift⟩ := forall₂_exists hlifts.flip l hl
  obtain ⟨v, hv, name, name', hresolved⟩ := hlift.exists_read hg hu
  obtain ⟨hle, hbeyond⟩ : p.index ≤ q.index ∧ (P v ∨ ∃ t ∈ tables, v ∈ g.layers t) := by
    rcases (hpredicates p).mp hp with hconjunct | ⟨t, ht, hfilter⟩
    · refine ⟨(Graph.conjuncts_within hg q p hconjunct).1, hread v ?_⟩
      exact (Graph.occurs_of_mem_conjuncts hg q p hconjunct).tables hg hq v hv
    · refine ⟨Nat.le_of_lt ?_, hfilters t ht p hfilter v hv⟩
      exact Nat.lt_trans (Graph.predicates_lt hg t p hfilter) (htables t ht)
  have hbefore : v.index ≤ q.index := by
    apply Nat.le_of_lt (Nat.lt_of_lt_of_le _ hle)
    exact Graph.lt_of_mem_scoped hg ((Graph.mem_tables_iff_opened hg hlift.source).mp hv)
  by_cases hlayer : ∃ t ∈ tables, v ∈ g.layers t
  · obtain ⟨t, ht, hlayer⟩ := hlayer
    rw [h.resolve_layers hg htables .reads ht v hlayer] at hresolved
    obtain ⟨rfl, _⟩ := Prod.mk.inj (List.mem_singleton.mp hresolved)
    exact .inr (h.mem_leaves.mpr ⟨t, ht, rfl⟩)
  · have hnone : ∀ t ∈ tables, v ∉ g.layers t := fun t ht hmem => hlayer ⟨t, ht, hmem⟩
    rw [h.resolve_others hg .reads hbefore hnone] at hresolved
    obtain ⟨rfl, _⟩ := Prod.mk.inj (List.mem_singleton.mp hresolved)
    exact .inl (hbeyond.resolve_right hlayer)

end Witnessing

end Block

namespace Semantics

variable {V : Type} {S : Semantics V} {D : Tables V} {σ τ : Choice V} {q : NodeId}
  {tables : List NodeId} {b : Block}

/-- A block whose rows are those of a cross join has a row, for the rows `σ` of the tables around
it. -/
def Finds (S : Semantics V) (g : Graph) (D : Tables V) (c : Clauses) (σ : Choice V) : Prop :=
  ∃ τ, (∀ t ∈ c.leaves, D t (τ t)) ∧ (∀ t, t ∉ c.leaves → τ t = σ t)
    ∧ ∀ p ∈ c.predicates, S.Holds g p τ

/-- The predicates of the block hold when the filters of its tables and the conjuncts do, for the
rows that columns resolve to. -/
theorem holds_witnessing (hg : g.WellFounded) (h : Block.Witnessing g q tables b)
    (htables : ∀ t ∈ tables, t.index < q.index)
    (hkept : g.Kept q tables)
    (hresolved : ∀ u : NodeId, u.index ≤ q.index → S.resolved b.folding g σ u = τ u) :
  (∀ p ∈ b.clauses.predicates, S.Holds g p σ)
    ↔ (∀ t ∈ tables, ∀ p ∈ (g.peel t).predicates, S.Holds g p τ) ∧ S.Holds g q τ
  := by
  obtain ⟨predicates, hlifts, hpredicates⟩ := h.predicates
  have hvalue : ∀ p ∈ predicates, p.index ≤ q.index
      ∧ ∀ t ∈ tables, ∀ u ∈ (g.peel t).chain, u ∉ g.enclosed p := by
    intro p hp
    rcases (hpredicates p).mp hp with hconjunct | ⟨t, ht, hfilter⟩
    · obtain ⟨hle, hwithin⟩ := Graph.conjuncts_within hg q p hconjunct
      exact ⟨hle, fun t ht u hu hmem => (hkept t ht u hu).1 (hwithin u hmem)⟩
    · refine ⟨Nat.le_of_lt ?_, fun t' ht' u hu => (hkept t' ht' u hu).2 t ht p hfilter⟩
      exact Nat.lt_trans (Graph.predicates_lt hg t p hfilter) (htables t ht)
  have hholds : ∀ p l, p ∈ predicates → b.folding.Lifts .substitute g p l →
      (S.Holds g l σ ↔ S.Holds g p τ) := by
    intro p l hp hl
    obtain ⟨hle, henclosed⟩ := hvalue p hp
    have hbefore : ∀ {u}, u ∈ g.opened p ∨ u ∈ g.enclosed p → u.index ≤ q.index :=
      fun hu => Nat.le_of_lt (Nat.lt_of_lt_of_le (Graph.lt_of_mem_scoped hg hu) hle)
    rw [Holds, hl.denote, S.resolve_value hg]
    · exact S.holds_of_agree hg fun u hu => hresolved u (hbefore (.inl hu))
    · intro u hu name
      have hfolded : b.folding.contains u = false := by
        rw [Bool.eq_false_iff, ne_eq, h.folded u (hbefore (.inr hu))]
        rintro ⟨t, ht, hchain⟩
        exact henclosed t ht u hchain hu
      exact congrFun (Folding.resolve_kept hg S.algebra hfolded) name
  have hall : (∀ l ∈ b.clauses.predicates, S.Holds g l σ) ↔ ∀ p ∈ predicates, S.Holds g p τ := by
    constructor
    · intro hl p hp
      obtain ⟨l, hmem, hlift⟩ := forall₂_exists hlifts p hp
      exact (hholds p l hp hlift).mp (hl l hmem)
    · intro hp l hl
      obtain ⟨p, hmem, hlift⟩ := forall₂_exists hlifts.flip l hl
      exact (hholds p l hmem hlift).mpr (hp p hmem)
  rw [hall, S.holds_conjuncts hg q]
  constructor
  · intro hp
    exact ⟨fun t ht p hfilter => hp p ((hpredicates p).mpr (.inr ⟨t, ht, hfilter⟩)),
      fun p hconjunct => hp p ((hpredicates p).mpr (.inl hconjunct))⟩
  · rintro ⟨hfilters, hconjuncts⟩ p hp
    rcases (hpredicates p).mp hp with hconjunct | ⟨t, ht, hfilter⟩
    · exact hconjuncts p hconjunct
    · exact hfilters t ht p hfilter

/-- Rows of the tables of the block for which its predicates hold satisfy the predicate. -/
theorem satisfies_of_finds (hg : g.WellFounded) (h : Block.Witnessing g q tables b)
    (htables : ∀ t ∈ tables, t.index < q.index)
    (hkept : g.Kept q tables)
    (hfinds : S.Finds g D b.clauses σ) :
  S.Satisfies g D tables q σ
  := by
  classical
  obtain ⟨τ, hrows, hothers, hpredicates⟩ := hfinds
  let chosen : Choice V := fun u =>
    if ∃ t ∈ tables, u ∈ g.layers t then S.resolved b.folding g τ u else σ u
  have hin : ∀ t ∈ tables, ∀ u ∈ g.layers t, chosen u = τ (g.peel t).table := by
    intro t ht u hu
    rw [show chosen u = _ from if_pos ⟨t, ht, hu⟩]
    exact S.resolved_eq (h.resolve_layers hg htables S.algebra ht u hu) τ
  have hout : ∀ u, (∀ t ∈ tables, u ∉ g.layers t) → chosen u = σ u :=
    fun u hu => if_neg fun ⟨t, ht, hmem⟩ => hu t ht hmem
  have hresolved : ∀ u : NodeId, u.index ≤ q.index → S.resolved b.folding g τ u = chosen u := by
    intro u hu
    by_cases hmem : ∃ t ∈ tables, u ∈ g.layers t
    · exact (if_pos hmem).symm
    · have hnone : ∀ t ∈ tables, u ∉ g.layers t := fun t ht hu => hmem ⟨t, ht, hu⟩
      rw [S.resolved_eq (h.resolve_others hg S.algebra hu hnone), hout u hnone]
      exact hothers u (h.notMem_leaves hnone)
  obtain ⟨hfilters, hholds⟩ := (holds_witnessing hg h htables hkept hresolved).mp hpredicates
  refine ⟨chosen, fun t ht => ⟨?_, ?_, hfilters t ht⟩, hout, hholds⟩
  · rw [hin t ht _ (g.table_mem_layers t)]
    exact hrows _ (h.mem_leaves.mpr ⟨t, ht, rfl⟩)
  · intro u hu
    rw [hin t ht u (List.mem_append_left _ hu), hin t ht _ (g.table_mem_layers t)]

/-- Rows that satisfy the predicate are rows of the tables of the block for which its predicates
hold. -/
theorem finds_of_satisfies (hg : g.WellFounded) (h : Block.Witnessing g q tables b)
    (htables : ∀ t ∈ tables, t.index < q.index)
    (hkept : g.Kept q tables)
    (hsatisfies : S.Satisfies g D tables q σ) :
  S.Finds g D b.clauses σ
  := by
  classical
  obtain ⟨τ, hgives, hothers, hholds⟩ := hsatisfies
  let chosen : Choice V := fun u => if u ∈ b.clauses.leaves then τ u else σ u
  have hin : ∀ t ∈ tables, chosen (g.peel t).table = τ (g.peel t).table :=
    fun t ht => if_pos (h.mem_leaves.mpr ⟨t, ht, rfl⟩)
  have hresolved : ∀ u : NodeId, u.index ≤ q.index → S.resolved b.folding g chosen u = τ u := by
    intro u hu
    by_cases hmem : ∃ t ∈ tables, u ∈ g.layers t
    · obtain ⟨t, ht, hlayer⟩ := hmem
      rw [S.resolved_eq (h.resolve_layers hg htables S.algebra ht u hlayer), hin t ht]
      rcases List.mem_append.mp hlayer with hchain | hsame
      · exact ((hgives t ht).same u hchain).symm
      · rw [List.mem_singleton.mp hsame]
    · have hnone : ∀ t ∈ tables, u ∉ g.layers t := fun t ht hu => hmem ⟨t, ht, hu⟩
      rw [S.resolved_eq (h.resolve_others hg S.algebra hu hnone), hothers u hnone]
      exact if_neg (h.notMem_leaves hnone)
  refine ⟨chosen, ?_, fun t ht => if_neg ht, ?_⟩
  · intro u hu
    obtain ⟨t, ht, rfl⟩ := h.mem_leaves.mp hu
    rw [hin t ht]
    exact (hgives t ht).row
  · exact (holds_witnessing hg h htables hkept hresolved).mpr
      ⟨fun t ht => (hgives t ht).filters, hholds⟩

end Semantics

end RelSql
