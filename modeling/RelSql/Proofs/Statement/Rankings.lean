import RelSql.Proofs.Join.Chains
import RelSql.Proofs.Join.Conditions

/-!
# Rows that are ranked

A filter of the rows of a join by the values that rank first becomes a semi join with a derived
table.  If the ranked value and its metric read different tables, the derived table groups the rows
of the FROM clause up to the semi join.  Selections that have been taken off the operands of the
join filter the block, and not the derived table: what it groups are the rows of the join just when
all of the joined rows pass these selections.
-/

namespace RelSql

/-! ## Values that read no folded table -/

namespace Folding

variable {s : Folding} {g : Graph} {v e : NodeId} {name : String}

/-- A value that reads no folded table resolves to its meaning. -/
theorem resolve_of_kept (hg : g.WellFounded) (hv : g.Has v)
    (h : ∀ u ∈ g.tables v, s.contains u = false) {α : Type} (A : Algebra α) :
  (s.resolve .substitute A g v).value = g.denote A v
  := by
  rw [resolve_value hg]
  apply Graph.denote_withColumns_congr hg A _ A.column v
  rintro ⟨t, name⟩ hc
  have hkept := h t ((Graph.mem_tables_iff hg hv t).mpr ⟨name, hc⟩)
  exact (comesFrom_self hkept).resolve hg A

/-- What a value unfolds to comes before the value. -/
theorem UnfoldsTo.lt (hg : g.WellFounded) (h : s.UnfoldsTo g v e name) :
  e.index < v.index
  := by
  obtain ⟨c, t, hc, hn, hpassed, _⟩ := h
  have hle := le_of_unfolds hg hc
  have hle' := Passes.le hg hpassed
  have hlt : t.index < c.index := by
    apply hg.child_lt
    rw [hn]
    exact List.mem_singleton_self t
  omega

/-- A lifted value reads tables that come before the value. -/
theorem Lifts.lt_of_mem_tables (hg : g.WellFounded) {l : NodeId} (h : s.Lifts .substitute g v l) :
  ∀ u ∈ g.tables l, u.index < v.index
  := by
  intro u hu
  obtain ⟨_, hunfolds⟩ := (h.mem_tables_iff hg).mp hu
  exact hunfolds.lt hg

/-- The lifted metric of a ranking reads tables that come before the ranking. -/
theorem Lifts.lt_of_metric (hg : g.WellFounded) {p arg metric value : NodeId} {k : Nat}
    {metric? : Option NodeId} (hranking : g.node p = .topK arg k metric?)
    (hmetric : metric? = some metric ∨ metric? = none ∧ g.node metric = .reduction .count arg)
    (h : s.Lifts .substitute g metric value) :
  ∀ u ∈ g.tables value, u.index < p.index
  := by
  intro u hu
  rcases hmetric with rfl | ⟨_, hcount⟩
  · apply Nat.lt_trans (h.lt_of_mem_tables hg u hu)
    apply hg.child_lt
    rw [hranking]
    simp [Node.children]
  -- a count reads what is counted, which comes before the ranking while the count need not
  · obtain ⟨name, hunfolds⟩ := (h.mem_tables_iff hg).mp hu
    rcases unfoldsTo_iff.mp hunfolds with ⟨_, hcolumn, _⟩ | ⟨w, hw, hunfolds⟩
    · rw [hcount] at hcolumn
      cases hcolumn
    · rw [unfolds_operator (by rw [hcount]; rfl), hcount] at hw
      obtain rfl := List.mem_singleton.mp hw
      apply Nat.lt_trans (hunfolds.lt hg)
      apply hg.child_lt
      rw [hranking]
      exact List.mem_cons_self

/-- A selected value that reads no folded table keeps its meaning and its name. -/
theorem LiftsSelected.of_kept (hg : g.WellFounded) {l : NodeId} (h : s.LiftsSelected g v l)
    (hr : g.isRelation v = false) (hkept : ∀ u ∈ g.tables v, s.contains u = false) :
  g.name? l = g.name? v ∧ ∀ {α : Type} (A : Algebra α), A.Transparent →
    g.denote A l = g.denote A v
  := by
  cases h with
  | star hstar _ =>
      rw [hr] at hstar
      cases hstar
  | value _ hl =>
      refine ⟨hl.name, fun A hA => ?_⟩
      rw [hl.denote A hA, resolve_of_kept hg hl.source hkept]

/-- A selected value that names one that reads no folded table keeps the name, and means what it
names. -/
theorem LiftsSelected.of_named (hg : g.WellFounded) {value l : NodeId}
    (h : s.LiftsSelected g v l) (hnamed : g.node v = .named value name)
    (hkept : ∀ u ∈ g.tables value, s.contains u = false) :
  g.name? l = some name ∧ ∀ {α : Type} (A : Algebra α), A.Transparent →
    g.denote A l = g.denote A value
  := by
  have hoperator : (g.node v).isOperator = true := by
    rw [hnamed]
    rfl
  obtain ⟨hname, hmeaning⟩ := h.of_kept hg (Node.isRelation_of_isOperator hoperator) (by
    intro u hu
    rw [Graph.mem_tables_operator hg (Graph.has_of_node hnamed (by simp)) hoperator, hnamed] at hu
    obtain ⟨c, hc, hu⟩ := hu
    obtain rfl := List.mem_singleton.mp hc
    exact hkept u hu)
  refine ⟨by rw [hname, Graph.name?, hnamed], fun A hA => ?_⟩
  rw [hmeaning A hA, Graph.denote_operator hg _ hoperator, hnamed]
  exact hA name _

/-- A sort key that is a column of what the block outputs is kept. -/
theorem LiftsKey.of_output (hg : g.WellFounded) {k k' : SortKey} (h : s.LiftsKey g k k')
    (hn : g.node k.expr = .column e name) (houtput : e ∈ s.outputs) :
  g.node k'.expr = .column e name
  := by
  apply node_of_denote_column hg
  intro α A
  rw [h.expr.denote, Lift.resolve_value_eq hg, resolveValue, hn]
  simp only
  rw [Lift.resolve_column_eq hg, resolveColumn, if_pos]
  simp [houtput]

/-- Joins whose conditions read no folded table keep their conditions when these are lifted. -/
theorem sameMeaning_of_kept (hg : g.WellFounded) {joins joins' : List JoinClause} {α : Type}
    (A : Algebra α) (hkept : ∀ c ∈ joins, ∀ p ∈ c.predicates, ∀ u ∈ g.tables p,
      s.contains u = false)
    (h : List.Forall₂ (JoinClause.Lifts s g) joins joins') :
  List.Forall₂ (JoinClause.SameMeaning (g.denote A) (g.denote A)) joins joins'
  := by
  rw [List.forall₂_iff_get] at h ⊢
  refine ⟨h.1, fun i hi hi' => ?_⟩
  obtain ⟨hkind, htable, hpredicates⟩ := h.2 i hi hi'
  refine ⟨hkind, htable, ?_⟩
  rw [List.forall₂_iff_get] at hpredicates ⊢
  refine ⟨hpredicates.1, fun j hj hj' => ?_⟩
  have hl := hpredicates.2 j hj hj'
  rw [hl.denote A, resolve_of_kept hg hl.source]
  exact hkept _ (List.get_mem joins ⟨i, hi⟩) _ (List.get_mem _ _)

end Folding

/-! ## Derived tables of rankings -/

/-- The block groups the rows of a FROM clause by a value and takes the first `k` groups in the
descending order of a metric.  It has no WHERE clause, and its rows are those of the FROM clause
whatever the tables hold and the conditions mean.  Value and metric mean what they do in another
block, unless the value stands for a table. -/
inductive Clauses.RanksRows (g : Graph) (s : Folding) (arg metric : NodeId) (k : Nat)
    (first : NodeId) (joins : List JoinClause) (c : Clauses) : Prop where
  | intro {key value rank groups : NodeId} {t : TableSet} (hselect : c.select = [key, value])
      (hkey : (∃ u, s.Lifts .substitute g arg u ∧ g.isRelation u = true)
        ∨ ∀ {α : Type} (A : Algebra α), A.Transparent →
          g.denote A key = (s.resolve .substitute A g arg).value)
      (hvalue : ∀ {α : Type} (A : Algebra α), A.Transparent →
        g.denote A value = (s.resolve .substitute A g metric).value)
      (hname : g.name? value = some Block.metricName) (hgroupBy : c.groupBy = [0])
      (hhaving : c.having = []) (horderBy : c.orderBy = [⟨rank, false⟩])
      (hrank : g.node rank = .column groups Block.metricName) (houtput : groups ∈ c.outputs)
      (hlimit : c.limit = some ⟨k, 0⟩) (hdistinct : c.distinct = false)
      (hpredicates : c.predicates = []) (hfrom : c.from? = some t)
      (hrows : ∀ {R V : Type} (rows : NodeId → List R) (holds : V → Bool)
        (A : Algebra (JoinedRow R → V)),
        (Contents.ofMeaning rows holds (g.denote A)).joined t.first t.joins
          = (Contents.ofMeaning rows holds (g.denote A)).joined first joins) :
    RanksRows g s arg metric k first joins c

/-- The aliases of a block have no effect on its rows. -/
theorem Clauses.RanksRows.congr {g : Graph} {s : Folding} {arg metric first : NodeId} {k : Nat}
    {joins : List JoinClause} {c c' : Clauses}
    (hc : c' = { c with forceAliases := c'.forceAliases, scope := c'.scope })
    (h : c.RanksRows g s arg metric k first joins) :
  c'.RanksRows g s arg metric k first joins
  := by
  obtain ⟨hselect, hkey, hvalue, hname, hgroupBy, hhaving, horderBy, hrank, houtput, hlimit,
    hdistinct, hpredicates, hfrom, hrows⟩ := h
  rw [hc]
  exact .intro hselect hkey hvalue hname hgroupBy hhaving horderBy hrank houtput hlimit hdistinct
    hpredicates hfrom hrows

namespace Graph

/-- The table `first` has the first `k` groups of the rows of a table, by a value, in the descending
order of a metric. -/
inductive FirstGroups (g : Graph) (table key value : NodeId) (k : Nat)
    (groups sorted first : NodeId) : Prop where
  | intro {named rank : NodeId} (hnamed : g.node named = .named value Block.metricName)
      (hgroups : g.node groups = .aggregation table [key] [named] [])
      (hrank : g.node rank = .column groups Block.metricName)
      (hsorted : g.node sorted = .sort groups [⟨rank, false⟩])
      (hfirst : g.node first = .limit sorted k 0) :
    FirstGroups g table key value k groups sorted first

/-- What is put over a table comes after it. -/
theorem FirstGroups.lt {g : Graph} (hg : g.WellFounded)
    {table key value groups sorted first : NodeId} {k : Nat}
    (h : g.FirstGroups table key value k groups sorted first) :
  ∀ u ∈ [first, sorted, groups], table.index < u.index
  := by
  obtain ⟨_, hgroups, _, hsorted, hfirst⟩ := h
  have hlt : table.index < groups.index := by
    apply hg.child_lt
    rw [hgroups]
    exact List.mem_cons_self
  have hlt' : groups.index < sorted.index := by
    apply hg.child_lt
    rw [hsorted]
    exact List.mem_cons_self
  have hlt'' : sorted.index < first.index := by
    apply hg.child_lt
    rw [hfirst]
    exact List.mem_cons_self
  exact List.forall_mem_cons.mpr ⟨by omega, List.forall_mem_cons.mpr
    ⟨by omega, List.forall_mem_singleton.mpr hlt⟩⟩

end Graph

namespace Block

variable {old g : Graph} {s : Folding} {b : Block} {table key value groups sorted first : NodeId}
  {k : Nat}

/-- A limit over a sort over an aggregation is the top of a table. -/
theorem top_firstGroups (hg : g.WellFounded)
    (h : g.FirstGroups table key value k groups sorted first) :
  ∃ rank, g.node rank = .column groups metricName
    ∧ top g first = (⟨{ Clauses.ofNode first with
        orderBy := [⟨rank, false⟩], limit := some ⟨k, 0⟩ }, [], .of [first, sorted], false⟩, groups)
  := by
  obtain @⟨named, rank, _, hgroups, hrank, hsorted, hfirst⟩ := h
  have hlimits : g.chain Graph.limitInput? first = ([first], sorted) := by
    rw [Graph.chain_next (t := sorted) Graph.follows_limit hg (by rw [hfirst]; rfl),
      Graph.chain_end Graph.follows_limit hg (by rw [hsorted]; rfl)]
  have hsorts : g.chain Graph.sortInput? sorted = ([sorted], groups) := by
    rw [Graph.chain_next (t := groups) Graph.follows_sort hg (by rw [hsorted]; rfl),
      Graph.chain_end Graph.follows_sort hg (by rw [hgroups]; rfl)]
  refine ⟨rank, hrank, ?_⟩
  simp only [top, hlimits, hsorts, distinctOf, hgroups]
  simp [Block.sorted, limited, foldAll, ofNode, Clauses.ofNode, Folding.empty, Folding.of,
    Graph.outerLimit, Graph.topKeys, Graph.sortKeysOf, hfirst, hsorted]

/-- The clauses of the block of the first groups of a table, before it is completed. -/
def firstGroups (tree : JoinTree) (key named rank : NodeId) (k : Nat) (groups first : NodeId) :
    Clauses :=
  { Clauses.ofNode first with
    outputs := [groups]
    select := [key, named]
    from? := some tree.tables
    predicates := tree.hoisted
    groupBy := [0]
    orderBy := [⟨rank, false⟩]
    limit := some ⟨k, 0⟩ }

/-- The block of the first groups of the rows of a join, and what is folded into it. -/
theorem Origin.firstGroups (hg : g.WellFounded) (horigin : Origin old g first b)
    (h : g.FirstGroups table key value k groups sorted first) (hjoin : g.isJoin table = true) :
  ∃ named rank built, g.node named = .named value metricName
    ∧ g.node rank = .column groups metricName
    ∧ built.clauses = Block.firstGroups (g.joinTree table) key named rank k groups first
    ∧ built.folding.fused = [first, sorted, groups] ++ (g.joinTree table).folded
    ∧ built.folding.outputs = [groups]
    ∧ Completed .compilation built (g.joinTree table).tables g b
    ∧ Assembles old built (g.joinTree table).tables g b
  := by
  obtain ⟨rank, hrank, htop⟩ := top_firstGroups hg h
  obtain @⟨named, _, hnamed, hgroups, _, _, _⟩ := h
  obtain @⟨built, nodes, t, _, _, _, hbuilt, _, _, hfrom, hcompleted, hassembles⟩ := horigin
  have hpeel : g.peel groups = ⟨groups, [], []⟩ :=
    Graph.peel_other hg (by rw [hgroups]; rfl)
  have hoperand : g.operand table true true = ⟨table, [], []⟩ := by
    apply Graph.operand_of_selectionInput hg
    obtain ⟨kind, l, r, predicates, hn⟩ := Graph.eq_join hjoin
    rw [hn]
    rfl
  rw [htop] at hbuilt
  cases hbuilt with
  | projection hprojection =>
      rw [hpeel, Graph.isProjection, hgroups] at hprojection
      cases hprojection
  | other hnone =>
      rw [hpeel] at hnone
      exact absurd hgroups (hnone _ _ _ _)
  | @aggregation input keys metrics having drawn hn hdraws =>
      rw [hpeel, hgroups] at hn
      cases hn
      rw [hpeel, hoperand] at hdraws hcompleted hassembles hfrom
      have ht : t = (g.joinTree table).tables := by
        simp only [hdraws.clauses] at hfrom
        exact (Option.some.inj hfrom).symm
      rw [ht] at hcompleted hassembles
      refine ⟨named, rank, _, hnamed, hrank, ?_, ?_, ?_, hcompleted, hassembles⟩
      · simp [hdraws.clauses, output, foldAll, Block.firstGroups, Clauses.ofNode, List.range_succ]
      · simp [hdraws.folding, output, foldAll, Folding.of]
      · simp [hdraws.folding, output, foldAll, Folding.of]

/-- The completed block of the first groups of a table selects two items, is sorted by one key, and
has no conditions if nothing is taken off the operands of the table. -/
theorem Completed.firstGroups {built : Block} {tree : JoinTree} {t : TableSet} {named rank : NodeId}
    (h : Completed .compilation built t g b)
    (hclauses : built.clauses = Block.firstGroups tree key named rank k groups first)
    (hhoisted : tree.hoisted = []) :
  (∃ key' value', b.folding.LiftsSelected g key key' ∧ b.folding.LiftsSelected g named value'
      ∧ b.clauses.select = [key', value'])
    ∧ (∃ rank', b.folding.LiftsKey g ⟨rank, false⟩ ⟨rank', false⟩
      ∧ b.clauses.orderBy = [⟨rank', false⟩])
    ∧ b.clauses.predicates = [] ∧ b.clauses.having = []
  := by
  have hselect : List.Forall₂ (b.folding.LiftsSelected g) [key, named] b.clauses.select := by
    simpa [hclauses, Block.firstGroups] using h.select
  have horder : List.Forall₂ (b.folding.LiftsKey g) [⟨rank, false⟩] b.clauses.orderBy := by
    simpa [hclauses, Block.firstGroups] using h.orderBy
  have hpredicates : b.clauses.predicates = [] := by
    simpa [hclauses, Block.firstGroups, hhoisted] using h.predicates
  have hhaving : b.clauses.having = [] := by
    simpa [hclauses, Block.firstGroups, Clauses.ofNode] using h.having
  obtain ⟨key', _, hkey', htail, hselected⟩ := List.forall₂_cons_left_iff.mp hselect
  obtain ⟨value', _, hvalue', hnil, rfl⟩ := List.forall₂_cons_left_iff.mp htail
  obtain rfl := List.forall₂_nil_left_iff.mp hnil
  obtain ⟨⟨rank', ascending⟩, _, hrank', hnil, hordered⟩ := List.forall₂_cons_left_iff.mp horder
  obtain rfl := List.forall₂_nil_left_iff.mp hnil
  obtain rfl : ascending = false := hrank'.ascending
  exact ⟨⟨key', value', hkey', hvalue', hselected⟩, ⟨rank', hrank', hordered⟩, hpredicates,
    hhaving⟩

/-- The block of the first groups of the rows of a join has no WHERE clause if nothing is taken off
the operands of the join. -/
theorem Origin.ranksRows (hg : g.WellFounded) (horigin : Origin old g first b)
    (h : g.FirstGroups table key value k groups sorted first) (hjoin : g.isJoin table = true)
    (hhoisted : (g.joinTree table).hoisted = [])
    (hkept : ∀ u ∈ [first, sorted, groups] ++ (g.joinTree table).folded,
      u ∉ g.tables key ∧ u ∉ g.tables value
        ∧ ∀ c ∈ (g.joinTree table).clauses, ∀ p ∈ c.predicates, u ∉ g.tables p)
    {arg metric : NodeId} (hkey : s.Lifts .substitute g arg key)
    (hvalue : s.Lifts .substitute g metric value) :
  b.clauses.RanksRows g s arg metric k (g.joinTree table).first (g.joinTree table).clauses
  := by
  obtain ⟨named, rank, built, hnamed, hrank, hclauses, hfused, houtputs, hcompleted, hassembles⟩ :=
    horigin.firstGroups hg h hjoin
  have hread : ∀ v, (∀ u ∈ [first, sorted, groups] ++ (g.joinTree table).folded,
      u ∉ g.tables v) → ∀ u ∈ g.tables v, b.folding.contains u = false := by
    intro v hv u hu
    rw [Folding.contains, hcompleted.fused, hfused, Bool.eq_false_iff, ne_eq,
      List.contains_iff_mem]
    exact fun hmem => hv u hmem hu
  obtain ⟨⟨key', value', hkey', hvalue', hselected⟩, ⟨rank', hrank', hordered⟩, hpredicates,
    hhaving⟩ := hcompleted.firstGroups hclauses hhoisted
  obtain ⟨hname, hmeaning⟩ :=
    hvalue'.of_named hg hnamed (hread value fun u hmem => (hkept u hmem).2.1)
  have hranked : g.node rank' = .column groups metricName := by
    apply hrank'.of_output hg hrank
    rw [hcompleted.outputs, houtputs]
    exact List.mem_singleton_self _
  -- without rankings among its predicates the block joins what the join joins, and nothing else
  obtain @⟨_, joined, node, own, more, _, _, _, hfrom, hlifts, _, _, hranks⟩ := hassembles
  simp only [hclauses, Block.firstGroups, hhoisted, List.filter_nil] at hranks
  cases hranks
  have hrest := hcompleted.rest
  rw [hclauses] at hrest
  refine .intro hselected ?_ ?_ hname ?_ hhaving hordered hranked ?_ ?_ ?_ hpredicates hfrom ?_
  · cases hr : g.isRelation key with
    | true => exact .inl ⟨key, hkey, hr⟩
    | false =>
        refine .inr fun A hA => ?_
        rw [(hkey'.of_kept hg hr (hread key fun u hmem => (hkept u hmem).1)).2 A hA,
          hkey.denote]
  · intro α A hA
    rw [hmeaning A hA, hvalue.denote A]
  · rw [hrest]
    rfl
  · rw [hrest]
    exact List.mem_singleton_self _
  · rw [hrest]
    rfl
  · rw [hrest]
    rfl
  · intro R V rows holds A
    rw [List.append_nil]
    apply Contents.joined_congr (Folding.sameMeaning_of_kept hg A ?_ hlifts)
    exact fun c hc p hp => hread p fun u hmem => (hkept u hmem).2.2 c hc p hp

end Block

/-! ## Semi joins of rankings -/

section

variable {g : Graph} {s : Folding} {bound : Nat} {joined last p t : NodeId} {c : JoinClause}
  {rankings : List NodeId} {clauses joins more : List JoinClause}

/-- The semi join of a ranking has a condition, and nothing is taken off its table. -/
theorem JoinClause.RanksOver.bare (hg : g.WellFounded) (h : c.RanksOver s g joined p) :
  c.kind = .semi ∧ g.Bare [c]
  := by
  obtain ⟨_, _, _, _, _, hfirst, _, _, _⟩ := h
  refine ⟨rfl, List.forall_mem_singleton.mpr ⟨?_, nofun⟩⟩
  apply Graph.operand_of_selectionInput hg
  rw [hfirst]
  rfl

/-- The condition of the semi join of a ranking reads its table, and tables that come before the
ranking. -/
theorem JoinClause.Ranks.reads (hg : g.WellFounded) (h : c.Ranks s g p) :
  g.isJoin c.table = false
    ∧ ∀ l ∈ c.predicates, ∀ u ∈ g.tables l, u = c.table ∨ u.index < p.index
  := by
  obtain ⟨arg, k, metric?, l, hranking, hpredicates, hreads⟩ := h.condition hg
  obtain ⟨_, hjoin⟩ := h
  obtain ⟨_, hfirst, _, _⟩ := hjoin
  refine ⟨by rw [Graph.isJoin, hfirst], ?_⟩
  rw [hpredicates]
  refine List.forall_mem_singleton.mpr fun u hu => ((hreads u).mp hu).imp id ?_
  rintro ⟨name, hunfolds⟩
  apply Nat.lt_trans (hunfolds.lt hg)
  apply hg.child_lt
  rw [hranking]
  exact List.mem_cons_self

/-- Each ranking ranks what has been joined before its semi join. -/
theorem Folding.Ranked.exists_before (hg : g.WellFounded)
    (h : s.Ranked g bound joined rankings clauses last) (i : Nat) (hp : rankings[i]? = some p)
    (hc : clauses[i]? = some c) :
  ∃ before, g.Chained bound joined (clauses.take i) before ∧ c.RanksOver s g before p
  := by
  induction h generalizing i with
  | nil => cases hp
  | @cons joined next last p' rankings c' clauses hc' htable hn _ ih =>
      cases i with
      | zero =>
          cases hp
          cases hc
          exact ⟨joined, .nil joined, hc'⟩
      | succ i =>
          obtain ⟨before, hchained, hover⟩ := ih i hp hc
          have hlt : c'.table.index < next.index := by
            apply hg.child_lt
            rw [hn]
            simp [Node.children]
          refine ⟨before, .cons ?_ (by omega) hchained, hover⟩
          rw [(hc'.bare hg).1]
          exact hn

theorem Folding.Ranked.bare (hg : g.WellFounded)
    (h : s.Ranked g bound joined rankings clauses last) :
  g.Bare clauses
  := by
  induction h with
  | nil => exact List.forall_mem_nil _
  | cons hc _ _ _ ih =>
      exact List.forall_mem_cons.mpr ⟨(hc.bare hg).2 _ (List.mem_singleton_self _), ih⟩

/-- What is joined comes after the tables that are joined. -/
theorem Graph.Chained.lt (hg : g.WellFounded) (h : g.Chained bound t joins joined) :
  t.index ≤ joined.index ∧ ∀ c ∈ joins, c.table.index < joined.index
  := by
  induction h with
  | nil first => exact ⟨Nat.le_refl _, List.forall_mem_nil _⟩
  | @cons first next joined c rest hn _ _ ih =>
      have hchild : ∀ d ∈ [first, c.table], d.index < next.index := by
        intro d hd
        apply hg.child_lt
        rw [hn, Node.children]
        exact List.mem_append_left _ hd
      obtain ⟨hle, hrest⟩ := ih
      refine ⟨?_, List.forall_mem_cons.mpr ⟨?_, hrest⟩⟩
      · exact Nat.le_trans (Nat.le_of_lt (hchild first List.mem_cons_self)) hle
      · exact Nat.lt_of_lt_of_le (hchild c.table (by simp)) hle

/-- Joins that are put together over tables of a tree, and semi joins behind them, have a tree from
which nothing is taken off. -/
theorem Graph.Chained.continues_tree {source : NodeId} {own : List JoinClause} (hg : g.WellFounded)
    (hlifts : List.Forall₂ (JoinClause.Lifts s g) (g.joinTree source).clauses own)
    (hmore : g.Bare more) (hsource : g.isJoin source = true)
    (hwritten : (g.joinTree source).Written)
    (h : g.Chained bound (g.joinTree source).first (own ++ more) joined) :
  g.isJoin joined = true ∧ bound ≤ joined.index
    ∧ (g.joinTree joined).first = (g.joinTree source).first
    ∧ (g.joinTree joined).clauses = own ++ more ∧ (g.joinTree joined).hoisted = []
    ∧ ∀ u ∈ (g.joinTree joined).folded, g.isJoin u = true ∧ bound ≤ u.index
  := by
  obtain ⟨hbare, hfirst, hleaf⟩ := Graph.bare_joinTree hg source hwritten
  have hown : own ≠ [] := by
    rintro rfl
    obtain ⟨kind, l, r, predicates, hn⟩ := Graph.eq_join hsource
    have hnil := hlifts.length_eq
    rw [Graph.joinTree_join hg hn, JoinTree.clauses, List.length_append] at hnil
    simp at hnil
  have hfirst' : g.BareFirst (g.joinTree source).first (own ++ more) := by
    obtain ⟨c, rest, rfl⟩ := List.exists_cons_of_ne_nil hown
    exact fun c' hc' => hfirst.lifts hlifts c' hc'
  have hcontinues := h.continues hg
    (List.forall_mem_append.mpr ⟨hbare.lifts hlifts, hmore⟩) hfirst'
  obtain ⟨htree, hclauses, hhoisted, hfolded⟩ := hcontinues
  rw [Graph.joinTree_other hg hleaf] at htree hclauses hhoisted hfolded
  rcases h.isJoin_or with ⟨hnil, _⟩ | ⟨hjoin, hbound⟩
  · exact absurd (List.append_eq_nil_iff.mp hnil).1 hown
  · refine ⟨hjoin, hbound, htree, hclauses, hhoisted, fun u hu => ?_⟩
    exact (hfolded u hu).resolve_left List.not_mem_nil

end

/-! ## Rankings of a block -/

/-- The ranking `p` of a block becomes the semi join `c`, with the values that rank first.  If the
ranked value and the metric read the same table first, below projections, these are values of groups
of this table.  Otherwise they are values of groups of the rows that have been joined `before` the
semi join, where these are rows of the joins of `source`, each of which is written as what it is. -/
inductive Select.RanksBy (b : Select) (g : Graph) (s : Folding) (source first : NodeId)
    (before : List JoinClause) (p : NodeId) (c : JoinClause) : Prop where
  | intro {arg metric key value table : NodeId} {k : Nat} {metric? : Option NodeId}
      (hranking : g.node p = .topK arg k metric?) (hjoin : c.JoinsFirst s g arg k)
      (hmetric : metric? = some metric ∨ metric? = none ∧ g.node metric = .reduction .count arg)
      (hkey : s.Lifts .projections g arg key) (hvalue : s.Lifts .projections g metric value)
      (htable : (g.tables key).head? = some table)
      (halone : (g.tables value).head?.getD table = table →
        ∃ groups sorted, g.FirstGroups table key value k groups sorted c.table)
      (hapart : (g.tables value).head?.getD table ≠ table → g.isJoin source = true →
        (g.joinTree source).Written → ∃ q ∈ b.nested, q.node = c.table ∧ q.kind = .table
          ∧ ∃ clauses nested, q.query = .select clauses nested
            ∧ clauses.RanksRows g s arg metric k first before) :
    RanksBy b g s source first before p c

/-- The FROM clause of a block joins the rows of the tree of `source`, without those that the
selections drop that are taken off, and then one table for each ranking. -/
inductive Select.Ranks (b : Select) (t : TableSet) (g : Graph) (s : Folding) (source : NodeId)
    (rankings : List NodeId) : Prop where
  | intro {own ranked : List JoinClause} (hjoins : t.joins = own ++ ranked)
      (hown : ∀ {R V : Type} (rows : NodeId → List R) (holds : V → Bool)
        (A : Algebra (JoinedRow R → V)),
        (Contents.ofMeaning rows holds (g.denote A)).joined t.first own
          = (g.joinTree source).joinedRows
            (.ofMeaning rows holds fun p => (s.resolve .substitute A g p).value))
      (hlength : rankings.length = ranked.length)
      (hranked : ∀ i p c, rankings[i]? = some p → ranked[i]? = some c →
        b.RanksBy g s source t.first (own ++ ranked.take i) p c) : Ranks b t g s source rankings

namespace Block

variable {old g : Graph} {node : NodeId} {b : Block}

/-- The derived table of a limit is a block of the limit. -/
theorem Origin.exists_derived (hg : g.WellFounded) (h : Origin old g node b) {leaf t : NodeId}
    {k offset : Nat} (hleaf : leaf ∈ b.clauses.leaves) (hn : g.node leaf = .limit t k offset) :
  ∃ q ∈ b.nested, q.node = leaf ∧ q.kind = .table ∧ ∃ old' b' forceAliases,
    Origin old' g leaf b' ∧ q.query = .select { b'.clauses with forceAliases } b'.nested
  := by
  obtain ⟨_, _, _, _, _, _, _, hcompleted, _⟩ := h
  have hbody : g.body leaf = leaf := by rw [Graph.body, hn]
  rcases hcompleted.sourced leaf hleaf with ⟨_, hphysical, _⟩ | hderived
  · rw [hbody, hn] at hphysical
    cases hphysical
  · obtain ⟨q, hfind⟩ := Option.isSome_iff_exists.mp hderived
    have hq := List.mem_of_find?_eq_some hfind
    rw [derivedFor?] at hfind
    have hmatch := List.find?_some hfind
    obtain ⟨hnode, hkind⟩ := of_decide_eq_true hmatch
    obtain ⟨table, _, hsource, hcompiled⟩ := (hcompleted.nested q hq).source
    rw [hkind, hnode] at hsource
    cases hsource
    rw [hbody] at hcompiled
    refine ⟨q, hq, hnode, hkind, ?_⟩
    obtain ⟨_, _, _, _, _, hunion, _⟩ | ⟨old', b', force, horigin, hquery⟩ :=
      QuerySpec.origin_of_compilation hg hcompiled
    · rw [hn] at hunion
      cases hunion
    · exact ⟨old', b', force, horigin, hquery⟩

/-- A ranking of the rows of joins that have been put together. -/
theorem Origin.ranksApart (hg : g.WellFounded) {s : Folding} {source table arg metric key value
      groups sorted first p : NodeId} {k bound : Nat} {metric? : Option NodeId}
    {own more : List JoinClause} {old' : Graph} {r : Block} (horigin : Origin old' g first r)
    (hranking : g.node p = .topK arg k metric?) (hp : p.index < bound)
    (hmetric : metric? = some metric ∨ metric? = none ∧ g.node metric = .reduction .count arg)
    (hkey : s.Lifts .substitute g arg key) (hvalue : s.Lifts .substitute g metric value)
    (hfirst : g.FirstGroups table key value k groups sorted first)
    (hlifts : List.Forall₂ (JoinClause.Lifts s g) (g.joinTree source).clauses own)
    (hown : ∀ c ∈ own, ∀ l ∈ c.predicates, ∀ u ∈ g.tables l, u.index < bound)
    (hmore : g.Bare more) (hranked : ∀ c ∈ more, g.isJoin c.table = false
      ∧ ∀ l ∈ c.predicates, ∀ u ∈ g.tables l, u = c.table ∨ u.index < bound)
    (hsource : g.isJoin source = true) (hwritten : (g.joinTree source).Written)
    (hchained : g.Chained bound (g.joinTree source).first (own ++ more) table) :
  r.clauses.RanksRows g s arg metric k (g.joinTree source).first (own ++ more)
  := by
  obtain ⟨hjoin, hbound, htree, hclauses, hhoisted, hfolded⟩ :=
    hchained.continues_tree hg hlifts hmore hsource hwritten
  have hover := hfirst.lt hg
  have hbelow : ∀ v, (∀ u ∈ g.tables v, u.index < bound) →
      ∀ u ∈ [first, sorted, groups] ++ (g.joinTree table).folded, u ∉ g.tables v := by
    intro v hv u hu hread
    have hlt := hv u hread
    rcases List.mem_append.mp hu with hu | hu
    · have hlt' := hover u hu
      omega
    · have hle := (hfolded u hu).2
      omega
  have harg : arg.index < p.index := by
    apply hg.child_lt
    rw [hranking]
    exact List.mem_cons_self
  have hsemi : ∀ c ∈ more, ∀ l ∈ c.predicates,
      ∀ u ∈ [first, sorted, groups] ++ (g.joinTree table).folded, u ∉ g.tables l := by
    intro c hc l hl u hu hread
    obtain ⟨hother, htables⟩ := hranked c hc
    rcases htables l hl u hread with rfl | hlt
    · rcases List.mem_append.mp hu with hu | hu
      · have hlt := hover _ hu
        have hlt' := (hchained.lt hg).2 c (List.mem_append_right own hc)
        omega
      · rw [(hfolded _ hu).1] at hother
        cases hother
    · rcases List.mem_append.mp hu with hu | hu
      · have hlt' := hover u hu
        omega
      · have hle := (hfolded u hu).2
        omega
  rw [← htree, ← hclauses]
  refine horigin.ranksRows hg hfirst hjoin hhoisted ?_ hkey hvalue
  intro u hu
  refine ⟨hbelow key (fun w hw => ?_) u hu, hbelow value (fun w hw => ?_) u hu, ?_⟩
  · have hlt := hkey.lt_of_mem_tables hg w hw
    omega
  · exact Nat.lt_trans (hvalue.lt_of_metric hg hranking hmetric w hw) hp
  · rw [hclauses]
    refine List.forall_mem_append.mpr ⟨fun c hc l hl => ?_, fun c hc l hl => hsemi c hc l hl u hu⟩
    exact hbelow l (hown c hc l hl) u hu

/-- What the FROM clause of the block of a table joins, and how its rankings are joined. -/
theorem Origin.ranks (hg : g.WellFounded) (h : Origin old g node b) {t : TableSet}
    (ht : b.clauses.from? = some t) :
  ∃ built ops source, Layout old g (top g node).2 built ops source
    ∧ ∀ c, Select.Ranks ⟨c, b.nested⟩ t g b.folding source
      (built.predicates.filter (isRanking g))
  := by
  obtain ⟨built, ops, source, hlayout, _, _, _, hassembles⟩ := h.layout hg
  refine ⟨built.clauses, ops, source, hlayout, fun _ => ?_⟩
  obtain @⟨bound, joined, _, own, more, _, htables, hpredicates, hfrom, hlifts, hchained, hown,
    hranked⟩ := hassembles
  obtain rfl := Option.some.inj (ht.symm.trans hfrom)
  have hranks := hranked.ranks
  have hbound : ∀ p ∈ built.clauses.predicates.filter (isRanking g), p.index < bound :=
    fun p hp => hpredicates p (List.mem_filter.mp hp).1
  refine .intro rfl ?_ hranks.length_eq ?_
  · intro R V rows holds A
    rw [JoinTree.joinedRows_eq]
    exact Contents.joined_congr (JoinClause.sameMeaning_of_lifts A hlifts) rows holds _
  · intro i p c hp hc
    obtain ⟨before, hbefore, hover⟩ := hranked.exists_before hg i hp hc
    obtain @⟨arg, metric, groups, key, sorted, first, value, lifted, predicate, k, metric?, name,
      hranking, hmetric, hgroups, hkey, hsorted, hfirst, hvalue, hlifted, hpredicate⟩ := hover
    have hjoin : JoinClause.JoinsFirst b.folding g arg k ⟨.semi, first, [predicate]⟩ :=
      .intro hlifted hfirst hvalue hpredicate
    cases hgroups with
    | below hkey' hvalue' htable hsame hnamed hgroups =>
        exact .intro hranking hjoin hmetric hkey' hvalue' htable
          (fun _ => ⟨groups, sorted, .intro hnamed hgroups hkey hsorted hfirst⟩)
          fun hother => absurd hsame hother
    | joined hkey' hvalue' htable hother hkey'' hvalue'' hnamed hgroups =>
        refine .intro hranking hjoin hmetric hkey' hvalue' htable
          (fun hsame => absurd hsame hother) fun _ hsource hwritten => ?_
        have hleaf : first ∈ b.clauses.leaves := by
          rw [Clauses.leaves, ht]
          apply List.mem_cons_of_mem
          exact List.mem_map_of_mem (List.mem_append_right own (List.mem_of_getElem? hc))
        obtain ⟨q, hq, hnode, hkind, _, r, force, horigin, hquery⟩ :=
          h.exists_derived hg hleaf hfirst
        refine ⟨q, hq, hnode, hkind, _, _, hquery, Clauses.RanksRows.congr rfl ?_⟩
        refine horigin.ranksApart hg hranking (hbound p (List.mem_of_getElem? hp)) hmetric hkey''
          hvalue'' (.intro hnamed hgroups hkey hsorted hfirst) hlifts
          (fun c hc l hl u hu => htables u (hown c hc l hl u hu))
          (fun c hc => hranked.bare hg c (List.mem_of_mem_take hc)) ?_ hsource hwritten
          (hchained.append hbefore)
        intro c hc
        obtain ⟨p', hp', hranks', _⟩ := forall₂_exists hranks.flip c (List.mem_of_mem_take hc)
        obtain ⟨hjoin', hreads⟩ := hranks'.reads hg
        exact ⟨hjoin', fun l hl u hu => (hreads l hl u hu).imp id fun hlt =>
          Nat.lt_trans hlt (hbound p' hp')⟩

end Block

namespace Select

variable {g : Graph} {s : Folding} {b b' : Select}

/-- Blocks that are the same without scopes have the same nested queries, scopes apart. -/
theorem exists_nested_of_unbound (h : b.unbound = b'.unbound) :
  ∀ q' ∈ b'.nested, ∃ q ∈ b.nested, q.node = q'.node ∧ q.kind = q'.kind
    ∧ q.query.unbound = q'.query.unbound
  := by
  intro q' hq'
  have hnested : b.nested.map Nested.unbound = b'.nested.map Nested.unbound :=
    congrArg Select.nested h
  have hmem : q'.unbound ∈ b.nested.map Nested.unbound := by
    rw [hnested]
    exact List.mem_map_of_mem hq'
  obtain ⟨q, hq, hsame⟩ := List.mem_map.mp hmem
  obtain ⟨hnode, hkind, _, hquery⟩ := Nested.mk.inj hsame
  exact ⟨q, hq, hnode, hkind, hquery⟩

/-- The rankings of a block are those of the block without scopes. -/
theorem RanksBy.of_unbound (h : b.unbound = b'.unbound) {source first p : NodeId}
    {before : List JoinClause} {c : JoinClause} (hranks : b'.RanksBy g s source first before p c) :
  b.RanksBy g s source first before p c
  := by
  obtain ⟨hranking, hjoin, hmetric, hkey, hvalue, htable, halone, hapart⟩ := hranks
  refine .intro hranking hjoin hmetric hkey hvalue htable halone fun hother hsource hwritten => ?_
  obtain ⟨q', hq', hnode, hkind, c', nested', hquery', hrows⟩ := hapart hother hsource hwritten
  obtain ⟨q, hq, hnode', hkind', hsame⟩ := exists_nested_of_unbound h q' hq'
  refine ⟨q, hq, hnode'.trans hnode, hkind'.trans hkind, ?_⟩
  rw [hquery', Query.unbound_select] at hsame
  cases hquery : q.query with
  | select clauses nested =>
      rw [hquery, Query.unbound_select] at hsame
      have hclauses := (Query.select.inj hsame).1
      refine ⟨clauses, nested, rfl, hrows.congr ?_⟩
      have hforce := congrArg Clauses.forceAliases hclauses
      simp only at hforce
      rw [hforce]
      exact congrArg (fun c : Clauses => { c with scope := clauses.scope }) hclauses
  | union l r distinct =>
      rw [hquery] at hsame
      cases hsame

theorem Ranks.of_unbound (h : b.unbound = b'.unbound) {t : TableSet} {source : NodeId}
    {rankings : List NodeId} (hranks : b'.Ranks t g s source rankings) :
  b.Ranks t g s source rankings
  := by
  obtain ⟨hjoins, hown, hlength, hranked⟩ := hranks
  exact .intro hjoins hown hlength fun i p c hp hc => (hranked i p c hp hc).of_unbound h

end Select

/-- The rows of joins are those of their operands just when all of them pass the selections that are
taken off. -/
theorem JoinTree.joinedRows_eq_filteredRows_iff {R : Type} (D : Contents R) (tree : JoinTree)
    (hwritten : tree.Written) (hoffered : tree.Offered) (hsafe : tree.Safe) :
  tree.joinedRows D = tree.filteredRows D ↔ ∀ row ∈ tree.joinedRows D, tree.passes D row = true
  := by
  rw [filteredRows_eq_of_written D tree hwritten hoffered hsafe, eq_comm, List.filter_eq_self]

namespace Graph

/-- Every block of a statement joins the rows of a join tree, and then one table for each ranking of
its WHERE clause.  If the ranked value and the metric read different tables, this table ranks the
joined rows.  The selections that are taken off the operands of the joins have no effect on them, so
they are the rows of the filtered operands just when all joined rows pass the selections. -/
theorem analyze_ranks {g : Graph} (hg : g.WellFounded) {root : NodeId} (hroot : g.Has root)
    {st : Statement} (h : g.analyze root = .ok st) {outer : List Select} {b : Select}
    (hb : st.Holds outer b) {t : TableSet} (ht : b.clauses.from? = some t) :
  ∃ old node B built ops source, b.OriginatesFrom old st.graph node B
    ∧ Block.Layout old st.graph (Block.top st.graph node).2 built ops source
    ∧ b.Ranks t st.graph B.folding source (built.predicates.filter (Block.isRanking st.graph))
    ∧ ((st.graph.joinTree source).Written → (st.graph.joinTree source).Safe →
      ∀ {R : Type} (D : Contents R), (st.graph.joinTree source).joinedRows D
          = (st.graph.joinTree source).filteredRows D
        ↔ ∀ row ∈ (st.graph.joinTree source).joinedRows D,
          (st.graph.joinTree source).passes D row = true)
  := by
  obtain ⟨_, hg', _⟩ := analyze_rooted QuerySpec.compilation_meets_queryOf hg hroot h
  obtain ⟨old, node, B, horigin⟩ := analyze_origins hg hroot h hb (by rw [ht]; nofun)
  have hfrom : B.clauses.from? = some t := by
    rw [horigin.clauses] at ht
    exact ht
  obtain ⟨built, ops, source, hlayout, hranks⟩ := horigin.origin.ranks hg' hfrom
  refine ⟨old, node, B, built, ops, source, horigin, hlayout, ?_, fun hwritten hsafe _ D => ?_⟩
  · exact (hranks _).of_unbound horigin.same
  · exact JoinTree.joinedRows_eq_filteredRows_iff D _ hwritten (joinTree_offered hg' source) hsafe

/-- The keys of a filtered table that rank first by a sum over another table, which is joined with
it. -/
def firstByTotal : Graph := ⟨#[
  .table ⟨some "a", none, ⟨[⟨"k", .int32⟩, ⟨"x", .int32⟩]⟩⟩,
  .table ⟨some "b", none, ⟨[⟨"g", .int32⟩, ⟨"v", .int32⟩]⟩⟩,
  .column ⟨0⟩ "x",
  .literal (.integer 0),
  .binary .gt ⟨2⟩ ⟨3⟩,
  .selection ⟨0⟩ [⟨4⟩],
  .column ⟨5⟩ "k",
  .column ⟨1⟩ "g",
  .binary .eq ⟨6⟩ ⟨7⟩,
  .join .inner ⟨5⟩ ⟨1⟩ [⟨8⟩],
  .column ⟨1⟩ "v",
  .reduction .sum ⟨10⟩,
  .topK ⟨6⟩ 3 (some ⟨11⟩),
  .selection ⟨9⟩ [⟨12⟩]]⟩

/-- Contents of one row a table, for which every predicate holds but the filter. -/
def unfilteredContents : Contents Unit :=
  ⟨fun _ => [()], fun p _ => p ≠ ⟨4⟩⟩

/-- The filter of the table stands in the WHERE clause of the outer block, and the derived table of
the ranking has none.  It ranks a row of the two tables that is not one of the join. -/
theorem analyze_ranks_firstByTotal :
  (∃ st, firstByTotal.analyze ⟨13⟩ = .ok st ∧ ∃ b t, st.Holds [] b ∧ b.clauses.from? = some t
    ∧ b.clauses.predicates = [⟨4⟩]
    ∧ (∃ q ∈ b.nested, q.kind = .table ∧ q.query.first.clauses.leaves = [⟨0⟩, ⟨1⟩]
      ∧ q.query.first.clauses.predicates = [])
    ∧ ∃ old node B built ops source, b.OriginatesFrom old st.graph node B
      ∧ Block.Layout old st.graph (Block.top st.graph node).2 built ops source
      ∧ b.Ranks t st.graph B.folding source (built.predicates.filter (Block.isRanking st.graph)))
  ∧ (firstByTotal.joinTree ⟨9⟩).Written ∧ (firstByTotal.joinTree ⟨9⟩).Safe
  ∧ (firstByTotal.joinTree ⟨9⟩).joinedRows unfilteredContents = [[some (), some ()]]
  ∧ (firstByTotal.joinTree ⟨9⟩).filteredRows unfilteredContents = []
  := by
  have hrun : (firstByTotal.analyze ⟨13⟩).toOption.map (fun st =>
      ((st.query.first.clauses.from?.isSome, st.query.first.clauses.predicates),
        st.query.first.nested.map fun q =>
          (q.kind, q.query.first.clauses.leaves, q.query.first.clauses.predicates)))
        = some ((true, [⟨4⟩]), [(.table, [⟨0⟩, ⟨1⟩], [])]) := by
    decide +kernel
  obtain ⟨st, hst, hvalues⟩ := Option.map_eq_some_iff.mp hrun
  obtain ⟨houter, hinner⟩ := Prod.mk.inj hvalues
  obtain ⟨hsome, hpredicates⟩ := Prod.mk.inj houter
  obtain ⟨t, hfrom⟩ := Option.isSome_iff_exists.mp hsome
  obtain ⟨q, hq, hvalues⟩ := List.map_eq_singleton_iff.mp hinner
  obtain ⟨hkind, hvalues⟩ := Prod.mk.inj hvalues
  obtain ⟨hleaves, hnone⟩ := Prod.mk.inj hvalues
  have hok := eq_ok_of_toOption hst
  have hb : st.Holds [] st.query.first := .inl st.query.holds_first
  have hmem : q ∈ st.query.first.nested := by
    rw [hq]
    exact List.mem_singleton_self q
  refine ⟨⟨st, hok, _, t, hb, hfrom, hpredicates, ⟨q, hmem, hkind, hleaves, hnone⟩, ?_⟩, ?_, ?_,
    by rfl, by rfl⟩
  · obtain ⟨old, node, B, built, ops, source, horigin, hlayout, hranks, _⟩ :=
      analyze_ranks (g := firstByTotal) (by decide) (by decide) hok hb hfrom
    exact ⟨old, node, B, built, ops, source, horigin, hlayout, hranks⟩
  · exact ⟨nofun, trivial⟩
  · exact ⟨trivial, .inl rfl⟩

end Graph

end RelSql
