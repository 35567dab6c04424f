import RelSql.Proofs.Output.SelectList
import RelSql.Proofs.Statement.Answers
import RelSql.Proofs.Statement.Origins

/-!
# Outputs and schemas

The columns that the outermost block of a table outputs are the fields of its schema, when every
item that it selects is exposed.  The column that the values of an expression are read from is
an output, unless it is a field of an aggregation and given to a value without a name.
-/

namespace RelSql

open Analysis

variable {g g' : Graph}

/-! ### The outermost block -/

/-- The query of a table that is no set operation is the block of the table. -/
theorem grows_queryOf_block (hg : g.WellFounded) {node : NodeId} (hnode : g.Has node)
    (hunion : ∀ l r distinct, g.node node ≠ .union l r distinct) :
  Grows (fun g' q => ∃ b, Block.Origin g g' node b ∧ q = b.query) (queryOf node) g
  := by
  rw [queryOf]
  apply grows_get
  cases g.nestingBound node with
  | zero => exact grows_fail hg _
  | succ n =>
      rw [queryWithin]
      apply grows_get
      split
      case h_1 l r distinct hn => exact absurd hn (hunion l r distinct)
      · apply grows_bind (Block.grows_origin n [] hg hnode)
        intro b g' hg' _ hb
        exact grows_pure hg' ⟨b, hb, rfl⟩

/-- The query of a table is read as a table. -/
theorem grows_rootQuery_table (hg : g.WellFounded) {root : NodeId}
    (hr : g.isRelation root = true)
    (hunion : ∀ l r distinct, g.node root ≠ .union l r distinct) :
  Grows (fun g' r => ∃ b, Block.Origin g g' root b ∧ r.1 = b.query) (rootQuery root) g
  := (grows_rootQuery_relation hr
      (grows_queryOf_block hg (Graph.has_of_isRelation hr) hunion)).imp fun _ _ _ _ h => h.1

/-- A query selects a value under the name of a column: a single value from a table, or a key or
a metric of an aggregation. -/
inductive SelectsColumn (g : Graph) (root : NodeId) (name : String) (q : Query) : Prop where
  | value {table t value : NodeId} {old : Graph} {b : Block}
      (htable : g.node table = .projection t [value]) (hname : g.name? value = some name)
      (hb : Block.Origin old g table b) (hq : q = b.query) : SelectsColumn g root name q
  | field {t input : NodeId} {keys metrics having : List NodeId} {old : Graph} {b : Block}
      (hroot : g.node root = .column t name)
      (ht : g.node t = .aggregation input keys metrics having)
      (hb : Block.Origin old g t b) (hq : q = b.query) : SelectsColumn g root name q

/-- What is known of the blocks of tables is known of the queries of tables that are no set
operations. -/
theorem meetsBlocks_block :
  QuerySpec.MeetsBlocks fun g node q => ∃ old b, Block.Origin old g node b ∧ q = b.query
  := fun _ _ hg hnode hunion =>
    (grows_queryOf_block hg hnode hunion).imp fun _ _ _ _ h => ⟨_, h⟩

/-- A value that is read as a column is selected under the name of the column. -/
theorem Answers.selectsColumn {root : NodeId} {q : Query} {name : String}
    (h : Answers (fun g node q => ∃ old b, Block.Origin old g node b ∧ q = b.query) g root q
      (.column name)) :
  SelectsColumn g root name q
  := by
  cases h with
  | field hn ht hq =>
      obtain ⟨_, b, hb, rfl⟩ := hq
      exact .field hn ht hb rfl
  | rows _ _ _ hvalue htable hq =>
      obtain ⟨_, b, hb, rfl⟩ := hq
      exact .value htable hvalue.name?_eq hb rfl

/-- An expression that is read as a column is selected under the name of the column. -/
theorem grows_rootQuery_column (hg : g.WellFounded) {root : NodeId} (hroot : g.Has root) :
  Grows (fun g' r => ∀ name, r.2 = .column name → SelectsColumn g' root name r.1)
    (rootQuery root) g
  := by
  cases hr : g.isRelation root with
  | true =>
      have hquery := QuerySpec.hereditary_true.grows_queryOf hg hroot
      apply (grows_rootQuery_relation hr hquery).imp
      rintro r g' _ _ ⟨_, hhandler⟩ name hcolumn
      cases hhandler.symm.trans hcolumn
  | false =>
      apply (grows_rootQuery_answers meetsBlocks_block hg hroot hr).imp
      intro r g' _ _ h name hcolumn
      rw [hcolumn] at h
      exact h.selectsColumn

/-- Queries that are the same up to scopes and references have the same first block, up to its
scope. -/
theorem Query.first_clauses {q q' : Query} (h : q'.unbound = q.unbound) :
  ∃ scope, q'.first.clauses = { q.first.clauses with scope }
  := by
  refine ⟨q'.first.clauses.scope, ?_⟩
  have hfirst := congrArg Query.first h
  rw [Query.first_unbound, Query.first_unbound] at hfirst
  exact congrArg (fun b : Select => { b.clauses with scope := q'.first.clauses.scope }) hfirst

namespace Graph

/-- The first block of a statement is that of its query, bound to a scope. -/
theorem analyze_first {root : NodeId} {st : Statement} (h : g.analyze root = .ok st) :
  ∃ q, (rootQuery root).run g = .ok ((q, st.handler), st.graph)
    ∧ ∃ scope, st.select.clauses = { q.first.clauses with scope }
  := by
  obtain ⟨⟨⟨q, handler⟩, g'⟩, hrun, hret⟩ := exists_of_bind_eq_ok h
  cases hret
  refine ⟨q, eq_ok_of_mapError hrun, Query.first_clauses ?_⟩
  exact (Query.unbound_bind _ _).trans (Query.unbound_refer (q.repeated g') q)

end Graph

namespace Block

variable {Q : QuerySpec} {node t : NodeId} {b : Block}

/-- The block of a projection of values selects the values, and has no clause above them. -/
theorem Built.clauses_projection (hg : g.WellFounded) {selections : List NodeId}
    (hn : g.node node = .projection t selections)
    (hvalues : ∀ item ∈ selections, g.isRelation item = false)
    (h : Built Q (top g node).1 (top g node).2 g b) :
  b.clauses = { Clauses.ofNode node with
    outputs := b.clauses.outputs
    select := selections
    from? := b.clauses.from?
    predicates := b.clauses.predicates
    orderBy := b.clauses.orderBy }
  := by
  have hpeel : g.peel node = ⟨node, [], []⟩ := Graph.peel_other hg (by rw [hn]; rfl)
  have hclauses : (top g node).1.clauses = .ofNode node :=
    (block_top_of_plain hg (by rw [hn]; rfl) (by rw [hn]; rfl) (by rw [hn]; nofun)).2
  rw [top_of_plain hg (by rw [hn]; rfl) (by rw [hn]; rfl) (by rw [hn]; nofun)] at h
  cases h with
  | aggregation hnode _ =>
      rw [hpeel, hn] at hnode
      cases hnode
  | projection _ _ hfuses hcore hdraws =>
      rw [hpeel] at hfuses hdraws
      obtain ⟨hsame, rfl⟩ := eq_of_fusesTo hg hn hvalues hfuses
      rw [hsame] at hcore
      obtain ⟨_, rfl⟩ := Node.projection.inj (hn.symm.trans hcore)
      rw [selecting, hdraws.clauses]
      simp only [sorted, fused, output, foldAll, hclauses]
      rfl
  | other _ hpushes =>
      rw [hpeel, Graph.isProjection, hn] at hpushes
      cases hpushes

/-- The block of an aggregation selects its keys and its metrics, groups by the keys, and has no
clause above them. -/
theorem Built.clauses_aggregation (hg : g.WellFounded) {keys metrics having : List NodeId}
    (hn : g.node node = .aggregation t keys metrics having)
    (h : Built Q (top g node).1 (top g node).2 g b) :
  b.clauses = { Clauses.ofNode node with
    outputs := b.clauses.outputs
    select := keys ++ metrics
    from? := b.clauses.from?
    predicates := b.clauses.predicates
    groupBy := List.range keys.length
    having := having }
  := by
  have hpeel : g.peel node = ⟨node, [], []⟩ := Graph.peel_other hg (by rw [hn]; rfl)
  have hclauses : (top g node).1.clauses = .ofNode node :=
    (block_top_of_plain hg (by rw [hn]; rfl) (by rw [hn]; rfl) (by rw [hn]; nofun)).2
  rw [top_of_plain hg (by rw [hn]; rfl) (by rw [hn]; rfl) (by rw [hn]; nofun)] at h
  cases h with
  | aggregation hnode hdraws =>
      rw [hpeel] at hnode hdraws ⊢
      obtain ⟨_, rfl, rfl, rfl⟩ := Node.aggregation.inj (hn.symm.trans hnode)
      rw [hdraws.clauses]
      simp only [output, foldAll, hclauses, List.append_nil]
  | projection hnode =>
      rw [hpeel, Graph.isProjection, hn] at hnode
      cases hnode
  | other hnode =>
      rw [hpeel] at hnode
      exact absurd hn (hnode _ _ _ _)

end Block

namespace Graph

/-- The items that the outermost block of a table selects stand for the fields of its schema, and
the block outputs these fields when every item is exposed: in particular when there is neither a
projection nor an aggregation below the limits, the sorts, the distinct and the selections at
the top of the table, and no semi join and no anti join is written as a cross join.  The name of
the column that the result is read from is an output of the block if it is not the field of an
aggregation, or is given to one of its keys and metrics. -/
theorem analyze_outputs (hg : g.WellFounded) (hdistinct : g.HasDistinctFields) {root : NodeId}
    (hroot : g.Has root) {st : Statement} (hst : g.analyze root = .ok st)
    (options : Render.Options) :
  (∀ s, g.schema root = .ok s → (∀ l r unique, g.node root ≠ .union l r unique) →
    (∃ built ops source,
      Block.Built .compilation (Block.top st.graph root).1 (Block.top st.graph root).2 st.graph built
        ∧ Block.Layout g st.graph (Block.top st.graph root).2 built.clauses ops source
        ∧ built.clauses.from? = some (st.graph.joinTree source).tables
        ∧ (built.clauses.select.flatMap st.graph.selectedNames).eraseDups = s.names
        ∧ ((∀ item ∈ built.clauses.select, Block.Exposes st.graph built source item) →
          (Render.view st.graph options st.select).outputNames.eraseDups = s.names))
    ∧ ∀ table, table = (g.peel (Block.top g root).2).table → g.isProjection table = false →
      (∀ input keys metrics having, g.node table ≠ .aggregation input keys metrics having) →
      (g.joinTree table).KeepsKinds →
        (Render.view st.graph options st.select).outputNames.eraseDups = s.names)
    ∧ ∀ name, st.handler = .column name →
      (∀ t input keys metrics having, g.node root = .column t name →
        g.node t = .aggregation input keys metrics having →
        ∃ item ∈ keys ++ metrics, g.name? item = some name) →
      name ∈ (Render.view st.graph options st.select).outputNames
  := by
  obtain ⟨q, hrun, scope, hclauses⟩ := analyze_first hst
  have hbinds := (analyze_scopes hg hroot hst (.inl st.query.holds_first)).1
  refine ⟨?_, ?_⟩
  · intro s hs hunion
    obtain ⟨hg', e, b, hb, rfl⟩ :=
      (grows_rootQuery_table hg (isRelation_of_schema hg hs) hunion).result _ _ hrun
    have hnames : (st.graph.fieldNames root).eraseDups = s.names := by
      rw [e.fieldNames_eq hg hg' hroot, fieldNames_of_schema hg hs, eraseDups_of_nodup]
      rw [← fieldNames_of_schema hg hs]
      exact nodup_fieldNames hg hdistinct root
    obtain @⟨built, _, _, _, _, _, hbuilt, houtputs, hadded, hsome, hcompleted, _⟩ := hb
    have hselected := hbuilt.selectedNames hg'
    rw [Block.fieldNames_top hg', hnames] at hselected
    obtain ⟨_, _, hhaving, _, _, hjoin, _⟩ := Block.top_eq st.graph root
    have hnone := hbuilt.join_eq.trans hjoin
    obtain ⟨ops, source, hlayout, _, hfrom⟩ := hbuilt.layout hhaving ⟨_, houtputs, hadded⟩
    obtain rfl := Option.some.inj (hsome.symm.trans hfrom)
    refine ⟨⟨built, ops, source, hbuilt, hlayout, hfrom, hselected, ?_⟩, ?_⟩
    · intro hexposed
      rw [← hselected]
      exact hcompleted.outputNames hg' hnone rfl hclauses hbinds hexposed
    · rintro table rfl hprojection haggregation hkinds
      have htop := Block.has_top hg hroot
      have htable := hg.has_peel htop
      have hpeel : (st.graph.peel (Block.top st.graph root).2).table
          = (g.peel (Block.top g root).2).table := by
        rw [Block.top_extends e hg hg' hroot, e.peel_eq hg hg' htop]
      obtain ⟨hplain, hexposed⟩ := hbuilt.exposes_other hg' hjoin (Block.lt_of_mem_top hg' root)
        (by rw [hpeel, e.isProjection_eq htable, hprojection])
        (by rw [hpeel, e.node_eq htable]; exact haggregation)
        (by rw [hpeel, e.joinTree_eq hg hg' htable]; exact hkinds)
      rw [hfrom, Option.some.injEq] at hplain
      rw [hplain] at hcompleted
      rw [← hselected]
      exact hcompleted.outputNames hg' hnone rfl hclauses hbinds hexposed
  · intro name hhandler hnamed
    obtain ⟨hg', e, hcolumn⟩ := (grows_rootQuery_column hg hroot).result _ _ hrun
    cases hcolumn name hhandler with
    | value htable hname hb hq =>
        subst hq
        obtain @⟨built, _, _, _, _, _, hbuilt, _, _, _, hcompleted, _⟩ := hb
        apply hcompleted.mem_outputNames rfl hclauses _ hname
        rw [hbuilt.clauses_projection hg' htable
          (List.forall_mem_singleton.mpr (isRelation_of_name? hname))]
        exact List.mem_singleton_self _
    | @field t input keys metrics having _ b hn ht hb hq =>
        subst hq
        have hroot' : g.node root = .column t name := by rw [← e.node_eq hroot, hn]
        have hhas : g.Has t :=
          hg.has_child hroot (by rw [hroot']; exact List.mem_singleton_self t)
        have ht' : g.node t = .aggregation input keys metrics having := by
          rw [← e.node_eq hhas, ht]
        obtain ⟨item, hitem, hname⟩ := hnamed t input keys metrics having hroot' ht'
        have hitem' : g.Has item := by
          apply hg.has_child hhas
          rw [ht']
          exact List.mem_cons_of_mem _ (List.mem_append_left _ hitem)
        obtain @⟨built, _, _, _, _, _, hbuilt, _, _, _, hcompleted, _⟩ := hb
        have hselected : item ∈ built.clauses.select := by
          rw [hbuilt.clauses_aggregation hg' ht]
          exact hitem
        apply hcompleted.mem_outputNames rfl hclauses hselected
        rw [e.name?_eq hitem', hname]

/-- The columns of an inner join of two tables, selected from a join with a third one. -/
def selectsInnerJoin : Graph := ⟨#[
  .table ⟨some "a", none, ⟨[⟨"k", .double⟩]⟩⟩,
  .table ⟨some "b", none, ⟨[⟨"k2", .double⟩]⟩⟩,
  .table ⟨some "c", none, ⟨[⟨"k3", .double⟩]⟩⟩,
  .column ⟨0⟩ "k",
  .column ⟨1⟩ "k2",
  .binary .eq ⟨3⟩ ⟨4⟩,
  .join .inner ⟨0⟩ ⟨1⟩ [⟨5⟩],
  .column ⟨6⟩ "k",
  .column ⟨2⟩ "k3",
  .binary .eq ⟨7⟩ ⟨8⟩,
  .join .inner ⟨6⟩ ⟨2⟩ [⟨9⟩],
  .projection ⟨10⟩ [⟨6⟩]]⟩

/-- The names of the fields of an expression's schema, and of the columns that it outputs. -/
def shownNames (g : Graph) (root : NodeId) : Option (List String × List String) :=
  (g.schema root).toOption.bind fun s => (g.analyze root).toOption.map fun st =>
    (s.names, (Render.view st.graph .default st.select).outputNames)

/-- The inner join is written as a star over all three tables, so it is not exposed.  The whole
join outputs its fields, and a column of the inner join its name. -/
theorem analyze_outputs_selectsInnerJoin :
  (∃ st, selectsInnerJoin.analyze ⟨11⟩ = .ok st
      ∧ selectsInnerJoin.shownNames ⟨11⟩ = some (["k", "k2"], ["k", "k2", "k3"])
      ∧ ∃ built ops source, Block.Built .compilation (Block.top st.graph ⟨11⟩).1
          (Block.top st.graph ⟨11⟩).2 st.graph built
        ∧ Block.Layout selectsInnerJoin st.graph (Block.top st.graph ⟨11⟩).2 built.clauses ops source
        ∧ ∃ item ∈ built.clauses.select, ¬ Block.Exposes st.graph built source item)
    ∧ (∃ st s, selectsInnerJoin.analyze ⟨10⟩ = .ok st ∧ selectsInnerJoin.schema ⟨10⟩ = .ok s
      ∧ (Render.view st.graph .default st.select).outputNames.eraseDups = s.names)
    ∧ ∃ st, selectsInnerJoin.analyze ⟨7⟩ = .ok st
      ∧ "k" ∈ (Render.view st.graph .default st.select).outputNames
  := by
  have hwf : selectsInnerJoin.WellFounded := by decide
  have hdistinct : selectsInnerJoin.HasDistinctFields := by decide
  refine ⟨?_, ?_, ?_⟩
  · have hshown : selectsInnerJoin.shownNames ⟨11⟩ = some (["k", "k2"], ["k", "k2", "k3"]) := by
      decide
    obtain ⟨s, hs, hrun⟩ := Option.bind_eq_some_iff.mp hshown
    obtain ⟨st, hst, hnames⟩ := Option.map_eq_some_iff.mp hrun
    obtain ⟨hfields, houtputs⟩ := Prod.mk.inj hnames
    have hok := eq_ok_of_toOption hst
    refine ⟨st, hok, hshown, ?_⟩
    obtain ⟨⟨built, ops, source, hbuilt, hlayout, _, _, hexposed⟩, _⟩ :=
      (analyze_outputs hwf hdistinct (by decide) hok .default).1 s (eq_ok_of_toOption hs)
        (by intro l r unique h; cases h)
    refine ⟨built, ops, source, hbuilt, hlayout, ?_⟩
    by_contra hall
    have hsame := hexposed fun item hitem => by
      by_contra hnot
      exact hall ⟨item, hitem, hnot⟩
    rw [houtputs, hfields] at hsame
    cases hsame
  · have hrun : (selectsInnerJoin.shownNames ⟨10⟩).isSome = true := by decide
    obtain ⟨_, hrun⟩ := Option.isSome_iff_exists.mp hrun
    obtain ⟨s, hs, hrun⟩ := Option.bind_eq_some_iff.mp hrun
    obtain ⟨st, hst, _⟩ := Option.map_eq_some_iff.mp hrun
    have hok := eq_ok_of_toOption hst
    have hschema := eq_ok_of_toOption hs
    refine ⟨st, s, hok, hschema, ?_⟩
    exact ((analyze_outputs hwf hdistinct (by decide) hok .default).1 s hschema
      (by intro l r unique h; cases h)).2 _ rfl (by decide)
      (by intro input keys metrics having h; cases h) (by decide)
  · have hrun : (selectsInnerJoin.analyze ⟨7⟩).toOption.map Statement.handler
        = some (.column "k") := by
      decide
    obtain ⟨st, hst, hhandler⟩ := Option.map_eq_some_iff.mp hrun
    have hok := eq_ok_of_toOption hst
    refine ⟨st, hok, ?_⟩
    refine (analyze_outputs hwf hdistinct (by decide) hok .default).2 "k" hhandler ?_
    intro t input keys metrics having hroot ht
    cases hroot
    cases ht

end Graph

end RelSql
