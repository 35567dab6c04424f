import RelSql.Proofs.Lift.Terms
import RelSql.Proofs.Statement.Compilation

/-!
# What subqueries range over

A scalar subquery is compiled from an aggregation of the table that the lifted value reads
first, and a membership from a projection of the table of the lifted column.  This is the
table that the value has been written against unless that table is folded into the block and
gives its columns away.  What is compiled applies the selections above its table.
-/

namespace RelSql

variable {Q : QuerySpec} {g g' : Graph}

namespace QuerySpec

/-- A query is what a table has been compiled to inside blocks on the way to the graph, its columns
being qualified perhaps. -/
def compiledIn (enclosing : List (List NodeId)) : QuerySpec := fun g node q =>
  ∃ (n : Nat) (g₀ g₁ : Graph) (q₀ : Query),
    g₀.WellFounded ∧ g₀.Has node ∧ (queryWithin n enclosing node).run g₀ = .ok (q₀, g₁)
      ∧ g₁.Extends g ∧ (q = q₀ ∨ q = Block.forceAliases q₀)

theorem compiledIn_persistent (enclosing : List (List NodeId)) :
  (compiledIn enclosing).Persistent
  := by
  rintro node g g' q _ _ e ⟨n, g₀, g₁, q₀, hg₀, hnode, hrun, e₁, hq⟩
  exact ⟨n, g₀, g₁, q₀, hg₀, hnode, hrun, e₁.trans e, hq⟩

theorem compiledIn_qualifies (enclosing : List (List NodeId)) :
  (compiledIn enclosing).Qualifies
  := by
  rintro g node q ⟨n, g₀, g₁, q₀, hg₀, hnode, hrun, e, hq⟩
  refine ⟨n, g₀, g₁, q₀, hg₀, hnode, hrun, e, .inr ?_⟩
  rcases hq with rfl | rfl
  · rfl
  · cases q₀ <;> rfl

/-- The query of a table inside blocks is what the table is compiled to. -/
theorem compiledIn_meets (n : Nat) (enclosing : List (List NodeId)) :
  (compiledIn enclosing).Meets (queryWithin n enclosing)
  := by
  intro node g hg hnode
  have h := hereditary_true.meets n enclosing node g hg hnode
  refine ⟨?_, h.failure⟩
  intro q g' hrun
  obtain ⟨hg', e, _⟩ := h.result q g' hrun
  exact ⟨hg', e, n, g, g', q, hg, hnode, hrun, .refl _, .inl rfl⟩

/-- A query is what a table has been compiled to on the way to the graph, its columns being
qualified perhaps. -/
def compilation : QuerySpec := fun g node q =>
  ∃ (n : Nat) (enclosing : List (List NodeId)) (g₀ g₁ : Graph) (q₀ : Query),
    g₀.WellFounded ∧ g₀.Has node ∧ (queryWithin n enclosing node).run g₀ = .ok (q₀, g₁)
      ∧ g₁.Extends g ∧ (q = q₀ ∨ q = Block.forceAliases q₀)

theorem compilation_persistent :
  compilation.Persistent
  := by
  rintro node g g' q hg hg' e ⟨n, enclosing, h⟩
  obtain ⟨n', h'⟩ := compiledIn_persistent enclosing node hg hg' e ⟨n, h⟩
  exact ⟨n', enclosing, h'⟩

theorem compilation_qualifies :
  compilation.Qualifies
  := by
  rintro g node q ⟨n, enclosing, h⟩
  obtain ⟨n', h'⟩ := compiledIn_qualifies enclosing g node q ⟨n, h⟩
  exact ⟨n', enclosing, h'⟩

/-- The query of a table is what the table is compiled to. -/
theorem compilation_meets (n : Nat) (enclosing : List (List NodeId)) :
  compilation.Meets (queryWithin n enclosing)
  := by
  intro node g hg hnode
  apply (compiledIn_meets n enclosing node g hg hnode).imp
  rintro q g' _ _ ⟨n', h⟩
  exact ⟨n', enclosing, h⟩

/-- What is known of the queries of tables is known of what a table has been compiled to. -/
theorem Hereditary.of_compilation (hQ : Q.Hereditary) (hg : g.WellFounded) {node : NodeId}
    {q : Query} (h : compilation g node q) :
  Q g node q
  := by
  obtain ⟨n, enclosing, g₀, g₁, q₀, hg₀, hnode, hrun, e, hq⟩ := h
  obtain ⟨hg₁, _, hq₀⟩ := (hQ.meets n enclosing node g₀ hg₀ hnode).result q₀ g₁ hrun
  have hkept := hQ.persistent node hg₁ hg e hq₀
  rcases hq with rfl | rfl
  · exact hkept
  · exact hQ.qualifies g node q₀ hkept

end QuerySpec

namespace Graph

/-- A query applies the selections above a table: it filters by their predicates, which are
lifted, rankings apart; or the table with its selections is a derived table of its FROM
clause. -/
def Filters (g : Graph) (t : NodeId) (q : Query) : Prop :=
  ∃ c nested, q = .select c nested ∧
    ((∃ s : Folding, ∀ p ∈ (g.peel t).predicates, Block.isRanking g p = false →
        ∃ p' ∈ c.predicates, s.Lifts .substitute g p p')
      ∨ (t ∈ c.leaves ∧ (derivedFor? nested t).isSome = true))

theorem Filters.mono (e : g.Extends g') (hg : g.WellFounded) (hg' : g'.WellFounded) {t : NodeId}
    (ht : g.Has t) {q : Query} (h : g.Filters t q) :
  g'.Filters t q
  := by
  obtain ⟨c, nested, rfl, ⟨s, hs⟩ | hderived⟩ := h
  · refine ⟨c, nested, rfl, .inl ⟨s, ?_⟩⟩
    rw [e.peel_eq hg hg' ht]
    intro p hp hranking
    rw [e.isRanking_eq (hg.has_predicates ht p hp)] at hranking
    obtain ⟨p', hp', hl⟩ := hs p hp hranking
    exact ⟨p', hp', Folding.Lifts.persistent p hg hg' e hl⟩
  · exact ⟨c, nested, rfl, .inr hderived⟩

theorem Filters.qualify {t : NodeId} {q : Query} (h : g.Filters t q) :
  g.Filters t (Block.forceAliases q)
  := by
  obtain ⟨c, nested, rfl, h⟩ := h
  exact ⟨_, nested, rfl, h⟩

end Graph

namespace Block

/-- A completed block over the FROM clause of an operand, whose predicates it has, applies the
selections above the operand. -/
theorem Completed.filters (hg : g.WellFounded) {t : NodeId} {built b : Block}
    (hpredicates : ∀ p ∈ (g.operand t true true).predicates, p ∈ built.clauses.predicates)
    (h : Completed Q built (g.joinTree (g.operand t true true).table).tables g b) :
  g.Filters t b.query
  := by
  refine ⟨b.clauses, b.nested, rfl, ?_⟩
  cases htaken : g.takesOff t true true with
  | true =>
      refine .inl ⟨b.folding, ?_⟩
      intro p hp hranking
      have hmem : p ∈ (g.operand t true true).predicates := by
        rw [Graph.operand, htaken]
        exact hp
      apply forall₂_exists h.predicates
      rw [List.mem_filter, hranking]
      exact ⟨hpredicates p hmem, rfl⟩
  | false =>
      cases hselection : Graph.selectionInput? (g.node t) with
      | none =>
          refine .inl ⟨b.folding, ?_⟩
          rw [Graph.peel_other hg hselection]
          exact List.forall_mem_nil _
      | some t' =>
          -- a selection that is kept is a table of the FROM clause, and not a physical one
          obtain ⟨predicates, hn⟩ := Graph.eq_selection hselection
          have hoperand : g.operand t true true = ⟨t, [], []⟩ := by
            rw [Graph.operand, htaken]
            rfl
          have hjoin : g.isJoin t = false := by rw [Graph.isJoin, hn]
          obtain ⟨node, joins, more, hfrom, _⟩ := h.source
          rw [hoperand, Graph.joinTree_other hg hjoin] at hfrom
          have hmem : t ∈ b.clauses.leaves := by
            rw [Clauses.leaves, hfrom]
            exact List.mem_cons_self
          refine .inr ⟨hmem, ?_⟩
          refine (h.sourced t hmem).resolve_left ?_
          rintro ⟨table, htable, _⟩
          rw [Graph.body, hn] at htable
          simp only at htable
          rw [hn] at htable
          cases htable

/-- Nothing is folded at the top of an aggregation or of a projection. -/
theorem top_of_plain (hg : g.WellFounded) {node : NodeId}
    (hlimit : Graph.limitInput? (g.node node) = none)
    (hsort : Graph.sortInput? (g.node node) = none)
    (hdistinct : ∀ t, g.node node ≠ .distinct t) :
  (top g node).2 = node
  := by
  simp only [top, Graph.chain_end Graph.follows_limit hg hlimit,
    Graph.chain_end Graph.follows_sort hg hsort, distinctOf]

/-- Nothing is folded above an aggregation or a projection, and no clause is given. -/
theorem block_top_of_plain (hg : g.WellFounded) {node : NodeId}
    (hlimit : Graph.limitInput? (g.node node) = none)
    (hsort : Graph.sortInput? (g.node node) = none)
    (hdistinct : ∀ t, g.node node ≠ .distinct t) :
  (top g node).1.folding.fused = [] ∧ (top g node).1.clauses = .ofNode node
  := by
  simp only [top, Graph.chain_end Graph.follows_limit hg hlimit,
    Graph.chain_end Graph.follows_sort hg hsort, distinctOf]
  exact ⟨rfl, rfl⟩

/-- The FROM clause of a completed block is that of the operand that it draws from. -/
theorem Completed.filters_of_draws (hg : g.WellFounded) {t source : NodeId}
    {b₀ b₁ built b : Block} {folded : List NodeId}
    (h : Completed Q built (g.joinTree source).tables g b)
    (hdraws : Draws Q folded (g.joinTree (g.operand t true true).table) b₀ g b₁)
    (hsame : built.clauses.from? = b₁.clauses.from?)
    (hfrom : built.clauses.from? = some (g.joinTree source).tables)
    (hpredicates : ∀ p ∈ (g.operand t true true).predicates, p ∈ built.clauses.predicates) :
  g.Filters t b.query
  := by
  have htables : b₁.clauses.from? = some (g.joinTree (g.operand t true true).table).tables := by
    rw [hdraws.clauses]
  rw [hsame, htables, Option.some.injEq] at hfrom
  rw [← hfrom] at h
  exact h.filters hg hpredicates

/-- The block of an aggregation applies the selections above the table that it aggregates. -/
theorem OfTable.filters_aggregation (hg : g.WellFounded) {node t : NodeId}
    {keys metrics having : List NodeId} (hn : g.node node = .aggregation t keys metrics having)
    {b : Block} (h : OfTable Q g node b) :
  g.Filters t b.query
  := by
  obtain @⟨built, source, rest, _, hbuilt, hfrom, _, hcompleted⟩ := h
  have hpeel : g.peel node = ⟨node, [], []⟩ := Graph.peel_other hg (by rw [hn]; rfl)
  rw [top_of_plain hg (by rw [hn]; rfl) (by rw [hn]; rfl) (by rw [hn]; nofun)] at hbuilt
  cases hbuilt with
  | aggregation hnode hdraws =>
      rw [hpeel] at hnode
      obtain ⟨rfl, _⟩ := Node.aggregation.inj (hn.symm.trans hnode)
      exact Completed.filters_of_draws hg hcompleted hdraws rfl hfrom
        fun p hp => List.mem_append_right _ hp
  | projection hnode =>
      rw [hpeel, Graph.isProjection, hn] at hnode
      cases hnode
  | other hnode =>
      rw [hpeel] at hnode
      exact absurd hn (hnode _ _ _ _)

/-- A projection of values is not fused. -/
theorem eq_of_fusesTo (hg : g.WellFounded) {node t core : NodeId} {selections : List NodeId}
    {fs : List Fused} (hn : g.node node = .projection t selections)
    (hvalues : ∀ item ∈ selections, g.isRelation item = false) (h : g.FusesTo node fs core) :
  core = node ∧ fs = []
  := by
  cases h with
  | nil => exact ⟨rfl, rfl⟩
  | cons h _ =>
      obtain @⟨input, _, _, _, _, _, hprojection, hinner, habsorbed, hwhole, _⟩ := h
      obtain ⟨rfl, rfl⟩ := Node.projection.inj (hn.symm.trans hprojection)
      obtain ⟨item, hitem, habsorbs⟩ := List.any_eq_true.mp hwhole
      have hmem := List.contains_iff_mem.mp habsorbs
      have hrelation : g.isRelation item = true := by
        rw [habsorbed] at hmem
        rcases List.mem_append.mp hmem with hmem | hmem
        · exact hg.isRelation_of_mem_peel hmem
        · rw [List.mem_singleton.mp hmem, Graph.isRelation, hinner]
          rfl
      rw [hvalues item hitem] at hrelation
      cases hrelation

/-- The block of a projection of values applies the selections above the table below its
sorts. -/
theorem OfTable.filters_projection (hg : g.WellFounded) {node t : NodeId}
    {selections : List NodeId} (hn : g.node node = .projection t selections)
    (hvalues : ∀ item ∈ selections, g.isRelation item = false)
    {b : Block} (h : OfTable Q g node b) :
  g.Filters (g.chain Graph.sortInput? t).2 b.query
  := by
  obtain @⟨built, source, rest, _, hbuilt, hfrom, _, hcompleted⟩ := h
  have hpeel : g.peel node = ⟨node, [], []⟩ := Graph.peel_other hg (by rw [hn]; rfl)
  rw [top_of_plain hg (by rw [hn]; rfl) (by rw [hn]; rfl) (by rw [hn]; nofun)] at hbuilt
  cases hbuilt with
  | aggregation hnode _ =>
      rw [hpeel, hn] at hnode
      cases hnode
  | projection _ _ hfuses hcore hdraws =>
      rw [hpeel] at hfuses
      rw [(eq_of_fusesTo hg hn hvalues hfuses).1] at hcore
      obtain ⟨rfl, _⟩ := Node.projection.inj (hn.symm.trans hcore)
      refine Completed.filters_of_draws hg hcompleted hdraws rfl hfrom fun p hp => ?_
      exact List.mem_append_left _ (List.mem_append_right _ hp)
  | other _ hpushes =>
      rw [hpeel, Graph.isProjection, hn] at hpushes
      cases hpushes

end Block

/-- A query of an aggregation, or of a projection of values, applies the selections above its
table. -/
def QuerySpec.filtering : QuerySpec := fun g node q =>
  g.Has node
    ∧ (∀ t keys metrics having, g.node node = .aggregation t keys metrics having → g.Filters t q)
    ∧ ∀ t selections, g.node node = .projection t selections →
      (∀ item ∈ selections, g.isRelation item = false) →
      g.Filters (g.chain Graph.sortInput? t).2 q

theorem QuerySpec.hereditary_filtering :
  filtering.Hereditary
  := by
  refine ⟨?_, ?_, ?_, ?_⟩
  · rintro node g g' q hg hg' e ⟨hnode, haggregation, hprojection⟩
    rw [filtering, e.node_eq hnode]
    refine ⟨hnode.mono e, ?_, ?_⟩
    · intro t keys metrics having hn
      have ht : g.Has t := hg.has_child hnode (by rw [hn]; exact List.mem_cons_self)
      exact (haggregation t keys metrics having hn).mono e hg hg' ht
    · intro t selections hn hvalues
      have hchild : ∀ c ∈ t :: selections, g.Has c := by
        intro c hc
        apply hg.has_child hnode
        rw [hn]
        exact hc
      obtain ⟨ht, hselections⟩ := List.forall_mem_cons.mp hchild
      rw [e.chain_eq Graph.follows_sort hg hg' ht]
      refine (hprojection t selections hn ?_).mono e hg hg' (hg.has_chain Graph.follows_sort ht)
      intro item hitem
      rw [← e.isRelation_eq (hselections item hitem)]
      exact hvalues item hitem
  · rintro g node q ⟨hnode, haggregation, hprojection⟩
    exact ⟨hnode, fun t keys metrics having hn => (haggregation t keys metrics having hn).qualify,
      fun t selections hn hvalues => (hprojection t selections hn hvalues).qualify⟩
  · intro g node l r distinct left right _ hn _ _
    rw [filtering, hn]
    exact ⟨Graph.has_of_node hn nofun, nofun, nofun⟩
  · intro g node b hg hnode _ hb
    exact ⟨hnode, fun t keys metrics having hn => hb.filters_aggregation hg hn,
      fun t selections hn hvalues => hb.filters_projection hg hn hvalues⟩

namespace Nested

/-- A scalar subquery stands for a value, and has been compiled from its aggregation over the
table `t`, the selections above which it applies.  If the value has been lifted from one that
reads columns of the table `q` only, then `t` is `q` just when these columns have not been given
away to the tables below `q`. -/
structure ScalarOver (s : Folding) (g : Graph) (n : Nested Query) (t : NodeId) : Prop where
  kind : n.kind = .scalar
  compiled : ∃ value table, g.node value = .named n.node Graph.defaultName
    ∧ g.node table = .aggregation t [] [value] [] ∧ QuerySpec.compilation g table n.query
  filters : g.Filters t n.query
  written : ∀ v q given, s.Lifts .substitute g v n.node → g.denote .sources v ≠ [] →
    (∀ r ∈ g.denote .sources v, r.1 = q
      ∧ ∃ name, r.2 = some name ∧ s.givesAway g q name = given) → (t = q ↔ given = false)

/-- A membership subquery has been compiled from the projection of a column of the table `t`,
the selections above which, below its sorts, it applies.  If the column has been lifted from
one of the table `q`, then `t` is `q` just when the column has not been given away to the tables
below `q`. -/
structure MembershipOver (s : Folding) (g : Graph) (n : Nested Query) (column t : NodeId) :
    Prop where
  kind : n.kind = .membership
  compiled : ∃ table, g.node table = .projection t [column]
    ∧ QuerySpec.compilation g table n.query
  filters : g.Filters (g.chain Graph.sortInput? t).2 n.query
  written : ∀ c q name, s.Lifts .substitute g c column → g.node c = .column q name →
    (t = q ↔ s.givesAway g q name = false)

/-- What is known of the subquery that stands for a value. -/
theorem Compiled.scalarOver {s : Folding} (hg : g.WellFounded) {n : Nested Query}
    (h : n.Compiled QuerySpec.compilation g) (hplain : (g.node n.node).isPlain = true) :
  ∃ t, n.ScalarOver s g t
  := by
  obtain ⟨table, _, hsource, hq⟩ := h.source
  have hoperator := Node.isOperator_of_isPlain hplain
  cases n with
  | mk node kind shared query =>
      cases hsource with
      | table hr _ =>
          rw [Graph.isRelation, Node.isRelation_of_isOperator hoperator] at hr
          cases hr
      | membership hn =>
          rw [hn] at hplain
          cases hplain
      | «exists» hn =>
          rw [hn] at hplain
          cases hplain
      | @scalar _ t value _ _ hbase hvalue htable =>
          refine ⟨t, rfl, ⟨value, table, hvalue, htable, hq⟩, ?_, ?_⟩
          · exact (QuerySpec.hereditary_filtering.of_compilation hg hq).2.1 t [] [value] [] htable
          · intro v q given hl hreads hcolumns
            rw [← Folding.Lifts.base_of_columns hg q given hl hreads hcolumns, hbase, Option.some.injEq]

/-- What is known of the subquery that stands for a membership in a column. -/
theorem Compiled.membershipOver {s : Folding} (hg : g.WellFounded) {n : Nested Query}
    (h : n.Compiled QuerySpec.compilation g) {arg c : NodeId} {negated : Bool}
    (hn : g.node n.node = .contains arg (.column c) negated) :
  ∃ t, n.MembershipOver s g c t
  := by
  obtain ⟨table, _, hsource, hq⟩ := h.source
  cases n with
  | mk node kind shared query =>
      cases hsource with
      | table hr _ =>
          rw [Graph.isRelation, hn] at hr
          cases hr
      | «exists» hn' =>
          rw [hn] at hn'
          cases hn'
      | scalar hplain =>
          rw [hn] at hplain
          cases hplain
      | @membership _ arg' c' t _ name negated' hn' hc htable =>
          obtain ⟨_, hsame, _⟩ := Node.contains.inj (hn.symm.trans hn')
          obtain rfl := Options.column.inj hsame
          refine ⟨t, rfl, ⟨table, htable, hq⟩, ?_, ?_⟩
          · apply (QuerySpec.hereditary_filtering.of_compilation hg hq).2.2 t [c] htable
            rw [List.forall_mem_singleton, Graph.isRelation, hc]
            rfl
          · intro v q column hl hv
            have hsources : g.denote .sources v = [(q, some column)] :=
              Graph.denote_column hg _ hv
            have hbase := Folding.Lifts.base_of_columns hg q (s.givesAway g q column) hl
              (by rw [hsources]; exact List.cons_ne_nil _ _) (by
                rw [hsources, List.forall_mem_singleton]
                exact ⟨rfl, column, rfl, rfl⟩)
            rw [← hbase, Graph.denote_column hg _ hc]
            exact (Option.some.injEq t q).to_iff.symm

end Nested

namespace Block

/-- The values that are extracted from the WHERE clause of a block are parts of lifted
predicates: what occurs in a predicate is lifted to what occurs in the lifted one.  The
subqueries for them range over the tables that the values have been written against, unless
these tables are folded into the block and give the columns away. -/
theorem ofTable_subqueries (hg : g.WellFounded) {node : NodeId} (hnode : g.Has node) {n : Nat}
    {enclosing : List (List NodeId)} {b : Block}
    (hrun : (Block.ofTable (queryWithin n) enclosing node).run g = .ok (b, g')) :
  g.Extends g' ∧ ∃ built, Built .compilation (top g' node).1 (top g' node).2 g' built
    ∧ b.folding.fused = built.folding.fused
    ∧ List.Forall₂ (b.folding.Lifts .substitute g')
      (built.clauses.predicates.filter fun p => !isRanking g' p) b.clauses.predicates
    ∧ (∀ p p' v, b.folding.Lifts .substitute g' p p' → g'.Occurs p v →
      ∃ v', g'.Occurs p' v' ∧ b.folding.Lifts .substitute g' v v')
    ∧ (∀ s ∈ b.nested, s.kind ≠ .table → ∃ p ∈ b.clauses.predicates, g'.Extracts p s.node)
    ∧ ∀ p ∈ b.clauses.predicates, ∀ v, g'.Extracts p v →
      ((g'.node v).isPlain = true →
        ∃ s ∈ b.nested, s.node = v ∧ ∃ t, s.ScalarOver b.folding g' t)
      ∧ ∀ arg c negated, g'.node v = .contains arg (.column c) negated →
        ∃ s ∈ b.nested, s.node = v ∧ ∃ t, s.MembershipOver b.folding g' c t
  := by
  obtain ⟨hg', e, hb⟩ := (grows_ofTable QuerySpec.compilation_persistent
    QuerySpec.compilation_qualifies (QuerySpec.compilation_meets n) enclosing hg hnode).result
      b g' hrun
  obtain @⟨built, _, _, _, hbuilt, _, _, hcompleted⟩ := hb
  refine ⟨e, built, hbuilt, hcompleted.fused, hcompleted.predicates, ?_, hcompleted.held, ?_⟩
  · exact fun p p' v hl hv => hv.lifts hg' hl
  · intro p hp v hv
    obtain ⟨s, hs⟩ := Option.isSome_iff_exists.mp (hcompleted.found p hp v hv)
    have hmem := List.mem_of_find?_eq_some hs
    have hsame : s.node = v := by simpa using List.find?_some hs
    have hcompiled := hcompleted.nested s hmem
    refine ⟨fun hplain => ⟨s, hmem, hsame, ?_⟩, fun arg c negated hn => ⟨s, hmem, hsame, ?_⟩⟩
    · apply hcompiled.scalarOver hg'
      rw [hsame, hplain]
    · apply hcompiled.membershipOver hg'
      rw [hsame, hn]

end Block

/-- The rows of a filtered table whose value is above the mean of the filtered table. -/
def Graph.aboveMean : Graph := ⟨#[
  .table ⟨some "t", none, ⟨[⟨"f", .double⟩]⟩⟩,
  .column ⟨0⟩ "f",
  .literal (.integer 0),
  .binary .gt ⟨1⟩ ⟨2⟩,
  .selection ⟨0⟩ [⟨3⟩],
  .column ⟨4⟩ "f",
  .reduction .mean ⟨5⟩,
  .binary .gt ⟨5⟩ ⟨6⟩,
  .selection ⟨4⟩ [⟨7⟩]]⟩

/-- The mean is written against the filtered table, and is taken of the table below it. -/
theorem Block.ofTable_subqueries_aboveMean :
  ∃ b g', (Block.ofTable (queryWithin 1) [] ⟨8⟩).run Graph.aboveMean = .ok (b, g')
    ∧ b.folding.givesAway g' ⟨4⟩ "f" = true ∧ b.nested.length = 1
    ∧ ∀ p ∈ b.clauses.predicates, ∀ v, g'.Extracts p v → (g'.node v).isPlain = true →
      ∃ s ∈ b.nested, s.node = v ∧ s.ScalarOver b.folding g' ⟨0⟩
  := by
  have heval : ((Block.ofTable (queryWithin 1) [] ⟨8⟩).run Graph.aboveMean).toOption.map
      (fun r => (r.2.nodes.toList.all fun m =>
          m.shape = .aggregation ⟨0⟩ [] [⟨0⟩] [] → m.children.head? = some ⟨0⟩,
        r.1.folding.givesAway r.2 ⟨4⟩ "f", r.1.nested.length)) = some (true, true, 1) := by
    decide
  obtain ⟨⟨b, g'⟩, hok, hresult⟩ := Option.map_eq_some_iff.mp heval
  have hrun := eq_ok_of_toOption hok
  obtain ⟨haggregations, hrest⟩ := Prod.mk.inj hresult
  obtain ⟨hgiven, hnested⟩ := Prod.mk.inj hrest
  refine ⟨b, g', hrun, hgiven, hnested, ?_⟩
  obtain ⟨_, _, _, _, _, _, _, hsubqueries⟩ :=
    ofTable_subqueries (g := Graph.aboveMean) (by decide) (by decide) hrun
  intro p hp v hv hplain
  obtain ⟨s, hs, hnode, t, hscalar⟩ := (hsubqueries p hp v hv).1 hplain
  obtain ⟨value, table, _, htable, _⟩ := hscalar.compiled
  have hmem : Node.aggregation t [] [value] [] ∈ g'.nodes.toList := by
    rw [← htable, Graph.nodes_eq]
    exact List.mem_map_of_mem (Graph.mem_handles.mpr (Graph.has_of_node htable (by rintro ⟨⟩)))
  have ht := of_decide_eq_true (List.all_eq_true.mp haggregations _ hmem)
  obtain rfl := Option.some.inj (ht rfl)
  exact ⟨s, hs, hnode, hscalar⟩

end RelSql
