import RelSql.Proofs.Block.Existence
import RelSql.Proofs.Statement.Origins

/-!
# What existence tests ask for

The subquery of an existence test is compiled from the cross join of all tables that the predicate
of the test reads and that no block around it has, also of those that the predicate reads under
reductions or in subqueries only.  The test holds when these have rows at all, and rows of the
tables that are read openly satisfy the predicate.  An existence test in the predicate would find no
table that is left to ask for.
-/

namespace RelSql

variable {g g' : Graph} {scope : List (List NodeId)} {q : NodeId}

namespace Select

/-- A block asks for rows that satisfy the predicate `q`, inside the blocks `scope`: it is the cross
join of the tables below the filters of those that the predicate reads and that no other block has.
It has no existence tests of its own, unless the filters read further tables.  It has a row when
rows of the tables that are read openly satisfy the predicate and the other tables have rows. -/
structure Tests (g : Graph) (scope : List (List NodeId)) (q : NodeId) (b : Select) : Prop where
  crosses : g.Crosses b.clauses ((g.unbound scope q).map fun t => (g.peel t).table)
  closed : (∀ t ∈ g.unbound scope q, ∀ p ∈ (g.peel t).predicates, ∀ u ∈ g.tables p,
      (∃ leaves ∈ scope, u ∈ leaves) ∨ ∃ t ∈ g.unbound scope q, u ∈ g.layers t) →
    ∀ s ∈ b.nested, s.kind ≠ .exists
  finds : g.Apart scope q → ∀ {V : Type} (S : Semantics V) (D : Tables V) (σ : Choice V),
    S.Finds g D b.clauses σ
      ↔ (∀ t ∈ g.unbound scope q, t ∉ g.opened q → ∃ τ, S.Gives g D τ t)
        ∧ S.Satisfies g D ((g.unbound scope q).filter (· ∈ g.opened q)) q σ

end Select

/-- The tables that a value reads come before it. -/
theorem Graph.unbound_lt (hg : g.WellFounded) (hq : g.Has q) :
  ∀ t ∈ g.unbound scope q, t.index < q.index
  := by
  intro t ht
  obtain ⟨hread, _⟩ := Graph.mem_unbound.mp ht
  exact Graph.lt_of_mem_scoped hg ((Graph.mem_tables_iff_opened hg hq).mp hread)

namespace Block

/-- The existence tests of a block read a table that neither the block nor a block around it has. -/
theorem Inside.exists_unbound (hg : g.WellFounded) {enclosing : List (List NodeId)} {node : NodeId}
    {b : Block} (h : b.Inside enclosing g node) {s : Nested Query} (hs : s ∈ b.nested)
    (hkind : s.kind = .exists) :
  ∃ p ∈ b.clauses.predicates, ∃ t ∈ g.tables p, ∀ leaves ∈ enclosing ++ [b.clauses.leaves],
    t ∉ leaves
  := by
  obtain ⟨_, _, _, _, hcompleted⟩ := h.table
  obtain ⟨p, hp, hextracts⟩ := hcompleted.held s hs (by rw [hkind]; exact nofun)
  have hhas := hcompleted.valid.predicates p hp
  cases h.placed s hs with
  | table hother _ | other hother _ => simp [hkind] at hother
  | @test q first rest hasks =>
      have hfirst : first ∈ g.unbound (enclosing ++ [b.clauses.leaves]) q := by
        rw [hasks.tables]
        exact List.mem_cons_self
      obtain ⟨hread, hscope⟩ := Graph.mem_unbound.mp hfirst
      refine ⟨p, hp, first, ?_, hscope⟩
      have hoperator : (g.node s.node).isOperator = true := by
        rw [hasks.any]
        rfl
      apply hextracts.occurs.tables hg hhas
      rw [Graph.mem_tables_operator hg hasks.has hoperator, hasks.any]
      exact ⟨q, List.mem_singleton_self q, hread⟩

/-- The block of the rows that a test asks for. -/
theorem Inside.tests (hg : g.WellFounded) (hq : g.Has q) {first rows : NodeId} {rest : List NodeId}
    (htables : g.unbound scope q = first :: rest) (hw : g.Witnesses q first rest rows)
    (hplain : ∀ t ∈ g.unbound scope q, g.Plain t) (hunranked : Unranked g q (g.unbound scope q))
    {b : Block} (h : b.Inside scope g rows) :
  Select.Tests g scope q ⟨b.clauses, b.nested⟩
  := by
  have hwitnessing : Witnessing g q (g.unbound scope q) b := by
    rw [htables] at hplain hunranked ⊢
    exact h.table.witnessing hg hw hplain hunranked
  have hlt : ∀ t ∈ g.unbound scope q, t.index < q.index := Graph.unbound_lt hg hq
  refine ⟨hwitnessing.crosses, ?_, ?_⟩
  · intro hfilters s hs hkind
    obtain ⟨p, hp, t, ht, hscope⟩ := h.exists_unbound hg hs hkind
    have hread : ∀ u ∈ g.tables q, (∃ leaves ∈ scope, u ∈ leaves)
        ∨ ∃ t ∈ g.unbound scope q, u ∈ g.layers t := by
      intro u hu
      by_cases hbound : ∃ leaves ∈ scope, u ∈ leaves
      · exact .inl hbound
      · refine .inr ⟨u, Graph.mem_unbound.mpr ⟨hu, ?_⟩, Graph.mem_layers_self hg u⟩
        exact fun leaves hleaves hmem => hbound ⟨leaves, hleaves, hmem⟩
    rcases hwitnessing.reads hg hq hlt hread hfilters p hp t ht with ⟨leaves, hleaves, hmem⟩ | hmem
    · exact hscope leaves (List.mem_append_left _ hleaves) hmem
    · exact hscope _ (List.mem_append_right _ (List.mem_singleton_self _)) hmem
  · intro hapart V S D σ
    rw [← Semantics.satisfies_iff_opened hg hq hapart]
    exact ⟨Semantics.satisfies_of_finds hg hwitnessing hlt hapart.kept,
      Semantics.finds_of_satisfies hg hwitnessing hlt hapart.kept⟩

end Block

namespace Query

/-- A query asks for rows that satisfy the predicate `q`, inside the blocks `scope`: aliases apart,
it is what the cross join of all tables that the predicate reads and that no other block has is
compiled to, with the conjuncts of the predicate.  It is a single block that asks for these rows if
below their filters none of the tables is a projection or a join, and no predicate is a ranking. -/
structure Tests (g : Graph) (scope : List (List NodeId)) (q : NodeId) (query : Query) : Prop where
  compiled : ∃ first rest rows query', g.unbound scope q = first :: rest
    ∧ g.Witnesses q first rest rows ∧ QuerySpec.compiledIn scope g rows query'
    ∧ query'.unbound = query.unbound
  block : (∀ t ∈ g.unbound scope q, g.Plain t) → Block.Unranked g q (g.unbound scope q) →
    ∃ c nested, query = .select c nested ∧ Select.Tests g scope q ⟨c, nested⟩

end Query

/-- Aliases do not change what a block asks for. -/
theorem Select.tests_unbound (b : Select) :
  b.unbound.Tests g scope q ↔ b.Tests g scope q
  := by
  have hcrosses : ∀ tables, g.Crosses b.unbound.clauses tables ↔ g.Crosses b.clauses tables :=
    fun tables => ⟨fun h => ⟨h.tables, h.select, h.groupBy, h.having, h.limit⟩,
      fun h => ⟨h.tables, h.select, h.groupBy, h.having, h.limit⟩⟩
  have hnested : (∀ s ∈ b.unbound.nested, s.kind ≠ .exists) ↔ ∀ s ∈ b.nested, s.kind ≠ .exists :=
    List.forall_mem_map
  constructor
  · exact fun h => ⟨(hcrosses _).mp h.crosses, fun hf => hnested.mp (h.closed hf), h.finds⟩
  · exact fun h => ⟨(hcrosses _).mpr h.crosses, fun hf => hnested.mpr (h.closed hf), h.finds⟩

theorem Query.tests_unbound (query : Query) :
  query.unbound.Tests g scope q ↔ query.Tests g scope q
  := by
  have hblock : (∃ c nested, query.unbound = .select c nested ∧ Select.Tests g scope q ⟨c, nested⟩)
      ↔ ∃ c nested, query = .select c nested ∧ Select.Tests g scope q ⟨c, nested⟩ := by
    cases query with
    | select c nested =>
        rw [unbound_select]
        constructor
        · rintro ⟨_, _, hsame, htests⟩
          cases hsame
          exact ⟨c, nested, rfl, (Select.tests_unbound ⟨c, nested⟩).mp htests⟩
        · rintro ⟨_, _, hsame, htests⟩
          cases hsame
          exact ⟨_, _, rfl, (Select.tests_unbound ⟨c, nested⟩).mpr htests⟩
    | union l r distinct =>
        rw [unbound_union]
        constructor <;> rintro ⟨_, _, hsame, _⟩ <;> cases hsame
  constructor
  · rintro ⟨hcompiled, htests⟩
    rw [unbound_unbound] at hcompiled
    exact ⟨hcompiled, fun hplain hunranked => hblock.mp (htests hplain hunranked)⟩
  · rintro ⟨hcompiled, htests⟩
    refine ⟨?_, fun hplain hunranked => hblock.mpr (htests hplain hunranked)⟩
    rw [unbound_unbound]
    exact hcompiled

/-- What is compiled from the rows that a test asks for asks for these rows. -/
theorem Nested.Asks.tests (hg : g.WellFounded) {s : Nested Query} {first : NodeId}
    {rest : List NodeId} (h : s.Asks scope g q first rest) :
  s.query.Tests g scope q
  := by
  obtain ⟨rows, hw, hcompiled⟩ := h.compiled
  refine ⟨⟨first, rest, rows, s.query, h.tables, hw, hcompiled, rfl⟩, ?_⟩
  intro hplain hunranked
  obtain ⟨q₀, hbuilds, hq⟩ := QuerySpec.exists_builds hg hcompiled
  cases hbuilds with
  | union hn _ _ =>
      obtain ⟨_, _, _, _, hrows⟩ := hw
      rw [hrows] at hn
      cases hn
  | @block b hb =>
      have htests := hb.tests hg (h.has_predicate hg) h.tables hw hplain hunranked
      rcases hq with hq | hq
      · exact ⟨b.clauses, b.nested, hq, htests⟩
      · refine ⟨{ b.clauses with forceAliases := true }, b.nested, hq, ?_⟩
        exact ⟨⟨htests.crosses.tables, htests.crosses.select, htests.crosses.groupBy,
          htests.crosses.having, htests.crosses.limit⟩, htests.closed, htests.finds⟩

/-- Each existence test of a predicate of a block is the test of a subquery that asks for the rows
that satisfy the predicate of the test. -/
def Select.Asks (g : Graph) (scope : List (List NodeId)) (b : Select) : Prop :=
  ∀ p ∈ b.clauses.predicates, ∀ v q, g.Extracts p v → g.node v = .any q →
    ∃ s ∈ b.nested, s.node = v ∧ s.kind = .exists ∧ s.query.Tests g scope q

theorem Select.asks_unbound (scope : List (List NodeId)) (b : Select) :
  b.unbound.Asks g scope ↔ b.Asks g scope
  := by
  have hnested : ∀ v q, (∃ s ∈ b.unbound.nested, s.node = v ∧ s.kind = .exists
        ∧ s.query.Tests g scope q)
      ↔ ∃ s ∈ b.nested, s.node = v ∧ s.kind = .exists ∧ s.query.Tests g scope q := by
    intro v q
    constructor
    · rintro ⟨_, hmem, hnode, hkind, htests⟩
      obtain ⟨s, hs, rfl⟩ := List.mem_map.mp hmem
      exact ⟨s, hs, hnode, hkind, (Query.tests_unbound s.query).mp htests⟩
    · rintro ⟨s, hs, hnode, hkind, htests⟩
      exact ⟨s.unbound, List.mem_map_of_mem hs, hnode, hkind,
        (Query.tests_unbound s.query).mpr htests⟩
  exact forall₂_congr fun p _ => forall₄_congr fun v q _ _ => hnested v q

/-- The tests of a block of a table. -/
theorem Block.Inside.asks (hg : g.WellFounded) {enclosing : List (List NodeId)} {node : NodeId}
    {b : Block} (h : b.Inside enclosing g node) (forceAliases : Bool) :
  Select.Asks g (enclosing ++ [b.clauses.leaves])
    ⟨{ b.clauses with forceAliases }, b.nested⟩
  := by
  intro p hp v q hv hq
  obtain ⟨_, _, _, _, hcompleted⟩ := h.table
  obtain ⟨s, hfound⟩ := Option.isSome_iff_exists.mp (hcompleted.found p hp v hv)
  have hs := List.mem_of_find?_eq_some hfound
  have hnode : s.node = v := by simpa using List.find?_some hfound
  obtain ⟨_, _, hsource, _⟩ := (hcompleted.nested s hs).source
  have hkind : s.kind = .exists := by
    rw [hnode] at hsource
    generalize s.kind = kind at *
    cases hsource with
    | table hr _ =>
        rw [Graph.isRelation, hq] at hr
        cases hr
    | scalar hn _ _ _ | membership hn _ _ =>
        rw [hq] at hn
        cases hn
    | «exists» _ => rfl
  refine ⟨s, hs, hnode, hkind, ?_⟩
  cases h.placed s hs with
  | table hother _ | other hother _ => simp [hkind] at hother
  | test hasks =>
      have hsame := hasks.any
      rw [hnode, hq] at hsame
      cases hsame
      exact hasks.tests hg

namespace Graph

/-- Each existence test of a block of a statement is the test of a subquery over the cross join of
all tables that the predicate reads and that no block around has. -/
theorem analyze_tests (hg : g.WellFounded) {root : NodeId} (hroot : g.Has root) {st : Statement}
    (hst : g.analyze root = .ok st) {b : Select} (hb : st.query.Stands [] scope b) {p v : NodeId}
    (hp : p ∈ b.clauses.predicates) (hv : st.graph.Extracts p v)
    (hq : st.graph.node v = .any q) :
  ∃ s ∈ b.nested, s.node = v ∧ s.kind = .exists ∧ s.query.Tests st.graph scope q
  := by
  obtain ⟨_, hg', _⟩ := analyze_spec QuerySpec.hereditary_true hg hroot hst
  have hasks : st.query.EverywhereIn [] (Select.Asks st.graph) := by
    apply analyze_everywhereIn hg hroot hst (P := Select.Asks st.graph)
    · exact fun enclosing node b forceAliases h => h.asks hg' forceAliases
    · intro node values p hp
      exact absurd hp List.not_mem_nil
    · exact Select.asks_unbound
  exact hasks scope b hb p hp v q hv hq

/-- The rows of a table for which another table has a row with the same key, provided that the mean
of a third table is missing. -/
def missingMean : Graph := ⟨#[
  .table ⟨some "t", none, ⟨[⟨"k", .double⟩]⟩⟩,
  .table ⟨some "u", none, ⟨[⟨"k", .double⟩]⟩⟩,
  .table ⟨some "w", none, ⟨[⟨"y", .double⟩]⟩⟩,
  .column ⟨0⟩ "k",
  .column ⟨1⟩ "k",
  .column ⟨2⟩ "y",
  .binary .eq ⟨4⟩ ⟨3⟩,
  .reduction .mean ⟨5⟩,
  .unary .isNull ⟨7⟩,
  .binary .and ⟨6⟩ ⟨8⟩,
  .any ⟨9⟩,
  .selection ⟨0⟩ [⟨10⟩]]⟩

/-- Integers, one of which is true, and nulls, among them the mean of no rows. -/
def nulls : Semantics (Option Int) where
  null := none
  count _ := some 0
  operator n values _ := match n, values with
    | .binary .and _ _, [v, w] => if v = some 1 ∧ w = some 1 then some 1 else some 0
    | .binary .eq _ _, [v, w] => if v = w then some 1 else some 0
    | .unary .isNull _, [v] => if v = none then some 1 else some 0
    | _, _ => none
  holds v := v = some 1
  holds_and v w := by simp

/-- The third table is joined to the second one though it is read for its mean only.  When it has no
rows, its mean is missing and equal keys satisfy the predicate, but the subquery has no row. -/
theorem analyze_tests_missingMean :
  ∃ st s c nested, missingMean.analyze ⟨11⟩ = .ok st ∧ st.query.first.nested = [s]
    ∧ s.kind = .exists ∧ s.query = .select c nested ∧ c.leaves = [⟨1⟩, ⟨2⟩]
    ∧ ∃ (D : Tables (Option Int)) (σ : Choice (Option Int)),
      nulls.Satisfies st.graph D [⟨1⟩] ⟨9⟩ σ ∧ ¬ nulls.Finds st.graph D c σ
  := by
  have hrun : (missingMean.analyze ⟨11⟩).toOption.map (fun st => decide (
      st.query = .select st.query.first.clauses st.query.first.nested
        ∧ st.query.first.clauses.leaves = [⟨0⟩] ∧ st.query.first.clauses.predicates = [⟨10⟩]
        ∧ st.query.first.nested.length = 1)) = some true := by
    decide +kernel
  obtain ⟨st, hst, hfacts⟩ := Option.map_eq_some_iff.mp hrun
  obtain ⟨hquery, hleaves, hpredicates, hlength⟩ := of_decide_eq_true hfacts
  obtain ⟨s, hnested⟩ := List.length_eq_one_iff.mp hlength
  have hok := eq_ok_of_toOption hst
  have hg : missingMean.WellFounded := by decide
  obtain ⟨e, hg', _⟩ := analyze_spec QuerySpec.hereditary_true hg (by decide) hok
  have hany : st.graph.node ⟨10⟩ = .any ⟨9⟩ := e.node_eq_of rfl (by simp)
  have hstands : st.query.Stands [] [[⟨0⟩]] st.query.first := by
    rw [hquery, ← hleaves]
    exact .block
  obtain ⟨s', hs', _, hkind, htests⟩ := analyze_tests hg (by decide) hok hstands
    (hpredicates ▸ List.mem_singleton_self _) (.any hany) hany
  rw [hnested, List.mem_singleton] at hs'
  subst hs'
  have htables : st.graph.unbound [[⟨0⟩]] ⟨9⟩ = [⟨1⟩, ⟨2⟩] := by
    rw [unbound, e.tables_eq hg hg' (by decide)]
    decide
  have hopened : st.graph.opened ⟨9⟩ = [⟨1⟩, ⟨0⟩] := by
    rw [e.opened_eq hg hg' (by decide)]
    decide
  have hread : ∀ t ∈ [(⟨1⟩ : NodeId), ⟨2⟩], st.graph.peel t = ⟨t, [], []⟩
      ∧ st.graph.isJoin t = false ∧ st.graph.isProjection t = false := by
    have hgiven : ∀ t ∈ [(⟨1⟩ : NodeId), ⟨2⟩], missingMean.Has t
        ∧ selectionInput? (missingMean.node t) = none ∧ missingMean.isJoin t = false
        ∧ missingMean.isProjection t = false := by
      decide
    intro t ht
    obtain ⟨hhas, hinput, hjoin, hprojection⟩ := hgiven t ht
    rw [← e.node_eq hhas] at hinput
    rw [isJoin, isProjection, e.node_eq hhas]
    exact ⟨peel_other hg' hinput, hjoin, hprojection⟩
  have hplain : ∀ t ∈ [(⟨1⟩ : NodeId), ⟨2⟩], st.graph.Plain t := by
    intro t ht
    obtain ⟨hpeel, hjoin, hprojection⟩ := hread t ht
    exact ⟨by rw [hpeel]; exact hjoin, by rw [hpeel]; exact hprojection⟩
  have hunranked : Block.Unranked st.graph ⟨9⟩ [⟨1⟩, ⟨2⟩] := by
    have hgiven : ∀ p ∈ Block.conjuncts missingMean ⟨9⟩, missingMean.Has p
        ∧ Block.isRanking missingMean p = false := by
      decide
    rintro p (hp | ⟨t, ht, hp⟩)
    · rw [Block.conjuncts_extends e hg hg' (by decide)] at hp
      rw [e.isRanking_eq (hgiven p hp).1]
      exact (hgiven p hp).2
    · rw [(hread t ht).1] at hp
      exact absurd hp List.not_mem_nil
  rw [← htables] at hread hplain hunranked
  obtain ⟨c, nested, hselect, hcrosses, _, hfinds⟩ := htests.block hplain hunranked
  have hapart : st.graph.Apart [[⟨0⟩]] ⟨9⟩ := apart_of_peel fun t ht => (hread t ht).1
  have hsecond : ⟨1⟩ ∈ st.graph.unbound [[⟨0⟩]] ⟨9⟩ := by
    rw [htables]
    exact List.mem_cons_self
  have hthird : ⟨2⟩ ∈ st.graph.unbound [[⟨0⟩]] ⟨9⟩ := by
    rw [htables]
    exact List.mem_cons_of_mem _ List.mem_cons_self
  have hpeel := (hread _ hsecond).1
  have hpeel' := (hread _ hthird).1
  refine ⟨st, s', c, nested, hok, hnested, hkind, hselect, ?_, fun t _ => t ≠ ⟨2⟩,
    fun _ _ => some 0, ⟨fun _ _ => some 0, ?_, fun _ _ => rfl, ?_⟩, ?_⟩
  · rw [hcrosses.leaves, htables]
    simp only [List.map_cons, List.map_nil, hpeel, hpeel']
  · rw [List.forall_mem_singleton]
    refine ⟨?_, ?_, ?_⟩ <;> simp [hpeel]
  · rw [nulls.holds_extends e hg hg' (by decide)]
    exact (by decide :
      missingMean.denote nulls.algebra ⟨9⟩ (fun _ _ => some 0) = some 1)
  · rw [hfinds hapart]
    rintro ⟨hrows, _⟩
    obtain ⟨τ, hgives⟩ := hrows ⟨2⟩ hthird (by rw [hopened]; decide)
    apply hgives.row
    rw [hpeel']

end Graph

end RelSql
