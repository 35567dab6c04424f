import RelSql.Proofs.Statement.References

/-!
# What holds of every block

What holds of the block of every table holds of every block of a statement, with its nested
queries, if it depends neither on scopes nor on common table expressions.
-/

namespace RelSql

namespace Query

/-- What holds of every block of a query. -/
def Everywhere (P : Select → Prop) (q : Query) : Prop :=
  ∀ outer b, q.Holds outer b → P b

variable {P : Select → Prop}

theorem everywhere_select {c : Clauses} {nested : List (Nested Query)} :
  (Query.select c nested).Everywhere P
    ↔ P ⟨c, nested⟩ ∧ ∀ s ∈ nested, s.query.Everywhere P
  := by
  constructor
  · intro h
    exact ⟨h _ _ .block, fun s hs outer b hb => h _ b (.nested hs hb)⟩
  · rintro ⟨hblock, hnested⟩ outer b hb
    cases hb with
    | block => exact hblock
    | nested hs hb => exact hnested _ hs _ b hb

theorem everywhere_union {l r : Query} {distinct : Bool} :
  (Query.union l r distinct).Everywhere P ↔ l.Everywhere P ∧ r.Everywhere P
  := by
  constructor
  · intro h
    exact ⟨fun outer b hb => h outer b (.left hb), fun outer b hb => h outer b (.right hb)⟩
  · rintro ⟨hl, hr⟩ outer b hb
    cases hb with
    | left hb => exact hl outer b hb
    | right hb => exact hr outer b hb

theorem Everywhere.first {q : Query} (h : q.Everywhere P) :
  P q.first
  := h [] q.first q.holds_first

/-- What holds of every block of a query holds of those of its nested queries. -/
theorem Everywhere.nested {q : Query} (h : q.Everywhere P) :
  ∀ s ∈ q.allNested, s.query.Everywhere P
  := by
  induction q using Query.induction with
  | select c nested ih =>
      intro s hs
      rw [allNested, allNestedOf_eq] at hs
      obtain ⟨t, ht, hs⟩ := List.mem_flatMap.mp hs
      have hquery := (everywhere_select.mp h).2 t ht
      rcases List.mem_cons.mp hs with rfl | hs
      · exact hquery
      · exact ih t ht hquery s hs
  | union l r distinct hl hr =>
      intro s hs
      obtain ⟨hleft, hright⟩ := everywhere_union.mp h
      rcases List.mem_append.mp hs with hs | hs
      · exact hl hleft s hs
      · exact hr hright s hs

/-- A query without its scopes, and without references to common table expressions. -/
def unbound : Query → Query :=
  Query.fold
    (fun c nested => .select { c with scope := .root }
      (nested.map fun s => ⟨s.node, s.kind, none, s.query⟩))
    .union

end Query

/-- A nested query without scopes, and without references. -/
def Nested.unbound (s : Nested Query) : Nested Query :=
  ⟨s.node, s.kind, none, s.query.unbound⟩

/-- A block without scopes, and without references. -/
def Select.unbound (b : Select) : Select :=
  ⟨{ b.clauses with scope := .root }, b.nested.map Nested.unbound⟩

namespace Query

theorem unbound_select (c : Clauses) (nested : List (Nested Query)) :
  (Query.select c nested).unbound
    = .select { c with scope := .root } (nested.map Nested.unbound)
  := by
  conv_lhs => rw [unbound, fold_select, List.map_map]
  rfl

theorem unbound_union (l r : Query) (distinct : Bool) :
  (Query.union l r distinct).unbound = .union l.unbound r.unbound distinct
  := rfl

theorem unbound_refer (shared : List Occurrences) (q : Query) :
  (q.refer shared).unbound = q.unbound
  := by
  induction q using Query.induction with
  | select c nested ih =>
      rw [refer_select, unbound_select, unbound_select, List.map_map]
      congr 1
      apply List.map_congr_left
      intro s hs
      rw [Function.comp_apply, Nested.unbound, Nested.unbound, ← ih s hs]
      rfl
  | union l r distinct hl hr => rw [refer_union, unbound_union, unbound_union, hl, hr]

/-- Binding the nested queries of a block. -/
theorem unbound_nested {nested : List (Nested Query)} {bind : Query → Query}
    (h : ∀ s ∈ nested, (bind s.query).unbound = s.query.unbound) :
  (nested.map (Nested.map bind)).map Nested.unbound = nested.map Nested.unbound
  := by
  rw [List.map_map]
  apply List.map_congr_left
  intro s hs
  rw [Function.comp_apply, Nested.unbound, Nested.unbound, ← h s hs]
  rfl

theorem unbound_bindIn (q : Query) :
    ∀ s : AliasScope, (q.bindIn s).unbound = q.unbound := by
  induction q using Query.induction with
  | select c nested ih =>
      intro s
      rw [bindIn_select, unbound_select, unbound_select,
        unbound_nested fun n hn => ih n hn (s.child.bindBlock c)]
  | union l r distinct hl hr =>
      intro s
      rw [bindIn_union, unbound_union, unbound_union, hl, hr]

/-- Binding gives a query scopes, and changes nothing else. -/
theorem unbound_bind (q : Query) (groups : List SharedGroup) :
  (q.bind groups).1.unbound = q.unbound
  := by
  cases q with
  | select c nested =>
      rw [bind, unbound_select, unbound_select]
      exact congrArg _ (unbound_nested fun n _ => unbound_bindIn n.query _)
  | union l r distinct => rw [bind, unbound_union, unbound_union, unbound_bindIn, unbound_bindIn]

theorem unbound_unbound (q : Query) :
  q.unbound.unbound = q.unbound
  := by
  induction q using Query.induction with
  | select c nested ih =>
      rw [unbound_select, unbound_select, List.map_map]
      congr 1
      apply List.map_congr_left
      intro s hs
      rw [Function.comp_apply, Nested.unbound, Nested.unbound, ih s hs]
  | union l r distinct hl hr => rw [unbound_union, unbound_union, hl, hr]

/-- What depends neither on scopes nor on references holds of every block without them. -/
theorem everywhere_unbound {P : Select → Prop} (hP : ∀ b, P b.unbound ↔ P b) (q : Query) :
  q.unbound.Everywhere P ↔ q.Everywhere P
  := by
  induction q using Query.induction with
  | select c nested ih =>
      rw [unbound_select, everywhere_select, everywhere_select, List.forall_mem_map]
      exact and_congr (hP ⟨c, nested⟩) (forall₂_congr ih)
  | union l r distinct hl hr =>
      rw [unbound_union, everywhere_union, everywhere_union, hl, hr]

end Query

theorem Select.unbound_unbound (b : Select) :
  b.unbound.unbound = b.unbound
  := by
  simp only [Select.unbound, List.map_map]
  congr 1
  apply List.map_congr_left
  intro s _
  rw [Function.comp_apply, Nested.unbound, Nested.unbound, Query.unbound_unbound]

variable {P : Graph → Select → Prop} {g : Graph}

/-- The query of a table of all of whose blocks, with their nested queries, `P` holds. -/
def QuerySpec.ofSelects (P : Graph → Select → Prop) : QuerySpec :=
  fun g _ q => q.Everywhere (P g)

/-- What persists, still holds when columns are qualified, and holds of the block of every
table, holds of all blocks that tables are compiled to. -/
theorem QuerySpec.hereditary_ofSelects
    (hpersistent : Graph.Persistent P)
    (hforce : ∀ g b, P g b → P g ⟨{ b.clauses with forceAliases := true }, b.nested⟩)
    (hblock : ∀ {g : Graph} {node : NodeId} {b : Block}, g.WellFounded → g.Has node →
      Block.OfTable (QuerySpec.ofSelects P) g node b → P g ⟨b.clauses, b.nested⟩) :
  (QuerySpec.ofSelects P).Hereditary
  := by
  refine ⟨?_, ?_, ?_, ?_⟩
  · intro node g g' q hg hg' e h outer b hb
    exact hpersistent hg hg' e (h outer b hb)
  · intro g node q h
    cases q with
    | union l r distinct => exact h
    | select c nested =>
        obtain ⟨hfirst, hnested⟩ := Query.everywhere_select.mp h
        exact Query.everywhere_select.mpr ⟨hforce g _ hfirst, hnested⟩
  · intro g node l r distinct left right _ _ hleft hright
    exact Query.everywhere_union.mpr ⟨hleft, hright⟩
  · intro g node b hg hnode _ hb
    refine Query.everywhere_select.mpr ⟨hblock hg hnode hb, ?_⟩
    intro s hs
    obtain ⟨_, _, _, _, hcompleted⟩ := hb
    obtain ⟨table, _, _, hq⟩ := (hcompleted.nested s hs).source
    exact hq

/-- What holds of every block of a query holds of every block of the statement that it is bound to,
if it depends neither on scopes nor on references. -/
theorem Query.everywhere_bound {P : Select → Prop} (hP : ∀ b, P b.unbound ↔ P b) {q : Query}
    (h : q.Everywhere P) {st : Statement}
    (hbind : (st.query, st.shared)
      = (q.shareTables st.graph).1.bind (q.shareTables st.graph).2) :
  ∀ outer b, st.Holds outer b → P b
  := by
  have hkept : ∀ {q q' : Query}, q'.unbound = q.unbound → q.Everywhere P → q'.Everywhere P := by
    intro q q' hsame h
    rw [← everywhere_unbound hP, hsame]
    exact (everywhere_unbound hP q).mpr h
  have hrefer := hkept (unbound_refer (q.repeated st.graph) q) h
  obtain ⟨scope, hroots⟩ := (q.shareTables st.graph).1.exists_roots (q.shareTables st.graph).2
  rintro outer b (hb | ⟨t, ht, hb⟩)
  · rw [show st.query = _ from congrArg Prod.fst hbind] at hb
    exact hkept (unbound_bind _ _) hrefer outer b hb
  · rw [show st.shared = _ from (congrArg Prod.snd hbind).trans hroots.shared] at ht
    obtain ⟨⟨group, name⟩, hmem, rfl⟩ := List.mem_map.mp ht
    obtain ⟨s, hs, hs'⟩ := exists_nested_of_group st.graph q (List.of_mem_zip hmem).1
    refine hkept (unbound_bindIn group.query scope) ?_ outer b hb
    rw [← hs']
    exact hrefer.nested s hs

/-- What holds of all blocks of the query of every table, and of values from no table, holds of
every block of a statement. -/
theorem Graph.analyze_everywhere {Q : QuerySpec} (hQ : Q.Hereditary)
    (hblocks : ∀ g node q, Q g node q → q.Everywhere (P g))
    (hconstant : ∀ g node values, g.Has node → (∀ v ∈ values, g.Has v) →
      P g ⟨{ Clauses.ofNode node with select := values }, []⟩)
    (hunbound : ∀ g b, P g b.unbound ↔ P g b) (hg : g.WellFounded) {root : NodeId}
    (hroot : g.Has root) {st : Statement} (h : g.analyze root = .ok st) :
  ∀ outer b, st.Holds outer b → P st.graph b
  := by
  obtain ⟨_, _, q, hq, hbind⟩ := Graph.analyze_spec hQ hg hroot h
  refine Query.everywhere_bound (hunbound st.graph) ?_ hbind
  cases hq with
  | table _ hq => exact hblocks _ _ _ hq
  | constant hnode hvalues =>
      exact Query.everywhere_select.mpr
        ⟨hconstant _ _ _ hnode hvalues, fun s hs => absurd hs List.not_mem_nil⟩

/-- What holds of the blocks of all tables, and of values from no table, holds of every block
of a statement. -/
theorem Graph.analyze_selects (hP : (QuerySpec.ofSelects P).Hereditary)
    (hconstant : ∀ g node values, g.Has node → (∀ v ∈ values, g.Has v) →
      P g ⟨{ Clauses.ofNode node with select := values }, []⟩)
    (hunbound : ∀ g b, P g b.unbound ↔ P g b) (hg : g.WellFounded) {root : NodeId}
    (hroot : g.Has root) {st : Statement} (h : g.analyze root = .ok st) :
  ∀ outer b, st.Holds outer b → P st.graph b
  := analyze_everywhere hP (fun _ _ _ hq => hq) hconstant hunbound hg hroot h

end RelSql

/-! ### Tables that blocks read

The values of every block of a statement are there, correlated subqueries are qualified with
the blocks they are nested in, and the predicates of joins read the tables that are joined.
-/

namespace RelSql

namespace Select

/-- The values of a block and of its subqueries are there, it is qualified with its correlated
subqueries, and unless it has several tables its joins read its own table. -/
structure Settled (g : Graph) (b : Select) : Prop where
  valid : b.clauses.Valid g
  inner : ∀ s ∈ b.nested, s.query.first.clauses.Valid g
  qualifies : b.Qualifies g
  own : ∀ t ∈ b.clauses.from?, (∀ e ∈ t.leaves, e = t.first) →
    ∀ c ∈ t.joins, ∀ p ∈ c.predicates, ∀ u ∈ g.tables p, u ∈ t.leaves

theorem settled_persistent :
  Graph.Persistent Settled
  := by
  intro g g' b hg hg' e h
  refine ⟨h.valid.mono e, fun s hs => (h.inner s hs).mono e, ?_, ?_⟩
  · intro s hs hkind hcorrelated
    rw [Block.isCorrelated_extends e hg hg' (h.inner s hs)] at hcorrelated
    exact h.qualifies s hs hkind hcorrelated
  · intro t ht hsame c hc p hp u hu
    have hhas := (h.valid.source t ht).predicates c hc p hp
    rw [e.mem_tables_iff hg hg' hhas] at hu
    exact h.own t ht hsame c hc p hp u hu

end Select

namespace Query

theorem first_unbound (q : Query) :
  q.unbound.first = q.first.unbound
  := by
  induction q using Query.induction with
  | select c nested =>
      rw [unbound_select]
      rfl
  | union l r distinct hl => exact hl

/-- Scopes and references do not make a query correlated. -/
theorem isCorrelated_unbound (g : Graph) (q : Query) :
  Block.isCorrelated g q.unbound = Block.isCorrelated g q
  := by
  cases q with
  | select c nested =>
      have hfound : ∀ id, (nestedFor? (nested.map Nested.unbound) id).isSome
          = (nestedFor? nested id).isSome := by
        intro id
        rw [nestedFor?, nestedFor?, List.find?_map, Option.isSome_map]
        rfl
      rw [unbound_select, Bool.eq_iff_iff, Block.isCorrelated_iff, Block.isCorrelated_iff]
      simp only [Block.ReadsOuter, Block.outerTables_congr hfound]
      rfl
  | union l r distinct => rfl

end Query

namespace Select

theorem settled_unbound (g : Graph) (b : Select) :
  Settled g b.unbound ↔ Settled g b
  := by
  have hvalid : ∀ c : Clauses, Clauses.Valid g { c with scope := .root } ↔ c.Valid g :=
    fun c => ⟨fun h => ⟨h.select, h.source, h.predicates, h.having, h.orderBy⟩,
      fun h => ⟨h.select, h.source, h.predicates, h.having, h.orderBy⟩⟩
  have hinner : (∀ s ∈ b.unbound.nested, s.query.first.clauses.Valid g)
      ↔ ∀ s ∈ b.nested, s.query.first.clauses.Valid g := by
    rw [unbound, List.forall_mem_map]
    apply forall₂_congr
    intro s _
    rw [Nested.unbound, Query.first_unbound]
    exact hvalid _
  have hqualifies : b.unbound.Qualifies g ↔ b.Qualifies g := by
    rw [Qualifies, unbound, List.forall_mem_map]
    apply forall₂_congr
    intro s _
    rw [Nested.unbound, Query.isCorrelated_unbound, Query.first_unbound]
    rfl
  constructor
  · exact fun h => ⟨(hvalid _).mp h.valid, hinner.mp h.inner, hqualifies.mp h.qualifies, h.own⟩
  · exact fun h => ⟨(hvalid _).mpr h.valid, hinner.mpr h.inner, hqualifies.mpr h.qualifies, h.own⟩

/-- The block of a table is settled. -/
theorem settled_ofTable {g : Graph} {node : NodeId} {b : Block}
    (hb : Block.OfTable (QuerySpec.ofSelects Settled) g node b) :
  Settled g ⟨b.clauses, b.nested⟩
  := by
  obtain @⟨built, source, rest, hsource, _, _, _, hcompleted⟩ := hb
  refine ⟨hcompleted.valid, ?_, hcompleted.qualifies, ?_⟩
  · intro s hs
    obtain ⟨_, _, _, hq⟩ := (hcompleted.nested s hs).source
    exact hq.first.valid
  · intro t ht hsame c hc p hp u hu
    obtain ⟨node, joins, more, hfrom, hlifts, _⟩ := hcompleted.source
    have htables : t = ⟨node, (g.joinTree source).tables.first, joins ++ more⟩ := by
      rw [hfrom] at ht
      exact (Option.some.inj ht).symm
    have hfirst : c.table = (g.joinTree source).tables.first := by
      rw [hsame c.table (List.mem_cons_of_mem _ (List.mem_map_of_mem hc)), htables]
    have hleaf : c.table ∈ (g.joinTree source).tables.leaves := by
      rw [hfirst]
      exact List.mem_cons_self
    have hmem := hcompleted.own t ht c hc hleaf p hp u hu
    have hleaves : t.leaves = (g.joinTree source).tables.leaves ++ more.map JoinClause.table := by
      rw [htables, TableSet.leaves, List.map_append, JoinClause.tables_of_lifts hlifts]
      rfl
    rw [hleaves]
    exact List.mem_append_left _ hmem

theorem hereditary_settled :
  (QuerySpec.ofSelects Settled).Hereditary
  := by
  refine QuerySpec.hereditary_ofSelects settled_persistent ?_
    fun _ _ h => settled_ofTable h
  intro g b h
  refine ⟨?_, h.inner, ?_, h.own⟩
  · exact ⟨h.valid.select, h.valid.source, h.valid.predicates, h.valid.having, h.valid.orderBy⟩
  · exact fun s hs hkind hcorrelated => ⟨rfl, (h.qualifies s hs hkind hcorrelated).2⟩

end Select

namespace Graph

variable {g : Graph}

/-- Every block of a statement is settled. -/
theorem analyze_settled (hg : g.WellFounded) {root : NodeId} (hroot : g.Has root)
    {st : Statement} (h : g.analyze root = .ok st) :
  ∀ outer b, st.Holds outer b → b.Settled st.graph
  := by
  refine Graph.analyze_selects Select.hereditary_settled ?_ Select.settled_unbound hg hroot h
  intro g node values _ hvalues
  refine ⟨⟨hvalues, nofun, nofun, nofun, nofun⟩, ?_, ?_, nofun⟩
  · exact fun s hs => absurd hs List.not_mem_nil
  · exact fun s hs => absurd hs List.not_mem_nil

/-- Every block of a statement has a label for each of its tables, and sees those of the blocks
around it; the blocks of the query see no others. -/
theorem analyze_scopes (hg : g.WellFounded) {root : NodeId} (hroot : g.Has root)
    {st : Statement} (h : g.analyze root = .ok st) {outer : List Select} {b : Select}
    (hb : st.Holds outer b) :
  b.clauses.scope.Binds b.clauses ∧ b.clauses.scope.Functional
    ∧ ∃ around : List Frame, b.clauses.scope.outer = outer.map Select.frame ++ around
      ∧ (st.query.Holds outer b → around.flatMap Frame.aliases = [])
  := by
  obtain ⟨_, _, q, hq, hbind⟩ := analyze_spec QuerySpec.hereditary_unshared hg hroot h
  obtain ⟨scope, hroots⟩ := (q.shareTables st.graph).1.exists_roots (q.shareTables st.graph).2
  by_cases hmain : st.query.Holds outer b
  · have hb := hmain
    rw [show st.query = _ from congrArg Prod.fst hbind] at hb
    obtain ⟨hbinds, hfunctional, _, around, hframes, hnone⟩ := hroots.blocks hb
    exact ⟨hbinds, hfunctional, around, hframes, fun _ => hnone⟩
  · obtain ⟨t, ht, hb⟩ := hb.resolve_left hmain
    rw [show st.shared = _ from (congrArg Prod.snd hbind).trans hroots.shared] at ht
    obtain ⟨⟨group, name⟩, hmem, rfl⟩ := List.mem_map.mp ht
    obtain ⟨hbinds, hfunctional, hframes⟩ :=
      Query.Holds.scope group.query hroots.proper hroots.functional hb
    exact ⟨hbinds, hfunctional, _, hframes, fun hmain' => absurd hmain' hmain⟩

/-- The label of a table in a block is the one it has in every block around that has the table. -/
theorem label_eq (hg : g.WellFounded) {root : NodeId} (hroot : g.Has root) {st : Statement}
    (hst : g.analyze root = .ok st) {outer : List Select} {b : Select} (hb : st.Holds outer b)
    {t : NodeId} {label : String} (hlabel : b.clauses.scope.alias? t = some label) {d : Select}
    (hd : d ∈ b :: outer) (ht : t ∈ d.clauses.leaves) :
  d.clauses.scope.alias? t = some label
  := by
  obtain ⟨_, hfunctional, around, hframes, _⟩ := analyze_scopes hg hroot hst hb
  obtain ⟨outer', hd'⟩ := hb.around d hd
  have hbinds := (analyze_scopes hg hroot hst hd').1
  obtain ⟨label', hlabel'⟩ :=
    Option.isSome_iff_exists.mp (AliasScope.mem_tables_iff.mp ((hbinds.tables t).mpr ht))
  have hframe : d.frame ∈ b.clauses.scope.frame :: b.clauses.scope.outer := by
    rw [hframes]
    rcases List.mem_cons.mp hd with rfl | hd
    · exact List.mem_cons_self
    · exact List.mem_cons_of_mem _ (List.mem_append_left _ (List.mem_map_of_mem hd))
  rw [← hfunctional.alias?_eq hlabel hframe hlabel', AliasScope.alias?, aliasIn?, hlabel']

/-- A label that a block of the query sees is one of a table that it or a block around has. -/
theorem exists_block_of_alias (hg : g.WellFounded) {root : NodeId} (hroot : g.Has root)
    {st : Statement} (hst : g.analyze root = .ok st) {outer : List Select} {b : Select}
    (hb : st.query.Holds outer b) {t : NodeId} {label : String}
    (hlabel : b.clauses.scope.alias? t = some label) :
  ∃ d ∈ b :: outer, t ∈ d.clauses.leaves
  := by
  obtain ⟨_, _, around, hframes, hnone⟩ := analyze_scopes hg hroot hst (.inl hb)
  have hmem := AliasScope.mem_of_aliasIn? _ hlabel
  rw [hframes, ← List.cons_append, List.flatMap_append, hnone hb, List.append_nil] at hmem
  have hblocks : b.clauses.scope.frame :: outer.map Select.frame = (b :: outer).map Select.frame :=
    rfl
  rw [hblocks, List.flatMap_map] at hmem
  obtain ⟨d, hd, hmem⟩ := List.mem_flatMap.mp hmem
  refine ⟨d, hd, ?_⟩
  obtain ⟨outer', hd'⟩ := Statement.Holds.around (.inl hb) d hd
  rw [← (analyze_scopes hg hroot hst hd').1.tables]
  exact List.mem_map_of_mem (f := Prod.fst) hmem

end Graph

end RelSql
