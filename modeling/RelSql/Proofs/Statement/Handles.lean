import RelSql.Proofs.Statement.Selects

/-!
# Handles of a statement

The graph of a statement extends the graph of the expression and is well founded, and every
handle that the statement stores is one of its nodes: what its blocks select, filter and order
by, the tables and the joins of their FROM clauses, what the blocks output, the nodes that
nested queries stand for, the tables that have aliases, and those of the common table
expressions.  An analysis that fails has led to a graph of this kind as well.
-/

namespace RelSql

/-! ### Stored handles -/

/-- The handles of a FROM clause: its join, its tables, and the predicates of its joins. -/
def TableSet.handles (t : TableSet) : List NodeId :=
  t.node :: (t.leaves ++ t.joins.flatMap JoinClause.predicates)

/-- The tables that have aliases in a scope or around it. -/
def AliasScope.handles (s : AliasScope) : List NodeId :=
  s.entries.map Prod.fst

/-- The handles of a block. -/
def Clauses.handles (c : Clauses) : List NodeId :=
  c.node :: (c.outputs ++ c.select ++ c.from?.toList.flatMap TableSet.handles ++ c.predicates
    ++ c.having ++ c.orderBy.map SortKey.expr ++ c.scope.handles)

/-- The handles of a query, with the nodes that its nested queries stand for. -/
def Query.handles : Query → List NodeId :=
  Query.fold (fun c nested => c.handles ++ nested.flatMap fun s => s.node :: s.query)
    (fun l r _ => l ++ r)

/-- The handles of a statement, with the tables of its common table expressions. -/
def Statement.handles (st : Statement) : List NodeId :=
  st.query.handles ++ st.shared.flatMap fun t => t.node :: t.query.handles

/-- A handle of a query is one of its blocks, or the node of a query nested in one of them. -/
theorem Query.holds_of_mem_handles {id : NodeId} (q : Query) (h : id ∈ q.handles) :
  ∃ outer b, q.Holds outer b ∧ (id ∈ b.clauses.handles ∨ ∃ s ∈ b.nested, s.node = id)
  := by
  induction q using Query.induction with
  | select c nested ih =>
      rw [handles, fold_select, List.flatMap_map] at h
      rcases List.mem_append.mp h with h | h
      · exact ⟨[], _, .block, .inl h⟩
      · obtain ⟨s, hs, h⟩ := List.mem_flatMap.mp h
        rcases List.mem_cons.mp h with rfl | h
        · exact ⟨[], _, .block, .inr ⟨s, hs, rfl⟩⟩
        · obtain ⟨outer, b, hb, h⟩ := ih s hs h
          exact ⟨_, b, .nested hs hb, h⟩
  | union l r distinct hl hr =>
      rcases List.mem_append.mp h with h | h
      · obtain ⟨outer, b, hb, h⟩ := hl h
        exact ⟨outer, b, .left hb, h⟩
      · obtain ⟨outer, b, hb, h⟩ := hr h
        exact ⟨outer, b, .right hb, h⟩

/-! ### Blocks -/

/-- The handles that a block stores are there, scopes apart. -/
structure Select.Stored (g : Graph) (b : Select) : Prop where
  node : g.Has b.clauses.node
  outputs : ∀ t ∈ b.clauses.outputs, g.Has t
  valid : b.clauses.Valid g
  nested : ∀ s ∈ b.nested, g.Has s.node

namespace Block

variable {Q : QuerySpec} {g : Graph} {b b' : Block} {node core : NodeId}

/-- The nodes that a projection is fused to are there. -/
theorem has_of_fusesTo {fs : List Fused} (h : g.FusesTo node fs core) :
  ∀ f ∈ fs, g.Has f.node
  := by
  induction h with
  | nil => exact fun f hf => absurd hf List.not_mem_nil
  | cons h _ ih =>
      refine List.forall_mem_cons.mpr ⟨?_, ih⟩
      obtain ⟨_, _, _, _, _, hnode, _, _⟩ := h
      exact Graph.has_of_node hnode nofun

/-- The block of the top of a table is built from the table, and outputs nothing yet. -/
theorem node_top (g : Graph) (node : NodeId) :
  (top g node).1.clauses.node = node
  := by
  simp only [top, distinctOf]
  split <;> rfl

theorem outputs_top (g : Graph) (node : NodeId) :
  (top g node).1.clauses.outputs = []
  := by
  simp only [top, distinctOf]
  split <;> rfl

/-- A core keeps the node of the block, and outputs nodes that are there. -/
theorem Built.stored (hg : g.WellFounded) (hnode : g.Has node) (h : Built Q b node g b')
    (hb : ∀ t ∈ b.clauses.outputs, g.Has t) :
  b'.clauses.node = b.clauses.node ∧ ∀ t ∈ b'.clauses.outputs, g.Has t
  := by
  have htable := hg.has_peel hnode
  cases h with
  | aggregation _ hdraws =>
      simp only [hdraws.clauses]
      exact ⟨rfl, List.forall_mem_append.mpr ⟨hb, List.forall_mem_singleton.mpr htable⟩⟩
  | projection _ _ hfuses _ hdraws =>
      simp only [selecting, hdraws.clauses, fused_eq]
      refine ⟨rfl, List.forall_mem_append.mpr
        ⟨List.forall_mem_append.mpr ⟨hb, List.forall_mem_singleton.mpr htable⟩, ?_⟩⟩
      rw [List.forall_mem_map]
      exact has_of_fusesTo hfuses
  | other _ _ hdraws =>
      simp only [selecting, hdraws.clauses]
      exact ⟨rfl, hb⟩

end Block

namespace Select

theorem stored_persistent :
  Graph.Persistent Stored
  := fun _ _ e h => ⟨h.node.mono e, fun t ht => (h.outputs t ht).mono e, h.valid.mono e,
    fun s hs => (h.nested s hs).mono e⟩

theorem stored_unbound (g : Graph) (b : Select) :
  Stored g b.unbound ↔ Stored g b
  := by
  have hnested : (∀ s ∈ b.unbound.nested, g.Has s.node) ↔ ∀ s ∈ b.nested, g.Has s.node := by
    rw [unbound, List.forall_mem_map]
    exact Iff.rfl
  constructor
  · exact fun h => ⟨h.node, h.outputs, ⟨h.valid.select, h.valid.source, h.valid.predicates,
      h.valid.having, h.valid.orderBy⟩, hnested.mp h.nested⟩
  · exact fun h => ⟨h.node, h.outputs, ⟨h.valid.select, h.valid.source, h.valid.predicates,
      h.valid.having, h.valid.orderBy⟩, hnested.mpr h.nested⟩

/-- The handles that the block of a table stores are there. -/
theorem stored_ofTable {Q : QuerySpec} {g : Graph} (hg : g.WellFounded) {node : NodeId}
    (hnode : g.Has node) {b : Block} (hb : Block.OfTable Q g node b) :
  Stored g ⟨b.clauses, b.nested⟩
  := by
  obtain @⟨built, _, _, _, hbuilt, _, _, hcompleted⟩ := hb
  obtain ⟨hkept, houtputs⟩ := hbuilt.stored hg (Block.has_top hg hnode) (by
    rw [Block.outputs_top]
    exact fun t ht => absurd ht List.not_mem_nil)
  rw [Block.node_top] at hkept
  refine ⟨?_, ?_, hcompleted.valid, fun s hs => (hcompleted.nested s hs).has⟩
  · rw [hcompleted.rest, hkept]
    exact hnode
  · rw [hcompleted.rest]
    exact houtputs

theorem hereditary_stored :
  (QuerySpec.ofSelects Stored).Hereditary
  := by
  refine QuerySpec.hereditary_ofSelects stored_persistent ?_
    fun hg hnode hb => stored_ofTable hg hnode hb
  intro g b h
  exact ⟨h.node, h.outputs, ⟨h.valid.select, h.valid.source, h.valid.predicates, h.valid.having,
    h.valid.orderBy⟩, h.nested⟩

/-- The handles of a block are there when the tables are that have aliases in its scope. -/
theorem Stored.has {g : Graph} {b : Select} (h : b.Stored g)
    (hscope : ∀ t ∈ b.clauses.scope.handles, g.Has t) :
  ∀ id ∈ b.clauses.handles, g.Has id
  := by
  have hfrom : ∀ t ∈ b.clauses.from?, ∀ id ∈ t.handles, g.Has id := by
    intro t ht
    have hvalid := h.valid.source t ht
    refine List.forall_mem_cons.mpr ⟨hvalid.node, List.forall_mem_append.mpr
      ⟨hvalid.leaves, ?_⟩⟩
    intro id hid
    obtain ⟨c, hc, hid⟩ := List.mem_flatMap.mp hid
    exact hvalid.predicates c hc id hid
  rw [Clauses.handles, List.forall_mem_cons]
  simp only [List.forall_mem_append]
  refine ⟨h.node, ⟨⟨⟨⟨⟨h.outputs, h.valid.select⟩, ?_⟩, h.valid.predicates⟩, h.valid.having⟩, ?_⟩,
    hscope⟩
  · intro id hid
    obtain ⟨t, ht, hid⟩ := List.mem_flatMap.mp hid
    exact hfrom t (Option.mem_toList.mp ht) id hid
  · rw [List.forall_mem_map]
    exact h.valid.orderBy

end Select

/-! ### Common table expressions -/

namespace Occurrences

variable {g : Graph}

/-- The tables that occur are the bodies of leaves. -/
theorem body_of_mem_insert {leaf : NodeId} {found : List Occurrences} :
  ∀ o ∈ insert g leaf found, o.body = g.body leaf ∨ ∃ o' ∈ found, o.body = o'.body
  := by
  induction found with
  | nil =>
      intro o ho
      rw [List.mem_singleton.mp ho]
      exact .inl rfl
  | cons o' rest ih =>
      intro o ho
      rw [insert] at ho
      split at ho
      · rcases List.mem_cons.mp ho with rfl | ho
        · exact .inr ⟨o', List.mem_cons_self, rfl⟩
        · exact .inr ⟨o, List.mem_cons_of_mem _ ho, rfl⟩
      · rcases List.mem_cons.mp ho with rfl | ho
        · exact .inr ⟨o, List.mem_cons_self, rfl⟩
        · rcases ih o ho with hleaf | ⟨o', ho', hsame⟩
          · exact .inl hleaf
          · exact .inr ⟨o', List.mem_cons_of_mem _ ho', hsame⟩

theorem body_of_mem_insertAll (leaves : List NodeId) :
    ∀ {found : List Occurrences}, ∀ o ∈ insertAll g leaves found,
      (∃ leaf ∈ leaves, o.body = g.body leaf) ∨ ∃ o' ∈ found, o.body = o'.body := by
  induction leaves with
  | nil => exact fun o ho => .inr ⟨o, ho, rfl⟩
  | cons leaf rest ih =>
      intro found o ho
      rcases ih o ho with ⟨leaf', hleaf, hsame⟩ | ⟨o', ho', hsame⟩
      · exact .inl ⟨leaf', List.mem_cons_of_mem _ hleaf, hsame⟩
      · rcases body_of_mem_insert o' ho' with hbody | ⟨o'', ho'', hbody⟩
        · exact .inl ⟨leaf, List.mem_cons_self, hsame.trans hbody⟩
        · exact .inr ⟨o'', ho'', hsame.trans hbody⟩

end Occurrences

/-- The table of a common table expression is the body of a derived table of the query. -/
theorem Query.exists_leaf_of_group (g : Graph) (q : Query) {group : SharedGroup}
    (h : group ∈ (q.shareTables g).2) :
  ∃ leaf ∈ q.derivedLeaves, group.body = g.body leaf
  := by
  obtain ⟨o, ho, hbody, _⟩ := forall₂_exists (q.shareTables_groups g).flip group h
  obtain ⟨visited, heq, hsub⟩ := Occurrences.collects (g := g) q []
  rw [repeated, heq] at ho
  rcases Occurrences.body_of_mem_insertAll visited o (List.mem_of_mem_filter ho) with
    ⟨leaf, hleaf, hsame⟩ | ⟨_, hmem, _⟩
  · exact ⟨leaf, hsub.subset hleaf, hbody.trans hsame⟩
  · exact absurd hmem List.not_mem_nil

/-! ### Statements -/

namespace Graph

variable {g : Graph}

/-- The handles that the blocks of a statement store are there, scopes apart. -/
theorem analyze_stored (hg : g.WellFounded) {root : NodeId} (hroot : g.Has root)
    {st : Statement} (h : g.analyze root = .ok st) :
  ∀ outer b, st.Holds outer b → b.Stored st.graph
  := by
  apply Graph.analyze_selects Select.hereditary_stored ?_ Select.stored_unbound hg hroot h
  intro g node values hnode hvalues
  exact ⟨hnode, nofun, ⟨hvalues, nofun, nofun, nofun, nofun⟩, nofun⟩

/-- The tables that have aliases in a block are tables of the block, of one around it, or of the
outermost block of the query. -/
theorem analyze_aliases (hg : g.WellFounded) {root : NodeId} (hroot : g.Has root)
    {st : Statement} (h : g.analyze root = .ok st) {outer : List Select} {b : Select}
    (hb : st.Holds outer b) :
  ∀ t ∈ b.clauses.scope.handles, ∃ outer' d, st.Holds outer' d ∧ t ∈ d.clauses.leaves
  := by
  obtain ⟨_, _, q, _, hbind⟩ := analyze_spec QuerySpec.hereditary_unshared hg hroot h
  have hroots := (q.shareTables st.graph).1.roots (q.shareTables st.graph).2
  have hquery : st.query = _ := congrArg Prod.fst hbind
  have hfront : ∀ t ∈ st.query.frontLeaves,
      ∃ outer' d, st.Holds outer' d ∧ t ∈ d.clauses.leaves := by
    intro t ht
    refine ⟨[], st.query.first, .inl st.query.holds_first, ?_⟩
    cases hq : st.query with
    | select c nested =>
        rw [hq] at ht
        exact ht
    | union l r distinct =>
        rw [hq] at ht
        exact absurd ht List.not_mem_nil
  -- a block of a common table expression sees the scope of the outermost block as well
  have haround : ∃ around : List Frame, b.clauses.scope.outer = outer.map Select.frame ++ around
      ∧ ∀ e ∈ around.flatMap Frame.aliases, e.1 ∈ st.query.frontLeaves := by
    rcases hb with hb | ⟨t, ht, hb⟩
    · rw [hquery] at hb
      obtain ⟨_, _, _, around, hframes, hnone⟩ := hroots.blocks hb
      refine ⟨around, hframes, ?_⟩
      rw [hnone]
      exact fun e he => absurd he List.not_mem_nil
    · rw [show st.shared = _ from congrArg Prod.snd hbind] at ht
      obtain ⟨group, _, _, hbody⟩ := forall₂_exists hroots.tables.flip t ht
      rw [hbody] at hb
      obtain ⟨_, _, hframes⟩ := Query.Holds.scope group.query hroots.proper hroots.functional hb
      refine ⟨_, hframes, ?_⟩
      rw [hroots.outermost, List.flatMap_singleton]
      intro e he
      rw [hquery, Query.frontLeaves_bind, ← Query.mem_tables_rootScope _ (q.shareTables st.graph).2]
      exact List.mem_map_of_mem he
  obtain ⟨around, hframes, hnone⟩ := haround
  intro t ht
  obtain ⟨e, he, rfl⟩ := List.mem_map.mp ht
  rw [AliasScope.entries, hframes, ← List.cons_append, List.flatMap_append, List.mem_append] at he
  rcases he with he | he
  · rw [show b.clauses.scope.frame :: outer.map Select.frame = (b :: outer).map Select.frame from rfl,
      List.flatMap_map] at he
    obtain ⟨d, hd, he⟩ := List.mem_flatMap.mp he
    obtain ⟨outer', hd'⟩ := hb.around d hd
    refine ⟨outer', d, hd', ?_⟩
    rw [← (analyze_scopes hg hroot h hd').1.tables]
    exact List.mem_map_of_mem he
  · exact hfront _ (hnone e he)

/-- The table of a common table expression is there. -/
theorem analyze_has_shared (hg : g.WellFounded) {root : NodeId} (hroot : g.Has root)
    {st : Statement} (h : g.analyze root = .ok st) :
  ∀ t ∈ st.shared, st.graph.Has t.node
  := by
  intro t ht
  obtain ⟨_, hwf, q, _, hbind⟩ := analyze_spec QuerySpec.hereditary_unshared hg hroot h
  have hroots := (q.shareTables st.graph).1.roots (q.shareTables st.graph).2
  rw [show st.shared = _ from congrArg Prod.snd hbind] at ht
  obtain ⟨group, hgroup, hnode, _⟩ := forall₂_exists hroots.tables.flip t ht
  obtain ⟨leaf, hleaf, hbody⟩ := q.exists_leaf_of_group st.graph hgroup
  obtain ⟨m, hm, _, rfl⟩ := Query.exists_of_mem_derivedLeaves q hleaf
  -- the leaf is still the node of a nested query of the statement
  have hmark : { m with shared := Query.reference (q.repeated st.graph) m } ∈ st.query.marks := by
    rw [show st.query = _ from congrArg Prod.fst hbind, hroots.marks,
      show (q.shareTables st.graph).1 = q.refer (q.repeated st.graph) from rfl, Query.marks_refer]
    exact List.mem_map_of_mem hm
  obtain ⟨s, hs, hsame⟩ := List.mem_map.mp hmark
  obtain ⟨outer, b, hb, hs⟩ := Query.exists_holds_of_mem_allNested hs
  have hhas := (analyze_stored hg hroot h outer b (.inl hb)).nested s hs
  rw [show s.node = m.node from congrArg Nested.node hsame] at hhas
  rw [hnode, hbody]
  exact hwf.has_body hhas

/-- An analysis leads to a well-founded graph that starts with the nodes of the given one.  When it
succeeds, every handle that its statement stores is one of that graph. -/
theorem analyze_extends (hg : g.WellFounded) {root : NodeId} (hroot : g.Has root) :
  (∀ st, g.analyze root = .ok st → g.Extends st.graph ∧ st.graph.WellFounded
      ∧ ∀ id ∈ st.handles, st.graph.Has id)
    ∧ ∀ e, g.analyze root = .error e → ∃ f, (rootQuery root).run g = .error f ∧ f.error = e
      ∧ g.Extends f.graph ∧ f.graph.WellFounded
  := by
  have hgrows := grows_rootQuery QuerySpec.hereditary_unshared.meets_queryOf hg hroot
  refine ⟨?_, ?_⟩
  · intro st hst
    obtain ⟨e, hwf, _⟩ := analyze_spec QuerySpec.hereditary_unshared hg hroot hst
    refine ⟨e, hwf, ?_⟩
    have hblock : ∀ outer b, st.Holds outer b → ∀ id ∈ b.clauses.handles, st.graph.Has id := by
      intro outer b hb
      apply (analyze_stored hg hroot hst outer b hb).has
      intro t ht
      obtain ⟨outer', d, hd, hleaf⟩ := analyze_aliases hg hroot hst hb t ht
      exact (analyze_stored hg hroot hst outer' d hd).valid.has_leaves t hleaf
    have hquery : ∀ q : Query, (∀ outer b, q.Holds outer b → st.Holds outer b) →
        ∀ id ∈ q.handles, st.graph.Has id := by
      intro q hq id hid
      obtain ⟨outer, b, hb, hid | ⟨s, hs, rfl⟩⟩ := q.holds_of_mem_handles hid
      · exact hblock outer b (hq outer b hb) id hid
      · exact (analyze_stored hg hroot hst outer b (hq outer b hb)).nested s hs
    rw [Statement.handles, List.forall_mem_append]
    refine ⟨hquery st.query fun _ _ => .inl, ?_⟩
    intro id hid
    obtain ⟨t, ht, hid⟩ := List.mem_flatMap.mp hid
    rcases List.mem_cons.mp hid with rfl | hid
    · exact analyze_has_shared hg hroot hst t ht
    · exact hquery t.query (fun _ _ hb => .inr ⟨t, ht, hb⟩) id hid
  · intro e he
    cases hrun : (rootQuery root).run g with
    | error f =>
        rw [analyze, hrun] at he
        cases he
        obtain ⟨hwf, hext⟩ := hgrows.failure f hrun
        exact ⟨f, rfl, rfl, hext, hwf⟩
    | ok r =>
        rw [analyze, hrun] at he
        cases he

/-- The rows of a table with a key above the mean, and those of them for which some row of no
table is asked for. -/
def comparedWithMean : Graph := ⟨#[
  .table ⟨some "t", none, ⟨[⟨"k", .double⟩]⟩⟩,
  .column ⟨0⟩ "k",
  .reduction .mean ⟨1⟩,
  .binary .gt ⟨1⟩ ⟨2⟩,
  .selection ⟨0⟩ [⟨3⟩],
  .literal (.boolean true),
  .any ⟨5⟩,
  .selection ⟨0⟩ [⟨3⟩, ⟨6⟩]]⟩

/-- A subquery for the mean is added to the graph, whether the analysis succeeds or fails after
that. -/
theorem analyze_extends_comparedWithMean :
  (∃ st, comparedWithMean.analyze ⟨4⟩ = .ok st ∧ comparedWithMean.size < st.graph.size
      ∧ comparedWithMean.Extends st.graph ∧ st.graph.WellFounded
      ∧ ∀ id ∈ st.handles, st.graph.Has id)
    ∧ ∃ f, (rootQuery ⟨7⟩).run comparedWithMean = .error f ∧ f.error = .existsOverNothing
      ∧ comparedWithMean.size < f.graph.size
      ∧ comparedWithMean.Extends f.graph ∧ f.graph.WellFounded
  := by
  constructor
  · have hrun : (comparedWithMean.analyze ⟨4⟩).toOption.map
        (fun st => decide (comparedWithMean.size < st.graph.size)) = some true := by
      decide +kernel
    obtain ⟨st, hst, hsize⟩ := Option.map_eq_some_iff.mp hrun
    have hok := eq_ok_of_toOption hst
    exact ⟨st, hok, of_decide_eq_true hsize,
      (analyze_extends (g := comparedWithMean) (by decide) (by decide)).1 st hok⟩
  · have hrun : (match (rootQuery ⟨7⟩).run comparedWithMean with
        | .ok _ => false
        | .error f => decide (f.error = .existsOverNothing
            ∧ comparedWithMean.size < f.graph.size)) = true := by
      decide
    cases hresult : (rootQuery ⟨7⟩).run comparedWithMean with
    | ok r =>
        rw [hresult] at hrun
        cases hrun
    | error f =>
        rw [hresult] at hrun
        obtain ⟨herror, hsize⟩ := of_decide_eq_true hrun
        have hfails : comparedWithMean.analyze ⟨7⟩ = .error f.error := by
          rw [analyze, hresult]
          rfl
        obtain ⟨f', hresult', _, hextends⟩ :=
          (analyze_extends (g := comparedWithMean) (by decide) (by decide)).2 _ hfails
        cases hresult.symm.trans hresult'
        exact ⟨f, rfl, herror, hsize, hextends⟩

end Graph

end RelSql
