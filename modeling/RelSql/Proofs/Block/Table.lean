import RelSql.Proofs.Block.Valid
import RelSql.Proofs.Block.Subquery

/-!
# The block of a table

The block of a table is built over the table below its limits, its sorts and its distinct, and
then completed.
-/

namespace RelSql

open Analysis

variable {Q : QuerySpec} {g g' : Graph}

/-- What is known of a query is still known when its columns are qualified. -/
def QuerySpec.Qualifies (Q : QuerySpec) : Prop :=
  ∀ g node q, Q g node q → Q g node (Block.forceAliases q)

/-- A handle stays a ranking, or none, when the graph grows. -/
theorem Graph.Extends.isRanking_eq (e : g.Extends g') {p : NodeId} (hp : g.Has p) :
  Block.isRanking g' p = Block.isRanking g p
  := by
  rw [Block.isRanking, Block.isRanking, e.node_eq hp]

namespace Nested

/-- A subquery whose columns are qualified is compiled from the same table. -/
theorem Compiled.qualify (hforce : Q.Qualifies) {s : Nested Query} (h : s.Compiled Q g) :
  (s.map Block.forceAliases).Compiled Q g
  := by
  obtain ⟨table, htable, hsource, hq⟩ := h.source
  exact ⟨h.has, h.shared, table, htable, hsource, hforce g table _ hq⟩

end Nested

namespace Block

/-- The second block is the first one over the tables `t`, completed: its joins are put
together, its rankings are joined, its values are lifted, and its subqueries are compiled. -/
structure Completed (Q : QuerySpec) (b : Block) (t : TableSet) (g : Graph) (b' : Block) :
    Prop where
  valid : b'.clauses.Valid g
  rest : b'.clauses = { b.clauses with
    select := b'.clauses.select
    from? := b'.clauses.from?
    predicates := b'.clauses.predicates
    having := b'.clauses.having
    orderBy := b'.clauses.orderBy
    forceAliases := b'.clauses.forceAliases }
  fused : b'.folding.fused = b.folding.fused
  outputs : b'.folding.outputs = b.folding.outputs
  source : ∃ node joins more, b'.clauses.from? = some ⟨node, t.first, joins ++ more⟩
    ∧ List.Forall₂ (JoinClause.Lifts b.folding g) t.joins joins
    ∧ (more.map JoinClause.table).Nodup ∧ (∀ c ∈ more, c.table ∉ t.leaves)
    ∧ (∀ c ∈ more, c.kind = .semi)
    ∧ (b.clauses.predicates.filter (isRanking g) = [] → more = [])
  join : ∀ j ∈ b'.folding.join, g.isJoin j = true
  select : List.Forall₂ (b'.folding.LiftsSelected g) b.clauses.select b'.clauses.select
  predicates : List.Forall₂ (b'.folding.Lifts .substitute g)
    (b.clauses.predicates.filter fun p => !isRanking g p) b'.clauses.predicates
  having : List.Forall₂ (b'.folding.Lifts .substitute g) b.clauses.having b'.clauses.having
  orderBy : List.Forall₂ (b'.folding.LiftsKey g) b.clauses.orderBy b'.clauses.orderBy
  nested : ∀ s ∈ b'.nested, s.Compiled Q g
  sourced : ∀ leaf ∈ b'.clauses.leaves, g.Sourced b'.nested leaf
  held : ∀ s ∈ b'.nested, s.kind ≠ .table → ∃ p ∈ b'.clauses.predicates, g.Extracts p s.node
  found : ∀ p ∈ b'.clauses.predicates, ∀ v, g.Extracts p v →
    (nestedFor? b'.nested v).isSome = true
  own : ∀ t' ∈ b'.clauses.from?, ∀ c ∈ t'.joins, c.table ∈ t.leaves →
    ∀ p ∈ c.predicates, ∀ u ∈ g.tables p, u ∈ t.leaves
  fresh : ∀ leaf ∈ b'.clauses.leaves, leaf ∉ t.leaves →
    ∀ v ∈ b.clauses.select, v.index < leaf.index
  qualifies : Select.Qualifies g ⟨b'.clauses, b'.nested⟩

/-- The second block is the first one with the subqueries of its predicates. -/
structure Subqueried (Q : QuerySpec) (b : Block) (g : Graph) (b' : Block) : Prop where
  clauses : ∃ forceAliases, b'.clauses = { b.clauses with forceAliases }
  folding : b'.folding = b.folding
  aggregate : b'.aggregate = b.aggregate
  nested : ∀ s ∈ b'.nested, s.Compiled Q g
  sourced : ∀ leaf ∈ b.clauses.leaves, g.Sourced b'.nested leaf
  held : ∀ s ∈ b'.nested, s.kind ≠ .table → ∃ p ∈ b.clauses.predicates, g.Extracts p s.node
  found : ∀ p ∈ b.clauses.predicates, ∀ v, g.Extracts p v →
    (nestedFor? b'.nested v).isSome = true

/-- Qualifying the columns of correlated subqueries changes no more than that. -/
theorem Subqueried.qualify (hforce : Q.Qualifies) {b b' : Block} (h : Subqueried Q b g b') :
  Subqueried Q b g (qualifyCorrelated g b')
  := by
  rw [qualifyCorrelated]
  split
  case isFalse => exact h
  case isTrue =>
      have hqualify : ∀ s : Nested Query, ∃ q, (if isCorrelatedSubquery g s then
          s.map forceAliases else s) = ⟨s.node, s.kind, s.shared, q⟩ := by
        intro s
        split
        · exact ⟨_, rfl⟩
        · exact ⟨s.query, rfl⟩
      refine ⟨?_, h.folding, h.aggregate, ?_, ?_, ?_, ?_⟩
      · obtain ⟨_, hclauses⟩ := h.clauses
        exact ⟨true, by rw [hclauses]⟩
      · intro s hs
        obtain ⟨s', hs', rfl⟩ := List.mem_map.mp hs
        split
        · exact (h.nested s' hs').qualify hforce
        · exact h.nested s' hs'
      · intro leaf hleaf
        rcases h.sourced leaf hleaf with hphysical | hderived
        · exact .inl hphysical
        · refine .inr ?_
          rw [derivedFor?, List.find?_isSome] at hderived ⊢
          obtain ⟨s, hs, hnode⟩ := hderived
          refine ⟨_, List.mem_map_of_mem hs, ?_⟩
          obtain ⟨q, hq⟩ := hqualify s
          rw [hq]
          exact hnode
      · intro s hs hkind
        obtain ⟨s', hs', rfl⟩ := List.mem_map.mp hs
        obtain ⟨q, hq⟩ := hqualify s'
        rw [hq] at hkind ⊢
        exact h.held s' hs' hkind
      · intro p hp v hv
        have hfound := h.found p hp v hv
        rw [nestedFor?, List.find?_isSome] at hfound ⊢
        obtain ⟨s, hs, hnode⟩ := hfound
        refine ⟨_, List.mem_map_of_mem hs, ?_⟩
        obtain ⟨q, hq⟩ := hqualify s
        rw [hq]
        exact hnode

/-- The subqueries of the predicates of a block are compiled, and qualified when they are
correlated. -/
theorem grows_extractSubqueries (hQ : Q.Persistent) (hforce : Q.Qualifies)
    {compile : List (List NodeId) → NodeId → Analysis Query}
    (hcompile : ∀ enclosing, Q.Meets (compile enclosing)) (enclosing : List (List NodeId))
    (hg : g.WellFounded) {b : Block} (hb : b.Valid Q g) :
  Grows (fun g' b' => Subqueried Q b g' b' ∧ Select.Qualifies g' ⟨b'.clauses, b'.nested⟩)
    (b.extractSubqueries compile enclosing) g
  := by
  rw [extractSubqueries]
  split
  case isTrue hnil =>
      apply grows_pure hg
      refine ⟨⟨⟨_, rfl⟩, rfl, rfl, fun s hs => (hb.nested s hs).compiled, hb.sourced, ?_, ?_⟩,
        fun s hs hkind => absurd (hb.nested s hs).kind hkind⟩
      · exact fun s hs hkind => absurd (hb.nested s hs).kind hkind
      · intro p hp
        rw [hnil] at hp
        exact absurd hp List.not_mem_nil
  case isFalse =>
      -- every predicate is extracted from to a depth of its own
      have hvisit : Extracting Q g.size fun nested p =>
          extract (compile (enclosing ++ [b.clauses.leaves])) (enclosing ++ [b.clauses.leaves])
            (p.index + 1) nested p := by
        intro g nested id bound hg hid _ hbound hnested hclosed
        exact extracting hQ (hcompile _) _ _ hg hid (Nat.lt_succ_self _) hbound hnested hclosed
      have hids : ∀ p ∈ b.clauses.predicates, g.Has p ∧ p.index < g.size ∧ p.index < g.size :=
        fun p hp => ⟨hb.clauses.predicates p hp, hb.clauses.predicates p hp,
          hb.clauses.predicates p hp⟩
      have hclosed : Closed g g.size b.nested := by
        intro s hs _ v hv
        obtain ⟨_, _, hsource, _⟩ := (hb.nested s hs).compiled.source
        rw [(hb.nested s hs).kind] at hsource
        cases hsource with
        | table hr _ =>
            rw [Graph.isRelation] at hr
            cases hv with
            | any h | column h | argument h _ | option h _ _ => rw [h] at hr; cases hr
            | scalar h _ | operand h _ _ _ =>
                have hop := Node.isRelation_of_isOperator (Node.isOperator_of_isPlain h)
                rw [hop] at hr
                cases hr
      apply grows_bind (grows_extractAll hvisit _ hg hids
        (fun s hs => (hb.nested s hs).compiled) hclosed)
      intro nested g' hg' e h
      apply grows_get
      apply grows_pure hg'
      refine ⟨Subqueried.qualify hforce ?_, qualifies_qualifyCorrelated g' _⟩
      refine ⟨⟨_, rfl⟩, rfl, rfl, h.compiled, ?_, ?_, h.found⟩
      · intro leaf hleaf
        exact (hb.sourced leaf hleaf).mono e hg (hb.clauses.has_leaves leaf hleaf) h.added
      · intro s hs hkind
        rcases h.held s hs with hold | ⟨_, hheld⟩
        · exact absurd (hb.nested s hold).kind hkind
        · exact hheld

/-- Qualifying the columns of a filtered aggregation changes no more than that. -/
theorem qualifyFiltered_eq (b : Block) :
  ∃ force, b.qualifyFiltered = { b with clauses := { b.clauses with forceAliases := force } }
    ∧ (b.clauses.forceAliases = true → force = true)
  := by
  rw [qualifyFiltered]
  split
  · split
    · exact ⟨true, rfl, fun _ => rfl⟩
    · exact ⟨b.clauses.forceAliases, rfl, id⟩
  · exact ⟨b.clauses.forceAliases, rfl, id⟩

/-- The second block is the first one over the tables `t` with its joins put together, and with a
semi join behind them for each ranking. -/
structure Joined (b : Block) (t : TableSet) (g : Graph) (b' : Block) : Prop where
  rest : b'.clauses = { b.clauses with
    from? := b'.clauses.from?
    predicates := b.clauses.predicates.filter fun p => !isRanking g p }
  fused : b'.folding.fused = b.folding.fused
  outputs : b'.folding.outputs = b.folding.outputs
  join : ∀ j ∈ b'.folding.join, g.isJoin j = true
  source : ∃ node joins more, b'.clauses.from? = some ⟨node, t.first, joins ++ more⟩
    ∧ List.Forall₂ (JoinClause.Lifts b.folding g) t.joins joins
    ∧ (more.map JoinClause.table).Nodup ∧ (∀ c ∈ more, c.table ∉ t.leaves)
    ∧ (∀ c ∈ more, c.kind = .semi)
    ∧ (b.clauses.predicates.filter (isRanking g) = [] → more = [])
  own : ∀ t' ∈ b'.clauses.from?, ∀ c ∈ t'.joins, c.table ∈ t.leaves →
    ∀ p ∈ c.predicates, ∀ u ∈ g.tables p, u ∈ t.leaves
  fresh : ∀ leaf ∈ b'.clauses.leaves, leaf ∉ t.leaves →
    ∀ v ∈ b.clauses.select, v.index < leaf.index

/-- Rankings that have been joined to joins that have been put together before. -/
theorem Ranks.joined {g₁ g₂ : Graph} (hg₁ : g₁.WellFounded) (hg' : g'.WellFounded)
    (e₁ : g.Extends g₁) (e₂ : g₁.Extends g₂) (e : g₂.Extends g') {b b₁ b₂ : Block}
    (hb : b.Valid Q g) {t t' : TableSet} (ht : b.clauses.from? = some t) {bound : Nat}
    (hrebuilt : Rebuilt b.folding bound g₁ t t') {join : Option NodeId}
    (hb₁ : b₁ = { b with
      folding := { b.folding with join }
      clauses := { b.clauses with from? := some t' } })
    (hranks : Ranks Q g₁ t' (b₁.filtering fun p => !isRanking g₁ p) g₂ b₂)
    (hnone : b₁.clauses.predicates.filter (isRanking g₁) = [] →
      b₂ = b₁.filtering fun p => !isRanking g₁ p) :
  Joined b t g' b₂
  := by
  subst hb₁
  have hranking : ∀ p ∈ b.clauses.predicates, isRanking g₁ p = isRanking g' p := by
    intro p hp
    have hhas := hb.clauses.predicates p hp
    rw [(e₂.trans e).isRanking_eq (hhas.mono e₁)]
  have hleaf : ∀ leaf ∈ t.leaves, g₁.Has leaf := fun leaf hleaf =>
    ((hb.clauses.source t ht).leaves leaf hleaf).mono e₁
  obtain ⟨node, more, hfrom, hnodup, hfresh⟩ := hranks.source
  refine ⟨?_, ?_, ?_, ?_, ⟨node, t'.joins, more, ?_, ?_, hnodup, ?_, fun c hc => (hfresh c hc).2,
    ?_⟩, ?_, ?_⟩
  · have hfiltered := List.filter_congr fun p hp => congrArg (!·) (hranking p hp)
    rw [← hfiltered, hranks.rest]
    rfl
  · rw [hranks.rest]
    rfl
  · rw [hranks.rest]
    rfl
  · exact fun j hj => e.isJoin (hranks.valid.join j hj)
  · rw [hfrom, hrebuilt.first]
  · exact hrebuilt.joins.imp fun c c' hc =>
      JoinClause.Lifts.persistent _ c hg₁ hg' (e₂.trans e) hc
  · exact fun c hc hmem => (hfresh c hc).1 (hleaf _ hmem)
  · intro hnil
    have hsource := congrArg (fun b => b.clauses.from?)
      (hnone ((List.filter_congr hranking).trans hnil))
    rw [hfrom] at hsource
    exact List.append_right_eq_self.mp (congrArg TableSet.joins (Option.some.inj hsource))
  · intro t₂ ht₂ c hc hmem p hp u hu
    rw [hfrom, Option.mem_def, Option.some.injEq] at ht₂
    rw [← ht₂] at hc
    rcases List.mem_append.mp hc with hc | hc
    · have hhas := forall₂_right hrebuilt.joins
        (fun c c' hc => forall₂_right hc.predicates fun _ _ hl => hl.target) c hc p hp
      rw [(e₂.trans e).mem_tables_iff hg₁ hg' hhas] at hu
      exact hrebuilt.own c hc p hp u hu
    · exact absurd (hleaf _ hmem) (hfresh c hc).1
  · intro leaf hmem hnew v hv
    have hlt := (hb.clauses.select v hv).mono e₁
    rw [Clauses.leaves, hfrom] at hmem
    rw [← hrebuilt.leaves] at hnew
    rcases List.mem_cons.mp hmem with rfl | hmem
    · exact absurd List.mem_cons_self hnew
    · rw [List.map_append] at hmem
      rcases List.mem_append.mp hmem with hmem | hmem
      · exact absurd (List.mem_cons_of_mem _ hmem) hnew
      · obtain ⟨c, hc, rfl⟩ := List.mem_map.mp hmem
        exact Nat.lt_of_lt_of_le hlt (Nat.le_of_not_lt (hfresh c hc).1)

/-- A block over a FROM clause is completed by lifting its values, its sort keys, and compiling its
subqueries. -/
theorem Joined.completed {b b₂ b₃ b₄ b₅ : Block} {t : TableSet} (h : Joined b t g b₂)
    (hvalues : LiftsValues b₂ g b₃) (horder : LiftsOrder b₃ g b₄)
    (hvalid : b₄.clauses.Valid g) (hsubqueried : Subqueried Q b₄ g b₅)
    (hqualifies : Select.Qualifies g ⟨b₅.clauses, b₅.nested⟩) :
  Completed Q b t g b₅.qualifyFiltered
  := by
  obtain ⟨force, hforced, hkeeps⟩ := b₅.qualifyFiltered_eq
  rw [hforced]
  obtain ⟨force', hforce'⟩ := hsubqueried.clauses
  have hfolding₃ : b₅.folding = b₃.folding := by
    rw [hsubqueried.folding, horder.rest]
  have hfolding : b₅.folding = b₂.folding := by
    rw [hfolding₃, hvalues.rest]
  have hclauses : b₅.clauses = { b.clauses with
      select := b₃.clauses.select
      from? := b₂.clauses.from?
      predicates := b₃.clauses.predicates
      having := b₃.clauses.having
      orderBy := b₄.clauses.orderBy
      forceAliases := force' } := by
    rw [hforce', horder.rest, hvalues.rest, h.rest]
  have hpredicates : b₅.clauses.predicates = b₄.clauses.predicates := by rw [hforce']
  have hfrom : b₅.clauses.from? = b₂.clauses.from? := by rw [hclauses]
  have hkeys : b₃.clauses.orderBy = b.clauses.orderBy := by rw [hvalues.rest, h.rest]
  refine ⟨?_, ?_, ?_, ?_, ?_, ?_, ?_, ?_, ?_, ?_, hsubqueried.nested, ?_, ?_, ?_, ?_, ?_, ?_⟩
  · simp only [hforce']
    exact ⟨hvalid.select, hvalid.source, hvalid.predicates, hvalid.having, hvalid.orderBy⟩
  · simp only [hclauses]
  · simp only [hfolding, h.fused]
  · simp only [hfolding, h.outputs]
  · simp only [hfrom]
    exact h.source
  · rw [hfolding]
    exact h.join
  · have hselect := hvalues.select
    rw [h.rest] at hselect
    simp only [hclauses, hfolding]
    exact hselect
  · have hfiltered := hvalues.predicates
    rw [h.rest] at hfiltered
    simp only [hclauses, hfolding]
    exact hfiltered
  · have hhaving := hvalues.having
    rw [h.rest] at hhaving
    simp only [hclauses, hfolding]
    exact hhaving
  · simp only [hclauses, hfolding₃, ← hkeys]
    exact horder.orderBy
  · intro leaf hleaf
    apply hsubqueried.sourced leaf
    rw [Clauses.leaves, ← show b₅.clauses.from? = b₄.clauses.from? by rw [hforce']]
    exact hleaf
  · simp only [hpredicates]
    exact hsubqueried.held
  · simp only [hpredicates]
    exact hsubqueried.found
  · simp only [hfrom]
    exact h.own
  · intro leaf hleaf
    apply h.fresh leaf
    rw [Clauses.leaves, ← hfrom]
    exact hleaf
  · intro s hs hkind hcorrelated
    obtain ⟨hblock, hsubquery⟩ := hqualifies s hs hkind hcorrelated
    exact ⟨hkeeps hblock, hsubquery⟩

/-- Completing a block over a FROM clause. -/
theorem grows_complete (hQ : Q.Persistent) (hforce : Q.Qualifies)
    {compile : List (List NodeId) → NodeId → Analysis Query}
    (hcompile : ∀ enclosing, Q.Meets (compile enclosing)) (enclosing : List (List NodeId))
    (hg : g.WellFounded) {b : Block} (hb : b.Valid Q g) {t : TableSet}
    (ht : b.clauses.from? = some t) :
  Grows (Completed Q b t) (b.complete compile enclosing) g
  := by
  rw [complete]
  apply grows_bind (grows_rebuildJoins hg hb ht)
  rintro b₁ g₁ hg₁ e₁ ⟨t', join, hrebuilt, hjoin, _, hb₁⟩
  have hvalid₁ : b₁.Valid Q g₁ := hb₁ ▸ hrebuilt.valid hQ hg hg₁ e₁ hb ht hjoin
  have ht₁ : b₁.clauses.from? = some t' := by rw [hb₁]
  apply grows_bind (grows_joinRankings hQ (hcompile enclosing) hg₁ hvalid₁ ht₁)
  rintro b₂ g₂ hg₂ e₂ ⟨hranks, hnone⟩
  have hvalid₂ := hranks.valid
  apply grows_bind (grows_liftValues hg₂ hvalid₂.clauses
    fun j hj => Graph.has_of_isJoin (hvalid₂.join j hj))
  intro b₃ g₃ hg₃ e₃ hvalues
  have hvalid₃ := hvalues.valid (hvalid₂.mono hQ hg₂ hg₃ e₃)
  apply grows_bind (grows_liftOrder hg₃ hvalid₃.clauses)
  intro b₄ g₄ hg₄ e₄ horder
  have hvalid₄ := horder.valid (hvalid₃.mono hQ hg₃ hg₄ e₄)
  apply grows_bind (grows_extractSubqueries hQ hforce hcompile enclosing hg₄ hvalid₄)
  rintro b₅ g₅ hg₅ e₅ ⟨hsubqueried, hqualifies⟩
  apply grows_pure hg₅
  have hjoined : Joined b t g₅ b₂ :=
    hranks.joined hg₁ hg₅ e₁ e₂ ((e₃.trans e₄).trans e₅) hb ht hrebuilt hb₁ hnone
  exact hjoined.completed (hvalues.mono hg₃ hg₅ (e₄.trans e₅)) (horder.mono hg₄ hg₅ e₅)
    (hvalid₄.clauses.mono e₅) hsubqueried hqualifies

/-! ### The block of a table -/

/-- The block into which the limits, the sorts and the distinct at the top of a table are
folded, and the table below them. -/
def top (g : Graph) (node : NodeId) : Block × NodeId :=
  let limits := g.chain Graph.limitInput? node
  let sorts := g.chain Graph.sortInput? limits.2
  (((ofNode node).limited g limits.1).sorted sorts.1 (g.topKeys sorts.1)).distinctOf g sorts.2

/-- The table below the top of a table is there. -/
theorem has_top (hg : g.WellFounded) {node : NodeId} (hnode : g.Has node) :
  g.Has (top g node).2
  := by
  have hlimits := hg.has_chain Graph.follows_limit hnode
  have hsorts := hg.has_chain Graph.follows_sort hlimits
  simp only [top, distinctOf]
  split
  case h_1 t hn =>
      apply hg.has_child hsorts
      rw [hn]
      exact List.mem_singleton_self t
  · exact hsorts

/-- What is folded at the top of a table comes after the table below. -/
theorem lt_of_mem_top (hg : g.WellFounded) (node : NodeId) :
  ∀ n ∈ (top g node).1.folding.fused, (top g node).2.index < n.index
  := by
  have hsorts := hg.chain_le Graph.follows_sort (g.chain Graph.limitInput? node).2
  have habove : ∀ n ∈ (g.chain Graph.limitInput? node).1
        ++ (g.chain Graph.sortInput? (g.chain Graph.limitInput? node).2).1,
      (g.chain Graph.sortInput? (g.chain Graph.limitInput? node).2).2.index < n.index := by
    intro n hn
    rcases List.mem_append.mp hn with hn | hn
    · exact Nat.lt_of_le_of_lt hsorts (hg.lt_of_mem_chain Graph.follows_limit node n hn)
    · exact hg.lt_of_mem_chain Graph.follows_sort _ n hn
  simp only [top, distinctOf]
  split
  case h_1 t hn =>
      have ht := hg.child_lt (c := t) (by rw [hn]; exact List.mem_singleton_self t)
      intro n hmem
      rcases List.mem_append.mp hmem with hmem | hmem
      · exact Nat.lt_trans ht (habove n hmem)
      · rw [List.mem_singleton.mp hmem]
        exact ht
  · exact habove

/-- What is folded at the top of a table of which nothing else is folded yet. -/
theorem top_eq (g : Graph) (node : NodeId) :
  (top g node).1.clauses.from? = none
    ∧ (top g node).1.clauses.predicates = []
    ∧ (top g node).1.clauses.having = []
    ∧ (top g node).1.clauses.select = []
    ∧ (top g node).1.nested = []
    ∧ (top g node).1.folding.join = none
    ∧ (top g node).1.clauses.orderBy
      = g.topKeys (g.chain Graph.sortInput? (g.chain Graph.limitInput? node).2).1
  := by
  simp only [top, distinctOf]
  split <;> simp [sorted, limited, foldAll, fold, ofNode, Clauses.ofNode, Folding.empty]

/-- The block of the top of a table is valid. -/
theorem top_valid (hg : g.WellFounded) {node : NodeId} (hnode : g.Has node) :
  (top g node).1.Valid Q g
  := by
  have hlimits := hg.has_chain Graph.follows_limit hnode
  obtain ⟨hfrom, hpredicates, hhaving, hselect, hnested, hjoin, horder⟩ := top_eq g node
  refine ⟨⟨?_, ?_, ?_, ?_, ?_⟩, ?_, ?_, ?_⟩
  · rw [hselect]
    nofun
  · rw [hfrom]
    nofun
  · rw [hpredicates]
    nofun
  · rw [hhaving]
    nofun
  · rw [horder]
    exact hg.has_topKeys (hg.has_of_mem_chain Graph.follows_sort hlimits)
  · rw [hjoin]
    nofun
  · rw [hnested]
    nofun
  · intro leaf hleaf
    rw [Clauses.leaves, hfrom] at hleaf
    exact absurd hleaf List.not_mem_nil

/-- The same is folded at the top of a table when the graph grows. -/
theorem top_extends (e : g.Extends g') (hg : g.WellFounded) (hg' : g'.WellFounded)
    {node : NodeId} (hnode : g.Has node) :
  top g' node = top g node
  := by
  have hlimits := hg.has_chain Graph.follows_limit hnode
  have hsorts := hg.has_chain Graph.follows_sort hlimits
  have houter : g'.outerLimit (g.chain Graph.limitInput? node).1
      = g.outerLimit (g.chain Graph.limitInput? node).1 := by
    have hhas := hg.has_of_mem_chain Graph.follows_limit hnode
    rw [Graph.outerLimit, Graph.outerLimit]
    cases hl : (g.chain Graph.limitInput? node).1 with
    | nil => rfl
    | cons n rest =>
        have hn : g.Has n := hhas n (by rw [hl]; exact List.mem_cons_self)
        simp only [List.head?_cons, Option.map_some, e.node_eq hn]
  have hkeys : g'.topKeys (g.chain Graph.sortInput? (g.chain Graph.limitInput? node).2).1
      = g.topKeys (g.chain Graph.sortInput? (g.chain Graph.limitInput? node).2).1 := by
    have hhas := hg.has_of_mem_chain Graph.follows_sort hlimits
    rw [Graph.topKeys, Graph.topKeys]
    cases hl : (g.chain Graph.sortInput? (g.chain Graph.limitInput? node).2).1 with
    | nil => rfl
    | cons n rest =>
        have hn : g.Has n := hhas n (by rw [hl]; exact List.mem_cons_self)
        simp only [List.head?_cons, Option.map_some, Graph.sortKeysOf, e.node_eq hn]
  rw [top, top, e.chain_eq Graph.follows_limit hg hg' hnode,
    e.chain_eq Graph.follows_sort hg hg' hlimits]
  simp only [limited, houter, hkeys, distinctOf, e.node_eq hsorts]

/-- A block is that of a table: its core is built below the top of the table, over the FROM
clause of a join tree whose hoisted predicates it takes over, and completed. -/
inductive OfTable (Q : QuerySpec) (g : Graph) (node : NodeId) (b : Block) : Prop where
  | intro {built : Block} {source : NodeId} {rest : List NodeId} (hsource : g.Has source)
      (hbuilt : Built Q (top g node).1 (top g node).2 g built)
      (hfrom : built.clauses.from? = some (g.joinTree source).tables)
      (hpredicates : built.clauses.predicates = (g.joinTree source).hoisted ++ rest)
      (hcompleted : Completed Q built (g.joinTree source).tables g b)

/-- A block stays completed when the graph grows, if its subqueries have been compiled to values
that are there. -/
theorem Completed.mono (hQ : Q.Persistent) (e : g.Extends g') (hg : g.WellFounded)
    (hg' : g'.WellFounded) {b b' : Block} {t : TableSet} (hb : ∀ p ∈ b.clauses.predicates, g.Has p)
    (hinner : ∀ s ∈ b'.nested, s.query.first.clauses.Valid g) (h : Completed Q b t g b') :
  Completed Q b t g' b'
  := by
  have hlifts : ∀ {xs ys : List NodeId}, List.Forall₂ (b'.folding.Lifts .substitute g) xs ys →
      List.Forall₂ (b'.folding.Lifts .substitute g') xs ys :=
    fun hxs => hxs.imp fun p l hl => Folding.Lifts.persistent p hg hg' e hl
  have hranking : b.clauses.predicates.filter (isRanking g')
      = b.clauses.predicates.filter (isRanking g) :=
    List.filter_congr fun p hp => e.isRanking_eq (hb p hp)
  have hplain : (b.clauses.predicates.filter fun p => !isRanking g' p)
      = b.clauses.predicates.filter fun p => !isRanking g p :=
    List.filter_congr fun p hp => by rw [e.isRanking_eq (hb p hp)]
  obtain ⟨node, joins, more, hfrom, hjoins, hnodup, hfresh, hsemi, hnone⟩ := h.source
  refine ⟨h.valid.mono e, h.rest, h.fused, h.outputs, ⟨node, joins, more, hfrom, ?_, hnodup, hfresh,
    hsemi, ?_⟩, fun j hj => e.isJoin (h.join j hj), ?_, ?_, hlifts h.having, ?_, ?_, ?_, ?_, ?_, ?_,
    h.fresh, ?_⟩
  · exact hjoins.imp fun c c' hc => JoinClause.Lifts.persistent _ c hg hg' e hc
  · rw [hranking]
    exact hnone
  · exact h.select.imp fun item l hl => Folding.LiftsSelected.persistent _ item hg hg' e hl
  · rw [hplain]
    exact hlifts h.predicates
  · exact h.orderBy.imp fun k k' hk => Folding.LiftsKey.persistent _ k hg hg' e hk
  · exact fun s hs => (h.nested s hs).mono hQ e hg hg'
  · exact fun leaf hl =>
      (h.sourced leaf hl).mono e hg (h.valid.has_leaves leaf hl) (List.prefix_refl _)
  · intro s hs hkind
    obtain ⟨p, hp, hextracts⟩ := h.held s hs hkind
    exact ⟨p, hp, hextracts.mono e hg hg' (h.valid.predicates p hp)⟩
  · intro p hp v hv
    exact h.found p hp v (hv.restrict e hg hg' (h.valid.predicates p hp))
  · intro t' ht' c hc hleaf p hp u hu
    rw [e.mem_tables_iff hg hg' ((h.valid.source t' ht').predicates c hc p hp)] at hu
    exact h.own t' ht' c hc hleaf p hp u hu
  · intro s hs hkind hcorrelated
    rw [isCorrelated_extends e hg hg' (hinner s hs)] at hcorrelated
    exact h.qualifies s hs hkind hcorrelated

/-- A block stays that of a table when the graph grows. -/
theorem OfTable.mono (hQ : Q.Persistent) (e : g.Extends g') (hg : g.WellFounded)
    (hg' : g'.WellFounded) {node : NodeId} (hnode : g.Has node) {b : Block}
    (hinner : ∀ s ∈ b.nested, s.query.first.clauses.Valid g) (h : OfTable Q g node b) :
  OfTable Q g' node b
  := by
  obtain @⟨built, source, rest, hsource, hbuilt, hfrom, hpredicates, hcompleted⟩ := h
  have htop := has_top hg hnode
  have htree := e.joinTree_eq hg hg' hsource
  obtain ⟨hvalid, _⟩ := hbuilt.valid hg htop (top_valid hg hnode)
  refine @OfTable.intro _ _ _ _ built source rest (hsource.mono e) ?_ ?_ ?_ ?_
  · rw [top_extends e hg hg' hnode]
    exact hbuilt.mono hQ e hg hg' htop
  · rw [htree, hfrom]
  · rw [htree, hpredicates]
  · rw [htree]
    exact hcompleted.mono hQ e hg hg' hvalid.clauses.predicates hinner

/-- What building the block of a table gives. -/
theorem grows_ofTable (hQ : Q.Persistent) (hforce : Q.Qualifies)
    {compile : List (List NodeId) → NodeId → Analysis Query}
    (hcompile : ∀ enclosing, Q.Meets (compile enclosing)) (enclosing : List (List NodeId))
    (hg : g.WellFounded) {node : NodeId} (hnode : g.Has node) :
  Grows (fun g' b => OfTable Q g' node b) (ofTable compile enclosing node) g
  := by
  have hvalid := top_valid (Q := Q) hg hnode
  have htop := has_top hg hnode
  rw [ofTable]
  apply grows_run (run_foldLimits _ node g)
  apply grows_run (run_foldTopSorts _ _ g)
  apply grows_run (run_foldDistinct _ _ g)
  apply grows_bind (grows_core hQ (hcompile enclosing) hg htop hvalid.nested)
  intro built g₁ hg₁ e₁ hbuilt
  obtain ⟨hvalid₁, source, rest, hsource, hfrom, hpredicates⟩ :=
    hbuilt.valid hg₁ (htop.mono e₁) (hvalid.mono hQ hg hg₁ e₁)
  apply (grows_complete hQ hforce hcompile enclosing hg₁ hvalid₁ hfrom).imp
  intro b g₂ hg₂ e₂ hcompleted
  have htree := e₂.joinTree_eq hg₁ hg₂ hsource
  refine @OfTable.intro _ _ _ _ built _ rest (hsource.mono e₂) ?_ ?_ ?_ ?_
  · rw [top_extends (e₁.trans e₂) hg hg₂ hnode]
    exact hbuilt.mono hQ e₂ hg₁ hg₂ (htop.mono e₁)
  · rw [htree, hfrom]
  · rw [htree, hpredicates]
  · rw [htree]
    exact hcompleted

end Block

end RelSql
