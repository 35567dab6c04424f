import RelSql.Proofs.Block.Boundaries
import RelSql.Proofs.Join.Conditions
import RelSql.Proofs.Lift.Handles
import RelSql.Proofs.Nesting.Termination
import RelSql.Proofs.Relational.Faults

/-!
# Foreign conditions

An expression draws on the joins that are compiled for it: those at the sources of its blocks, below
its operators, set operations and views, and below the tables that other joins join.  A predicate of
such joins may read a column that comes from a table which they do not join.  The analysis of the
expression fails then.
-/

namespace RelSql

open Relation

variable {g g' : Graph} {id s t source : NodeId}

/-! ### Columns of extended graphs -/

/-- A column comes from the same table when the graph grows. -/
theorem Folding.ComesFrom.mono {f : Folding} {name : String} {u : NodeId} (hg : g.WellFounded)
    (hg' : g'.WellFounded) (e : g.Extends g') (ht : g.Has t) (h : f.ComesFrom g t name u) :
  f.ComesFrom g' t name u
  := by
  obtain ⟨hpassed, hkept⟩ := h
  have hreached : g.Has u ∧ ReflTransGen (f.Passes g' name) t u := by
    clear hkept
    induction hpassed with
    | refl => exact ⟨ht, .refl⟩
    | @tail v w _ hstep ih =>
        obtain ⟨hv, hpassed⟩ := ih
        refine ⟨Nat.lt_trans ((fate_lt hg f .substitute v name).1 w hstep) hv, hpassed.tail ?_⟩
        rw [Folding.Passes, fate_extends e hg hg' hv]
        exact hstep
  exact ⟨hreached.2, (fate_extends e hg hg' hreached.1 name).trans hkept⟩

namespace Graph

/-! ### Joins that are drawn on -/

/-- What a node is compiled from next: the input of an operator, the table of a view, the sides of a
set operation, the tables that a join joins, and the table that a value reads first. -/
def bases (g : Graph) (id : NodeId) : List NodeId :=
  match g.node id with
  | .join _ _ _ _ => (g.joinTree id).leaves
  | .view t => [t]
  | .union l r _ => [l, r]
  | n => if n.isRelation then (foldedInput? n).toList else (g.baseTable id).toList

/-- The node is compiled from the table `s`, directly or not. -/
def Draws (g : Graph) (id s : NodeId) : Prop :=
  ReflTransGen (fun u t => t ∈ g.bases u) id s

theorem bases_of_input (ht : foldedInput? (g.node id) = some t) :
  g.bases id = [t]
  := by
  rw [bases]
  cases hn : g.node id <;> rw [hn] at ht <;> cases ht <;> rfl

theorem bases_of_value (hr : g.isRelation id = false) :
  g.bases id = (g.baseTable id).toList
  := by
  rw [isRelation] at hr
  rw [bases]
  cases hn : g.node id <;> rw [hn] at hr <;> first | rfl | cases hr

/-- What a node of the graph is compiled from is there. -/
theorem WellFounded.has_bases (hg : g.WellFounded) (hid : g.Has id) (ht : t ∈ g.bases id) :
  g.Has t
  := by
  have hchild := fun c => hg.has_child hid (c := c)
  rw [bases] at ht
  split at ht
  case h_1 => exact (hg.has_joinTree hid).1 t ht
  case h_2 hn =>
      apply hchild
      rw [hn]
      exact ht
  case h_3 hn =>
      apply hchild
      rw [hn]
      exact ht
  case h_4 =>
      split at ht
      · apply hchild
        rw [Option.mem_toList] at ht
        cases hn : g.node id <;> rw [hn] at ht <;> cases ht <;> exact List.mem_cons_self
      · exact has_of_base hg hid ((baseTable_eq hg hid).symm.trans (Option.mem_toList.mp ht))

theorem Extends.bases_eq (e : g.Extends g') (hg : g.WellFounded) (hg' : g'.WellFounded)
    (hid : g.Has id) :
  g'.bases id = g.bases id
  := by
  rw [bases, bases, e.node_eq hid, e.joinTree_eq hg hg' hid, e.baseTable_eq hg hg' hid]

/-- A node draws on the same tables when the graph grows. -/
theorem Draws.mono (e : g.Extends g') (hg : g.WellFounded) (hg' : g'.WellFounded)
    (hid : g.Has id) (h : g.Draws id s) :
  g.Has s ∧ g'.Draws id s
  := by
  induction h with
  | refl => exact ⟨hid, .refl⟩
  | @tail u t _ ht ih =>
      obtain ⟨hu, hdraws⟩ := ih
      refine ⟨hg.has_bases hu ht, hdraws.tail ?_⟩
      rw [e.bases_eq hg hg' hu]
      exact ht

/-- An operator draws on the joins that its input draws on. -/
theorem Draws.input (hs : g.isJoin s = true) (ht : foldedInput? (g.node id) = some t)
    (h : g.Draws id s) :
  g.Draws t s
  := by
  rcases h.cases_head with rfl | ⟨u, hu, h⟩
  · rw [isJoin] at hs
    cases hn : g.node id <;> rw [hn] at ht hs <;> cases ht <;> cases hs
  · rw [bases_of_input ht, List.mem_singleton] at hu
    exact hu ▸ h

/-- A view draws on the joins that its table draws on. -/
theorem Draws.body (hs : g.isJoin s = true) (h : g.Draws id s) :
  g.Draws (g.body id) s
  := by
  rw [Graph.body]
  split
  case h_1 t hn =>
      rcases h.cases_head with rfl | ⟨u, hu, h⟩
      · rw [isJoin, hn] at hs
        cases hs
      · rw [bases, hn, List.mem_singleton] at hu
        exact hu ▸ h
  · exact h

/-- A physical table draws on no joins. -/
theorem not_draws_of_table (hs : g.isJoin s = true) {table : Table} (hn : g.node id = .table table) :
  ¬ g.Draws id s
  := by
  intro h
  rcases h.cases_head with rfl | ⟨u, hu, _⟩
  · rw [isJoin, hn] at hs
    cases hs
  · rw [bases, hn] at hu
    exact absurd hu List.not_mem_nil

/-- A table draws on the joins at itself or on those that one of the tables joined there does. -/
theorem Draws.leaves (hg : g.WellFounded) (h : g.Draws id s) :
  id = s ∨ ∃ leaf ∈ (g.joinTree id).leaves, g.Draws leaf s
  := by
  cases hjoin : g.isJoin id with
  | false =>
      refine .inr ⟨id, ?_, h⟩
      rw [joinTree_other hg hjoin]
      exact List.mem_singleton_self id
  | true =>
      refine h.cases_head.imp_right ?_
      rintro ⟨t, ht, h⟩
      rw [isJoin] at hjoin
      rw [bases] at ht
      split at hjoin
      case h_1 hn =>
          simp only [hn] at ht
          exact ⟨t, ht, h⟩
      · cases hjoin

theorem draws_of_input (ht : foldedInput? (g.node id) = some t) (h : g.Draws t s) :
  g.Draws id s
  := by
  refine .head ?_ h
  rw [bases_of_input ht]
  exact List.mem_singleton_self t

/-- So do the operators of a chain. -/
theorem Draws.chain {next? : Node → Option NodeId} (hnext : Follows next?) (hg : g.WellFounded)
    (hinput : ∀ n t, next? n = some t → foldedInput? n = some t) (hs : g.isJoin s = true)
    (id : NodeId) :
  g.Draws id s → g.Draws (g.chain next? id).2 s
  := by
  apply chain_induction hnext hg (P := fun id => g.Draws id s → g.Draws (g.chain next? id).2 s)
  · intro id ht h
    rw [chain_end hnext hg ht]
    exact h
  · intro id t ht ih h
    rw [chain_next hnext hg ht]
    exact ih (h.input hs (hinput _ t ht))

theorem Draws.sorts (hg : g.WellFounded) (hs : g.isJoin s = true) (h : g.Draws id s) :
  g.Draws (g.chain sortInput? id).2 s
  := by
  refine h.chain follows_sort hg (fun n t ht => ?_) hs
  cases n <;> cases ht
  rfl

theorem Draws.peel (hg : g.WellFounded) (hs : g.isJoin s = true) (h : g.Draws id s) :
  g.Draws (g.peel id).table s
  := by
  refine h.chain follows_selection hg (fun n t ht => ?_) hs
  cases n <;> cases ht
  rfl

theorem Draws.operand (hg : g.WellFounded) (hs : g.isJoin s = true) (hoist left : Bool)
    (h : g.Draws id s) :
  g.Draws (g.operand id hoist left).table s
  := by
  rw [Graph.operand]
  split
  · exact h.peel hg hs
  · exact h

/-- A projection that has been fused draws on the joins that the given one does. -/
theorem FusesTo.draws (hg : g.WellFounded) (hs : g.isJoin s = true) {core : NodeId}
    {fs : List Fused} (h : g.FusesTo id fs core) (hd : g.Draws id s) :
  g.Draws core s
  := by
  induction h with
  | nil => exact hd
  | @cons projection core f fs hfuses _ ih =>
      obtain ⟨hprojection, hinner, _, _, _, hnode, _, hsource⟩ := hfuses
      have htable := ((hd.input hs (by rw [hprojection]; rfl)).peel hg hs).input hs
        (by rw [hinner]; rfl)
      apply ih
      apply draws_of_input (by rw [hnode]; rfl)
      cases hsource with
      | all => exact htable
      | filtered _ hsource => exact draws_of_input (by rw [hsource]; rfl) htable

end Graph

/-! ### Joins that are put together -/

namespace Block

/-- What the table of a block draws on, the source of the block draws on. -/
theorem draws_top (hg : g.WellFounded) (hs : g.isJoin s = true) (h : g.Draws id s) :
  g.Draws (top g id).2 s
  := by
  have hlimits : g.Draws (g.chain Graph.limitInput? id).2 s := by
    refine h.chain Graph.follows_limit hg (fun n t ht => ?_) hs
    cases n <;> cases ht
    rfl
  have hsorts := hlimits.sorts hg hs
  rw [top, distinctOf]
  split
  case h_1 t hn => exact hsorts.input hs (by rw [hn]; rfl)
  · exact hsorts

theorem Layout.draws (hg : g.WellFounded) (hs : g.isJoin s = true) {old : Graph} {c : Clauses}
    {ops : List NodeId} (h : Layout old g id c ops source) (hd : g.Draws id s) :
  g.Draws source s
  := by
  have hpeel := hd.peel hg hs
  cases h with
  | @aggregation input keys metrics having hn =>
      exact (hpeel.input hs (by rw [hn]; rfl)).operand hg hs true true
  | projection hn hfuses _ hcore =>
      have hinput := (hfuses.draws hg hs hpeel).input hs (by rw [hcore]; rfl)
      exact (hinput.sorts hg hs).operand hg hs true true
  | other => exact hpeel

end Block

/-- The joins at `s` have been put together: the predicates of their clauses are lifted, and read
tables of the joins only. -/
inductive Graph.PutsTogether (g : Graph) (s : NodeId) : Prop where
  | intro {f : Folding} {own : List JoinClause}
      (hfolded : ∀ u : NodeId, u.index ≤ s.index →
        (f.contains u = true ↔ u ∈ (g.joinTree s).folded))
      (hown : List.Forall₂ (JoinClause.Lifts f g) (g.joinTree s).clauses own)
      (hreads : ∀ c ∈ own, ∀ p ∈ c.predicates, ∀ u ∈ g.tables p, u ∈ (g.joinTree s).leaves) :
    PutsTogether g s

/-- The joins that the block of a table is drawn from are put together, and all joins that its
derived tables draw on, if they are put together where the derived tables are compiled. -/
theorem Block.Origin.putsTogether (hg : g.WellFounded) {old : Graph} {B : Block}
    (h : B.Origin old g id) (hs : g.isJoin s = true) (hd : g.Draws id s)
    (hnested : ∀ q ∈ B.nested, ∀ table, QuerySpec.compilation g table q.query →
      g.Draws table s → g.PutsTogether s) :
  g.PutsTogether s
  := by
  obtain ⟨built, ops, source, hlayout, _, hfolded, hcompleted, hassembles⟩ := h.layout hg
  obtain @⟨_, _, _, own, ranked, _, _, _, hfrom, hown, _, hreads, _⟩ := hassembles
  have hsource := hlayout.draws hg hs (draws_top hg hs hd)
  rcases hsource.leaves hg with rfl | ⟨leaf, hleaf, hd⟩
  · rw [JoinTree.leaves_tables] at hreads
    exact .intro (hfolded hs) hown hreads
  · have hmem : leaf ∈ B.clauses.leaves := by
      rw [← JoinTree.leaves_tables] at hleaf
      rw [Clauses.leaves, hfrom]
      simp only [TableSet.leaves, List.map_append, ← List.cons_append,
        JoinClause.tables_of_lifts hown]
      exact List.mem_append_left _ hleaf
    rcases supplied_of_sourced hcompleted.nested (hcompleted.sourced leaf hmem) with
      ⟨table, hn⟩ | ⟨q, hq, _, _, hcompiled⟩
    · exact absurd (hd.body hs) (Graph.not_draws_of_table hs hn)
    · exact hnested q hq _ hcompiled (hd.body hs)

/-- Compiling a table puts the joins together that it draws on. -/
theorem QuerySpec.putsTogether (hg : g.WellFounded) (hs : g.isJoin s = true) (q : Query) :
    ∀ id, compilation g id q → g.Draws id s → g.PutsTogether s := by
  induction q using Query.induction with
  | select c nested ih =>
      intro id h hd
      obtain ⟨_, _, _, _, _, _, _, _, hq⟩ | ⟨old, B, force, horigin, hq⟩ :=
        origin_of_compilation hg h
      · cases hq
      · cases hq
        exact horigin.putsTogether hg hs hd fun q hq table => ih q hq table
  | union l r distinct hl hr =>
      intro id h hd
      obtain ⟨_, _, _, _, _, hn, hleft, hright, hq⟩ | ⟨_, _, _, _, hq⟩ :=
        origin_of_compilation hg h
      · cases hq
        rcases hd.cases_head with rfl | ⟨t, ht, hd⟩
        · rw [Graph.isJoin, hn] at hs
          cases hs
        · rw [Graph.bases, hn] at ht
          rcases List.mem_cons.mp ht with rfl | ht
          · exact hl _ hleft hd
          · exact hr _ hright (List.mem_singleton.mp ht ▸ hd)
      · cases hq

/-! ### Expressions -/

/-- The joins that a node draws on are put together. -/
def Graph.Joined (g : Graph) (id : NodeId) : Prop :=
  ∀ s, g.isJoin s = true → g.Draws id s → g.PutsTogether s

namespace Analysis

variable {root : NodeId}

theorem grows_queryOf_joined (hg : g.WellFounded) (hid : g.Has id) :
  Grows (fun g' _ => g'.Joined id) (queryOf id) g
  := by
  apply (QuerySpec.compilation_meets_queryOf id g hg hid).imp
  exact fun q g' hg' _ h s hs hd => QuerySpec.putsTogether hg' hs q id h hd

/-- A value draws on the joins that the table does that it reads first, and on none if it reads
none. -/
theorem joined_of_value (hr : g.isRelation root = false)
    (h : ∀ t ∈ g.baseTable root, g.Joined t) :
  g.Joined root
  := by
  intro s hs hd
  rcases hd.cases_head with rfl | ⟨t, ht, hd⟩
  · rw [Graph.isRelation] at hr
    rw [Graph.isJoin] at hs
    split at hs
    case h_1 hn =>
        rw [hn] at hr
        cases hr
    · cases hs
  · rw [Graph.bases_of_value hr, Option.mem_toList] at ht
    exact h t ht s hs hd

/-- The query of an operator over the table that a value reads first. -/
theorem grows_queryOf_value {α : Type} (hg : g.WellFounded) (hroot : g.Has root)
    (hr : g.isRelation root = false) (hbase : g.baseTable root = some t) {n : Node}
    (hn : Graph.foldedInput? n = some t) (hchildren : ∀ c ∈ n.children, g.Has c)
    {f : Query → α} :
  Grows (fun g' _ => g'.Joined root)
    (do
      let table ← push n
      return f (← queryOf table)) g
  := by
  apply grows_bind (grows_push hg hchildren)
  rintro table g₁ hg₁ e₁ ⟨htable, hnode, _⟩
  apply grows_bind (grows_queryOf_joined hg₁ htable)
  intro q g₂ hg₂ e₂ hjoined
  have e := e₁.trans e₂
  apply grows_pure hg₂
  apply joined_of_value ((e.isRelation_eq hroot).trans hr)
  intro u hu s hs hd
  obtain rfl := Option.some.inj (hu.symm.trans ((e.baseTable_eq hg hg₂ hroot).trans hbase))
  refine hjoined s hs (Graph.draws_of_input ?_ hd)
  rw [e₂.node_eq htable, hnode]
  exact hn

/-- The query of a value from no table. -/
theorem joined_of_constant (e : g.Extends g') (hg : g.WellFounded) (hg' : g'.WellFounded)
    (hroot : g.Has root) (hr : g.isRelation root = false) (hbase : g.baseTable root = none) :
  g'.Joined root
  := by
  apply joined_of_value ((e.isRelation_eq hroot).trans hr)
  intro t ht
  rw [e.baseTable_eq hg hg' hroot, hbase] at ht
  cases ht

theorem grows_valueQuery_joined (hg : g.WellFounded) (hroot : g.Has root)
    (hr : g.isRelation root = false) :
  Grows (fun g' _ => g'.Joined root) (valueQuery root) g
  := by
  rw [valueQuery]
  apply grows_bind (grows_withName hg hroot)
  rintro value g₁ hg₁ e₁ ⟨hvalue, _⟩
  have hroot₁ := hroot.mono e₁
  have hr₁ := (e₁.isRelation_eq hroot).trans hr
  apply grows_get
  split
  case h_1 hbase =>
      apply grows_bind (grows_constantQuery (Q := .compilation) hg₁
        (List.forall_mem_singleton.mpr hvalue))
      intro q g₂ hg₂ e₂ _
      exact grows_pure hg₂ (joined_of_constant e₂ hg₁ hg₂ hroot₁ hr₁ hbase)
  case h_2 t hbase =>
      have hchildren : ∀ c ∈ [t, value], g₁.Has c :=
        List.forall_mem_cons.mpr
          ⟨has_of_baseTable hg₁ hroot₁ hbase, List.forall_mem_singleton.mpr hvalue⟩
      split
      · exact grows_queryOf_value hg₁ hroot₁ hr₁ hbase (n := .aggregation t [] [value] []) rfl
          hchildren
      · exact grows_queryOf_value hg₁ hroot₁ hr₁ hbase (n := .projection t [value]) rfl hchildren

theorem grows_listQuery_joined (hg : g.WellFounded) (hroot : g.Has root)
    (hr : g.isRelation root = false) {exprs : List NodeId} (hexprs : ∀ e ∈ exprs, g.Has e) :
  Grows (fun g' _ => g'.Joined root) (do return (← listQuery root exprs, Handler.table)) g
  := by
  simp only [listQuery, bind_assoc]
  apply grows_bind
    (grows_mapM (R := fun g (_ : NodeId) v => g.Has v) (fun _ _ _ _ _ _ e h => h.mono e) exprs hg
      fun e he g' hg' e' => (grows_withName hg' ((hexprs e he).mono e')).imp
        fun _ _ _ _ h => h.1)
  intro values g₁ hg₁ e₁ hvalues
  have hroot₁ := hroot.mono e₁
  have hr₁ := (e₁.isRelation_eq hroot).trans hr
  have hhas := forall₂_right hvalues fun _ _ h => h
  apply grows_get
  split
  case h_1 t hbase =>
      simp only [bind_assoc]
      exact grows_queryOf_value hg₁ hroot₁ hr₁ hbase (n := .projection t values) rfl
        (List.forall_mem_cons.mpr ⟨has_of_baseTable hg₁ hroot₁ hbase, hhas⟩)
  case h_2 hbase =>
      apply grows_bind (grows_constantQuery (Q := .compilation) hg₁ hhas)
      intro q g₂ hg₂ e₂ _
      exact grows_pure hg₂ (joined_of_constant e₂ hg₁ hg₂ hroot₁ hr₁ hbase)

/-- The joins that an expression draws on are put together when it is compiled. -/
theorem grows_rootQuery_joined (hg : g.WellFounded) (hroot : g.Has root) :
  Grows (fun g' _ => g'.Joined root) (rootQuery root) g
  := by
  have htable : ∀ handler : Handler,
      Grows (fun g' _ => g'.Joined root) (do return (← queryOf root, handler)) g := by
    intro handler
    apply grows_bind (grows_queryOf_joined hg hroot)
    exact fun q g' hg' _ hjoined => grows_pure hg' hjoined
  rw [rootQuery]
  apply grows_get
  split
  case h_1 t name hn =>
      have ht : g.Has t := hg.has_child hroot (by rw [hn]; exact List.mem_singleton_self t)
      have hr : g.isRelation root = false := by
        rw [Graph.isRelation, hn]
        rfl
      split
      · have hbase : g.baseTable root = some t := by
          rw [Graph.baseTable_eq hg hroot, Graph.denote_column hg _ hn]
          rfl
        apply grows_bind (grows_queryOf_joined hg ht)
        intro q g' hg' e hjoined
        apply grows_pure hg'
        apply joined_of_value ((e.isRelation_eq hroot).trans hr)
        intro u hu
        rw [e.baseTable_eq hg hg' hroot, hbase] at hu
        exact Option.some.inj hu ▸ hjoined
      · exact grows_valueQuery_joined hg hroot hr
  case h_2 exprs hn =>
      have hexprs : ∀ e ∈ exprs, g.Has e := fun e he => hg.has_child hroot (by rw [hn]; exact he)
      exact grows_listQuery_joined hg hroot (by rw [Graph.isRelation, hn]; rfl) hexprs
  all_goals first | exact grows_fail hg _ | skip
  split
  · exact htable _
  · rename_i hr
    exact grows_valueQuery_joined hg hroot (Bool.eq_false_iff.mpr hr)

end Analysis

namespace Graph

variable {root : NodeId}

/-- A predicate of one of the joins at `s` reads a column that comes from a table which the joins
do not join. -/
inductive RefersOutside (g : Graph) (s : NodeId) : Prop where
  | intro {j : JoinTree} {p u e : NodeId} {name : String} (hj : j ∈ (g.joinTree s).joins)
      (hp : p ∈ j.predicates) (hread : (u, name) ∈ g.denote .reads p)
      (hcomes : (Folding.of (g.joinTree s).folded).ComesFrom g u name e)
      (hforeign : e ∉ (g.joinTree s).leaves) : RefersOutside g s

/-- It does so when the graph grows. -/
theorem RefersOutside.mono (hg : g.WellFounded) (hg' : g'.WellFounded) (e : g.Extends g')
    (hs : g.Has s) (h : g.RefersOutside s) :
  g'.RefersOutside s
  := by
  obtain @⟨j, p, u, v, name, hj, hp, hread, hcomes, hforeign⟩ := h
  have htree := e.joinTree_eq hg hg' hs
  obtain ⟨id, kind, l, r, hn, _⟩ := g.joins_joinTree hg s j hj
  have hhas : g.Has p := by
    apply hg.has_child (has_of_node hn nofun)
    rw [hn]
    simp [Node.children, hp]
  have hu : g.Has u := Nat.lt_trans (lt_of_mem_reads hg hread) hhas
  refine @RefersOutside.intro _ _ j p u v name ?_ hp ?_ ?_ ?_
  · rw [htree]
    exact hj
  · rw [e.denote_eq hg hg' hhas]
    exact hread
  · rw [htree]
    exact hcomes.mono hg hg' e hu
  · rw [htree]
    exact hforeign

/-- Joins that have been put together do not read outside. -/
theorem PutsTogether.not_refersOutside (hg : g.WellFounded) (h : g.PutsTogether s) :
  ¬ g.RefersOutside s
  := by
  rintro @⟨j, p, u, e, name, hj, hp, hread, hcomes, hforeign⟩
  obtain @⟨f, own, hfolded, hown, hreads⟩ := h
  obtain ⟨c, hc, hpredicates⟩ := forall₂_exists (g.joinTree s).clauses_joins j hj
  obtain ⟨c', hc', _, _, hlifts⟩ := forall₂_exists hown c hc
  obtain ⟨l, hl, hlift⟩ := forall₂_exists hlifts p (hpredicates ▸ hp)
  have hcondition := hlift.condition hg hj hfolded hp (hreads c' hc' l hl)
  exact hforeign (hreads c' hc' l hl e ((hcondition.reads e).mpr ⟨u, name, hread, hcomes⟩))

/-- An expression that draws on joins that read outside has no statement. -/
theorem Draws.not_ok (hg : g.WellFounded) (hroot : g.Has root) (h : g.Draws root s)
    (houtside : g.RefersOutside s) :
  ∀ st, g.analyze root ≠ .ok st
  := by
  intro st hok
  obtain ⟨⟨⟨q, handler⟩, g'⟩, hrun, hret⟩ := exists_of_bind_eq_ok hok
  obtain ⟨hg', e, hjoined⟩ :=
    (Analysis.grows_rootQuery_joined hg hroot).result _ _ (eq_ok_of_mapError hrun)
  obtain ⟨hs, hdraws⟩ := h.mono e hg hg' hroot
  have houtside' := houtside.mono hg hg' e hs
  have hjoin : g'.isJoin s = true := by
    obtain ⟨hj, _, _, _, _⟩ := houtside'
    exact g'.isJoin_of_mem_joins hg' hj
  exact (hjoined s hjoin hdraws).not_refersOutside hg' houtside'

/-- It has a fault instead, which is one of its tables when there are no tests, unless a reduction
in a WHERE clause reads no table. -/
theorem Draws.fault (hg : g.WellFounded) (hroot : g.Has root) (h : g.Draws root s)
    (houtside : g.RefersOutside s) :
  ∃ e, g.analyze root = .error e
    ∧ (g.Direct → e.kind = .relation ∨ e = .reductionWithoutTable)
  := by
  have hjoin : g.isJoin s = true := by
    obtain ⟨hj, _, _, _, _⟩ := houtside
    exact g.isJoin_of_mem_joins hg hj
  have hduration : ∀ unit count, g.node root ≠ .interval unit count := by
    intro unit count hn
    have hbase : g.baseTable root = none := by
      rw [baseTable_eq hg hroot, denote_operator hg _ (by rw [hn]; rfl), hn]
      rfl
    rcases h.cases_head with rfl | ⟨t, ht, _⟩
    · rw [isJoin, hn] at hjoin
      cases hjoin
    · rw [bases_of_value (by rw [isRelation, hn]; rfl), hbase] at ht
      exact absurd ht List.not_mem_nil
  cases hanalyze : g.analyze root with
  | ok st => exact absurd hanalyze (h.not_ok hg hroot houtside st)
  | error e =>
      refine ⟨e, rfl, fun hdirect => ?_⟩
      have hends := analyze_ne_nestingTooDeep hg hroot
      rw [hanalyze] at hends
      have hfault := (direct_rootQuery hdirect hduration).fault
      rw [analyze] at hanalyze
      cases hrun : (rootQuery root).run g with
      | ok r =>
          rw [hrun] at hanalyze
          cases hanalyze
      | error f =>
          rw [hrun] at hanalyze
          cases hanalyze
          rcases hfault f hrun with hkind | hreduction | hdeep
          · exact .inl hkind
          · exact .inr hreduction
          · exact absurd (congrArg Except.error hdeep) hends

/-- The conditions of every block of a statement are those of the joins of its source, which read
tables of these joins only, and those of the semi joins of its rankings.  A condition that refers to
the operands of its join reads the tables that have been joined by then.  An expression that draws
on joins of which a predicate reads a table that they do not join has a fault, which is a relational
one unless there are rankings, existence tests, membership in columns or reductions of no table. -/
theorem analyze_conditions (hg : g.WellFounded) (hroot : g.Has root) :
  (∀ st, g.analyze root = .ok st → ∀ outer b, st.Holds outer b → ∀ t, b.clauses.from? = some t →
    ∃ B source, b.Joins t st.graph B source ∧ t.Conditions B.folding st.graph source)
  ∧ ∀ s, g.Draws root s → g.RefersOutside s → ∃ e, g.analyze root = .error e
    ∧ (g.Direct → e.kind = .relation ∨ e = .reductionWithoutTable)
  := by
  refine ⟨?_, fun s hdraws houtside => hdraws.fault hg hroot houtside⟩
  intro st h outer b hb t ht
  obtain ⟨hg', B, source, hjoins⟩ := analyze_joins hg hroot h hb ht
  exact ⟨B, source, hjoins, hjoins.conditions hg'⟩

/-- A join of two tables on a column of a third one, a join of this with the third one, and the
first rows of the inner join besides those of a table. -/
def joinedOnLater : Graph := ⟨#[
  .table ⟨some "a", none, ⟨[⟨"k", .int32⟩, ⟨"x", .int32⟩]⟩⟩,
  .table ⟨some "b", none, ⟨[⟨"k", .int32⟩, ⟨"y", .int32⟩]⟩⟩,
  .table ⟨some "c", none, ⟨[⟨"k", .int32⟩, ⟨"z", .int32⟩]⟩⟩,
  .column ⟨0⟩ "k",
  .column ⟨1⟩ "k",
  .column ⟨2⟩ "k",
  .binary .eq ⟨3⟩ ⟨5⟩,
  .join .inner ⟨0⟩ ⟨1⟩ [⟨6⟩],
  .binary .eq ⟨4⟩ ⟨5⟩,
  .join .inner ⟨7⟩ ⟨2⟩ [⟨8⟩],
  .limit ⟨7⟩ 3 0,
  .union ⟨0⟩ ⟨10⟩ false]⟩

/-- In the FROM clause of the outer join the condition of the first clause reads the table of the
second one.  The inner join on its own, which does not have this table, is a relational fault, also
where it is one side of a set operation. -/
theorem analyze_conditions_joinedOnLater :
  (∃ st, joinedOnLater.analyze ⟨9⟩ = .ok st ∧ ∃ b t, st.Holds [] b ∧ b.clauses.from? = some t
    ∧ (∃ c ∈ t.joins[0]?, ∃ l ∈ c.predicates, ∃ u ∈ st.graph.tables l, u ∉ t.joined 0)
    ∧ ∃ B, b.Joins t st.graph B ⟨9⟩ ∧ t.Conditions B.folding st.graph ⟨9⟩)
  ∧ joinedOnLater.RefersOutside ⟨7⟩ ∧ joinedOnLater.Draws ⟨11⟩ ⟨7⟩
  ∧ ∃ e, joinedOnLater.analyze ⟨11⟩ = .error e
    ∧ (e.kind = .relation ∨ e = .reductionWithoutTable)
  := by
  have hrun : (joinedOnLater.analyze ⟨9⟩).toOption.map (fun st =>
      ((st.query.first.clauses.from?, st.query.first.clauses.node), st.graph.tables ⟨6⟩,
        st.graph.isJoin ⟨9⟩))
        = some ((some ⟨⟨13⟩, ⟨0⟩, [⟨.inner, ⟨1⟩, [⟨6⟩]⟩, ⟨.inner, ⟨2⟩, [⟨8⟩]⟩]⟩, ⟨9⟩),
          [⟨0⟩, ⟨2⟩], true) := by
    decide
  obtain ⟨st, hst, hvalues⟩ := Option.map_eq_some_iff.mp hrun
  obtain ⟨hblock, hvalues⟩ := Prod.mk.inj hvalues
  obtain ⟨hfrom, hnode⟩ := Prod.mk.inj hblock
  obtain ⟨htables, hjoin⟩ := Prod.mk.inj hvalues
  have hok := eq_ok_of_toOption hst
  have hb : st.Holds [] st.query.first := .inl st.query.holds_first
  have houtside : joinedOnLater.RefersOutside ⟨7⟩ := by
    refine @RefersOutside.intro _ _ (joinedOnLater.joinTree ⟨7⟩) ⟨6⟩ ⟨2⟩ ⟨2⟩ "k" ?_ ?_ ?_
      (Folding.comesFrom_self (by decide)) (by decide)
    · exact List.mem_singleton_self _
    · exact List.mem_singleton_self _
    · decide
  have hdraws : joinedOnLater.Draws ⟨11⟩ ⟨7⟩ :=
    (ReflTransGen.single (b := ⟨10⟩) (by decide)).tail (by decide)
  have hdirect : joinedOnLater.Direct := direct_of_nodes (by decide)
  obtain ⟨hconditions, _⟩ := @analyze_conditions joinedOnLater ⟨9⟩ (by decide) (by decide)
  obtain ⟨_, hfaults⟩ := @analyze_conditions joinedOnLater ⟨11⟩ (by decide) (by decide)
  obtain ⟨e, herror, hkind⟩ := hfaults ⟨7⟩ hdraws houtside
  obtain ⟨_, hg', _⟩ := analyze_rooted QuerySpec.compilation_meets_queryOf
    (g := joinedOnLater) (by decide) (by decide) hok
  obtain ⟨B, source, hjoins, hcondition⟩ := hconditions st hok [] _ hb _ hfrom
  rw [← hnode] at hjoin
  obtain rfl := hjoins.source_eq hg' hjoin
  rw [hnode] at hjoins hcondition
  refine ⟨⟨st, hok, _, _, hb, hfrom, ?_, B, hjoins, hcondition⟩, houtside, hdraws, e, herror,
    hkind hdirect⟩
  exact ⟨_, rfl, ⟨6⟩, List.mem_singleton_self _, ⟨2⟩, by rw [htables]; decide, by decide⟩

end Graph

end RelSql
