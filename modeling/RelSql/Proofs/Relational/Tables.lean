import RelSql.Proofs.Meaning.Sources
import RelSql.Proofs.Relational.Values

/-!
# Relational tables

A relational table is made of a named physical one by operators over a single table, whose values
are written with the columns of their input.  What is folded into a block of it are tables that
show columns of each other, down to those of the table of the FROM clause.
-/

namespace RelSql.Graph

variable {g g' : Graph} {grouped : Bool} {id t u v w : NodeId} {nodes nodes' : List NodeId}
  {next? : Node → Option NodeId}

/-- A table is made of a named physical one by operators whose values are written with the columns
of their input. -/
inductive Relational (g : Graph) : NodeId → Prop where
  | table {id : NodeId} {table : Table} (hn : g.node id = .table table)
      (hname : table.name.isSome = true) : Relational g id
  | selection {id t : NodeId} {predicates : List NodeId} (hn : g.node id = .selection t predicates)
      (ht : Relational g t) (hpredicates : ∀ p ∈ predicates, g.Computes false t p) :
    Relational g id
  | projection {id t : NodeId} {items : List NodeId} (hn : g.node id = .projection t items)
      (ht : Relational g t) (hitems : ∀ i ∈ items, g.Selects false t i) : Relational g id
  | aggregation {id t : NodeId} {keys metrics having : List NodeId}
      (hn : g.node id = .aggregation t keys metrics having) (ht : Relational g t)
      (hkeys : ∀ i ∈ keys, g.Selects false t i) (hmetrics : ∀ i ∈ metrics, g.Selects true t i)
      (hhaving : ∀ p ∈ having, g.Computes true t p) : Relational g id
  | sort {id t : NodeId} {keys : List SortKey} (hn : g.node id = .sort t keys)
      (ht : Relational g t) (hkeys : ∀ k ∈ keys, g.Computes false t k.expr) : Relational g id
  | limit {id t : NodeId} {n offset : Nat} (hn : g.node id = .limit t n offset)
      (ht : Relational g t) : Relational g id
  | distinct {id t : NodeId} (hn : g.node id = .distinct t) (ht : Relational g t) : Relational g id

/-- The names of the columns that predicates read. -/
def readNames (g : Graph) (predicates : List NodeId) : List String :=
  predicates.flatMap fun p => (g.denote .reads p).map Prod.snd

/-- Whether a table filters a projection that its filters can be evaluated below, and with them
others that read columns of the same names. -/
def sinks (g : Graph) (filters : List NodeId) (t : NodeId) : Bool :=
  g.isProjection (g.peel t).table
    && (g.readNames ((g.peel t).predicates ++ filters)).all fun name =>
      (Folding.of (g.layers t)).unchanged g t name

/-- A projection of `input` that selects `items` is fused, one after the other, with projections below
it of which all columns are selected and which the filters in between can be evaluated below.  Then
`filters` have moved down to a table, of which the last projection selects `inner`. -/
inductive FusesDown (g : Graph) (items : List NodeId) (input : NodeId) :
    List NodeId → List NodeId → NodeId → Prop where
  | refl : FusesDown g items input [] items input
  | step {filters inner inner' : List NodeId} {t table : NodeId}
      (h : FusesDown g items input filters inner t) (hitems : t ∈ inner)
      (hsinks : g.sinks filters t = true)
      (hn : g.node (g.peel t).table = .projection table inner') :
    FusesDown g items input ((g.peel t).predicates ++ filters) inner' table

/-- A projection on the way down from a table stacks filters: where fusing it ends, those that have
moved could be evaluated below a further projection, of which only some columns are selected.  A
projection that is fused into one above it stacks none of its own. -/
inductive StacksFilter (g : Graph) : NodeId → Prop where
  | here {id input t : NodeId} {items filters inner : List NodeId}
      (hn : g.node id = .projection input items) (hdown : g.FusesDown items input filters inner t)
      (hsome : filters ≠ []) (hitems : t ∉ inner) (hsinks : g.sinks filters t = true) :
    StacksFilter g id
  | input {id t : NodeId} (ht : input? (g.node id) = some t)
      (hother : g.isProjection id = false) (h : StacksFilter g t) : StacksFilter g id
  | fused {id input t : NodeId} {items filters inner : List NodeId}
      (hn : g.node id = .projection input items) (hdown : g.FusesDown items input filters inner t)
      (hend : t ∈ inner → g.sinks filters t = false) (h : StacksFilter g t) : StacksFilter g id

/-- What is stacked below an operator other than a projection is below its input. -/
theorem StacksFilter.of_input (h : g.StacksFilter id) (ht : input? (g.node id) = some t)
    (hother : g.isProjection id = false) :
  g.StacksFilter t
  := by
  cases h with
  | here hn | fused hn =>
      rw [isProjection, hn] at hother
      cases hother
  | input ht' _ h =>
      rw [ht] at ht'
      cases ht'
      exact h

theorem sinks_eq_false {filters : List NodeId} (h : g.isProjection (g.peel t).table = false) :
  g.sinks filters t = false
  := by
  rw [sinks, h, Bool.false_and]

/-- A relational table none of whose projections stacks a filter on another one. -/
structure Unstacked (g : Graph) (id : NodeId) : Prop where
  relational : g.Relational id
  free : ¬ g.StacksFilter id

/-! ### Inputs -/

theorem Relational.isRelation (h : g.Relational id) :
  g.isRelation id = true
  := by
  rw [Graph.isRelation]
  cases h <;> rename_i hn <;> (rw [hn]; rfl)

theorem Relational.has (h : g.Relational id) :
  g.Has id
  := has_of_isRelation h.isRelation

theorem Relational.input (h : g.Relational id) (ht : input? (g.node id) = some t) :
  g.Relational t
  := by
  cases h with
  | table hn _ =>
      rw [hn] at ht
      cases ht
  | selection hn h _ | projection hn h _ | aggregation hn h _ _ _ | sort hn h _ | limit hn h
  | distinct hn h =>
      rw [hn] at ht
      cases ht
      exact h

/-- A physical table that is relational has a name. -/
theorem Relational.named {table : Table} (h : g.Relational id) (hn : g.node id = .table table) :
  table.name.isSome = true
  := by
  cases h <;> rename_i hn' <;> rw [hn] at hn' <;> cases hn'
  case table hname => exact hname

theorem Relational.of_selection {predicates : List NodeId} (h : g.Relational id)
    (hn : g.node id = .selection t predicates) :
  g.Relational t ∧ ∀ p ∈ predicates, g.Computes false t p
  := by
  cases h <;> rename_i hn' <;> rw [hn] at hn' <;> cases hn'
  case selection ht hpredicates => exact ⟨ht, hpredicates⟩

theorem Relational.of_projection {items : List NodeId} (h : g.Relational id)
    (hn : g.node id = .projection t items) :
  g.Relational t ∧ ∀ i ∈ items, g.Selects false t i
  := by
  cases h <;> rename_i hn' <;> rw [hn] at hn' <;> cases hn'
  case projection ht hitems => exact ⟨ht, hitems⟩

theorem Relational.of_aggregation {keys metrics having : List NodeId} (h : g.Relational id)
    (hn : g.node id = .aggregation t keys metrics having) :
  g.Relational t ∧ (∀ i ∈ keys, g.Selects false t i) ∧ (∀ i ∈ metrics, g.Selects true t i)
    ∧ ∀ p ∈ having, g.Computes true t p
  := by
  cases h <;> rename_i hn' <;> rw [hn] at hn' <;> cases hn'
  case aggregation ht hkeys hmetrics hhaving => exact ⟨ht, hkeys, hmetrics, hhaving⟩

theorem Relational.of_sort {keys : List SortKey} (h : g.Relational id)
    (hn : g.node id = .sort t keys) :
  g.Relational t ∧ ∀ k ∈ keys, g.Computes false t k.expr
  := by
  cases h <;> rename_i hn' <;> rw [hn] at hn' <;> cases hn'
  case sort ht hkeys => exact ⟨ht, hkeys⟩

theorem Unstacked.input (h : g.Unstacked id) (ht : input? (g.node id) = some t)
    (hother : g.isProjection id = false) :
  g.Unstacked t
  := ⟨h.relational.input ht, fun hstacks => h.free (.input ht hother hstacks)⟩

/-- What has the input of a sort is one. -/
theorem eq_sort {n : Node} (h : sortInput? n = some t) :
  ∃ keys, n = .sort t keys
  := by
  cases n with
  | sort _ keys =>
      cases h
      exact ⟨keys, rfl⟩
  | _ => cases h

theorem input_of_keptInput {n : Node} (h : keptInput? n = some t) :
  input? n = some t
  := by
  cases n <;> cases h <;> rfl

theorem isProjection_of_keptInput (h : keptInput? (g.node id) = some t) :
  g.isProjection id = false
  := by
  rw [isProjection]
  generalize g.node id = n at h ⊢
  cases n <;> cases h <;> rfl

theorem keptInput_of_limitInput {n : Node} (h : limitInput? n = some t) :
  keptInput? n = some t
  := by
  cases n <;> cases h
  rfl

theorem keptInput_of_sortInput {n : Node} (h : sortInput? n = some t) :
  keptInput? n = some t
  := by
  cases n <;> cases h
  rfl

theorem Relational.peel (hg : g.WellFounded) (h : g.Relational id) :
  g.Relational (g.peel id).table
  := by
  revert h
  apply chain_induction follows_selection hg
    (P := fun id => g.Relational id → g.Relational (g.peel id).table)
  · intro id ht h
    rw [peel_other hg ht]
    exact h
  · intro id t ht ih h
    obtain ⟨predicates, hn⟩ := eq_selection ht
    rw [peel_selection hg hn]
    exact ih (h.input (input_of_selectionInput ht))

/-- The table where a chain of operators ends that keep columns is relational when the first one
is. -/
theorem Unstacked.chain (hg : g.WellFounded)
    (hnext : ∀ n t, next? n = some t → keptInput? n = some t) (h : g.Unstacked id) :
  g.Unstacked (g.chain next? id).2
  := by
  have hfollows : Follows next? := fun n t ht =>
    follows_input n t (input_of_keptInput (hnext n t ht))
  revert h
  apply chain_induction hfollows hg
    (P := fun id => g.Unstacked id → g.Unstacked (g.chain next? id).2)
  · intro id ht h
    rw [chain_end hfollows hg ht]
    exact h
  · intro id t ht ih h
    have hkept := hnext _ t ht
    rw [chain_next hfollows hg ht]
    exact ih (h.input (input_of_keptInput hkept) (isProjection_of_keptInput hkept))

theorem Unstacked.peel (hg : g.WellFounded) (h : g.Unstacked id) :
  g.Unstacked (g.peel id).table
  := h.chain hg fun _ _ => keptInput_of_selectionInput

/-- The tables below the limits, and below the sorts, of a relational table. -/
theorem Unstacked.limits (hg : g.WellFounded) (h : g.Unstacked id) :
  g.Unstacked (g.chain limitInput? id).2
  := h.chain hg fun _ _ => keptInput_of_limitInput

theorem Unstacked.sorts (hg : g.WellFounded) (h : g.Unstacked id) :
  g.Unstacked (g.chain sortInput? id).2
  := h.chain hg fun _ _ => keptInput_of_sortInput

/-- What is left of an operand is relational. -/
theorem Unstacked.operand (hg : g.WellFounded) (h : g.Unstacked id) :
  g.Unstacked (g.operand id true true).table
  := by
  rw [Graph.operand]
  split
  · exact h.peel hg
  · exact h

/-- A relational table is joined to nothing. -/
theorem Relational.joinTree (hg : g.WellFounded) (h : g.Relational id) :
  g.joinTree id = .table id
  := by
  apply joinTree_other hg
  rw [isJoin]
  cases h <;> simp_all

/-- A relational table is no view. -/
theorem Relational.body (h : g.Relational id) :
  g.body id = id
  := by
  rw [Graph.body]
  cases h <;> simp_all

/-- A relational table is no union. -/
theorem Relational.not_union (h : g.Relational id) (l r : NodeId) (distinct : Bool) :
  g.node id ≠ .union l r distinct
  := by
  cases h <;> simp_all

/-- The table whose columns are all the columns of a relational one is a table. -/
theorem Relational.star {s : Folding} (hg : g.WellFounded) (h : g.Relational id) :
  g.isRelation (s.star g id) = true
  := by
  induction h with
  | table hn _ | projection hn _ _ _ | aggregation hn _ _ _ _ _ =>
      rw [Folding.star_eq s hg, hn]
      simp only [ite_self]
      rw [Graph.isRelation, hn]
      rfl
  | selection hn _ _ ih | sort hn _ _ ih | limit hn _ ih | distinct hn _ ih =>
      rw [Folding.star_eq s hg, hn]
      split
      · rw [Graph.isRelation, hn]
        rfl
      · exact ih

/-! ### Growing graphs -/

/-- A relational table stays one when the graph grows. -/
theorem Relational.mono (e : g.Extends g') (hg : g.WellFounded) (hg' : g'.WellFounded)
    (h : g.Relational id) :
  g'.Relational id
  := by
  have hchild : ∀ {id : NodeId} {n : Node}, g.Relational id → g.node id = n →
      ∀ c ∈ n.children, g.Has c := by
    rintro id n h rfl c hc
    exact hg.has_child h.has hc
  induction h with
  | table hn hname => exact .table (e.node_eq_of hn nofun) hname
  | selection hn ht hpredicates ih =>
      obtain ⟨htable, hhas⟩ := List.forall_mem_cons.mp (hchild (.selection hn ht hpredicates) hn)
      refine .selection (e.node_eq_of hn nofun) ih fun p hp => ?_
      exact (hpredicates p hp).mono e hg hg' htable (hhas p hp)
  | projection hn ht hitems ih =>
      obtain ⟨htable, hhas⟩ := List.forall_mem_cons.mp (hchild (.projection hn ht hitems) hn)
      refine .projection (e.node_eq_of hn nofun) ih fun i hi => ?_
      exact (hitems i hi).mono e hg hg' htable (hhas i hi)
  | aggregation hn ht hkeys hmetrics hhaving ih =>
      obtain ⟨htable, hhas⟩ :=
        List.forall_mem_cons.mp (hchild (.aggregation hn ht hkeys hmetrics hhaving) hn)
      obtain ⟨hitems, hfilters⟩ := List.forall_mem_append.mp hhas
      obtain ⟨hk, hm⟩ := List.forall_mem_append.mp hitems
      exact .aggregation (e.node_eq_of hn nofun) ih
        (fun i hi => (hkeys i hi).mono e hg hg' htable (hk i hi))
        (fun i hi => (hmetrics i hi).mono e hg hg' htable (hm i hi))
        fun p hp => (hhaving p hp).mono e hg hg' htable (hfilters p hp)
  | sort hn ht hkeys ih =>
      obtain ⟨htable, hhas⟩ := List.forall_mem_cons.mp (hchild (.sort hn ht hkeys) hn)
      refine .sort (e.node_eq_of hn nofun) ih fun k hk => ?_
      exact (hkeys k hk).mono e hg hg' htable (hhas _ (List.mem_map_of_mem hk))
  | limit hn _ ih => exact .limit (e.node_eq_of hn nofun) ih
  | distinct hn _ ih => exact .distinct (e.node_eq_of hn nofun) ih

theorem Extends.readNames_eq (e : g.Extends g') (hg : g.WellFounded) (hg' : g'.WellFounded)
    {predicates : List NodeId} (hp : ∀ p ∈ predicates, g.Has p) :
  g'.readNames predicates = g.readNames predicates
  := List.flatMap_congr fun p hmem => by rw [e.denote_eq hg hg' (hp p hmem)]

theorem Extends.sinks_eq (e : g.Extends g') (hg : g.WellFounded) (hg' : g'.WellFounded)
    {filters : List NodeId} (hfilters : ∀ p ∈ filters, g.Has p) (ht : g.Has t) :
  g'.sinks filters t = g.sinks filters t
  := by
  rw [sinks, sinks, layers, e.peel_eq hg hg' ht, e.isProjection_eq (hg.has_peel ht),
    e.readNames_eq hg hg' (List.forall_mem_append.mpr ⟨hg.has_predicates ht, hfilters⟩), ← layers]
  simp only [Folding.unchanged_extends e hg hg' _ ht]

/-- What a projection is fused down to in an extended graph it was before. -/
theorem FusesDown.of_extends (e : g.Extends g') (hg : g.WellFounded) (hg' : g'.WellFounded)
    {items filters inner : List NodeId} {input : NodeId} (hinput : g.Has input)
    (h : g'.FusesDown items input filters inner t) :
  g.FusesDown items input filters inner t ∧ (∀ p ∈ filters, g.Has p) ∧ g.Has t
  := by
  induction h with
  | refl => exact ⟨.refl, nofun, hinput⟩
  | step h hitems hsinks hn ih =>
      obtain ⟨hdown, hfilters, ht⟩ := ih
      rw [e.sinks_eq hg hg' hfilters ht] at hsinks
      rw [e.peel_eq hg hg' ht] at hn ⊢
      rw [e.node_eq (hg.has_peel ht)] at hn
      refine ⟨.step hdown hitems hsinks hn,
        List.forall_mem_append.mpr ⟨hg.has_predicates ht, hfilters⟩, ?_⟩
      apply hg.has_child (hg.has_peel ht)
      rw [hn]
      exact List.mem_cons_self

/-- A table that stacks a filter in an extended graph did so before. -/
theorem StacksFilter.of_extends (e : g.Extends g') (hg : g.WellFounded) (hg' : g'.WellFounded)
    (hid : g.Has id) (h : g'.StacksFilter id) :
  g.StacksFilter id
  := by
  have hchild : ∀ {id c : NodeId} {n : Node}, g.Has id → g.node id = n → c ∈ n.children →
      g.Has c := by
    rintro id c n hid rfl hc
    exact hg.has_child hid hc
  induction h with
  | here hn hdown hsome hitems hsinks =>
      rw [e.node_eq hid] at hn
      obtain ⟨hdown, hfilters, ht⟩ :=
        hdown.of_extends e hg hg' (hchild hid hn List.mem_cons_self)
      exact .here hn hdown hsome hitems ((e.sinks_eq hg hg' hfilters ht).symm.trans hsinks)
  | input ht hother _ ih =>
      rw [e.node_eq hid] at ht
      rw [e.isProjection_eq hid] at hother
      exact .input ht hother (ih (hg.has_child hid (follows_input _ _ ht)))
  | fused hn hdown hend _ ih =>
      rw [e.node_eq hid] at hn
      obtain ⟨hdown, hfilters, ht⟩ :=
        hdown.of_extends e hg hg' (hchild hid hn List.mem_cons_self)
      refine .fused hn hdown (fun hmem => ?_) (ih ht)
      exact (e.sinks_eq hg hg' hfilters ht).symm.trans (hend hmem)

theorem Unstacked.mono (e : g.Extends g') (hg : g.WellFounded) (hg' : g'.WellFounded)
    (h : g.Unstacked id) :
  g'.Unstacked id
  := ⟨h.relational.mono e hg hg',
    fun hstacks => h.free (hstacks.of_extends e hg hg' h.relational.has)⟩

/-! ### Tables that show each other -/

theorem Shows.isRelation (h : g.Shows grouped w t) :
  g.isRelation t = true
  := by
  rw [Graph.isRelation]
  cases h with
  | kept hn => cases ht : g.node t <;> rw [ht] at hn <;> first | rfl | cases hn
  | projection hn _ | aggregation _ hn _ =>
      rw [hn]
      rfl

/-- The tables `nodes` show columns of each other, down to those of `u`, which is deeper. -/
structure Ladder (g : Graph) (grouped : Bool) (nodes : List NodeId) (u : NodeId) : Prop where
  shows : ∀ t ∈ nodes, ∃ w ∈ u :: nodes, g.Shows grouped w t
  depth_lt : ∀ t ∈ nodes, g.depth u < g.depth t

/-- What is among some tables down to a further one is among both. -/
theorem mem_ladder_append (ht : t ∈ v :: nodes) (hv : v ∈ u :: nodes') :
  t ∈ u :: (nodes ++ nodes')
  := by
  simp only [List.mem_cons, List.mem_append] at ht hv ⊢
  rcases ht with rfl | ht
  · exact hv.imp_right .inr
  · exact .inr (.inl ht)

/-- What is among the lower tables is among all of them. -/
theorem mem_ladder_right (nodes : List NodeId) (ht : t ∈ u :: nodes') :
  t ∈ u :: (nodes ++ nodes')
  := by
  rcases List.mem_cons.mp ht with rfl | ht
  · exact List.mem_cons_self
  · exact List.mem_cons_of_mem u (List.mem_append_right nodes ht)

theorem Ladder.depth_le (h : g.Ladder grouped nodes u) (hv : v ∈ u :: nodes) :
  g.depth u ≤ g.depth v
  := by
  rcases List.mem_cons.mp hv with rfl | hv
  · exact Nat.le_refl _
  · exact Nat.le_of_lt (h.depth_lt v hv)

/-- What tables lead to is not among them. -/
theorem Ladder.not_mem (h : g.Ladder grouped nodes u) :
  u ∉ nodes
  := fun hu => absurd (h.depth_lt u hu) (Nat.lt_irrefl _)

/-- Tables that lead to one of others lead on with these. -/
theorem Ladder.append (h : g.Ladder grouped nodes v) (h' : g.Ladder grouped nodes' u)
    (hv : v ∈ u :: nodes') :
  g.Ladder grouped (nodes ++ nodes') u
  := by
  constructor
  · intro t ht
    rcases List.mem_append.mp ht with ht | ht
    · obtain ⟨w, hw, hshows⟩ := h.shows t ht
      exact ⟨w, mem_ladder_append hw hv, hshows⟩
    · obtain ⟨w, hw, hshows⟩ := h'.shows t ht
      exact ⟨w, mem_ladder_right nodes hw, hshows⟩
  · intro t ht
    rcases List.mem_append.mp ht with ht | ht
    · exact Nat.lt_of_le_of_lt (h'.depth_le hv) (h.depth_lt t ht)
    · exact h'.depth_lt t ht

theorem ladder_nil (grouped : Bool) (u : NodeId) :
  g.Ladder grouped [] u
  := ⟨nofun, nofun⟩

theorem ladder_singleton (h : g.Shows grouped u t) (hlt : g.depth u < g.depth t) :
  g.Ladder grouped [t] u
  := ⟨List.forall_mem_singleton.mpr ⟨u, List.mem_cons_self, h⟩, List.forall_mem_singleton.mpr hlt⟩

/-- Tables that lead somewhere for rows do so for groups. -/
theorem Ladder.ofRow (h : g.Ladder false nodes u) :
  g.Ladder grouped nodes u
  := by
  refine ⟨fun t ht => ?_, h.depth_lt⟩
  obtain ⟨w, hw, hshows⟩ := h.shows t ht
  exact ⟨w, hw, hshows.ofRow⟩

/-- A chain of operators that keep columns leads from where it starts to where it ends. -/
theorem ladder_chain (hg : g.WellFounded) (grouped : Bool)
    (hnext : ∀ n t, next? n = some t → keptInput? n = some t) (id : NodeId) :
  g.Ladder grouped (g.chain next? id).1 (g.chain next? id).2
    ∧ id ∈ (g.chain next? id).2 :: (g.chain next? id).1
  := by
  have hinput : ∀ n t, next? n = some t → input? n = some t :=
    fun n t ht => input_of_keptInput (hnext n t ht)
  have hfollows : Follows next? := fun n t ht => follows_input n t (hinput n t ht)
  apply chain_induction hfollows hg (P := fun id =>
    g.Ladder grouped (g.chain next? id).1 (g.chain next? id).2
      ∧ id ∈ (g.chain next? id).2 :: (g.chain next? id).1)
  · intro id ht
    rw [chain_end hfollows hg ht]
    exact ⟨ladder_nil grouped _, List.mem_cons_self⟩
  · intro id t ht ih
    rw [chain_next hfollows hg ht]
    have hone : g.Ladder grouped [id] t :=
      ladder_singleton (.kept (hnext _ t ht)) (depth_lt_of_input hg rfl (hinput _ t ht))
    exact ⟨hone.append ih.1 ih.2, List.mem_cons_of_mem _ List.mem_cons_self⟩

theorem ladder_peel (hg : g.WellFounded) (grouped : Bool) (id : NodeId) :
  g.Ladder grouped (g.peel id).chain (g.peel id).table
    ∧ id ∈ (g.peel id).table :: (g.peel id).chain
  := ladder_chain hg grouped (fun _ _ => keptInput_of_selectionInput) id

theorem ladder_sorts (hg : g.WellFounded) (grouped : Bool) (id : NodeId) :
  g.Ladder grouped (g.chain sortInput? id).1 (g.chain sortInput? id).2
    ∧ id ∈ (g.chain sortInput? id).2 :: (g.chain sortInput? id).1
  := ladder_chain hg grouped (fun _ _ => keptInput_of_sortInput) id

/-- What is taken off an operand leads to what is left. -/
theorem ladder_operand (hg : g.WellFounded) (grouped : Bool) (id : NodeId) :
  g.Ladder grouped (g.operand id true true).chain (g.operand id true true).table
    ∧ id ∈ (g.operand id true true).table :: (g.operand id true true).chain
  := by
  rw [Graph.operand]
  split
  · exact ladder_peel hg grouped id
  · exact ⟨ladder_nil grouped _, List.mem_cons_self⟩

/-- A filtered projection of a relational table leads to what is projected. -/
theorem Relational.ladder_layers (hg : g.WellFounded) (h : g.Relational w) {table : NodeId}
    {inner : List NodeId} (hinner : g.node (g.peel w).table = .projection table inner) :
  g.Ladder false (g.layers w) table
  := by
  have hprojects := (h.peel hg).of_projection hinner
  have hone : g.Ladder false [(g.peel w).table] table :=
    ladder_singleton (.projection hinner hprojects.2) (depth_lt_of_input hg hinner rfl)
  exact (ladder_peel hg false w).1.append hone
    (List.mem_cons_of_mem _ (List.mem_singleton_self _))

/-! ### Values of tables that show each other -/

/-- A value is written with the columns of one of the tables. -/
def ComputesAmong (g : Graph) (grouped : Bool) (tables : List NodeId) (v : NodeId) : Prop :=
  ∃ t ∈ tables, g.Computes grouped t v

theorem ComputesAmong.ofRow (hg : g.WellFounded) (h : g.ComputesAmong false nodes v) :
  g.ComputesAmong grouped nodes v
  := by
  obtain ⟨t, ht, h⟩ := h
  exact ⟨t, ht, h.ofRow hg⟩

theorem ComputesAmong.imp (h : g.ComputesAmong grouped nodes v)
    (hmem : ∀ t ∈ nodes, t ∈ nodes') :
  g.ComputesAmong grouped nodes' v
  := by
  obtain ⟨t, ht, h⟩ := h
  exact ⟨t, hmem t ht, h⟩

/-- The predicates of selections are written with columns of what the selections lead to. -/
theorem Relational.predicates (hg : g.WellFounded) (h : g.Relational id) :
  ∀ p ∈ (g.peel id).predicates,
    g.ComputesAmong false ((g.peel id).table :: (g.peel id).chain) p
  := by
  revert h
  apply chain_induction follows_selection hg (P := fun id => g.Relational id →
    ∀ p ∈ (g.peel id).predicates, g.ComputesAmong false ((g.peel id).table :: (g.peel id).chain) p)
  · intro id ht _ p hp
    rw [peel_other hg ht] at hp
    exact absurd hp List.not_mem_nil
  · intro id t ht ih h p hp
    obtain ⟨predicates, hn⟩ := eq_selection ht
    obtain ⟨htable, hpredicates⟩ := h.of_selection hn
    rw [peel_selection hg hn] at hp ⊢
    rcases List.mem_append.mp hp with hp | hp
    · exact (ih htable p hp).imp fun u hu => mem_ladder_right [id] hu
    · exact ⟨t, mem_ladder_right [id] (ladder_peel hg false t).2, hpredicates p hp⟩

/-- The predicates that are taken off an operand are among those of its selections. -/
theorem Relational.operand_predicates (hg : g.WellFounded) (h : g.Relational id) :
  ∀ p ∈ (g.operand id true true).predicates, g.ComputesAmong false
    ((g.operand id true true).table :: (g.operand id true true).chain) p
  := by
  rw [Graph.operand]
  split
  · exact h.predicates hg
  · exact fun p hp => absurd hp List.not_mem_nil

/-- The keys of sorts are written with columns of what the sorts lead to. -/
theorem Relational.sortKeys (hg : g.WellFounded) (h : g.Relational id) :
  ∀ n ∈ (g.chain sortInput? id).1, ∀ k ∈ g.sortKeysOf n, g.ComputesAmong false
    ((g.chain sortInput? id).2 :: (g.chain sortInput? id).1) k.expr
  := by
  revert h
  apply chain_induction follows_sort hg (P := fun id => g.Relational id →
    ∀ n ∈ (g.chain sortInput? id).1, ∀ k ∈ g.sortKeysOf n, g.ComputesAmong false
      ((g.chain sortInput? id).2 :: (g.chain sortInput? id).1) k.expr)
  · intro id ht _ n hn
    rw [chain_end follows_sort hg ht] at hn
    exact absurd hn List.not_mem_nil
  · intro id t ht ih h
    obtain ⟨keys, hsort⟩ := eq_sort ht
    obtain ⟨htable, hkeys⟩ := h.of_sort hsort
    rw [chain_next follows_sort hg ht]
    refine List.forall_mem_cons.mpr ⟨fun k hk => ?_, fun n hn k hk => ?_⟩
    · rw [sortKeysOf, hsort] at hk
      exact ⟨t, mem_ladder_right [id] (ladder_sorts hg false t).2, hkeys k hk⟩
    · exact (ih htable n hn k hk).imp fun u hu => mem_ladder_right [id] hu

/-- A value resolves to a written value of the table `u` and, down to outputs, of these. -/
def Writes (g : Graph) (s : Folding) (mode : LiftMode) (grouped : Bool) (u v : NodeId) : Prop :=
  (s.resolve mode (.written grouped (s.remains mode g u)) g v).value = true

/-- A value that resolves to a written one is no ranking. -/
theorem Writes.not_ranking {s : Folding} {mode : LiftMode} (hg : g.WellFounded)
    (h : g.Writes s mode grouped u v) :
  Block.isRanking g v = false
  := by
  rw [Writes, Lift.resolve_value_eq hg] at h
  rw [Block.isRanking]
  split
  case h_1 arg k metric hn =>
      rw [Folding.resolveValue_operator _ _ (by rw [hn]; rfl), Algebra.written_operator, hn] at h
      cases h.1
  · rfl

/-- A value that resolves to a written one is no table. -/
theorem Writes.not_relation {s : Folding} {mode : LiftMode} (hg : g.WellFounded)
    (h : g.Writes s mode grouped u v) :
  g.isRelation v = false
  := by
  cases hr : g.isRelation v with
  | false => rfl
  | true =>
      rw [Writes, Lift.resolve_value_eq hg, Folding.resolveValue_relation _ _ hr] at h
      cases h

/-- A value of tables that lead to a table resolves to a written value of that table, when the
tables are folded and that table is not. -/
theorem Ladder.writes {s : Folding} {mode : LiftMode} (hg : g.WellFounded)
    (h : g.Ladder grouped nodes u) (hmode : mode ≠ .projections) (hu : u ∉ s.fused)
    (hr : g.isRelation u = true) (hfused : ∀ n ∈ nodes, n ∈ s.fused)
    (hv : g.ComputesAmong grouped (u :: nodes) v) :
  g.Writes s mode grouped u v
  := by
  obtain ⟨t, ht, hv⟩ := hv
  refine (Folding.resolve_written hg hmode (S := fun t => t ∈ u :: nodes) hu ?_ ?_ v).2 t ht hv
  · intro t ht
    rcases List.mem_cons.mp ht with rfl | ht
    · exact hr
    · obtain ⟨w, _, hshows⟩ := h.shows t ht
      exact hshows.isRelation
  · intro t ht
    rcases List.mem_cons.mp ht with rfl | ht
    · exact .inl rfl
    · exact .inr ⟨hfused t ht, h.shows t ht⟩

/-- A value of what is folded resolves to a written value of the table that this leads to. -/
theorem Ladder.writes_fused {s : Folding} {mode : LiftMode} (hg : g.WellFounded)
    (h : g.Ladder grouped s.fused u) (hmode : mode ≠ .projections) (hr : g.isRelation u = true)
    (hv : g.ComputesAmong grouped (u :: s.fused) v) :
  g.Writes s mode grouped u v
  := h.writes hg hmode h.not_mem hr (fun _ hn => hn) hv

end RelSql.Graph
