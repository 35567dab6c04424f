import RelSql.Proofs.Graph.Chain
import RelSql.Proofs.Graph.Reading
import RelSql.Proofs.Graph.Extension

/-!
# Pipelines

A pipeline is made of a physical table by operators over a single table.  The values of an
operator are computed of the rows of its input: of their columns, and in a metric of groups of
them.  A sort stands above another one only with a limit between the two, and no limit stands
directly above another one.
-/

namespace RelSql

/-- Whether an operator computes a value of the values of its operands, for each row or, if
`grouped` holds, for a group of rows. -/
def Node.computes (grouped : Bool) : Node → Bool
  | .reduction _ _ => grouped
  | .topK _ _ _ | .any _ | .contains _ (.column _) _ => false
  | n => n.isOperator

theorem Node.isOperator_of_computes {grouped : Bool} {n : Node} (h : n.computes grouped = true) :
  n.isOperator = true
  := by
  cases n <;> first | rfl | cases h

namespace Graph

variable {g g' : Graph} {id t u : NodeId}

/-- The rows of the table `t` are rows of the table `u`: selections lead from one to the other. -/
inductive Passes (g : Graph) : NodeId → NodeId → Prop where
  | refl (t : NodeId) : Passes g t t
  | selection {t t' u : NodeId} {predicates : List NodeId}
      (hn : g.node t = .selection t' predicates) (h : Passes g t' u) : Passes g t u

/-- A value is computed of the rows of `t`, or of groups of them. -/
inductive Over (g : Graph) (grouped : Bool) (t : NodeId) : NodeId → Prop where
  | column {id u : NodeId} {name : String} (hn : g.node id = .column u name)
      (hu : g.Passes t u) (hfield : g.hasField u name = true) : Over g grouped t id
  | count {id : NodeId} (hgrouped : grouped = true) (hn : g.node id = .countStar t) :
    Over g grouped t id
  | operator {id : NodeId} (ho : (g.node id).computes grouped = true)
      (h : ∀ c ∈ (g.node id).children, Over g grouped t c) : Over g grouped t id

/-- An item of an operator over `t`: a column or an alias, or all columns of `t`. -/
inductive Item (g : Graph) (grouped : Bool) (t : NodeId) : NodeId → Prop where
  | value {id : NodeId} (hname : (g.name? id).isSome = true) (h : g.Over grouped t id) :
    Item g grouped t id
  | whole {id : NodeId} (hu : g.Passes t id) : Item g grouped t id

/-- The input of an operator over a single table. -/
def input? : Node → Option NodeId
  | .view t | .selection t _ | .projection t _ | .aggregation t _ _ _ | .sort t _ | .limit t _ _
  | .distinct t => some t
  | _ => none

/-- The input of an operator over a single table that is no limit. -/
def unlimitedInput? (n : Node) : Option NodeId :=
  match n with
  | .limit _ _ _ => none
  | n => input? n

/-- Whether a node is a sort. -/
def isSort (g : Graph) (id : NodeId) : Bool :=
  match g.node id with
  | .sort _ _ => true
  | _ => false

/-- Whether a table is sorted, or made of a sorted one without a limit between the two. -/
def sorts (g : Graph) (id : NodeId) : Bool :=
  (g.chain unlimitedInput? id).1.any g.isSort

/-- An operator computes its values of the rows of its input.  An aggregation without keys makes
one row of all rows by a reduction or a filter, and sorts and limits do not pile up. -/
def Regular (g : Graph) (id : NodeId) : Prop :=
  match g.node id with
  | .table _ | .view _ | .distinct _ => True
  | .selection t predicates => ∀ p ∈ predicates, g.Over false t p
  | .projection t items => ∀ i ∈ items, g.Item false t i
  | .aggregation t keys metrics having =>
    (∀ i ∈ keys, g.Item false t i) ∧ (∀ i ∈ metrics, g.Item true t i)
      ∧ (∀ p ∈ having, g.Over false t p)
      ∧ (keys = [] → having = [] → ∃ m ∈ metrics, g.hasReduction m = true)
  | .sort t keys => (∀ k ∈ keys, g.Over false t k.expr) ∧ g.sorts t = false
  | .limit t _ _ => limitInput? (g.node t) = none
  | _ => False

/-- A table is made of a physical one by regular operators over a single table. -/
inductive Pipeline (g : Graph) : NodeId → Prop where
  | intro {id : NodeId} (h : g.Regular id)
      (hinput : ∀ t, input? (g.node id) = some t → Pipeline g t) : Pipeline g id

/-! ### Inputs -/

theorem follows_input :
  Follows input?
  := by
  intro n t h
  cases n <;> cases h <;> exact List.mem_cons_self

theorem follows_unlimitedInput :
  Follows unlimitedInput?
  := by
  intro n t h
  cases n <;> cases h <;> exact List.mem_cons_self

theorem Pipeline.regular (h : g.Pipeline id) :
  g.Regular id
  := by
  cases h with
  | intro h _ => exact h

theorem Pipeline.input (h : g.Pipeline id) (ht : input? (g.node id) = some t) :
  g.Pipeline t
  := by
  cases h with
  | intro _ hinput => exact hinput t ht

theorem Pipeline.isRelation (h : g.Pipeline id) :
  g.isRelation id = true
  := by
  have hregular := h.regular
  rw [Regular] at hregular
  rw [Graph.isRelation]
  cases hn : g.node id <;> rw [hn] at hregular <;> first | rfl | cases hregular

/-- The number of operators down to the physical table. -/
def depth (g : Graph) (id : NodeId) : Nat :=
  (g.chain input? id).1.length

theorem depth_input (hg : g.WellFounded) {n : Node} (hn : g.node id = n)
    (ht : input? n = some t) :
  g.depth id = g.depth t + 1
  := by
  rw [← hn] at ht
  rw [depth, chain_next follows_input hg ht]
  rfl

/-- The input of an operator is below it. -/
theorem depth_lt_of_input (hg : g.WellFounded) {n : Node} (hn : g.node id = n)
    (ht : input? n = some t) :
  g.depth t < g.depth id
  := by
  rw [depth_input hg hn ht]
  exact Nat.lt_succ_self _

/-- A chain of operators ends deeper than they are. -/
theorem depth_lt_of_mem_chain (hg : g.WellFounded) {next? : Node → Option NodeId}
    (hnext : ∀ n t, next? n = some t → input? n = some t) (id : NodeId) :
  (∀ n ∈ (g.chain next? id).1, g.depth (g.chain next? id).2 < g.depth n)
    ∧ g.depth (g.chain next? id).2 ≤ g.depth id
  := by
  have hfollows : Follows next? := fun n t ht => follows_input n t (hnext n t ht)
  apply chain_induction hfollows hg (P := fun id =>
    (∀ n ∈ (g.chain next? id).1, g.depth (g.chain next? id).2 < g.depth n)
      ∧ g.depth (g.chain next? id).2 ≤ g.depth id)
  · intro id ht
    rw [chain_end hfollows hg ht]
    exact ⟨fun n hn => absurd hn List.not_mem_nil, Nat.le_refl _⟩
  · intro id t ht ih
    rw [chain_next hfollows hg ht]
    have hlt : g.depth (g.chain next? t).2 < g.depth id :=
      Nat.lt_of_le_of_lt ih.2 (depth_lt_of_input hg rfl (hnext _ t ht))
    exact ⟨List.forall_mem_cons.mpr ⟨hlt, ih.1⟩, Nat.le_of_lt hlt⟩

theorem sorts_of_input (hg : g.WellFounded) {n : Node} (hn : g.node id = n)
    (ht : unlimitedInput? n = some t) :
  g.sorts id = (g.isSort id || g.sorts t)
  := by
  rw [← hn] at ht
  rw [sorts, chain_next follows_unlimitedInput hg ht]
  rfl

/-! ### Tables whose rows are passed on -/

theorem Passes.trans {u' : NodeId} (h : g.Passes t u) (h' : g.Passes u u') :
  g.Passes t u'
  := by
  induction h with
  | refl => exact h'
  | selection hn _ ih => exact .selection hn (ih h')

/-- The table below selections has the rows. -/
theorem passes_peel (hg : g.WellFounded) (id : NodeId) :
  g.Passes id (g.peel id).table
  := by
  apply chain_induction follows_selection hg (P := fun id => g.Passes id (g.peel id).table)
  · intro id ht
    rw [peel_other hg ht]
    exact .refl id
  · intro id t ht ih
    obtain ⟨predicates, hn⟩ := eq_selection ht
    rw [peel_selection hg hn]
    exact .selection hn ih

/-- What the rows are passed on from is one of the selections, or the table below them. -/
theorem Passes.mem_peel (hg : g.WellFounded) (h : g.Passes t u) :
  (u ∈ (g.peel t).chain ∧ ∃ t' predicates, g.node u = .selection t' predicates)
    ∨ u = (g.peel t).table
  := by
  induction h with
  | refl t =>
      cases ht : selectionInput? (g.node t) with
      | none =>
          rw [peel_other hg ht]
          exact .inr rfl
      | some t' =>
          obtain ⟨predicates, hn⟩ := eq_selection ht
          rw [peel_selection hg hn]
          exact .inl ⟨List.mem_cons_self, t', predicates, hn⟩
  | selection hn _ ih =>
      rw [peel_selection hg hn]
      exact ih.imp_left fun ⟨hmem, hu⟩ => ⟨List.mem_cons_of_mem _ hmem, hu⟩

/-- The selections lead to one table. -/
theorem Passes.peel_table_eq (hg : g.WellFounded) (h : g.Passes t u) :
  (g.peel t).table = (g.peel u).table
  := by
  induction h with
  | refl => rfl
  | selection hn _ ih => rw [peel_selection hg hn, ih]

theorem Passes.pipeline (h : g.Passes t u) (ht : g.Pipeline t) :
  g.Pipeline u
  := by
  induction h with
  | refl => exact ht
  | selection hn _ ih => exact ih (ht.input (by rw [hn]; rfl))

theorem Passes.schema_eq (hg : g.WellFounded) (h : g.Passes t u) :
  g.schema u = g.schema t
  := by
  induction h with
  | refl => rfl
  | @selection t t' u predicates hn _ ih =>
      rw [ih, Graph.schema_eq hg t, schemaStep, hn]
      rfl

theorem Passes.hasField_eq (hg : g.WellFounded) (h : g.Passes t u) (name : String) :
  g.hasField u name = g.hasField t name
  := by
  rw [hasField, hasField, h.schema_eq hg]

theorem Passes.has (hg : g.WellFounded) (h : g.Passes t u) (ht : g.Has t) :
  g.Has u
  := by
  induction h with
  | refl => exact ht
  | selection hn _ ih =>
      apply ih
      apply hg.has_child ht
      rw [hn]
      exact List.mem_cons_self

theorem Passes.sorts_eq (hg : g.WellFounded) (h : g.Passes t u) :
  g.sorts t = g.sorts u
  := by
  induction h with
  | refl => rfl
  | @selection t t' u predicates hn _ ih =>
      rw [sorts_of_input hg hn rfl, isSort, hn, Bool.false_or, ih]

theorem input_of_selectionInput {n : Node} (h : selectionInput? n = some t) :
  input? n = some t
  := by
  cases n <;> cases h
  rfl

/-- Selections are above the table below them. -/
theorem depth_peel (hg : g.WellFounded) (id : NodeId) :
  (∀ n ∈ (g.peel id).chain, g.depth (g.peel id).table < g.depth n)
    ∧ g.depth (g.peel id).table ≤ g.depth id
  := depth_lt_of_mem_chain hg (fun _ _ => input_of_selectionInput) id

/-- A value of rows that are passed on is one of the rows they are passed on to. -/
theorem Over.of_passes {v : NodeId} (hu : g.Passes t u) (h : g.Over false u v) :
  g.Over false t v
  := by
  induction h with
  | column hn hu' hfield => exact .column hn (hu.trans hu') hfield
  | count hgrouped _ => cases hgrouped
  | operator ho _ ih => exact .operator ho ih

theorem Item.of_passes {i : NodeId} (hu : g.Passes t u) (h : g.Item false u i) :
  g.Item false t i
  := by
  cases h with
  | value hname h => exact .value hname (h.of_passes hu)
  | whole hu' => exact .whole (hu.trans hu')

/-! ### Operators of a pipeline -/

/-- A projection computes its items of the rows of its input. -/
theorem Pipeline.items {items : List NodeId} (h : g.Pipeline id)
    (hn : g.node id = .projection t items) :
  g.Pipeline t ∧ ∀ i ∈ items, g.Item false t i
  := by
  have hregular := h.regular
  rw [Regular, hn] at hregular
  exact ⟨h.input (by rw [hn]; rfl), hregular⟩

/-- The table below selections is part of the pipeline. -/
theorem Pipeline.peel (hg : g.WellFounded) (h : g.Pipeline id) :
  g.Pipeline (g.peel id).table
  := (passes_peel hg id).pipeline h

/-- The predicates of selections are computed of the rows that they keep. -/
theorem Pipeline.predicates (hg : g.WellFounded) (h : g.Pipeline id) :
  ∀ p ∈ (g.peel id).predicates, g.Over false id p
  := by
  revert h
  apply chain_induction follows_selection hg (P := fun id =>
    g.Pipeline id → ∀ p ∈ (g.peel id).predicates, g.Over false id p)
  · intro id ht _ p hp
    rw [peel_other hg ht] at hp
    exact absurd hp List.not_mem_nil
  · intro id t ht ih h p hp
    obtain ⟨predicates, hn⟩ := eq_selection ht
    have hpasses : g.Passes id t := .selection hn (.refl t)
    have hregular := h.regular
    rw [Regular, hn] at hregular
    rw [peel_selection hg hn] at hp
    rcases List.mem_append.mp hp with hp | hp
    · exact (ih (hpasses.pipeline h) p hp).of_passes hpasses
    · exact (hregular p hp).of_passes hpasses

/-! ### Growing graphs -/

theorem Passes.mono (e : g.Extends g') (h : g.Passes t u) :
  g'.Passes t u
  := by
  induction h with
  | refl t => exact .refl t
  | selection hn _ ih => exact .selection (e.node_eq_of hn nofun) ih

theorem Over.mono {grouped : Bool} (e : g.Extends g') (hg : g.WellFounded) (hg' : g'.WellFounded)
    (ht : g.Has t) (hid : g.Has id) (h : g.Over grouped t id) :
  g'.Over grouped t id
  := by
  induction h with
  | column hn hu hfield =>
      refine .column (e.node_eq_of hn nofun) (hu.mono e) ?_
      rw [e.hasField_eq hg hg' (hu.has hg ht), hfield]
  | count hgrouped hn => exact .count hgrouped (e.node_eq_of hn nofun)
  | operator ho _ ih =>
      apply Over.operator
      · rw [e.node_eq hid, ho]
      · intro c hc
        rw [e.node_eq hid] at hc
        exact ih c hc (hg.has_child hid hc)

theorem Item.mono {grouped : Bool} (e : g.Extends g') (hg : g.WellFounded) (hg' : g'.WellFounded)
    (ht : g.Has t) (hid : g.Has id) (h : g.Item grouped t id) :
  g'.Item grouped t id
  := by
  cases h with
  | value hname h => exact .value (by rw [e.name?_eq hid, hname]) (h.mono e hg hg' ht hid)
  | whole hu => exact .whole (hu.mono e)

theorem Extends.sorts_eq (e : g.Extends g') (hg : g.WellFounded) (hg' : g'.WellFounded)
    (hid : g.Has id) :
  g'.sorts id = g.sorts id
  := by
  rw [sorts, sorts, e.chain_eq follows_unlimitedInput hg hg' hid, Bool.eq_iff_iff, List.any_eq_true,
    List.any_eq_true]
  apply exists_congr
  intro n
  apply and_congr_right
  intro hn
  rw [isSort, isSort, e.node_eq (hg.has_of_mem_chain follows_unlimitedInput hid n hn)]

theorem Regular.mono (e : g.Extends g') (hg : g.WellFounded) (hg' : g'.WellFounded)
    (hid : g.Has id) (h : g.Regular id) :
  g'.Regular id
  := by
  have hc : ∀ c ∈ (g.node id).children, g.Has c := fun c hc => hg.has_child hid hc
  rw [Regular] at h
  rw [Regular, e.node_eq hid]
  cases hn : g.node id <;> rw [hn] at h hc
  case selection t predicates =>
    have ht := hc t List.mem_cons_self
    exact fun p hp => (h p hp).mono e hg hg' ht (hc p (List.mem_cons_of_mem t hp))
  case projection t items =>
    have ht := hc t List.mem_cons_self
    exact fun i hi => (h i hi).mono e hg hg' ht (hc i (List.mem_cons_of_mem t hi))
  case aggregation t keys metrics having =>
    have ht := hc t List.mem_cons_self
    have hkeys : ∀ i ∈ keys, g.Has i := fun i hi =>
      hc i (List.mem_cons_of_mem t (List.mem_append_left _ (List.mem_append_left _ hi)))
    have hmetrics : ∀ i ∈ metrics, g.Has i := fun i hi =>
      hc i (List.mem_cons_of_mem t (List.mem_append_left _ (List.mem_append_right _ hi)))
    have hhaving : ∀ p ∈ having, g.Has p := fun p hp =>
      hc p (List.mem_cons_of_mem t (List.mem_append_right _ hp))
    refine ⟨fun i hi => (h.1 i hi).mono e hg hg' ht (hkeys i hi),
      fun i hi => (h.2.1 i hi).mono e hg hg' ht (hmetrics i hi),
      fun p hp => (h.2.2.1 p hp).mono e hg hg' ht (hhaving p hp), ?_⟩
    intro hnil hnone
    obtain ⟨m, hm, hreduction⟩ := h.2.2.2 hnil hnone
    exact ⟨m, hm, (e.hasReduction_eq hg hg' (hmetrics m hm)).trans hreduction⟩
  case sort t keys =>
    have ht := hc t List.mem_cons_self
    refine ⟨fun k hk => (h.1 k hk).mono e hg hg' ht
      (hc k.expr (List.mem_cons_of_mem t (List.mem_map_of_mem hk))), ?_⟩
    rw [e.sorts_eq hg hg' ht, h.2]
  case limit t n offset =>
    simp only [e.node_eq (hc t List.mem_cons_self), h]
  case table | view | distinct => trivial
  all_goals cases h

/-- A pipeline stays one when the graph grows. -/
theorem Pipeline.mono (e : g.Extends g') (hg : g.WellFounded) (hg' : g'.WellFounded)
    (h : g.Pipeline id) :
  g'.Pipeline id
  := by
  induction h with
  | @intro id hregular hinput ih =>
      have hid := has_of_isRelation (Pipeline.intro hregular hinput).isRelation
      refine .intro (hregular.mono e hg hg' hid) ?_
      intro t ht
      rw [e.node_eq hid] at ht
      exact ih t ht

end Graph

end RelSql
