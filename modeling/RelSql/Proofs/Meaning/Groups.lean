import RelSql.Proofs.Meaning.Cores

/-!
# Rows of aggregations

The block of an aggregation selects the rows that its items make of the groups that its filters,
and those above it, keep.
-/

namespace RelSql.Block

variable {Q : QuerySpec} {g : Graph} {b₀ built b : Block} {node t input : NodeId}
  {keys metrics having : List NodeId} {s : Folding} {c : Clauses}

/-- An aggregation below the top of a pipeline, and what is folded into its block. -/
structure Groups (g : Graph) (b₀ : Block) (node t input : NodeId)
    (keys metrics having : List NodeId) (s : Folding) : Prop where
  caps : Caps g node t b₀
  node_eq : g.node (g.peel t).table = .aggregation input keys metrics having
  fused : s.fused = b₀.folding.fused ++ (g.peel t).chain ++ [(g.peel t).table]
    ++ (g.operand input true true).chain
  outputs : s.outputs = [(g.peel t).table]

namespace Groups

/-- The aggregation is made of its input, and computes its items of the rows of that. -/
theorem regular (hg : g.WellFounded) (h : Groups g b₀ node t input keys metrics having s) :
  g.Pipeline input ∧ (∀ i ∈ keys, g.Item false input i) ∧ (∀ i ∈ metrics, g.Item true input i)
    ∧ (∀ p ∈ having, g.Over false input p)
    ∧ (keys = [] → having = [] → ∃ m ∈ metrics, g.hasReduction m = true)
  := by
  have hpipeline := h.caps.pipeline.peel hg
  have hregular := hpipeline.regular
  rw [Graph.Regular, h.node_eq] at hregular
  exact ⟨hpipeline.input (by rw [h.node_eq]; rfl), hregular⟩

theorem mem_fused (h : Groups g b₀ node t input keys metrics having s) {n : NodeId} :
  n ∈ s.fused ↔ n ∈ b₀.folding.fused ∨ n ∈ (g.peel t).chain ∨ n = (g.peel t).table
    ∨ n ∈ (g.operand input true true).chain
  := by
  rw [h.fused]
  simp only [List.mem_append, List.mem_singleton, or_assoc]

/-- What is folded is above the table of the FROM clause. -/
theorem above (hg : g.WellFounded) (h : Groups g b₀ node t input keys metrics having s) :
  s.Above g (g.operand input true true).table
  := by
  have htaken := (h.regular hg).1.takenOff hg
  have hbelow : g.depth (g.peel (g.operand input true true).table).table
      < g.depth (g.peel t).table := by
    have hinput := Graph.depth_input hg h.node_eq rfl
    have hpeel := (Graph.depth_peel hg (g.operand input true true).table).2
    have hle := htaken.depth_le
    omega
  have hle := (Graph.depth_peel hg t).2
  constructor
  · intro n hn
    rcases h.mem_fused.mp hn with hn | hn | rfl | hn
    · have hlt := h.caps.depth_lt n hn
      omega
    · have hlt := (Graph.depth_peel hg t).1 n hn
      omega
    · exact hbelow
    · exact htaken.chain_lt n hn
  · rw [h.outputs]
    refine List.forall_mem_singleton.mpr ⟨h.mem_fused.mpr (.inr (.inr (.inl rfl))), ?_⟩
    rw [h.node_eq]
    rfl

/-- What resolves on the rows of the FROM clause does so on those of the input. -/
theorem input_columns (hg : g.WellFounded) (h : Groups g b₀ node t input keys metrics having s)
    {α : Type} {A : Algebra α} {P : String → α → Prop}
    (hcolumns : s.HasColumns .substitute A g P (g.operand input true true).table) :
  s.HasColumns .substitute A g P input
  := by
  have hmode : LiftMode.substitute ≠ .projections := nofun
  refine ((h.regular hg).1.takenOff hg).hasColumns hmode ?_ hcolumns
  intro n hn
  exact Folding.passesOn_of_mem (h.mem_fused.mpr (.inr (.inr (.inr hn)))) (.inl rfl)

variable {V : Type} {I : Interpretation V}

/-- The columns of the input are read from the rows of the FROM clause. -/
theorem gives_input (hg : g.WellFounded) (h : Groups g b₀ node t input keys metrics having s)
    (hc : c.outputs = s.outputs) :
  s.Gives .substitute I (c.column I) g (fun _ => True) input Context.row
  := h.input_columns hg ((h.above hg).gives hg hc)

/-- The columns of the aggregation, and of the selections above it, are those of the row that its
items make of a group. -/
theorem gives (hg : g.WellFounded) (h : Groups g b₀ node t input keys metrics having s)
    (hc : c.outputs = s.outputs) :
  s.Gives .substitute I (c.column I) g (fun _ => True) t (g.itemsRow I.values (keys ++ metrics))
  := by
  obtain ⟨hinput, hkeys, hmetrics, _, _⟩ := h.regular hg
  have hmode : LiftMode.substitute ≠ .projections := nofun
  have hmem : ∀ {n}, n ∈ (g.peel t).chain ∨ n = (g.peel t).table →
      s.passesOn .substitute n = true := by
    intro n hn
    apply Folding.passesOn_of_mem (h.mem_fused.mpr _) (.inl rfl)
    exact .inr (hn.imp_right .inl)
  have hitems : ∀ i ∈ keys ++ metrics, ∃ grouped, g.Item grouped input i :=
    List.forall_mem_append.mpr ⟨fun i hi => ⟨false, hkeys i hi⟩, fun i hi => ⟨true, hmetrics i hi⟩⟩
  have htable := (h.gives_input hg hc).aggregation (I := I) hg hmode h.node_eq (hmem (.inr rfl))
    hinput hitems
  exact (h.caps.pipeline.takenOff_peel hg).hasColumns hmode (fun n hn => hmem (.inl hn)) htable

/-- The keys at the top are read from the row that the block outputs. -/
theorem key_value (hg : g.WellFounded) (h : Groups g b₀ node t input keys metrics having s)
    (hc : c.outputs = s.outputs) :
  ∀ k ∈ b₀.clauses.orderBy, ∀ x : Context V,
    (s.resolve .output (I.algebra (c.column I)) g k.expr).value x
      = g.denote I.values k.expr (.ofRow x.output)
  := by
  have hrow : s.Gives .output I (c.column I) g (fun _ => True) (g.peel t).table Context.output := by
    apply Folding.gives_output hg hc _ (hg.peel_table t)
    rw [h.outputs]
    exact List.mem_singleton_self _
  intro k hk x
  refine h.caps.key_value hg ?_ ?_ hrow k hk x trivial
  · intro n hn
    rcases List.mem_append.mp hn with hn | hn
    · exact h.mem_fused.mpr (.inl hn)
    · exact h.mem_fused.mpr (.inr (.inl hn))
  · rw [h.outputs]
    refine List.forall_mem_singleton.mpr ?_
    rw [h.node_eq]
    rfl

/-- The clauses of a block over the groups. -/
structure Lifted (g : Graph) (b₀ : Block) (t input : NodeId) (keys metrics having : List NodeId)
    (s : Folding) (c : Clauses) : Prop where
  outputs : c.outputs = s.outputs
  groupBy : c.groupBy = List.range keys.length
  select : List.Forall₂ (s.LiftsSelected g) (keys ++ metrics) c.select
  predicates : List.Forall₂ (s.Lifts .substitute g) (g.operand input true true).predicates
    c.predicates
  having : List.Forall₂ (s.Lifts .substitute g) (having ++ (g.peel t).predicates) c.having
  orderBy : List.Forall₂ (s.LiftsKey g) b₀.clauses.orderBy c.orderBy

/-- The block makes groups: it has keys, or filters of groups, or a metric with a reduction. -/
theorem aggregates (hg : g.WellFounded) (h : Groups g b₀ node t input keys metrics having s)
    (hc : Lifted g b₀ t input keys metrics having s c) :
  c.aggregates g = true
  := by
  obtain ⟨_, _, _, _, hreduction⟩ := h.regular hg
  rw [Clauses.aggregates, Bool.or_eq_true, Bool.or_eq_true, decide_eq_true_eq, decide_eq_true_eq,
    List.any_eq_true]
  by_cases hkeys : keys = []
  · by_cases hfilters : c.having = []
    · have hhaving := hc.having
      rw [hfilters, List.forall₂_nil_right_iff, List.append_eq_nil_iff] at hhaving
      obtain ⟨m, hm, hholds⟩ := hreduction hkeys hhaving.1
      obtain ⟨l, hl, hlifts⟩ := forall₂_exists hc.select m (List.mem_append_right _ hm)
      refine .inr ⟨l, hl, ?_⟩
      cases hlifts with
      | star hr _ =>
          rw [Graph.hasReduction_of_isRelation hg hr] at hholds
          cases hholds
      | value hr hlifts =>
          rw [Graph.hasReduction_eq hg hlifts.source] at hholds
          rw [Graph.hasReduction_eq hg hlifts.target,
            hlifts.denote _ Algebra.reductions_transparent]
          exact Folding.reductions_resolve hg hholds
    · exact .inl (.inr hfilters)
  · refine .inl (.inl ?_)
    rw [hc.groupBy, Ne, List.range_eq_nil, List.length_eq_zero_iff]
    exact hkeys

/-- The lifted items of a list make the columns that the items make of a group. -/
theorem itemsRow_eq (hg : g.WellFounded) (h : Groups g b₀ node t input keys metrics having s)
    (hc : c.outputs = s.outputs) {items lifted : List NodeId}
    (hitems : ∀ i ∈ items, ∃ grouped, g.Item grouped input i)
    (hlifts : List.Forall₂ (s.LiftsSelected g) items lifted) (x : Context V) :
  g.itemsRow (I.algebra (c.column I)) lifted x = g.itemsRow I.values items x
  := by
  have hinput := (h.regular hg).1
  apply Graph.itemsRow_lifted hlifts
  intro i hi
  obtain ⟨grouped, hitem⟩ := hitems i hi
  refine ⟨fun hr => ⟨?_, rfl⟩, fun hr => ?_⟩
  · exact ((hitem.passes hr).pipeline hinput |>.star hg).isRelation
  · obtain ⟨hname, hover⟩ := hitem.over hinput hr
    exact ⟨hname, (h.gives_input hg hc).group hg hover x⟩

/-- The lifted filters of groups keep the groups that the filters of the aggregation keep, and of
which it makes rows that the selections above it keep. -/
theorem having_eq (hg : g.WellFounded) (h : Groups g b₀ node t input keys metrics having s)
    (hc : Lifted g b₀ t input keys metrics having s c) (x : Context V) :
  I.keeps (I.algebra (c.column I)) g c.having x
    = (I.keeps I.values g (g.peel t).predicates
        (.ofRow (g.itemsRow I.values (keys ++ metrics) x)) && I.keeps I.values g having x)
  := by
  obtain ⟨_, _, _, hhaving, _⟩ := h.regular hg
  have hpredicates := h.caps.pipeline.predicates hg
  obtain ⟨own, filters, hsplit, hown, hfilters⟩ := exists_of_forall₂_append hc.having
  rw [hsplit, Interpretation.keeps_append, Bool.and_comm]
  congr 1
  · apply I.keeps_lifted hfilters
    exact fun p hp => (h.gives hg hc.outputs).value hg (hpredicates p hp) trivial
  · apply I.keeps_lifted hown
    exact fun p hp => (h.gives_input hg hc.outputs).group hg (hhaving p hp) x

variable [DecidableEq V] {db : Database V}

/-- The groups of the block are those of the rows of the input. -/
theorem groups_eq (hg : g.WellFounded) (h : Groups g b₀ node t input keys metrics having s)
    (hc : Lifted g b₀ t input keys metrics having s c) (rows : List (Row V)) :
  grouped (c.groupBy.filterMap fun i => c.select[i]?)
      (fun r => g.itemsRow (I.algebra (c.column I)) (c.groupBy.filterMap fun i => c.select[i]?)
        (.ofRow r)) rows
    = grouped keys (fun r => g.itemsRow I.values keys (.ofRow r)) rows
  := by
  obtain ⟨_, hkeys, _⟩ := h.regular hg
  obtain ⟨lifted, rest, hsplit, hlifted, _⟩ := exists_of_forall₂_append hc.select
  have hpositions : c.groupBy.filterMap (fun i => c.select[i]?) = lifted := by
    rw [hc.groupBy, hsplit, hlifted.length_eq]
    exact filterMap_range_append lifted rest
  rw [hpositions]
  apply grouped_congr
  · rw [← List.length_eq_zero_iff, ← hlifted.length_eq, List.length_eq_zero_iff]
  · intro r _
    exact h.itemsRow_eq hg hc.outputs (fun i hi => ⟨false, hkeys i hi⟩) hlifted (.ofRow r)

/-- The rows of the table are made of the groups that the filters keep. -/
theorem rows_eq (hg : g.WellFounded) (h : Groups g b₀ node t input keys metrics having s) :
  g.rows I db t
    = (((grouped keys (fun r => g.itemsRow I.values keys (.ofRow r)) (g.rows I db input)).map
        Context.ofGroup).filter fun x => I.keeps I.values g (g.peel t).predicates
          (.ofRow (g.itemsRow I.values (keys ++ metrics) x)) && I.keeps I.values g having x).map
            (g.itemsRow I.values (keys ++ metrics))
  := by
  rw [Graph.rows_peel hg t, Graph.rows_aggregation hg h.node_eq, List.filter_map,
    List.filter_filter]
  rfl

/-- The block selects the rows of the table. -/
theorem selected (hg : g.WellFounded) (h : Groups g b₀ node t input keys metrics having s)
    (hc : Lifted g b₀ t input keys metrics having s c) :
  c.selected I g (g.rows I db (g.operand input true true).table)
    = I.sorted (fun v r => g.denote I.values v (.ofRow r)) b₀.clauses.orderBy (g.rows I db t)
  := by
  obtain ⟨hinput, hkeys, hmetrics, _, _⟩ := h.regular hg
  have htaken := hinput.takenOff hg
  have hwhere : ∀ r ∈ g.rows I db (g.operand input true true).table,
      I.keeps (I.algebra (c.column I)) g c.predicates (.ofRow r)
        = I.keeps I.values g (g.operand input true true).predicates (.ofRow r) := by
    intro r _
    apply I.keeps_lifted hc.predicates
    exact fun p hp => (h.gives_input hg hc.outputs).value hg (htaken.values p hp) trivial
  have hitems : ∀ i ∈ keys ++ metrics, ∃ grouped, g.Item grouped input i :=
    List.forall_mem_append.mpr ⟨fun i hi => ⟨false, hkeys i hi⟩, fun i hi => ⟨true, hmetrics i hi⟩⟩
  rw [Clauses.selected_groups (h.aggregates hg hc) hwhere (h.groups_eq hg hc _) (h.having_eq hg hc)
      (h.itemsRow_eq hg hc.outputs hitems hc.select), ← htaken.rows I db,
    I.sorted_outputs hc.orderBy (h.key_value hg hc.outputs), h.rows_eq hg, List.map_map]
  rfl

end Groups

/-- The block of an aggregation. -/
theorem realizes_aggregation (hg : g.WellFounded) (hcaps : Caps g node t b₀)
    (hnode : g.node (g.peel t).table = .aggregation input keys metrics having) {b' : Block}
    (hdraws : Draws Q (g.operand input true true).chain (.table (g.operand input true true).table)
      ((b₀.foldAll (g.peel t).chain).output (g.peel t).table) g b')
    (hbuilt : built = { b' with
      aggregate := true
      clauses := { b'.clauses with
        select := keys ++ metrics
        predicates := (g.operand input true true).predicates
        groupBy := List.range keys.length
        having := having ++ (g.peel t).predicates } })
    (h : Completed Q built (.leaf (g.operand input true true).table) g b) :
  Realizes g b₀ t (g.operand input true true).table b
    ∧ g.depth (g.operand input true true).table < g.depth t
  := by
  have hgroups : Groups g b₀ node t input keys metrics having b.folding := by
    refine ⟨hcaps, hnode, ?_, ?_⟩
    · rw [h.fused, hbuilt, hdraws.folding]
      simp [foldAll, output, JoinTree.folded]
    · rw [h.outputs, hbuilt, hdraws.folding]
      simp [foldAll, output, hcaps.outputs]
  obtain ⟨houtputs, hgroup, hdistinct, hlimit⟩ := h.same
  rw [hbuilt] at houtputs hgroup hdistinct hlimit
  simp only [hdraws.clauses, output, foldAll] at houtputs hgroup hdistinct hlimit
  have hselect := h.select
  have hhaving := h.having
  have horder := h.orderBy
  rw [hbuilt] at hselect hhaving horder
  simp only [hdraws.clauses, output, foldAll] at hselect hhaving horder
  obtain ⟨hinput, _, _, _, _⟩ := hgroups.regular hg
  have htaken := hinput.takenOff hg
  have hplain : b.folding.Plain .substitute g (fun _ _ => True) input :=
    hgroups.input_columns hg ((hgroups.above hg).plain hg)
  have hpredicates : built.clauses.predicates = (g.operand input true true).predicates := by
    rw [hbuilt]
  obtain ⟨hsource, hnested, hlifts⟩ := h.single hg fun p hp =>
    ⟨input, htaken.values p (hpredicates ▸ hp), hplain⟩
  rw [hpredicates] at hlifts
  have hdepth : g.depth (g.peel t).table = g.depth input + 1 :=
    Graph.depth_input hg hnode rfl
  have hpeel := (Graph.depth_peel hg t).2
  have hle := htaken.depth_le
  refine ⟨⟨hsource, hnested, htaken.pipeline, hdistinct, hlimit, ?_⟩, by omega⟩
  intro V _ I db
  refine hgroups.selected hg ⟨?_, hgroup, hselect, hlifts, hhaving, horder⟩
  rw [houtputs, hgroups.outputs, hcaps.ungrouped.1]
  rfl

end RelSql.Block
