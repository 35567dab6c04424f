import RelSql.Proofs.Meaning.Cores

/-!
# Rows of projections

The block of a projection, with the projections that it is fused with, selects the rows that
its items make of the rows that its predicates keep.  It is ordered by a sort above the
projection or by one below it.
-/

namespace RelSql.Block

variable {Q : QuerySpec} {g : Graph} {b₀ built b : Block} {node t top input source : NodeId}
  {outer items sorts : List NodeId} {fs : List Fused} {core : NodeId} {s : Folding} {c : Clauses}

/-- A projection below the top of a pipeline, which is fused to `core`, and what is folded into
its block. -/
structure Projects (g : Graph) (b₀ : Block) (node t : NodeId) (fs : List Fused)
    (core input source : NodeId) (sorts items : List NodeId) (s : Folding) : Prop where
  caps : Caps g node t b₀
  isProjection : g.isProjection (g.peel t).table = true
  fuses : g.FusesTo (g.peel t).table fs core
  core_eq : g.node core = .projection input items
  chain_eq : g.chain Graph.sortInput? input = (sorts, source)
  fused : s.fused = b₀.folding.fused ++ (g.peel t).chain ++ [(g.peel t).table]
    ++ (fs.flatMap fun f => f.absorbed ++ [f.node]) ++ sorts ++ (g.operand source true true).chain
  outputs : s.outputs = (g.peel t).table :: fs.map Fused.node

/-- What a projection is fused to is a projection. -/
theorem isProjection_of_mem {projection : NodeId} (h : g.FusesTo projection fs core) :
  ∀ f ∈ fs, g.isProjection f.node = true
  := by
  induction h with
  | nil => exact nofun
  | cons hfuses _ ih =>
      refine List.forall_mem_cons.mpr ⟨?_, ih⟩
      obtain ⟨_, _, _, _, _, hnode, _, _⟩ := hfuses
      rw [Graph.isProjection, hnode]

namespace Projects

theorem mem_fused (h : Projects g b₀ node t fs core input source sorts items s) {n : NodeId} :
  n ∈ s.fused ↔ n ∈ b₀.folding.fused ∨ n ∈ (g.peel t).chain ∨ n = (g.peel t).table
    ∨ (n ∈ fs.flatMap fun f => f.absorbed ++ [f.node]) ∨ n ∈ sorts
    ∨ n ∈ (g.operand source true true).chain
  := by
  rw [h.fused]
  simp only [List.mem_append, List.mem_singleton, or_assoc]

/-- The block outputs projections. -/
theorem isProjection_output (h : Projects g b₀ node t fs core input source sorts items s) :
  ∀ n ∈ s.outputs, g.isProjection n = true
  := by
  rw [h.outputs]
  refine List.forall_mem_cons.mpr ⟨h.isProjection, ?_⟩
  intro n hn
  obtain ⟨f, hf, rfl⟩ := List.mem_map.mp hn
  exact isProjection_of_mem h.fuses f hf

theorem kept_output (h : Projects g b₀ node t fs core input source sorts items s) :
  ∀ n ∈ s.outputs, Graph.keptInput? (g.node n) = none
  := by
  intro n hn
  obtain ⟨u, selections, hn⟩ := Graph.eq_projection (h.isProjection_output n hn)
  rw [hn]
  rfl

/-- The projection is fused to one of a pipeline. -/
theorem condenses (hg : g.WellFounded)
    (h : Projects g b₀ node t fs core input source sorts items s) :
  ∃ input₀ outer, g.node (g.peel t).table = .projection input₀ outer ∧ g.Pipeline core
    ∧ (∀ {V : Type} [DecidableEq V] (I : Interpretation V) (db : Database V),
      g.rows I db core = g.rows I db (g.peel t).table)
    ∧ g.Condenses input₀ outer (fs.flatMap fun f => f.absorbed ++ [f.node]) input items
  := by
  obtain ⟨input₀, outer, hn⟩ := Graph.eq_projection h.isProjection
  obtain ⟨hcore, hrows, input', items', hn', hcondenses⟩ :=
    h.fuses.condenses hg (h.caps.pipeline.peel hg) hn
  rw [h.core_eq] at hn'
  cases hn'
  exact ⟨input₀, outer, hn, hcore, hrows, hcondenses⟩

/-- The input of the projection is a pipeline, whose rows the items are computed of. -/
theorem input_items (hg : g.WellFounded)
    (h : Projects g b₀ node t fs core input source sorts items s) :
  g.Pipeline input ∧ ∀ i ∈ items, g.Item false input i
  := by
  obtain ⟨_, _, _, hcore, _, _⟩ := h.condenses hg
  exact hcore.items h.core_eq

/-- The sorts of the input. -/
theorem sorted (hg : g.WellFounded)
    (h : Projects g b₀ node t fs core input source sorts items s) :
  g.Sorted input source sorts (g.innerKeys sorts)
    ∧ (g.sorts input = false → g.innerKeys sorts = [])
  := by
  obtain ⟨hsorted, hinner, hnone⟩ := (h.input_items hg).1.sorted hg
  rw [h.chain_eq] at hsorted hinner hnone
  rw [hinner]
  refine ⟨hsorted, fun hunsorted => ?_⟩
  rw [hnone hunsorted]
  rfl

theorem takenOff (hg : g.WellFounded)
    (h : Projects g b₀ node t fs core input source sorts items s) :
  g.TakenOff source (g.operand source true true)
  := (h.sorted hg).1.pipeline.takenOff hg

/-- What is folded is above the table of the FROM clause. -/
theorem above (hg : g.WellFounded)
    (h : Projects g b₀ node t fs core input source sorts items s) :
  s.Above g (g.operand source true true).table
    ∧ g.depth (g.operand source true true).table < g.depth t
  := by
  obtain ⟨input₀, outer, hn, _, _, hcondenses⟩ := h.condenses hg
  obtain ⟨hsorted, _⟩ := h.sorted hg
  have htaken := h.takenOff hg
  have hprojection := Graph.depth_input hg hn rfl
  have hcore := hcondenses.depth_le
  have hsource := hsorted.depth_le
  have hleaf := htaken.depth_le
  have hpeel := (Graph.depth_peel hg source).2
  have hbelow : g.depth (g.peel (g.operand source true true).table).table
      ≤ g.depth (g.peel source).table := Nat.le_of_eq (by rw [htaken.peel_eq])
  have htop := (Graph.depth_peel hg t).2
  -- below a sort, and without one the same table
  have hinput : g.depth (g.peel source).table ≤ g.depth (g.peel input).table := by
    rcases hsorted.kept with ⟨hsame, _⟩ | ⟨_, keys, hn⟩
    · rw [hsame]
    · have hnone : g.peel input = ⟨input, [], []⟩ := Graph.peel_other hg (by rw [hn]; rfl)
      rw [hnone]
      exact Nat.le_trans hpeel hsource
  refine ⟨⟨?_, ?_⟩, by omega⟩
  · intro n hn
    rcases h.mem_fused.mp hn with hn | hn | rfl | hn | hn | hn
    · have hlt := h.caps.depth_lt n hn
      omega
    · have hlt := (Graph.depth_peel hg t).1 n hn
      omega
    · omega
    · have hlt := hcondenses.peel_lt n hn
      omega
    · have hlt := hsorted.depth_lt n hn
      omega
    · exact htaken.chain_lt n hn
  · intro n hn
    refine ⟨?_, ?_⟩
    · rw [h.outputs] at hn
      rcases List.mem_cons.mp hn with rfl | hn
      · exact h.mem_fused.mpr (.inr (.inr (.inl rfl)))
      · obtain ⟨f, hf, rfl⟩ := List.mem_map.mp hn
        refine h.mem_fused.mpr (.inr (.inr (.inr (.inl ?_))))
        exact List.mem_flatMap.mpr ⟨f, hf, List.mem_append_right _ (List.mem_singleton_self _)⟩
    · have hkept := h.kept_output n hn
      cases hn : g.node n <;> rw [hn] at hkept <;> first | rfl | cases hkept

/-- What is folded below the projections gives its columns away. -/
theorem passesOn_of_below (h : Projects g b₀ node t fs core input source sorts items s)
    {mode : LiftMode} (hmode : mode = .substitute ∨ mode = .output) {n : NodeId}
    (hn : n ∈ s.fused) (hkept : (Graph.keptInput? (g.node n)).isSome = true) :
  s.passesOn mode n = true
  := by
  apply Folding.passesOn_of_mem hn
  apply hmode.imp_right
  refine fun hmode => ⟨hmode, fun houtput => ?_⟩
  rw [h.kept_output n houtput] at hkept
  cases hkept

/-- What resolves on the rows of the FROM clause does so on those below the sorts. -/
theorem source_columns (hg : g.WellFounded)
    (h : Projects g b₀ node t fs core input source sorts items s) {mode : LiftMode}
    (hmode : mode = .substitute ∨ mode = .output) {α : Type} {A : Algebra α}
    {P : String → α → Prop}
    (hcolumns : s.HasColumns mode A g P (g.operand source true true).table) :
  s.HasColumns mode A g P source
  := by
  have hmode' : mode ≠ .projections := by rcases hmode with rfl | rfl <;> nofun
  refine (h.takenOff hg).hasColumns hmode' ?_ hcolumns
  intro n hn
  apply h.passesOn_of_below hmode
  · exact h.mem_fused.mpr (.inr (.inr (.inr (.inr (.inr hn)))))
  · obtain ⟨u, hu⟩ := Option.isSome_iff_exists.mp ((h.takenOff hg).selections n hn)
    rw [Graph.keptInput_of_selectionInput hu]
    rfl

/-- What resolves on the rows of the FROM clause does so on those of the input. -/
theorem input_columns (hg : g.WellFounded)
    (h : Projects g b₀ node t fs core input source sorts items s) {α : Type} {A : Algebra α}
    {P : String → α → Prop}
    (hcolumns : s.HasColumns .substitute A g P (g.operand source true true).table) :
  s.HasColumns .substitute A g P input
  := by
  have hsource := h.source_columns hg (.inl rfl) hcolumns
  rcases (h.sorted hg).1.kept with ⟨hsame, _⟩ | ⟨hmem, keys, hn⟩
  · rw [← hsame]
    exact hsource
  · have hkept : Graph.keptInput? (g.node input) = some source := by rw [hn]; rfl
    have hmode : LiftMode.substitute ≠ .projections := nofun
    refine Folding.HasColumns.kept hg hmode ?_ hkept hsource
    apply h.passesOn_of_below (.inl rfl)
    · exact h.mem_fused.mpr (.inr (.inr (.inr (.inr (.inl hmem)))))
    · rw [hkept]
      rfl

/-- What resolves on the rows of the projection does so on those of the selections above it. -/
theorem top_columns (hg : g.WellFounded)
    (h : Projects g b₀ node t fs core input source sorts items s) {α : Type} {A : Algebra α}
    {P : String → α → Prop} (hcolumns : s.HasColumns .substitute A g P (g.peel t).table) :
  s.HasColumns .substitute A g P t
  := by
  have hmode : LiftMode.substitute ≠ .projections := nofun
  refine (h.caps.pipeline.takenOff_peel hg).hasColumns hmode ?_ hcolumns
  exact fun n hn => Folding.passesOn_of_mem (h.mem_fused.mpr (.inr (.inl hn))) (.inl rfl)

/-- What is folded from the projection on gives its columns away. -/
theorem passesOn (h : Projects g b₀ node t fs core input source sorts items s) :
  s.passesOn .substitute (g.peel t).table = true
    ∧ ∀ n ∈ fs.flatMap fun f => f.absorbed ++ [f.node], s.passesOn .substitute n = true
  := by
  constructor
  · exact Folding.passesOn_of_mem (h.mem_fused.mpr (.inr (.inr (.inl rfl)))) (.inl rfl)
  · intro n hn
    exact Folding.passesOn_of_mem (h.mem_fused.mpr (.inr (.inr (.inr (.inl hn))))) (.inl rfl)

/-- The values of the input and those of the rows of the projections are plain. -/
theorem plain (hg : g.WellFounded)
    (h : Projects g b₀ node t fs core input source sorts items s) :
  s.Plain .substitute g (fun _ _ => True) source ∧ s.Plain .substitute g (fun _ _ => True) input
    ∧ s.Plain .substitute g (fun _ _ => True) t
  := by
  have hmode : LiftMode.substitute ≠ .projections := nofun
  have hleaf : s.Plain .substitute g (fun _ _ => True) (g.operand source true true).table :=
    (h.above hg).1.plain hg
  have hinput : s.Plain .substitute g (fun _ _ => True) input := h.input_columns hg hleaf
  obtain ⟨input₀, outer, hn, _, _, hcondenses⟩ := h.condenses hg
  obtain ⟨hinput₀, houter⟩ := (h.caps.pipeline.peel hg).items hn
  obtain ⟨hprojection, hnodes⟩ := h.passesOn
  have hplain := (hcondenses.plain hmode hnodes hinput).projection hg hn hprojection hinput₀ houter
  exact ⟨h.source_columns hg (.inl rfl) hleaf, hinput, h.top_columns hg hplain⟩

variable {V : Type} {I : Interpretation V}

/-- The columns below the sorts, and those of the input, are read from the rows of the FROM
clause. -/
theorem gives_input (hg : g.WellFounded)
    (h : Projects g b₀ node t fs core input source sorts items s) (hc : c.outputs = s.outputs) :
  (∀ mode, mode = .substitute ∨ mode = .output →
      s.Gives mode I (c.column I) g (fun _ => True) source Context.row)
    ∧ s.Gives .substitute I (c.column I) g (fun _ => True) input Context.row
  := ⟨fun _ hmode => h.source_columns hg hmode ((h.above hg).1.gives hg hc),
    h.input_columns hg ((h.above hg).1.gives hg hc)⟩

/-- The columns of the projection, and of the selections above it, are those of the row that the
items make. -/
theorem gives (hg : g.WellFounded)
    (h : Projects g b₀ node t fs core input source sorts items s) (hc : c.outputs = s.outputs) :
  ∃ row, s.Gives .substitute I (c.column I) g (fun x => g.Fits input x.row) t row
    ∧ ∀ x : Context V, g.Fits input x.row →
      row x = g.itemsRow I.values items (.ofRow x.row)
  := by
  have hmode : LiftMode.substitute ≠ .projections := nofun
  obtain ⟨input₀, outer, hn, _, _, hcondenses⟩ := h.condenses hg
  obtain ⟨hinput₀, houter⟩ := (h.caps.pipeline.peel hg).items hn
  obtain ⟨hprojection, hnodes⟩ := h.passesOn
  obtain ⟨row, hgives, hfits, hrow⟩ := hcondenses.gives (D := fun x => g.Fits input x.row) hmode
    hnodes (fun _ hx => hx) (h.gives_input hg hc (I := I)).2.of_forall
  exact ⟨_, h.top_columns hg (hgives.projection hg hn hprojection hinput₀ houter hfits), hrow⟩

/-- The keys at the top are read from the row that the block outputs. -/
theorem key_value_top (hg : g.WellFounded)
    (h : Projects g b₀ node t fs core input source sorts items s) (hc : c.outputs = s.outputs) :
  ∀ k ∈ b₀.clauses.orderBy, ∀ x : Context V,
    (s.resolve .output (I.algebra (c.column I)) g k.expr).value x
      = g.denote I.values k.expr (.ofRow x.output)
  := by
  have hrow : s.Gives .output I (c.column I) g (fun _ => True) (g.peel t).table Context.output := by
    apply Folding.gives_output hg hc _ (hg.peel_table t)
    rw [h.outputs]
    exact List.mem_cons_self
  intro k hk x
  refine h.caps.key_value hg ?_ h.kept_output hrow k hk x trivial
  intro n hn
  rcases List.mem_append.mp hn with hn | hn
  · exact h.mem_fused.mpr (.inl hn)
  · exact h.mem_fused.mpr (.inr (.inl hn))

/-- The keys below the projections are read from the row of the FROM clause. -/
theorem key_value_inner (hg : g.WellFounded)
    (h : Projects g b₀ node t fs core input source sorts items s) (hc : c.outputs = s.outputs) :
  ∀ k ∈ g.innerKeys sorts, ∀ x : Context V,
    (s.resolve .output (I.algebra (c.column I)) g k.expr).value x
      = g.denote I.values k.expr (.ofRow x.row)
  := by
  intro k hk x
  exact ((h.gives_input hg hc).1 .output (.inr rfl)).value hg ((h.sorted hg).1.values k hk) trivial

/-- Sorts stand above the projections or below them. -/
theorem unsorted (hg : g.WellFounded)
    (h : Projects g b₀ node t fs core input source sorts items s)
    (hkeys : b₀.clauses.orderBy ≠ []) :
  g.innerKeys sorts = []
  := by
  obtain ⟨input₀, outer, hn, _, _, hcondenses⟩ := h.condenses hg
  apply (h.sorted hg).2
  rw [hcondenses.sorts_eq]
  have hunsorted := h.caps.sorts.resolve_left hkeys
  rw [(Graph.passes_peel hg t).sorts_eq hg, Graph.sorts_of_input hg hn rfl,
    Bool.or_eq_false_iff] at hunsorted
  exact hunsorted.2

/-- The clauses of a block over the rows that the items are computed of. -/
structure Lifted (g : Graph) (b₀ : Block) (t source : NodeId) (sorts items : List NodeId)
    (s : Folding) (c : Clauses) : Prop where
  outputs : c.outputs = s.outputs
  groupBy : c.groupBy = []
  having : c.having = []
  select : List.Forall₂ (s.LiftsSelected g) items c.select
  predicates : List.Forall₂ (s.Lifts .substitute g)
    ((g.operand source true true).predicates ++ (g.peel t).predicates) c.predicates
  orderBy : List.Forall₂ (s.LiftsKey g)
    (if b₀.clauses.orderBy = [] then g.innerKeys sorts else b₀.clauses.orderBy) c.orderBy

/-- The block makes no groups. -/
theorem aggregates (hg : g.WellFounded)
    (h : Projects g b₀ node t fs core input source sorts items s)
    (hc : Lifted g b₀ t source sorts items s c) :
  c.aggregates g = false
  := by
  obtain ⟨hinput, hitems⟩ := h.input_items hg
  apply Clauses.aggregates_eq_false hc.groupBy hc.having
  intro l hl
  obtain ⟨item, hitem, hlifts⟩ := forall₂_exists hc.select.flip l hl
  cases hlifts with
  | star hr _ =>
      have hpasses := (hitems item hitem).passes hr
      exact Graph.hasReduction_of_isRelation hg ((hpasses.pipeline hinput).star hg).isRelation
  | value hr hlifts =>
      have hover := ((hitems item hitem).over hinput hr).2
      rw [Graph.hasReduction_eq hg hlifts.target]
      apply Graph.reductions_of_plain hg (T := fun _ _ => True)
      rw [hlifts.denote _ Algebra.plain_transparent]
      exact (h.plain hg).2.1.value hg hover

/-- Which rows of the FROM clause the block keeps. -/
def keeps (I : Interpretation V) (g : Graph) (t source : NodeId) (items : List NodeId)
    (r : Row V) : Bool :=
  I.keeps I.values g (g.peel t).predicates (.ofRow (g.itemsRow I.values items (.ofRow r)))
    && I.keeps I.values g (g.operand source true true).predicates (.ofRow r)

/-- The lifted predicates keep the rows that the predicates below the projections keep, and of
which they make rows that the predicates above keep. -/
theorem predicates_eq (hg : g.WellFounded)
    (h : Projects g b₀ node t fs core input source sorts items s)
    (hc : Lifted g b₀ t source sorts items s c) {r : Row V} (hr : g.Fits input r) :
  I.keeps (I.algebra (c.column I)) g c.predicates (.ofRow r) = keeps I g t source items r
  := by
  obtain ⟨row, hgives, hrow⟩ := h.gives hg (I := I) hc.outputs
  obtain ⟨below, above, hsplit, hbelow, habove⟩ := exists_of_forall₂_append hc.predicates
  rw [hsplit, Interpretation.keeps_append, Bool.and_comm, keeps]
  congr 1
  · apply I.keeps_lifted habove
    intro p hp
    rw [hgives.value hg (h.caps.pipeline.predicates hg p hp) (x := .ofRow r) hr,
      hrow (.ofRow r) hr]
    rfl
  · apply I.keeps_lifted hbelow
    intro p hp
    exact ((h.gives_input hg hc.outputs).1 .substitute (.inl rfl)).value hg
      ((h.takenOff hg).values p hp) trivial

/-- The lifted items make the row that the items make. -/
theorem itemsRow_eq (hg : g.WellFounded)
    (h : Projects g b₀ node t fs core input source sorts items s)
    (hc : Lifted g b₀ t source sorts items s c) (r : Row V) :
  g.itemsRow (I.algebra (c.column I)) c.select (.ofRow r) = g.itemsRow I.values items (.ofRow r)
  := by
  obtain ⟨hinput, hitems⟩ := h.input_items hg
  apply Graph.itemsRow_lifted hc.select
  intro i hi
  refine ⟨fun hr => ⟨?_, rfl⟩, fun hr => ?_⟩
  · exact ((((hitems i hi).passes hr).pipeline hinput).star hg).isRelation
  · obtain ⟨hname, hover⟩ := (hitems i hi).over hinput hr
    exact ⟨hname, (h.gives_input hg hc.outputs).2.value hg hover trivial⟩

variable [DecidableEq V] {db : Database V}

/-- The rows of the table are made of the rows of the FROM clause that are kept, in the order of
the sort below the projections. -/
theorem rows_eq (hg : g.WellFounded)
    (h : Projects g b₀ node t fs core input source sorts items s) :
  g.rows I db t
    = (I.sorted (fun v r => g.denote I.values v (.ofRow r)) (g.innerKeys sorts)
        ((g.rows I db (g.operand source true true).table).filter (keeps I g t source items))).map
          fun r => g.itemsRow I.values items (.ofRow r)
  := by
  obtain ⟨_, _, _, _, hrows, _⟩ := h.condenses hg
  rw [Graph.rows_peel hg t, ← hrows I db, Graph.rows_projection hg h.core_eq, (h.sorted hg).1.rows,
    (h.takenOff hg).rows, List.filter_map, I.filter_sorted, List.filter_filter]
  rfl

/-- The rows of the FROM clause have the columns of the input. -/
theorem fits (hg : g.WellFounded)
    (h : Projects g b₀ node t fs core input source sorts items s) :
  ∀ r ∈ g.rows I db (g.operand source true true).table, g.Fits input r
  := by
  intro r hr
  have htaken := h.takenOff hg
  have hsource := (htaken.pipeline.fits hg r hr).of_schema htaken.schema_eq
  rcases (h.sorted hg).1.kept with ⟨hsame, _⟩ | ⟨_, keys, hn⟩
  · rw [← hsame]
    exact hsource
  · exact hsource.of_schema (Graph.schema_kept hg (by rw [hn]; rfl))

/-- The block selects the rows of the table. -/
theorem selected (hg : g.WellFounded)
    (h : Projects g b₀ node t fs core input source sorts items s)
    (hc : Lifted g b₀ t source sorts items s c) :
  c.selected I g (g.rows I db (g.operand source true true).table)
    = I.sorted (fun v r => g.denote I.values v (.ofRow r)) b₀.clauses.orderBy (g.rows I db t)
  := by
  rw [Clauses.selected_rows (h.aggregates hg hc) hc.having
    (fun r hr => h.predicates_eq hg hc (h.fits hg r hr)) fun r _ => h.itemsRow_eq hg hc r]
  have horder := hc.orderBy
  by_cases hkeys : b₀.clauses.orderBy = []
  · rw [if_pos hkeys] at horder
    rw [I.sorted_inputs horder (h.key_value_inner hg hc.outputs), hkeys, I.sorted_nil, h.rows_eq hg]
  · rw [if_neg hkeys] at horder
    rw [I.sorted_outputs horder (h.key_value_top hg hc.outputs), h.rows_eq hg, h.unsorted hg hkeys,
      I.sorted_nil, List.map_map]
    rfl

end Projects

/-- The block of a projection. -/
theorem realizes_projection (hg : g.WellFounded) (hcaps : Caps g node t b₀)
    (hnode : g.isProjection (g.peel t).table = true) (hfuses : g.FusesTo (g.peel t).table fs core)
    (hcore : g.node core = .projection input items)
    (hchain : g.chain Graph.sortInput? input = (sorts, source)) {b' : Block}
    (hdraws : Draws Q (g.operand source true true).chain
      (.table (g.operand source true true).table)
      ((((b₀.foldAll (g.peel t).chain).output (g.peel t).table).fused fs).sorted sorts
        (g.innerKeys sorts)) g b')
    (hbuilt : built = b'.selecting items
      ((g.operand source true true).predicates ++ (g.peel t).predicates))
    (h : Completed Q built (.leaf (g.operand source true true).table) g b) :
  Realizes g b₀ t (g.operand source true true).table b
    ∧ g.depth (g.operand source true true).table < g.depth t
  := by
  have hprojects : Projects g b₀ node t fs core input source sorts items b.folding := by
    refine ⟨hcaps, hnode, hfuses, hcore, hchain, ?_, ?_⟩
    · rw [h.fused, hbuilt, selecting, hdraws.folding, fused_eq]
      simp [sorted, foldAll, output, JoinTree.folded]
    · rw [h.outputs, hbuilt, selecting, hdraws.folding, fused_eq]
      simp [sorted, foldAll, output, hcaps.outputs]
  obtain ⟨houtputs, hgroup, hdistinct, hlimit⟩ := h.same
  rw [hbuilt] at houtputs hgroup hdistinct hlimit
  simp only [selecting, hdraws.clauses, fused_eq, sorted, output, foldAll] at houtputs hgroup
  simp only [selecting, hdraws.clauses, fused_eq, sorted, output, foldAll] at hdistinct hlimit
  have hselect := h.select
  have hhaving := h.having
  have horder := h.orderBy
  rw [hbuilt] at hselect hhaving horder
  simp only [selecting, hdraws.clauses, fused_eq, sorted, output, foldAll] at hselect hhaving horder
  obtain ⟨houtputs₀, hgroup₀, hhaving₀⟩ := hcaps.ungrouped
  rw [hhaving₀] at hhaving
  have htaken := hprojects.takenOff hg
  obtain ⟨hsource, hinput, htop⟩ := hprojects.plain hg
  have hpredicates : built.clauses.predicates
      = (g.operand source true true).predicates ++ (g.peel t).predicates := by
    rw [hbuilt, selecting]
  have hvalues : ∀ p ∈ built.clauses.predicates, ∃ t, g.Over false t p
      ∧ b.folding.Plain .substitute g (fun _ _ => True) t := by
    rw [hpredicates]
    refine List.forall_mem_append.mpr ⟨?_, ?_⟩
    · exact fun p hp => ⟨source, htaken.values p hp, hsource⟩
    · exact fun p hp => ⟨t, hcaps.pipeline.predicates hg p hp, htop⟩
  obtain ⟨hfrom, hnested, hlifts⟩ := h.single hg hvalues
  rw [hpredicates] at hlifts
  refine ⟨⟨hfrom, hnested, htaken.pipeline, hdistinct, hlimit, ?_⟩, (hprojects.above hg).2⟩
  intro V _ I db
  refine hprojects.selected hg ⟨?_, by rw [hgroup, hgroup₀], List.forall₂_nil_left_iff.mp hhaving,
    hselect, hlifts, horder⟩
  rw [houtputs, hprojects.outputs, houtputs₀]
  rfl

end RelSql.Block
