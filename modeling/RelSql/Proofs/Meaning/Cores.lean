import Mathlib.Data.List.Induction
import RelSql.Proofs.Block.Table
import RelSql.Proofs.Meaning.Sources
import RelSql.Proofs.Meaning.Tops

/-!
# Rows of cores and of filtered tables

A block that does not aggregate selects a row for each row of its table that its predicates
keep; one that aggregates selects a row for each group.  Sorting what is selected by values of
the rows that are selected, or of the rows that they are made of, is sorting these rows.

The block of a pipeline is one over a single table, without subqueries.  It selects the rows of
the table below the top of the pipeline, in the order that the top asks for.

The block of a table that is neither aggregated nor projected selects its rows that the
selections above it keep, with all their columns.
-/

/-! ## Rows of cores -/

namespace RelSql

/-! ### Rows that a block selects -/

section

variable {V : Type} {I : Interpretation V} {g : Graph} {s : Folding} {c : Clauses}
  {column : NodeId → String → Context V → V}

/-- The elements at the first positions of a list. -/
theorem filterMap_range_append {α : Type} (l rest : List α) :
  ((List.range l.length).filterMap fun i => (l ++ rest)[i]?) = l
  := by
  induction l using List.reverseRecOn generalizing rest with
  | nil => rfl
  | append_singleton l a ih =>
      rw [List.length_append, List.length_singleton, List.range_succ, List.filterMap_append,
        List.append_assoc, ih]
      simp

/-- What is related to two lists one after the other consists of what is related to each. -/
theorem exists_of_forall₂_append {α β : Type} {R : α → β → Prop} {l₁ l₂ : List α} {l : List β}
    (h : List.Forall₂ R (l₁ ++ l₂) l) :
  ∃ l₁' l₂', l = l₁' ++ l₂' ∧ List.Forall₂ R l₁ l₁' ∧ List.Forall₂ R l₂ l₂'
  := by
  refine ⟨l.take l₁.length, l.drop l₁.length, (List.take_append_drop _ l).symm, ?_, ?_⟩
  · exact (List.forall₂_take_append l l₁ l₂ h.flip).flip
  · exact (List.forall₂_drop_append l l₁ l₂ h.flip).flip

/-- Rows fall into the same groups when they have the same keys. -/
theorem grouped_congr [DecidableEq V] {keys keys' : List NodeId} {key key' : Row V → Row V}
    {rows : List (Row V)} (hnil : keys' = [] ↔ keys = []) (h : ∀ r ∈ rows, key' r = key r) :
  grouped keys' key' rows = grouped keys key rows
  := by
  rw [grouped, grouped, List.map_congr_left h]
  congr 1
  · rw [hnil]
  · apply List.map_congr_left
    intro k _
    apply List.filter_congr
    intro r hr
    rw [h r hr]

namespace Clauses

/-- Whether the lifted select list has a reduction. -/
theorem aggregates_eq_false (hgroup : c.groupBy = []) (hhaving : c.having = [])
    (hselect : ∀ i ∈ c.select, g.hasReduction i = false) :
  c.aggregates g = false
  := by
  rw [aggregates, hgroup, hhaving]
  simpa using hselect

variable [DecidableEq V] {source : List (Row V)}

/-- A block that does not aggregate selects a row for each row that it keeps. -/
theorem selected_rows (haggregates : c.aggregates g = false) (hhaving : c.having = [])
    {keep : Row V → Bool} {f : Row V → Row V}
    (hkeep : ∀ r ∈ source, I.keeps (I.algebra (c.column I)) g c.predicates (.ofRow r) = keep r)
    (hrow : ∀ r ∈ source, g.itemsRow (I.algebra (c.column I)) c.select (.ofRow r) = f r) :
  c.selected I g source
    = (I.sorted (g.denote (I.algebra (c.column I))) c.orderBy
        ((source.filter keep).map fun r => (Context.ofRow r).withOutput (f r))).map
          Context.output
  := by
  have hcontexts : c.contexts I g source = (source.filter keep).map Context.ofRow := by
    rw [contexts]
    simp only [haggregates, Bool.false_eq_true, if_false, hhaving, List.filter_congr hkeep]
    exact List.filter_eq_self.mpr fun _ _ => rfl
  rw [selected, hcontexts]
  simp only [List.map_map]
  congr 2
  apply List.map_congr_left
  intro r hr
  rw [Function.comp_apply, hrow r (List.mem_of_mem_filter hr)]

/-- A block that aggregates selects a row for each group that it keeps. -/
theorem selected_groups (haggregates : c.aggregates g = true) {keep : Row V → Bool}
    {groups : List (List (Row V))} {kept : Context V → Bool} {f : Context V → Row V}
    (hkeep : ∀ r ∈ source, I.keeps (I.algebra (c.column I)) g c.predicates (.ofRow r) = keep r)
    (hgroups : grouped (c.groupBy.filterMap fun i => c.select[i]?)
      (fun r => g.itemsRow (I.algebra (c.column I)) (c.groupBy.filterMap fun i => c.select[i]?)
        (.ofRow r)) (source.filter keep) = groups)
    (hkept : ∀ x, I.keeps (I.algebra (c.column I)) g c.having x = kept x)
    (hrow : ∀ x, g.itemsRow (I.algebra (c.column I)) c.select x = f x) :
  c.selected I g source
    = (I.sorted (g.denote (I.algebra (c.column I))) c.orderBy
        (((groups.map Context.ofGroup).filter kept).map fun x => x.withOutput (f x))).map
          Context.output
  := by
  have hcontexts : c.contexts I g source = (groups.map Context.ofGroup).filter kept := by
    rw [contexts]
    simp only [haggregates, if_true, List.filter_congr hkeep, hgroups]
    exact List.filter_congr fun x _ => hkept x
  rw [selected, hcontexts]
  simp only [hrow]

end Clauses

/-- Sorting by lifted keys that read the rows that are made is sorting these rows. -/
theorem Interpretation.sorted_outputs {keys lifted : List SortKey}
    (h : List.Forall₂ (s.LiftsKey g) keys lifted)
    (hvalue : ∀ k ∈ keys, ∀ x : Context V, (s.resolve .output (I.algebra column) g k.expr).value x
      = g.denote I.values k.expr (.ofRow x.output)) (l : List (Context V)) :
  (I.sorted (g.denote (I.algebra column)) lifted l).map Context.output
    = I.sorted (fun v r => g.denote I.values v (.ofRow r)) keys (l.map Context.output)
  := by
  rw [I.sorted_lifted h (fun v x => g.denote I.values v (.ofRow x.output))
      fun k hk x _ => hvalue k hk x, ← I.map_sorted keys Context.output l]

/-- Sorting by lifted keys that read the rows of which rows are made is sorting those. -/
theorem Interpretation.sorted_inputs {keys lifted : List SortKey}
    (h : List.Forall₂ (s.LiftsKey g) keys lifted)
    (hvalue : ∀ k ∈ keys, ∀ x : Context V, (s.resolve .output (I.algebra column) g k.expr).value x
      = g.denote I.values k.expr (.ofRow x.row)) (f : Row V → Row V) (l : List (Row V)) :
  (I.sorted (g.denote (I.algebra column)) lifted
      (l.map fun r => (Context.ofRow r).withOutput (f r))).map Context.output
    = (I.sorted (fun v r => g.denote I.values v (.ofRow r)) keys l).map f
  := by
  rw [I.sorted_lifted h (fun v x => g.denote I.values v (.ofRow x.row))
      fun k hk x _ => hvalue k hk x,
    ← I.map_sorted keys (fun r => (Context.ofRow r).withOutput (f r)) l, List.map_map]
  rfl

end

/-! ### Cores of pipelines -/

variable {Q : QuerySpec} {g : Graph} {b₀ built b : Block} {node t leaf : NodeId}

namespace Graph

/-- A value that is computed of rows is no ranking. -/
theorem Over.not_ranking {v : NodeId} (h : g.Over false t v) :
  Block.isRanking g v = false
  := by
  rw [Block.isRanking]
  cases h with
  | column hn _ _ => rw [hn]
  | count hgrouped _ => cases hgrouped
  | operator ho _ =>
      cases hn : g.node v <;> first | rfl | (rw [hn] at ho; cases ho)

theorem hasReduction_of_isRelation (hg : g.WellFounded) {id : NodeId}
    (hr : g.isRelation id = true) :
  g.hasReduction id = false
  := by
  rw [hasReduction_eq hg (has_of_isRelation hr), denote_relation hg _ hr]
  rfl

end Graph

namespace Block

/-- The block selects the rows of `t`, in the order that the block at the top asks for; they are
made of those of the only table of its FROM clause. -/
structure Realizes (g : Graph) (b₀ : Block) (t leaf : NodeId) (b : Block) : Prop where
  source : ∃ n, b.clauses.from? = some ⟨n, leaf, []⟩
  nested : ∀ s ∈ b.nested, s.kind = .table
  pipeline : g.Pipeline leaf
  distinct : b.clauses.distinct = b₀.clauses.distinct
  limit : b.clauses.limit = b₀.clauses.limit
  selected : ∀ {V : Type} [DecidableEq V] (I : Interpretation V) (db : Database V),
    b.clauses.selected I g (g.rows I db leaf)
      = I.sorted (fun v r => g.denote I.values v (.ofRow r)) b₀.clauses.orderBy (g.rows I db t)

/-- A block whose predicates are computed of rows has no subqueries, and its joins are those of
its table. -/
theorem Completed.single (hg : g.WellFounded) (h : Completed Q built (.leaf leaf) g b)
    (hvalues : ∀ p ∈ built.clauses.predicates, ∃ t, g.Over false t p
      ∧ b.folding.Plain .substitute g (fun _ _ => True) t) :
  (∃ n, b.clauses.from? = some ⟨n, leaf, []⟩) ∧ (∀ s ∈ b.nested, s.kind = .table)
    ∧ List.Forall₂ (b.folding.Lifts .substitute g) built.clauses.predicates b.clauses.predicates
  := by
  have hranking : ∀ p ∈ built.clauses.predicates, isRanking g p = false := by
    intro p hp
    obtain ⟨t, hover, _⟩ := hvalues p hp
    exact hover.not_ranking
  have hpredicates := h.predicates
  rw [List.filter_eq_self.mpr fun p hp => by rw [hranking p hp]; rfl] at hpredicates
  refine ⟨?_, ?_, hpredicates⟩
  · obtain ⟨n, joins, more, hfrom, hjoins, _, _, _, hnone⟩ := h.source
    have hmore : more = [] := by
      apply hnone
      rw [List.filter_eq_nil_iff]
      intro p hp
      rw [hranking p hp]
      exact Bool.false_ne_true
    cases hjoins
    exact ⟨n, by rw [hfrom, hmore]; rfl⟩
  · intro s hs
    by_contra hkind
    obtain ⟨l, hl, hextracts⟩ := h.held s hs hkind
    obtain ⟨p, hp, hlifts⟩ := forall₂_exists hpredicates.flip l hl
    obtain ⟨t, hover, hplain⟩ := hvalues p hp
    refine Graph.not_extracts_of_plain hg hlifts.target hextracts (T := fun _ _ => True) ?_
    rw [hlifts.denote]
    exact hplain.value hg hover

/-- The keys at the top of a pipeline resolve to their values on the row that the columns of the
table below its selections are read from. -/
theorem Caps.key_value {V : Type} {I : Interpretation V} {s : Folding}
    {column : NodeId → String → Context V → V} {D : Context V → Prop} {row : Context V → Row V}
    (hg : g.WellFounded) (h : Caps g node t b₀)
    (hfused : ∀ n ∈ b₀.folding.fused ++ (g.peel t).chain, n ∈ s.fused)
    (houtputs : ∀ n ∈ s.outputs, Graph.keptInput? (g.node n) = none)
    (hrow : s.Gives .output I column g D (g.peel t).table row) :
  ∀ k ∈ b₀.clauses.orderBy, ∀ x, D x →
    (s.resolve .output (I.algebra column) g k.expr).value x
      = g.denote I.values k.expr (.ofRow (row x))
  := by
  have hmode : LiftMode.output ≠ .projections := nofun
  have hpasses : ∀ n ∈ b₀.folding.fused ++ (g.peel t).chain,
      (Graph.keptInput? (g.node n)).isSome = true → s.passesOn .output n = true := by
    intro n hn hkept
    apply Folding.passesOn_of_mem (hfused n hn)
    refine .inr ⟨rfl, fun houtput => ?_⟩
    rw [houtputs n houtput] at hkept
    cases hkept
  have ht : s.Gives .output I column g D t row := by
    apply (h.pipeline.takenOff_peel hg).hasColumns hmode _ hrow
    intro n hn
    apply hpasses n (List.mem_append_right _ hn)
    obtain ⟨u, hu⟩ := Option.isSome_iff_exists.mp (Graph.isSome_of_mem_peel hg t n hn)
    rw [Graph.keptInput_of_selectionInput hu]
    rfl
  obtain ⟨t', htop, hover⟩ := h.keys
  intro k hk x hx
  rcases htop with rfl | ⟨hmem, hkept⟩
  · exact ht.value hg (hover k hk) hx
  · have ht' : s.Gives .output I column g D t' row := by
      apply ht.kept hg hmode _ hkept
      apply hpasses t' (List.mem_append_left _ hmem)
      rw [hkept]
      rfl
    exact ht'.value hg (hover k hk) hx

/-- What completing a block leaves as it is. -/
theorem Completed.same {tables : TableSet} (h : Completed Q built tables g b) :
  b.clauses.outputs = built.clauses.outputs ∧ b.clauses.groupBy = built.clauses.groupBy
    ∧ b.clauses.distinct = built.clauses.distinct ∧ b.clauses.limit = built.clauses.limit
  := by
  refine ⟨?_, ?_, ?_, ?_⟩
  all_goals rw [h.rest]

/-- The block at the top of a pipeline does not group rows. -/
theorem Caps.ungrouped (h : Caps g node t b₀) :
  b₀.clauses.outputs = [] ∧ b₀.clauses.groupBy = [] ∧ b₀.clauses.having = []
  := by
  refine ⟨?_, ?_, ?_⟩
  all_goals
    rw [h.clauses]
    rfl

end Block

end RelSql

/-! ## Rows of filtered tables -/

namespace RelSql.Block

variable {Q : QuerySpec} {g : Graph} {b₀ b : Block} {node t : NodeId} {s : Folding} {c : Clauses}

/-- A table below the top of a pipeline, and the selections that are folded into its block. -/
structure Filtered (g : Graph) (b₀ : Block) (node t : NodeId) (s : Folding) : Prop where
  caps : Caps g node t b₀
  fused : s.fused = b₀.folding.fused ++ (g.peel t).chain
  outputs : s.outputs = []

namespace Filtered

/-- What is folded is above the table of the FROM clause. -/
theorem above (hg : g.WellFounded) (h : Filtered g b₀ node t s) :
  s.Above g (g.peel t).table
  := by
  have htaken := h.caps.pipeline.takenOff_peel hg
  constructor
  · intro n hn
    rw [h.fused] at hn
    rcases List.mem_append.mp hn with hn | hn
    · have hlt := h.caps.depth_lt n hn
      have hle := (Graph.depth_peel hg (g.peel t).table).2
      have hle' := htaken.depth_le
      omega
    · exact htaken.chain_lt n hn
  · rw [h.outputs]
    exact fun n hn => absurd hn List.not_mem_nil

/-- What resolves on the rows of the FROM clause does so on those that the selections keep. -/
theorem columns (hg : g.WellFounded) (h : Filtered g b₀ node t s) {α : Type} {A : Algebra α}
    {P : String → α → Prop} (hcolumns : s.HasColumns .substitute A g P (g.peel t).table) :
  s.HasColumns .substitute A g P t
  := by
  have hmode : LiftMode.substitute ≠ .projections := nofun
  refine (h.caps.pipeline.takenOff_peel hg).hasColumns hmode ?_ hcolumns
  intro n hn
  apply Folding.passesOn_of_mem _ (.inl rfl)
  rw [h.fused]
  exact List.mem_append_right _ hn

variable {V : Type} {I : Interpretation V}

/-- The columns of the filtered table are read from the rows of the FROM clause. -/
theorem gives (hg : g.WellFounded) (h : Filtered g b₀ node t s) (hc : c.outputs = s.outputs) :
  s.Gives .substitute I (c.column I) g (fun _ => True) t Context.row
  := h.columns hg ((h.above hg).gives hg hc)

/-- The keys at the top are read from the rows of the FROM clause. -/
theorem key_value (hg : g.WellFounded) (h : Filtered g b₀ node t s) (hc : c.outputs = s.outputs) :
  ∀ k ∈ b₀.clauses.orderBy, ∀ x : Context V,
    (s.resolve .output (I.algebra (c.column I)) g k.expr).value x
      = g.denote I.values k.expr (.ofRow x.row)
  := by
  intro k hk x
  refine h.caps.key_value hg ?_ ?_ ((h.above hg).gives hg hc) k hk x trivial
  · rw [h.fused]
    exact fun n hn => hn
  · rw [h.outputs]
    exact fun n hn => absurd hn List.not_mem_nil

/-- The clauses of a block over the filtered table. -/
structure Lifted (g : Graph) (b₀ : Block) (t : NodeId) (s : Folding) (c : Clauses) : Prop where
  outputs : c.outputs = s.outputs
  groupBy : c.groupBy = []
  having : c.having = []
  select : List.Forall₂ (s.LiftsSelected g) [(g.peel t).table] c.select
  predicates : List.Forall₂ (s.Lifts .substitute g) (g.peel t).predicates c.predicates
  orderBy : List.Forall₂ (s.LiftsKey g) b₀.clauses.orderBy c.orderBy

/-- The only item of the block stands for all columns. -/
theorem select_eq (hg : g.WellFounded) (h : Filtered g b₀ node t s) (hc : Lifted g b₀ t s c) :
  c.select = [s.star g (g.peel t).table] ∧ g.isRelation (s.star g (g.peel t).table) = true
  := by
  have hleaf := h.caps.pipeline.peel hg
  have hselect := hc.select
  generalize c.select = select at hselect ⊢
  cases hselect with
  | cons hl hnil =>
      cases hnil
      cases hl with
      | star _ _ => exact ⟨rfl, (hleaf.star hg).isRelation⟩
      | value hr _ =>
          rw [hleaf.isRelation] at hr
          cases hr

/-- The block makes each row by itself. -/
theorem aggregates (hg : g.WellFounded) (h : Filtered g b₀ node t s) (hc : Lifted g b₀ t s c) :
  c.aggregates g = false
  := by
  obtain ⟨hselect, hstar⟩ := h.select_eq hg hc
  apply Clauses.aggregates_eq_false hc.groupBy hc.having
  rw [hselect]
  exact List.forall_mem_singleton.mpr (Graph.hasReduction_of_isRelation hg hstar)

/-- The block outputs the rows of the FROM clause. -/
theorem itemsRow_eq (hg : g.WellFounded) (h : Filtered g b₀ node t s) (hc : Lifted g b₀ t s c)
    (A : Algebra (Context V → V)) (r : Row V) :
  g.itemsRow A c.select (.ofRow r) = r
  := by
  obtain ⟨hselect, hstar⟩ := h.select_eq hg hc
  rw [hselect, Graph.itemsRow, List.flatMap_singleton, Graph.itemRow_relation hstar]
  rfl

variable [DecidableEq V] {db : Database V}

/-- The block selects the rows of the table. -/
theorem selected (hg : g.WellFounded) (h : Filtered g b₀ node t s) (hc : Lifted g b₀ t s c) :
  c.selected I g (g.rows I db (g.peel t).table)
    = I.sorted (fun v r => g.denote I.values v (.ofRow r)) b₀.clauses.orderBy (g.rows I db t)
  := by
  have htaken := h.caps.pipeline.takenOff_peel hg
  have hwhere : ∀ r ∈ g.rows I db (g.peel t).table,
      I.keeps (I.algebra (c.column I)) g c.predicates (.ofRow r)
        = I.keeps I.values g (g.peel t).predicates (.ofRow r) := by
    intro r _
    apply I.keeps_lifted hc.predicates
    exact fun p hp => (h.gives hg hc.outputs).value hg (htaken.values p hp) trivial
  rw [Clauses.selected_rows (h.aggregates hg hc) hc.having hwhere
      fun r _ => h.itemsRow_eq hg hc _ r, ← htaken.rows I db]
  rw [I.sorted_inputs hc.orderBy (h.key_value hg hc.outputs)]
  exact List.map_id _

end Filtered

/-- The block of a table that is neither an aggregation nor a projection below which the
selections above it can be pushed. -/
theorem realizes_other (hg : g.WellFounded) (hcaps : Caps g node t b₀) {b' : Block}
    (hdraws : Draws Q [] (.table (g.peel t).table) (b₀.foldAll (g.peel t).chain) g b')
    (h : Completed Q (b'.selecting [(g.peel t).table] (g.peel t).predicates)
      (.leaf (g.peel t).table) g b) :
  Realizes g b₀ t (g.peel t).table b
  := by
  have hfiltered : Filtered g b₀ node t b.folding := by
    refine ⟨hcaps, ?_, ?_⟩
    · rw [h.fused, selecting, hdraws.folding]
      simp [foldAll, JoinTree.folded]
    · rw [h.outputs, selecting, hdraws.folding]
      exact hcaps.outputs
  obtain ⟨houtputs, hgroup, hdistinct, hlimit⟩ := h.same
  obtain ⟨houtputs₀, hgroup₀, hhaving₀⟩ := hcaps.ungrouped
  have hselect := h.select
  have hhaving := h.having
  have horder := h.orderBy
  simp only [selecting, hdraws.clauses, foldAll] at houtputs hgroup hdistinct hlimit
  simp only [selecting, hdraws.clauses, foldAll, hhaving₀] at hselect hhaving horder
  have htaken := hcaps.pipeline.takenOff_peel hg
  have hplain : b.folding.Plain .substitute g (fun _ _ => True) t :=
    hfiltered.columns hg ((hfiltered.above hg).plain hg)
  obtain ⟨hsource, hnested, hpredicates⟩ :=
    h.single hg fun p hp => ⟨t, htaken.values p hp, hplain⟩
  refine ⟨hsource, hnested, htaken.pipeline, hdistinct, hlimit, ?_⟩
  intro V _ I db
  refine hfiltered.selected hg ⟨?_, hgroup.trans hgroup₀, List.forall₂_nil_left_iff.mp hhaving,
    hselect, hpredicates, horder⟩
  rw [houtputs, houtputs₀, hfiltered.outputs]

end RelSql.Block
