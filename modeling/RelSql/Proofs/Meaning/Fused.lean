import RelSql.Proofs.Block.Fusion
import RelSql.Proofs.Meaning.Folded

/-!
# Rows of fused projections

A fused projection of a pipeline is a pipeline, and makes the rows of the outer projection.  Its
input passes on the rows of the input of the inner one.
-/

namespace RelSql

variable {V : Type} {I : Interpretation V} {g : Graph} {s : Folding} {mode : LiftMode}
  {column : NodeId → String → Context V → V} {D : Context V → Prop} {row : Context V → Row V}
  {id input table : NodeId} {inner : List NodeId}

namespace Graph

/-- The selections above a table, and the table. -/
def absorbed (g : Graph) (input : NodeId) : List NodeId :=
  (g.peel input).chain ++ [(g.peel input).table]

/-- A pipeline that is made of a projection by selections. -/
structure Absorbs (g : Graph) (input table : NodeId) (inner : List NodeId) : Prop where
  pipeline : g.Pipeline input
  node_eq : g.node (g.peel input).table = .projection table inner

theorem keptInput_of_selectionInput {n : Node} {t : NodeId} (h : selectionInput? n = some t) :
  keptInput? n = some t
  := by
  cases n <;> cases h
  rfl

namespace Absorbs

theorem items (hg : g.WellFounded) (h : g.Absorbs input table inner) :
  g.Pipeline table ∧ ∀ i ∈ inner, g.Item false table i
  := (h.pipeline.peel hg).items h.node_eq

/-- What is absorbed is above the input of the projection. -/
theorem depth_lt (hg : g.WellFounded) (h : g.Absorbs input table inner) :
  ∀ n ∈ g.absorbed input, g.depth table < g.depth n
  := by
  have htable : g.depth (g.peel input).table = g.depth table + 1 :=
    depth_input hg h.node_eq rfl
  intro n hn
  rcases List.mem_append.mp hn with hn | hn
  · have hlt := (depth_peel hg input).1 n hn
    omega
  · rw [List.mem_singleton.mp hn]
    omega

/-- The row that the projection makes has the columns of what the selections pass on. -/
theorem fits (hg : g.WellFounded) (h : g.Absorbs input table inner) {r : Row V}
    (hr : g.Fits table r) :
  g.Fits input (g.itemsRow I.values inner (.ofRow r))
  := by
  obtain ⟨_, hitems⟩ := h.items hg
  have hfits : g.Fits (g.peel input).table (g.itemsRow I.values inner (.ofRow r)) :=
    fits_itemsRow hg h.node_eq (fun i hi => (hitems i hi).passes) hr
  exact hfits.of_schema ((passes_peel hg input).schema_eq hg).symm

/-- The columns of what is absorbed are those of the row that the projection makes. -/
theorem gives (hg : g.WellFounded) (h : g.Absorbs input table inner) (hmode : mode ≠ .projections)
    (hfold : ∀ n ∈ g.absorbed input, s.passesOn mode n = true)
    (hfits : ∀ x, D x → g.Fits table (row x)) (hrow : s.Gives mode I column g D table row) :
  s.Gives mode I column g D input fun x => g.itemsRow I.values inner (.ofRow (row x))
  := by
  obtain ⟨ht, hitems⟩ := h.items hg
  obtain ⟨hchain, htable⟩ := List.forall_mem_append.mp hfold
  have hprojection := hrow.projection hg h.node_eq (htable _ (List.mem_singleton_self _)) ht hitems
    hfits
  exact Folding.HasColumns.chain hg hmode follows_selection
    (fun _ _ => keptInput_of_selectionInput) hchain hprojection

/-- What is absorbed resolves to plain values when the input of the projection does. -/
theorem plain (hg : g.WellFounded) (h : g.Absorbs input table inner) (hmode : mode ≠ .projections)
    {T : NodeId → String → Prop} (hfold : ∀ n ∈ g.absorbed input, s.passesOn mode n = true)
    (hplain : s.Plain mode g T table) :
  s.Plain mode g T input
  := by
  obtain ⟨ht, hitems⟩ := h.items hg
  obtain ⟨hchain, htable⟩ := List.forall_mem_append.mp hfold
  have hprojection := hplain.projection hg h.node_eq (htable _ (List.mem_singleton_self _)) ht
    hitems
  exact Folding.HasColumns.chain hg hmode follows_selection
    (fun _ _ => keptInput_of_selectionInput) hchain hprojection

/-- What is absorbed is given away when nothing else is folded. -/
theorem passesOn_of (input : NodeId) :
  ∀ n ∈ g.absorbed input, (Folding.of (g.absorbed input)).passesOn .substitute n = true
  := by
  intro n hn
  rw [Folding.passesOn, Folding.contains, Folding.of, List.contains_iff_mem.mpr hn]
  rfl

theorem depth_of (hg : g.WellFounded) (h : g.Absorbs input table inner) :
  ∀ n ∈ (Folding.of (g.absorbed input)).fused, g.depth (g.peel table).table < g.depth n
  := fun n hn => Nat.lt_of_le_of_lt (depth_peel hg table).2 (h.depth_lt hg n hn)

/-- A value of the rows of the projection is lifted to a value of the rows of its input, which is
the same on the row that the projection makes. -/
theorem lifted (hg : g.WellFounded) (h : g.Absorbs input table inner) {v l : NodeId}
    (hv : g.Over false input v)
    (hl : ∀ {α : Type} (A : Algebra α), A.Transparent → g.denote A l
      = ((Folding.of (g.absorbed input)).resolve .substitute A g v).value) :
  g.Over false table l ∧ ∀ {V : Type} (I : Interpretation V) (r : Row V), g.Fits table r →
    g.denote I.values v (.ofRow (g.itemsRow I.values inner (.ofRow r)))
      = g.denote I.values l (.ofRow r)
  := by
  have hmode : LiftMode.substitute ≠ .projections := nofun
  constructor
  · have hplain : (Folding.of (g.absorbed input)).Plain .substitute g
        (fun u name => g.Passes table u ∧ g.hasField u name = true) input := by
      apply h.plain hg hmode (passesOn_of input)
      exact Folding.hasColumns_source hg (h.depth_of hg) fun u hu name hfield => ⟨hu, hfield⟩
    apply over_of_plain hg
    rw [hl _ Algebra.plain_transparent]
    exact hplain.value hg hv
  · intro V I r hr
    have hgives : (Folding.of (g.absorbed input)).Gives .substitute I
        (fun _ name c => I.get c.row name) g (fun x => g.Fits table x.row) input
        fun x => g.itemsRow I.values inner (.ofRow x.row) := by
      apply h.gives hg hmode (passesOn_of input) fun _ hx => hx
      exact Folding.hasColumns_source hg (h.depth_of hg) fun _ _ _ _ _ _ => rfl
    rw [hl I.values Interpretation.algebra_transparent]
    exact (hgives.value hg hv (x := .ofRow r) hr).symm

/-- An item of the outer projection becomes items of the input of the inner one, which make the
same columns. -/
theorem liftsItem (hg : g.WellFounded) (h : g.Absorbs input table inner) {item : NodeId}
    {part : List NodeId} (hitem : g.Item false input item)
    (hlifts : (Folding.of (g.absorbed input)).LiftsItem g inner item part) :
  (∀ i ∈ part, g.Item false table i)
    ∧ ∀ {V : Type} (I : Interpretation V) (r : Row V), g.Fits table r →
      g.itemRow I.values (.ofRow (g.itemsRow I.values inner (.ofRow r))) item
        = g.itemsRow I.values part (.ofRow r)
  := by
  have hcontains : ∀ {item : NodeId}, g.isRelation item = true → g.Item false input item →
      (Folding.of (g.absorbed input)).contains item = true := by
    intro item hr hitem
    apply List.contains_iff_mem.mpr
    rcases (hitem.passes hr).mem_peel hg with ⟨hmem, _⟩ | htable
    · exact List.mem_append_left _ hmem
    · rw [htable]
      exact List.mem_append_right _ (List.mem_singleton_self _)
  cases hlifts with
  | absorbed hfold =>
      refine ⟨(h.items hg).2, ?_⟩
      have hmem := List.contains_iff_mem.mp hfold
      have hr : g.isRelation item = true := by
        rcases List.mem_append.mp hmem with hmem | hmem
        · exact hg.isRelation_of_mem_peel hmem
        · rw [List.mem_singleton.mp hmem]
          exact (h.pipeline.peel hg).isRelation
      intro V I r _
      rw [itemRow_relation hr]
      rfl
  | table hfold hr =>
      -- a table that the item passes on is absorbed
      rw [hcontains hr hitem] at hfold
      cases hfold
  | @value l _ hr hl =>
      obtain ⟨hname, hover⟩ := hitem.over h.pipeline hr
      obtain ⟨hl', heq⟩ := h.lifted hg hover hl.denote
      obtain ⟨name, hn⟩ := Option.isSome_iff_exists.mp hname
      have hn' : g.name? l = some name := by rw [hl.name, hn]
      refine ⟨List.forall_mem_singleton.mpr (.value (by rw [hn']; rfl) hl'), ?_⟩
      intro V I r hr'
      rw [itemRow_value hr, heq I r hr', itemsRow, List.flatMap_singleton,
        itemRow_value (isRelation_of_name? hn'), fieldName, fieldName, hn, hn']

/-- The items of the outer projection become items that make of the rows of the input what they
make of the rows of the inner projection. -/
theorem liftsItems (hg : g.WellFounded) (h : g.Absorbs input table inner) {outer : List NodeId}
    {parts : List (List NodeId)} (houter : ∀ i ∈ outer, g.Item false input i)
    (hlifts : List.Forall₂ ((Folding.of (g.absorbed input)).LiftsItem g inner) outer parts) :
  (∀ i ∈ parts.flatten, g.Item false table i)
    ∧ ∀ {V : Type} (I : Interpretation V) (r : Row V), g.Fits table r →
      g.itemsRow I.values outer (.ofRow (g.itemsRow I.values inner (.ofRow r)))
        = g.itemsRow I.values parts.flatten (.ofRow r)
  := by
  induction hlifts with
  | nil => exact ⟨nofun, fun _ _ _ => rfl⟩
  | @cons item part _ _ hitem _ ih =>
      obtain ⟨hhead, hrest⟩ := List.forall_mem_cons.mp houter
      obtain ⟨hover, hrow⟩ := h.liftsItem hg hhead hitem
      obtain ⟨hovers, hrows⟩ := ih hrest
      refine ⟨List.forall_mem_append.mpr ⟨hover, hovers⟩, ?_⟩
      intro V I r hr
      have hsame := hrows I r hr
      rw [itemsRow] at hsame
      rw [itemsRow, List.flatMap_cons, hrow I r hr, hsame, itemsRow, itemsRow,
        ← List.flatMap_append]
      rfl

/-- The lifted predicates keep the rows of which the projection makes those that the predicates
keep. -/
theorem liftsPredicates (hg : g.WellFounded) (h : g.Absorbs input table inner)
    {predicates lifted : List NodeId} (hpredicates : ∀ p ∈ predicates, g.Over false input p)
    (hlifts : List.Forall₂ ((Folding.of (g.absorbed input)).Lifts .substitute g)
      predicates lifted) :
  (∀ p ∈ lifted, g.Over false table p)
    ∧ ∀ {V : Type} (I : Interpretation V) (r : Row V), g.Fits table r →
      I.keeps I.values g predicates (.ofRow (g.itemsRow I.values inner (.ofRow r)))
        = I.keeps I.values g lifted (.ofRow r)
  := by
  induction hlifts with
  | nil => exact ⟨nofun, fun _ _ _ => rfl⟩
  | cons hl _ ih =>
      obtain ⟨hp, hrest⟩ := List.forall_mem_cons.mp hpredicates
      obtain ⟨hover, heq⟩ := h.lifted hg hp fun A _ => hl.denote A
      obtain ⟨hovers, hkeeps⟩ := ih hrest
      refine ⟨List.forall_mem_cons.mpr ⟨hover, hovers⟩, ?_⟩
      intro V I r hr
      have hsame := hkeeps I r hr
      rw [Interpretation.keeps] at hsame
      rw [Interpretation.keeps, List.all_cons, heq I r hr, hsame]
      rfl

end Absorbs

/-- A projection of a pipeline is fused: the fused one is a projection of a pipeline over the rows
of the input of the inner projection, and makes of them what the outer projection makes of
the rows of the inner one. -/
structure Merges (g : Graph) (projection : NodeId) (f : Fused) (input table source : NodeId)
    (outer inner items : List NodeId) : Prop where
  outer_eq : g.node projection = .projection input outer
  absorbs : g.Absorbs input table inner
  absorbed_eq : f.absorbed = g.absorbed input
  node_eq : g.node f.node = .projection source items
  passes : g.Passes source table
  depth_le : g.depth source ≤ g.depth table + 1
  pipeline : g.Pipeline f.node
  itemsRow : ∀ {V : Type} (I : Interpretation V) (r : Row V), g.Fits table r →
    g.itemsRow I.values outer (.ofRow (g.itemsRow I.values inner (.ofRow r)))
      = g.itemsRow I.values items (.ofRow r)
  rows : ∀ {V : Type} [DecidableEq V] (I : Interpretation V) (db : Database V),
    g.rows I db f.node = g.rows I db projection

variable {projection : NodeId} {f : Fused}

/-- The input of a fused projection is a pipeline, with the rows of which the inner projection
makes the rows that the selections between the two keep. -/
theorem Absorbs.liftsInput (hg : g.WellFounded) (h : g.Absorbs input table inner)
    {source : NodeId} (hsource : (Folding.of (g.absorbed input)).LiftsInput g table
      (g.peel input).predicates source) :
  g.Passes source table ∧ g.depth source ≤ g.depth table + 1 ∧ g.Pipeline source
    ∧ ∀ {V : Type} [DecidableEq V] (I : Interpretation V) (db : Database V),
      g.rows I db source = (g.rows I db table).filter fun r =>
        I.keeps I.values g (g.peel input).predicates
          (.ofRow (g.itemsRow I.values inner (.ofRow r)))
  := by
  have htable := (h.items hg).1
  cases hsource with
  | all hnil =>
      refine ⟨.refl table, Nat.le_succ _, htable, ?_⟩
      intro V _ I db
      rw [hnil]
      exact (List.filter_eq_self.mpr fun _ _ => rfl).symm
  | @filtered source lifted _ hn hlifted =>
      obtain ⟨hovers, hkeeps⟩ := h.liftsPredicates hg (h.pipeline.predicates hg) hlifted
      refine ⟨.selection hn (.refl table), ?_, ?_, ?_⟩
      · exact Nat.le_of_eq (depth_input hg hn rfl)
      · refine .intro ?_ ?_
        · rw [Regular, hn]
          exact hovers
        · intro t ht
          rw [hn] at ht
          cases ht
          exact htable
      · intro V _ I db
        rw [rows_selection hg hn]
        apply List.filter_congr
        intro r hr
        rw [hkeeps I r (htable.fits hg r hr)]

theorem Fuses.merges (hg : g.WellFounded) (hp : g.Pipeline projection)
    (h : g.Fuses projection f) :
  ∃ input table source outer inner items,
    g.Merges projection f input table source outer inner items
  := by
  obtain @⟨input, table, source, outer, inner, parts, hprojection, hinner, habsorbed, _, _, hnode,
    hparts, hsource⟩ := h
  rw [← Graph.absorbed] at habsorbed
  rw [habsorbed] at hparts hsource
  obtain ⟨hinput, houter⟩ := hp.items hprojection
  have habsorbs : g.Absorbs input table inner := ⟨hinput, hinner⟩
  obtain ⟨hpasses, hdepth, hpipeline, hrows⟩ := habsorbs.liftsInput hg hsource
  have htable := (habsorbs.items hg).1
  have hitems := habsorbs.liftsItems hg houter hparts
  refine ⟨input, table, source, outer, inner, parts.flatten, hprojection, habsorbs, habsorbed,
    hnode, hpasses, hdepth, ?_, hitems.2, ?_⟩
  · refine .intro ?_ ?_
    · rw [Regular, hnode]
      exact fun i hi => (hitems.1 i hi).of_passes hpasses
    · intro t ht
      rw [hnode] at ht
      cases ht
      exact hpipeline
  · intro V _ I db
    rw [rows_projection hg hnode, hrows I db, rows_projection hg hprojection,
      rows_peel hg input, rows_projection hg hinner, List.filter_map, List.map_map]
    apply List.map_congr_left
    intro r hr
    exact (hitems.2 I r (htable.fits hg r (List.mem_of_mem_filter hr))).symm

end Graph

/-- What the columns of a table resolve to, those of a table that it passes its rows on to do. -/
theorem Folding.HasColumns.of_passes {α : Type} {A : Algebra α} {P : String → α → Prop}
    {t u : NodeId} (hu : g.Passes t u) (h : s.HasColumns mode A g P t) :
  s.HasColumns mode A g P u
  := fun u' hu' => h u' (hu.trans hu')

namespace Graph

/-! ### Several fusions -/

/-- A projection of `input` to `outer` is fused to a projection of `source` to `items`, by
fusions that fold `nodes`. -/
structure Condenses (g : Graph) (input : NodeId) (outer nodes : List NodeId) (source : NodeId)
    (items : List NodeId) : Prop where
  sorts_eq : g.sorts source = g.sorts input
  depth_le : g.depth source ≤ g.depth input
  peel_le : g.depth (g.peel source).table ≤ g.depth (g.peel input).table
  peel_lt : ∀ n ∈ nodes, g.depth (g.peel source).table < g.depth n
  gives : ∀ {V : Type} {I : Interpretation V} {s : Folding} {mode : LiftMode}
    {column : NodeId → String → Context V → V} {D : Context V → Prop} {row : Context V → Row V},
    mode ≠ .projections → (∀ n ∈ nodes, s.passesOn mode n = true) →
    (∀ x, D x → g.Fits source (row x)) → s.Gives mode I column g D source row →
    ∃ row', s.Gives mode I column g D input row' ∧ (∀ x, D x → g.Fits input (row' x))
      ∧ ∀ x, D x → g.itemsRow I.values outer (.ofRow (row' x))
        = g.itemsRow I.values items (.ofRow (row x))
  plain : ∀ {s : Folding} {mode : LiftMode} {T : NodeId → String → Prop},
    mode ≠ .projections → (∀ n ∈ nodes, s.passesOn mode n = true) →
    s.Plain mode g T source → s.Plain mode g T input

theorem Condenses.refl (input : NodeId) (items : List NodeId) :
  g.Condenses input items [] input items
  := ⟨rfl, Nat.le_refl _, Nat.le_refl _, nofun, fun _ _ hfits h => ⟨_, h, hfits, fun _ _ => rfl⟩,
    fun _ _ h => h⟩

/-- Fusing once more. -/
theorem Merges.condenses (hg : g.WellFounded) {source core : NodeId}
    {outer items nodes final : List NodeId}
    (h : g.Merges projection f input table source outer inner items)
    (hrest : g.Condenses source items nodes core final) :
  g.Condenses input outer (f.absorbed ++ [f.node] ++ nodes) core final
  := by
  have hpeel := h.passes.peel_table_eq hg
  have hinner : g.depth (g.peel input).table = g.depth table + 1 :=
    depth_input hg h.absorbs.node_eq rfl
  have hinput := (depth_peel hg input).2
  have htable := (depth_peel hg table).2
  have hsource := h.depth_le
  have hcore := hrest.peel_le
  rw [hpeel] at hcore
  constructor
  · rw [hrest.sorts_eq, h.passes.sorts_eq hg, (passes_peel hg input).sorts_eq hg,
      sorts_of_input hg h.absorbs.node_eq rfl, isSort, h.absorbs.node_eq, Bool.false_or]
  · have hle := hrest.depth_le
    omega
  · omega
  · have hnode : g.depth f.node = g.depth source + 1 := depth_input hg h.node_eq rfl
    have hpeeled := (depth_peel hg source).2
    rw [hpeel] at hpeeled
    intro n hn
    rcases List.mem_append.mp hn with hn | hn
    · rcases List.mem_append.mp hn with hn | hn
      · rw [h.absorbed_eq] at hn
        have hlt := h.absorbs.depth_lt hg n hn
        omega
      · rw [List.mem_singleton.mp hn]
        omega
    · exact hrest.peel_lt n hn
  · intro V I s mode column D row hmode hfold hfits hgives
    obtain ⟨hfold, hnodes⟩ := List.forall_mem_append.mp hfold
    obtain ⟨habsorbed, _⟩ := List.forall_mem_append.mp hfold
    rw [h.absorbed_eq] at habsorbed
    obtain ⟨row', hgives', hfits', hrow⟩ := hrest.gives hmode hnodes hfits hgives
    have hfits'' : ∀ x, D x → g.Fits table (row' x) :=
      fun x hx => (hfits' x hx).of_schema (h.passes.schema_eq hg)
    refine ⟨_, h.absorbs.gives hg hmode habsorbed hfits'' (hgives'.of_passes h.passes),
      fun x hx => h.absorbs.fits hg (hfits'' x hx), ?_⟩
    intro x hx
    rw [h.itemsRow I (row' x) (hfits'' x hx), hrow x hx]
  · intro s mode T hmode hfold hplain
    obtain ⟨hfold, hnodes⟩ := List.forall_mem_append.mp hfold
    obtain ⟨habsorbed, _⟩ := List.forall_mem_append.mp hfold
    rw [h.absorbed_eq] at habsorbed
    exact h.absorbs.plain hg hmode habsorbed ((hrest.plain hmode hnodes hplain).of_passes h.passes)

/-- A projection of a pipeline is fused to one of a pipeline that makes the same rows. -/
theorem FusesTo.condenses (hg : g.WellFounded) {fs : List Fused} {core : NodeId}
    {outer : List NodeId} (hp : g.Pipeline projection)
    (hn : g.node projection = .projection input outer) (h : g.FusesTo projection fs core) :
  g.Pipeline core
    ∧ (∀ {V : Type} [DecidableEq V] (I : Interpretation V) (db : Database V),
      g.rows I db core = g.rows I db projection)
    ∧ ∃ source items, g.node core = .projection source items
      ∧ g.Condenses input outer (fs.flatMap fun f => f.absorbed ++ [f.node]) source items
  := by
  induction h generalizing input outer with
  | nil => exact ⟨hp, fun _ _ => rfl, input, outer, hn, .refl input outer⟩
  | cons hfuses _ ih =>
      obtain ⟨input', table, source, outer', inner, items, hmerges⟩ := hfuses.merges hg hp
      have houter := hmerges.outer_eq
      rw [hn] at houter
      cases houter
      obtain ⟨hcore, hrows, source', items', hnode, hcondenses⟩ :=
        ih hmerges.pipeline hmerges.node_eq
      refine ⟨hcore, fun I db => (hrows I db).trans (hmerges.rows I db), source', items', hnode, ?_⟩
      exact hmerges.condenses hg hcondenses

end Graph

end RelSql
