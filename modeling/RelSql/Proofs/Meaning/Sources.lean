import RelSql.Proofs.Meaning.Rows
import RelSql.Proofs.Meaning.Fused
import RelSql.Proofs.Block.Ranking

/-!
# Values over a single table

The columns of the table of a FROM clause are read from its rows, and so are those of a table
from which selections have been taken off.  Lifted values of a block mean what the values
mean on the rows that they are computed of.
-/

namespace RelSql

variable {V : Type} {I : Interpretation V} {g : Graph} {s : Folding} {mode : LiftMode}
  {column : NodeId → String → Context V → V} {leaf t : NodeId}

namespace Folding

/-- What is folded is above the table of the FROM clause, and no selection is an output. -/
structure Above (s : Folding) (g : Graph) (leaf : NodeId) : Prop where
  peel_lt : ∀ n ∈ s.fused, g.depth (g.peel leaf).table < g.depth n
  outputs : ∀ n ∈ s.outputs, n ∈ s.fused ∧ Graph.selectionInput? (g.node n) = none

/-- The table of the FROM clause passes on the rows of no output. -/
theorem Above.not_output (hg : g.WellFounded) (h : s.Above g leaf) {u : NodeId}
    (hu : g.Passes leaf u) :
  s.outputs.contains u = false
  := by
  cases hc : s.outputs.contains u with
  | false => rfl
  | true =>
      obtain ⟨hfused, hselection⟩ := h.outputs u (List.contains_iff_mem.mp hc)
      rcases hu.mem_peel hg with ⟨_, t', predicates, hn⟩ | htable
      · rw [hn] at hselection
        cases hselection
      · have hlt := h.peel_lt u hfused
        rw [htable] at hlt
        exact absurd hlt (Nat.lt_irrefl _)

/-- The columns of the table of the FROM clause are read from its rows. -/
theorem Above.gives (hg : g.WellFounded) (h : s.Above g leaf) {c : Clauses}
    (hc : c.outputs = s.outputs) :
  s.Gives mode I (c.column I) g (fun _ => True) leaf Context.row
  := by
  refine hasColumns_source hg h.peel_lt ?_
  intro u hu name _ x _
  simp only [Interpretation.algebra]
  simp only [Clauses.column, hc, h.not_output hg hu, Bool.false_eq_true, if_false]

theorem Above.plain (hg : g.WellFounded) (h : s.Above g leaf) :
  s.Plain mode g (fun _ _ => True) leaf
  := hasColumns_source hg h.peel_lt fun _ _ _ _ => trivial

/-- The columns of a table that the block outputs are those of the row that is made. -/
theorem gives_output (hg : g.WellFounded) {c : Clauses} (hc : c.outputs = s.outputs)
    (houtput : t ∈ s.outputs) (hn : Graph.selectionInput? (g.node t) = none) :
  s.Gives .output I (c.column I) g (fun _ => True) t Context.output
  := by
  have hcontains := List.contains_iff_mem.mpr houtput
  intro u hu name _ x _
  cases hu with
  | selection hn' _ =>
      rw [hn'] at hn
      cases hn
  | refl =>
      rw [Lift.resolve_column_eq hg, resolveColumn, if_pos (by rw [hcontains]; simp)]
      change c.column I t name x = _
      rw [Clauses.column, hc, if_pos hcontains]

/-- A folded table that is no output gives its columns away. -/
theorem passesOn_of_mem {n : NodeId} (hn : n ∈ s.fused)
    (hmode : mode = .substitute ∨ mode = .output ∧ n ∉ s.outputs) :
  s.passesOn mode n = true
  := by
  rw [passesOn, contains, List.contains_iff_mem.mpr hn]
  rcases hmode with rfl | ⟨rfl, houtput⟩
  · rfl
  · simp [houtput]

end Folding

/-! ### Operands -/

namespace Graph

/-- A pipeline without the selections that are taken off it. -/
structure TakenOff (g : Graph) (t : NodeId) (o : Peeled) : Prop where
  pipeline : g.Pipeline o.table
  depth_le : g.depth o.table ≤ g.depth t
  peel_eq : (g.peel o.table).table = (g.peel t).table
  schema_eq : g.schema t = g.schema o.table
  chain_lt : ∀ n ∈ o.chain, g.depth (g.peel o.table).table < g.depth n
  selections : ∀ n ∈ o.chain, (selectionInput? (g.node n)).isSome = true
  values : ∀ p ∈ o.predicates, g.Over false t p
  hasColumns : ∀ {α : Type} {s : Folding} {mode : LiftMode} {A : Algebra α} {P : String → α → Prop},
    mode ≠ .projections → (∀ n ∈ o.chain, s.passesOn mode n = true) →
    s.HasColumns mode A g P o.table → s.HasColumns mode A g P t
  rows : ∀ {V : Type} [DecidableEq V] (I : Interpretation V) (db : Database V),
    g.rows I db t = (g.rows I db o.table).filter fun r =>
      I.keeps I.values g o.predicates (.ofRow r)

/-- The nodes of a peeled chain are selections. -/
theorem isSome_of_mem_peel (hg : g.WellFounded) (t : NodeId) :
  ∀ n ∈ (g.peel t).chain, (selectionInput? (g.node n)).isSome = true
  := by
  apply chain_induction follows_selection hg (P := fun t =>
    ∀ n ∈ (g.peel t).chain, (selectionInput? (g.node n)).isSome = true)
  · intro t ht n hn
    rw [peel_other hg ht] at hn
    exact absurd hn List.not_mem_nil
  · intro t u ht ih
    obtain ⟨predicates, hn⟩ := eq_selection ht
    rw [peel_selection hg hn]
    refine List.forall_mem_cons.mpr ⟨?_, ih⟩
    rw [ht]
    rfl

/-- All selections are taken off. -/
theorem Pipeline.takenOff_peel (hg : g.WellFounded) (h : g.Pipeline t) :
  g.TakenOff t (g.peel t)
  := by
  have hpeel : (g.peel (g.peel t).table).table = (g.peel t).table := by
    rw [peel_other hg (hg.peel_table t)]
  refine ⟨h.peel hg, (depth_peel hg t).2, hpeel, ((passes_peel hg t).schema_eq hg).symm, ?_,
    isSome_of_mem_peel hg t, h.predicates hg, ?_, fun I db => rows_peel hg t⟩
  · rw [hpeel]
    exact (depth_peel hg t).1
  · intro α s mode A P hmode hfold hcolumns
    exact Folding.HasColumns.chain hg hmode follows_selection
      (fun _ _ => keptInput_of_selectionInput) hfold hcolumns

/-- What is taken off an operand is all of its selections, or nothing. -/
theorem Pipeline.takenOff (hg : g.WellFounded) (h : g.Pipeline t) :
  g.TakenOff t (g.operand t true true)
  := by
  rw [operand]
  split
  · exact h.takenOff_peel hg
  · refine ⟨h, Nat.le_refl _, rfl, rfl, List.forall_mem_nil _, List.forall_mem_nil _,
      List.forall_mem_nil _, fun _ _ hcolumns => hcolumns, ?_⟩
    intro V _ I db
    exact (List.filter_eq_self.mpr fun _ _ => rfl).symm

/-- A pipeline is joined to nothing. -/
theorem Pipeline.joinTree (hg : g.WellFounded) (h : g.Pipeline t) :
  g.joinTree t = .table t
  := by
  apply joinTree_other hg
  have hregular := h.regular
  rw [Regular] at hregular
  rw [isJoin]
  cases hn : g.node t <;> first | rfl | (rw [hn] at hregular; cases hregular)

/-- The table whose columns are all the columns of a pipeline is one. -/
theorem Pipeline.star (hg : g.WellFounded) (h : g.Pipeline t) :
  g.Pipeline (s.star g t)
  := by
  induction h with
  | @intro id hregular hinput ih =>
      have h := Pipeline.intro hregular hinput
      rw [Folding.star_eq s hg]
      split
      · exact h
      · rw [Regular] at hregular
        cases hn : g.node id <;> rw [hn] at hregular ih <;> try (cases hregular; done)
        case selection | sort | limit | distinct => exact ih _ rfl
        all_goals exact h

end Graph

/-! ### Lifted values -/

section

variable {x y : Context V}

/-- Lifted predicates keep what the predicates keep. -/
theorem Interpretation.keeps_lifted {predicates lifted : List NodeId}
    (h : List.Forall₂ (s.Lifts mode g) predicates lifted)
    (hvalue : ∀ p ∈ predicates, (s.resolve mode (I.algebra column) g p).value x
      = g.denote I.values p y) :
  I.keeps (I.algebra column) g lifted x = I.keeps I.values g predicates y
  := by
  induction h with
  | nil => rfl
  | cons hl _ ih =>
      obtain ⟨hp, hrest⟩ := List.forall_mem_cons.mp hvalue
      have hsame := ih hrest
      rw [keeps, keeps] at hsame
      rw [keeps, keeps, List.all_cons, List.all_cons, hl.denote, hp, hsame]

/-- A lifted item makes the columns that the item makes. -/
theorem Folding.LiftsSelected.itemRow_eq {item l : NodeId} (h : s.LiftsSelected g item l)
    (htable : g.isRelation item = true → g.isRelation (s.star g item) = true ∧ x.row = y.row)
    (hvalue : g.isRelation item = false → (g.name? item).isSome = true
      ∧ (s.resolve .substitute (I.algebra column) g item).value x = g.denote I.values item y) :
  g.itemRow (I.algebra column) x l = g.itemRow I.values y item
  := by
  cases h with
  | star hr _ =>
      obtain ⟨hstar, hrow⟩ := htable hr
      rw [Graph.itemRow_relation hstar, Graph.itemRow_relation hr, hrow]
  | value hr hl =>
      obtain ⟨hname, hsame⟩ := hvalue hr
      obtain ⟨name, hn⟩ := Option.isSome_iff_exists.mp hname
      have hn' : g.name? l = some name := by rw [hl.name, hn]
      rw [Graph.itemRow_value hr, Graph.itemRow_value (Graph.isRelation_of_name? hn'),
        Graph.fieldName, Graph.fieldName, hn, hn', hl.denote _ Interpretation.algebra_transparent,
        hsame]

/-- Lifted items make the row that the items make. -/
theorem Graph.itemsRow_lifted {items lifted : List NodeId}
    (h : List.Forall₂ (s.LiftsSelected g) items lifted)
    (hitem : ∀ i ∈ items, (g.isRelation i = true →
        g.isRelation (s.star g i) = true ∧ x.row = y.row)
      ∧ (g.isRelation i = false → (g.name? i).isSome = true
        ∧ (s.resolve .substitute (I.algebra column) g i).value x = g.denote I.values i y)) :
  g.itemsRow (I.algebra column) lifted x = g.itemsRow I.values items y
  := by
  induction h with
  | nil => rfl
  | cons hl _ ih =>
      obtain ⟨⟨htable, hvalue⟩, hrest⟩ := List.forall_mem_cons.mp hitem
      have hsame := ih hrest
      rw [itemsRow, itemsRow] at hsame
      rw [itemsRow, itemsRow, List.flatMap_cons, List.flatMap_cons, hl.itemRow_eq htable hvalue,
        hsame]

end

/-- Lifted sort keys sort in the way the keys do. -/
theorem Interpretation.sorted_lifted {keys lifted : List SortKey}
    (h : List.Forall₂ (s.LiftsKey g) keys lifted) (value : NodeId → Context V → V)
    {l : List (Context V)}
    (hvalue : ∀ k ∈ keys, ∀ x ∈ l, (s.resolve .output (I.algebra column) g k.expr).value x
      = value k.expr x) :
  I.sorted (g.denote (I.algebra column)) lifted l = I.sorted value keys l
  := by
  apply I.sorted_congr
  induction h with
  | nil => exact .nil
  | cons hl _ ih =>
      obtain ⟨hk, hrest⟩ := List.forall_mem_cons.mp hvalue
      refine .cons ⟨hl.ascending, ?_⟩ (ih hrest)
      intro x hx
      rw [hl.expr.denote, hk x hx]

end RelSql
