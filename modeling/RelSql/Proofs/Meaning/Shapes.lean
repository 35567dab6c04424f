import RelSql.Proofs.Meaning.Statements
import RelSql.Proofs.Output.Schema
import RelSql.Proofs.Statement.Reductions

/-!
# Shapes of results

A value that holds a reduction, and one that reads no column, is a single value, and its query has
one row.  The query of any other value has a row for each row that its block keeps, and that of a
field of an aggregation has one for each group.
-/

namespace RelSql

open Analysis

variable {g g' : Graph} {root t : NodeId}

/-! ### Numbers of rows -/

section

variable {V : Type} [DecidableEq V] {I : Interpretation V} {c : Clauses} {source : List (Row V)}

namespace Clauses

/-- A block that merges no rows and cuts none off outputs a row for each row or group that it
keeps. -/
theorem length_evaluate (hdistinct : c.distinct = false) (hlimit : c.limit = none) :
  (c.evaluate I g source).length = (c.contexts I g source).length
  := by
  rw [evaluate, finish, hdistinct, hlimit]
  simp only [Bool.false_eq_true, if_false]
  rw [selected, List.length_map, Interpretation.sorted, List.length_insertionSort, List.length_map]

/-- A block without filters of groups keeps all of them, or all rows that its predicates keep. -/
theorem contexts_of_having (hhaving : c.having = []) :
  c.contexts I g source = if c.aggregates g then
      (grouped (c.groupBy.filterMap fun i => c.select[i]?)
        (fun r => g.itemsRow (I.algebra (c.column I)) (c.groupBy.filterMap fun i => c.select[i]?)
          (.ofRow r))
        (source.filter fun r => I.keeps (I.algebra (c.column I)) g c.predicates (.ofRow r))).map
          Context.ofGroup
    else (source.filter fun r => I.keeps (I.algebra (c.column I)) g c.predicates (.ofRow r)).map
      Context.ofRow
  := by
  rw [contexts, hhaving]
  exact List.filter_eq_self.mpr fun _ _ => rfl

end Clauses

end

/-- A block outputs one row, whatever the rows of its FROM clause are; without a FROM clause it is
over one row. -/
def Clauses.YieldsOne (g : Graph) (c : Clauses) : Prop :=
  ∀ {V : Type} [DecidableEq V] (I : Interpretation V) (source : List (Row V)),
    (c.from? = none → source = [[]]) → (c.evaluate I g source).length = 1

/-- A block outputs a row for each row of its FROM clause that its predicates keep, or one for all
of them when its select list holds a reduction. -/
def Clauses.YieldsEach (g : Graph) (c : Clauses) : Prop :=
  ∀ {V : Type} [DecidableEq V] (I : Interpretation V) (source : List (Row V)),
    (c.evaluate I g source).length = if c.select.any g.hasReduction then 1
      else (source.filter fun r =>
        I.keeps (I.algebra (c.column I)) g c.predicates (.ofRow r)).length

/-- A block outputs a row for each group, or row, that it keeps. -/
def Clauses.YieldsGroups (g : Graph) (c : Clauses) : Prop :=
  ∀ {V : Type} [DecidableEq V] (I : Interpretation V) (source : List (Row V)),
    (c.evaluate I g source).length = (c.contexts I g source).length

namespace Clauses

/-- A block without clauses that group, filter groups, merge rows or cut them off. -/
structure Simple (c : Clauses) : Prop where
  groupBy : c.groupBy = []
  having : c.having = []
  distinct : c.distinct = false
  limit : c.limit = none

variable {c : Clauses}

theorem Simple.aggregates_eq (h : c.Simple) :
  c.aggregates g = c.select.any g.hasReduction
  := by
  rw [aggregates, h.groupBy, h.having]
  rfl

/-- All rows are one group when nothing is grouped by. -/
theorem Simple.yieldsEach (h : c.Simple) :
  c.YieldsEach g
  := by
  intro V _ I source
  rw [length_evaluate h.distinct h.limit, contexts_of_having h.having, h.groupBy, h.aggregates_eq]
  split
  · rfl
  · rw [List.length_map]

theorem Simple.yieldsOne (h : c.Simple) (hreduction : c.select.any g.hasReduction = true) :
  c.YieldsOne g
  := by
  intro V _ I source _
  rw [h.yieldsEach I source, if_pos hreduction]

/-- A block over no table has one row. -/
theorem Simple.yieldsOne_constant (h : c.Simple) (hfrom : c.from? = none)
    (hpredicates : c.predicates = []) :
  c.YieldsOne g
  := by
  intro V _ I source hsource
  rw [h.yieldsEach I source, hsource hfrom, hpredicates]
  split
  · rfl
  · rfl

end Clauses

/-! ### Blocks of values -/

/-- A value holds a reduction when one stands in it. -/
theorem Graph.hasReduction_iff (hg : g.WellFounded) {id : NodeId} (hid : g.Has id) :
  g.hasReduction id = true ↔ (g.denote .nests id).1
  := by
  rw [hasReduction_eq hg hid]
  clear hid
  obtain ⟨i⟩ := id
  induction i using Nat.strongRecOn with
  | ind i ih =>
      rcases (g.node ⟨i⟩).kinds with ⟨t, name, hn⟩ | ⟨t, hn⟩ | hn | hn
      · rw [denote_column hg _ hn, denote_column hg _ hn]
        exact iff_of_false Bool.false_ne_true id
      · rw [denote_countStar hg _ hn, denote_countStar hg _ hn]
        exact iff_of_true rfl trivial
      · rw [denote_relation hg _ hn, denote_relation hg _ hn]
        exact iff_of_false Bool.false_ne_true id
      · rw [denote_operator hg _ hn, denote_operator hg _ hn, Algebra.reductions_operator,
          Algebra.nests_operator, Bool.or_eq_true, List.any_map, List.any_eq_true]
        refine or_congr Iff.rfl (exists_congr fun c => and_congr_right fun hc => ?_)
        exact ih c.index (hg.child_lt hc)

/-- The items of the projections below a value hold no reductions. -/
def Graph.ProjectsPlainly (g : Graph) (root : NodeId) : Prop :=
  ∀ u input items, u.index < root.index → g.node u = .projection input items →
    ∀ i ∈ items, g.hasReduction i = false

theorem Graph.ProjectsPlainly.mono (hg : g.WellFounded) (hroot : g.Has root)
    (hg' : g'.WellFounded) (e : g.Extends g')
    (h : g.ProjectsPlainly root) :
  g'.ProjectsPlainly root
  := by
  intro u input items hu hn i hi
  have hhas : g.Has u := Nat.lt_trans hu hroot
  rw [e.node_eq hhas] at hn
  have hitem : g.Has i := hg.has_child hhas (by rw [hn]; exact List.mem_cons_of_mem _ hi)
  rw [e.hasReduction_eq hg hg' hitem]
  exact h u input items hu hn i hi

namespace Graph.NamedAs

variable {value : NodeId}

theorem isRelation (h : g.NamedAs root value) :
  g.isRelation value = false
  := isRelation_of_name? h.name?_eq

theorem hasReduction (hg : g.WellFounded) (hroot : g.Has root) (h : g.NamedAs root value) :
  g.hasReduction value = g.hasReduction root
  := by
  rw [hasReduction_eq hg (h.has hroot), hasReduction_eq hg hroot,
    h.denote_eq hg Algebra.reductions_transparent]

theorem le (hg : g.WellFounded) (h : g.NamedAs root value) :
  root.index ≤ value.index
  := by
  rcases h with ⟨rfl, _⟩ | ⟨_, hn⟩
  · exact Nat.le_refl _
  · apply Nat.le_of_lt
    apply hg.child_lt
    rw [hn]
    exact List.mem_singleton_self root

/-- The operands of a value, also of an alias of it, come no later than the value. -/
theorem child_le (hg : g.WellFounded) (h : g.NamedAs root value) {c : NodeId}
    (hc : c ∈ (g.node value).children) :
  c.index ≤ root.index
  := by
  rcases h with ⟨rfl, _⟩ | ⟨_, hn⟩
  · exact Nat.le_of_lt (hg.child_lt hc)
  · rw [hn] at hc
    rw [List.mem_singleton.mp hc]

/-- The table that a value is a column of comes before it. -/
theorem column_lt (hg : g.WellFounded) (h : g.NamedAs root value) {u : NodeId} {name : String}
    (hcolumn : g.node value = .column u name) :
  u.index < root.index
  := by
  rcases h with ⟨rfl, _⟩ | ⟨_, hn⟩
  · apply hg.child_lt
    rw [hcolumn]
    exact List.mem_singleton_self u
  · cases hn.symm.trans hcolumn

end Graph.NamedAs

/-- What an item with a reduction is lifted to holds one. -/
theorem Folding.LiftsSelected.hasReduction (hg : g.WellFounded) {s : Folding} {item l : NodeId}
    (h : s.LiftsSelected g item l) (hreduction : g.hasReduction item = true) :
  g.hasReduction l = true
  := by
  cases h with
  | star hr _ =>
      rw [Graph.hasReduction_of_isRelation hg hr] at hreduction
      cases hreduction
  | value _ hl =>
      rw [Graph.hasReduction_eq hg hl.source] at hreduction
      rw [Graph.hasReduction_eq hg hl.target, hl.denote _ Algebra.reductions_transparent]
      exact reductions_resolve hg hreduction

/-- A column that stands for a value, and is not one of an aggregation, is that of a projection and
stands for one of its items. -/
theorem Folding.exists_item_of_fate {s : Folding} {u d : NodeId} {name : String}
    (h : s.fate .substitute g u name = .value d) (haggregation : g.isAggregation u = false) :
  ∃ input items i, g.node u = .projection input items ∧ i ∈ items ∧ d = g.unaliased i
  := by
  obtain ⟨_, hcomputes⟩ := computes_of_fate h
  rw [Graph.isAggregation, decide_eq_false_iff_not] at haggregation
  have hprojection := hcomputes.resolve_right haggregation
  cases hn : g.node u <;> rw [hn] at hprojection <;> cases hprojection
  case projection input items =>
    rw [fate, hn] at h
    split at h
    · cases h
    simp only at h
    split at h
    case h_2 => cases h
    case h_1 item hitem =>
        split at h
        · cases h
        · cases h
          exact ⟨input, items, item, rfl, Folding.provider_mem hitem, rfl⟩

namespace Block

variable {old : Graph} {b : Block} {node value : NodeId}

/-- The block of a projection of one value has no further clauses. -/
theorem Origin.simple_projection (hg : g.WellFounded) (hn : g.node node = .projection t [value])
    (hvalue : g.isRelation value = false) (h : Origin old g node b) :
  b.clauses.Simple
  := by
  obtain ⟨_, _, _, hbuilt, _, _, _, hcompleted, _⟩ := h
  have hclauses := hbuilt.clauses_projection hg hn (List.forall_mem_singleton.mpr hvalue)
  have hhaving := hcompleted.having
  have hrest := hcompleted.rest
  rw [hclauses] at hhaving hrest
  refine ⟨?_, List.forall₂_nil_left_iff.mp hhaving, ?_, ?_⟩
  all_goals
    rw [hrest]
    rfl

/-- The block of a single metric of all rows has no further clauses, and what it selects holds a
reduction if the metric does. -/
theorem Origin.simple_aggregation (hg : g.WellFounded)
    (hn : g.node node = .aggregation t [] [value] []) (hreduction : g.hasReduction value = true)
    (h : Origin old g node b) :
  b.clauses.Simple ∧ b.clauses.select.any g.hasReduction = true
  := by
  obtain ⟨_, _, _, hbuilt, _, _, _, hcompleted, _⟩ := h
  have hclauses := hbuilt.clauses_aggregation hg hn
  have hhaving := hcompleted.having
  have hrest := hcompleted.rest
  have hselect := hcompleted.select
  rw [hclauses] at hhaving hrest hselect
  refine ⟨⟨?groupBy, List.forall₂_nil_left_iff.mp hhaving, ?distinct, ?limit⟩, ?reduction⟩
  case groupBy | distinct | limit =>
      rw [hrest]
      rfl
  case reduction =>
      obtain ⟨l, hl, hlifts⟩ := forall₂_exists hselect value (List.mem_singleton_self _)
      exact List.any_eq_true.mpr ⟨l, hl, hlifts.hasReduction hg hreduction⟩

/-- The block of an aggregation outputs a row for each group. -/
theorem Origin.yieldsGroups (hg : g.WellFounded) {keys metrics having : List NodeId}
    (hn : g.node node = .aggregation t keys metrics having) (h : Origin old g node b) :
  b.clauses.YieldsGroups g
  := by
  obtain ⟨_, _, _, hbuilt, _, _, _, hcompleted, _⟩ := h
  have hrest := hcompleted.rest
  rw [hbuilt.clauses_aggregation hg hn] at hrest
  intro V _ I source
  apply Clauses.length_evaluate
  all_goals
    rw [hrest]
    rfl

/-- No aggregation below the projection of a value is folded into its block. -/
theorem Origin.not_aggregation (hg : g.WellFounded) (hn : g.node node = .projection t [value])
    (h : Origin old g node b) {u : NodeId} (hu : u.index < node.index)
    (hfolded : b.folding.contains u = true) :
  g.isAggregation u = false
  := by
  obtain ⟨built, ops, source, hlayout, hfused, _, _, _⟩ := h.layout hg
  obtain ⟨hold, e, hnode, _⟩ := h
  obtain ⟨htop, htree⟩ := not_computes_around hg node source
  have hhas : old.Has u := Nat.lt_trans hu hnode
  rw [Graph.isAggregation, decide_eq_false_iff_not]
  intro haggregation
  have hcomputes : Folding.Computes g u := .inr haggregation
  have hmem := List.contains_iff_mem.mp hfolded
  rw [hfused, List.mem_append, List.mem_append] at hmem
  have hops := (hmem.resolve_right fun hu => htree u hu hcomputes).resolve_left
    fun hu => htop u hu hcomputes
  have hplain : (top g node).2 = node :=
    top_of_plain hg (by rw [hn]; rfl) (by rw [hn]; rfl) (by rw [hn]; rintro _ ⟨⟩)
  rw [hplain] at hlayout
  obtain ⟨_, _, _, _, _, htable, _⟩ := hlayout.aggregates hg hold e hnode hops
    (by rw [Graph.isAggregation, ← e.node_eq hhas]; exact decide_eq_true haggregation)
  have hpeel : g.peel node = ⟨node, [], []⟩ := Graph.peel_other hg (by rw [hn]; rfl)
  rw [hpeel] at htable
  rw [htable, hn] at haggregation
  cases haggregation

/-- Nothing that stands in a projected value, unfolded, holds a reduction if neither the value nor an
item of a projection below it does. -/
theorem Origin.unreduced_unfolds (hg : g.WellFounded) (hroot : g.Has root)
    (hvalue : g.NamedAs root value) (hn : g.node node = .projection t [value])
    (h : Origin old g node b) (hreduction : g.hasReduction root = false)
    (hplain : g.ProjectsPlainly root) {w : NodeId}
    (hw : Relation.ReflTransGen (b.folding.Unfolds g) value w) :
  (w = value ∨ w.index ≤ root.index) ∧ g.Has w ∧ g.hasReduction w = false
  := by
  have hchild : value.index < node.index := by
    apply hg.child_lt
    rw [hn]
    simp [Node.children]
  induction hw with
  | refl => exact ⟨.inl rfl, hvalue.has hroot, (hvalue.hasReduction hg hroot).trans hreduction⟩
  | @tail v w _ hstep ih =>
      obtain ⟨hle, hv, hunreduced⟩ := ih
      have hw : g.Has w := Nat.lt_trans (hstep.lt hg) hv
      cases hstep with
      | operand ho hc =>
          refine ⟨.inr ?_, hw, ?_⟩
          · rcases hle with rfl | hle
            · exact hvalue.child_le hg hc
            · exact Nat.le_trans (Nat.le_of_lt (hg.child_lt hc)) hle
          · rw [Graph.hasReduction_eq hg hv, Graph.denote_operator hg _ ho,
              Algebra.reductions_operator, Bool.or_eq_false_iff, List.any_map,
              List.any_eq_false] at hunreduced
            rw [Graph.hasReduction_eq hg hw]
            exact Bool.eq_false_iff.mpr (hunreduced.2 w hc)
      | @definition u _ name hcolumn hstands =>
          obtain ⟨x, hpassed, hfate⟩ := Folding.standsFor_iff.mp hstands
          have hu : u ∈ (g.node v).children := by
            rw [hcolumn]
            exact List.mem_singleton_self u
          have hxu := Folding.Passes.le hg hpassed
          have hx : x.index < root.index := by
            rcases hle with rfl | hle
            · exact Nat.lt_of_le_of_lt hxu (hvalue.column_lt hg hcolumn)
            · exact Nat.lt_of_le_of_lt hxu (Nat.lt_of_lt_of_le (hg.child_lt hu) hle)
          obtain ⟨hfolded, _⟩ := Folding.computes_of_fate hfate
          have hxnode : x.index < node.index :=
            Nat.lt_trans hx (Nat.lt_of_le_of_lt (hvalue.le hg) hchild)
          obtain ⟨input, items, i, hprojection, hi, rfl⟩ := Folding.exists_item_of_fate hfate
            (h.not_aggregation hg hn hxnode hfolded)
          have hitem : i.index < x.index := by
            apply hg.child_lt
            rw [hprojection]
            exact List.mem_cons_of_mem _ hi
          refine ⟨.inr ?_, hw, ?_⟩
          · exact Nat.le_trans (hg.unaliased_le i) (Nat.le_of_lt (Nat.lt_trans hitem hx))
          · rw [Graph.hasReduction_eq hg hw,
              Graph.denote_unaliased hg Algebra.reductions_transparent,
              ← Graph.hasReduction_eq hg (Nat.lt_trans hitem (Nat.lt_trans hx hroot))]
            exact hplain x input items hx hprojection i hi

/-- What the projection of a value selects holds no reduction if neither the value nor an item of a
projection below it does. -/
theorem Origin.unreduced (hg : g.WellFounded) (hroot : g.Has root) (hvalue : g.NamedAs root value)
    (hn : g.node node = .projection t [value]) (h : Origin old g node b)
    (hreduction : g.hasReduction root = false) (hplain : g.ProjectsPlainly root) :
  b.clauses.select.any g.hasReduction = false
  := by
  have hunfolds := fun w => h.unreduced_unfolds hg hroot hvalue hn hreduction hplain (w := w)
  obtain ⟨_, _, _, hbuilt, _, _, _, hcompleted, _⟩ := h
  have hselect := hcompleted.select
  rw [hbuilt.clauses_projection hg hn (List.forall_mem_singleton.mpr hvalue.isRelation)] at hselect
  rw [List.any_eq_false]
  intro l hl hholds
  obtain ⟨item, hitem, hlifts⟩ := forall₂_exists hselect.flip l hl
  obtain rfl := List.mem_singleton.mp hitem
  cases hlifts with
  | star hr _ => cases hvalue.isRelation.symm.trans hr
  | value _ hlifts =>
      rw [Graph.hasReduction_iff hg hlifts.target, hlifts.denote _ Algebra.nests_transparent,
        (Folding.resolve_nests hg item).1] at hholds
      obtain ⟨r, hr, hholds⟩ := hholds
      obtain ⟨_, hhas, hnone⟩ := hunfolds r hr
      rw [Bool.eq_false_iff, ne_eq, Graph.hasReduction_iff hg hhas,
        (Graph.denote_nests hg r).1] at hnone
      exact hnone ⟨r, .refl r, hholds⟩

end Block

/-! ### Pipelines of values -/

namespace Graph

variable {value table : NodeId}

/-- An alias of a value of rows is one. -/
theorem NamedAs.over {grouped : Bool} (h : g.NamedAs root value) (hover : g.Over grouped t root) :
  g.Over grouped t value
  := by
  rcases h with ⟨rfl, _⟩ | ⟨_, hn⟩
  · exact hover
  · refine .operator (by rw [hn]; rfl) ?_
    rw [hn]
    exact List.forall_mem_singleton.mpr hover

theorem NamedAs.item {grouped : Bool} (h : g.NamedAs root value) (hover : g.Over grouped t root) :
  g.Item grouped t value
  := .value (by rw [h.name?_eq]; rfl) (h.over hover)

theorem NamedAs.fieldName_eq (h : g.NamedAs root value) :
  g.fieldName value = g.fieldName root
  := by
  rw [fieldName, h.name?_eq, Option.getD_some]

/-- A projection of a value of the rows of a pipeline is a pipeline. -/
theorem NamedAs.pipeline_projection (h : g.NamedAs root value)
    (hn : g.node table = .projection t [value]) (ht : g.Pipeline t) (hover : g.Over false t root) :
  g.Pipeline table
  := by
  refine .intro ?_ ?_
  · rw [Regular, hn]
    exact List.forall_mem_singleton.mpr (h.item hover)
  · rw [hn]
    rintro _ ⟨⟩
    exact ht

/-- An aggregation of all rows of a pipeline to a value with a reduction is a pipeline. -/
theorem NamedAs.pipeline_aggregation (hg : g.WellFounded) (hroot : g.Has root)
    (h : g.NamedAs root value) (hn : g.node table = .aggregation t [] [value] [])
    (ht : g.Pipeline t) (hreduction : g.hasReduction root = true) (hover : g.Over true t root) :
  g.Pipeline table
  := by
  refine .intro ?_ ?_
  · rw [Regular, hn]
    have hmetric : g.hasReduction value = true := (h.hasReduction hg hroot).trans hreduction
    exact ⟨List.forall_mem_nil _, List.forall_mem_singleton.mpr (h.item hover),
      List.forall_mem_nil _, fun _ _ => ⟨value, List.mem_singleton_self _, hmetric⟩⟩
  · rw [hn]
    rintro _ ⟨⟩
    exact ht

variable {V : Type} (I : Interpretation V)

/-- The row of a value alone. -/
theorem NamedAs.itemsRow (hg : g.WellFounded) (h : g.NamedAs root value) (x : Context V) :
  g.itemsRow I.values [value] x = [(g.fieldName root, g.denote I.values root x)]
  := by
  rw [Graph.itemsRow, List.flatMap_singleton, itemRow_value h.isRelation, h.fieldName_eq,
    h.denote_eq hg (A := I.values) Interpretation.algebra_transparent]

variable [DecidableEq V] (db : Database V)

/-- The rows of a projection of a value. -/
theorem NamedAs.rows_projection (hg : g.WellFounded) (h : g.NamedAs root value)
    (hn : g.node table = .projection t [value]) :
  g.rows I db table
    = (g.rows I db t).map fun r => [(g.fieldName root, g.denote I.values root (.ofRow r))]
  := by
  rw [Graph.rows_projection hg hn]
  exact List.map_congr_left fun r _ => h.itemsRow I hg (.ofRow r)

/-- The row of a metric of all rows. -/
theorem NamedAs.rows_aggregation (hg : g.WellFounded) (h : g.NamedAs root value)
    (hn : g.node table = .aggregation t [] [value] []) :
  g.rows I db table
    = [[(g.fieldName root, g.denote I.values root (.ofGroup (g.rows I db t)))]]
  := by
  rw [Graph.rows_aggregation hg hn]
  exact congrArg (fun row => [row]) (h.itemsRow I hg (.ofGroup (g.rows I db t)))

end Graph

/-! ### Statements of values -/

namespace QuerySpec

theorem meetsBlocks_compilation :
  compilation.MeetsBlocks
  := fun node g hg hnode _ => compilation_meets_queryOf node g hg hnode

/-- What a table that is no set operation has been compiled to is its block. -/
theorem block_of_compilation (hg : g.WellFounded) {node : NodeId} {q : Query}
    (hunion : ∀ l r distinct, g.node node ≠ .union l r distinct) (h : compilation g node q) :
  ∃ old b forceAliases, Block.Origin old g node b
    ∧ q = .select { b.clauses with forceAliases } b.nested
  := (origin_of_compilation hg h).resolve_left
    fun ⟨_, _, _, _, _, hn, _⟩ => hunion _ _ _ hn

end QuerySpec

namespace Graph

variable {st : Statement}

/-- The query of a statement of a value. -/
theorem analyze_answers (hg : g.WellFounded) (hroot : g.Has root)
    (hvalue : g.isRelation root = false) (h : g.analyze root = .ok st) :
  g.Extends st.graph ∧ st.graph.WellFounded
    ∧ ∃ q, Answers .compilation st.graph root q st.handler
      ∧ (st.query, st.shared) = (q.shareTables st.graph).1.bind (q.shareTables st.graph).2
  := by
  obtain ⟨⟨⟨q, handler⟩, g'⟩, hrun, hret⟩ := exists_of_bind_eq_ok h
  cases hret
  obtain ⟨hg', e, hq⟩ := (grows_rootQuery_answers QuerySpec.meetsBlocks_compilation hg hroot
    hvalue).result _ _ (eq_ok_of_mapError hrun)
  exact ⟨e, hg', q, hq, rfl⟩

end Graph

/-- Binding a block, and referring to shared tables, keeps its clauses up to their scope. -/
theorem Query.select_of_parts {q : Query} {st : Statement} {c : Clauses}
    {nested : List (Nested Query)} (hq : q = .select c nested)
    (hparts : (st.query, st.shared) = (q.shareTables st.graph).1.bind (q.shareTables st.graph).2) :
  ∃ scope nested', st.query = .select { c with scope } nested'
  := by
  subst hq
  have hquery : st.query = _ := congrArg Prod.fst hparts
  rw [shareTables, refer_select, Query.bind] at hquery
  exact ⟨_, _, hquery⟩

namespace Answers

variable {Q : QuerySpec} {q : Query} {handler : Handler}

/-- How the result of a value is read. -/
theorem handler_eq (hg : g.WellFounded) (hroot : g.Has root) (h : Answers Q g root q handler)
    (hlist : ∀ exprs, g.node root ≠ .exprList exprs) :
  handler = if g.hasReduction root || !g.readsOutsideReductions root then .scalar
    else .column (g.fieldName root)
  := by
  have hiff := Graph.base_or_reductions_iff hg hroot
  cases h with
  | list hn => exact absurd hn (hlist _)
  | field hn _ _ =>
      rw [Graph.hasReduction_eq hg hroot, Graph.readsOutsideReductions_eq hg hroot,
        Graph.denote_column hg _ hn, Graph.denote_column hg _ hn, Graph.fieldName, Graph.name?, hn]
      rfl
  | constant _ hbase _ =>
      have hscalar := hiff.mp (.inl hbase)
      rw [if_pos (by simpa using hscalar)]
  | total _ _ hreduction _ _ _ => rw [hreduction, Bool.true_or, if_pos rfl]
  | rows _ hbase hreduction _ _ _ =>
      have hnot : ¬ (g.hasReduction root = true ∨ g.readsOutsideReductions root = false) := by
        rw [← hiff, hbase, hreduction]
        simp
      rw [if_neg (by simpa using hnot)]

/-- A value list is read as a table. -/
theorem handler_list {exprs : List NodeId} (h : Answers Q g root q handler)
    (hn : g.node root = .exprList exprs) :
  handler = .table
  := by
  cases h with
  | list _ => rfl
  | field hcolumn _ _ => cases hn.symm.trans hcolumn
  | constant hsingle _ _ => exact absurd hn (hsingle.list exprs)
  | total hsingle _ _ _ _ _ => exact absurd hn (hsingle.list exprs)
  | rows hsingle _ _ _ _ _ => exact absurd hn (hsingle.list exprs)

/-- How many rows the block of a value outputs. -/
theorem yields (hg : g.WellFounded) (hroot : g.Has root)
    (h : Answers .compilation g root q handler) (hlist : ∀ exprs, g.node root ≠ .exprList exprs) :
  ∃ c nested, q = .select c nested
    ∧ (handler = .scalar → c.YieldsOne g)
    ∧ (handler ≠ .scalar → g.IsSingle root → c.YieldsEach g
      ∧ (g.ProjectsPlainly root → c.select.any g.hasReduction = false))
    ∧ (¬ g.IsSingle root → c.YieldsGroups g)
  := by
  cases h with
  | list hn => exact absurd hn (hlist _)
  | field hn ht hq =>
      obtain ⟨old, b, force, horigin, rfl⟩ :=
        QuerySpec.block_of_compilation hg (by rw [ht]; rintro _ _ _ ⟨⟩) hq
      have hfield := Graph.not_isSingle hn ht
      exact ⟨_, _, rfl, nofun, fun _ hsingle => absurd hsingle hfield,
        fun _ => horigin.yieldsGroups hg ht⟩
  | constant hsingle _ hvalue =>
      refine ⟨_, _, rfl, fun _ => ?_, fun hnot => absurd rfl hnot, fun hnot => absurd hsingle hnot⟩
      exact Clauses.Simple.yieldsOne_constant ⟨rfl, rfl, rfl, rfl⟩ rfl rfl
  | total hsingle _ hreduction hvalue htable hq =>
      obtain ⟨old, b, force, horigin, rfl⟩ :=
        QuerySpec.block_of_compilation hg (by rw [htable]; rintro _ _ _ ⟨⟩) hq
      obtain ⟨hsimple, hselect⟩ :=
        horigin.simple_aggregation hg htable ((hvalue.hasReduction hg hroot).trans hreduction)
      exact ⟨_, _, rfl, fun _ => hsimple.yieldsOne hselect, fun hnot => absurd rfl hnot,
        fun hnot => absurd hsingle hnot⟩
  | rows hsingle _ hreduction hvalue htable hq =>
      obtain ⟨old, b, force, horigin, rfl⟩ :=
        QuerySpec.block_of_compilation hg (by rw [htable]; rintro _ _ _ ⟨⟩) hq
      refine ⟨_, _, rfl, nofun, fun _ _ => ⟨?_, fun hplain => ?_⟩, fun hnot => absurd hsingle hnot⟩
      · exact (horigin.simple_projection hg htable hvalue.isRelation).yieldsEach
      · exact horigin.unreduced hg hroot hvalue htable hreduction hplain

end Answers

/-- The rows of the statement of a value over a pipeline. -/
theorem Answers.rows? {st : Statement} {q : Query} (hgraph : st.graph = g) (hg : g.WellFounded)
    (hroot : g.Has root) (h : Answers .compilation g root q st.handler)
    (hparts : (st.query, st.shared) = (q.shareTables g).1.bind (q.shareTables g).2)
    (ht : g.Pipeline t) {V : Type} [DecidableEq V] (I : Interpretation V) (db : Database V) :
  (∀ name, g.node root = .column t name → g.isAggregation t = true →
      st.rows? I db = some (g.rows I db t))
    ∧ (g.IsSingle root → g.baseTable root = some t → g.hasReduction root = true →
        g.Over true t root → st.rows? I db
          = some [[(g.fieldName root, g.denote I.values root (.ofGroup (g.rows I db t)))]])
    ∧ (g.IsSingle root → g.baseTable root = some t → g.hasReduction root = false →
        g.Over false t root → st.rows? I db
          = some ((g.rows I db t).map fun r =>
              [(g.fieldName root, g.denote I.values root (.ofRow r))]))
  := by
  have htower : ∀ {table : NodeId}, QuerySpec.tower g table q → g.Pipeline table →
      st.rows? I db = some (g.rows I db table) :=
    fun hq htable => (hq.2 g (.refl g) hg htable).statement_rows? hgraph hg hparts I db
  have hcompiled : ∀ {table : NodeId},
      QuerySpec.compilation g table q → QuerySpec.tower g table q :=
    fun hq => QuerySpec.hereditary_tower.of_compilation hg hq
  generalize st.handler = handler at h
  cases h with
  | list hn =>
      refine ⟨fun name hcolumn => ?_, fun hsingle => absurd hn (hsingle.list _),
        fun hsingle => absurd hn (hsingle.list _)⟩
      cases hn.symm.trans hcolumn
  | field hn hnode hq =>
      have hfield := Graph.not_isSingle hn hnode
      refine ⟨fun name hcolumn _ => ?_, fun hsingle => absurd hsingle hfield,
        fun hsingle => absurd hsingle hfield⟩
      obtain ⟨rfl, rfl⟩ := Node.column.inj (hn.symm.trans hcolumn)
      exact htower (hcompiled hq) ht
  | constant hsingle hbase _ =>
      refine ⟨fun name hcolumn haggregation => ?_, fun _ hsome => ?_, fun _ hsome => ?_⟩
      · cases (hsingle.field _ _ hcolumn).symm.trans haggregation
      · cases hbase.symm.trans hsome
      · cases hbase.symm.trans hsome
  | total hsingle hbase hreduction hvalue htable hq =>
      refine ⟨fun name hcolumn haggregation => ?_, fun _ hsome _ hover => ?_, fun _ _ hnone => ?_⟩
      · cases (hsingle.field _ _ hcolumn).symm.trans haggregation
      · obtain rfl := Option.some.inj (hbase.symm.trans hsome)
        rw [htower (hcompiled hq) (hvalue.pipeline_aggregation hg hroot htable ht hreduction hover),
          hvalue.rows_aggregation I db hg htable]
      · cases hreduction.symm.trans hnone
  | rows hsingle hbase hreduction hvalue htable hq =>
      refine ⟨fun name hcolumn haggregation => ?_, fun _ _ hsome => ?_, fun _ hsome _ hover => ?_⟩
      · cases (hsingle.field _ _ hcolumn).symm.trans haggregation
      · cases hreduction.symm.trans hsome
      · obtain rfl := Option.some.inj (hbase.symm.trans hsome)
        rw [htower (hcompiled hq) (hvalue.pipeline_projection htable ht hover),
          hvalue.rows_projection I db hg htable]

namespace Graph

variable {st : Statement}

/-- How the result of the statement of a value is read. -/
theorem analyze_handler (hg : g.WellFounded) (hroot : g.Has root)
    (hvalue : g.isRelation root = false) (h : g.analyze root = .ok st)
    (hlist : ∀ exprs, g.node root ≠ .exprList exprs) :
  st.handler = if g.hasReduction root || !g.readsOutsideReductions root then .scalar
    else .column (g.fieldName root)
  := by
  obtain ⟨e, hwf, q, hanswers, _⟩ := analyze_answers hg hroot hvalue h
  have hhandler := hanswers.handler_eq hwf (hroot.mono e) (by rwa [e.node_eq hroot])
  rwa [e.hasReduction_eq hg hwf hroot, e.readsOutsideReductions_eq hg hwf hroot, fieldName,
    e.name?_eq hroot, ← fieldName] at hhandler

/-- The rows of the statement of a value over a pipeline are those of the pipeline for a field of
an aggregation, one row for a value with a reduction, and a row for each row of the pipeline
otherwise. -/
theorem analyze_value_rows (hg : g.WellFounded) (hroot : g.Has root)
    (hvalue : g.isRelation root = false) (h : g.analyze root = .ok st) (ht : g.Pipeline t)
    {V : Type} [DecidableEq V] (I : Interpretation V) (db : Database V) :
  (∀ name, g.node root = .column t name → g.isAggregation t = true →
      st.rows? I db = some (g.rows I db t))
    ∧ (g.IsSingle root → g.baseTable root = some t → g.hasReduction root = true →
        g.Over true t root → st.rows? I db
          = some [[(g.fieldName root, g.denote I.values root (.ofGroup (g.rows I db t)))]])
    ∧ (g.IsSingle root → g.baseTable root = some t → g.hasReduction root = false →
        g.Over false t root → st.rows? I db
          = some ((g.rows I db t).map fun r =>
              [(g.fieldName root, g.denote I.values root (.ofRow r))]))
  := by
  obtain ⟨e, hwf, q, hanswers, hparts⟩ := analyze_answers hg hroot hvalue h
  have hhas := has_of_isRelation ht.isRelation
  have hname : st.graph.fieldName root = g.fieldName root := by
    rw [fieldName, fieldName, e.name?_eq hroot]
  obtain ⟨hfield, htotal, hrows⟩ :=
    hanswers.rows? rfl hwf (hroot.mono e) hparts (ht.mono e hg hwf) I db
  rw [e.node_eq hroot, isAggregation, e.node_eq hhas, ← isAggregation,
    e.rows_eq hg hwf hhas] at hfield
  rw [e.isSingle_iff hg hroot, e.baseTable_eq hg hwf hroot, e.hasReduction_eq hg hwf hroot, hname,
    e.denote_eq hg hwf hroot, e.rows_eq hg hwf hhas] at htotal hrows
  exact ⟨hfield, fun hsingle hbase hreduction hover =>
      htotal hsingle hbase hreduction (hover.mono e hg hwf hhas hroot),
    fun hsingle hbase hreduction hover =>
      hrows hsingle hbase hreduction (hover.mono e hg hwf hhas hroot)⟩

/-- A value list is read as a table.  Any other value is read as a scalar when it holds a reduction
or reads no column, and as a column of its name otherwise; so unless it reads a column next to a
reduction, it is read as a scalar just when it reads no column outside of reductions, and, if it
holds a reduction, just when it would be extracted as a scalar subquery.  The block of a scalar has
one row, and the block of any other value a row for each row of its tables that it keeps, or for
each group when the value is a field of an aggregation; only a projection below the value can bring
a reduction into the former.  Over a pipeline these are the rows of the pipeline. -/
theorem analyze_shapes (hg : g.WellFounded) (hroot : g.Has root)
    (hvalue : g.isRelation root = false) (h : g.analyze root = .ok st) :
  (∀ exprs, g.node root = .exprList exprs → st.handler = .table)
    ∧ ((∀ exprs, g.node root ≠ .exprList exprs) →
      (st.handler = if g.hasReduction root || !g.readsOutsideReductions root then .scalar
          else .column (g.fieldName root))
        ∧ ((g.hasReduction root = true → g.readsOutsideReductions root = false) →
            (st.handler = .scalar ↔ g.readsOutsideReductions root = false)
              ∧ (g.hasReduction root = true →
                  (st.handler = .scalar ↔ Block.isScalar g root = true)))
        ∧ ∃ c nested, st.query = .select c nested
            ∧ (st.handler = .scalar → c.YieldsOne st.graph)
            ∧ (st.handler ≠ .scalar → g.IsSingle root → c.YieldsEach st.graph
              ∧ (g.ProjectsPlainly root → c.select.any st.graph.hasReduction = false))
            ∧ (¬ g.IsSingle root → c.YieldsGroups st.graph))
    ∧ ∀ t, g.Pipeline t → ∀ {V : Type} [DecidableEq V] (I : Interpretation V) (db : Database V),
        (∀ name, g.node root = .column t name → g.isAggregation t = true →
            st.rows? I db = some (g.rows I db t))
          ∧ (g.IsSingle root → g.baseTable root = some t → g.hasReduction root = true →
              g.Over true t root → st.rows? I db
                = some [[(g.fieldName root, g.denote I.values root (.ofGroup (g.rows I db t)))]])
          ∧ (g.IsSingle root → g.baseTable root = some t → g.hasReduction root = false →
              g.Over false t root → st.rows? I db
                = some ((g.rows I db t).map fun r =>
                    [(g.fieldName root, g.denote I.values root (.ofRow r))]))
  := by
  obtain ⟨e, hwf, q, hanswers, hparts⟩ := analyze_answers hg hroot hvalue h
  refine ⟨fun exprs hn => ?_, fun hlist => ⟨analyze_handler hg hroot hvalue h hlist, ?_, ?_⟩,
    fun t ht V _ I db => analyze_value_rows hg hroot hvalue h ht I db⟩
  · exact hanswers.handler_list ((e.node_eq hroot).trans hn)
  · intro hmixed
    rw [analyze_handler hg hroot hvalue h hlist]
    cases hreduction : g.hasReduction root with
    | false => cases g.readsOutsideReductions root <;> simp
    | true =>
        rw [hmixed hreduction, Block.isScalar, hreduction, hmixed hreduction]
        simp
  · obtain ⟨c, nested, hq, hone, heach, hgroups⟩ :=
      hanswers.yields hwf (hroot.mono e) (by rwa [e.node_eq hroot])
    obtain ⟨scope, nested', hquery⟩ := Query.select_of_parts hq hparts
    rw [e.isSingle_iff hg hroot] at heach hgroups
    exact ⟨_, nested', hquery, hone, fun hcolumn hsingle => ⟨(heach hcolumn hsingle).1,
      fun hplain => (heach hcolumn hsingle).2 (hplain.mono hg hroot hwf e)⟩, hgroups⟩

/-- A column, its sum, and the difference of the two. -/
def lessThanTotal : Graph := ⟨#[
  .table ⟨some "t", none, ⟨[⟨"k", .int32⟩, ⟨"x", .int32⟩]⟩⟩,
  .column ⟨0⟩ "x",
  .reduction .sum ⟨1⟩,
  .binary .sub ⟨1⟩ ⟨2⟩]⟩

/-- The column has a row for each row of the table, and the sum has one.  The difference is read
as a scalar as well, although it reads the column and would not be extracted as a subquery. -/
theorem analyze_shapes_lessThanTotal :
  (∃ st, lessThanTotal.analyze ⟨1⟩ = .ok st ∧ st.handler = .column "x"
      ∧ st.rows? sums numbered = some [[("x", 1)], [("x", 5)], [("x", 2)], [("x", 1)]])
    ∧ (∃ st, lessThanTotal.analyze ⟨2⟩ = .ok st ∧ st.handler = .scalar
      ∧ Block.isScalar lessThanTotal ⟨2⟩ = true
      ∧ st.rows? sums numbered = some [[("tmp", 9)]])
    ∧ ∃ st, lessThanTotal.analyze ⟨3⟩ = .ok st ∧ st.handler = .scalar
      ∧ lessThanTotal.readsOutsideReductions ⟨3⟩ = true
      ∧ Block.isScalar lessThanTotal ⟨3⟩ = false
  := by
  have hwf : lessThanTotal.WellFounded := by decide
  have hpipeline : lessThanTotal.Pipeline ⟨0⟩ := .intro trivial nofun
  have hcolumn : ∀ grouped, lessThanTotal.Over grouped ⟨0⟩ ⟨1⟩ :=
    fun _ => .column rfl (.refl _) (by decide +kernel)
  have hruns : ∀ root ∈ [⟨1⟩, ⟨2⟩, ⟨3⟩],
      (lessThanTotal.analyze root).toOption.isSome = true := by
    decide
  have hstatements : ∀ root ∈ [⟨1⟩, ⟨2⟩, ⟨3⟩], ∃ st, lessThanTotal.analyze root = .ok st := by
    intro root hroot
    obtain ⟨st, hst⟩ := Option.isSome_iff_exists.mp (hruns root hroot)
    exact ⟨st, eq_ok_of_toOption hst⟩
  refine ⟨?_, ?_, ?_⟩
  · obtain ⟨st, hst⟩ := hstatements ⟨1⟩ (by decide)
    obtain ⟨_, hhandler, hrows⟩ := analyze_shapes hwf (by decide) rfl hst
    refine ⟨st, hst, (hhandler nofun).1, ?_⟩
    rw [(hrows ⟨0⟩ hpipeline sums numbered).2.2 ⟨nofun, by rintro _ _ ⟨⟩; rfl⟩ (by decide)
      (by decide +kernel) (hcolumn false)]
    decide
  · obtain ⟨st, hst⟩ := hstatements ⟨2⟩ (by decide)
    obtain ⟨_, hhandler, hrows⟩ := analyze_shapes hwf (by decide) rfl hst
    refine ⟨st, hst, (hhandler nofun).1, by decide +kernel, ?_⟩
    rw [(hrows ⟨0⟩ hpipeline sums numbered).2.1 ⟨nofun, nofun⟩ (by decide +kernel)
      (by decide) (.operator rfl (List.forall_mem_singleton.mpr (hcolumn true)))]
    decide +kernel
  · obtain ⟨st, hst⟩ := hstatements ⟨3⟩ (by decide)
    obtain ⟨_, hhandler, _⟩ := analyze_shapes hwf (by decide) rfl hst
    exact ⟨st, hst, (hhandler nofun).1, by decide, by decide +kernel⟩

end Graph

end RelSql
