import RelSql.Proofs.Block.Subquery
import RelSql.Proofs.Lift.Soundness
import RelSql.Proofs.Meaning.Columns

/-!
# Columns of folded tables

The columns of a folded table resolve to values of a row: the row that the operators between the
table and the source of the block make of the row of the source.  So a value that is computed of
the rows of the table resolves to its value on that row.

What the columns of a table resolve to follows that of its input, for each operator that is
folded.
-/

namespace RelSql

variable {V : Type} {I : Interpretation V} {g : Graph} {s : Folding} {mode : LiftMode}
  {column column' : NodeId → String → Context V → V} {id t : NodeId}

namespace Interpretation

/-- An alias means its value. -/
theorem algebra_transparent :
  (I.algebra column).Transparent
  := fun _ _ => rfl

/-- An operator of values of a row depends on the values of its operands only. -/
theorem algebra_operator {grouped : Bool} {n : Node} (hn : n.computes grouped = true)
    {operands operands' : List (Context V → V)} {x y : Context V}
    (h : (operands.map fun f => f x) = operands'.map fun f => f y)
    (hgrouped : grouped = true → x = y ∧ ∀ z,
      (operands.map fun f => f z) = operands'.map fun f => f z) :
  (I.algebra column).operator n.shape operands x = (I.algebra column').operator n.shape operands' y
  := by
  cases n
  case reduction a arg =>
    obtain ⟨rfl, hz⟩ := hgrouped hn
    change I.aggregate a (x.group.map _) = I.aggregate a (x.group.map _)
    simp only [hz]
  case named arg name =>
    change (operands.map fun f => f x).headD I.null = (operands'.map fun f => f y).headD I.null
    rw [h]
  case contains arg options negated =>
    cases options
    · exact congrArg _ h
    · cases hn
  all_goals exact congrArg _ h

end Interpretation

namespace Graph

/-- A value that is computed of the rows of `t` resolves to its value in the context that the
columns of `t` are read from. -/
theorem Over.value_eq (hg : g.WellFounded) {grouped : Bool} {D : Context V → Prop}
    {φ : Context V → Context V} {v : NodeId} (h : g.Over grouped t v)
    (hcolumns : ∀ u, g.Passes t u → ∀ name, g.hasField u name = true → ∀ x, D x →
      (s.resolve mode (I.algebra column) g u).column name x = I.get (φ x).row name)
    (hgrouped : grouped = true → ∀ x, φ x = x ∧ D x) :
  ∀ x, D x →
    (s.resolve mode (I.algebra column) g v).value x = g.denote I.values v (φ x)
  := by
  induction h with
  | @column id u name hn hu hfield =>
      intro x hx
      rw [Lift.resolve_value_eq hg, Folding.resolveValue, hn, denote_column hg _ hn]
      exact hcolumns u hu name hfield x hx
  | count hgroup hn =>
      intro x _
      rw [Lift.resolve_value_eq hg, Folding.resolveValue, hn, denote_countStar hg _ hn,
        (hgrouped hgroup x).1]
      rfl
  | operator ho _ ih =>
      intro x hx
      have hop := Node.isOperator_of_computes ho
      rw [Lift.resolve_value_eq hg, Folding.resolveValue_operator _ _ hop, denote_operator hg _ hop]
      apply Interpretation.algebra_operator ho
      · rw [List.map_map, List.map_map]
        exact List.map_congr_left fun c hc => ih c hc x hx
      · intro hgroup
        refine ⟨(hgrouped hgroup x).1.symm, ?_⟩
        intro z
        rw [List.map_map, List.map_map]
        apply List.map_congr_left
        intro c hc
        have hz := ih c hc z (hgrouped hgroup z).2
        rw [(hgrouped hgroup z).1] at hz
        exact hz

end Graph

namespace Folding

/-! ### One operator -/

section

variable {α : Type} {A : Algebra α} {P P' : String → α → Prop}

/-- The columns of `t`, and of the tables that pass their rows on to it, resolve to what `P`
says. -/
def HasColumns (s : Folding) (mode : LiftMode) (A : Algebra α) (g : Graph)
    (P : String → α → Prop) (t : NodeId) : Prop :=
  ∀ u, g.Passes t u → ∀ name, g.hasField u name = true → P name ((s.resolve mode A g u).column name)

/-- Where nothing is folded below the selections above `t`, its columns are kept. -/
theorem hasColumns_source (hg : g.WellFounded)
    (hbelow : ∀ n ∈ s.fused, g.depth (g.peel t).table < g.depth n)
    (h : ∀ u, g.Passes t u → ∀ name, g.hasField u name = true → P name (A.column u name)) :
  s.HasColumns mode A g P t
  := by
  intro u hu name hfield
  obtain ⟨i⟩ := u
  induction i using Nat.strongRecOn with
  | ind i ih =>
      rw [Lift.resolve_column_eq hg, resolveColumn]
      split
      · exact h _ hu name hfield
      case isFalse hfold =>
          -- what is folded here is a selection
          rcases hu.mem_peel hg with ⟨_, t', predicates, hn⟩ | htable
          · rw [hn]
            simp only
            split
            · exact h _ hu name hfield
            · have hpasses : g.Passes ⟨i⟩ t' := .selection hn (.refl t')
              refine ih t'.index (hg.child_lt (by rw [hn]; exact List.mem_cons_self))
                (hu.trans hpasses) ?_
              exact (hpasses.hasField_eq hg name).trans hfield
          · have hfused : s.contains ⟨i⟩ = true := by
              cases hc : s.contains ⟨i⟩ with
              | true => rfl
              | false =>
                  rw [hc] at hfold
                  exact absurd rfl hfold
            have hlt := hbelow _ (List.contains_iff_mem.mp hfused)
            rw [htable] at hlt
            exact absurd hlt (Nat.lt_irrefl _)

/-- Whether the columns of a table are given away. -/
def passesOn (s : Folding) (mode : LiftMode) (id : NodeId) : Bool :=
  s.contains id && !(mode = .output && s.outputs.contains id)

theorem not_kept_of_passesOn (h : s.passesOn mode id = true) :
  (!s.contains id || (mode = .output && s.outputs.contains id)) = false
  := by
  rw [passesOn] at h
  obtain ⟨hcontains, hkept⟩ := Bool.and_eq_true_iff.mp h
  rw [hcontains, Bool.not_true, Bool.false_or]
  exact Bool.not_eq_true' _ ▸ hkept

/-- The columns of a table that takes rows away or orders them are those of its input. -/
theorem HasColumns.kept (hg : g.WellFounded) (hmode : mode ≠ .projections)
    (hid : s.passesOn mode id = true) (hkept : Graph.keptInput? (g.node id) = some t)
    (h : s.HasColumns mode A g P t) :
  s.HasColumns mode A g P id
  := by
  intro u hu name hfield
  cases hu with
  | refl =>
      rw [Graph.hasField_kept hg hkept] at hfield
      have ht := h t (.refl t) name hfield
      rw [Lift.resolve_column_eq hg, resolveColumn, not_kept_of_passesOn hid,
        if_neg Bool.false_ne_true]
      cases hn : g.node id <;> rw [hn] at hkept <;> cases hkept <;>
        (simp only [if_neg hmode]; exact ht)
  | selection hn hu =>
      rw [hn] at hkept
      cases hkept
      exact h u hu name hfield

/-- The operators of a chain give the columns of the table below. -/
theorem HasColumns.chain (hg : g.WellFounded) (hmode : mode ≠ .projections)
    {next? : Node → Option NodeId} (hnext : Graph.Follows next?)
    (hkept : ∀ n t, next? n = some t → Graph.keptInput? n = some t)
    (hfold : ∀ n ∈ (g.chain next? id).1, s.passesOn mode n = true)
    (h : s.HasColumns mode A g P (g.chain next? id).2) :
  s.HasColumns mode A g P id
  := by
  revert hfold h
  apply Graph.chain_induction hnext hg (P := fun id =>
    (∀ n ∈ (g.chain next? id).1, s.passesOn mode n = true) →
      s.HasColumns mode A g P (g.chain next? id).2 → s.HasColumns mode A g P id)
  · intro id ht _ h
    rw [Graph.chain_end hnext hg ht] at h
    exact h
  · intro id t ht ih hfold h
    rw [Graph.chain_next hnext hg ht] at hfold h
    obtain ⟨hid, hfold⟩ := List.forall_mem_cons.mp hfold
    exact (ih hfold h).kept hg hmode hid (hkept _ t ht)

/-- The columns of a folded projection are what the items that provide them stand for. -/
theorem HasColumns.projection (hg : g.WellFounded) (hA : A.Transparent) {items : List NodeId}
    (hn : g.node id = .projection t items) (hid : s.passesOn mode id = true)
    (ht : g.Pipeline t) (hitems : ∀ i ∈ items, g.Item false t i)
    (h : s.HasColumns mode A g P t)
    (htable : ∀ sch, g.schema id = .ok sch → ∀ name item, Lift.provider? g items name = some item →
      g.isRelation item = true → ∀ a, P name a → P' name a)
    (hvalue : ∀ sch, g.schema id = .ok sch → ∀ name item, Lift.provider? g items name = some item →
      g.isRelation item = false → g.Over false t item → P' name (s.resolve mode A g item).value) :
  s.HasColumns mode A g P' id
  := by
  intro u hu name hfield
  cases hu with
  | selection hn' _ =>
      rw [hn] at hn'
      cases hn'
  | refl =>
      obtain ⟨sch, hs, hname⟩ := Graph.hasField_iff.mp hfield
      obtain ⟨item, hprovider⟩ := Graph.exists_provider hg hn ht hitems hs hname
      have hitem := hitems item (provider_mem hprovider)
      rw [Lift.resolve_column_eq hg, resolveColumn, not_kept_of_passesOn hid,
        if_neg Bool.false_ne_true, hn]
      simp only [hprovider]
      cases hr : g.isRelation item with
      | true =>
          simp only [if_true]
          apply htable sch hs name item hprovider hr
          exact h item (hitem.passes hr) name (Graph.hasField_of_provider hprovider hr)
      | false =>
          simp only [Bool.false_eq_true, if_false]
          rw [resolve_unaliased hg hA]
          exact hvalue sch hs name item hprovider hr (hitem.over ht hr).2

end

/-! ### Rows -/

/-- In the contexts of `D` the columns of `t`, and of the tables that pass their rows on to it,
resolve to the values of `row`. -/
def Gives (s : Folding) (mode : LiftMode) (I : Interpretation V)
    (column : NodeId → String → Context V → V) (g : Graph) (D : Context V → Prop) (t : NodeId)
    (row : Context V → Row V) : Prop :=
  s.HasColumns mode (I.algebra column) g (fun name f => ∀ x, D x → f x = I.get (row x) name) t

variable {D : Context V → Prop} {row : Context V → Row V}

/-- A value of rows of `t` resolves to its value on the row. -/
theorem Gives.value (hg : g.WellFounded) (h : s.Gives mode I column g D t row) {v : NodeId}
    (hv : g.Over false t v) {x : Context V} (hx : D x) :
  (s.resolve mode (I.algebra column) g v).value x = g.denote I.values v (.ofRow (row x))
  := hv.value_eq hg (φ := fun x => .ofRow (row x)) h nofun x hx

/-- A value of groups of rows of `t` resolves to its value. -/
theorem Gives.group (hg : g.WellFounded)
    (h : s.Gives mode I column g (fun _ => True) t Context.row) {grouped : Bool} {v : NodeId}
    (hv : g.Over grouped t v) (x : Context V) :
  (s.resolve mode (I.algebra column) g v).value x = g.denote I.values v x
  := hv.value_eq hg (φ := id) h (fun _ _ => ⟨rfl, trivial⟩) x trivial

theorem Gives.of_forall (h : s.Gives mode I column g (fun _ => True) t row) :
  s.Gives mode I column g D t row
  := fun u hu name hfield x _ => h u hu name hfield x trivial

/-- The columns of a folded projection are those of the row that its items make. -/
theorem Gives.projection (hg : g.WellFounded) {items : List NodeId}
    (hn : g.node id = .projection t items) (hid : s.passesOn mode id = true)
    (ht : g.Pipeline t) (hitems : ∀ i ∈ items, g.Item false t i)
    (hfits : ∀ x, D x → g.Fits t (row x)) (h : s.Gives mode I column g D t row) :
  s.Gives mode I column g D id fun x => g.itemsRow I.values items (.ofRow (row x))
  := by
  have hget : ∀ sch, g.schema id = .ok sch → ∀ name item,
      Lift.provider? g items name = some item → ∀ x, D x →
        I.get (g.itemsRow I.values items (.ofRow (row x))) name
          = if g.isRelation item then I.get (row x) name
            else g.denote I.values item (.ofRow (row x)) := by
    intro sch hs name item hprovider x hx
    apply Graph.get_itemsRow hprovider
    · intro i hi hr
      obtain ⟨s', hs'⟩ := Graph.exists_schema_of_projection hg hn hs i hi hr
      have hsame := ((hitems i hi).passes hr).schema_eq hg
      rw [hs'] at hsame
      rw [Graph.hasField_iff, Context.ofRow, hfits x hx s' hsame.symm name, hs']
      simp
    · exact fun i hi hr => ((hitems i hi).over ht hr).1
  refine HasColumns.projection hg Interpretation.algebra_transparent hn hid ht hitems h ?_ ?_
  · intro sch hs name item hprovider hr a ha x hx
    rw [hget sch hs name item hprovider x hx, hr, if_pos rfl]
    exact ha x hx
  · intro sch hs name item hprovider hr hover x hx
    rw [hget sch hs name item hprovider x hx, hr, if_neg Bool.false_ne_true]
    exact h.value hg hover hx

/-- The columns of a folded aggregation are those of the row that its items make of a group. -/
theorem Gives.aggregation (hg : g.WellFounded) (hmode : mode ≠ .projections)
    {keys metrics having : List NodeId}
    (hn : g.node id = .aggregation t keys metrics having) (hid : s.passesOn mode id = true)
    (ht : g.Pipeline t) (hitems : ∀ i ∈ keys ++ metrics, ∃ grouped, g.Item grouped t i)
    (h : s.Gives mode I column g (fun _ => True) t Context.row) :
  s.Gives mode I column g (fun _ => True) id (g.itemsRow I.values (keys ++ metrics))
  := by
  intro u hu name hfield x _
  cases hu with
  | selection hn' _ =>
      rw [hn] at hn'
      cases hn'
  | refl =>
      obtain ⟨sch, hs, hname⟩ := Graph.hasField_iff.mp hfield
      have hrelation := Graph.isRelation_of_aggregation hg hn hs
      have hvalues : ∀ i ∈ keys ++ metrics, g.isRelation i = false → (g.name? i).isSome = true := by
        intro i hi hr
        obtain ⟨grouped, hitem⟩ := hitems i hi
        exact (hitem.over ht hr).1
      obtain ⟨item, hnamed⟩ : ∃ item, Lift.namedItem? g (keys ++ metrics) name = some item := by
        rw [← Option.isSome_iff_exists, Lift.namedItem?, List.find?_isSome]
        rw [← Graph.fieldNames_of_schema hg hs, Graph.fieldNames_aggregation hg hn,
          List.mem_eraseDups, List.mem_flatMap] at hname
        obtain ⟨i, hi, hname⟩ := hname
        obtain ⟨n, hn⟩ := Option.isSome_iff_exists.mp (hvalues i hi (hrelation i hi))
        rw [Graph.selectedNames_value (hrelation i hi), Graph.fieldName, hn, Option.getD_some,
          List.mem_singleton] at hname
        exact ⟨i, hi, by rw [hn, hname, beq_iff_eq]⟩
      have hitem := namedItem_mem hnamed
      have hprovider : Lift.provider? g (keys ++ metrics) name = some item := by
        rw [← hnamed, Lift.provider?, Lift.namedItem?]
        apply List.find?_congr
        intro i hi
        rw [Graph.provides, hrelation i hi, Bool.false_and, Bool.false_or]
      rw [Graph.get_itemsRow hprovider
          (fun i hi hr => by rw [hrelation i hi] at hr; cases hr) hvalues,
        hrelation item hitem, Lift.resolve_column_eq hg, resolveColumn, not_kept_of_passesOn hid,
        if_neg Bool.false_ne_true, hn]
      simp only [if_neg hmode, hnamed, Bool.false_eq_true, if_false]
      rw [resolve_unaliased hg Interpretation.algebra_transparent]
      obtain ⟨grouped, hover⟩ := hitems item hitem
      exact h.group hg (hover.over ht (hrelation item hitem)).2 x

end Folding

end RelSql

/-! ### Values of single rows

A value is plain when it is made of columns by operators on values of a row.  A plain value holds
no reduction, and no subquery is extracted from it.  Folding operators that compute their values
of rows keeps values plain.
-/

namespace RelSql

variable {g : Graph} {s : Folding} {mode : LiftMode} {t : NodeId}

@[simp]
theorem Node.computes_shape (grouped : Bool) (n : Node) :
  n.shape.computes grouped = n.computes grouped
  := by
  cases n
  case contains a options negated => cases options <;> rfl
  all_goals rfl

namespace Algebra

/-- Whether a value is made of columns of which `T` holds by operators on values of a row. -/
def plain (T : NodeId → String → Prop) : Algebra Prop where
  column := T
  count _ := False
  table _ := False
  operator n operands := n.computes false = true ∧ ∀ o ∈ operands, o

variable {T : NodeId → String → Prop}

theorem plain_transparent :
  (plain T).Transparent
  := by
  intro name value
  apply propext
  constructor
  · exact fun h => h.2 value (List.mem_singleton_self value)
  · exact fun h => ⟨rfl, fun o ho => (List.mem_singleton.mp ho).symm ▸ h⟩

theorem plain_operator {n : Node} {operands : List Prop} :
  (plain T).operator n.shape operands ↔ n.computes false = true ∧ ∀ o ∈ operands, o
  := by
  rw [← Node.computes_shape false n]
  exact Iff.rfl

theorem reductions_transparent :
  reductions.Transparent
  := by
  intro name value
  change (false || value || false) = value
  rw [Bool.false_or, Bool.or_false]

theorem reductions_operator {n : Node} {operands : List Bool} :
  reductions.operator n.shape operands = (n.isReduction || operands.any id)
  := by
  rw [← Node.isReduction_shape n]
  rfl

end Algebra

namespace Graph

variable {T : NodeId → String → Prop} {id : NodeId}

/-- A plain operator has plain operands. -/
theorem denote_plain_operator (hg : g.WellFounded) (ho : (g.node id).isOperator = true) :
  g.denote (.plain T) id
    ↔ (g.node id).computes false = true ∧ ∀ c ∈ (g.node id).children, g.denote (.plain T) c
  := by
  rw [denote_operator hg _ ho, Algebra.plain_operator, List.forall_mem_map]

/-- A plain value of columns of `t` is computed of the rows of `t`. -/
theorem over_of_plain (hg : g.WellFounded)
    (h : g.denote (.plain fun u name => g.Passes t u ∧ g.hasField u name = true) id) :
  g.Over false t id
  := by
  obtain ⟨i⟩ := id
  induction i using Nat.strongRecOn with
  | ind i ih =>
      rcases (g.node ⟨i⟩).kinds with ⟨u, name, hn⟩ | ⟨u, hn⟩ | hn | hn
      · rw [denote_column hg _ hn] at h
        exact .column hn h.1 h.2
      · rw [denote_countStar hg _ hn] at h
        exact h.elim
      · rw [denote_relation hg _ hn] at h
        exact h.elim
      · rw [denote_plain_operator hg hn] at h
        exact .operator h.1 fun c hc => ih c.index (hg.child_lt hc) (h.2 c hc)

/-- A plain value holds no reduction. -/
theorem reductions_of_plain (hg : g.WellFounded) (h : g.denote (.plain T) id) :
  g.denote .reductions id = false
  := by
  obtain ⟨i⟩ := id
  induction i using Nat.strongRecOn with
  | ind i ih =>
      rcases (g.node ⟨i⟩).kinds with ⟨u, name, hn⟩ | ⟨u, hn⟩ | hn | hn
      · rw [denote_column hg _ hn]
        rfl
      · rw [denote_countStar hg _ hn] at h
        exact h.elim
      · rw [denote_relation hg _ hn] at h
        exact h.elim
      · rw [denote_plain_operator hg hn] at h
        rw [denote_operator hg _ hn, Algebra.reductions_operator, Bool.or_eq_false_iff,
          List.any_map, List.any_eq_false]
        constructor
        · cases hnode : g.node ⟨i⟩ <;> rw [hnode] at h hn <;>
            first | rfl | cases h.1
        · intro c hc
          rw [Function.comp_apply, ih c.index (hg.child_lt hc) (h.2 c hc)]
          exact Bool.false_ne_true

/-- No subquery is extracted from a plain value. -/
theorem not_extracts_of_plain (hg : g.WellFounded) (hid : g.Has id) {v : NodeId}
    (h : g.Extracts id v) :
  ¬ g.denote (.plain T) id
  := by
  have hcomputes : ∀ {n : Node}, n.isOperator = true → n.computes false = false → g.node id = n →
      ¬ g.denote (.plain T) id := by
    intro n ho hn hnode h
    rw [denote_plain_operator hg (by rw [hnode, ho]), hnode, hn] at h
    cases h.1
  induction h with
  | any hn => exact hcomputes rfl rfl hn
  | column hn => exact hcomputes rfl rfl hn
  | argument hn _ _ => exact hcomputes rfl rfl hn
  | @option id arg c v values negated hn hc _ ih =>
      have hmem : c ∈ (g.node id).children := by
        rw [hn]
        exact hc
      intro h
      rw [denote_plain_operator hg (by rw [hn]; rfl)] at h
      have hchild : g.Has c := hg.has_child hid hmem
      refine ih hchild ?_ (h.2 c hmem)
      intro n ho hn hnode h
      rw [denote_plain_operator hg (by rw [hnode, ho]), hnode, hn] at h
      cases h.1
  | scalar hn hs =>
      intro h
      rw [Block.isScalar, hasReduction_eq hg hid, reductions_of_plain hg h] at hs
      cases hs
  | @operand id c v hn _ hc _ ih =>
      intro h
      rw [denote_plain_operator hg (Node.isOperator_of_isPlain hn)] at h
      refine ih (hg.has_child hid hc) ?_ (h.2 c hc)
      intro n ho hn hnode h
      rw [denote_plain_operator hg (by rw [hnode, ho]), hnode, hn] at h
      cases h.1

end Graph

namespace Folding

variable {T : NodeId → String → Prop}

/-- The columns of `t` resolve to plain values. -/
def Plain (s : Folding) (mode : LiftMode) (g : Graph) (T : NodeId → String → Prop) (t : NodeId) :
    Prop :=
  s.HasColumns mode (.plain T) g (fun _ p => p) t

/-- A value of rows of `t` resolves to a plain one when the columns of `t` do. -/
theorem Plain.value (hg : g.WellFounded) (h : s.Plain mode g T t) {v : NodeId}
    (hv : g.Over false t v) :
  (s.resolve mode (.plain T) g v).value
  := by
  induction hv with
  | @column id u name hn hu hfield =>
      rw [Lift.resolve_value_eq hg, resolveValue, hn]
      exact h u hu name hfield
  | count hgrouped _ => cases hgrouped
  | operator ho _ ih =>
      rw [Lift.resolve_value_eq hg, resolveValue_operator _ _ (Node.isOperator_of_computes ho),
        Algebra.plain_operator, List.forall_mem_map]
      exact ⟨ho, ih⟩

/-- The columns of a folded projection resolve to plain values when those of its input do. -/
theorem Plain.projection (hg : g.WellFounded) {id : NodeId} {items : List NodeId}
    (hn : g.node id = .projection t items) (hid : s.passesOn mode id = true)
    (ht : g.Pipeline t) (hitems : ∀ i ∈ items, g.Item false t i) (h : s.Plain mode g T t) :
  s.Plain mode g T id
  := HasColumns.projection hg Algebra.plain_transparent hn hid ht hitems h
    (fun _ _ _ _ _ _ _ ha => ha) (fun _ _ _ _ _ _ hover => h.value hg hover)

/-- A value with a reduction resolves to one with a reduction. -/
theorem reductions_resolve (hg : g.WellFounded) {id : NodeId}
    (h : g.denote .reductions id = true) :
  (s.resolve mode .reductions g id).value = true
  := by
  obtain ⟨i⟩ := id
  induction i using Nat.strongRecOn with
  | ind i ih =>
      rcases (g.node ⟨i⟩).kinds with ⟨u, name, hn⟩ | ⟨u, hn⟩ | hn | hn
      · rw [Graph.denote_column hg _ hn] at h
        cases h
      · rw [Graph.denote_countStar hg _ hn] at h
        rw [Lift.resolve_value_eq hg, resolveValue, hn]
        exact h
      · rw [Graph.denote_relation hg _ hn] at h
        cases h
      · rw [Graph.denote_operator hg _ hn, Algebra.reductions_operator, Bool.or_eq_true] at h
        rw [Lift.resolve_value_eq hg, resolveValue_operator _ _ hn, Algebra.reductions_operator,
          Bool.or_eq_true]
        apply h.imp_right
        intro h
        rw [List.any_map, List.any_eq_true] at h ⊢
        obtain ⟨c, hc, h⟩ := h
        exact ⟨c, hc, ih c.index (hg.child_lt hc) h⟩

end Folding

end RelSql
