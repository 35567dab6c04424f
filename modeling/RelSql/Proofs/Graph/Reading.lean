import RelSql.Graph.Reading
import RelSql.Proofs.Graph.Extension
import RelSql.Proofs.Traversal.Completion

/-!
# What values read

In a well-founded graph the traversals that find what a value reads are complete, and what
they find is the meaning of the value in an algebra.  It is therefore the same in every
graph that extends the given one, and for every value of the same meaning.
-/

namespace RelSql.Graph

variable {g g' : Graph} {id : NodeId} {β : Type}

/-- The handles of a graph. -/
def handles (g : Graph) : List NodeId :=
  (List.range g.size).map NodeId.mk

theorem mem_handles :
  id ∈ g.handles ↔ g.Has id
  := by
  rw [handles, List.mem_map]
  constructor
  · rintro ⟨i, hi, rfl⟩
    exact List.mem_range.mp hi
  · intro hid
    exact ⟨id.index, List.mem_range.mpr hid, rfl⟩

theorem nodup_handles (g : Graph) :
  g.handles.Nodup
  := List.nodup_range.map fun _ _ h => congrArg NodeId.index h

/-- The nodes of a graph are those of its handles. -/
theorem nodes_eq (g : Graph) :
  g.nodes.toList = g.handles.map g.node
  := by
  apply List.ext_getElem?
  intro i
  rw [handles, List.map_map, List.getElem?_map, Array.getElem?_toList]
  by_cases hi : i < g.size
  · have hid : g.Has ⟨i⟩ := hi
    rw [List.getElem?_range hi]
    exact hid.node?_eq
  · rw [List.getElem?_eq_none (by simpa using hi)]
    exact Array.getElem?_eq_none (Nat.le_of_not_lt hi)

/-- A visitor that follows the children of a node, or nothing, takes no more steps than the
graph has nodes and references to children. -/
theorem stepBound_le {v : Visitor NodeId β}
    (hdeps : ∀ n, v.dependencies n = [] ∨ v.dependencies n = (g.node n).children) :
  v.stepBound g.handles ≤ g.stepBound
  := by
  rw [Visitor.stepBound, stepBound, extent, nodes_eq]
  apply Nat.add_le_add_left
  induction g.handles with
  | nil => exact Nat.le_refl 0
  | cons n rest ih =>
      rw [List.map_cons, List.foldr_cons, List.foldr_cons]
      rcases hdeps n with h | h
      · rw [h]
        simp only [List.length_nil]
        omega
      · rw [h]
        omega

/-- A traversal ends with what its visitor makes of the outputs of the dependencies. -/
theorem accept?_eq (hg : g.WellFounded) {v : Visitor NodeId β} {f : NodeId → β}
    (hdeps : ∀ n, v.dependencies n = [] ∨ v.dependencies n = (g.node n).children)
    (hvisit : ∀ n, v.visit n ((v.dependencies n).map fun d => (d, f d)) = f n)
    (hid : g.Has id) :
  v.accept? g.stepBound id = some (f id)
  := by
  have hv : v.Computes NodeId.index f g.handles := by
    constructor
    · exact g.nodup_handles
    · intro n hn d hd
      rcases hdeps n with h | h
      · rw [h] at hd
        exact absurd hd List.not_mem_nil
      · rw [h] at hd
        exact ⟨hg.child_lt hd, mem_handles.mpr (hg.has_child (mem_handles.mp hn) hd)⟩
    · exact fun n _ => hvisit n
  exact Visitor.accept?_eq hv (mem_handles.mpr hid) (stepBound_le hdeps)

/-- A traversal computes what its visitor makes of the outputs of the dependencies. -/
theorem traverse_eq (hg : g.WellFounded) {v : Visitor NodeId β} {f : NodeId → β}
    (hdeps : ∀ n, v.dependencies n = [] ∨ v.dependencies n = (g.node n).children)
    (hvisit : ∀ n, v.visit n ((v.dependencies n).map fun d => (d, f d)) = f n)
    (hid : g.Has id) (default : β) :
  g.traverse v default id = f id
  := by
  rw [traverse, accept?_eq hg hdeps hvisit hid]
  rfl

theorem valueChildren_cases (g : Graph) (n : NodeId) :
  g.valueChildren n = [] ∨ g.valueChildren n = (g.node n).children
  := by
  rw [valueChildren]
  split
  · exact .inl rfl
  · exact .inl rfl
  · split
    · exact .inl rfl
    · exact .inr rfl

/-- A column, a row count or a table has no operands. -/
theorem valueChildren_eq_nil
    (h : (g.node id).isOperator = false) :
  g.valueChildren id = []
  := by
  rw [valueChildren]
  cases hn : g.node id <;> rw [hn] at h <;> first | rfl | cases h

/-- The operands of an operator are its children. -/
theorem valueChildren_operator (h : (g.node id).isOperator = true) :
  g.valueChildren id = (g.node id).children
  := by
  rw [valueChildren]
  cases hn : g.node id <;> rw [hn] at h <;> first | rfl | cases h

end RelSql.Graph

/-! ### Reductions and reads -/

namespace RelSql

namespace Algebra

/-- Whether there is a reduction or a row count. -/
def reductions : Algebra Bool where
  column _ _ := false
  count _ := true
  table _ := false
  operator n held := n.isReduction || held.any id

/-- Whether a column is read outside of reductions. -/
def plainReads : Algebra Bool where
  column _ _ := true
  count _ := false
  table _ := false
  operator n read := !n.isReduction && read.any id

/-- The table that is read first. -/
def base : Algebra (Option NodeId) where
  column t _ := some t
  count t := some t
  table _ := none
  operator _ tables := tables.findSome? id

/-- The columns that are read: their tables and their names. -/
def reads : Algebra (List (NodeId × String)) where
  column t name := [(t, name)]
  count _ := []
  table _ := []
  operator _ read := read.flatten

end Algebra

namespace Node

@[simp]
theorem isReduction_shape (n : Node) :
  n.shape.isReduction = n.isReduction
  := by
  cases n
  case contains a options negated => cases options <;> rfl
  all_goals rfl

end Node

namespace Graph

variable {g g' : Graph} {id : NodeId}

/-- What a visitor reads off a node is its meaning in an algebra. -/
structure Reads (g : Graph) {β : Type} (v : Visitor NodeId β) (A : Algebra β) : Prop where
  leaf : ∀ n, (g.node n).isOperator = false → v.dependencies n = []
  column : ∀ n t name, g.node n = .column t name → v.visit n [] = A.column t name
  count : ∀ n t, g.node n = .countStar t → v.visit n [] = A.count t
  table : ∀ n, g.isRelation n = true → v.visit n [] = A.table n
  operator : ∀ n, (g.node n).isOperator = true →
    (v.dependencies n = [] ∨ v.dependencies n = (g.node n).children) ∧
    v.visit n ((v.dependencies n).map fun d => (d, g.denote A d))
      = A.operator (g.node n).shape ((g.node n).children.map (g.denote A))

theorem Reads.traverse_eq {β : Type} {v : Visitor NodeId β} {A : Algebra β} (h : g.Reads v A)
    (hg : g.WellFounded) (hid : g.Has id) (default : β) :
  g.traverse v default id = g.denote A id
  := by
  apply Graph.traverse_eq hg _ _ hid
  · intro n
    cases ho : (g.node n).isOperator with
    | true => exact (h.operator n ho).1
    | false => exact .inl (h.leaf n ho)
  · intro n
    rcases (g.node n).kinds with ⟨t, name, hn⟩ | ⟨t, hn⟩ | hn | hn
    · rw [h.leaf n (by rw [hn]; rfl), denote_column hg A hn]
      exact h.column n t name hn
    · rw [h.leaf n (by rw [hn]; rfl), denote_countStar hg A hn]
      exact h.count n t hn
    · rw [h.leaf n (Node.isOperator_of_isRelation hn), denote_relation hg A hn]
      exact h.table n hn
    · rw [denote_operator hg A hn]
      exact (h.operator n hn).2

theorem reductionVisitor_reads (g : Graph) :
  g.Reads g.reductionVisitor .reductions
  := by
  constructor
  · exact fun n => valueChildren_eq_nil
  · intro n t name hn
    simp [reductionVisitor, hn, Node.isReduction, Algebra.reductions]
  · intro n t hn
    simp [reductionVisitor, hn, Node.isReduction, Algebra.reductions]
  · intro n hn
    rw [isRelation] at hn
    cases hnode : g.node n <;> rw [hnode] at hn <;>
      first
      | simp [reductionVisitor, hnode, Node.isReduction, Algebra.reductions]; done
      | cases hn
  · intro n hn
    simp only [reductionVisitor, valueChildren_operator hn, Algebra.reductions,
      Node.isReduction_shape, List.any_map]
    exact ⟨.inr trivial, rfl⟩

/-- A value holds a reduction when its meaning says so. -/
theorem hasReduction_eq (hg : g.WellFounded) (hid : g.Has id) :
  g.hasReduction id = g.denote .reductions id
  := g.reductionVisitor_reads.traverse_eq hg hid false

theorem plainReadVisitor_reads (g : Graph) :
  g.Reads g.plainReadVisitor .plainReads
  := by
  constructor
  · intro n hn
    simp [plainReadVisitor, valueChildren_eq_nil hn]
  · intro n t name hn
    simp [plainReadVisitor, hn, Algebra.plainReads]
  · intro n t hn
    simp [plainReadVisitor, hn, Algebra.plainReads]
  · intro n hn
    rw [isRelation] at hn
    cases hnode : g.node n <;> rw [hnode] at hn <;>
      first
      | simp [plainReadVisitor, hnode, Algebra.plainReads]; done
      | cases hn
  · intro n hn
    have hvisit : ∀ read : List (NodeId × Bool),
        g.plainReadVisitor.visit n read = read.any Prod.snd := by
      intro read
      simp only [plainReadVisitor]
      split
      case h_1 h => rw [h] at hn; cases hn
      · rfl
    rw [hvisit]
    simp only [plainReadVisitor, valueChildren_operator hn, Algebra.plainReads,
      Node.isReduction_shape, List.any_map]
    cases (g.node n).isReduction with
    | true => exact ⟨.inl rfl, rfl⟩
    | false => exact ⟨.inr rfl, rfl⟩

theorem readsOutsideReductions_eq (hg : g.WellFounded) (hid : g.Has id) :
  g.readsOutsideReductions id = g.denote .plainReads id
  := g.plainReadVisitor_reads.traverse_eq hg hid false

theorem tableVisitor_reads (g : Graph) :
  g.Reads g.tableVisitor .base
  := by
  constructor
  · exact fun n => valueChildren_eq_nil
  · intro n t name hn
    simp [tableVisitor, hn, Algebra.base]
  · intro n t hn
    simp [tableVisitor, hn, Algebra.base]
  · intro n hn
    rw [isRelation] at hn
    cases hnode : g.node n <;> rw [hnode] at hn <;>
      first
      | simp [tableVisitor, hnode, Algebra.base]; done
      | cases hn
  · intro n hn
    have hvisit : ∀ read : List (NodeId × Option NodeId),
        g.tableVisitor.visit n read = read.findSome? Prod.snd := by
      intro read
      simp only [tableVisitor]
      split
      case h_1 h => rw [h] at hn; cases hn
      case h_2 h => rw [h] at hn; cases hn
      · rfl
    rw [hvisit]
    simp only [tableVisitor, valueChildren_operator hn, Algebra.base, List.findSome?_map]
    exact ⟨.inr trivial, rfl⟩

theorem baseTable_eq (hg : g.WellFounded) (hid : g.Has id) :
  g.baseTable id = g.denote .base id
  := g.tableVisitor_reads.traverse_eq hg hid none

/-- The table that is read first is there. -/
theorem has_of_base (hg : g.WellFounded) (hid : g.Has id) {t : NodeId}
    (h : g.denote .base id = some t) :
  g.Has t
  := by
  obtain ⟨i⟩ := id
  induction i using Nat.strongRecOn with
  | ind i ih =>
      have hc : ∀ c, (∃ name, g.node ⟨i⟩ = .column c name) ∨ g.node ⟨i⟩ = .countStar c →
          g.Has c := by
        rintro c (⟨name, hn⟩ | hn)
        all_goals
          apply hg.has_child hid
          rw [hn]
          exact List.mem_singleton_self c
      rcases (g.node ⟨i⟩).kinds with ⟨t', name, hn⟩ | ⟨t', hn⟩ | hn | hn
      · rw [denote_column hg _ hn] at h
        rw [← Option.some.inj h]
        exact hc t' (.inl ⟨name, hn⟩)
      · rw [denote_countStar hg _ hn] at h
        rw [← Option.some.inj h]
        exact hc t' (.inr hn)
      · rw [denote_relation hg _ hn] at h
        cases h
      · rw [denote_operator hg _ hn] at h
        obtain ⟨_, hmap, hsome⟩ := List.exists_of_findSome?_eq_some h
        obtain ⟨c, hmem, rfl⟩ := List.mem_map.mp hmap
        exact ih c.index (hg.child_lt hmem) (hg.has_child hid hmem) hsome

/-! ### Columns -/

/-- The columns of a value, by recursion on its operands. -/
def columnsStep (g : Graph) (below : NodeId → List NodeId) (id : NodeId) : List NodeId :=
  match g.node id with
  | .column _ _ => [id]
  | _ => ((g.valueChildren id).flatMap below).eraseDups

theorem columns_eq (hg : g.WellFounded) (hid : g.Has id) :
  g.columns id = g.columnsStep g.columns id
  := by
  have hlocal : NodeId.LocalStep g.columnsStep := by
    intro f f' n h
    rw [columnsStep, columnsStep]
    split
    · rfl
    · congr 1
      apply List.flatMap_congr
      intro c hc
      apply h
      rcases g.valueChildren_cases n with hn | hn
      · rw [hn] at hc
        exact absurd hc List.not_mem_nil
      · exact hg.child_lt (hn ▸ hc)
  have heq : ∀ {n : NodeId}, g.Has n →
      g.columns n = NodeId.recurse (fun _ => []) g.columnsStep n := by
    intro n hn
    apply traverse_eq hg g.valueChildren_cases _ hn
    intro m
    rw [NodeId.recurse_eq hlocal, columnsStep]
    simp only [columnVisitor]
    cases g.node m <;> simp only [List.flatMap_map]
  rw [heq hid, NodeId.recurse_eq hlocal, columnsStep, columnsStep]
  split
  · rfl
  · congr 1
    apply List.flatMap_congr
    intro c hc
    rcases g.valueChildren_cases id with hn | hn
    · rw [hn] at hc
      exact absurd hc List.not_mem_nil
    · exact (heq (hg.has_child hid (hn ▸ hc))).symm

/-- The columns of a value are columns. -/
theorem node_of_mem_columns (hg : g.WellFounded) (hid : g.Has id) {c : NodeId}
    (hc : c ∈ g.columns id) :
  ∃ t name, g.node c = .column t name
  := by
  obtain ⟨i⟩ := id
  induction i using Nat.strongRecOn with
  | ind i ih =>
      rw [columns_eq hg hid, columnsStep] at hc
      split at hc
      case h_1 t name hn => exact ⟨t, name, List.mem_singleton.mp hc ▸ hn⟩
      · rw [List.mem_eraseDups, List.mem_flatMap] at hc
        obtain ⟨d, hd, hc⟩ := hc
        rcases g.valueChildren_cases ⟨i⟩ with hn | hn
        · rw [hn] at hd
          exact absurd hd List.not_mem_nil
        · rw [hn] at hd
          exact ih d.index (hg.child_lt hd) (hg.has_child hid hd) hc

/-- The columns of a value are the nodes for what its meaning says is read. -/
theorem mem_reads_iff (hg : g.WellFounded) (hid : g.Has id) (t : NodeId) (name : String) :
  (t, name) ∈ g.denote .reads id ↔ ∃ c ∈ g.columns id, g.node c = .column t name
  := by
  obtain ⟨i⟩ := id
  induction i using Nat.strongRecOn with
  | ind i ih =>
      rw [columns_eq hg hid, columnsStep]
      rcases (g.node ⟨i⟩).kinds with ⟨t', name', hn⟩ | ⟨t', hn⟩ | hn | hn
      · rw [denote_column hg _ hn, hn]
        simp [Algebra.reads, hn, eq_comm]
      · rw [denote_countStar hg _ hn, valueChildren_eq_nil (by rw [hn]; rfl), hn]
        simp [Algebra.reads]
      · rw [denote_relation hg _ hn, valueChildren_eq_nil (Node.isOperator_of_isRelation hn)]
        cases hnode : g.node ⟨i⟩ <;> rw [hnode] at hn <;>
          first
          | simp [Algebra.reads]; done
          | cases hn
      · have hcolumn : ∀ t' name', g.node ⟨i⟩ ≠ .column t' name' := by
          intro t' name' h
          rw [h] at hn
          cases hn
        rw [denote_operator hg _ hn, valueChildren_operator hn]
        split
        case h_1 h => exact absurd h (hcolumn _ _)
        simp only [Algebra.reads, List.mem_flatten, List.mem_map, List.mem_eraseDups,
          List.mem_flatMap]
        constructor
        · rintro ⟨_, ⟨c, hc, rfl⟩, hmem⟩
          obtain ⟨col, hcol, hnode⟩ :=
            (ih c.index (hg.child_lt hc) (hg.has_child hid hc)).mp hmem
          exact ⟨col, ⟨c, hc, hcol⟩, hnode⟩
        · rintro ⟨col, ⟨c, hc, hcol⟩, hnode⟩
          have hmem := (ih c.index (hg.child_lt hc) (hg.has_child hid hc)).mpr ⟨col, hcol, hnode⟩
          exact ⟨_, ⟨c, hc, rfl⟩, hmem⟩

/-- The tables that a value reads are those of what its meaning says is read. -/
theorem mem_tables_iff (hg : g.WellFounded) (hid : g.Has id) (t : NodeId) :
  t ∈ g.tables id ↔ ∃ name, (t, name) ∈ g.denote .reads id
  := by
  rw [tables, List.mem_eraseDups, List.mem_filterMap]
  simp only [mem_reads_iff hg hid]
  constructor
  · rintro ⟨c, hc, ht⟩
    obtain ⟨t', name, hn⟩ := node_of_mem_columns hg hid hc
    rw [columnTable?, hn, Option.some.injEq] at ht
    exact ⟨name, c, hc, ht ▸ hn⟩
  · rintro ⟨name, c, hc, hn⟩
    exact ⟨c, hc, by rw [columnTable?, hn]⟩

/-- A value reads the same tables when the graph grows. -/
theorem Extends.mem_tables_iff (e : g.Extends g') (hg : g.WellFounded) (hg' : g'.WellFounded)
    (hid : g.Has id) (t : NodeId) :
  t ∈ g'.tables id ↔ t ∈ g.tables id
  := by
  rw [Graph.mem_tables_iff hg' (hid.mono e), Graph.mem_tables_iff hg hid,
    e.denote_eq hg hg' hid]

/-- A value holds a reduction, or none, when the graph grows. -/
theorem Extends.hasReduction_eq (e : g.Extends g') (hg : g.WellFounded) (hg' : g'.WellFounded)
    (hid : g.Has id) :
  g'.hasReduction id = g.hasReduction id
  := by
  rw [Graph.hasReduction_eq hg' (hid.mono e), Graph.hasReduction_eq hg hid,
    e.denote_eq hg hg' hid]

theorem Extends.readsOutsideReductions_eq (e : g.Extends g') (hg : g.WellFounded)
    (hg' : g'.WellFounded) (hid : g.Has id) :
  g'.readsOutsideReductions id = g.readsOutsideReductions id
  := by
  rw [Graph.readsOutsideReductions_eq hg' (hid.mono e), Graph.readsOutsideReductions_eq hg hid,
    e.denote_eq hg hg' hid]

theorem Extends.baseTable_eq (e : g.Extends g') (hg : g.WellFounded) (hg' : g'.WellFounded)
    (hid : g.Has id) :
  g'.baseTable id = g.baseTable id
  := by
  rw [Graph.baseTable_eq hg' (hid.mono e), Graph.baseTable_eq hg hid, e.denote_eq hg hg' hid]

end Graph

end RelSql
