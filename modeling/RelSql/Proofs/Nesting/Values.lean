import RelSql.Proofs.Graph.Reading
import RelSql.Proofs.Lift.Pushing
import RelSql.Proofs.Lift.Terms
import RelSql.Proofs.Nesting.Bounds

/-!
# Bounds for values

A lifted value nests no more queries than the given value: a column nests as much as anything
that it may stand for.  A value nests queries over every table that it reads.
-/

namespace RelSql

namespace Nesting

/-- What stands for a value nests no more than the value, in itself and in a test for rows. -/
structure Within (a b : Nesting) : Prop where
  reach : a.reach ≤ b.reach
  width : a.width ≤ b.width

variable {a b c : Nesting}

theorem Within.refl (a : Nesting) :
  a.Within a
  := ⟨Nat.le_refl _, Nat.le_refl _⟩

theorem Within.trans (h : a.Within b) (h' : b.Within c) :
  a.Within c
  := ⟨Nat.le_trans h.reach h'.reach, Nat.le_trans h.width h'.width⟩

/-- An operator nests what its operands do. -/
theorem within_ofValue (n : Node) {operands : List Nesting} (h : a ∈ operands) :
  a.Within (ofValue n operands)
  := by
  have hreach : a.reach ≤ max (largest (operands.map Nesting.reach)) (block 0 1) :=
    Nat.le_trans (le_largest (List.mem_map_of_mem h)) (Nat.le_max_left _ _)
  have hwidth : a.width ≤ total (operands.map Nesting.width) :=
    List.le_sum_of_mem (List.mem_map_of_mem h)
  cases n with
  | any p => exact ⟨by rw [ofValue]; dsimp only; omega, hwidth⟩
  | topK arg k metric => exact ⟨hreach, Nat.le_trans hwidth (Nat.le_add_left _ 1)⟩
  | _ => exact ⟨hreach, hwidth⟩

/-- An operator nests no more over operands that nest no more. -/
theorem ofValue_mono (n : Node) {xs ys : List Nesting} (h : List.Forall₂ Within xs ys) :
  (ofValue n xs).Within (ofValue n ys)
  := by
  have hreach : max (largest (xs.map Nesting.reach)) (block 0 1)
      ≤ max (largest (ys.map Nesting.reach)) (block 0 1) := by
    apply max_le_max_right
    apply largest_le
    rw [List.forall_mem_map]
    intro x hx
    obtain ⟨y, hy, hxy⟩ := forall₂_exists h x hx
    exact Nat.le_trans hxy.reach (le_largest (List.mem_map_of_mem hy))
  have hwidth : total (xs.map Nesting.width) ≤ total (ys.map Nesting.width) := by
    apply List.Forall₂.sum_le_sum
    rw [List.forall₂_map_left_iff, List.forall₂_map_right_iff]
    exact h.imp fun _ _ hxy => hxy.width
  have hpower := Nat.pow_le_pow_right (n := 2) (by omega) hwidth
  cases n with
  | any p =>
      refine ⟨?_, hwidth⟩
      simp only [ofValue, Number.twoPow, Nat.pow_eq]
      omega
  | topK arg k metric => exact ⟨hreach, Nat.add_le_add_left hwidth 1⟩
  | _ => exact ⟨hreach, hwidth⟩

theorem ofValue_shape (n : Node) (operands : List Nesting) :
  ofValue n.shape operands = ofValue n operands
  := by
  cases n
  case contains a options negated => cases options <;> rfl
  all_goals rfl

/-- What a value has rankings for is told by its operator. -/
theorem rankings_ofValue (n : Node) (xs ys : List Nesting) :
  (ofValue n xs).rankings = (ofValue n ys).rankings
  := by
  cases n <;> rfl

/-- A block over a value has the reach of the value at most. -/
theorem blockOver_ofValue (n : Node) (operands : List Nesting) :
  (ofValue n operands).blockOver ≤ (ofValue n operands).reach
  := by
  have hblock : block 0 0 ≤ block 0 1 := block_mono (Nat.le_refl 0) (Nat.zero_le 1)
  cases n <;> simp only [ofValue, blockOver] <;> omega

/-- A value has the width of its operands and its rankings. -/
theorem width_ofValue (n : Node) (operands : List Nesting) :
  total (operands.map Nesting.width) + (ofValue n operands).rankings
    ≤ (ofValue n operands).width
  := by
  cases n <;> simp only [ofValue] <;> omega

/-- A table nests what one of its columns may stand for. -/
theorem within_ofTable {depth source rankings : Nat} {given : List Nesting} (h : a ∈ given) :
  a.Within (ofTable depth source rankings given)
  := ⟨Nat.le_trans (le_largest (List.mem_map_of_mem h)) (Nat.le_max_left _ _),
    Nat.le_trans (le_largest (List.mem_map_of_mem h)) (Nat.le_max_left _ _)⟩

end Nesting

/-- What the columns of a table may stand for. -/
def Node.standsFor : Node → List NodeId
  | .projection _ selections => selections
  | .aggregation _ keys metrics _ => keys ++ metrics
  | .selection t _ | .sort t _ | .limit t _ _ | .distinct t => [t]
  | .join _ l r _ => [l, r]
  | _ => []

/-- The bounds for values over the tables of a graph. -/
def Algebra.nesting (g : Graph) : Algebra Nesting where
  column t name := .ofValue (.column t name) [g.nesting t]
  count t := .ofValue (.countStar t) [g.nesting t]
  table id := g.nesting id
  operator n operands := .ofValue n operands

variable {g : Graph} {s : Folding} {mode : LiftMode} {id t : NodeId}

namespace Graph

open Nesting

theorem denote_nesting (hg : g.WellFounded) (id : NodeId) :
  g.denote (.nesting g) id = g.nesting id
  := by
  obtain ⟨i⟩ := id
  induction i using Nat.strongRecOn with
  | ind i ih =>
      rcases (g.node ⟨i⟩).kinds with ⟨t, name, hn⟩ | ⟨t, hn⟩ | hn | hn
      · rw [denote_column hg _ hn, nesting_of_node hg hn]
        rfl
      · rw [denote_countStar hg _ hn, nesting_of_node hg hn]
        rfl
      · exact denote_relation hg _ hn
      · rw [denote_operator hg _ hn, nesting_eq hg,
          Node.nesting_value (Node.isRelation_of_isOperator hn)]
        have hmap : (g.node ⟨i⟩).children.map (g.denote (.nesting g))
            = (g.node ⟨i⟩).children.map g.nesting :=
          List.map_congr_left fun c hc => ih c.index (hg.child_lt hc)
        rw [hmap]
        exact ofValue_shape _ _

/-- A value nests no more than what it is a part of. -/
theorem within_of_child (hg : g.WellFounded) {c : NodeId} (hr : g.isRelation id = false)
    (hc : c ∈ (g.node id).children) :
  (g.nesting c).Within (g.nesting id)
  := by
  rw [nesting_eq hg id, Node.nesting_value hr]
  exact within_ofValue _ (List.mem_map_of_mem hc)

/-- A value nests as much as it does under aliases. -/
theorem unaliased_within (hg : g.WellFounded) (id : NodeId) :
  (g.nesting (g.unaliased id)).Within (g.nesting id)
  := by
  obtain ⟨i⟩ := id
  induction i using Nat.strongRecOn with
  | ind i ih =>
      rw [unaliased_eq hg]
      split
      case h_1 a name hn =>
          have hc : a ∈ (g.node ⟨i⟩).children := by
            rw [hn]
            exact List.mem_singleton_self a
          refine (ih a.index (hg.child_lt hc)).trans (within_of_child hg ?_ hc)
          rw [isRelation, hn]
          rfl
      · exact .refl _

/-! ### Lifted values -/

/-- A table nests what one of its columns may stand for. -/
theorem within_of_standsFor (hg : g.WellFounded) {c : NodeId} (hc : c ∈ (g.node id).standsFor) :
  (g.nesting c).Within (g.nesting id)
  := by
  rw [nesting_eq hg id]
  cases hn : g.node id <;> rw [hn] at hc <;>
    first | exact absurd hc List.not_mem_nil | exact within_ofTable (List.mem_map_of_mem hc)

/-- A column nests what its table does. -/
theorem within_column (t : NodeId) (name : String) :
  (g.nesting t).Within ((Algebra.nesting g).column t name)
  := within_ofValue (.column t name) (List.mem_singleton_self (g.nesting t))

theorem column_within {c t : NodeId} (h : (g.nesting c).Within (g.nesting t)) (name : String) :
  ((Algebra.nesting g).column c name).Within ((Algebra.nesting g).column t name)
  := by
  have hshape : ∀ operands, ofValue (.column c name) operands = ofValue (.column t name) operands :=
    fun _ => rfl
  simp only [Algebra.nesting, hshape]
  exact ofValue_mono _ (.cons h .nil)

end Graph

namespace Folding

open Nesting

/-- The columns of a handle, and the handle as a value, resolve to what nests no more than they
do. -/
def ResolvesWithin (s : Folding) (mode : LiftMode) (g : Graph) (id : NodeId) : Prop :=
  (∀ name, ((s.resolve mode (.nesting g) g id).column name).Within
      ((Algebra.nesting g).column id name))
    ∧ (s.resolve mode (.nesting g) g id).value.Within (g.nesting id)

theorem resolve_column_within (hg : g.WellFounded) {id : NodeId}
    (hbelow : ∀ c : NodeId, c.index < id.index → s.ResolvesWithin mode g c) (name : String) :
  ((s.resolve mode (.nesting g) g id).column name).Within ((Algebra.nesting g).column id name)
  := by
  have hcolumn : ∀ c ∈ (g.node id).standsFor, c ∈ (g.node id).children →
      ((s.resolve mode (.nesting g) g c).column name).Within
        ((Algebra.nesting g).column id name) := by
    intro c hc hchild
    apply ((hbelow c (hg.child_lt hchild)).1 name).trans
    exact Graph.column_within (Graph.within_of_standsFor hg hc) name
  have hvalue : ∀ c ∈ (g.node id).standsFor, c ∈ (g.node id).children →
      (s.resolve mode (.nesting g) g (g.unaliased c)).value.Within
        ((Algebra.nesting g).column id name) := by
    intro c hc hchild
    have hlt := Nat.lt_of_le_of_lt (hg.unaliased_le c) (hg.child_lt hchild)
    apply (hbelow _ hlt).2.trans
    apply (Graph.unaliased_within hg c).trans
    exact (Graph.within_of_standsFor hg hc).trans (Graph.within_column _ name)
  rw [Lift.resolve_column_eq hg]
  unfold resolveColumn
  split
  · exact .refl _
  · cases hn : g.node id <;> rw [hn] at hcolumn hvalue
    case projection t selections =>
      simp only
      cases hp : Lift.provider? g selections name with
      | none => exact .refl _
      | some item =>
          have hitem := provider_mem hp
          simp only
          split
          · exact hcolumn item hitem (List.mem_cons_of_mem t hitem)
          · exact hvalue item hitem (List.mem_cons_of_mem t hitem)
    case aggregation t keys metrics having =>
      simp only
      split
      · exact .refl _
      · cases hp : Lift.namedItem? g (keys ++ metrics) name with
        | none => exact .refl _
        | some item =>
            have hitem := namedItem_mem hp
            exact hvalue item hitem (List.mem_cons_of_mem t (List.mem_append_left having hitem))
    case join kind l r predicates =>
      have hsides : [l, r] ⊆ (Node.join kind l r predicates).children := by
        simp [Node.children]
      have hl : l ∈ [l, r] := List.mem_cons_self
      have hr : r ∈ [l, r] := List.mem_cons_of_mem l List.mem_cons_self
      simp only
      split
      · exact .refl _
      · split
        · exact hcolumn l hl (hsides hl)
        · exact hcolumn r hr (hsides hr)
    case selection | sort | limit | distinct =>
      simp only
      split
      · exact .refl _
      · exact hcolumn _ (List.mem_singleton_self _) List.mem_cons_self
    all_goals
      simp only
      split <;> exact .refl _

theorem resolve_value_within (hg : g.WellFounded) {id : NodeId}
    (hbelow : ∀ c : NodeId, c.index < id.index → s.ResolvesWithin mode g c) :
  (s.resolve mode (.nesting g) g id).value.Within (g.nesting id)
  := by
  rw [Lift.resolve_value_eq hg]
  rcases (g.node id).kinds with ⟨t, name, hn⟩ | ⟨t, hn⟩ | hn | hn
  · have ht : t ∈ (g.node id).children := by
      rw [hn]
      exact List.mem_singleton_self t
    have hresolved := (hbelow t (hg.child_lt ht)).1 name
    rw [resolveValue, hn, Graph.nesting_of_node hg hn]
    exact hresolved
  · rw [resolveValue, hn, Graph.nesting_of_node hg hn]
    exact .refl _
  · rw [resolveValue_relation _ _ hn]
    exact .refl _
  · rw [resolveValue_operator _ _ hn, Graph.nesting_eq hg,
      Node.nesting_value (Node.isRelation_of_isOperator hn)]
    simp only [Algebra.nesting, ofValue_shape]
    apply ofValue_mono
    rw [List.forall₂_map_left_iff, List.forall₂_map_right_iff, List.forall₂_same]
    exact fun c hc => (hbelow c (hg.child_lt hc)).2

theorem resolve_within (hg : g.WellFounded) (id : NodeId) :
  s.ResolvesWithin mode g id
  := by
  obtain ⟨i⟩ := id
  induction i using Nat.strongRecOn with
  | ind i ih =>
      have hbelow : ∀ c : NodeId, c.index < i → s.ResolvesWithin mode g c := fun c => ih c.index
      exact ⟨resolve_column_within hg hbelow, resolve_value_within hg hbelow⟩

/-- A lifted value nests no more than the given one. -/
theorem Lifts.nesting_within (hg : g.WellFounded) {l : NodeId} (h : s.Lifts mode g id l) :
  (g.nesting l).Within (g.nesting id)
  := by
  rw [← Graph.denote_nesting hg, h.denote]
  exact (resolve_within hg id).2

/-- A value that means the same as a table is the table. -/
theorem Lifts.eq_of_isRelation (hg : g.WellFounded) {l : NodeId} (h : s.Lifts mode g id l)
    (hr : g.isRelation id = true) :
  l = id
  := by
  have hterm := h.denote .terms
  rw [Lift.resolve_value_eq hg, resolveValue_relation _ _ hr] at hterm
  rcases (g.node l).kinds with ⟨t, name, hn⟩ | ⟨t, hn⟩ | hn | hn
  · rw [Graph.denote_column hg _ hn] at hterm
    cases hterm
  · rw [Graph.denote_countStar hg _ hn] at hterm
    cases hterm
  · rw [Graph.denote_relation hg _ hn] at hterm
    exact Term.table.inj hterm
  · rw [Graph.denote_operator hg _ hn] at hterm
    cases hterm

/-- A pushed column is lifted to a column. -/
theorem Lifts.column_of_pushes (hg : g.WellFounded) {fused : List NodeId} {p l : NodeId}
    (h : (Folding.of fused).Lifts .substitute g p l)
    (hpushes : (Folding.of fused).pushes g [p] = true) {name : String}
    (hn : g.node p = .column t name) :
  ∃ t', g.node l = .column t' name
  := by
  have hname : g.denote .columnName l = some name := by
    rw [h.denote, Lift.resolve_value_eq hg, resolveValue, hn]
    simp only [pushes, List.all_cons, List.all_nil, Bool.and_true, Graph.denote_column hg _ hn,
      Algebra.reads, unchanged, Bool.or_eq_true, Bool.not_eq_true', beq_iff_eq] at hpushes
    dsimp only
    rcases hpushes with hc | hc
    · rw [Lift.resolve_column_eq hg, resolveColumn, hc]
      rfl
    · exact hc
  rw [Graph.denote_columnName hg] at hname
  split at hname
  case h_1 t' name' hl =>
      rw [Option.some.inj hname] at hl
      exact ⟨t', hl⟩
  · cases hname

/-- A pushed predicate is a ranking when the given one is. -/
theorem Lifts.rankings_eq (hg : g.WellFounded) {fused : List NodeId} {p l : NodeId}
    (h : (Folding.of fused).Lifts .substitute g p l)
    (hpushes : (Folding.of fused).pushes g [p] = true) :
  (g.nesting l).rankings = (g.nesting p).rankings
  := by
  rcases (g.node p).kinds with ⟨t, name, hn⟩ | ⟨t, hn⟩ | hn | hn
  · obtain ⟨t', hl⟩ := h.column_of_pushes hg hpushes hn
    rw [Graph.nesting_of_node hg hn, Graph.nesting_of_node hg hl]
    rfl
  · rw [← Graph.denote_nesting hg l, h.denote, Lift.resolve_value_eq hg, resolveValue, hn,
      Graph.nesting_of_node hg hn]
    rfl
  · rw [h.eq_of_isRelation hg hn]
  · rw [← Graph.denote_nesting hg l, h.denote, Lift.resolve_value_eq hg,
      resolveValue_operator _ _ hn, Graph.nesting_eq hg p,
      Node.nesting_value (Node.isRelation_of_isOperator hn)]
    simp only [Algebra.nesting, ofValue_shape]
    exact rankings_ofValue _ _ _

end Folding

namespace Graph

open Nesting

/-! ### Tables that are read -/

/-- A block over a handle has the reach of the handle at most. -/
theorem blockOver_le_reach (hg : g.WellFounded) (id : NodeId) :
  (g.nesting id).blockOver ≤ (g.nesting id).reach
  := by
  rw [nesting_eq hg]
  cases hr : (g.node id).isRelation with
  | false =>
      rw [Node.nesting_value hr]
      exact blockOver_ofValue _ _
  | true => cases hn : g.node id <;> rw [hn] at hr <;> first | exact Nat.le_max_right _ _ | cases hr

/-- A handle has the width of its rankings at least. -/
theorem rankings_le_width (hg : g.WellFounded) (id : NodeId) :
  (g.nesting id).rankings ≤ (g.nesting id).width
  := by
  rw [nesting_eq hg]
  cases hr : (g.node id).isRelation with
  | false =>
      rw [Node.nesting_value hr]
      exact Nat.le_trans (Nat.le_add_left _ _) (width_ofValue _ _)
  | true => cases hn : g.node id <;> rw [hn] at hr <;> first | exact Nat.le_max_right _ _ | cases hr

/-- A value nests what the table that it reads first does. -/
theorem within_of_base (hg : g.WellFounded) (h : g.denote .base id = some t) :
  (g.nesting t).Within (g.nesting id)
  := by
  obtain ⟨i⟩ := id
  induction i using Nat.strongRecOn with
  | ind i ih =>
      rcases (g.node ⟨i⟩).kinds with ⟨t', name, hn⟩ | ⟨t', hn⟩ | hn | hn
      · rw [denote_column hg _ hn] at h
        rw [← Option.some.inj h]
        exact within_of_child hg (by rw [isRelation, hn]; rfl) (by rw [hn]; exact List.mem_cons_self)
      · rw [denote_countStar hg _ hn] at h
        rw [← Option.some.inj h]
        exact within_of_child hg (by rw [isRelation, hn]; rfl) (by rw [hn]; exact List.mem_cons_self)
      · rw [denote_relation hg _ hn] at h
        cases h
      · rw [denote_operator hg _ hn] at h
        obtain ⟨_, hmap, hsome⟩ := List.exists_of_findSome?_eq_some h
        obtain ⟨c, hmem, rfl⟩ := List.mem_map.mp hmap
        apply (ih c.index (hg.child_lt hmem) hsome).trans
        exact within_of_child hg (Node.isRelation_of_isOperator hn) hmem

/-- A value nests what every table that it reads does. -/
theorem within_of_reads (hg : g.WellFounded) {c : NodeId × String}
    (h : c ∈ g.denote .reads id) :
  (g.nesting c.1).Within (g.nesting id)
  := by
  obtain ⟨i⟩ := id
  induction i using Nat.strongRecOn with
  | ind i ih =>
      rcases (g.node ⟨i⟩).kinds with ⟨t', name, hn⟩ | ⟨t', hn⟩ | hn | hn
      · rw [denote_column hg _ hn] at h
        rw [List.mem_singleton.mp h]
        exact within_of_child hg (by rw [isRelation, hn]; rfl) (by rw [hn]; exact List.mem_cons_self)
      · rw [denote_countStar hg _ hn] at h
        exact absurd h List.not_mem_nil
      · rw [denote_relation hg _ hn] at h
        exact absurd h List.not_mem_nil
      · rw [denote_operator hg _ hn] at h
        obtain ⟨_, hmap, hmem⟩ := List.mem_flatten.mp h
        obtain ⟨d, hd, rfl⟩ := List.mem_map.mp hmap
        apply (ih d.index (hg.child_lt hd) hmem).trans
        exact within_of_child hg (Node.isRelation_of_isOperator hn) hd

/-- The rankings of what a value reads, each time it is read, and its own fit into its width. -/
theorem reads_le_width (hg : g.WellFounded) (id : NodeId) :
  ((g.denote .reads id).map fun c => (g.nesting c.1).rankings).sum + (g.nesting id).rankings
    ≤ (g.nesting id).width
  := by
  obtain ⟨i⟩ := id
  induction i using Nat.strongRecOn with
  | ind i ih =>
      rcases (g.node ⟨i⟩).kinds with ⟨t, name, hn⟩ | ⟨t, hn⟩ | hn | hn
      · rw [denote_column hg _ hn, nesting_of_node hg hn]
        exact Nat.add_le_add_right (rankings_le_width hg t) 0
      · rw [denote_countStar hg _ hn]
        simpa [Algebra.reads] using rankings_le_width hg ⟨i⟩
      · rw [denote_relation hg _ hn]
        simpa [Algebra.reads] using rankings_le_width hg ⟨i⟩
      · rw [denote_operator hg _ hn, nesting_eq hg,
          Node.nesting_value (Node.isRelation_of_isOperator hn)]
        apply Nat.le_trans (Nat.add_le_add_right _ _) (width_ofValue _ _)
        rw [total_eq]
        simp only [Algebra.reads, List.map_flatten, List.sum_flatten, List.map_map]
        apply List.sum_le_sum
        intro c hc
        exact Nat.le_trans (Nat.le_add_right _ _) (ih c.index (hg.child_lt hc))

end Graph

end RelSql
