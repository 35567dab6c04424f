import RelSql.Proofs.Lift.Fates
import RelSql.Proofs.Meaning.Folded

/-!
# Written values

A value is written in SQL when it is made of columns by operators that are written as such: neither
a test of rows, nor a membership in a column, nor an interval on its own.  What a table shows are
columns of another one, or values that are computed of them.  A written value stays one when columns
are lifted, as long as each folded operator shows what is folded or stands below.
-/

namespace RelSql

/-- Whether an operator of values is written as such, one of groups of rows if `grouped` holds. -/
def Node.isWritten (grouped : Bool) : Node → Bool
  | .literal _ | .named _ _ | .unary _ _ | .binary _ _ _ | .call _ _ | .cast _ _ | .extract _ _
  | .case _ _ _ | .between _ _ _ | .contains _ (.list _) _ => true
  | .reduction _ _ => grouped
  | _ => false

@[simp]
theorem Node.isWritten_shape (grouped : Bool) (n : Node) :
  n.shape.isWritten grouped = n.isWritten grouped
  := by
  cases n
  case contains a options negated => cases options <;> rfl
  all_goals rfl

theorem Node.computes_of_isWritten {grouped : Bool} {n : Node} (h : n.isWritten grouped = true) :
  n.computes grouped = true
  := by
  cases n
  case contains a options negated => cases options <;> first | rfl | cases h
  case reduction => exact h
  all_goals first | rfl | cases h

theorem Node.isWritten_mono {grouped grouped' : Bool} (hgrouped : grouped = true → grouped' = true)
    {n : Node} (h : n.isWritten grouped = true) :
  n.isWritten grouped' = true
  := by
  cases n
  case contains a options negated => cases options <;> first | rfl | cases h
  case reduction => exact hgrouped h
  all_goals first | rfl | cases h

/-- Whether a value is made of columns of which `T` holds by operators that are written. -/
def Algebra.written (grouped : Bool) (T : NodeId → String → Bool) : Algebra Bool where
  column := T
  count _ := grouped
  table _ := false
  operator n operands := n.isWritten grouped && operands.all id

theorem Algebra.written_transparent (grouped : Bool) (T : NodeId → String → Bool) :
  (written grouped T).Transparent
  := by
  intro name value
  exact (Bool.true_and _).trans (Bool.and_true value)

theorem Algebra.written_operator {grouped : Bool} {T : NodeId → String → Bool} {n : Node}
    {operands : List Bool} :
  (written grouped T).operator n.shape operands = true
    ↔ n.isWritten grouped = true ∧ ∀ o ∈ operands, o = true
  := by
  change (n.shape.isWritten grouped && operands.all id) = true ↔ _
  rw [Node.isWritten_shape, Bool.and_eq_true, List.all_eq_true]
  rfl

namespace Graph

variable {g g' : Graph} {grouped grouped' : Bool} {T T' : NodeId → String → Bool}
  {id t u v w i : NodeId}

/-- A written operator has written operands. -/
theorem denote_written_operator (hg : g.WellFounded) (ho : (g.node id).isOperator = true) :
  g.denote (.written grouped T) id = true
    ↔ (g.node id).isWritten grouped = true
      ∧ ∀ c ∈ (g.node id).children, g.denote (.written grouped T) c = true
  := by
  rw [denote_operator hg _ ho, Algebra.written_operator, List.forall_mem_map]

/-- A value stays written when more is, and more columns are. -/
theorem denote_written_mono (hg : g.WellFounded) (hgrouped : grouped = true → grouped' = true)
    (hT : ∀ u name, T u name = true → T' u name = true)
    (h : g.denote (.written grouped T) id = true) :
  g.denote (.written grouped' T') id = true
  := by
  obtain ⟨i⟩ := id
  induction i using Nat.strongRecOn with
  | ind i ih =>
      rcases (g.node ⟨i⟩).kinds with ⟨u, name, hn⟩ | ⟨u, hn⟩ | hn | hn
      · rw [denote_column hg _ hn] at h ⊢
        exact hT u name h
      · rw [denote_countStar hg _ hn] at h ⊢
        exact hgrouped h
      · rw [denote_relation hg _ hn] at h
        cases h
      · rw [denote_written_operator hg hn] at h ⊢
        exact ⟨Node.isWritten_mono hgrouped h.1,
          fun c hc => ih c.index (hg.child_lt hc) (h.2 c hc)⟩

/-- A value is written when it is made of written operators, and the columns that it reads are. -/
theorem denote_written_iff (hg : g.WellFounded) :
  g.denote (.written grouped T) id = true
    ↔ g.denote (.written grouped fun _ _ => true) id = true
      ∧ ∀ c ∈ g.denote .reads id, T c.1 c.2 = true
  := by
  obtain ⟨i⟩ := id
  induction i using Nat.strongRecOn with
  | ind i ih =>
      rcases (g.node ⟨i⟩).kinds with ⟨u, name, hn⟩ | ⟨u, hn⟩ | hn | hn
      · rw [denote_column hg _ hn, denote_column hg _ hn, denote_column hg _ hn]
        exact ⟨fun h => ⟨rfl, List.forall_mem_singleton.mpr h⟩,
          fun h => h.2 (u, name) (List.mem_singleton_self _)⟩
      · rw [denote_countStar hg _ hn, denote_countStar hg _ hn, denote_countStar hg _ hn]
        exact ⟨fun h => ⟨h, fun _ hc => absurd hc List.not_mem_nil⟩, And.left⟩
      · rw [denote_relation hg _ hn, denote_relation hg _ hn]
        exact ⟨nofun, fun h => absurd h.1 Bool.false_ne_true⟩
      · have hreads : g.denote .reads ⟨i⟩ = ((g.node ⟨i⟩).children.map (g.denote .reads)).flatten :=
          denote_operator hg _ hn
        rw [denote_written_operator hg hn, denote_written_operator hg hn, hreads]
        simp only [List.mem_flatten, List.mem_map, exists_exists_and_eq_and, forall_exists_index,
          and_imp]
        constructor
        · rintro ⟨hwritten, h⟩
          refine ⟨⟨hwritten, fun c hc => ((ih c.index (hg.child_lt hc)).mp (h c hc)).1⟩, ?_⟩
          exact fun r c hc => ((ih c.index (hg.child_lt hc)).mp (h c hc)).2 r
        · rintro ⟨⟨hwritten, h⟩, hT⟩
          refine ⟨hwritten, fun c hc => (ih c.index (hg.child_lt hc)).mpr ⟨h c hc, ?_⟩⟩
          exact fun r hr => hT r c hc hr

/-- A value that is written for each row is a plain one. -/
theorem plain_of_written (hg : g.WellFounded) (h : g.denote (.written false T) id = true) :
  g.denote (.plain fun _ _ => True) id
  := by
  obtain ⟨i⟩ := id
  induction i using Nat.strongRecOn with
  | ind i ih =>
      rcases (g.node ⟨i⟩).kinds with ⟨u, name, hn⟩ | ⟨u, hn⟩ | hn | hn
      · rw [denote_column hg _ hn]
        trivial
      · rw [denote_countStar hg _ hn] at h
        cases h
      · rw [denote_relation hg _ hn] at h
        cases h
      · rw [denote_written_operator hg hn] at h
        rw [denote_plain_operator hg hn]
        exact ⟨Node.computes_of_isWritten h.1, fun c hc => ih c.index (hg.child_lt hc) (h.2 c hc)⟩

theorem isRelation_of_written (hg : g.WellFounded) (h : g.denote (.written grouped T) id = true) :
  g.isRelation id = false
  := by
  cases hr : g.isRelation id with
  | false => rfl
  | true =>
      rw [denote_relation hg _ hr] at h
      cases h

/-! ### Values of one table -/

/-- Whether a column is a field of the table `t`. -/
def fieldOf (g : Graph) (t u : NodeId) (name : String) : Bool :=
  u == t && g.hasField u name

theorem fieldOf_iff {name : String} :
  g.fieldOf t u name = true ↔ u = t ∧ g.hasField u name = true
  := by
  rw [fieldOf, Bool.and_eq_true, beq_iff_eq]

/-- A value is written with the fields of a table, for a row or, if `grouped` holds, for a group of
rows. -/
def Computes (g : Graph) (grouped : Bool) (t v : NodeId) : Prop :=
  g.denote (.written grouped (g.fieldOf t)) v = true

instance : Decidable (g.Computes grouped t v) :=
  inferInstanceAs (Decidable (_ = true))

/-- What is written for each row is also written for a group of rows. -/
theorem Computes.ofRow (hg : g.WellFounded) (h : g.Computes false t v) :
  g.Computes grouped t v
  := denote_written_mono hg (fun h => absurd h Bool.false_ne_true) (fun _ _ h => h) h

theorem Computes.mono (e : g.Extends g') (hg : g.WellFounded) (hg' : g'.WellFounded)
    (ht : g.Has t) (hv : g.Has v) (h : g.Computes grouped t v) :
  g'.Computes grouped t v
  := by
  have hfields : g'.fieldOf t = g.fieldOf t := by
    funext u name
    rw [Bool.eq_iff_iff, fieldOf_iff, fieldOf_iff]
    apply and_congr_right
    rintro rfl
    rw [e.hasField_eq hg hg' ht]
  rw [Computes, hfields, e.denote_eq hg hg' hv]
  exact h

/-- An item shows all columns of a table, or is a column or an alias of a value of it. -/
def Selects (g : Graph) (grouped : Bool) (t i : NodeId) : Prop :=
  i = t ∨ (g.name? i).isSome = true ∧ g.Computes grouped t i

instance : Decidable (g.Selects grouped t i) :=
  inferInstanceAs (Decidable (_ ∨ _))

theorem Selects.mono (e : g.Extends g') (hg : g.WellFounded) (hg' : g'.WellFounded)
    (ht : g.Has t) (hi : g.Has i) (h : g.Selects grouped t i) :
  g'.Selects grouped t i
  := by
  apply h.imp_right
  rintro ⟨hname, hi'⟩
  exact ⟨by rw [e.name?_eq hi, hname], hi'.mono e hg hg' ht hi⟩

theorem Selects.named (hr : g.isRelation t = true) (h : g.Selects grouped t i) :
  g.isRelation i = true ∨ (g.name? i).isSome = true
  := by
  rcases h with rfl | ⟨hname, _⟩
  · exact .inl hr
  · exact .inr hname

/-- A table shows columns of `w`, or values that are written with them. -/
inductive Shows (g : Graph) (grouped : Bool) (w : NodeId) : NodeId → Prop where
  | kept {t : NodeId} (hn : keptInput? (g.node t) = some w) : Shows g grouped w t
  | projection {t input : NodeId} {items : List NodeId} (hn : g.node t = .projection input items)
      (hitems : ∀ i ∈ items, g.Selects false w i) : Shows g grouped w t
  | aggregation {t input : NodeId} {keys metrics having : List NodeId} (hgrouped : grouped = true)
      (hn : g.node t = .aggregation input keys metrics having)
      (hitems : ∀ i ∈ keys ++ metrics, g.Selects true w i) : Shows g grouped w t

theorem Shows.ofRow (h : g.Shows false w t) :
  g.Shows grouped w t
  := by
  cases h with
  | kept hn => exact .kept hn
  | projection hn hitems => exact .projection hn hitems
  | aggregation hgrouped _ _ => cases hgrouped

end Graph

/-! ### Lifting written values -/

namespace Folding

variable {s : Folding} {mode : LiftMode} {g : Graph} {grouped : Bool} {t u v w : NodeId}
  {name : String}

/-- The column of a folded table becomes one of what the table shows, or a value of that. -/
theorem fate_shown (hg : g.WellFounded) (hmode : mode ≠ .projections) (ht : t ∈ s.fused)
    (hout : ¬ (mode = .output ∧ t ∈ s.outputs)) (hr : g.isRelation w = true)
    (h : g.Shows grouped w t) (hfield : g.hasField t name = true) :
  (s.fate mode g t name = .column w ∧ g.hasField w name = true)
    ∨ ∃ v, s.fate mode g t name = .value v ∧ g.Computes grouped w v
  := by
  obtain ⟨f, hf⟩ := Graph.exists_field? hfield
  have hfolded : (!s.contains t || (decide (mode = .output) && s.outputs.contains t)) = false := by
    rw [contains, List.contains_iff_mem.mpr ht, Bool.not_true, Bool.false_or,
      Bool.and_eq_false_imp]
    intro hm
    rw [← Bool.not_eq_true, List.contains_iff_mem]
    exact fun hmem => hout ⟨of_decide_eq_true hm, hmem⟩
  have hunaliased : ∀ {item : NodeId}, g.Computes grouped w item →
      g.Computes grouped w (g.unaliased item) := by
    intro item hitem
    rw [Graph.Computes, Graph.denote_unaliased hg (Algebra.written_transparent grouped _)]
    exact hitem
  rw [fate, hfolded, if_neg Bool.false_ne_true]
  cases h with
  | kept hn =>
      have hkept := (Graph.hasField_kept hg hn name).symm.trans hfield
      left
      cases hnode : g.node t <;> rw [hnode] at hn <;> cases hn <;>
        exact ⟨if_neg hmode, hkept⟩
  | projection hn hitems =>
      obtain ⟨item, hp, hitem⟩ := Graph.field?_projection hg hn
        (fun i hi => (hitems i hi).named hr) hf
      simp only [hn, hp]
      rcases hitems item (provider_mem hp) with rfl | ⟨hname, hcomputes⟩
      · rw [Graph.itemField?_relation hr] at hitem
        exact .inl ⟨if_pos hr, Graph.hasField_of_field? hitem⟩
      · rw [Graph.isRelation_of_written hg hcomputes, if_neg Bool.false_ne_true]
        exact .inr ⟨_, rfl, hunaliased (hcomputes.ofRow hg)⟩
  | aggregation hgrouped hn hitems =>
      subst hgrouped
      obtain ⟨item, hp, hvalue, hitem⟩ := Graph.field?_aggregation hg hn
        (fun i hi => (hitems i hi).named hr) hf
      simp only [hn, hp, if_neg hmode]
      refine .inr ⟨_, rfl, hunaliased ?_⟩
      rcases hitems item (namedItem_mem hp) with rfl | ⟨_, hcomputes⟩
      · rw [hr] at hvalue
        cases hvalue
      · exact hcomputes

/-- Whether a column may be left when values are lifted: it is a field of the table `u` or, when the
values are lifted down to outputs, of one of these. -/
def remains (s : Folding) (mode : LiftMode) (g : Graph) (u t : NodeId) (name : String) : Bool :=
  (t == u || (decide (mode = .output) && s.outputs.contains t)) && g.hasField t name

/-- The columns of tables that show each other, down to a table that is not folded, resolve to
written values of that table, and so do the written values of these columns. -/
theorem resolve_written (hg : g.WellFounded) (hmode : mode ≠ .projections) {S : NodeId → Prop}
    (hu : u ∉ s.fused) (hr : ∀ t, S t → g.isRelation t = true)
    (hS : ∀ t, S t → t = u ∨ t ∈ s.fused ∧ ∃ w, S w ∧ g.Shows grouped w t) (id : NodeId) :
  (∀ name, S id → g.hasField id name = true →
      (s.resolve mode (.written grouped (s.remains mode g u)) g id).column name = true)
    ∧ ∀ w, S w → g.Computes grouped w id →
      (s.resolve mode (.written grouped (s.remains mode g u)) g id).value = true
  := by
  obtain ⟨i⟩ := id
  induction i using Nat.strongRecOn with
  | ind i ih =>
      constructor
      · intro name hid hfield
        have hlt := fate_lt hg s mode ⟨i⟩ name
        rw [resolve_fate hg]
        by_cases hout : mode = .output ∧ (⟨i⟩ : NodeId) ∈ s.outputs
        · have hkept : s.fate mode g ⟨i⟩ name = .kept := by
            rw [fate, decide_eq_true hout.1, List.contains_iff_mem.mpr hout.2, Bool.and_true,
              Bool.or_true, if_pos rfl]
          rw [hkept]
          show s.remains mode g u ⟨i⟩ name = true
          rw [remains, decide_eq_true hout.1, List.contains_iff_mem.mpr hout.2, hfield]
          simp
        · rcases hS _ hid with rfl | ⟨hfused, w, hw, hshows⟩
          · have hcontains : s.contains ⟨i⟩ = false := by
              rw [contains, ← Bool.not_eq_true, List.contains_iff_mem]
              exact hu
            rw [fate_of_not_contains hcontains]
            show s.remains mode g ⟨i⟩ ⟨i⟩ name = true
            rw [remains, hfield, beq_self_eq_true]
            rfl
          · rcases fate_shown hg hmode hfused hout (hr w hw) hshows hfield with
              ⟨hfate, hw'⟩ | ⟨v, hfate, hv⟩
            · rw [hfate]
              exact (ih w.index (hlt.1 w hfate)).1 name hw hw'
            · rw [hfate]
              exact (ih v.index (hlt.2 v hfate)).2 w hw hv
      · intro w hw h
        rw [Lift.resolve_value_eq hg]
        rcases (g.node ⟨i⟩).kinds with ⟨t, name, hn⟩ | ⟨t, hn⟩ | hn | hn
        · rw [Graph.Computes, Graph.denote_column hg _ hn] at h
          obtain ⟨rfl, hfield⟩ := Graph.fieldOf_iff.mp h
          rw [resolveValue, hn]
          apply (ih t.index _).1 name hw hfield
          apply hg.child_lt
          rw [hn]
          exact List.mem_singleton_self t
        · rw [Graph.Computes, Graph.denote_countStar hg _ hn] at h
          rw [resolveValue, hn]
          exact h
        · rw [Graph.Computes, Graph.denote_relation hg _ hn] at h
          cases h
        · rw [Graph.Computes, Graph.denote_written_operator hg hn] at h
          rw [resolveValue_operator _ _ hn, Algebra.written_operator, List.forall_mem_map]
          exact ⟨h.1, fun c hc => (ih c.index (hg.child_lt hc)).2 w hw (h.2 c hc)⟩

end Folding

end RelSql
