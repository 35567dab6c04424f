import RelSql.Proofs.Lift.Fates
import RelSql.Proofs.Lift.Pushing

/-!
# Columns of predicates that are pushed

Predicates on a projection can be pushed below it when the columns of the projection that they read
become columns of their names.  Such a column is a field of a table below the projection, if some
item provides its name.  A name that no item provides is the one of an item without a name.  A
column of that is not lifted, and keeps its name, too.
-/

namespace RelSql

namespace Folding

variable {α : Type} {s : Folding} {mode : LiftMode} {g g' : Graph} {p t v u : NodeId} {name : String}
  {items : List NodeId}

/-- What is folded is a projection and filters above it. -/
structure FiltersOver (s : Folding) (g : Graph) (p : NodeId) : Prop where
  base : p ∈ s.fused
  filters : ∀ t ∈ s.fused, t = p
    ∨ ∃ input predicates, g.node t = .selection input predicates ∧ input ∈ s.fused

/-- The projection is the first of what is folded. -/
theorem FiltersOver.le (h : s.FiltersOver g p) (hg : g.WellFounded) (ht : t ∈ s.fused) :
  p.index ≤ t.index
  := by
  obtain ⟨i⟩ := t
  induction i using Nat.strongRecOn with
  | ind i ih =>
      rcases h.filters ⟨i⟩ ht with rfl | ⟨input, predicates, hn, hinput⟩
      · exact Nat.le_refl _
      · have hmem : input ∈ (g.node ⟨i⟩).children := by
          rw [hn]
          exact List.mem_cons_self
        have hlt : input.index < i := hg.child_lt hmem
        exact Nat.le_trans (ih input.index hlt hinput) (Nat.le_of_lt hlt)

/-- What comes before all that is folded is not folded. -/
theorem not_contains_of_lt (hle : ∀ t ∈ s.fused, p.index ≤ t.index) (ht : t.index < p.index) :
  s.contains t = false
  := by
  rw [Bool.eq_false_iff]
  intro hfold
  exact absurd (hle t (List.contains_iff_mem.mp hfold)) (Nat.not_le_of_lt ht)

/-- What comes before all that is folded resolves to itself. -/
theorem resolve_before (hg : g.WellFounded) (hle : ∀ t ∈ s.fused, p.index ≤ t.index)
    (mode : LiftMode) (A : Algebra α) :
  (∀ t name, t.index < p.index → (s.resolve mode A g t).column name = A.column t name)
    ∧ ∀ v : NodeId, v.index < p.index → (s.resolve mode A g v).value = g.denote A v
  := by
  have hcolumn : ∀ (t : NodeId) name, t.index < p.index →
      (s.resolve mode A g t).column name = A.column t name := by
    intro t name ht
    rw [resolve_fate hg, fate_of_not_contains (not_contains_of_lt hle ht)]
  refine ⟨hcolumn, fun v hv => ?_⟩
  rw [resolve_value hg]
  refine Graph.denote_congr hg ?_ ?_ ?_ v fun t name ht => hcolumn t name (Nat.lt_trans ht hv)
  · rfl
  · rfl
  · rfl

/-- A column of a filter resolves as that of the projection does. -/
theorem FiltersOver.resolve_eq (h : s.FiltersOver g p) (hg : g.WellFounded) (A : Algebra α)
    (ht : t ∈ s.fused) (name : String) :
  (s.resolve .substitute A g t).column name = (s.resolve .substitute A g p).column name
  := by
  obtain ⟨i⟩ := t
  induction i using Nat.strongRecOn with
  | ind i ih =>
      rcases h.filters ⟨i⟩ ht with rfl | ⟨input, predicates, hn, hinput⟩
      · rfl
      · have hmem : input ∈ (g.node ⟨i⟩).children := by
          rw [hn]
          exact List.mem_cons_self
        have hlt : input.index < i := hg.child_lt hmem
        have hfate : s.fate .substitute g ⟨i⟩ name = .column input := by
          rw [fate, contains, List.contains_iff_mem.mpr ht, hn]
          rfl
        rw [resolve_fate hg, hfate]
        exact ih input.index hlt hinput

/-- What a column of the projection resolves to. -/
def provided (g : Graph) (A : Algebra α) (p : NodeId) (items : List NodeId) (name : String) : α :=
  match Lift.provider? g items name with
  | none => A.column p name
  | some item => if g.isRelation item then A.column item name else g.denote A (g.unaliased item)

theorem FiltersOver.resolve_projection (h : s.FiltersOver g p) (hg : g.WellFounded)
    (hn : g.node p = .projection u items) (A : Algebra α) (ht : t ∈ s.fused) (name : String) :
  (s.resolve .substitute A g t).column name = provided g A p items name
  := by
  obtain ⟨hcolumn, hvalue⟩ := resolve_before hg (fun t ht => h.le hg ht) .substitute A
  rw [h.resolve_eq hg A ht, resolve_fate hg, fate, contains, List.contains_iff_mem.mpr h.base, hn,
    provided]
  simp only [Bool.not_true, reduceCtorEq, decide_false, Bool.false_and, Bool.or_false,
    Bool.false_eq_true, if_false]
  cases hp : Lift.provider? g items name with
  | none => rfl
  | some item =>
      have hlt : item.index < p.index := by
        apply hg.child_lt
        rw [hn]
        exact List.mem_cons_of_mem u (provider_mem hp)
      cases hr : g.isRelation item with
      | true =>
          simp only [hr, if_true]
          exact hcolumn item name hlt
      | false =>
          simp only [hr, Bool.false_eq_true, if_false]
          exact hvalue _ (Nat.lt_of_le_of_lt (hg.unaliased_le item) hlt)

end Folding

namespace Lift

variable {s : Folding} {g : Graph} {p u : NodeId} {items predicates : List NodeId}

/-- A column that resolves to a column of its name becomes a field of a table that is not folded, or
stays a column of the projection when no item provides its name. -/
theorem exists_pushed (hg : g.WellFounded) (hreads : g.ReadsFields) (hs : s.FiltersOver g p)
    (hn : g.node p = .projection u items) {t : NodeId} {name : String} (ht : t ∈ s.fused)
    (hname : (s.resolve .substitute .columnName g t).column name = some name) :
  ∃ w, (∀ {α : Type} (A : Algebra α), (s.resolve .substitute A g t).column name = A.column w name)
    ∧ if (provider? g items name).isSome then s.contains w = false ∧ g.hasField w name = true
      else w = p
  := by
  have hresolve : ∀ {α : Type} (A : Algebra α), _ :=
    fun A => hs.resolve_projection hg hn A ht name
  have hbefore : ∀ {w : NodeId}, w.index < p.index → s.contains w = false :=
    Folding.not_contains_of_lt fun t ht => hs.le hg ht
  rw [hresolve] at hname
  simp only [hresolve]
  simp only [Folding.provided] at hname ⊢
  cases hp : provider? g items name with
  | none => exact ⟨p, fun A => rfl, rfl⟩
  | some item =>
      have hlt : item.index < p.index := by
        apply hg.child_lt
        rw [hn]
        exact List.mem_cons_of_mem u (Folding.provider_mem hp)
      simp only [hp] at hname ⊢
      cases hr : g.isRelation item with
      | true =>
          refine ⟨item, fun A => rfl, hbefore hlt, ?_⟩
          exact Graph.hasField_of_provider hp hr
      | false =>
          -- the value of the item is a column of the name
          simp only [hr, Bool.false_eq_true, if_false, Graph.denote_columnName hg] at hname ⊢
          split at hname
          case h_2 => cases hname
          case h_1 w n hw =>
              cases hname
              have hw' : w.index < (g.unaliased item).index := by
                apply hg.child_lt
                rw [hw]
                exact List.mem_singleton_self w
              refine ⟨w, fun A => Graph.denote_column hg A hw, hbefore ?_, ?_⟩
              · exact Nat.lt_trans hw' (Nat.lt_of_le_of_lt (hg.unaliased_le item) hlt)
              · exact hreads.hasField hw

/-- A filter that is pushed can be evaluated below.  Predicates on a projection can be pushed just
when each column that they read of the projection, or of a filter above it, is lifted to a column of
its name.  That is a field of a table that is not folded, unless no item provides the name, and the
column stays one of the projection. -/
theorem pushable_reads (hg : g.WellFounded) (hreads : g.ReadsFields) (hs : s.FiltersOver g p)
    (hn : g.node p = .projection u items) (hpredicates : ∀ q ∈ predicates, g.Has q) :
  (pushable s predicates g).1 = true ↔
    ∀ q ∈ predicates, ∀ c ∈ g.columns q, ∀ t name, g.node c = .column t name → t ∈ s.fused →
      ∀ l g', run (value s .substitute c) g = (l, g') →
        ∃ w, g'.node l = .column w name
          ∧ if (provider? g items name).isSome then
              s.contains w = false ∧ g'.hasField w name = true
            else w = p
  := by
  have hlifted : ∀ {c t name l g'}, g.node c = .column t name →
      run (value s .substitute c) g = (l, g') → g'.WellFounded ∧ g.Extends g'
        ∧ ∀ {α : Type} (A : Algebra α),
          g'.denote A l = (s.resolve .substitute A g t).column name := by
    intro c t name l g' hc hl
    have hhas := Graph.has_of_node hc nofun
    obtain ⟨hg', e, hlifts⟩ := run_spec (keeps_value (sound_empty hg s .substitute) hhas)
    rw [hl] at hg' e hlifts
    refine ⟨hg', e, fun A => ?_⟩
    rw [hlifts.denote, Folding.resolve_extends e hg hg' hhas, resolve_value_eq hg,
      Folding.resolveValue, hc]
  rw [pushable_eq hg hpredicates, Folding.pushes, List.all_eq_true]
  simp only [List.all_eq_true, Folding.unchanged, Bool.or_eq_true, Bool.not_eq_true', beq_iff_eq]
  constructor
  · intro h q hq c hc t name hnode ht l g' hl
    obtain ⟨hg', e, hdenote⟩ := hlifted hnode hl
    have hread : (t, name) ∈ g.denote .reads q :=
      (Graph.mem_reads_iff hg (hpredicates q hq) t name).mpr ⟨c, hc, hnode⟩
    have hfold : ¬ s.contains t = false := by simpa [Folding.contains] using ht
    have hname := (h q hq (t, name) hread).resolve_left hfold
    obtain ⟨w, hw, hcases⟩ := exists_pushed hg hreads hs hn ht hname
    refine ⟨w, Folding.node_of_denote_column hg' fun A => (hdenote A).trans (hw A), ?_⟩
    split at hcases
    case isTrue hsome =>
        obtain ⟨hfold, hfield⟩ := hcases
        rw [if_pos hsome, e.hasField_eq hg hg' (Graph.has_of_hasField hg hfield)]
        exact ⟨hfold, hfield⟩
    case isFalse hnone =>
        rw [if_neg hnone]
        exact hcases
  · rintro h q hq ⟨t, name⟩ hread
    obtain ⟨c, hc, hnode⟩ := (Graph.mem_reads_iff hg (hpredicates q hq) t name).mp hread
    by_cases ht : t ∈ s.fused
    · right
      obtain ⟨w, hw, _⟩ := h q hq c hc t name hnode ht _ _ rfl
      obtain ⟨hg', _, hdenote⟩ := hlifted hnode rfl
      rw [← hdenote, Graph.denote_column hg' _ hw]
      rfl
    · left
      rw [Folding.contains, List.contains_eq_mem, decide_eq_false ht]

/-- A filter on a column, and one on a sum that has no name, over the projection of both. -/
def filteredSum : Graph := ⟨#[
  .table ⟨some "t", none, ⟨[⟨"x", .int32⟩, ⟨"y", .int32⟩]⟩⟩,
  .column ⟨0⟩ "x",
  .column ⟨0⟩ "y",
  .binary .add ⟨1⟩ ⟨2⟩,
  .projection ⟨0⟩ [⟨3⟩, ⟨1⟩],
  .column ⟨4⟩ "x",
  .unary .notNull ⟨5⟩,
  .selection ⟨4⟩ [⟨6⟩],
  .column ⟨7⟩ "x",
  .binary .gt ⟨8⟩ ⟨5⟩,
  .column ⟨7⟩ "tmp",
  .unary .isNull ⟨10⟩]⟩

/-- What is pushed of a filter on the column is one on a field of the table.  The filter on the sum
is pushed, too, though its column is lifted to one of the projection. -/
theorem pushable_reads_filteredSum :
  (pushable (.of [⟨7⟩, ⟨4⟩]) [⟨9⟩] filteredSum).1 = true
    ∧ (∀ l g', run (value (.of [⟨7⟩, ⟨4⟩]) .substitute ⟨8⟩) filteredSum = (l, g') →
      ∃ w, g'.node l = .column w "x" ∧ w ≠ ⟨7⟩ ∧ w ≠ ⟨4⟩ ∧ g'.hasField w "x" = true)
    ∧ (pushable (.of [⟨7⟩, ⟨4⟩]) [⟨11⟩] filteredSum).1 = true
    ∧ ∀ l g', run (value (.of [⟨7⟩, ⟨4⟩]) .substitute ⟨10⟩) filteredSum = (l, g') →
      g'.node l = .column ⟨4⟩ "tmp"
  := by
  have hs : (Folding.of [⟨7⟩, ⟨4⟩]).FiltersOver filteredSum ⟨4⟩ := by
    refine ⟨by decide, fun t ht => ?_⟩
    simp only [Folding.of, List.mem_cons, List.not_mem_nil, or_false] at ht
    rcases ht with rfl | rfl
    · exact .inr ⟨⟨4⟩, [⟨6⟩], rfl, by decide⟩
    · exact .inl rfl
  have hpushed : (pushable (.of [⟨7⟩, ⟨4⟩]) [⟨9⟩] filteredSum).1 = true := by decide
  have hpushed' : (pushable (.of [⟨7⟩, ⟨4⟩]) [⟨11⟩] filteredSum).1 = true := by decide
  have hprovider : (provider? filteredSum [⟨3⟩, ⟨1⟩] "x").isSome = true := by decide
  have hnone : ¬ (provider? filteredSum [⟨3⟩, ⟨1⟩] "tmp").isSome = true := by decide
  refine ⟨hpushed, fun l g' hl => ?_, hpushed', fun l g' hl => ?_⟩
  · obtain ⟨w, hw, hfield⟩ := (pushable_reads (by decide) (by decide) hs rfl
      (by decide)).mp hpushed ⟨9⟩ (by decide) ⟨8⟩ (by decide) ⟨7⟩ "x" rfl (by decide) l g' hl
    rw [if_pos hprovider] at hfield
    refine ⟨w, hw, ?_, ?_, hfield.2⟩
    · rintro rfl
      cases hfield.1
    · rintro rfl
      cases hfield.1
  · obtain ⟨w, hw, hkept⟩ := (pushable_reads (by decide) (by decide) hs rfl
      (by decide)).mp hpushed' ⟨11⟩ (by decide) ⟨10⟩ (by decide) ⟨7⟩ "tmp" rfl (by decide)
        l g' hl
    rw [if_neg hnone] at hkept
    rw [hw, hkept]

end Lift

end RelSql
