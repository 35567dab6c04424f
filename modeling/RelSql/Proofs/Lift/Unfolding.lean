import Mathlib.Logic.Relation
import RelSql.Proofs.Graph.Opened
import RelSql.Proofs.Lift.Fates

/-!
# Unfolded values

A column of a folded table comes from a table below that keeps it, or stands for a value.  A value
is unfolded by going on from its columns to the values that they stand for.  Everything that stands
in the unfolded value stands in the lifted one: the columns that this one reads, the reductions that
it nests, and whether it is a column itself can be told from the value and from the operators that
are folded.
-/

namespace RelSql

open Relation

/-! ## Where columns come from -/

namespace Folding

variable {s : Folding} {g : Graph} {t u e v w : NodeId} {name : String}

/-- The column `name` of the table `t` is the one of the table `u` below it. -/
def Passes (s : Folding) (g : Graph) (name : String) (t u : NodeId) : Prop :=
  s.fate .substitute g t name = .column u

/-- The column `name` of the table `t` comes from the table `e`, which keeps it. -/
structure ComesFrom (s : Folding) (g : Graph) (t : NodeId) (name : String) (e : NodeId) :
    Prop where
  passed : ReflTransGen (s.Passes g name) t e
  kept : s.fate .substitute g e name = .kept

theorem Passes.resolve (hg : g.WellFounded) (h : ReflTransGen (s.Passes g name) t u) {α : Type}
    (A : Algebra α) :
  (s.resolve .substitute A g t).column name = (s.resolve .substitute A g u).column name
  := by
  induction h with
  | refl => rfl
  | tail _ hstep ih => rw [ih, resolve_fate hg, hstep]

theorem ComesFrom.resolve (hg : g.WellFounded) (h : s.ComesFrom g t name e) {α : Type}
    (A : Algebra α) :
  (s.resolve .substitute A g t).column name = A.column e name
  := by
  rw [Passes.resolve hg h.passed, resolve_fate hg, h.kept]

theorem Passes.le (hg : g.WellFounded) (h : ReflTransGen (s.Passes g name) t u) :
  u.index ≤ t.index
  := by
  induction h with
  | refl => exact Nat.le_refl _
  | tail _ hstep ih =>
      exact Nat.le_trans (Nat.le_of_lt ((fate_lt hg s .substitute _ name).1 _ hstep)) ih

/-- A column that stands for a value is the one of a projection or an aggregation that computes it
as this value. -/
theorem standsFor_iff :
  s.StandsFor .substitute g t name v
    ↔ ∃ u, ReflTransGen (s.Passes g name) t u ∧ s.fate .substitute g u name = .value v
  := by
  constructor
  · intro h
    induction h with
    | value h => exact ⟨_, .refl, h⟩
    | column h _ ih =>
        obtain ⟨u, hpassed, hvalue⟩ := ih
        exact ⟨u, .head h hpassed, hvalue⟩
  · rintro ⟨u, hpassed, hvalue⟩
    induction hpassed using ReflTransGen.head_induction_on with
    | refl => exact .value hvalue
    | head hstep _ ih => exact .column hstep ih

/-- A column comes from a table that keeps it, or stands for a value. -/
theorem comesFrom_or_standsFor (hg : g.WellFounded) (s : Folding) (t : NodeId) (name : String) :
  (∃ e, s.ComesFrom g t name e) ∨ ∃ v, s.StandsFor .substitute g t name v
  := by
  obtain ⟨i⟩ := t
  induction i using Nat.strongRecOn with
  | ind i ih =>
      cases h : s.fate .substitute g ⟨i⟩ name with
      | kept => exact .inl ⟨⟨i⟩, .refl, h⟩
      | value v => exact .inr ⟨v, .value h⟩
      | column u =>
          have hstep : s.Passes g name ⟨i⟩ u := h
          rcases ih u.index ((fate_lt hg s .substitute ⟨i⟩ name).1 u h) with
            ⟨e, hpassed, hkept⟩ | ⟨v, hv⟩
          · exact .inl ⟨e, .head hstep hpassed, hkept⟩
          · exact .inr ⟨v, .column h hv⟩

/-- A column is passed down to one end. -/
theorem Passes.unique {u' : NodeId} (h : ReflTransGen (s.Passes g name) t u)
    (hstop : ∀ w, s.fate .substitute g u name ≠ .column w)
    (h' : ReflTransGen (s.Passes g name) t u')
    (hstop' : ∀ w, s.fate .substitute g u' name ≠ .column w) :
  u' = u
  := by
  have hunique : Relator.RightUnique (s.Passes g name) := by
    intro a b c hb hc
    exact Fate.column.inj (hb.symm.trans hc)
  rcases ReflTransGen.total_of_right_unique hunique h h' with hle | hle
  · rcases hle.cases_head with heq | ⟨w, hstep, _⟩
    · exact heq.symm
    · exact absurd hstep (hstop w)
  · rcases hle.cases_head with heq | ⟨w, hstep, _⟩
    · exact heq
    · exact absurd hstep (hstop' w)

theorem ComesFrom.unique {e' : NodeId} (h : s.ComesFrom g t name e)
    (h' : s.ComesFrom g t name e') :
  e' = e
  := Passes.unique h.passed (by simp [h.kept]) h'.passed (by simp [h'.kept])

theorem StandsFor.unique {v' : NodeId} (h : s.StandsFor .substitute g t name v)
    (h' : s.StandsFor .substitute g t name v') :
  v' = v
  := by
  obtain ⟨u, hpassed, hvalue⟩ := standsFor_iff.mp h
  obtain ⟨u', hpassed', hvalue'⟩ := standsFor_iff.mp h'
  obtain rfl := Passes.unique hpassed (by simp [hvalue]) hpassed' (by simp [hvalue'])
  exact Fate.value.inj (hvalue'.symm.trans hvalue)

/-- A column that comes from a table stands for no value. -/
theorem ComesFrom.not_standsFor (h : s.ComesFrom g t name e) :
  ¬ s.StandsFor .substitute g t name v
  := by
  intro hv
  obtain ⟨u, hpassed, hvalue⟩ := standsFor_iff.mp hv
  obtain rfl := Passes.unique h.passed (by simp [h.kept]) hpassed (by simp [hvalue])
  cases h.kept.symm.trans hvalue

/-- A table that is not folded keeps its columns. -/
theorem comesFrom_self (h : s.contains t = false) :
  s.ComesFrom g t name t
  := ⟨.refl, fate_of_not_contains h⟩

/-- Where a column comes from depends on the tables up to its own that are folded. -/
theorem ComesFrom.congr (hg : g.WellFounded) {s' : Folding}
    (h : ∀ u : NodeId, u.index ≤ t.index → s'.contains u = s.contains u)
    (hfrom : s.ComesFrom g t name e) :
  s'.ComesFrom g t name e
  := by
  have hfate : ∀ u : NodeId, u.index ≤ t.index →
      s'.fate .substitute g u name = s.fate .substitute g u name := by
    intro u hu
    simp only [fate, h u hu, reduceCtorEq, decide_false, Bool.false_and]
  obtain ⟨hpassed, hkept⟩ := hfrom
  induction hpassed using ReflTransGen.head_induction_on with
  | refl => exact ⟨.refl, (hfate e (Nat.le_refl _)).trans hkept⟩
  | @head t u hstep _ ih =>
      have hlt := (fate_lt hg s .substitute t name).1 u hstep
      have hbelow : ∀ w : NodeId, w.index ≤ u.index → w.index ≤ t.index :=
        fun w hw => Nat.le_trans hw (Nat.le_of_lt hlt)
      obtain ⟨hpassed', hkept'⟩ :=
        ih (fun w hw => h w (hbelow w hw)) fun w hw => hfate w (hbelow w hw)
      exact ⟨.head ((hfate t (Nat.le_refl _)).trans hstep) hpassed', hkept'⟩

/-! ## What stands in an unfolded value -/

/-- What stands right below a value: the operands of an operator, and the value that a column stands
for. -/
inductive Unfolds (s : Folding) (g : Graph) : NodeId → NodeId → Prop where
  | operand {v c : NodeId} (ho : (g.node v).isOperator = true) (hc : c ∈ (g.node v).children) :
    Unfolds s g v c
  | definition {v t w : NodeId} {name : String} (hn : g.node v = .column t name)
      (h : s.StandsFor .substitute g t name w) : Unfolds s g v w

theorem Unfolds.lt (hg : g.WellFounded) (h : s.Unfolds g v w) :
  w.index < v.index
  := by
  cases h with
  | operand _ hc => exact hg.child_lt hc
  | definition hn h =>
      apply Nat.lt_trans (h.lt hg)
      apply hg.child_lt
      rw [hn]
      exact List.mem_singleton_self _

/-- Below a row count, or a table, stands nothing. -/
theorem not_unfolds_of_leaf (ho : (g.node v).isOperator = false)
    (hcolumn : ∀ t name, g.node v ≠ .column t name) :
  ¬ s.Unfolds g v w
  := by
  intro h
  cases h with
  | operand hop _ =>
      rw [ho] at hop
      cases hop
  | definition hn _ => exact hcolumn _ _ hn

/-- Below an operator stand its operands. -/
theorem unfolds_operator (ho : (g.node v).isOperator = true) :
  s.Unfolds g v w ↔ w ∈ (g.node v).children
  := by
  constructor
  · intro h
    cases h with
    | operand _ hc => exact hc
    | definition hn _ =>
        rw [hn] at ho
        cases ho
  · exact .operand ho

/-- Below a column stands what it stands for. -/
theorem unfolds_column (hn : g.node v = .column t name) :
  s.Unfolds g v w ↔ s.StandsFor .substitute g t name w
  := by
  constructor
  · intro h
    cases h with
    | operand ho _ =>
        rw [hn] at ho
        cases ho
    | definition hn' h =>
        obtain ⟨rfl, rfl⟩ := Node.column.inj (hn.symm.trans hn')
        exact h
  · exact .definition hn

/-- A column of the table `e` stands in the unfolded value. -/
def UnfoldsTo (s : Folding) (g : Graph) (v e : NodeId) (name : String) : Prop :=
  ∃ c t, ReflTransGen (s.Unfolds g) v c ∧ g.node c = .column t name ∧ s.ComesFrom g t name e

theorem unfoldsTo_iff :
  s.UnfoldsTo g v e name ↔ (∃ t, g.node v = .column t name ∧ s.ComesFrom g t name e)
    ∨ ∃ w, s.Unfolds g v w ∧ s.UnfoldsTo g w e name
  := by
  constructor
  · rintro ⟨c, t, hc, hn, h⟩
    rcases hc.cases_head with rfl | ⟨w, hw, hc⟩
    · exact .inl ⟨t, hn, h⟩
    · exact .inr ⟨w, hw, c, t, hc, hn, h⟩
  · rintro (⟨t, hn, h⟩ | ⟨w, hw, c, t, hc, hn, h⟩)
    · exact ⟨v, t, .refl, hn, h⟩
    · exact ⟨c, t, .head hw hc, hn, h⟩

/-- A value resolves to one that reads the columns that stand in the unfolded value. -/
theorem mem_resolved_reads_iff (hg : g.WellFounded) (v : NodeId) :
  (e, name) ∈ (s.resolve .substitute .reads g v).value ↔ s.UnfoldsTo g v e name
  := by
  obtain ⟨i⟩ := v
  induction i using Nat.strongRecOn with
  | ind i ih =>
      have hleaf : (g.node ⟨i⟩).isOperator = false → (∀ t name, g.node ⟨i⟩ ≠ .column t name) →
          ¬ s.UnfoldsTo g ⟨i⟩ e name := by
        intro ho hcolumn h
        rcases unfoldsTo_iff.mp h with ⟨t, hn, _⟩ | ⟨w, hw, _⟩
        · exact hcolumn t name hn
        · exact not_unfolds_of_leaf ho hcolumn hw
      rw [Lift.resolve_value_eq hg]
      rcases (g.node ⟨i⟩).kinds with ⟨t, n, hn⟩ | ⟨t, hn⟩ | hn | hn
      · rw [resolveValue, hn, unfoldsTo_iff]
        simp only [unfolds_column hn, hn, Node.column.injEq]
        rcases comesFrom_or_standsFor hg s t n with ⟨e', he'⟩ | ⟨v, hv⟩
        · rw [he'.resolve hg, Algebra.reads, List.mem_singleton, Prod.mk.injEq]
          constructor
          · rintro ⟨rfl, rfl⟩
            exact .inl ⟨t, ⟨rfl, rfl⟩, he'⟩
          · rintro (⟨t', ⟨rfl, rfl⟩, h⟩ | ⟨w, hw, _⟩)
            · exact ⟨he'.unique h, rfl⟩
            · exact absurd hw he'.not_standsFor
        · have hlt := (Unfolds.definition hn hv).lt hg
          rw [hv.resolve hg, ih v.index hlt]
          constructor
          · exact fun h => .inr ⟨v, hv, h⟩
          · rintro (⟨t', ⟨rfl, rfl⟩, h⟩ | ⟨w, hw, h⟩)
            · exact absurd hv h.not_standsFor
            · exact hv.unique hw ▸ h
      · rw [resolveValue, hn]
        exact iff_of_false List.not_mem_nil (hleaf (by rw [hn]; rfl) (by simp [hn]))
      · rw [resolveValue_relation _ _ hn]
        refine iff_of_false List.not_mem_nil (hleaf (Node.isOperator_of_isRelation hn) ?_)
        intro t name hcolumn
        rw [hcolumn] at hn
        cases hn
      · rw [resolveValue_operator _ _ hn, unfoldsTo_iff]
        simp only [unfolds_operator hn, Algebra.reads, List.mem_flatten, List.mem_map]
        constructor
        · rintro ⟨_, ⟨c, hc, rfl⟩, hmem⟩
          exact .inr ⟨c, hc, (ih c.index (hg.child_lt hc)).mp hmem⟩
        · rintro (⟨t, hcolumn, _⟩ | ⟨c, hc, h⟩)
          · rw [hcolumn] at hn
            cases hn
          · exact ⟨_, ⟨c, hc, rfl⟩, (ih c.index (hg.child_lt hc)).mpr h⟩

/-- A lifted value reads the columns that stand in the unfolded value. -/
theorem Lifts.mem_reads_iff (hg : g.WellFounded) {l : NodeId} (h : s.Lifts .substitute g v l) :
  (e, name) ∈ g.denote .reads l ↔ s.UnfoldsTo g v e name
  := by
  rw [h.denote, mem_resolved_reads_iff hg]

/-- A lifted value reads the tables of the columns that stand in the unfolded value. -/
theorem Lifts.mem_tables_iff (hg : g.WellFounded) {l : NodeId} (h : s.Lifts .substitute g v l) :
  e ∈ g.tables l ↔ ∃ name, s.UnfoldsTo g v e name
  := by
  rw [Graph.mem_tables_iff hg h.target]
  exact exists_congr fun name => h.mem_reads_iff hg

end Folding

/-! ## Nested reductions -/

/-- Whether a reduction stands in a value, and whether one stands below another one. -/
def Algebra.nests : Algebra (Prop × Prop) where
  column _ _ := (False, False)
  count _ := (True, False)
  table _ := (False, False)
  operator n parts :=
    (n.isReduction = true ∨ ∃ part ∈ parts, part.1,
      (n.isReduction = true ∧ ∃ part ∈ parts, part.1) ∨ ∃ part ∈ parts, part.2)

theorem Algebra.nests_transparent :
  Algebra.nests.Transparent
  := by
  intro name value
  simp only [nests, Node.isReduction, List.mem_singleton, exists_eq_left, Bool.false_eq_true,
    false_and, false_or]

theorem Algebra.nests_operator (n : Node) (children : List NodeId) (f : NodeId → Prop × Prop) :
  Algebra.nests.operator n.shape (children.map f)
    = (n.isReduction = true ∨ ∃ c ∈ children, (f c).1,
      (n.isReduction = true ∧ ∃ c ∈ children, (f c).1) ∨ ∃ c ∈ children, (f c).2)
  := by
  simp only [nests, Node.isReduction_shape, List.mem_map, exists_exists_and_eq_and]

namespace Graph

/-- A reduction stands in the value. -/
def HoldsReduction (g : Graph) (v : NodeId) : Prop :=
  ∃ r, g.Occurs v r ∧ (g.node r).isReduction = true

/-- A reduction stands below another one in the value. -/
def NestsReductions (g : Graph) (v : NodeId) : Prop :=
  ∃ r r', g.Occurs v r ∧ (g.node r).isReduction = true ∧ g.Occurs r r' ∧ r' ≠ r
    ∧ (g.node r').isReduction = true

end Graph

namespace Folding

variable {s : Folding} {g : Graph} {v w : NodeId}

/-- A reduction stands in the unfolded value. -/
def HoldsReduction (s : Folding) (g : Graph) (v : NodeId) : Prop :=
  ∃ r, ReflTransGen (s.Unfolds g) v r ∧ (g.node r).isReduction = true

/-- A reduction stands below another one in the unfolded value. -/
def NestsReductions (s : Folding) (g : Graph) (v : NodeId) : Prop :=
  ∃ r r', ReflTransGen (s.Unfolds g) v r ∧ (g.node r).isReduction = true
    ∧ ReflTransGen (s.Unfolds g) r r' ∧ r' ≠ r ∧ (g.node r').isReduction = true

theorem holdsReduction_iff :
  s.HoldsReduction g v ↔ (g.node v).isReduction = true ∨ ∃ w, s.Unfolds g v w ∧ s.HoldsReduction g w
  := by
  constructor
  · rintro ⟨r, hr, hreduction⟩
    rcases hr.cases_head with rfl | ⟨w, hw, hr⟩
    · exact .inl hreduction
    · exact .inr ⟨w, hw, r, hr, hreduction⟩
  · rintro (hreduction | ⟨w, hw, r, hr, hreduction⟩)
    · exact ⟨v, .refl, hreduction⟩
    · exact ⟨r, .head hw hr, hreduction⟩

theorem le_of_unfolds (hg : g.WellFounded) (h : ReflTransGen (s.Unfolds g) v w) :
  w.index ≤ v.index
  := by
  induction h with
  | refl => exact Nat.le_refl _
  | tail _ hstep ih => exact Nat.le_trans (Nat.le_of_lt (hstep.lt hg)) ih

theorem nestsReductions_iff (hg : g.WellFounded) :
  s.NestsReductions g v
    ↔ ((g.node v).isReduction = true ∧ ∃ w, s.Unfolds g v w ∧ s.HoldsReduction g w)
      ∨ ∃ w, s.Unfolds g v w ∧ s.NestsReductions g w
  := by
  constructor
  · rintro ⟨r, r', hr, hreduction, hr', hne, hreduction'⟩
    rcases hr.cases_head with rfl | ⟨w, hw, hr⟩
    · rcases hr'.cases_head with rfl | ⟨w, hw, hr'⟩
      · exact absurd rfl hne
      · exact .inl ⟨hreduction, w, hw, r', hr', hreduction'⟩
    · exact .inr ⟨w, hw, r, r', hr, hreduction, hr', hne, hreduction'⟩
  · rintro (⟨hreduction, w, hw, r', hr', hreduction'⟩ | ⟨w, hw, r, r', hr, h⟩)
    · refine ⟨v, r', .refl, hreduction, .head hw hr', ?_, hreduction'⟩
      rintro rfl
      exact absurd (hw.lt hg) (Nat.not_lt.mpr (le_of_unfolds hg hr'))
    · exact ⟨r, r', .head hw hr, h⟩

/-- Which reductions a value nests once it is resolved is told by the unfolded value. -/
theorem resolve_nests (hg : g.WellFounded) (v : NodeId) :
  ((s.resolve .substitute .nests g v).value.1 ↔ s.HoldsReduction g v)
    ∧ ((s.resolve .substitute .nests g v).value.2 ↔ s.NestsReductions g v)
  := by
  obtain ⟨i⟩ := v
  induction i using Nat.strongRecOn with
  | ind i ih =>
      rw [holdsReduction_iff, nestsReductions_iff hg, Lift.resolve_value_eq hg]
      rcases (g.node ⟨i⟩).kinds with ⟨t, name, hn⟩ | ⟨t, hn⟩ | hn | hn
      · rw [resolveValue, hn]
        simp only [unfolds_column hn, Node.isReduction, Bool.false_eq_true, false_and, false_or]
        rcases comesFrom_or_standsFor hg s t name with ⟨e, he⟩ | ⟨w, hw⟩
        · rw [he.resolve hg]
          simp [Algebra.nests, he.not_standsFor]
        · obtain ⟨hreduces, hnests⟩ := ih w.index ((Unfolds.definition hn hw).lt hg)
          rw [hw.resolve hg, hreduces, hnests]
          have hwhole : ∀ {P : NodeId → Prop},
              P w ↔ ∃ w', s.StandsFor .substitute g t name w' ∧ P w' := by
            intro P
            refine ⟨fun h => ⟨w, hw, h⟩, ?_⟩
            rintro ⟨w', hw', h⟩
            exact hw.unique hw' ▸ h
          exact ⟨hwhole, hwhole⟩
      · have hnone : ∀ w, ¬ s.Unfolds g ⟨i⟩ w :=
          fun w => not_unfolds_of_leaf (by rw [hn]; rfl) (by simp [hn])
        rw [resolveValue, hn]
        simp [Algebra.nests, Node.isReduction, hnone]
      · have hcolumn : ∀ t name, g.node ⟨i⟩ ≠ .column t name := by
          intro t name hcolumn
          rw [hcolumn] at hn
          cases hn
        have hnone : ∀ w, ¬ s.Unfolds g ⟨i⟩ w :=
          fun w => not_unfolds_of_leaf (Node.isOperator_of_isRelation hn) hcolumn
        have hplain : (g.node ⟨i⟩).isReduction = false := by
          cases hnode : g.node ⟨i⟩ <;> rw [hnode] at hn <;> first | rfl | cases hn
        rw [resolveValue_relation _ _ hn]
        simp [Algebra.nests, hplain, hnone]
      · rw [resolveValue_operator _ _ hn, Algebra.nests_operator]
        simp only [unfolds_operator hn]
        have hreduces : (∃ c ∈ (g.node ⟨i⟩).children,
            (s.resolve .substitute .nests g c).value.1)
              ↔ ∃ c ∈ (g.node ⟨i⟩).children, s.HoldsReduction g c :=
          exists_congr fun c => and_congr_right fun hc => (ih c.index (hg.child_lt hc)).1
        have hnests : (∃ c ∈ (g.node ⟨i⟩).children, (s.resolve .substitute .nests g c).value.2)
            ↔ ∃ c ∈ (g.node ⟨i⟩).children, s.NestsReductions g c :=
          exists_congr fun c => and_congr_right fun hc => (ih c.index (hg.child_lt hc)).2
        exact ⟨or_congr_right hreduces, or_congr (and_congr_right fun _ => hreduces) hnests⟩

/-- Without operators that are folded, a value unfolds to its parts. -/
theorem unfolds_empty :
  ReflTransGen (Folding.empty.Unfolds g) v w ↔ g.Occurs v w
  := by
  constructor
  · intro h
    induction h using ReflTransGen.head_induction_on with
    | refl => exact .refl w
    | head hstep _ ih =>
        cases hstep with
        | operand ho hc => exact .operand ho hc ih
        | definition hn h => exact absurd h (comesFrom_self rfl).not_standsFor
  · intro h
    induction h with
    | refl => exact .refl
    | operand ho hc _ ih => exact .head (.operand ho hc) ih

end Folding

namespace Graph

variable {g : Graph} {v : NodeId}

/-- Without operators that are folded, a value resolves to its meaning. -/
theorem resolve_empty (hg : g.WellFounded) {α : Type} (A : Algebra α) (v : NodeId) :
  (Folding.empty.resolve .substitute A g v).value = g.denote A v
  := by
  rw [Folding.resolve_value hg]
  refine denote_congr hg ?_ ?_ ?_ v fun t name _ => ?_
  · rfl
  · rfl
  · rfl
  · exact (Folding.comesFrom_self (s := .empty) rfl).resolve hg A

/-- A value reads the columns that occur in it. -/
theorem mem_reads_iff_occurs (hg : g.WellFounded) {t : NodeId} {name : String} :
  (t, name) ∈ g.denote .reads v ↔ ∃ c, g.Occurs v c ∧ g.node c = .column t name
  := by
  rw [← resolve_empty hg, Folding.mem_resolved_reads_iff hg]
  simp only [Folding.UnfoldsTo, Folding.unfolds_empty]
  constructor
  · rintro ⟨c, u, hc, hn, h⟩
    rw [← (Folding.comesFrom_self rfl).unique h] at hn
    exact ⟨c, hc, hn⟩
  · rintro ⟨c, hc, hn⟩
    exact ⟨c, t, hc, hn, Folding.comesFrom_self rfl⟩

/-- Which reductions a value nests is its meaning. -/
theorem denote_nests (hg : g.WellFounded) (v : NodeId) :
  ((g.denote .nests v).1 ↔ g.HoldsReduction v) ∧ ((g.denote .nests v).2 ↔ g.NestsReductions v)
  := by
  obtain ⟨hreduces, hnests⟩ := Folding.resolve_nests (s := .empty) hg v
  rw [resolve_empty hg] at hreduces hnests
  simp only [Folding.HoldsReduction, Folding.unfolds_empty] at hreduces
  simp only [Folding.NestsReductions, Folding.unfolds_empty] at hnests
  exact ⟨hreduces, hnests⟩

end Graph

namespace Folding

variable {s : Folding} {g : Graph} {v w : NodeId}

/-- What occurs in a value stands in the unfolded value. -/
theorem unfolds_of_occurs (h : g.Occurs v w) :
  ReflTransGen (s.Unfolds g) v w
  := by
  induction h with
  | refl => exact .refl
  | operand ho hc _ ih => exact .head (.operand ho hc) ih

/-- A column that a value reads stands in the unfolded value as the one that it comes from. -/
theorem unfoldsTo_of_reads (hg : g.WellFounded) {t e : NodeId} {name : String}
    (hread : (t, name) ∈ g.denote .reads v) (h : s.ComesFrom g t name e) :
  s.UnfoldsTo g v e name
  := by
  obtain ⟨c, hc, hn⟩ := (Graph.mem_reads_iff_occurs hg).mp hread
  exact ⟨c, t, unfolds_of_occurs hc, hn, h⟩

/-- What stands in an unfolded value occurs in the value, or stands in what a column of the value
stands for. -/
theorem occurs_or_defined (h : ReflTransGen (s.Unfolds g) v w) :
  g.Occurs v w ∨ ∃ c t name d, g.Occurs v c ∧ g.node c = .column t name
    ∧ s.StandsFor .substitute g t name d ∧ ReflTransGen (s.Unfolds g) d w
  := by
  induction h using ReflTransGen.head_induction_on with
  | refl => exact .inl (.refl w)
  | head hstep hrest ih =>
      cases hstep with
      | definition hn h => exact .inr ⟨_, _, _, _, .refl _, hn, h, hrest⟩
      | operand ho hc =>
          rcases ih with hoccurs | ⟨c, t, name, d, hoccurs, h⟩
          · exact .inl (.operand ho hc hoccurs)
          · exact .inr ⟨c, t, name, d, .operand ho hc hoccurs, h⟩

/-- A value none of whose columns stands for another one unfolds to the columns that these come
from. -/
theorem unfoldsTo_iff_reads (hg : g.WellFounded) {e : NodeId} {name : String}
    (h : ∀ t name, (t, name) ∈ g.denote .reads v → ∀ d, ¬ s.StandsFor .substitute g t name d) :
  s.UnfoldsTo g v e name ↔ ∃ t, (t, name) ∈ g.denote .reads v ∧ s.ComesFrom g t name e
  := by
  constructor
  · rintro ⟨c, t, hc, hn, he⟩
    rcases occurs_or_defined hc with hoccurs | ⟨c', t', name', d, hoccurs, hn', hd, _⟩
    · exact ⟨t, (Graph.mem_reads_iff_occurs hg).mpr ⟨c, hoccurs, hn⟩, he⟩
    · exact absurd hd (h t' name' ((Graph.mem_reads_iff_occurs hg).mpr ⟨c', hoccurs, hn'⟩) d)
  · rintro ⟨t, hread, he⟩
    exact unfoldsTo_of_reads hg hread he

/-- A reduction that stands in the unfolded value is over a column that stands for a value with a
reduction. -/
def Crosses (s : Folding) (g : Graph) (v : NodeId) : Prop :=
  ∃ r c t name d, ReflTransGen (s.Unfolds g) v r ∧ (g.node r).isReduction = true
    ∧ g.Occurs r c ∧ g.node c = .column t name ∧ s.StandsFor .substitute g t name d
    ∧ s.HoldsReduction g d

/-- Reductions nest in an unfolded value when they nest in the value, or in one that stands in it,
or when a reduction is over a column that stands for a value with a reduction. -/
theorem nestsReductions_iff_crosses (hg : g.WellFounded) :
  s.NestsReductions g v
    ↔ (∃ w, ReflTransGen (s.Unfolds g) v w ∧ g.NestsReductions w) ∨ s.Crosses g v
  := by
  constructor
  · rintro ⟨r, r', hr, hreduction, hr', hne, hreduction'⟩
    rcases occurs_or_defined hr' with hoccurs | ⟨c, t, name, d, hc, hn, hd, hrest⟩
    · exact .inl ⟨r, hr, r, r', .refl r, hreduction, hoccurs, hne, hreduction'⟩
    · exact .inr ⟨r, c, t, name, d, hr, hreduction, hc, hn, hd, r', hrest, hreduction'⟩
  · rintro (⟨w, hw, r, r', hr, hreduction, hr', h⟩ | ⟨r, c, t, name, d, hr, hreduction, hc, hn, hd,
      r', hr', hreduction'⟩)
    · exact ⟨r, r', hw.trans (unfolds_of_occurs hr), hreduction, unfolds_of_occurs hr', h⟩
    · have hstep : s.Unfolds g c d := .definition hn hd
      refine ⟨r, r', hr, hreduction, (unfolds_of_occurs hc).trans (.head hstep hr'), ?_,
        hreduction'⟩
      rintro rfl
      exact absurd (Nat.lt_of_le_of_lt (le_of_unfolds hg hr') (hstep.lt hg))
        (Nat.not_lt.mpr (le_of_unfolds hg (unfolds_of_occurs (s := s) hc)))

/-- The value `l` nests reductions just when they nest in a value that stands in the unfolded value
`v`, or one of these is over a column that stands for a value with a reduction. -/
def NestsIn (s : Folding) (g : Graph) (v l : NodeId) : Prop :=
  g.NestsReductions l
    ↔ (∃ w, ReflTransGen (s.Unfolds g) v w ∧ g.NestsReductions w) ∨ s.Crosses g v

/-- A node that means what a value resolves to nests reductions when they nest in the value, or in
one that stands in it, or when the operators that are folded bring a reduction below another
one. -/
theorem nestsIn_of_denote (hg : g.WellFounded) {l : NodeId}
    (h : g.denote .nests l = (s.resolve .substitute .nests g v).value) :
  s.NestsIn g v l
  := by
  rw [NestsIn, ← nestsReductions_iff_crosses hg, ← (resolve_nests hg v).2, ← h,
    (Graph.denote_nests hg l).2]

end Folding

/-! ## Values that are columns -/

variable {g : Graph} {s : Folding} {v t e arg : NodeId} {name name' given : String}

/-- The column that a value is under its aliases. -/
def Algebra.aliased : Algebra (Option (NodeId × String)) where
  column t name := some (t, name)
  count _ := none
  table _ := none
  operator n parts := match n with
    | .named _ _ => parts.head?.join
    | _ => none

theorem Algebra.aliased_transparent :
  aliased.Transparent
  := fun _ _ => rfl

/-- No other operator is a column. -/
theorem Algebra.aliased_operator {n : Node} (hn : ∀ arg given, n ≠ .named arg given)
    (parts : List (Option (NodeId × String))) :
  aliased.operator n.shape parts = none
  := by
  cases n
  case named arg given => exact absurd rfl (hn arg given)
  case contains arg options negated => cases options <;> rfl
  all_goals rfl

namespace Graph

/-- What is below all aliases is none. -/
theorem not_named_unaliased (hg : g.WellFounded) (v : NodeId) :
  ∀ arg given, g.node (g.unaliased v) ≠ .named arg given
  := by
  intro arg given hn
  have hself := unaliased_unaliased hg v
  rw [Graph.unaliased_eq hg (g.unaliased v), hn] at hself
  simp only at hself
  have hlt : arg.index < (g.unaliased v).index := by
    apply hg.child_lt
    rw [hn]
    exact List.mem_singleton_self arg
  exact absurd hlt (Nat.not_lt.mpr (hself ▸ hg.unaliased_le arg))

theorem denote_aliased_iff (hg : g.WellFounded) (v : NodeId) :
  g.denote .aliased v = some (t, name) ↔ g.node (g.unaliased v) = .column t name
  := by
  have hnamed := not_named_unaliased hg v
  rw [← denote_unaliased hg Algebra.aliased_transparent]
  rcases (g.node (g.unaliased v)).kinds with ⟨u, n, hn⟩ | ⟨u, hn⟩ | hn | hn
  · rw [denote_column hg _ hn, hn]
    simp only [Algebra.aliased, Option.some.injEq, Prod.mk.injEq, Node.column.injEq]
  · rw [denote_countStar hg _ hn, hn]
    simp only [Algebra.aliased, reduceCtorEq]
  · rw [denote_relation hg _ hn]
    refine iff_of_false nofun fun hcolumn => ?_
    rw [hcolumn] at hn
    cases hn
  · rw [denote_operator hg _ hn, Algebra.aliased_operator hnamed]
    refine iff_of_false nofun fun hcolumn => ?_
    rw [hcolumn] at hn
    cases hn

end Graph

namespace Folding

/-- The value is the column `name` of the table `e`, under other names perhaps: its own, and those
of the columns that stand for values. -/
inductive Renames (s : Folding) (g : Graph) : NodeId → NodeId → String → Prop where
  | column {v t e : NodeId} {name : String} (hn : g.node v = .column t name)
      (h : s.ComesFrom g t name e) : Renames s g v e name
  | named {v arg e : NodeId} {given name : String} (hn : g.node v = .named arg given)
      (h : Renames s g arg e name) : Renames s g v e name
  | definition {v t w e : NodeId} {field name : String} (hn : g.node v = .column t field)
      (hw : s.StandsFor .substitute g t field w) (h : Renames s g w e name) : Renames s g v e name

theorem renames_column_iff (hn : g.node v = .column t name') :
  s.Renames g v e name ↔ (name' = name ∧ s.ComesFrom g t name e)
    ∨ ∃ w, s.StandsFor .substitute g t name' w ∧ s.Renames g w e name
  := by
  constructor
  · intro h
    cases h with
    | column hn' h =>
        obtain ⟨rfl, rfl⟩ := Node.column.inj (hn.symm.trans hn')
        exact .inl ⟨rfl, h⟩
    | named hn' _ => cases hn.symm.trans hn'
    | definition hn' hw h =>
        obtain ⟨rfl, rfl⟩ := Node.column.inj (hn.symm.trans hn')
        exact .inr ⟨_, hw, h⟩
  · rintro (⟨rfl, h⟩ | ⟨w, hw, h⟩)
    · exact .column hn h
    · exact .definition hn hw h

theorem renames_named_iff (hn : g.node v = .named arg given) :
  s.Renames g v e name ↔ s.Renames g arg e name
  := by
  refine ⟨fun h => ?_, .named hn⟩
  cases h with
  | column hn' _ => cases hn.symm.trans hn'
  | named hn' h =>
      obtain ⟨rfl, _⟩ := Node.named.inj (hn.symm.trans hn')
      exact h
  | definition hn' _ _ => cases hn.symm.trans hn'

theorem not_renames (hcolumn : ∀ t n, g.node v ≠ .column t n)
    (hnamed : ∀ arg given, g.node v ≠ .named arg given) :
  ¬ s.Renames g v e name
  := by
  intro h
  cases h with
  | column hn _ => exact hcolumn _ _ hn
  | named hn _ => exact hnamed _ _ hn
  | definition hn _ _ => exact hcolumn _ _ hn

/-- A value resolves to a column just when it is one under other names. -/
theorem resolve_aliased_iff (hg : g.WellFounded) (v : NodeId) :
  (s.resolve .substitute .aliased g v).value = some (e, name) ↔ s.Renames g v e name
  := by
  obtain ⟨i⟩ := v
  induction i using Nat.strongRecOn with
  | ind i ih =>
      rw [Lift.resolve_value_eq hg]
      rcases (g.node ⟨i⟩).kinds with ⟨t, n, hn⟩ | ⟨t, hn⟩ | hn | hn
      · rw [resolveValue, hn, renames_column_iff hn]
        simp only
        rcases comesFrom_or_standsFor hg s t n with ⟨e', he'⟩ | ⟨w, hw⟩
        · rw [he'.resolve hg]
          constructor
          · rintro ⟨⟩
            exact .inl ⟨rfl, he'⟩
          · rintro (⟨rfl, h⟩ | ⟨w, hw, _⟩)
            · rw [he'.unique h]
              rfl
            · exact absurd hw he'.not_standsFor
        · rw [hw.resolve hg, ih w.index ((Unfolds.definition hn hw).lt hg)]
          constructor
          · exact fun h => .inr ⟨w, hw, h⟩
          · rintro (⟨rfl, h⟩ | ⟨w', hw', h⟩)
            · exact absurd hw h.not_standsFor
            · exact hw.unique hw' ▸ h
      · rw [resolveValue, hn]
        refine iff_of_false (by rintro ⟨⟩) (not_renames ?_ ?_)
        all_goals simp [hn]
      · rw [resolveValue_relation _ _ hn]
        refine iff_of_false (by rintro ⟨⟩) (not_renames ?_ ?_)
        all_goals
          intro _ _ hnode
          rw [hnode] at hn
          cases hn
      · rw [resolveValue_operator _ _ hn]
        by_cases hnamed : ∃ arg given, g.node ⟨i⟩ = .named arg given
        · obtain ⟨arg, given, hnode⟩ := hnamed
          have harg : arg ∈ (g.node ⟨i⟩).children := by
            rw [hnode]
            exact List.mem_singleton_self arg
          have hsame : Algebra.aliased.operator (g.node ⟨i⟩).shape
              ((g.node ⟨i⟩).children.map fun c => (s.resolve .substitute .aliased g c).value)
              = (s.resolve .substitute .aliased g arg).value := by
            rw [hnode]
            exact Algebra.aliased_transparent given _
          rw [hsame, ih arg.index (hg.child_lt harg), renames_named_iff hnode]
        · have hother : ∀ arg given, g.node ⟨i⟩ ≠ .named arg given :=
            fun arg given hnode => hnamed ⟨arg, given, hnode⟩
          rw [Algebra.aliased_operator hother]
          refine iff_of_false (by rintro ⟨⟩) (not_renames ?_ hother)
          intro _ _ hnode
          rw [hnode] at hn
          cases hn

end Folding

end RelSql
