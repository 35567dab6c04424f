import Mathlib.Logic.Relation
import RelSql.Proofs.Lift.Soundness
import RelSql.Proofs.Lift.Terms
import RelSql.Proofs.Graph.Fields

/-!
# Lifting is substitution

The columns of the tables that are not folded give those of the folded tables their values: an
operator that keeps its rows passes on the columns of its input, a join takes a field from its left
side if it has it, and a projection from the first item that provides it.  A lifted value has the
value of the given one, whatever its operators mean.  It reads no folded table, unless a column
that it is made from names no field of its table.
-/

namespace RelSql

open Relation

variable {α : Type}

/-- The algebra in which columns have other values. -/
def Algebra.withColumns (A : Algebra α) (column : NodeId → String → α) : Algebra α :=
  { A with column }

theorem Algebra.Transparent.withColumns {A : Algebra α} (h : A.Transparent)
    (column : NodeId → String → α) :
  (A.withColumns column).Transparent
  := h

namespace Graph

variable {g : Graph}

/-- An operator through which values are lifted by substitution alone: a filter, a sort, a limit, a
distinct, a join, or a projection whose items are tables, columns and aliases. -/
def Substitutes (g : Graph) (t : NodeId) : Prop :=
  match g.node t with
  | .selection _ _ | .sort _ _ | .limit _ _ _ | .distinct _ | .join _ _ _ _ => True
  | .projection _ items => ∀ i ∈ items, g.isRelation i = true ∨ (g.name? i).isSome = true
  | _ => False

/-- A value means the same for two values of the columns that agree on those that it reads. -/
theorem denote_withColumns_congr (hg : g.WellFounded) (A : Algebra α)
    (column column' : NodeId → String → α) (v : NodeId)
    (h : ∀ c ∈ g.denote .reads v, column c.1 c.2 = column' c.1 c.2) :
  g.denote (A.withColumns column) v = g.denote (A.withColumns column') v
  := by
  obtain ⟨i⟩ := v
  induction i using Nat.strongRecOn with
  | ind i ih =>
      rcases (g.node ⟨i⟩).kinds with ⟨t, name, hn⟩ | ⟨t, hn⟩ | hn | hn
      · rw [denote_column hg _ hn] at h
        rw [denote_column hg _ hn, denote_column hg _ hn]
        exact h (t, name) (List.mem_singleton_self _)
      · rw [denote_countStar hg _ hn, denote_countStar hg _ hn]
        rfl
      · rw [denote_relation hg _ hn, denote_relation hg _ hn]
        rfl
      · rw [denote_operator hg _ hn] at h
        rw [denote_operator hg _ hn, denote_operator hg _ hn]
        apply congrArg (A.operator _)
        apply List.map_congr_left
        intro c hc
        apply ih c.index (hg.child_lt hc)
        intro r hr
        exact h r (List.mem_flatten.mpr ⟨_, List.mem_map_of_mem hc, hr⟩)

/-- What a value reads comes before it. -/
theorem lt_of_mem_reads (hg : g.WellFounded) {v : NodeId} {c : NodeId × String}
    (hc : c ∈ g.denote .reads v) :
  c.1.index < v.index
  := by
  obtain ⟨i⟩ := v
  induction i using Nat.strongRecOn with
  | ind i ih =>
      rcases (g.node ⟨i⟩).kinds with ⟨t, name, hn⟩ | ⟨t, hn⟩ | hn | hn
      · rw [denote_column hg _ hn, Algebra.reads, List.mem_singleton] at hc
        subst hc
        apply hg.child_lt
        rw [hn]
        exact List.mem_singleton_self t
      · rw [denote_countStar hg _ hn] at hc
        cases hc
      · rw [denote_relation hg _ hn] at hc
        cases hc
      · rw [denote_operator hg _ hn] at hc
        obtain ⟨_, hpart, hmem⟩ := List.mem_flatten.mp hc
        obtain ⟨d, hd, rfl⟩ := List.mem_map.mp hpart
        have hlt := hg.child_lt hd
        exact Nat.lt_trans (ih d.index hlt hmem) hlt

end Graph

namespace Folding

variable {s : Folding} {g g' : Graph}

/-- The folded table `t` has its field `name` from the table `u`: from its input if it keeps rows of
that, from the left side of a join if that has the field and from the right side otherwise, and from
the first item of a projection that provides the name. -/
inductive PassedFrom (s : Folding) (g : Graph) (t : NodeId) (name : String) : NodeId → Prop where
  | input {u : NodeId} (hs : s.contains t = true) (hn : Graph.keptInput? (g.node t) = some u) :
      PassedFrom s g t name u
  | side {kind : JoinKind} {l r : NodeId} {predicates : List NodeId} (hs : s.contains t = true)
      (hn : g.node t = .join kind l r predicates) :
      PassedFrom s g t name (if g.hasField l name then l else r)
  | table {u : NodeId} {items : List NodeId} {item : NodeId} (hs : s.contains t = true)
      (hn : g.node t = .projection u items) (hp : items.find? (g.provides name) = some item)
      (hr : g.isRelation item = true) : PassedFrom s g t name item

/-- The value `item` is the first item of the folded projection `t` that provides the name. -/
structure DefinedBy (s : Folding) (g : Graph) (t : NodeId) (name : String) (item : NodeId) :
    Prop where
  folded : s.contains t = true
  node : ∃ u items, g.node t = .projection u items ∧ items.find? (g.provides name) = some item
  value : g.isRelation item = false

/-- The values `column` of all columns extend those that the algebra gives the columns of the tables
that are not folded. -/
structure Extends (s : Folding) (g : Graph) (A : Algebra α) (column : NodeId → String → α) :
    Prop where
  kept : ∀ t name, s.contains t = false → column t name = A.column t name
  passed : ∀ t name u, s.PassedFrom g t name u → column t name = column u name
  defined : ∀ t name item, s.DefinedBy g t name item →
    column t name = g.denote (A.withColumns column) item

/-- A column of a folded table takes its value from another column. -/
inductive TakenFrom (s : Folding) (g : Graph) : NodeId × String → NodeId × String → Prop where
  | passed {t u : NodeId} {name : String} (h : s.PassedFrom g t name u) :
      TakenFrom s g (t, name) (u, name)
  | defined {t item : NodeId} {name : String} {c : NodeId × String}
      (h : s.DefinedBy g t name item) (hc : c ∈ g.denote .reads item) : TakenFrom s g (t, name) c

/-- A column from which the value `v` takes its value: one that it reads, or one that such a column
is taken from. -/
def MadeFrom (s : Folding) (g : Graph) (v : NodeId) (c : NodeId × String) : Prop :=
  ∃ r ∈ g.denote .reads v, ReflTransGen (s.TakenFrom g) r c

/-- A field of a folded table is a field of the table that it has it from. -/
theorem PassedFrom.hasField (hg : g.WellFounded) {t u : NodeId} {name : String}
    (h : s.PassedFrom g t name u) (hname : g.hasField t name = true) :
  g.hasField u name = true
  := by
  cases h with
  | input _ hn => rwa [← Graph.hasField_kept hg hn name]
  | side _ hn =>
      obtain ⟨f, hf⟩ := Graph.exists_field? hname
      exact Graph.hasField_of_field? (Graph.field?_join hg hn hf)
  | table _ _ hp hr => exact Graph.hasField_of_provider hp hr

/-- The columns of the items of the folded projections name fields of their tables. -/
def ItemsReadFields (s : Folding) (g : Graph) : Prop :=
  ∀ t ∈ s.fused, ∀ i ∈ (g.node t).selected, ∀ c ∈ g.denote .reads i, g.hasField c.1 c.2 = true

instance (s : Folding) (g : Graph) : Decidable (s.ItemsReadFields g) :=
  inferInstanceAs (Decidable (∀ t ∈ s.fused, ∀ i ∈ (g.node t).selected,
    ∀ c ∈ g.denote .reads i, g.hasField c.1 c.2 = true))

/-- A value is made from fields if it reads fields and the folded projections do. -/
theorem MadeFrom.hasField (hg : g.WellFounded) (hitems : s.ItemsReadFields g) {v : NodeId}
    (hv : ∀ c ∈ g.denote .reads v, g.hasField c.1 c.2 = true) {c : NodeId × String}
    (h : s.MadeFrom g v c) :
  g.hasField c.1 c.2 = true
  := by
  obtain ⟨r, hr, htaken⟩ := h
  induction htaken with
  | refl => exact hv r hr
  | tail _ hstep ih =>
      cases hstep with
      | passed hpassed => exact hpassed.hasField hg ih
      | defined hdefined hc =>
          obtain ⟨u, items, hn, hp⟩ := hdefined.node
          refine hitems _ (List.contains_iff_mem.mp hdefined.folded) _ ?_ _ hc
          rw [hn]
          exact List.mem_of_find?_eq_some hp

/-- The ways in which a column resolves. -/
theorem resolve_column_ways (hg : g.WellFounded) (hs : ∀ t ∈ s.fused, g.Substitutes t)
    (t : NodeId) (name : String) :
  (∀ {α : Type} (A : Algebra α), (s.resolve .substitute A g t).column name = A.column t name)
      ∧ (s.contains t = true → g.hasField t name = false)
    ∨ (∃ u, s.PassedFrom g t name u ∧ u.index < t.index
      ∧ ∀ {α : Type} (A : Algebra α), (s.resolve .substitute A g t).column name
        = (s.resolve .substitute A g u).column name)
    ∨ ∃ item, s.DefinedBy g t name item ∧ item.index < t.index
      ∧ ∀ {α : Type} (A : Algebra α), (s.resolve .substitute A g t).column name
        = (s.resolve .substitute A g (g.unaliased item)).value
  := by
  have hc : ∀ c ∈ (g.node t).children, c.index < t.index := fun c hc => hg.child_lt hc
  have hcolumn : ∀ {α : Type} (A : Algebra α), (s.resolve .substitute A g t).column name
      = s.resolveColumn .substitute A g (s.resolve .substitute A g) t name :=
    fun A => Lift.resolve_column_eq hg A t name
  cases hfold : s.contains t with
  | false =>
      refine .inl ⟨fun A => ?_, nofun⟩
      rw [hcolumn, resolveColumn, hfold]
      rfl
  | true =>
      have hsub := hs t (List.contains_iff_mem.mp hfold)
      simp only [resolveColumn, hfold, Bool.not_true, Bool.false_or, reduceCtorEq, decide_false,
        Bool.false_and, Bool.false_eq_true, if_false] at hcolumn
      rw [Graph.Substitutes] at hsub
      cases hn : g.node t <;> rw [hn] at hsub hc
      case projection u items =>
        simp only [hn] at hcolumn
        cases hp : Lift.provider? g items name with
        | none =>
            simp only [hp] at hcolumn
            refine .inl ⟨hcolumn, fun _ => ?_⟩
            rw [Bool.eq_false_iff]
            intro hfield
            obtain ⟨item, hitem⟩ := Graph.exists_provides hg hn hsub hfield
            rw [hitem] at hp
            cases hp
        | some item =>
            simp only [hp] at hcolumn
            cases hr : g.isRelation item with
            | true =>
                refine .inr (.inl ⟨item, .table hfold hn hp hr, ?_, fun A => ?_⟩)
                · exact hc item (List.mem_cons_of_mem u (provider_mem hp))
                · rw [hcolumn, if_pos hr]
            | false =>
                refine .inr (.inr ⟨item, ⟨hfold, ⟨u, items, hn, hp⟩, hr⟩, ?_, fun A => ?_⟩)
                · exact hc item (List.mem_cons_of_mem u (provider_mem hp))
                · rw [hcolumn, if_neg (by simp [hr])]
      case join kind l r predicates =>
        simp only [hn] at hcolumn
        refine .inr (.inl ⟨_, .side hfold hn, ?_, hcolumn⟩)
        split
        · exact hc l (by simp [Node.children])
        · exact hc r (by simp [Node.children])
      case selection u _ | sort u _ | limit u _ _ | distinct u =>
        simp only [hn] at hcolumn
        refine .inr (.inl ⟨u, .input hfold (by rw [hn]; rfl), ?_, hcolumn⟩)
        exact hc u List.mem_cons_self
      all_goals cases hsub

/-! ### What a lifted value reads -/

/-- A value reads, once its columns are resolved, what these resolve to. -/
theorem reads_resolved (hg : g.WellFounded) (v : NodeId) :
  (s.resolve .substitute .reads g v).value
    = (g.denote .reads v).flatMap fun c => (s.resolve .substitute .reads g c.1).column c.2
  := by
  obtain ⟨i⟩ := v
  induction i using Nat.strongRecOn with
  | ind i ih =>
      rw [Lift.resolve_value_eq hg]
      rcases (g.node ⟨i⟩).kinds with ⟨t, name, hn⟩ | ⟨t, hn⟩ | hn | hn
      · rw [Graph.denote_column hg _ hn, resolveValue, hn]
        exact (List.append_nil _).symm
      · rw [Graph.denote_countStar hg _ hn, resolveValue, hn]
        rfl
      · rw [Graph.denote_relation hg _ hn, resolveValue_relation _ _ hn]
        rfl
      · rw [Graph.denote_operator hg _ hn, resolveValue_operator _ _ hn]
        have hoperands : ∀ cs : List NodeId, (∀ c ∈ cs, c.index < i) →
            (cs.map fun c => (s.resolve .substitute .reads g c).value).flatten
              = ((cs.map (g.denote .reads)).flatten).flatMap
                fun c => (s.resolve .substitute .reads g c.1).column c.2 := by
          intro cs hcs
          induction cs with
          | nil => rfl
          | cons c rest ihrest =>
              obtain ⟨hc, hrest⟩ := List.forall_mem_cons.mp hcs
              rw [List.map_cons, List.map_cons, List.flatten_cons, List.flatten_cons,
                List.flatMap_append, ihrest hrest, ih c.index hc]
        exact hoperands _ fun c hc => hg.child_lt hc

/-- A column resolves to what reads columns that it is taken from, and names no field of its table
if that is folded. -/
theorem takenFrom_of_resolved (hg : g.WellFounded) (hs : ∀ t ∈ s.fused, g.Substitutes t)
    (t : NodeId) (name : String) {c : NodeId × String}
    (hc : c ∈ (s.resolve .substitute .reads g t).column name) :
  ReflTransGen (s.TakenFrom g) (t, name) c ∧ (s.contains c.1 = true → g.hasField c.1 c.2 = false)
  := by
  obtain ⟨i⟩ := t
  induction i using Nat.strongRecOn generalizing name with
  | ind i ih =>
      rcases resolve_column_ways hg hs ⟨i⟩ name with ⟨hkept, hfield⟩ | ⟨u, hpassed, hlt, hres⟩
        | ⟨item, hdefined, hlt, hres⟩
      · rw [hkept, Algebra.reads, List.mem_singleton] at hc
        subst hc
        exact ⟨.refl, hfield⟩
      · rw [hres] at hc
        obtain ⟨htrans, hfield⟩ := ih u.index hlt name hc
        exact ⟨.head (.passed hpassed) htrans, hfield⟩
      · -- the item reads as much with its aliases as without them
        rw [hres, reads_resolved hg, List.mem_flatMap] at hc
        obtain ⟨r, hread, hc⟩ := hc
        have hread' : r ∈ g.denote .reads item := by
          rwa [Graph.denote_unaliased hg] at hread
          intro name value
          exact List.append_nil value
        have hbefore := Graph.lt_of_mem_reads hg hread'
        obtain ⟨htrans, hfield⟩ := ih r.1.index (Nat.lt_trans hbefore hlt) r.2 hc
        exact ⟨.head (.defined hdefined hread') htrans, hfield⟩

/-- A value resolves to what reads columns that the value is made from.  Those of folded tables name
no fields of these. -/
theorem madeFrom_of_resolved (hg : g.WellFounded) (hs : ∀ t ∈ s.fused, g.Substitutes t)
    {v : NodeId} {c : NodeId × String} (hc : c ∈ (s.resolve .substitute .reads g v).value) :
  s.MadeFrom g v c ∧ (s.contains c.1 = true → g.hasField c.1 c.2 = false)
  := by
  rw [reads_resolved hg, List.mem_flatMap] at hc
  obtain ⟨r, hread, hc⟩ := hc
  obtain ⟨htrans, hfield⟩ := takenFrom_of_resolved hg hs r.1 r.2 hc
  exact ⟨⟨r, hread, htrans⟩, hfield⟩

/-! ### What a lifted value means -/

variable {A : Algebra α} {column : NodeId → String → α}

/-- Columns have the values that they resolve to, in an algebra of extended values. -/
theorem Extends.resolve_column (h : s.Extends g A column) (hg : g.WellFounded)
    (hs : ∀ t ∈ s.fused, g.Substitutes t) (hA : A.Transparent) (t : NodeId) (name : String) :
  (s.resolve .substitute (A.withColumns column) g t).column name = column t name
  := by
  obtain ⟨i⟩ := t
  induction i using Nat.strongRecOn generalizing name with
  | ind i ih =>
      rcases resolve_column_ways hg hs ⟨i⟩ name with ⟨hkept, _⟩ | ⟨u, hpassed, hlt, hres⟩
        | ⟨item, hdefined, hlt, hres⟩
      · rw [hkept]
        rfl
      · rw [hres, ih u.index hlt, h.passed _ _ _ hpassed]
      · rw [hres, resolve_unaliased hg (hA.withColumns column), resolve_value hg,
          h.defined _ _ _ hdefined]
        apply Graph.denote_withColumns_congr hg A
          (fun t => (s.resolve .substitute (A.withColumns column) g t).column) column
        intro c hc
        exact ih c.1.index (Nat.lt_trans (Graph.lt_of_mem_reads hg hc) hlt) c.2

/-- A value resolves to what it means for extended values of the columns. -/
theorem Extends.resolve_value_eq (h : s.Extends g A column) (hg : g.WellFounded)
    (hs : ∀ t ∈ s.fused, g.Substitutes t) (hA : A.Transparent) (v : NodeId) :
  (s.resolve .substitute (A.withColumns column) g v).value = g.denote (A.withColumns column) v
  := by
  rw [resolve_value hg]
  apply Graph.denote_withColumns_congr hg A
    (fun t => (s.resolve .substitute (A.withColumns column) g t).column) column
  exact fun c _ => h.resolve_column hg hs hA c.1 c.2

/-- Any values of the columns of the tables that are not folded can be extended. -/
theorem exists_extends (hg : g.WellFounded) (s : Folding) (hA : A.Transparent) :
  ∃ column, s.Extends g A column
  := by
  have hcolumn : ∀ t name, (s.resolve .substitute A g t).column name
      = s.resolveColumn .substitute A g (s.resolve .substitute A g) t name :=
    fun t name => Lift.resolve_column_eq hg A t name
  have hfolded : ∀ {t}, s.contains t = true → ¬(!s.contains t || (LiftMode.substitute = .output
      && s.outputs.contains t)) = true := by
    intro t ht
    simp [ht]
  use fun t name => (s.resolve .substitute A g t).column name
  constructor
  · intro t name ht
    rw [hcolumn, resolveColumn, ht]
    rfl
  · intro t name u hpassed
    rw [hcolumn, resolveColumn]
    cases hpassed with
    | input hs hn =>
        rw [if_neg (hfolded hs)]
        cases hnode : g.node t <;> rw [hnode] at hn <;> cases hn <;> rfl
    | side hs hn =>
        rw [if_neg (hfolded hs), hn]
        rfl
    | table hs hn hp hr =>
        rw [if_neg (hfolded hs), hn]
        simp only [Lift.provider?, hp, hr, if_true]
  · intro t name item hdefined
    obtain ⟨hs, ⟨u, items, hn, hp⟩, hr⟩ := hdefined
    rw [hcolumn, resolveColumn, if_neg (hfolded hs), hn]
    simp only [Lift.provider?, hp, hr, Bool.false_eq_true, if_false]
    rw [resolve_unaliased hg hA, resolve_value hg]
    rfl

end Folding

namespace Lift

variable {s : Folding} {g : Graph}

/-- Lifting is substitution.  Values of the columns of the tables that are not folded can be
extended to the folded tables, and however they are extended, a value that is lifted keeps its
value.  What it reads of a folded table names no field of that, so it reads none if the columns
from which the given value is made name fields of their tables, and then its value does not
depend on the extension. -/
theorem value_substitutes (hg : g.WellFounded) (hs : ∀ t ∈ s.fused, g.Substitutes t)
    {A : Algebra α} (hA : A.Transparent) {v l : NodeId} {g' : Graph} (hv : g.Has v)
    (hl : run (value s .substitute v) g = (l, g')) :
  (∃ column, s.Extends g A column)
    ∧ (∀ column, s.Extends g A column →
      g'.denote (A.withColumns column) l = g.denote (A.withColumns column) v)
    ∧ (∀ c ∈ g'.denote .reads l, s.contains c.1 = true → g.hasField c.1 c.2 = false)
    ∧ ((∀ c, s.MadeFrom g v c → g.hasField c.1 c.2 = true) →
      (∀ c ∈ g'.denote .reads l, s.contains c.1 = false)
        ∧ ∀ column, s.Extends g A column →
          g'.denote A l = g.denote (A.withColumns column) v)
  := by
  obtain ⟨hg', e, hlifts⟩ := run_spec (keeps_value (sound_empty hg s .substitute) hv)
  rw [hl] at hg' e hlifts
  have hdenote : ∀ {β : Type} (B : Algebra β),
      g'.denote B l = (s.resolve .substitute B g v).value := by
    intro β B
    rw [hlifts.denote, Folding.resolve_extends e hg hg' hv]
  have hmeans : ∀ column, s.Extends g A column →
      g'.denote (A.withColumns column) l = g.denote (A.withColumns column) v := by
    intro column hcolumn
    rw [hdenote, hcolumn.resolve_value_eq hg hs hA]
  have hreads : ∀ c ∈ g'.denote .reads l, s.MadeFrom g v c
      ∧ (s.contains c.1 = true → g.hasField c.1 c.2 = false) := by
    intro c hc
    rw [hdenote] at hc
    exact Folding.madeFrom_of_resolved hg hs hc
  refine ⟨Folding.exists_extends hg s hA, hmeans, fun c hc => (hreads c hc).2, fun hfields => ?_⟩
  have hunfolded : ∀ c ∈ g'.denote .reads l, s.contains c.1 = false := by
    intro c hc
    obtain ⟨hmade, hfield⟩ := hreads c hc
    rw [Bool.eq_false_iff]
    intro hfold
    rw [hfields c hmade] at hfield
    cases hfield hfold
  refine ⟨hunfolded, fun column hcolumn => ?_⟩
  rw [← hmeans column hcolumn]
  apply Graph.denote_withColumns_congr hg' A A.column column
  intro c hc
  exact (hcolumn.kept _ _ (hunfolded c hc)).symm

/-- The opposite of a field of a join with a filter, and the whole join. -/
def positiveJoin : Graph := ⟨#[
  .table ⟨some "t", none, ⟨[⟨"x", .int32⟩]⟩⟩,
  .table ⟨some "u", none, ⟨[⟨"z", .int32⟩]⟩⟩,
  .column ⟨0⟩ "x",
  .literal (.integer 0),
  .binary .gt ⟨2⟩ ⟨3⟩,
  .selection ⟨0⟩ [⟨4⟩],
  .join .cross ⟨5⟩ ⟨1⟩ [],
  .column ⟨6⟩ "x",
  .unary .negate ⟨7⟩,
  .named ⟨8⟩ "y",
  .projection ⟨6⟩ [⟨9⟩, ⟨6⟩],
  .column ⟨10⟩ "y",
  .binary .add ⟨11⟩ ⟨11⟩]⟩

/-- Integers, with their sums and opposites; every column is three. -/
def threes : Algebra Int where
  column _ _ := 3
  count _ := 0
  table _ := 0
  operator
    | .named _ _, [v] => v
    | .unary .negate _, [v] => -v
    | .binary .add _ _, [v, w] => v + w
    | _, _ => 0

/-- The operators of the graph between its last value and its two tables. -/
def joinFolding : Folding :=
  .of [⟨5⟩, ⟨6⟩, ⟨10⟩]

/-- The sum is one of opposites of a column of the first table, which takes the folding away. -/
theorem value_substitutes_positiveJoin :
  ∃ l g' column, run (value joinFolding .substitute ⟨12⟩) positiveJoin = (l, g')
    ∧ joinFolding.Extends positiveJoin threes column ∧ g'.denote threes l = -6
    ∧ positiveJoin.denote (threes.withColumns column) ⟨12⟩ = -6
    ∧ g'.denote .reads l = [(⟨0⟩, "x"), (⟨0⟩, "x")]
  := by
  obtain ⟨l, g', hl⟩ : ∃ l g', run (value joinFolding .substitute ⟨12⟩) positiveJoin = (l, g') :=
    ⟨_, _, rfl⟩
  have hdenote : g'.denote threes l = -6 := by
    have h : (run (value joinFolding .substitute ⟨12⟩) positiveJoin).2.denote threes
        (run (value joinFolding .substitute ⟨12⟩) positiveJoin).1 = -6 := by decide
    rwa [hl] at h
  have hreads : g'.denote .reads l = [(⟨0⟩, "x"), (⟨0⟩, "x")] := by
    have h : (run (value joinFolding .substitute ⟨12⟩) positiveJoin).2.denote .reads
        (run (value joinFolding .substitute ⟨12⟩) positiveJoin).1
          = [(⟨0⟩, "x"), (⟨0⟩, "x")] := by decide
    rwa [hl] at h
  have hsubstitutes : ∀ t ∈ joinFolding.fused, positiveJoin.Substitutes t := by
    intro t ht
    simp only [joinFolding, Folding.of, List.mem_cons, List.not_mem_nil, or_false] at ht
    rcases ht with rfl | rfl | rfl
    · trivial
    · trivial
    · intro i hi
      simp only [List.mem_cons, List.not_mem_nil, or_false] at hi
      rcases hi with rfl | rfl
      · exact .inr rfl
      · exact .inl rfl
  obtain ⟨⟨column, hcolumn⟩, _, _, hfields⟩ := value_substitutes (A := threes) (by decide)
    hsubstitutes (fun _ _ => rfl) (by decide) hl
  have hmade : ∀ c, joinFolding.MadeFrom positiveJoin ⟨12⟩ c →
      positiveJoin.hasField c.1 c.2 = true := by
    intro c hc
    exact hc.hasField (by decide) (by decide +kernel) (by decide)
  obtain ⟨_, hmeans⟩ := hfields hmade
  exact ⟨l, g', column, hl, hcolumn, hdenote, (hmeans column hcolumn).symm.trans hdenote, hreads⟩

/-- Whether a column of a projection is missing is a field of another one; the column names no
field. -/
def danglingItem : Graph := ⟨#[
  .table ⟨some "t", none, ⟨[⟨"x", .int32⟩]⟩⟩,
  .column ⟨0⟩ "x",
  .projection ⟨0⟩ [⟨1⟩],
  .column ⟨2⟩ "z",
  .unary .isNull ⟨3⟩,
  .named ⟨4⟩ "y",
  .projection ⟨2⟩ [⟨5⟩],
  .column ⟨6⟩ "y"]⟩

/-- The last column names a field, and what it is lifted to reads the first projection, although
both projections are folded. -/
theorem reads_danglingItem :
  danglingItem.WellFounded ∧ (∀ t ∈ [(⟨2⟩ : NodeId), ⟨6⟩], danglingItem.Substitutes t)
    ∧ (∀ c ∈ danglingItem.denote .reads ⟨7⟩, danglingItem.hasField c.1 c.2 = true)
    ∧ (run (value (.of [⟨2⟩, ⟨6⟩]) .substitute ⟨7⟩) danglingItem).2.denote .reads
        (run (value (.of [⟨2⟩, ⟨6⟩]) .substitute ⟨7⟩) danglingItem).1 = [(⟨2⟩, "z")]
    ∧ (Folding.of [⟨2⟩, ⟨6⟩]).contains ⟨2⟩ = true
  := by
  refine ⟨by decide, ?_, by decide, by decide, rfl⟩
  intro t ht
  simp only [List.mem_cons, List.not_mem_nil, or_false] at ht
  rcases ht with rfl | rfl
  · exact List.forall_mem_singleton.mpr (.inr rfl)
  · exact List.forall_mem_singleton.mpr (.inr rfl)

end Lift

end RelSql
