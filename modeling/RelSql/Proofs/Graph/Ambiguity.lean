import Mathlib.Logic.Relation
import RelSql.Graph.Build
import RelSql.Proofs.Graph.Fields

/-!
# Ambiguous fields

A table passes a field on from the table below that provides it, down to the join that merges the
fields of two sides.  A join both of whose sides have the field keeps only one of the two, and the
name is ambiguous.  Looking for such a join stops at a view, so a column of a view is accepted
whatever stands below the view, and any other column just when no such join is reached.
-/

namespace RelSql.Graph

open Relation

variable {g : Graph} {t u w : NodeId} {name : String}

/-- The field `name` of the table `t` is passed on from the table `u` right below. -/
inductive PassesField (g : Graph) (name : String) (t : NodeId) : NodeId → Prop where
  | view {u : NodeId} (hn : g.node t = .view u) : PassesField g name t u
  | kept {u : NodeId} (hn : keptInput? (g.node t) = some u) : PassesField g name t u
  /-- The item that provides the field is a whole table. -/
  | item {input item : NodeId} {items : List NodeId} (hn : g.node t = .projection input items)
      (hitem : Lift.provider? g items name = some item) (hr : g.isRelation item = true) :
    PassesField g name t item
  /-- A semi join or an anti join has the fields of its left side only. -/
  | leftOnly {kind : JoinKind} {l r : NodeId} {predicates : List NodeId}
      (hn : g.node t = .join kind l r predicates) (hkind : kind.leftOnly = true) :
    PassesField g name t l
  | left {kind : JoinKind} {l r : NodeId} {predicates : List NodeId}
      (hn : g.node t = .join kind l r predicates) (hkind : kind.leftOnly = false)
      (hl : g.hasField l name = true) (hr : g.hasField r name = false) : PassesField g name t l
  | right {kind : JoinKind} {l r : NodeId} {predicates : List NodeId}
      (hn : g.node t = .join kind l r predicates) (hkind : kind.leftOnly = false)
      (hl : g.hasField l name = false) (hr : g.hasField r name = true) : PassesField g name t r

/-- A table is a join that has the fields of both sides, and both have a field of the name. -/
def Collides (g : Graph) (name : String) (t : NodeId) : Prop :=
  ∃ kind l r predicates, g.node t = .join kind l r predicates ∧ kind.leftOnly = false
    ∧ g.hasField l name = true ∧ g.hasField r name = true

/-- The field of a table is passed on from a join in which it collides, through tables for which
`P` holds. -/
def CollidesBelow (g : Graph) (P : NodeId → Prop) (name : String) (t : NodeId) : Prop :=
  ∃ u, ReflTransGen (fun t u => g.PassesField name t u ∧ P t) t u ∧ g.Collides name u

/-- Whether a table is a view. -/
def IsView (g : Graph) (t : NodeId) : Prop :=
  ∃ u, g.node t = .view u

/-- A field collides below a table when it collides in it, or below the table that it is passed on
from. -/
theorem collidesBelow_iff {P : NodeId → Prop} :
  g.CollidesBelow P name t
    ↔ g.Collides name t ∨ ∃ u, (g.PassesField name t u ∧ P t) ∧ g.CollidesBelow P name u
  := by
  constructor
  · rintro ⟨w, hpath, hw⟩
    rcases hpath.cases_head with rfl | ⟨u, hstep, hpath⟩
    · exact .inl hw
    · exact .inr ⟨u, hstep, w, hpath, hw⟩
  · rintro (h | ⟨u, hstep, w, hpath, hw⟩)
    · exact ⟨t, .refl, h⟩
    · exact ⟨w, .head hstep hpath, hw⟩

/-- A field collides below a table that is no join when it collides below the table that it is
passed on from. -/
theorem collidesBelow_iff_of_passes {P : NodeId → Prop} (ht : P t) (hjoin : g.isJoin t = false)
    (h : ∀ w, g.PassesField name t w ↔ w = u) :
  g.CollidesBelow P name t ↔ g.CollidesBelow P name u
  := by
  have hnot : ¬ g.Collides name t := by
    rintro ⟨kind, l, r, predicates, hn, _⟩
    rw [isJoin, hn] at hjoin
    cases hjoin
  rw [collidesBelow_iff, or_iff_right hnot]
  simp only [h, ht, and_true, exists_eq_left]

/-- One step of looking for a collision. -/
theorem isAmbiguous_step (hg : g.WellFounded) (t : NodeId) (name : String) :
  g.isAmbiguous t name = match g.node t with
    | .selection t _ | .sort t _ | .limit t _ _ | .distinct t => g.isAmbiguous t name
    | .projection _ selections =>
      match Lift.provider? g selections name with
      | some item => g.isRelation item && g.isAmbiguous item name
      | none => false
    | .join kind l r _ =>
      if kind.leftOnly then g.isAmbiguous l name
      else
        match g.hasField l name, g.hasField r name with
        | true, true => true
        | true, false => g.isAmbiguous l name
        | false, true => g.isAmbiguous r name
        | false, false => false
    | _ => false
  := by
  apply NodeId.recurse_eq
  intro f f' id h
  have hc : ∀ c ∈ (g.node id).children, f c = f' c := fun c hc => h c (hg.child_lt hc)
  cases hn : g.node id <;> rw [hn] at hc
  all_goals simp only [hn]
  case selection | sort | limit | distinct => exact hc _ List.mem_cons_self
  case projection input items =>
    cases hitem : List.find? (g.provides name) items with
    | none => rfl
    | some item => simp only [hc item (List.mem_cons_of_mem _ (List.mem_of_find?_eq_some hitem))]
  case join kind l r predicates =>
    simp only [hc l (by simp [Node.children]), hc r (by simp [Node.children])]

/-- A table that is neither a view nor a join, and passes the field on from no table, is no
collision. -/
theorem not_collidesBelow {P : NodeId → Prop} (hjoin : g.isJoin t = false)
    (h : ∀ w, ¬ (g.PassesField name t w ∧ P t)) :
  ¬ g.CollidesBelow P name t
  := by
  rw [collidesBelow_iff]
  rintro (⟨kind, l, r, predicates, hn, _⟩ | ⟨w, hstep, _⟩)
  · rw [isJoin, hn] at hjoin
    cases hjoin
  · exact h w hstep

/-- A projection passes a field on from the table among its items that provides it. -/
theorem passesField_projection {input : NodeId} {items : List NodeId}
    (hn : g.node t = .projection input items) :
  g.PassesField name t w ↔ Lift.provider? g items name = some w ∧ g.isRelation w = true
  := by
  constructor
  · intro h
    cases h with
    | item hn' hitem hr =>
        obtain ⟨_, rfl⟩ := Node.projection.inj (hn.symm.trans hn')
        exact ⟨hitem, hr⟩
    | kept hn' =>
        rw [hn] at hn'
        cases hn'
    | view hn' | leftOnly hn' | left hn' | right hn' => cases hn.symm.trans hn'
  · exact fun ⟨hitem, hr⟩ => .item hn hitem hr

/-- A selection, a sort, a limit or a distinct passes every field on from its input. -/
theorem passesField_kept (hn : keptInput? (g.node t) = some u) :
  g.PassesField name t w ↔ w = u
  := by
  constructor
  · intro h
    cases h with
    | kept hn' => exact (Option.some.inj (hn.symm.trans hn')).symm
    | view hn' | item hn' | leftOnly hn' | left hn' | right hn' =>
        rw [hn'] at hn
        cases hn
  · rintro rfl
    exact .kept hn

/-- A join passes a field on from the only side that has it, if it has the fields of both. -/
theorem passesField_join {kind : JoinKind} {l r : NodeId} {predicates : List NodeId}
    (hn : g.node t = .join kind l r predicates) :
  g.PassesField name t w ↔ (kind.leftOnly = true ∧ w = l)
    ∨ (kind.leftOnly = false ∧ g.hasField l name = true ∧ g.hasField r name = false ∧ w = l)
    ∨ (kind.leftOnly = false ∧ g.hasField l name = false ∧ g.hasField r name = true ∧ w = r)
  := by
  constructor
  · intro h
    cases h with
    | leftOnly hn' hkind =>
        obtain ⟨rfl, rfl, rfl, _⟩ := Node.join.inj (hn.symm.trans hn')
        exact .inl ⟨hkind, rfl⟩
    | left hn' hkind hl hr =>
        obtain ⟨rfl, rfl, rfl, _⟩ := Node.join.inj (hn.symm.trans hn')
        exact .inr (.inl ⟨hkind, hl, hr, rfl⟩)
    | right hn' hkind hl hr =>
        obtain ⟨rfl, rfl, rfl, _⟩ := Node.join.inj (hn.symm.trans hn')
        exact .inr (.inr ⟨hkind, hl, hr, rfl⟩)
    | kept hn' =>
        rw [hn] at hn'
        cases hn'
    | view hn' | item hn' => cases hn.symm.trans hn'
  · rintro (⟨hkind, rfl⟩ | ⟨hkind, hl, hr, rfl⟩ | ⟨hkind, hl, hr, rfl⟩)
    · exact .leftOnly hn hkind
    · exact .left hn hkind hl hr
    · exact .right hn hkind hl hr

theorem collides_join {kind : JoinKind} {l r : NodeId} {predicates : List NodeId}
    (hn : g.node t = .join kind l r predicates) :
  g.Collides name t
    ↔ kind.leftOnly = false ∧ g.hasField l name = true ∧ g.hasField r name = true
  := by
  constructor
  · rintro ⟨_, _, _, _, hn', h⟩
    obtain ⟨rfl, rfl, rfl, _⟩ := Node.join.inj (hn.symm.trans hn')
    exact h
  · exact fun h => ⟨kind, l, r, predicates, hn, h⟩

/-- A name collides below a projection when it does at or below the table that provides it. -/
theorem collidesBelow_projection {P : NodeId → Prop} {input : NodeId} {items : List NodeId}
    (hn : g.node t = .projection input items) (ht : P t) :
  g.CollidesBelow P name t ↔ ∃ item, Lift.provider? g items name = some item
    ∧ g.isRelation item = true ∧ g.CollidesBelow P name item
  := by
  have hnot : ¬ g.Collides name t := by
    rintro ⟨_, _, _, _, hn', _⟩
    cases hn.symm.trans hn'
  rw [collidesBelow_iff, or_iff_right hnot]
  simp only [passesField_projection hn, ht, and_true, and_assoc]

/-- A name is ambiguous when it collides below the table, without a view in between. -/
theorem isAmbiguous_iff (hg : g.WellFounded) (t : NodeId) (name : String) :
  g.isAmbiguous t name = true ↔ g.CollidesBelow (fun u => ¬ g.IsView u) name t
  := by
  obtain ⟨i⟩ := t
  induction i using Nat.strongRecOn with
  | ind i ih =>
      have hbelow : ∀ c ∈ (g.node ⟨i⟩).children, g.isAmbiguous c name = true
          ↔ g.CollidesBelow (fun u => ¬ g.IsView u) name c :=
        fun c hc => ih c.index (hg.child_lt hc)
      rw [isAmbiguous_step hg]
      cases hn : g.node ⟨i⟩ <;> rw [hn] at hbelow
      case view u =>
        exact iff_of_false Bool.false_ne_true
          (not_collidesBelow (by rw [isJoin, hn]) fun _ h => h.2 ⟨u, hn⟩)
      case selection | sort | limit | distinct =>
        have hview : ¬ g.IsView ⟨i⟩ := by
          rintro ⟨_, h⟩
          cases hn.symm.trans h
        rw [collidesBelow_iff_of_passes (P := fun u => ¬ g.IsView u) hview (by rw [isJoin, hn])
          fun w => passesField_kept (by rw [hn]; rfl)]
        exact hbelow _ List.mem_cons_self
      case projection input items =>
        have hview : ¬ g.IsView ⟨i⟩ := by
          rintro ⟨_, h⟩
          cases hn.symm.trans h
        rw [collidesBelow_projection (P := fun u => ¬ g.IsView u) hn hview]
        simp only
        cases hitem : Lift.provider? g items name with
        | none => simp
        | some item =>
            have hprovided := hbelow item (List.mem_cons_of_mem _ (Folding.provider_mem hitem))
            simp [hprovided]
      case join kind l r predicates =>
        have hview : ¬ g.IsView ⟨i⟩ := by
          rintro ⟨_, h⟩
          cases hn.symm.trans h
        have hl := hbelow l (by simp [Node.children])
        have hr := hbelow r (by simp [Node.children])
        rw [collidesBelow_iff]
        simp only [collides_join hn, passesField_join hn]
        cases kind.leftOnly <;> cases g.hasField l name <;> cases g.hasField r name <;>
          simp [hview, hl, hr]
      all_goals
        refine iff_of_false Bool.false_ne_true
          (not_collidesBelow (by rw [isJoin, hn]) fun w h => ?_)
        rcases h.1 with hn' | hn' | hn' | hn' | hn' | hn'
        all_goals
          rw [hn] at hn'
          cases hn'

/-! ### Columns -/

/-- A column of the name can be added for the table. -/
def Accepts (g : Graph) (t : NodeId) (name : String) : Prop :=
  ∃ added, g.column t name = .ok added

/-- A column is only added for a field of its table. -/
theorem Accepts.hasField (h : g.Accepts t name) :
  g.hasField t name = true
  := by
  obtain ⟨added, h⟩ := h
  rw [column] at h
  split at h
  case isTrue => cases h
  case isFalse =>
      obtain ⟨s, hs, h⟩ := exists_of_bind_eq_ok h
      obtain ⟨f, hf, _⟩ := exists_of_bind_eq_ok h
      rw [← isSome_field?, field?_of_schema hs]
      rw [Schema.field] at hf
      cases hfound : s.field? name with
      | some f => rfl
      | none =>
          rw [hfound] at hf
          cases hf

/-- A column of a field is added unless the name is ambiguous. -/
theorem column_of_hasField (hg : g.WellFounded) (h : g.hasField t name = true) :
  g.column t name = if g.isAmbiguous t name then .error (.ambiguousReference name t.text)
    else .ok (g.push (.column t name))
  := by
  obtain ⟨f, hf⟩ := exists_field? h
  obtain ⟨s, hs, hf⟩ := exists_schema_of_field? hf
  have hfield : s.field name = .ok f := by rw [Schema.field, hf]
  rw [column, isRelation_of_schema hg hs, hs]
  simp only [Bool.not_true, Bool.false_eq_true, if_false, bind, Except.bind, hfield]
  rfl

theorem accepts_iff_isAmbiguous (hg : g.WellFounded) (t : NodeId) (name : String) :
  g.Accepts t name ↔ g.hasField t name = true ∧ g.isAmbiguous t name = false
  := by
  constructor
  · intro h
    refine ⟨h.hasField, ?_⟩
    obtain ⟨added, hadded⟩ := id h
    rw [column_of_hasField hg h.hasField] at hadded
    cases hambiguous : g.isAmbiguous t name with
    | false => rfl
    | true =>
        rw [hambiguous, if_pos rfl] at hadded
        cases hadded
  · rintro ⟨hfield, hambiguous⟩
    exact ⟨_, (column_of_hasField hg hfield).trans (if_neg (Bool.eq_false_iff.mp hambiguous))⟩

/-- Where no view is reached, it makes no difference that the search stops at views. -/
theorem collidesBelow_of_noView
    (h : ∀ u, ReflTransGen (g.PassesField name) t u → ¬ g.IsView u) :
  g.CollidesBelow (fun u => ¬ g.IsView u) name t ↔ g.CollidesBelow (fun _ => True) name t
  := by
  constructor
  · rintro ⟨u, hpath, hu⟩
    exact ⟨u, ReflTransGen.mono (fun _ _ hstep => ⟨hstep.1, trivial⟩) _ _ hpath, hu⟩
  · rintro ⟨u, hpath, hu⟩
    refine ⟨u, ?_, hu⟩
    clear hu
    induction hpath with
    | refl => exact .refl
    | tail hpath hstep ih =>
        have hreached := ReflTransGen.mono (fun _ _ hstep => hstep.1) _ _ hpath
        exact ih.tail ⟨hstep.1, h _ hreached⟩

/-- The answer to a column of a field: it is added where no collision is passed on, and otherwise
the name is reported as ambiguous. -/
theorem column_of_collidesBelow (hg : g.WellFounded) (h : g.hasField t name = true)
    (hbelow : g.CollidesBelow (fun u => ¬ g.IsView u) name t) :
  g.column t name = .error (.ambiguousReference name t.text)
  := by
  rw [column_of_hasField hg h, if_pos ((isAmbiguous_iff hg t name).mpr hbelow)]

theorem accepts_iff_collidesBelow (hg : g.WellFounded) (t : NodeId) (name : String) :
  g.Accepts t name ↔ g.hasField t name = true ∧ ¬ g.CollidesBelow (fun u => ¬ g.IsView u) name t
  := by
  rw [accepts_iff_isAmbiguous hg, ← isAmbiguous_iff hg, Bool.not_eq_true]

/-- A table that only filters, orders or cuts off another one accepts the same names. -/
theorem accepts_kept (hg : g.WellFounded) (hn : keptInput? (g.node w) = some t)
    (name : String) :
  g.Accepts w name ↔ g.Accepts t name
  := by
  have hview : ¬ g.IsView w := by
    rintro ⟨u, hu⟩
    rw [hu] at hn
    cases hn
  have hjoin : g.isJoin w = false := by
    rw [isJoin]
    cases hw : g.node w with
    | join =>
        rw [hw] at hn
        cases hn
    | _ => rfl
  rw [accepts_iff_collidesBelow hg, accepts_iff_collidesBelow hg, hasField_kept hg hn,
    collidesBelow_iff_of_passes (P := fun u => ¬ g.IsView u) hview hjoin
      fun _ => passesField_kept hn]

/-- A view accepts every field of its table, ambiguous or not. -/
theorem accepts_view (hg : g.WellFounded) (hn : g.node w = .view t) (name : String) :
  g.Accepts w name ↔ g.hasField t name = true
  := by
  have hschema : g.schema w = g.schema t := by rw [Graph.schema_eq hg, schemaStep, hn]; rfl
  rw [accepts_iff_collidesBelow hg, hasField, hschema, ← hasField]
  exact and_iff_left (not_collidesBelow (by rw [isJoin, hn]) fun _ h => h.2 ⟨t, hn⟩)

/-- A column of a table is added when the table has a field of the name and no join in which two
of them collide passes the field on to the table; a collision is reported.  It is seen through a
selection, a sort, a limit, a distinct, the left side of a semi join or an anti join and the table
that provides the field to a projection, but not through a view: a view accepts every field. -/
theorem column_accepted (hg : g.WellFounded) (t : NodeId) (name : String) :
  (g.Accepts t name
      ↔ g.hasField t name = true ∧ ¬ g.CollidesBelow (fun u => ¬ g.IsView u) name t)
    ∧ (g.hasField t name = true → g.CollidesBelow (fun u => ¬ g.IsView u) name t →
        g.column t name = .error (.ambiguousReference name t.text))
    ∧ ((∀ u, ReflTransGen (g.PassesField name) t u → ¬ g.IsView u) →
        (g.Accepts t name
            ↔ g.hasField t name = true ∧ ¬ g.CollidesBelow (fun _ => True) name t)
          ∧ (g.hasField t name = true → g.CollidesBelow (fun _ => True) name t →
              g.column t name = .error (.ambiguousReference name t.text)))
    ∧ (∀ w, keptInput? (g.node w) = some t → (g.Accepts w name ↔ g.Accepts t name))
    ∧ ∀ w, g.node w = .view t → (g.Accepts w name ↔ g.hasField t name = true)
  := by
  refine ⟨accepts_iff_collidesBelow hg t name, column_of_collidesBelow hg, fun hview => ?_,
    fun w hn => accepts_kept hg hn name, fun w hn => accepts_view hg hn name⟩
  rw [← collidesBelow_of_noView hview]
  exact ⟨accepts_iff_collidesBelow hg t name, column_of_collidesBelow hg⟩

/-- The view of a join of two tables that both have the field `k`. -/
def viewOfCollision : Graph :=
  ⟨#[.table ⟨some "a", none, ⟨[⟨"k", .int64⟩]⟩⟩, .table ⟨some "b", none, ⟨[⟨"k", .int64⟩]⟩⟩,
    .column ⟨0⟩ "k", .column ⟨1⟩ "k", .binary .eq ⟨2⟩ ⟨3⟩,
    .join .inner ⟨0⟩ ⟨1⟩ [⟨4⟩], .view ⟨5⟩]⟩

/-- The join reports the name, and its view accepts it. -/
theorem column_accepted_viewOfCollision :
  viewOfCollision.WellFounded
    ∧ viewOfCollision.column ⟨5⟩ "k" = .error (.ambiguousReference "k" "#5")
    ∧ viewOfCollision.Accepts ⟨6⟩ "k"
    ∧ viewOfCollision.CollidesBelow (fun _ => True) "k" ⟨6⟩
  := by
  have hg : viewOfCollision.WellFounded := by decide
  have hcollides : viewOfCollision.Collides "k" ⟨5⟩ :=
    ⟨.inner, ⟨0⟩, ⟨1⟩, [⟨4⟩], rfl, rfl, by decide +kernel, by decide⟩
  obtain ⟨_, hreported, _, _, hview⟩ := column_accepted hg ⟨5⟩ "k"
  refine ⟨hg, hreported (by decide) ⟨⟨5⟩, .refl, hcollides⟩,
    (hview ⟨6⟩ rfl).mpr (by decide +kernel), ⟨5⟩, .single ⟨.view rfl, trivial⟩, hcollides⟩

end RelSql.Graph
