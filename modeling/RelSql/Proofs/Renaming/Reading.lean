import RelSql.Proofs.Graph.Equality
import RelSql.Proofs.Graph.Reading
import RelSql.Proofs.Lift.Effect
import RelSql.Proofs.Output.Firsts
import RelSql.Proofs.Renaming.Typing

/-!
# Reads and comparisons in similar graphs

Related values read related columns and tables, in the same order, and hold the same
reductions; related pairs of handles are structurally equal together; and related handles
unfold to trees of one size.
-/

namespace RelSql

open List Relator

/-! ### Lists of related handles -/

section

variable {R : Matching} {l l' m m' : List NodeId} {i j : NodeId}

/-- A handle is in a list when the related one is in the related list. -/
theorem contains_eq_of_related (hR : BiUnique R) (hl : Forall₂ R l l') (hij : R i j) :
  l.contains i = l'.contains j
  := by
  rw [Bool.eq_iff_iff, contains_iff_mem, contains_iff_mem]
  exact rel_mem hR hij hl

theorem eraseDups_related (hR : BiUnique R) (hl : Forall₂ R l l') :
  Forall₂ R l.eraseDups l'.eraseDups
  := by
  induction hl with
  | nil => exact .nil
  | @cons a b _ _ hab _ ih =>
      rw [eraseDups_cons_eq, eraseDups_cons_eq]
      apply Forall₂.cons hab
      apply rel_filter _ ih
      intro c d hcd
      have hiff : c = a ↔ d = b := rel_eq hR hcd hab
      simp [hiff]

theorem zip_related (hl : Forall₂ R l l') (hm : Forall₂ R m m') :
  Forall₂ (fun p q => R p.1 q.1 ∧ R p.2 q.2) (l.zip m) (l'.zip m')
  := by
  induction hl generalizing m m' with
  | nil => exact .nil
  | cons hab _ ih =>
      cases hm with
      | nil => exact .nil
      | cons hcd hm => exact .cons ⟨hab, hcd⟩ (ih hm)

theorem findSome?_related {α β : Type} {P : α → β → Prop} {l : List (Option α)}
    {l' : List (Option β)} (hl : Forall₂ (Option.Rel P) l l') :
  Option.Rel P (l.findSome? id) (l'.findSome? id)
  := by
  induction hl with
  | nil => exact .none
  | cons hab _ ih =>
      cases hab with
      | some h => exact .some h
      | none => exact ih

end

/-- An algebra that makes related meanings of related tables, and of related operands. -/
structure Algebra.Natural {α : Type} (R : Matching) (P : α → α → Prop) (A : Algebra α) :
    Prop where
  column : ∀ {t t'} (name : String), R t t' → P (A.column t name) (A.column t' name)
  count : ∀ {t t'}, R t t' → P (A.count t) (A.count t')
  table : ∀ {t t'}, R t t' → P (A.table t) (A.table t')
  operator : ∀ (n : Node) {ms ms'}, Forall₂ P ms ms' → P (A.operator n ms) (A.operator n ms')

/-- A meaning in which tables do not count is the same of everything related. -/
theorem Algebra.natural_eq {α : Type} (R : Matching) {A : Algebra α}
    (hcolumn : ∀ t t' name, A.column t name = A.column t' name)
    (hcount : ∀ t t', A.count t = A.count t') (htable : ∀ t t', A.table t = A.table t') :
  A.Natural R Eq
  := by
  constructor
  · exact fun name _ => hcolumn _ _ name
  · exact fun _ => hcount _ _
  · exact fun _ => htable _ _
  · intro n ms ms' hms
    rw [forall₂_eq_eq_eq] at hms
    rw [hms]

namespace Graph.Similar

variable [Comparison] {R : Matching} {g g' : Graph} {i j k l : NodeId}

/-- Related values have related meanings. -/
theorem denote {α : Type} {P : α → α → Prop} {A : Algebra α} (h : Similar R g g')
    (hA : A.Natural R P) (hij : R i j) :
  P (g.denote A i) (g'.denote A j)
  := by
  apply h.recurse (P := fun _ _ => P) _ hij
  intro below below' i j hij hnn
  have hoperator : P (A.operator (g.node i).shape ((g.node i).children.map below))
      (A.operator (g'.node j).shape ((g'.node j).children.map below')) := by
    rw [(h.node hij).shape_eq]
    exact hA.operator _ (rel_map (fun _ _ hcd => hcd.2) hnn.children)
  have htable := hA.table hij
  rw [denoteStep, denoteStep]
  revert hnn hoperator
  generalize g.node i = n
  generalize g'.node j = n'
  intro hnn hoperator
  cases hnn with
  | column name ht => exact hA.column name ht.1
  | countStar ht => exact hA.count ht.1
  | table | view | projection | selection | aggregation | join | sort | limit | distinct
  | union => exact htable
  | _ => exact hoperator

theorem hasReduction_eq (h : Similar R g g') (hij : R i j) :
  g.hasReduction i = g'.hasReduction j
  := by
  rw [Graph.hasReduction_eq h.wellFounded (h.has hij),
    Graph.hasReduction_eq h.wellFounded' (h.has' hij)]
  exact h.denote (Algebra.natural_eq R (fun _ _ _ => rfl) (fun _ _ => rfl) fun _ _ => rfl) hij

theorem readsOutsideReductions_eq (h : Similar R g g') (hij : R i j) :
  g.readsOutsideReductions i = g'.readsOutsideReductions j
  := by
  rw [Graph.readsOutsideReductions_eq h.wellFounded (h.has hij),
    Graph.readsOutsideReductions_eq h.wellFounded' (h.has' hij)]
  exact h.denote (Algebra.natural_eq R (fun _ _ _ => rfl) (fun _ _ => rfl) fun _ _ => rfl) hij

/-- The tables that are read first are related. -/
theorem baseTable (h : Similar R g g') (hij : R i j) :
  Option.Rel R (g.baseTable i) (g'.baseTable j)
  := by
  rw [baseTable_eq h.wellFounded (h.has hij), baseTable_eq h.wellFounded' (h.has' hij)]
  apply h.denote (A := .base) _ hij
  constructor
  · exact fun _ ht => .some ht
  · exact fun ht => .some ht
  · exact fun _ => .none
  · exact fun _ _ _ hms => findSome?_related hms

/-! ### Columns and tables -/

theorem valueChildren (h : Similar R g g') (hij : R i j) :
  Forall₂ R (g.valueChildren i) (g'.valueChildren j)
  := by
  obtain ⟨n, n', hn, hn', hnn⟩ := h.nodes hij
  have hchildren := hnn.children
  rw [Graph.valueChildren, Graph.valueChildren, hn, hn']
  cases hnn <;> first | exact .nil | exact hchildren

/-- The columns that are read are related, in order. -/
theorem columns (h : Similar R g g') (hij : R i j) :
  Forall₂ R (g.columns i) (g'.columns j)
  := by
  obtain ⟨i⟩ := i
  induction i using Nat.strongRecOn generalizing j with
  | ind i ih =>
      have hother : Forall₂ R ((g.valueChildren ⟨i⟩).flatMap g.columns).eraseDups
          ((g'.valueChildren j).flatMap g'.columns).eraseDups := by
        apply eraseDups_related h.biUnique
        apply rel_flatMap (R := fun c d => R c d ∧ c ∈ g.valueChildren ⟨i⟩)
        · apply forall₂_mem (h.valueChildren hij)
          exact fun c hc d _ hcd => ⟨hcd, hc⟩
        · rintro c d ⟨hcd, hc⟩
          rcases g.valueChildren_cases ⟨i⟩ with hnone | hall
          · rw [hnone] at hc
            exact absurd hc not_mem_nil
          · exact ih c.index (h.wellFounded.child_lt (hall ▸ hc)) hcd
      obtain ⟨n, n', hn, hn', hnn⟩ := h.nodes hij
      rw [columns_eq h.wellFounded (h.has hij), columns_eq h.wellFounded' (h.has' hij),
        columnsStep, columnsStep, hn, hn']
      cases hnn with
      | column _ _ => exact .cons hij .nil
      | _ => exact hother

/-- The tables that are read are related, in order. -/
theorem tables (h : Similar R g g') (hij : R i j) :
  Forall₂ R (g.tables i) (g'.tables j)
  := by
  apply eraseDups_related h.biUnique
  apply rel_filterMap _ (h.columns hij)
  intro c d hcd
  obtain ⟨n, n', hn, hn', hnn⟩ := h.nodes hcd
  rw [columnTable?, columnTable?, hn, hn']
  cases hnn with
  | column _ ht => exact .some ht
  | _ => exact .none

/-! ### Comparisons -/

/-- Handles are equal when the related ones are. -/
theorem same (h : Similar R g g') (hsame : g.Same i k) :
  ∀ j l, R i j → R k l → g'.Same j l
  := by
  induction hsame with
  | refl id =>
      intro j l hj hl
      rw [h.biUnique.2 hj hl]
      exact .refl l
  | @node left right hleft hright hshape _ ih =>
      intro j l hj hl
      have hview : ∀ {i j}, R i j → (∀ t, g.node i ≠ .view t) → ∀ t, g'.node j ≠ .view t := by
        intro i j hij hi t ht
        have hnn := h.node hij
        rw [ht] at hnn
        generalize g.node i = n at hnn hi
        cases hnn with
        | view => exact hi _ rfl
      apply Same.node (hview hj hleft) (hview hl hright)
      · rw [← (h.node hj).shape_eq, ← (h.node hl).shape_eq]
        exact hshape
      · intro q hq
        have hzip := zip_related (h.node hj).children (h.node hl).children
        obtain ⟨p, hp, hpq⟩ := forall₂_exists hzip.flip q hq
        exact ih p hp q.1 q.2 hpq.1 hpq.2

/-- Related pairs of handles are equal together. -/
theorem equals_eq (h : Similar R g g') (hij : R i j) (hkl : R k l) :
  g.equals i k = g'.equals j l
  := by
  rw [Bool.eq_iff_iff, equals_iff h.wellFounded, equals_iff h.wellFounded']
  exact ⟨fun hsame => h.same hsame j l hij hkl, fun hsame => h.symm.same hsame i k hij hkl⟩

end Graph.Similar

end RelSql
