import Mathlib.Data.List.Zip
import RelSql.Graph.Equality
import RelSql.Proofs.Graph.Children
import RelSql.Proofs.Graph.Extension

/-!
# Structural equality of nodes

`Graph.Same` relates handles that denote the same computation: one handle, or two nodes of one
shape, none of them a view, whose children are the same in turn.  It is an equivalence, and
`Graph.equals` decides it: the answers that a comparison keeps are right, so every comparison
after it is.
-/

namespace RelSql

namespace Number

theorem Double.equals_symm {x y : Double} (h : x.equals y = true) :
  y.equals x = true
  := by
  simp only [equals, Bool.and_eq_true, Bool.or_eq_true, decide_eq_true_eq] at h ⊢
  obtain ⟨⟨hx, hy⟩, h⟩ := h
  refine ⟨⟨hy, hx⟩, h.imp (fun h => ⟨h.2, h.1⟩) Eq.symm⟩

theorem Double.equals_trans {x y z : Double} (h : x.equals y = true) (h' : y.equals z = true) :
  x.equals z = true
  := by
  simp only [equals, Bool.and_eq_true, Bool.or_eq_true, decide_eq_true_eq] at h h' ⊢
  obtain ⟨⟨hx, _⟩, h⟩ := h
  obtain ⟨⟨_, hz⟩, h'⟩ := h'
  refine ⟨⟨hx, hz⟩, ?_⟩
  rcases h with h | rfl
  · rcases h' with h' | rfl
    · exact .inl ⟨h.1, h'.2⟩
    · exact .inl h
  · exact h'

theorem tenPow_pos (n : Nat) :
  0 < tenPow n
  := Nat.pow_pos (by decide)

/-- Equal numbers are zero together. -/
theorem Decimal.mantissa_eq_zero_iff {x y : Decimal}
    (h : x.mantissa * tenPow y.scale = y.mantissa * tenPow x.scale) :
  x.mantissa = 0 ↔ y.mantissa = 0
  := by
  constructor
  · intro hx
    rw [hx, Nat.zero_mul] at h
    exact (Nat.mul_eq_zero.mp h.symm).resolve_right (Nat.ne_of_gt (tenPow_pos _))
  · intro hy
    rw [hy, Nat.zero_mul] at h
    exact (Nat.mul_eq_zero.mp h).resolve_right (Nat.ne_of_gt (tenPow_pos _))

theorem Decimal.equals_symm {x y : Decimal} (h : x.equals y = true) :
  y.equals x = true
  := by
  simp only [equals, Bool.and_eq_true, Bool.or_eq_true, beq_iff_eq] at h ⊢
  obtain ⟨hsame, hsign⟩ := h
  exact ⟨hsame.symm, hsign.imp Eq.symm (mantissa_eq_zero_iff hsame).mp⟩

theorem Decimal.equals_trans {x y z : Decimal} (h : x.equals y = true) (h' : y.equals z = true) :
  x.equals z = true
  := by
  simp only [equals, Bool.and_eq_true, Bool.or_eq_true, beq_iff_eq] at h h' ⊢
  obtain ⟨hsame, hsign⟩ := h
  obtain ⟨hsame', hsign'⟩ := h'
  constructor
  · apply Nat.eq_of_mul_eq_mul_right (tenPow_pos y.scale)
    calc x.mantissa * tenPow z.scale * tenPow y.scale
        = x.mantissa * tenPow y.scale * tenPow z.scale := Nat.mul_right_comm _ _ _
      _ = y.mantissa * tenPow z.scale * tenPow x.scale := by rw [hsame, Nat.mul_right_comm]
      _ = z.mantissa * tenPow x.scale * tenPow y.scale := by rw [hsame', Nat.mul_right_comm]
  · rcases hsign with hsign | hzero
    · rcases hsign' with hsign' | hzero'
      · exact .inl (hsign.trans hsign')
      · exact .inr ((mantissa_eq_zero_iff hsame).mpr hzero')
    · exact .inr hzero

end Number

namespace Value

theorem equals_float {x : Number.Double} {w : Value} (h : (Value.float x).equals w = true) :
  ∃ y, w = .float y ∧ x.equals y = true
  := by
  cases w
  case float y => exact ⟨y, rfl, h⟩
  all_goals exact absurd h Bool.false_ne_true

theorem equals_decimal {x : Number.Decimal} {w : Value} (h : (Value.decimal x).equals w = true) :
  ∃ y, w = .decimal y ∧ x.equals y = true
  := by
  cases w
  case decimal y => exact ⟨y, rfl, h⟩
  all_goals exact absurd h Bool.false_ne_true

theorem equals_symm {v w : Value} (h : v.equals w = true) :
  w.equals v = true
  := by
  cases v
  case float x =>
      obtain ⟨y, rfl, h⟩ := equals_float h
      exact Number.Double.equals_symm h
  case decimal x =>
      obtain ⟨y, rfl, h⟩ := equals_decimal h
      exact Number.Decimal.equals_symm h
  all_goals
    cases of_decide_eq_true h
    exact h

theorem equals_trans {u v w : Value} (h : u.equals v = true) (h' : v.equals w = true) :
  u.equals w = true
  := by
  cases u
  case float x =>
      obtain ⟨y, rfl, h⟩ := equals_float h
      obtain ⟨z, rfl, h'⟩ := equals_float h'
      exact Number.Double.equals_trans h h'
  case decimal x =>
      obtain ⟨y, rfl, h⟩ := equals_decimal h
      obtain ⟨z, rfl, h'⟩ := equals_decimal h'
      exact Number.Decimal.equals_trans h h'
  all_goals
    cases of_decide_eq_true h
    exact h'

end Value

namespace Node

theorem equals_symm {n m : Node} (h : n.equals m = true) :
  m.equals n = true
  := by
  rw [equals.eq_def] at h
  split at h
  case h_1 => exact Value.equals_symm h
  case h_2 hother =>
      cases of_decide_eq_true h
      rw [equals.eq_def]
      split
      case h_1 v => exact absurd rfl (hother v v rfl)
      case h_2 => exact h

theorem equals_trans {n m k : Node} (h : n.equals m = true) (h' : m.equals k = true) :
  n.equals k = true
  := by
  rw [equals.eq_def] at h
  split at h
  case h_1 v w =>
      rw [equals.eq_def] at h' ⊢
      split at h'
      case h_1 hw =>
          cases hw
          exact Value.equals_trans h h'
      case h_2 hother =>
          rw [← of_decide_eq_true h'] at hother ⊢
          exact absurd rfl (hother w w rfl)
  case h_2 =>
      rw [of_decide_eq_true h]
      exact h'

end Node

/-- What is in the first and the third of three lists is paired through the second one. -/
theorem exists_mem_zip {α : Type} {l m k : List α} (hlm : l.length = m.length) {p : α × α}
    (h : p ∈ l.zip k) :
  m.length = k.length → ∃ b, (p.1, b) ∈ l.zip m ∧ (b, p.2) ∈ m.zip k
  := by
  intro hmk
  obtain ⟨i, hi, rfl⟩ := List.getElem_of_mem h
  rw [List.length_zip] at hi
  have him : i < m.length := by omega
  refine ⟨m[i], ?_, ?_⟩
  · rw [List.getElem_zip]
    have hmem := List.getElem_mem (l := l.zip m) (n := i) (by rw [List.length_zip]; omega)
    rwa [List.getElem_zip] at hmem
  · rw [List.getElem_zip]
    have hmem := List.getElem_mem (l := m.zip k) (n := i) (by rw [List.length_zip]; omega)
    rwa [List.getElem_zip] at hmem

namespace Graph

/-- Two handles denote the same computation: they are one handle, or two nodes of one shape,
neither of them a view, whose children denote the same computations. -/
inductive Same (g : Graph) : NodeId → NodeId → Prop where
  | refl (id : NodeId) : Same g id id
  | node {left right : NodeId} (hleft : ∀ t, g.node left ≠ .view t)
    (hright : ∀ t, g.node right ≠ .view t)
    (hshape : (g.node left).shape.equals (g.node right).shape = true)
    (h : ∀ p ∈ (g.node left).children.zip (g.node right).children, Same g p.1 p.2) :
    Same g left right

variable {g : Graph} {left right : NodeId}

theorem Same.symm (h : g.Same left right) :
  g.Same right left
  := by
  induction h with
  | refl id => exact .refl id
  | node hleft hright hshape _ ih =>
      apply Same.node hright hleft (Node.equals_symm hshape)
      intro p hp
      rw [← List.zip_swap] at hp
      obtain ⟨q, hq, rfl⟩ := List.mem_map.mp hp
      exact ih q hq

theorem Same.trans {id : NodeId} (h : g.Same left right) (h' : g.Same right id) :
  g.Same left id
  := by
  induction h generalizing id with
  | refl _ => exact h'
  | node hleft hright hshape hchildren ih =>
      cases h' with
      | refl _ => exact .node hleft hright hshape hchildren
      | node _ hid hshape' hchildren' =>
          apply Same.node hleft hid (Node.equals_trans hshape hshape')
          intro p hp
          obtain ⟨b, hfirst, hsecond⟩ := exists_mem_zip
            (Node.length_children_of_shape hshape) hp (Node.length_children_of_shape hshape')
          exact ih _ hfirst (hchildren' _ hsecond)

/-- Nodes of different shapes, and views, denote the same computation as themselves only. -/
theorem same_iff_of_ne (hne : left ≠ right) :
  g.Same left right ↔ (∀ t, g.node left ≠ .view t) ∧ (∀ t, g.node right ≠ .view t)
    ∧ (g.node left).shape.equals (g.node right).shape = true
    ∧ ∀ p ∈ (g.node left).children.zip (g.node right).children, g.Same p.1 p.2
  := by
  constructor
  · intro h
    cases h with
    | refl => exact absurd rfl hne
    | node hleft hright hshape h => exact ⟨hleft, hright, hshape, h⟩
  · rintro ⟨hleft, hright, hshape, h⟩
    exact .node hleft hright hshape h

/-! ### Comparisons -/

/-- The answers that are kept are right. -/
def Known (g : Graph) (known : Comparisons) : Prop :=
  ∀ p ∈ known, p.2 = true ↔ g.Same p.1.1 p.1.2

/-- A comparison keeps right answers only, and succeeds just when `P` holds. -/
def Decides (g : Graph) (m : StateM Comparisons Bool) (P : Prop) : Prop :=
  ∀ known, g.Known known → g.Known (m.run known).2 ∧ ((m.run known).1 = true ↔ P)

variable {P P' : Prop}

theorem decides_pure {answer : Bool} (h : answer = true ↔ P) :
  g.Decides (pure answer) P
  := fun _ hknown => ⟨hknown, h⟩

theorem Decides.congr {m : StateM Comparisons Bool} (hm : g.Decides m P) (h : P ↔ P') :
  g.Decides m P'
  := fun known hknown => ⟨(hm known hknown).1, (hm known hknown).2.trans h⟩

/-- One comparison after the other, if it succeeds. -/
theorem Decides.and {m m' : StateM Comparisons Bool} (hm : g.Decides m P)
    (hm' : g.Decides m' P') :
  g.Decides (do if ← m then m' else return false) (P ∧ P')
  := by
  intro known hknown
  obtain ⟨hleft, hanswer⟩ := hm known hknown
  rw [StateT.run_bind]
  change g.Known (StateT.run (if (m.run known).1 = true then m' else pure false) (m.run known).2).2
    ∧ ((StateT.run (if (m.run known).1 = true then m' else pure false) (m.run known).2).1 = true
      ↔ _)
  split
  case isTrue h =>
      obtain ⟨hright, hanswer'⟩ := hm' _ hleft
      refine ⟨hright, hanswer'.trans ?_⟩
      exact (and_iff_right (hanswer.mp h)).symm
  case isFalse h => exact ⟨hleft, nofun, fun hboth => absurd (hanswer.mpr hboth.1) h⟩

/-- All pairs are compared, up to the first one that is not the same. -/
theorem decides_allEqual {same : NodeId → NodeId → StateM Comparisons Bool}
    (pairs : List (NodeId × NodeId))
    (h : ∀ p ∈ pairs, g.Decides (same p.1 p.2) (g.Same p.1 p.2)) :
  g.Decides (allEqual same pairs) (∀ p ∈ pairs, g.Same p.1 p.2)
  := by
  induction pairs with
  | nil => exact decides_pure (iff_of_true rfl nofun)
  | cons p rest ih =>
      obtain ⟨hhead, hrest⟩ := List.forall_mem_cons.mp h
      obtain ⟨left, right⟩ := p
      rw [allEqual]
      apply (hhead.and (ih hrest)).congr
      rw [List.forall_mem_cons]

theorem decides_compareNodes {same : NodeId → NodeId → StateM Comparisons Bool}
    (h : ∀ p ∈ (g.node left).children.zip (g.node right).children,
      g.Decides (same p.1 p.2) (g.Same p.1 p.2)) (hne : left ≠ right) :
  g.Decides (g.compareNodes same left right) (g.Same left right)
  := by
  rw [compareNodes]
  split
  case h_1 t hleft =>
      apply decides_pure
      exact iff_of_false Bool.false_ne_true fun hsame => ((same_iff_of_ne hne).mp hsame).1 t hleft
  case h_2 t hright _ =>
      apply decides_pure
      exact iff_of_false Bool.false_ne_true
        fun hsame => ((same_iff_of_ne hne).mp hsame).2.1 t hright
  case h_3 hleft hright =>
      split
      case isTrue hshape =>
          apply (decides_allEqual _ h).congr
          rw [same_iff_of_ne hne]
          exact ⟨fun hall => ⟨hleft, hright, hshape, hall⟩, fun hsame => hsame.2.2.2⟩
      case isFalse hshape =>
          apply decides_pure
          exact iff_of_false Bool.false_ne_true
            fun hsame => hshape ((same_iff_of_ne hne).mp hsame).2.2.1

theorem same_orderedPair (left right : NodeId) :
  g.Same (orderedPair left right).1 (orderedPair left right).2 ↔ g.Same left right
  := by
  rw [orderedPair]
  split
  · exact Iff.rfl
  · exact ⟨Same.symm, Same.symm⟩

/-- A comparison whose answer is looked up, or kept. -/
theorem Decides.kept {m : StateM Comparisons Bool} (hm : g.Decides m (g.Same left right)) :
  g.Decides (do
      match (← get).lookup (orderedPair left right) with
      | some answer => return answer
      | none =>
        let answer ← m
        modify fun answers => (orderedPair left right, answer) :: answers
        return answer) (g.Same left right)
  := by
  intro known hknown
  rw [StateT.run_bind, StateT.run_get, pure_bind]
  cases hlookup : known.lookup (orderedPair left right) with
  | some answer =>
      obtain ⟨before, after, hsplit, _⟩ := List.lookup_eq_some_iff.mp hlookup
      have hmem : (orderedPair left right, answer) ∈ known := by
        rw [hsplit]
        exact List.mem_append_right _ List.mem_cons_self
      exact ⟨hknown, (hknown _ hmem).trans (same_orderedPair left right)⟩
  | none =>
      obtain ⟨hkept, hanswer⟩ := hm known hknown
      refine ⟨List.forall_mem_cons.mpr ⟨?_, hkept⟩, hanswer⟩
      exact hanswer.trans (same_orderedPair left right).symm

/-- Handles decrease from a node to its children, so a comparison is decided when there are more
steps than handles before its left one. -/
theorem decides_compareWithin (hg : g.WellFounded) (n : Nat) :
    ∀ left right, left.index < n →
      g.Decides (g.compareWithin n left right) (g.Same left right) := by
  induction n with
  | zero => exact fun left right h => absurd h (Nat.not_lt_zero _)
  | succ n ih =>
      intro left right hlt
      rw [compareWithin]
      split
      case isTrue hsame => exact decides_pure (iff_of_true rfl (hsame ▸ .refl left))
      case isFalse hne =>
          apply (decides_compareNodes ?_ hne).kept
          rintro ⟨l, r⟩ hp
          have hchild := hg.child_lt (List.of_mem_zip hp).1
          exact ih l r (by omega)

/-- Comparing two handles decides whether they denote the same computation. -/
theorem equals_iff (hg : g.WellFounded) :
  g.equals left right = true ↔ g.Same left right
  := by
  have hdecides := decides_compareWithin hg (left.index + 1) left right (Nat.lt_succ_self _) []
    fun p hp => absurd hp List.not_mem_nil
  exact hdecides.2

theorem equals_symm (hg : g.WellFounded) (h : g.equals left right = true) :
  g.equals right left = true
  := (equals_iff hg).mpr ((equals_iff hg).mp h).symm

theorem equals_trans (hg : g.WellFounded) {id : NodeId} (h : g.equals left right = true)
    (h' : g.equals right id = true) :
  g.equals left id = true
  := (equals_iff hg).mpr (((equals_iff hg).mp h).trans ((equals_iff hg).mp h'))

end Graph

end RelSql
