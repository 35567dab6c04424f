import RelSql.Proofs.Lift.Soundness
import RelSql.Proofs.Renaming.Reading

/-!
# Lifting in similar graphs

Two computations go in parallel when what they give is related, and so are the graphs they lead
to, along a relation that has all pairs of the given one.  Lifting related values goes in
parallel: where one run adds a node, looks up what a value has become or leaves a value as it
is, so does the other.
-/

namespace RelSql

open List Relator

/-- The relation, and one more pair. -/
def Matching.insert (R : Matching) (i j : NodeId) : Matching :=
  fun a b => R a b ∨ (a = i ∧ b = j)

theorem Matching.le_insert (R : Matching) (i j : NodeId) :
  R ≤ R.insert i j
  := fun _ _ h => .inl h

variable [Comparison]

/-- Graphs stay similar when similar nodes are added to both, which become related. -/
theorem Graph.Similar.push {R : Matching} {g g' : Graph} {n n' : Node} (h : Similar R g g')
    (hnn : n.Similar R n') (htest : ∀ p, n = .any p → Comparison.entire) :
  Similar (R.insert (g.push n).1 (g'.push n').1) (g.push n).2 (g'.push n').2
  := by
  have hold : ∀ {i j}, R i j → i ≠ (g.push n).1 ∧ j ≠ (g'.push n').1 := by
    intro i j hij
    constructor
    · intro heq
      have hlt : i.index < g.size := h.has hij
      rw [heq] at hlt
      exact Nat.lt_irrefl _ hlt
    · intro heq
      have hlt : j.index < g'.size := h.has' hij
      rw [heq] at hlt
      exact Nat.lt_irrefl _ hlt
  refine ⟨?_, ?_, ⟨?_, ?_⟩, ?_, ?_, ?_, ?_⟩
  · apply h.wellFounded.push
    exact forall₂_right hnn.children.flip fun _ _ hcd => h.has hcd
  · apply h.wellFounded'.push
    exact forall₂_right hnn.children fun _ _ hcd => h.has' hcd
  · rintro i k j (hi | ⟨rfl, rfl⟩) (hk | ⟨rfl, hj⟩)
    · exact h.biUnique.1 hi hk
    · exact absurd hj (hold hi).2
    · exact absurd rfl (hold hk).2
    · rfl
  · rintro i j l (hj | ⟨rfl, rfl⟩) (hl | ⟨hi, rfl⟩)
    · exact h.biUnique.2 hj hl
    · exact absurd hi (hold hj).1
    · exact absurd rfl (hold hl).1
    · rfl
  · rintro i j (hij | ⟨rfl, rfl⟩)
    · exact (h.has hij).mono (g.extends_push n)
    · exact g.has_push n
  · rintro i j (hij | ⟨rfl, rfl⟩)
    · exact (h.has' hij).mono (g'.extends_push n')
    · exact g'.has_push n'
  · rintro i j (hij | ⟨rfl, rfl⟩)
    · rw [(g.extends_push n).node_eq (h.has hij), (g'.extends_push n').node_eq (h.has' hij)]
      exact (h.node hij).mono (R.le_insert _ _)
    · rw [node_push, node_push]
      exact hnn.mono (R.le_insert _ _)
  · rintro i j p (hij | ⟨rfl, rfl⟩) hp
    · rw [(g.extends_push n).node_eq (h.has hij)] at hp
      exact h.tests hij hp
    · rw [node_push] at hp
      exact htest p hp

/-- Foldings of related operators. -/
structure Folding.Similar (R : Matching) (s s' : Folding) : Prop where
  fused : Forall₂ R s.fused s'.fused
  outputs : Forall₂ R s.outputs s'.outputs
  join : Option.Rel R s.join s'.join

/-- States with similar graphs, in which related values have become related ones. -/
structure LiftState.Similar (R : Matching) (s s' : LiftState) : Prop where
  graph : s.graph.Similar R s'.graph
  memo : Forall₂ (fun p q => R p.1 q.1 ∧ R p.2 q.2) s.memo s'.memo

section

variable {R S : Matching} {i j : NodeId} {s s' : Folding}

omit [Comparison] in
theorem Folding.Similar.mono (h : s.Similar R s') (hRS : R ≤ S) :
  s.Similar S s'
  := ⟨h.fused.imp hRS, h.outputs.imp hRS, option_imp h.join hRS⟩

omit [Comparison] in
theorem Folding.Similar.of {l l' : List NodeId} (h : Forall₂ R l l') :
  (Folding.of l).Similar R (.of l')
  := ⟨h, .nil, .none⟩

omit [Comparison] in
theorem Folding.Similar.contains_eq (h : s.Similar R s') (hR : BiUnique R) (hij : R i j) :
  s.contains i = s'.contains j
  := contains_eq_of_related hR h.fused hij

/-- The tables whose columns stand for those of related tables are related. -/
theorem Folding.Similar.star {g g' : Graph} (h : s.Similar R s') (hg : g.Similar R g')
    (hij : R i j) :
  R (s.star g i) (s'.star g' j)
  := by
  apply hg.recurse (P := fun _ _ => R) _ hij
  intro below below' i j hij hnn
  rw [h.contains_eq hg.biUnique hij]
  split
  · exact hij
  · revert hnn
    generalize g.node i = n
    generalize g'.node j = n'
    intro hnn
    cases hnn with
    | selection ht _ | sort ht _ | limit _ _ ht | distinct ht => exact ht.2
    | join =>
        have hjoin := h.join
        generalize s.join = x at hjoin
        generalize s'.join = y at hjoin
        cases hjoin with
        | some h => exact h
        | none => exact hij
    | _ => exact hij

/-- What related values have become is related. -/
theorem LiftState.Similar.lookup {s s' : LiftState} (h : s.Similar R s') (hij : R i j) :
  Option.Rel R (s.memo.lookup i) (s'.memo.lookup j)
  := by
  have hmemo := h.memo
  generalize s.memo = l at hmemo
  generalize s'.memo = l' at hmemo
  induction hmemo with
  | nil => exact .none
  | @cons p q _ _ hpq _ ih =>
      have hiff := h.graph.eq_iff hij hpq.1
      rw [lookup_cons, lookup_cons]
      by_cases hi : i = p.1
      · rw [beq_iff_eq.mpr hi, beq_iff_eq.mpr (hiff.mp hi)]
        exact .some hpq.2
      · rw [beq_eq_false_iff_ne.mpr hi, beq_eq_false_iff_ne.mpr fun hj => hi (hiff.mpr hj)]
        exact ih

end

/-! ### Computations in parallel -/

namespace LiftM

variable {α β γ δ : Type} {R S : Matching} {s s' : LiftState}

/-- From the two states the computations lead to states that are similar along a relation with
all pairs of `R`, and what they give is related by `P` along it. -/
def Parallel (R : Matching) (P : Matching → α → β → Prop) (m : LiftM α) (m' : LiftM β)
    (s s' : LiftState) : Prop :=
  ∃ S, R ≤ S ∧ (m.run s).2.Similar S (m'.run s').2 ∧ P S (m.run s).1 (m'.run s').1

variable {P : Matching → α → β → Prop} {Q : Matching → γ → δ → Prop}

theorem parallel_pure {a : α} {b : β} (hs : s.Similar R s') (h : P R a b) :
  Parallel R P (pure a) (pure b) s s'
  := ⟨R, le_refl R, hs, h⟩

theorem parallel_bind {m : LiftM α} {m' : LiftM β} {f : α → LiftM γ} {f' : β → LiftM δ}
    (hm : Parallel R P m m' s s')
    (hf : ∀ S a b t t', R ≤ S → t.Similar S t' → P S a b → Parallel S Q (f a) (f' b) t t') :
  Parallel R Q (m >>= f) (m' >>= f') s s'
  := by
  obtain ⟨S, hRS, hs, hP⟩ := hm
  obtain ⟨T, hST, ht, hQ⟩ := hf S _ _ _ _ hRS hs hP
  exact ⟨T, hRS.trans hST, ht, hQ⟩

/-- Looking at the states changes nothing. -/
theorem parallel_get {f : LiftState → LiftM α} {f' : LiftState → LiftM β}
    (h : Parallel R P (f s) (f' s') s s') :
  Parallel R P (get >>= f) (get >>= f') s s'
  := h

theorem parallel_push {n n' : Node} (hs : s.Similar R s') (hnn : n.Similar R n')
    (htest : ∀ p, n = .any p → Comparison.entire) :
  Parallel R (fun S => S) (Lift.push n) (Lift.push n') s s'
  := by
  refine ⟨_, R.le_insert _ _, ⟨hs.graph.push hnn htest, ?_⟩, .inr ⟨rfl, rfl⟩⟩
  exact hs.memo.imp fun _ _ h => ⟨.inl h.1, .inl h.2⟩

/-- What is given is kept as what the values have become. -/
theorem parallel_remembered {m m' : LiftM NodeId} {i j : NodeId} (hij : R i j)
    (hm : Parallel R (fun S => S) m m' s s') :
  Parallel R (fun S => S) (do let lifted ← m; Lift.remember i lifted; return lifted)
    (do let lifted ← m'; Lift.remember j lifted; return lifted) s s'
  := by
  apply parallel_bind hm
  intro S l l' t t' hRS ht hl
  exact ⟨S, le_refl S, ⟨ht.graph, .cons ⟨hRS _ _ hij, hl⟩ ht.memo⟩, hl⟩

/-- One computation for each element of related lists. -/
theorem parallel_mapM {T : α → γ → Prop} {P : Matching → β → δ → Prop}
    (hP : ∀ b d, Monotone fun S => P S b d) {f : α → LiftM β} {f' : γ → LiftM δ} {l : List α}
    {l' : List γ} (hl : Forall₂ T l l') (hs : s.Similar R s')
    (hf : ∀ a c, T a c → ∀ S t t', R ≤ S → t.Similar S t' →
      Parallel S P (f a) (f' c) t t') :
  Parallel R (fun S => Forall₂ (P S)) (l.mapM f) (l'.mapM f') s s'
  := by
  induction hl generalizing R s s' with
  | nil =>
      rw [mapM_nil, mapM_nil]
      exact parallel_pure hs .nil
  | cons hac _ ih =>
      rw [mapM_cons, mapM_cons]
      apply parallel_bind (hf _ _ hac R s s' (le_refl R) hs)
      intro S b d t t' hRS ht hbd
      apply parallel_bind (ih ht fun a c hac U u u' hSU => hf a c hac U u u' (hRS.trans hSU))
      intro U bs ds u u' hSU hu hbds
      exact parallel_pure hu (.cons (hP b d hSU hbd) hbds)

section

variable {T : Matching} {f f' : NodeId → LiftM NodeId}

/-- Replacing the children of similar nodes in parallel makes similar nodes of their shape. -/
theorem parallel_mapChildrenM {n n' : Node} (hnn : n.Similar T n') (hs : s.Similar R s')
    (hf : ∀ c d, T c d → ∀ S t t', R ≤ S → t.Similar S t' →
      Parallel S (fun S => S) (f c) (f' d) t t') :
  Parallel R (fun S m m' => m.Similar S m' ∧ m.shape = n.shape) (n.mapChildrenM f)
    (n'.mapChildrenM f') s s'
  := by
  obtain ⟨S, hRS, ht, hchildren⟩ := parallel_mapM (P := fun S => S) (fun _ _ _ _ hSU => hSU _ _)
    hnn.children hs hf
  rw [Node.run_mapM_children, Node.run_mapM_children] at ht hchildren
  refine ⟨S, hRS, ht, Node.similar_of_shape ?_ hchildren, n.shape_run_mapChildrenM f s⟩
  rw [n.shape_run_mapChildrenM, n'.shape_run_mapChildrenM, hnn.shape_eq]

end

end LiftM

end RelSql
