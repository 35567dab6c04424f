import Mathlib.Data.List.Forall2
import RelSql.Lift
import RelSql.Proofs.Graph.Children
import RelSql.Proofs.Graph.Extension

/-!
# Effects of lifting

A computation that lifts values keeps an invariant of its states when from every state of
the invariant it leads to another one, whose graph extends the given one.  Such
computations compose, and what one of them gives is still known after the next one if it
persists when the graph grows.
-/

namespace RelSql

/-- A fact about what is given persists when it still holds in every extended graph. -/
def Graph.Persistent {α : Type} (R : Graph → α → Prop) : Prop :=
  ∀ {g g' : Graph} {a : α}, g.WellFounded → g'.WellFounded → g.Extends g' → R g a → R g' a

namespace LiftM

variable {α β : Type} {inv : LiftState → Prop} {s : LiftState}

/-- From the state `s`, the computation leads to a state of the invariant whose graph extends
the given one, and gives something of which `R` holds. -/
def Keeps (inv : LiftState → Prop) (R : Graph → α → Prop) (m : LiftM α) (s : LiftState) :
    Prop :=
  inv (m.run s).2 ∧ s.graph.Extends (m.run s).2.graph ∧ R (m.run s).2.graph (m.run s).1

theorem keeps_pure {R : Graph → α → Prop} {a : α} (hs : inv s) (h : R s.graph a) :
  Keeps inv R (pure a) s
  := ⟨hs, Graph.Extends.refl _, h⟩

theorem keeps_bind {R : Graph → α → Prop} {Q : Graph → β → Prop} {m : LiftM α}
    {f : α → LiftM β} (hm : Keeps inv R m s)
    (hf : ∀ a s', inv s' → s.graph.Extends s'.graph → R s'.graph a → Keeps inv Q (f a) s') :
  Keeps inv Q (m >>= f) s
  := by
  obtain ⟨h, hext, hR⟩ := hm
  obtain ⟨h', hext', hQ⟩ := hf _ _ h hext hR
  exact ⟨h', hext.trans hext', hQ⟩

theorem Keeps.imp {R Q : Graph → α → Prop} {m : LiftM α} (hm : Keeps inv R m s)
    (h : ∀ a s', inv s' → s.graph.Extends s'.graph → R s'.graph a → Q s'.graph a) :
  Keeps inv Q m s
  := by
  obtain ⟨hinv, hext, hR⟩ := hm
  exact ⟨hinv, hext, h _ _ hinv hext hR⟩

/-- Looking at the state changes nothing. -/
theorem keeps_get {Q : Graph → β → Prop} {f : LiftState → LiftM β} (h : Keeps inv Q (f s) s) :
  Keeps inv Q (get >>= f) s
  := h

/-- One computation for each element of a list, what is given for one of them being still
known at the end. -/
theorem keeps_mapM (hinv : ∀ s, inv s → s.graph.WellFounded) {R : Graph → α → β → Prop}
    (hR : ∀ a, Graph.Persistent fun g b => R g a b) {f : α → LiftM β} (l : List α) :
    ∀ {s : LiftState}, inv s →
      (∀ a ∈ l, ∀ s', inv s' → s.graph.Extends s'.graph →
        Keeps inv (fun g b => R g a b) (f a) s') →
      Keeps inv (fun g bs => List.Forall₂ (R g) l bs) (l.mapM f) s := by
  induction l with
  | nil =>
      intro s hs _
      rw [List.mapM_nil]
      exact keeps_pure hs .nil
  | cons a l ih =>
      intro s hs hf
      rw [List.mapM_cons]
      apply keeps_bind (hf a List.mem_cons_self s hs (.refl _))
      intro b s₁ h₁ e₁ hb
      apply keeps_bind
      · apply ih h₁
        intro a' ha' s' hs' e'
        exact hf a' (List.mem_cons_of_mem _ ha') s' hs' (e₁.trans e')
      · intro bs s₂ h₂ e₂ hbs
        apply keeps_pure h₂
        exact .cons (hR a (hinv _ h₁) (hinv _ h₂) e₂ hb) hbs

end LiftM

/-- What is related to an element of a list has what the relation says of it. -/
theorem forall₂_right {α β : Type} {R : α → β → Prop} {P : β → Prop} {l : List α} {l' : List β}
    (h : List.Forall₂ R l l') (hP : ∀ a b, R a b → P b) :
  ∀ b ∈ l', P b
  := by
  induction h with
  | nil => exact fun b hb => absurd hb List.not_mem_nil
  | cons hab _ ih => exact List.forall_mem_cons.mpr ⟨hP _ _ hab, ih⟩

/-- What is on the left of related lists is related to something on the right. -/
theorem forall₂_exists {α β : Type} {R : α → β → Prop} {l : List α} {l' : List β}
    (h : List.Forall₂ R l l') :
  ∀ a ∈ l, ∃ b ∈ l', R a b
  := by
  induction h with
  | nil => exact fun a ha => absurd ha List.not_mem_nil
  | cons hab _ ih =>
      rw [List.forall_mem_cons]
      refine ⟨⟨_, List.mem_cons_self, hab⟩, ?_⟩
      intro a ha
      obtain ⟨b, hb, hab⟩ := ih a ha
      exact ⟨b, List.mem_cons_of_mem _ hb, hab⟩

/-- What is at a position of a list is related to what is there in a related one. -/
theorem forall₂_getElem? {α β : Type} {R : α → β → Prop} {l : List α} {l' : List β}
    (h : List.Forall₂ R l l') {i : Nat} {a : α} (ha : l[i]? = some a) :
  ∃ b, l'[i]? = some b ∧ R a b
  := by
  obtain ⟨hlt, rfl⟩ := List.getElem?_eq_some_iff.mp ha
  have hlt' : i < l'.length := h.length_eq ▸ hlt
  exact ⟨l'[i], List.getElem?_eq_getElem hlt', h.get hlt hlt'⟩

/-! ### The children of a node -/

namespace Node

/-- Two nodes are alike when they are the same operator, with related children. -/
structure Alike (R : NodeId → NodeId → Prop) (n n' : Node) : Prop where
  shape_eq : n'.shape = n.shape
  children : List.Forall₂ R n.children n'.children

variable {inv : LiftState → Prop} {s : LiftState} {R : Graph → NodeId → NodeId → Prop}

/-- What the calls on the children give are the children of the new node. -/
theorem run_mapM_children (f : NodeId → LiftM NodeId) (n : Node) (s : LiftState) :
  (n.children.mapM f).run s
    = (((n.mapChildrenM f).run s).1.children, ((n.mapChildrenM f).run s).2)
  := by
  rw [← children_mapChildrenM]
  rfl

theorem shape_run_mapChildrenM (f : NodeId → LiftM NodeId) (n : Node) (s : LiftState) :
  ((n.mapChildrenM f).run s).1.shape = n.shape
  := congrArg Prod.fst (congrFun (shape_mapChildrenM f n) s)

/-- Replacing the children of a node keeps its shape. -/
theorem keeps_mapChildrenM (hinv : ∀ s, inv s → s.graph.WellFounded)
    (hR : ∀ c, Graph.Persistent fun g c' => R g c c') {f : NodeId → LiftM NodeId} (n : Node)
    (hs : inv s)
    (hf : ∀ c ∈ n.children, ∀ s', inv s' → s.graph.Extends s'.graph →
      LiftM.Keeps inv (fun g c' => R g c c') (f c) s') :
  LiftM.Keeps inv (fun g n' => Alike (R g) n n') (n.mapChildrenM f) s
  := by
  have hlist := LiftM.keeps_mapM hinv hR n.children hs hf
  rw [LiftM.Keeps, run_mapM_children] at hlist
  obtain ⟨hs', e, hchildren⟩ := hlist
  exact ⟨hs', e, n.shape_run_mapChildrenM f s, hchildren⟩

end Node

/-! ### Lifting values -/

namespace Lift

open LiftM

/-- The states of an invariant track what becomes of values: what their memo says of a value is
known, and may be added to it; row counts and tables stay; an operator whose operands stay stays
too, and any other one becomes a new node over what its operands become. -/
structure Tracks (inv : LiftState → Prop) (R : Graph → NodeId → NodeId → Prop) : Prop where
  wellFounded : ∀ st, inv st → st.graph.WellFounded
  persistent : ∀ v, Graph.Persistent fun g l => R g v l
  memo : ∀ {st}, inv st → ∀ m ∈ st.memo, R st.graph m.1 m.2
  remembered : ∀ {st id l}, inv st → R st.graph id l → inv { st with memo := (id, l) :: st.memo }
  countStar : ∀ {g id t}, g.WellFounded → g.node id = .countStar t → R g id id
  relation : ∀ {g id}, g.WellFounded → g.isRelation id = true → R g id id
  same : ∀ {g id n}, g.WellFounded → g.Has id → (g.node id).isOperator = true →
    Node.Alike (R g) (g.node id) n → n.children = (g.node id).children → R g id id
  pushed : ∀ {st id n}, inv st → st.graph.Has id → (st.graph.node id).isOperator = true →
    Node.Alike (R st.graph) (st.graph.node id) n → n.children ≠ (st.graph.node id).children →
    Keeps inv (fun g l => R g id l) (push n) st

variable {inv : LiftState → Prop} {R : Graph → NodeId → NodeId → Prop} {s : Folding}
  {mode : LiftMode} {st : LiftState} {id : NodeId}

namespace Tracks

/-- What a value has become is remembered. -/
theorem keeps_remembered (h : Tracks inv R) {m : LiftM NodeId}
    (hm : Keeps inv (fun g l => R g id l) m st) :
  Keeps inv (fun g l => R g id l)
    (do
      let lifted ← m
      remember id lifted
      return lifted) st
  := by
  apply keeps_bind hm
  intro l st' hs' _ hl
  exact ⟨h.remembered hs' hl, .refl _, hl⟩

/-- A value is lifted once its column is, or its operands are. -/
theorem keeps_valueWithin (h : Tracks inv R) {n : Nat} (hs : inv st) (hid : st.graph.Has id)
    (hcolumn : ∀ t name, st.graph.node id = .column t name →
      Keeps inv (fun g l => R g id l) (columnWithin s mode n (some id) t name) st)
    (hoperands : ∀ c ∈ (st.graph.node id).children, ∀ st', inv st' →
      st.graph.Extends st'.graph → Keeps inv (fun g l => R g c l) (valueWithin s mode n c) st') :
  Keeps inv (fun g l => R g id l) (valueWithin s mode (n + 1) id) st
  := by
  have hg := h.wellFounded st hs
  rw [valueWithin]
  apply keeps_get
  cases hmemo : st.memo.lookup id with
  | some l =>
      obtain ⟨before, after, hmem, _⟩ := List.lookup_eq_some_iff.mp hmemo
      apply keeps_pure hs
      apply h.memo hs (id, l)
      rw [hmem]
      exact List.mem_append_right before List.mem_cons_self
  | none =>
      simp only
      split
      case h_1 t name hid' =>
          apply h.keeps_remembered
          exact hcolumn t name hid'
      case h_2 t hid' =>
          apply h.keeps_remembered
          exact keeps_pure hs (h.countStar hg hid')
      case h_3 hcolumn hcount =>
          split
          case isTrue hr =>
              apply h.keeps_remembered
              exact keeps_pure hs (h.relation hg hr)
          case isFalse hr =>
              have ho : (st.graph.node id).isOperator = true := by
                rw [Node.isOperator]
                · simpa using hr
                · exact hcolumn
                · exact hcount
              apply keeps_bind
                (Node.keeps_mapChildrenM h.wellFounded h.persistent _ hs hoperands)
              intro rebuilt st' hs' e' halike
              have hid' := hid.mono e'
              rw [← e'.node_eq hid] at halike ho ⊢
              split
              case isTrue hsame =>
                  apply h.keeps_remembered
                  exact keeps_pure hs' (h.same (h.wellFounded st' hs') hid' ho halike hsame)
              case isFalse hother =>
                  apply h.keeps_remembered
                  exact h.pushed hs' hid' ho halike hother

end Tracks

end Lift

end RelSql
