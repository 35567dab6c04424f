import RelSql.Proofs.Lift.Soundness
import RelSql.Proofs.Renaming.Similar

/-!
# Depth of lifting

A value is lifted in the same way to every depth beyond its handle, since lifting a value
lifts columns and values of smaller handles only.
-/

namespace RelSql

namespace LiftM

variable {α β : Type} {inv : LiftState → Prop} {s : LiftState} {m m' : LiftM α}

/-- From the state `s`, two computations do the same, and keep the invariant. -/
structure Agrees (inv : LiftState → Prop) (m m' : LiftM α) (s : LiftState) : Prop where
  same : m.run s = m'.run s
  keeps : Keeps inv (fun _ _ => True) m s

theorem agrees_pure (a : α) (hs : inv s) :
  Agrees inv (pure a) (pure a) s
  := ⟨rfl, keeps_pure hs trivial⟩

/-- What comes after the same computation is the same. -/
theorem run_bind_congr (f : α → LiftM β) (h : m.run s = m'.run s) :
  (m >>= f).run s = (m' >>= f).run s
  := by
  rw [StateT.run_bind, StateT.run_bind, h]

theorem agrees_bind {f f' : α → LiftM β} (h : Agrees inv m m' s)
    (hf : ∀ a s', inv s' → s.graph.Extends s'.graph → Agrees inv (f a) (f' a) s') :
  Agrees inv (m >>= f) (m' >>= f') s
  := by
  have hnext := hf (m.run s).1 (m.run s).2 h.keeps.1 h.keeps.2.1
  constructor
  · rw [run_bind_congr f' h.same.symm]
    exact hnext.same
  · apply keeps_bind h.keeps
    exact fun a s' hs' e _ => (hf a s' hs' e).keeps

/-- One computation for each element of a list. -/
theorem agrees_mapM {f f' : α → LiftM β} (l : List α) :
    ∀ {s : LiftState}, inv s →
      (∀ a ∈ l, ∀ s', inv s' → s.graph.Extends s'.graph → Agrees inv (f a) (f' a) s') →
      Agrees inv (l.mapM f) (l.mapM f') s := by
  induction l with
  | nil => exact fun hs _ => agrees_pure [] hs
  | cons a l ih =>
      intro s hs hf
      rw [List.mapM_cons, List.mapM_cons]
      apply agrees_bind (hf a List.mem_cons_self s hs (.refl _))
      intro b s₁ h₁ e₁
      apply agrees_bind
      · apply ih h₁
        intro a' ha' s' hs' e'
        exact hf a' (List.mem_cons_of_mem _ ha') s' hs' (e₁.trans e')
      · exact fun bs s₂ h₂ _ => agrees_pure _ h₂

end LiftM

namespace Node

open LiftM

variable {inv : LiftState → Prop} {s : LiftState} {f f' : NodeId → LiftM NodeId}

/-- Replacing the children of a node in the same way. -/
theorem agrees_mapChildrenM (n : Node) (hs : inv s)
    (hf : ∀ c ∈ n.children, ∀ s', inv s' → s.graph.Extends s'.graph →
      LiftM.Agrees inv (f c) (f' c) s') :
  LiftM.Agrees inv (n.mapChildrenM f) (n.mapChildrenM f') s
  := by
  obtain ⟨hsame, hkeeps⟩ := agrees_mapM n.children hs hf
  rw [run_mapM_children, run_mapM_children] at hsame
  rw [Keeps, run_mapM_children] at hkeeps
  obtain ⟨hchildren, hstate⟩ := Prod.mk.inj hsame
  have hshape := (n.shape_run_mapChildrenM f s).trans (n.shape_run_mapChildrenM f' s).symm
  exact ⟨Prod.ext (eq_of_shape hshape hchildren) hstate, hkeeps⟩

end Node

namespace Lift

open LiftM

variable {s : Folding} {mode : LiftMode}

/-- Lifting to a depth of `n` does the same as to other depths, for the handles below. -/
structure SettledWithin (s : Folding) (mode : LiftMode) (n : Nat) : Prop where
  value : ∀ {n' : Nat} {st : LiftState} {id : NodeId}, st.Sound s mode → st.graph.Has id →
    id.index < n → id.index < n' →
    (valueWithin s mode n id).run st = (valueWithin s mode n' id).run st
  column : ∀ {n' : Nat} {st : LiftState} (kept : Option NodeId) {table : NodeId} {name : String},
    st.Sound s mode → st.graph.Has table → table.index < n → table.index < n' →
    (columnWithin s mode n kept table name).run st
      = (columnWithin s mode n' kept table name).run st

/-- A value is lifted in the same way if what is below it is. -/
theorem value_settled {n n' : Nat} (ih : SettledWithin s mode n) {st : LiftState} {id : NodeId}
    (hs : st.Sound s mode) (hid : st.graph.Has id) (hn : id.index < n + 1)
    (hn' : id.index < n' + 1) :
  (valueWithin s mode (n + 1) id).run st = (valueWithin s mode (n' + 1) id).run st
  := by
  have hg := hs.wellFounded
  rw [valueWithin, valueWithin]
  simp only [StateT.run_bind, StateT.run_get, pure_bind]
  cases hmemo : st.memo.lookup id with
  | some l => rfl
  | none =>
      simp only
      split
      case h_1 t name hnode =>
          have ht : t ∈ (st.graph.node id).children := by
            rw [hnode]
            exact List.mem_singleton_self t
          have hlt := hg.child_lt ht
          apply run_bind_congr
          exact ih.column (some id) hs (hg.has_child hid ht) (by omega) (by omega)
      case h_2 => rfl
      case h_3 hcolumn hcount =>
          split
          · rfl
          case isFalse hr =>
              apply run_bind_congr
              refine LiftM.Agrees.same (show LiftM.Agrees (LiftState.Sound s mode) _ _ _ from
                Node.agrees_mapChildrenM _ hs ?_)
              intro c hc st' hs' e
              have hlt := hg.child_lt hc
              have hhas := (hg.has_child hid hc).mono e
              refine ⟨ih.value hs' hhas (by omega) (by omega), ?_⟩
              exact ((soundWithin s mode n).value hs' hhas (by omega)).imp fun _ _ _ _ _ => trivial

/-- A column is lifted in the same way if what is below its table is. -/
theorem column_settled {n n' : Nat} (ih : SettledWithin s mode n) {st : LiftState}
    (kept : Option NodeId) {table : NodeId} {name : String} (hs : st.Sound s mode)
    (ht : st.graph.Has table) (hn : table.index < n + 1) (hn' : table.index < n' + 1) :
  (columnWithin s mode (n + 1) kept table name).run st
    = (columnWithin s mode (n' + 1) kept table name).run st
  := by
  have hg := hs.wellFounded
  have hcolumn : ∀ c ∈ (st.graph.node table).children,
      (columnWithin s mode n none c name).run st = (columnWithin s mode n' none c name).run st := by
    intro c hc
    have hlt := hg.child_lt hc
    exact ih.column none hs (hg.has_child ht hc) (by omega) (by omega)
  have hvalue : ∀ c ∈ (st.graph.node table).children,
      (valueWithin s mode n (st.graph.unaliased c)).run st
        = (valueWithin s mode n' (st.graph.unaliased c)).run st := by
    intro c hc
    have hle := hg.unaliased_le c
    have hlt := hg.child_lt hc
    exact ih.value hs (Nat.lt_of_le_of_lt hle (hg.has_child ht hc)) (by omega) (by omega)
  rw [columnWithin.eq_def, columnWithin.eq_def]
  simp only [StateT.run_bind, StateT.run_get, pure_bind]
  split
  · rfl
  · cases hnode : st.graph.node table <;> rw [hnode] at hcolumn hvalue <;> simp only
    case projection t selections =>
      cases hp : provider? st.graph selections name with
      | none => rfl
      | some item =>
          have hitem := List.mem_cons_of_mem t (Folding.provider_mem hp)
          simp only
          split
          · exact hcolumn item hitem
          · exact hvalue item hitem
    case aggregation t keys metrics having =>
      split
      · rfl
      · cases hp : namedItem? st.graph (keys ++ metrics) name with
        | none => rfl
        | some item =>
            apply hvalue
            apply List.mem_cons_of_mem
            exact List.mem_append_left having (Folding.namedItem_mem hp)
    case join kind l r predicates =>
      split
      · rfl
      · apply hcolumn
        split <;> simp [Node.children]
    case selection | sort | limit | distinct =>
      split
      · rfl
      · exact hcolumn _ List.mem_cons_self

/-- Lifting settles beyond the handles that are lifted. -/
theorem settledWithin (s : Folding) (mode : LiftMode) (n : Nat) :
  SettledWithin s mode n
  := by
  induction n with
  | zero =>
      constructor
      · intro n' st id _ _ hn
        exact absurd hn (Nat.not_lt_zero _)
      · intro n' st kept table name _ _ hn
        exact absurd hn (Nat.not_lt_zero _)
  | succ n ih =>
      constructor
      · intro n' st id hs hid hn hn'
        cases n' with
        | zero => exact absurd hn' (Nat.not_lt_zero _)
        | succ n' => exact value_settled ih hs hid hn hn'
      · intro n' st kept table name hs ht hn hn'
        cases n' with
        | zero => exact absurd hn' (Nat.not_lt_zero _)
        | succ n' => exact column_settled ih kept hs ht hn hn'

end Lift

end RelSql
