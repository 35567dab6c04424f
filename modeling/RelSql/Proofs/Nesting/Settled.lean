import RelSql.Proofs.Block.Source
import RelSql.Proofs.Nesting.Bounds

/-!
# Enough depth

An analysis of a depth has settled when it does not run out of the depth, and does the same to
any greater depth.  The FROM clause of a table settles when the tables that are compiled for it
do.
-/

namespace RelSql

namespace Analysis

variable {α β : Type} {g : Graph} {m m' : Analysis α}

/-- Two computations do the same to a graph, and do not run out of depth. -/
structure Settles (m m' : Analysis α) (g : Graph) : Prop where
  same : m.run g = m'.run g
  enough : ∀ f, m.run g = .error f → f.error ≠ .nestingTooDeep

/-- A computation runs out of depth on no graph. -/
def Shallow (m : Analysis α) : Prop :=
  ∀ g f, m.run g = .error f → f.error ≠ .nestingTooDeep

theorem Shallow.settles (h : Shallow m) (g : Graph) :
  Settles m m g
  := ⟨rfl, h g⟩

/-! ### Computations of no depth -/

theorem shallow_pure (a : α) :
  Shallow (pure a : Analysis α)
  := fun _ _ => nofun

theorem shallow_fail {e : CompileError} (h : e ≠ .nestingTooDeep) :
  Shallow (fail e : Analysis α)
  := by
  intro g f hrun
  cases hrun
  exact h

theorem shallow_bind {f : α → Analysis β} (hm : Shallow m) (hf : ∀ a, Shallow (f a)) :
  Shallow (m >>= f)
  := by
  intro g e hrun
  rw [StateT.run_bind] at hrun
  cases hm' : m.run g with
  | error e' =>
      rw [hm'] at hrun
      cases hrun
      exact hm g e hm'
  | ok result =>
      rw [hm'] at hrun
      exact hf result.1 result.2 e hrun

theorem shallow_get {f : Graph → Analysis β} (h : ∀ g, Shallow (f g)) :
  Shallow (get >>= f)
  := fun g => h g g

/-- Changing the graph. -/
theorem shallow_modifyGet (f : Graph → α × Graph) :
  Shallow (modifyGet f : Analysis α)
  := fun _ _ => nofun

theorem shallow_push (n : Node) :
  Shallow (push n)
  := shallow_modifyGet _

theorem shallow_lifted (m : LiftM α) :
  Shallow (lifted m)
  := shallow_modifyGet _

theorem shallow_pushable (fused predicates : List NodeId) :
  Shallow (pushable fused predicates)
  := shallow_modifyGet _

/-- Adding what a constructor checks. -/
theorem shallow_build (f : Graph → Except GraphError (NodeId × Graph)) :
  Shallow (build f)
  := by
  intro g e hrun
  simp only [build, StateT.run] at hrun
  split at hrun
  · cases hrun
  · cases hrun
    exact nofun

theorem shallow_ite {c : Prop} [Decidable c] {m m' : Analysis α} (h : Shallow m)
    (h' : Shallow m') :
  Shallow (if c then m else m')
  := by
  split
  · exact h
  · exact h'

theorem shallow_foldlM {f : β → α → Analysis β} (hf : ∀ b a, Shallow (f b a)) (l : List α) :
    ∀ b, Shallow (l.foldlM f b) := by
  induction l with
  | nil => exact shallow_pure
  | cons a l ih =>
      intro b
      rw [List.foldlM_cons]
      exact shallow_bind (hf b a) ih

/-! ### Computations that settle -/

theorem settles_fail {e : CompileError} (h : e ≠ .nestingTooDeep) :
  Settles (fail e : Analysis α) (fail e) g
  := (shallow_fail h).settles g

theorem settles_get {f f' : Graph → Analysis β} (h : Settles (f g) (f' g) g) :
  Settles (get >>= f) (get >>= f') g
  := ⟨h.same, h.enough⟩

/-- A computation whose result is known, and that leaves the graph as it is. -/
theorem settles_run {f f' : α → Analysis β} {a : α} (hrun : m.run g = .ok (a, g))
    (h : Settles (f a) (f' a) g) :
  Settles (m >>= f) (m >>= f') g
  := by
  have hbind : ∀ f : α → Analysis β, (m >>= f).run g = (f a).run g := by
    intro f
    rw [StateT.run_bind, hrun]
    rfl
  exact ⟨by rw [hbind, hbind, h.same], by rw [hbind]; exact h.enough⟩

/-- What is known of the result of the first computation may be used for the next one. -/
theorem settles_bind {R : Graph → α → Prop} {f f' : α → Analysis β} (hm : Settles m m' g)
    (hgrows : Grows R m g)
    (hf : ∀ a g', g'.WellFounded → g.Extends g' → R g' a → Settles (f a) (f' a) g') :
  Settles (m >>= f) (m' >>= f') g
  := by
  have hsame := hm.same
  cases hm' : m.run g with
  | error e =>
      have hrun : (m >>= f).run g = .error e := by rw [StateT.run_bind, hm']; rfl
      have hrun' : (m' >>= f').run g = .error e := by rw [StateT.run_bind, ← hsame, hm']; rfl
      refine ⟨by rw [hrun, hrun'], ?_⟩
      intro e' herror
      rw [hrun] at herror
      cases herror
      exact hm.enough e hm'
  | ok result =>
      obtain ⟨a, g'⟩ := result
      have hrun : (m >>= f).run g = (f a).run g' := by rw [StateT.run_bind, hm']; rfl
      have hrun' : (m' >>= f').run g = (f' a).run g' := by
        rw [StateT.run_bind, ← hsame, hm']
        rfl
      obtain ⟨hwf, e, hR⟩ := hgrows.result a g' hm'
      have h := hf a g' hwf e hR
      exact ⟨by rw [hrun, hrun', h.same], by rw [hrun]; exact h.enough⟩

/-- Two computations settle, and give something of which `R` holds. -/
structure SettlesTo (R : Graph → α → Prop) (m m' : Analysis α) (g : Graph) : Prop extends
    Settles m m' g where
  grows : Grows R m g

theorem Shallow.settlesTo {R : Graph → α → Prop} (h : Shallow m) (hgrows : Grows R m g) :
  SettlesTo R m m g
  := ⟨h.settles g, hgrows⟩

theorem settlesTo_bind {R : Graph → α → Prop} {S : Graph → β → Prop} {f f' : α → Analysis β}
    (hm : SettlesTo R m m' g)
    (hf : ∀ a g', g'.WellFounded → g.Extends g' → R g' a → SettlesTo S (f a) (f' a) g') :
  SettlesTo S (m >>= f) (m' >>= f') g
  := ⟨settles_bind hm.toSettles hm.grows fun a g' hg' e h => (hf a g' hg' e h).toSettles,
    grows_bind hm.grows fun a g' hg' e h => (hf a g' hg' e h).grows⟩

theorem settlesTo_get {S : Graph → β → Prop} {f f' : Graph → Analysis β}
    (h : SettlesTo S (f g) (f' g) g) :
  SettlesTo S (get >>= f) (get >>= f') g
  := ⟨settles_get h.toSettles, grows_get h.grows⟩

theorem SettlesTo.imp {R S : Graph → α → Prop} (hm : SettlesTo R m m' g)
    (h : ∀ a g', g'.WellFounded → g.Extends g' → R g' a → S g' a) :
  SettlesTo S m m' g
  := ⟨hm.toSettles, hm.grows.imp h⟩

/-- Nothing needs to be known for a computation of no depth. -/
theorem settles_then {f : α → Analysis β} (hm : Settles m m' g) (hf : ∀ a, Shallow (f a)) :
  Settles (m >>= f) (m' >>= f) g
  := by
  have hsame := hm.same
  constructor
  · rw [StateT.run_bind, StateT.run_bind, hsame]
  · intro e hrun
    rw [StateT.run_bind] at hrun
    cases hm' : m.run g with
    | error e' =>
        rw [hm'] at hrun
        cases hrun
        exact hm.enough e hm'
    | ok result =>
        rw [hm'] at hrun
        exact hf result.1 result.2 e hrun

/-- One computation for each element of a list, with an invariant that may depend on the
elements that are left. -/
theorem settlesTo_foldlM {R : Graph → List α → β → Prop} {f f' : β → α → Analysis β}
    (l : List α) :
    ∀ {b : β} {g : Graph}, g.WellFounded → R g l b →
      (∀ a rest b' g', g'.WellFounded → g.Extends g' → R g' (a :: rest) b' →
        SettlesTo (fun g'' b'' => R g'' rest b'') (f b' a) (f' b' a) g') →
      SettlesTo (fun g' b' => R g' [] b') (l.foldlM f b) (l.foldlM f' b) g := by
  induction l with
  | nil => exact fun hg hb _ => (shallow_pure _).settlesTo (grows_pure hg hb)
  | cons a l ih =>
      intro b g hg hb hf
      rw [List.foldlM_cons, List.foldlM_cons]
      apply settlesTo_bind (hf a l b g hg (.refl _) hb)
      intro b' g' hg' e' hb'
      apply ih hg' hb'
      exact fun a' rest b'' g'' hg'' e'' => hf a' rest b'' g'' hg'' (e'.trans e'')

end Analysis

/-- Two compilers do the same to tables of a depth below `depth`, and do not run out of it. -/
def Agrees (depth : Nat) (compile compile' : NodeId → Analysis Query) : Prop :=
  ∀ node g, g.WellFounded → g.Has node → (g.nesting node).depth < depth →
    Analysis.Settles (compile node) (compile' node) g

namespace Block

open Analysis

variable {Q : QuerySpec} {g : Graph} {compile compile' : NodeId → Analysis Query}
  {depth content : Nat}

/-! ### FROM clauses -/

/-- A table of a FROM clause settles when its query does. -/
theorem settles_leaf (h : Agrees depth compile compile') (hg : g.WellFounded) (b : Block)
    {node : NodeId} (hnode : g.Has node) (hderives : g.Derives content node)
    (hlt : content < depth) :
  Settles (b.leaf compile node) (b.leaf compile' node) g
  := by
  rw [leaf, leaf]
  apply settles_get
  simp only
  split
  · exact (shallow_ite (shallow_fail (e := .unnamedTable) (by simp)) (shallow_pure _)).settles g
  case h_2 hother =>
      split
      · exact settles_fail (by simp)
      case isFalse hr =>
          split
          · exact (shallow_pure _).settles g
          · apply settles_then _ fun q => shallow_pure _
            apply h _ g hg (hg.has_body hnode)
            exact Nat.lt_of_le_of_lt (hderives (by simpa [Graph.isRelation] using hr) hother) hlt

/-- Taking selections off an operand takes no depth. -/
theorem shallow_operand (b : Block) (node : NodeId) (hoist left : Bool) :
  Shallow (b.operand node hoist left)
  := by
  rw [operand]
  apply shallow_get
  intro g
  apply shallow_ite (shallow_pure _)
  apply shallow_bind (shallow_ite (shallow_pushable _ _) (shallow_pure _))
  intro pushed
  exact shallow_ite (shallow_pure _) (shallow_ite (shallow_pure _) (shallow_pure _))

/-- The tables of a join settle to a depth that its handle is below, if those that are compiled
for it do. -/
theorem settles_joinedTables (hQ : Q.Persistent) (hcompile : Q.Meets compile)
    (h : Agrees depth compile compile') (hlt : content < depth) (n : Nat) :
    ∀ {n' : Nat} {g : Graph} {b : Block} {node : NodeId}, node.index < n → node.index < n' →
      g.WellFounded → g.Has node → (∀ s ∈ b.nested, s.Derived Q g) →
      (∀ leaf ∈ (g.joinTree node).leaves, g.Derives content leaf) →
      Settles (joinedTables compile n b node) (joinedTables compile' n' b node) g := by
  induction n with
  | zero =>
      intro n' g b node hn
      exact absurd hn (Nat.not_lt_zero _)
  | succ n ih =>
      intro n' g b node hn hn' hg hnode hb hderives
      obtain _ | n' := n'
      · exact absurd hn' (Nat.not_lt_zero _)
      rw [joinedTables, joinedTables]
      apply settles_get
      split
      case h_1 kind l r predicates hjoin =>
          obtain ⟨hl, hr, _⟩ := hg.has_join hnode hjoin
          have hlop := hg.has_operand hl (kind.preservesFilters true) true
          have hrop := hg.has_operand hr (kind.preservesFilters false) false
          have hle := hg.operand_le l (kind.preservesFilters true) true
          have hchild : l.index < node.index := by
            apply hg.child_lt
            rw [hjoin]
            exact List.mem_cons_self
          rw [Graph.joinTree_join hg hjoin, JoinTree.leaves, List.forall_mem_append,
            List.forall_mem_singleton] at hderives
          apply settles_bind ((shallow_operand _ _ _ _).settles g)
            (grows_operand hQ hg (b := b.fold node) hb hl _ _)
          rintro ⟨b₁, l', hoisted⟩ g₁ hg₁ e₁ ⟨hfeed₁, rfl, rfl⟩
          have htree := e₁.joinTree_eq hg hg₁ hlop
          have hleft : ∀ leaf ∈ (g₁.joinTree
              (g.operand l (kind.preservesFilters true) true).table).leaves,
              g₁.Derives content leaf := by
            rw [htree]
            intro leaf hleaf
            exact (hderives.1 leaf hleaf).mono e₁ hg hg₁ ((hg.has_joinTree hlop).1 leaf hleaf)
          apply settles_bind (ih (by omega) (by omega) hg₁ (hlop.mono e₁) hfeed₁.nested hleft)
            (grows_joinedTables hQ hcompile n hg₁ (hlop.mono e₁) hfeed₁.nested)
          rintro ⟨b₂, tables, inner⟩ g₂ hg₂ e₂ ⟨hfeed₂, rfl, rfl⟩
          have e := e₁.trans e₂
          apply settles_bind ((shallow_operand _ _ _ _).settles g₂)
            (grows_operand hQ hg₂ hfeed₂.nested (hr.mono e) _ _)
          rintro ⟨b₃, r', filters⟩ g₃ hg₃ e₃ ⟨hfeed₃, rfl, rfl⟩
          apply settles_then _ fun b₄ => shallow_pure _
          simp only [e.operand_eq hg hg₂ hr]
          apply settles_leaf h hg₃ b₃ ((hrop.mono e).mono e₃) _ hlt
          exact hderives.2.mono (e.trans e₃) hg hg₃ hrop
      case h_2 hother =>
          have hjoin : g.isJoin node = false := by
            rw [Graph.isJoin]
            split
            case h_1 hn => exact absurd hn (hother _ _ _ _)
            · rfl
          rw [Graph.joinTree_other hg hjoin] at hderives
          apply settles_then _ fun b' => shallow_pure _
          exact settles_leaf h hg b hnode (hderives node (List.mem_singleton_self node)) hlt

/-- A FROM clause settles when the tables that are compiled for it do. -/
theorem settles_fromTables (hQ : Q.Persistent) (hcompile : Q.Meets compile)
    (h : Agrees depth compile compile') (hlt : content < depth) (hg : g.WellFounded) {b : Block}
    {node : NodeId} (hnode : g.Has node) (hb : ∀ s ∈ b.nested, s.Derived Q g)
    (hderives : ∀ leaf ∈ (g.joinTree node).leaves, g.Derives content leaf) :
  Settles (b.fromTables compile node) (b.fromTables compile' node) g
  := by
  rw [fromTables, fromTables]
  apply settles_then _ fun r => shallow_pure _
  exact settles_joinedTables hQ hcompile h hlt _ (Nat.lt_succ_self _) (Nat.lt_succ_self _) hg hnode
    hb hderives

/-- The FROM clause of a table below its selections settles in the same way. -/
theorem settles_fromSource (hQ : Q.Persistent) (hcompile : Q.Meets compile)
    (h : Agrees depth compile compile') (hlt : content < depth) (hg : g.WellFounded) {b : Block}
    {node : NodeId} (hnode : g.Has node) (hb : ∀ s ∈ b.nested, s.Derived Q g)
    (hderives : ∀ leaf ∈ (g.joinTree (g.operand node true true).table).leaves,
      g.Derives content leaf) :
  Settles (b.fromSource compile node) (b.fromSource compile' node) g
  := by
  rw [fromSource, fromSource]
  apply settles_get
  simp only
  split
  case isTrue hchain =>
      have hoff : g.takesOff node true true = false := by
        rw [Graph.takesOff, hchain]
        rfl
      rw [Graph.operand, hoff] at hderives
      exact settles_fromTables hQ hcompile h hlt hg hnode hb hderives
  case isFalse hchain =>
      have hchain : (g.peel node).chain.isEmpty = false := Bool.eq_false_iff.mpr hchain
      apply settles_bind
        ((shallow_ite (shallow_pushable _ _) (shallow_pure _)).settles g)
        (grows_pushed hg _ _ (hg.has_predicates hnode))
      intro pushed g' hg' e hpushed
      have hoff : g.takesOff node true true = !pushed := by
        rw [Graph.takesOff, ← hpushed, hchain]
        simp
      have hb' : ∀ s ∈ b.nested, s.Derived Q g' := fun s hs => (hb s hs).mono hQ e hg hg'
      have hop := hg.has_operand hnode true true
      have htree : ∀ leaf ∈ (g'.joinTree (g.operand node true true).table).leaves,
          g'.Derives content leaf := by
        rw [e.joinTree_eq hg hg' hop]
        intro leaf hleaf
        exact (hderives leaf hleaf).mono e hg hg' ((hg.has_joinTree hop).1 leaf hleaf)
      rw [Graph.operand, hoff] at htree
      cases pushed with
      | true =>
          apply settles_then _ fun b => shallow_pure _
          have hjoin := Graph.isJoin_of_peel hg hchain
          apply settles_leaf h hg' b (hnode.mono e) _ hlt
          rw [Bool.not_true, if_neg Bool.false_ne_true,
            Graph.joinTree_other hg' (by rw [e.isJoin_eq hnode, hjoin])] at htree
          exact htree node (List.mem_singleton_self node)
      | false =>
          apply settles_then _ fun r => shallow_pure _
          exact settles_fromTables hQ hcompile h hlt hg' ((hg.has_peel hnode).mono e) hb' htree

end Block

end RelSql
