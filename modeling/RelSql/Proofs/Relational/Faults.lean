import RelSql.Proofs.Block.Joins
import RelSql.Proofs.Lift.Effect
import RelSql.Statement.Analysis

/-!
# Kinds of faults

Rankings, existence tests and membership in a column have tables made up for them, and their checks
are about values.  The analysis of a graph without them adds none, and what it fails for is a fault
of its tables, unless a reduction in a WHERE clause reads no table.
-/

namespace RelSql

variable {g g' : Graph} {id t : NodeId} {n : Node}

/-- What holds of the given values, and of those made from such values, holds of all values that are
defined by recursion on handles. -/
theorem NodeId.recurse_holds {α : Type} {P : NodeId → α → Prop} {bottom : NodeId → α}
    {step : (NodeId → α) → NodeId → α} (hbottom : ∀ id, P id (bottom id))
    (hstep : ∀ below id, (∀ c, P c (below c)) → P id (step below id)) (id : NodeId) :
  P id (recurse bottom step id)
  := by
  obtain ⟨i⟩ := id
  induction i using Nat.strongRecOn with
  | ind i ih =>
      apply hstep
      intro c
      by_cases hc : c.index < i
      · rw [valueIn_valuesBelow bottom step i c hc]
        exact ih c.index hc
      · rw [valueIn, if_neg hc]
        exact hbottom c

namespace Node

/-- Whether a value is a ranking, an existence test or membership in a column. -/
def isTest : Node → Bool
  | .topK _ _ _ | .any _ | .contains _ (.column _) _ => true
  | _ => false

/-- The tables whose rows a sort, a limit, a distinct or a set operation takes as they are. -/
def wholes : Node → List NodeId
  | .sort t _ | .limit t _ _ | .distinct t => [t]
  | .union l r _ => [l, r]
  | _ => []

theorem isTest_of_shape {n m : Node} (h : n.shape = m.shape) :
  n.isTest = m.isTest
  := by
  have hshape : ∀ n : Node, n.shape.isTest = n.isTest := by
    intro n
    cases n with
    | contains a options negated => cases options <;> rfl
    | _ => rfl
  rw [← hshape n, h, hshape m]

theorem wholes_of_isOperator (h : n.isOperator = true) :
  n.wholes = []
  := by
  cases n <;> first | rfl | cases h

end Node

namespace Graph

/-- No value is a test or a ranking, and sorts, limits, distincts and set operations are of
tables. -/
structure Direct (g : Graph) : Prop where
  values : ∀ id, (g.node id).isTest = false
  tables : ∀ id, ∀ t ∈ (g.node id).wholes, g.isRelation t = true

/-- A graph is direct when all its nodes are. -/
theorem direct_of_nodes
    (h : ∀ n ∈ g.nodes, n.isTest = false ∧ ∀ t ∈ n.wholes, g.isRelation t = true) :
  g.Direct
  := by
  have hnode : ∀ id, (g.node id).isTest = false
      ∧ ∀ t ∈ (g.node id).wholes, g.isRelation t = true := by
    intro id
    rw [node]
    cases hn : g.node? id with
    | none => exact ⟨rfl, fun t ht => absurd ht List.not_mem_nil⟩
    | some n => exact h n (Array.mem_of_getElem? hn)
  exact ⟨fun id => (hnode id).1, fun id => (hnode id).2⟩

theorem Extends.isRelation (e : g.Extends g') (h : g.isRelation id = true) :
  g'.isRelation id = true
  := (e.isRelation_eq (has_of_isRelation h)).trans h

theorem Direct.push (hg : g.Direct) (htest : n.isTest = false) (hwholes : n.wholes = []) :
  (g.push n).2.Direct
  := by
  have hnode : ∀ id, (g.push n).2.node id = g.node id ∨ (g.push n).2.node id = n := by
    intro id
    simp only [node, node?, Graph.push, Array.getElem?_push]
    split
    · exact .inr rfl
    · exact .inl rfl
  constructor
  · intro id
    rcases hnode id with h | h
    · rw [h]
      exact hg.values id
    · rw [h]
      exact htest
  · intro id t ht
    rcases hnode id with h | h
    · rw [h] at ht
      exact (g.extends_push n).isRelation (hg.tables id t ht)
    · rw [h, hwholes] at ht
      exact absurd ht List.not_mem_nil

/-- The table at the end of a chain is one. -/
theorem Direct.isRelation_chain (hg : g.Direct) {next? : Node → Option NodeId}
    (hnext : ∀ n t, next? n = some t → t ∈ n.wholes) (id : NodeId) :
  g.isRelation id = true → g.isRelation (g.chain next? id).2 = true
  := by
  apply NodeId.recurse_holds (P := fun id (r : List NodeId × NodeId) =>
    g.isRelation id = true → g.isRelation r.2 = true)
  · exact fun id hr => hr
  · intro below id hbelow hr
    simp only
    split
    case h_1 t ht => exact hbelow t (hg.tables id t (hnext _ t ht))
    · exact hr

end Graph

/-! ### Lifting -/

namespace Lift

open LiftM

variable {α β : Type} {s : LiftState}

/-- From a direct graph the computation leads to a direct graph. -/
def Direct (m : LiftM α) (s : LiftState) : Prop :=
  Keeps (fun st => st.graph.Direct) (fun _ _ => True) m s

theorem direct_pure {a : α} (hs : s.graph.Direct) :
  Direct (pure a) s
  := keeps_pure hs trivial

theorem direct_bind {m : LiftM α} {f : α → LiftM β} (hm : Direct m s)
    (hf : ∀ a s', s'.graph.Direct → Direct (f a) s') :
  Direct (m >>= f) s
  := keeps_bind hm fun a s' hs' _ _ => hf a s' hs'

theorem direct_push (hs : s.graph.Direct) (htest : n.isTest = false) (hwholes : n.wholes = []) :
  Direct (push n) s
  := ⟨hs.push htest hwholes, s.graph.extends_push n, trivial⟩

theorem direct_mapM {f : α → LiftM β} (hf : ∀ a s, s.graph.Direct → Direct (f a) s) (l : List α) :
    ∀ s : LiftState, s.graph.Direct → Direct (l.mapM f) s := by
  induction l with
  | nil =>
      intro s hs
      rw [List.mapM_nil]
      exact direct_pure hs
  | cons a l ih =>
      intro s hs
      rw [List.mapM_cons]
      apply direct_bind (hf a s hs)
      intro b s₁ hs₁
      apply direct_bind (ih s₁ hs₁)
      exact fun bs s₂ hs₂ => direct_pure hs₂

/-- Replacing the children of a node leads to a direct graph when replacing each of them does. -/
theorem direct_mapChildrenM {f : NodeId → LiftM NodeId}
    (hf : ∀ c s, s.graph.Direct → Direct (f c) s) (n : Node) (hs : s.graph.Direct) :
  Keeps (fun st => st.graph.Direct) (fun _ n' => n'.shape = n.shape) (n.mapChildrenM f) s
  := by
  have hlist := direct_mapM hf n.children s hs
  rw [Direct, Keeps, Node.run_mapM_children] at hlist
  obtain ⟨hs', e, _⟩ := hlist
  exact ⟨hs', e, n.shape_run_mapChildrenM f s⟩

/-- Lifting values and columns, to a depth of `n`. -/
structure DirectWithin (f : Folding) (mode : LiftMode) (n : Nat) : Prop where
  value : ∀ id s, s.graph.Direct → Direct (valueWithin f mode n id) s
  column : ∀ kept table name s, s.graph.Direct → Direct (columnWithin f mode n kept table name) s

section

variable {f : Folding} {mode : LiftMode} {m : Nat}

theorem direct_kept (kept : Option NodeId) (table : NodeId) (name : String)
    (hs : s.graph.Direct) :
  Direct (match kept with | some id => return id | none => push (.column table name)) s
  := by
  cases kept with
  | none => exact direct_push hs rfl rfl
  | some id => exact direct_pure hs

theorem direct_remembered (id : NodeId) {m : LiftM NodeId} (hm : Direct m s) :
  Direct
    (do
      let lifted ← m
      remember id lifted
      return lifted) s
  := by
  apply direct_bind hm
  exact fun l s' hs' => ⟨hs', .refl _, trivial⟩

/-- An operator becomes the same operator over other operands. -/
theorem direct_value_succ (ih : DirectWithin f mode m) (hs : s.graph.Direct) :
  Direct (valueWithin f mode (m + 1) id) s
  := by
  rw [valueWithin]
  apply keeps_get
  split
  · exact direct_pure hs
  · simp only
    split
    · exact direct_remembered id (ih.column _ _ _ s hs)
    · exact direct_remembered id (direct_pure hs)
    case h_3 hcolumn hcount =>
        split
        case isTrue => exact direct_remembered id (direct_pure hs)
        case isFalse hr =>
            have ho : (s.graph.node id).isOperator = true := by
              rw [Node.isOperator]
              · simpa using hr
              · exact hcolumn
              · exact hcount
            apply keeps_bind (direct_mapChildrenM ih.value (s.graph.node id) hs)
            intro rebuilt s' hs' _ hshape
            split
            · exact direct_remembered id (direct_pure hs')
            · apply direct_remembered
              apply direct_push hs'
              · rw [Node.isTest_of_shape hshape]
                exact hs.values id
              · apply Node.wholes_of_isOperator
                rw [← Node.isOperator_shape, hshape, Node.isOperator_shape]
                exact ho

theorem direct_column_succ (ih : DirectWithin f mode m) (kept : Option NodeId) (table : NodeId)
    (name : String) (hs : s.graph.Direct) :
  Direct (columnWithin f mode (m + 1) kept table name) s
  := by
  have hkept := direct_kept kept table name hs
  rw [columnWithin.eq_def]
  apply keeps_get
  by_cases hfold : (!f.contains table || (mode = .output && f.outputs.contains table)) = true
  · rw [if_pos hfold]
    exact hkept
  · rw [if_neg hfold]
    cases s.graph.node table with
    | projection t selections =>
        simp only
        split
        · split
          · exact ih.column _ _ _ s hs
          · exact ih.value _ s hs
        · exact hkept
    | selection t _ | sort t _ | limit t _ _ | distinct t | join _ t _ _ =>
        simp only
        split
        · exact hkept
        · exact ih.column _ _ _ s hs
    | aggregation t keys metrics having =>
        simp only
        split
        · exact hkept
        · split
          · exact ih.value _ s hs
          · exact hkept
    | _ =>
        simp only [ite_self]
        exact hkept

end

/-- Lifting adds no values of other operators. -/
theorem direct_within (f : Folding) (mode : LiftMode) (n : Nat) :
  DirectWithin f mode n
  := by
  induction n with
  | zero =>
      refine ⟨fun _ _ hs => direct_pure hs, fun kept table name s hs => ?_⟩
      rw [columnWithin.eq_def]
      exact direct_kept kept table name hs
  | succ n ih =>
      exact ⟨fun _ _ hs => direct_value_succ ih hs,
        fun kept table name _ hs => direct_column_succ ih kept table name hs⟩

theorem direct_value (f : Folding) (mode : LiftMode) (id : NodeId) (s : LiftState)
    (hs : s.graph.Direct) :
  Direct (value f mode id) s
  := (direct_within f mode _).value id s hs

theorem direct_named (f : Folding) (mode : LiftMode) (item : NodeId) (s : LiftState)
    (hs : s.graph.Direct) :
  Direct (named f mode item) s
  := by
  rw [named]
  apply keeps_get
  apply direct_bind (direct_value f mode _ s hs)
  intro lifted s' hs'
  split
  · exact direct_pure hs'
  · apply keeps_get
    simp only
    split
    · exact direct_pure hs'
    · split
      · split
        · exact direct_pure hs'
        · exact direct_push hs' rfl rfl
      · exact direct_push hs' rfl rfl

/-- A computation before which nothing has been lifted. -/
theorem direct_run {m : LiftM α} (h : Direct m ⟨g, []⟩) :
  g.Extends (run m g).2 ∧ (run m g).2.Direct
  := ⟨h.2.1, h.1⟩

/-- Testing whether predicates can be evaluated below. -/
theorem direct_pushableM (f : Folding) (predicates : List NodeId) :
    ∀ s : LiftState, s.graph.Direct → Direct (pushableM f predicates) s := by
  have hunchanged : ∀ c s, s.graph.Direct → Direct (isUnchanged f c) s := by
    intro c s hs
    rw [isUnchanged]
    apply keeps_get
    split
    · split
      · exact direct_pure hs
      · apply direct_bind (direct_value f .substitute c s hs)
        intro lifted s' hs'
        apply keeps_get
        split
        · exact direct_pure hs'
        · exact direct_pure hs'
    · exact direct_pure hs
  have hall : ∀ cs s, s.graph.Direct → Direct (allUnchanged f cs) s := by
    intro cs
    induction cs with
    | nil => exact fun s hs => direct_pure hs
    | cons c rest ih =>
        intro s hs
        rw [allUnchanged]
        apply direct_bind (hunchanged c s hs)
        intro same s' hs'
        split
        · exact ih s' hs'
        · exact direct_pure hs'
  induction predicates with
  | nil => exact fun s hs => direct_pure hs
  | cons p rest ih =>
      intro s hs
      rw [pushableM]
      apply keeps_get
      apply direct_bind (hall _ s hs)
      intro same s' hs'
      split
      · exact ih s' hs'
      · exact direct_pure hs'

end Lift

/-! ### Computations -/

/-- A fault is one of the tables, or a reduction in a WHERE clause reads no table, or the depth does
not suffice. -/
def CompileError.IsRelational (e : CompileError) : Prop :=
  e.kind = .relation ∨ e = .reductionWithoutTable ∨ e = .nestingTooDeep

namespace Analysis

variable {α β : Type} {m : Analysis α}

/-- From a direct graph the computation leads to a direct graph, and fails for relational faults
only. -/
structure Direct (m : Analysis α) (g : Graph) : Prop where
  result : ∀ a g', m.run g = .ok (a, g') → g.Extends g' ∧ g'.Direct
  fault : ∀ f, m.run g = .error f → f.error.IsRelational

theorem direct_pure {a : α} (hg : g.Direct) :
  Direct (pure a) g
  := by
  refine ⟨fun a g' h => ?_, fun _ => nofun⟩
  cases h
  exact ⟨.refl _, hg⟩

theorem direct_fail {e : CompileError} (h : e.IsRelational) :
  Direct (fail e : Analysis α) g
  := by
  refine ⟨fun _ _ => nofun, fun f hf => ?_⟩
  cases hf
  exact h

theorem direct_bind {f : α → Analysis β} (hm : Direct m g)
    (hf : ∀ a g', g.Extends g' → g'.Direct → Direct (f a) g') :
  Direct (m >>= f) g
  := by
  constructor
  · intro b g₂ h
    rw [StateT.run_bind] at h
    obtain ⟨⟨a, g₁⟩, hrun, h⟩ := exists_of_bind_eq_ok h
    obtain ⟨e, hg₁⟩ := hm.result a g₁ hrun
    obtain ⟨e', hg₂⟩ := (hf a g₁ e hg₁).result b g₂ h
    exact ⟨e.trans e', hg₂⟩
  · intro e he
    rw [StateT.run_bind] at he
    cases hrun : m.run g with
    | error e' =>
        rw [hrun] at he
        cases he
        exact hm.fault e hrun
    | ok result =>
        obtain ⟨a, g'⟩ := result
        rw [hrun] at he
        obtain ⟨hextends, hg'⟩ := hm.result a g' hrun
        exact (hf a g' hextends hg').fault e he

theorem direct_get {f : Graph → Analysis β} (h : Direct (f g) g) :
  Direct (get >>= f) g
  := ⟨h.result, h.fault⟩

/-- A node that is added stands in the graph from then on. -/
theorem direct_push_bind (hg : g.Direct) (htest : n.isTest = false) (hwholes : n.wholes = [])
    {f : NodeId → Analysis β}
    (hf : ∀ id g', g'.Direct → g.Extends g' → g'.node id = n → Direct (f id) g') :
  Direct (push n >>= f) g
  := by
  have hrest := hf (g.push n).1 _ (hg.push htest hwholes) (g.extends_push n) (g.node_push n)
  exact ⟨fun b g' h => ((hrest.result b g' h).imp_left (g.extends_push n).trans), hrest.fault⟩

theorem direct_push (hg : g.Direct) (htest : n.isTest = false) (hwholes : n.wholes = []) :
  Direct (push n) g
  := by
  rw [← bind_pure (push n)]
  exact direct_push_bind hg htest hwholes fun _ _ hg' _ _ => direct_pure hg'

/-- Lifting values. -/
theorem direct_lift {m : LiftM α} (h : Lift.Direct m ⟨g, []⟩) :
  Direct (modifyGet (Lift.run m)) g
  := by
  refine ⟨fun a g' hrun => ?_, fun _ => nofun⟩
  cases hrun
  exact Lift.direct_run h

theorem direct_pushable (hg : g.Direct) (fused predicates : List NodeId) :
  Direct (pushable fused predicates) g
  := direct_lift (Lift.direct_pushableM _ _ _ hg)

theorem direct_foldlM {f : β → α → Analysis β}
    (hf : ∀ b a g, g.Direct → Direct (f b a) g) (l : List α) :
    ∀ b g, g.Direct → Direct (l.foldlM f b) g := by
  induction l with
  | nil => exact fun b g hg => direct_pure hg
  | cons a l ih =>
      intro b g hg
      rw [List.foldlM_cons]
      apply direct_bind (hf b a g hg)
      exact fun b' g' _ hg' => ih b' g' hg'

theorem direct_mapM {f : α → Analysis β} (hf : ∀ a g, g.Direct → Direct (f a) g) (l : List α) :
    ∀ g, g.Direct → Direct (l.mapM f) g := by
  induction l with
  | nil =>
      intro g hg
      rw [List.mapM_nil]
      exact direct_pure hg
  | cons a l ih =>
      intro g hg
      rw [List.mapM_cons]
      apply direct_bind (hf a g hg)
      intro b g₁ _ hg₁
      apply direct_bind (ih g₁ hg₁)
      exact fun bs g₂ _ hg₂ => direct_pure hg₂

end Analysis

open Analysis

/-- Tables are compiled directly. -/
def CompilesDirectly (compile : NodeId → Analysis Query) : Prop :=
  ∀ node g, g.Direct → g.isRelation node = true → Analysis.Direct (compile node) g

namespace Block

variable {compile : NodeId → Analysis Query} {b : Block} {node : NodeId}

/-! ### FROM clauses -/

theorem direct_leaf (hcompile : CompilesDirectly compile) (hg : g.Direct) :
  Analysis.Direct (b.leaf compile node) g
  := by
  rw [leaf]
  apply direct_get
  simp only
  split
  · split
    · exact direct_fail (.inl rfl)
    · exact direct_pure hg
  · split
    case isTrue => exact direct_fail (.inl rfl)
    case isFalse hr =>
        split
        · exact direct_pure hg
        · apply direct_bind (hcompile _ g hg (by simpa [Graph.isRelation] using hr))
          exact fun q g' _ hg' => direct_pure hg'

/-- Whether selections are evaluated below a projection. -/
theorem direct_pushed (hg : g.Direct) (c : Bool) (fused predicates : List NodeId) :
  Analysis.Direct (if c then pushable fused predicates else return false) g
  := by
  split
  · exact direct_pushable hg fused predicates
  · exact direct_pure hg

theorem direct_operand (hg : g.Direct) (hoist left : Bool) :
  Analysis.Direct (b.operand node hoist left) g
  := by
  rw [operand]
  apply direct_get
  simp only
  split
  · exact direct_pure hg
  · apply direct_bind (direct_pushed hg _ _ _)
    intro pushed g' _ hg'
    split
    · exact direct_pure hg'
    · split
      · exact direct_pure hg'
      · exact direct_pure hg'

theorem direct_joinedTables (hcompile : CompilesDirectly compile) (n : Nat) :
    ∀ (b : Block) (node : NodeId) (g : Graph), g.Direct →
      Analysis.Direct (joinedTables compile n b node) g := by
  induction n with
  | zero => exact fun b node g hg => direct_fail (.inr (.inr rfl))
  | succ n ih =>
      intro b node g hg
      rw [joinedTables]
      apply direct_get
      split
      · apply direct_bind (direct_operand hg _ _)
        intro left g₁ _ hg₁
        apply direct_bind (ih _ _ g₁ hg₁)
        intro inner g₂ _ hg₂
        apply direct_bind (direct_operand hg₂ _ _)
        intro right g₃ _ hg₃
        apply direct_bind (direct_leaf hcompile hg₃)
        exact fun b' g₄ _ hg₄ => direct_pure hg₄
      · apply direct_bind (direct_leaf hcompile hg)
        exact fun b' g' _ hg' => direct_pure hg'

theorem direct_fromTables (hcompile : CompilesDirectly compile) (hg : g.Direct) :
  Analysis.Direct (b.fromTables compile node) g
  := by
  rw [fromTables]
  apply direct_bind (direct_joinedTables hcompile _ b node g hg)
  exact fun r g' _ hg' => direct_pure hg'

theorem direct_fromSource (hcompile : CompilesDirectly compile) (hg : g.Direct) :
  Analysis.Direct (b.fromSource compile node) g
  := by
  rw [fromSource]
  apply direct_get
  simp only
  split
  · exact direct_fromTables hcompile hg
  · apply direct_bind (direct_pushed hg _ _ _)
    intro pushed g₁ _ hg₁
    split
    · apply direct_bind (direct_leaf hcompile hg₁)
      exact fun b' g₂ _ hg₂ => direct_pure hg₂
    · apply direct_bind (direct_fromTables hcompile hg₁)
      exact fun r g₂ _ hg₂ => direct_pure hg₂

/-! ### Cores -/

theorem direct_rebuild (absorbed : Folding) (table : NodeId) (outer inner predicates : List NodeId)
    (s : LiftState) (hs : s.graph.Direct) :
  Lift.Direct (Fused.rebuild absorbed table outer inner predicates) s
  := by
  have hitems : ∀ item s, s.graph.Direct → Lift.Direct (Fused.items absorbed inner item) s := by
    intro item s hs
    rw [Fused.items]
    split
    · exact Lift.direct_pure hs
    · apply LiftM.keeps_get
      split
      · exact Lift.direct_pure hs
      · apply Lift.direct_bind (Lift.direct_named absorbed .substitute item s hs)
        exact fun l s' hs' => Lift.direct_pure hs'
  have hinput : ∀ s, s.graph.Direct → Lift.Direct (Fused.input absorbed table predicates) s := by
    intro s hs
    rw [Fused.input]
    split
    · exact Lift.direct_pure hs
    · apply Lift.direct_bind (Lift.direct_mapM (Lift.direct_value absorbed .substitute) _ s hs)
      exact fun lifted s' hs' => Lift.direct_push hs' rfl rfl
  rw [Fused.rebuild]
  apply Lift.direct_bind (Lift.direct_mapM hitems outer s hs)
  intro selections s₁ hs₁
  apply Lift.direct_bind (hinput s₁ hs₁)
  exact fun source s₂ hs₂ => Lift.direct_push hs₂ rfl rfl

/-- Fusing a projection adds a projection and a selection at most. -/
theorem extends_fuse (hg : g.Direct) (projection : NodeId) :
  g.Extends (g.fuse projection).2 ∧ (g.fuse projection).2.Direct
  := by
  have hkept : g.Extends g ∧ g.Direct := ⟨.refl _, hg⟩
  rw [Graph.fuse]
  split
  case h_2 => exact hkept
  case h_1 input outer _ =>
      simp only
      split
      case h_2 => exact hkept
      case h_1 table inner _ =>
          split
          case isFalse => exact hkept
          case isTrue =>
              obtain ⟨e₁, hg₁⟩ := Lift.direct_run (Lift.direct_pushableM
                (.of ((g.peel input).chain ++ [(g.peel input).table])) (g.peel input).predicates
                ⟨g, []⟩ hg)
              split
              case isFalse => exact ⟨e₁, hg₁⟩
              case isTrue =>
                  obtain ⟨e₂, hg₂⟩ := Lift.direct_run (direct_rebuild
                    (.of ((g.peel input).chain ++ [(g.peel input).table])) table outer inner
                    (g.peel input).predicates ⟨_, []⟩ hg₁)
                  exact ⟨e₁.trans e₂, hg₂⟩

theorem direct_fuse (hg : g.Direct) (projection : NodeId) :
  Analysis.Direct (modifyGet fun g => g.fuse projection) g
  := by
  refine ⟨fun a g' hrun => ?_, fun _ => nofun⟩
  have hsame : (g.fuse projection).2 = g' := congrArg Prod.snd (Except.ok.inj hrun)
  rw [← hsame]
  exact extends_fuse hg projection

theorem direct_fuseAll (n : Nat) :
    ∀ (b : Block) (projection : NodeId) (g : Graph), g.Direct →
      Analysis.Direct (fuseAll n b projection) g := by
  induction n with
  | zero => exact fun b projection g hg => direct_pure hg
  | succ n ih =>
      intro b projection g hg
      rw [fuseAll]
      apply direct_bind (direct_fuse hg projection)
      intro fused? g' _ hg'
      split
      · exact direct_pure hg'
      · exact ih _ _ g' hg'

theorem direct_aggregation (hcompile : CompilesDirectly compile) (hg : g.Direct)
    (filters : List NodeId) :
  Analysis.Direct (b.aggregation compile node filters) g
  := by
  rw [Block.aggregation]
  apply direct_get
  split
  · apply direct_bind (direct_fromSource hcompile hg)
    exact fun r g' _ hg' => direct_pure hg'
  · exact direct_pure hg

theorem direct_projection (hcompile : CompilesDirectly compile) (hg : g.Direct)
    (filters : List NodeId) :
  Analysis.Direct (b.projection compile node filters) g
  := by
  rw [Block.projection]
  apply direct_bind (direct_fuseAll _ _ _ g hg)
  intro core g₁ _ hg₁
  apply direct_get
  split
  · rw [foldInnerSorts, foldSortsBy, bind_assoc]
    apply direct_get
    simp only [pure_bind]
    apply direct_bind (direct_fromSource hcompile hg₁)
    exact fun r g₂ _ hg₂ => direct_pure hg₂
  · exact direct_pure hg₁

theorem direct_core (hcompile : CompilesDirectly compile) (hg : g.Direct)
    (hr : g.isRelation node = true) :
  Analysis.Direct (b.core compile node) g
  := by
  rw [Block.core]
  apply direct_get
  simp only [hr, Bool.not_true, if_neg Bool.false_ne_true]
  split
  · exact direct_aggregation hcompile hg _
  · apply direct_bind (direct_pushed hg _ _ _)
    intro pushed g₁ _ hg₁
    split
    · exact direct_projection hcompile hg₁ _
    · apply direct_bind (direct_fromTables hcompile hg₁)
      exact fun r g₂ _ hg₂ => direct_pure hg₂

/-! ### Completed blocks -/

theorem direct_joinClauses {f : Folding} {leaves : List NodeId} (clauses : List JoinClause) :
    ∀ (node : NodeId) (s : LiftState), s.graph.Direct →
      (∀ r, joinClauses f leaves clauses node s = .ok r →
          s.graph.Extends r.2.2.graph ∧ r.2.2.graph.Direct)
        ∧ ∀ e, joinClauses f leaves clauses node s = .error e → e.error.IsRelational := by
  induction clauses with
  | nil =>
      intro node s hs
      constructor
      · intro r h
        cases h
        exact ⟨.refl _, hs⟩
      · intro e h
        cases h
  | cons c rest ih =>
      intro node s hs
      obtain ⟨hdirect, hextends, _⟩ :=
        Lift.direct_mapM (Lift.direct_value f .substitute) c.predicates s hs
      rw [joinClauses]
      generalize (c.predicates.mapM (Lift.value f .substitute)).run s = lifted at hdirect hextends ⊢
      obtain ⟨predicates, s₁⟩ := lifted
      simp only
      split
      · constructor
        · intro r h
          cases h
        · intro e h
          cases h
          exact .inl rfl
      · obtain ⟨hresult, hfault⟩ := ih (s₁.graph.push (.join c.kind node c.table predicates)).1
          { s₁ with graph := (s₁.graph.push (.join c.kind node c.table predicates)).2 }
          (hdirect.push rfl rfl)
        have e := hextends.trans (s₁.graph.extends_push (.join c.kind node c.table predicates))
        constructor
        · intro r h
          obtain ⟨r', hr', h⟩ := exists_of_bind_eq_ok h
          cases h
          exact (hresult r' hr').imp_left e.trans
        · intro f hf
          exact hfault f (error_of_bind_eq_error hf fun a ha => by cases ha)

theorem direct_rebuildJoins (hg : g.Direct) :
  Analysis.Direct b.rebuildJoins g
  := by
  constructor
  · intro b' g' h
    simp only [StateT.run, rebuildJoins] at h
    split at h
    · cases h
      exact ⟨.refl _, hg⟩
    · obtain ⟨r, hr, h⟩ := exists_of_bind_eq_ok h
      cases h
      exact (direct_joinClauses _ _ _ hg).1 r hr
  · intro f hf
    simp only [StateT.run, rebuildJoins] at hf
    split at hf
    · cases hf
    · exact (direct_joinClauses _ _ _ hg).2 f (error_of_bind_eq_error hf fun a ha => by cases ha)

/-- There are no rankings. -/
theorem direct_joinRankings (hg : g.Direct) :
  Analysis.Direct (b.joinRankings compile) g
  := by
  have hnone : b.clauses.predicates.filter (isRanking g) = [] := by
    rw [List.filter_eq_nil_iff]
    intro p _ hp
    have htest := hg.values p
    rw [isRanking] at hp
    split at hp
    case h_1 hn =>
        rw [hn] at htest
        cases htest
    · cases hp
  rw [joinRankings]
  apply direct_get
  rw [List.partition_eq_filter_filter]
  simp only [hnone]
  exact direct_pure hg

/-- Lifting the values of a block and those it is ordered by. -/
theorem direct_liftValues (b : Block) (s : LiftState) (hs : s.graph.Direct) :
  Lift.Direct b.liftValues s
  := by
  have hitem : ∀ item s, s.graph.Direct → Lift.Direct (liftItem b.folding item) s := by
    intro item s hs
    rw [liftItem]
    apply LiftM.keeps_get
    simp only
    split
    · exact Lift.direct_pure hs
    · exact Lift.direct_named b.folding .substitute item s hs
  have hvalue := Lift.direct_mapM (Lift.direct_value b.folding .substitute)
  rw [liftValues]
  apply Lift.direct_bind (Lift.direct_mapM hitem _ s hs)
  intro select s₁ hs₁
  apply Lift.direct_bind (hvalue _ s₁ hs₁)
  intro predicates s₂ hs₂
  apply Lift.direct_bind (hvalue _ s₂ hs₂)
  exact fun having s₃ hs₃ => Lift.direct_pure hs₃

theorem direct_liftOrder (b : Block) (s : LiftState) (hs : s.graph.Direct) :
  Lift.Direct b.liftOrder s
  := by
  rw [liftOrder]
  refine Lift.direct_bind (Lift.direct_mapM (fun k s hs => ?_) _ s hs) ?_
  · apply Lift.direct_bind (Lift.direct_value b.folding .output k.expr s hs)
    exact fun l s' hs' => Lift.direct_pure hs'
  · exact fun keys s' hs' => Lift.direct_pure hs'

theorem direct_extract {enclosing : List (List NodeId)} (hcompile : CompilesDirectly compile)
    (n : Nat) :
    ∀ (nested : List (Nested Query)) (id : NodeId) (g : Graph), g.Direct →
      Analysis.Direct (extract compile enclosing n nested id) g := by
  induction n with
  | zero => exact fun nested id g hg => direct_pure hg
  | succ n ih =>
      intro nested id g hg
      have hall := fun ids : List NodeId => direct_foldlM ih ids nested g hg
      have htest := hg.values id
      rw [extract]
      split
      · exact direct_pure hg
      · apply direct_get
        split
        case h_1 hn =>
            rw [hn] at htest
            cases htest
        case h_2 hn =>
            rw [hn] at htest
            cases htest
        case h_3 => exact hall _
        case h_4 | h_5 => exact direct_pure hg
        case h_6 =>
            split
            · exact direct_pure hg
            · split
              · split
                · exact direct_fail (.inr (.inl rfl))
                · apply direct_push_bind hg rfl rfl
                  intro value g₁ hg₁ _ _
                  apply direct_push_bind hg₁ rfl rfl
                  intro table g₂ hg₂ _ htable
                  apply direct_bind (hcompile table g₂ hg₂ (by rw [Graph.isRelation, htable]; rfl))
                  exact fun q g₃ _ hg₃ => direct_pure hg₃
              · exact hall _

theorem direct_extractSubqueries {compile : List (List NodeId) → NodeId → Analysis Query}
    (hcompile : ∀ enclosing, CompilesDirectly (compile enclosing))
    (enclosing : List (List NodeId)) (hg : g.Direct) :
  Analysis.Direct (b.extractSubqueries compile enclosing) g
  := by
  rw [extractSubqueries]
  split
  · exact direct_pure hg
  · apply direct_bind (direct_foldlM (fun nested p g hg =>
      direct_extract (hcompile _) (p.index + 1) nested p g hg) _ _ g hg)
    intro nested g₁ _ hg₁
    apply direct_get
    exact direct_pure hg₁

theorem direct_complete {compile : List (List NodeId) → NodeId → Analysis Query}
    (hcompile : ∀ enclosing, CompilesDirectly (compile enclosing))
    (enclosing : List (List NodeId)) (hg : g.Direct) :
  Analysis.Direct (b.complete compile enclosing) g
  := by
  rw [complete]
  apply direct_bind (direct_rebuildJoins hg)
  intro b₁ g₁ _ hg₁
  apply direct_bind (direct_joinRankings hg₁)
  intro b₂ g₂ _ hg₂
  apply direct_bind (direct_lift (direct_liftValues b₂ ⟨g₂, []⟩ hg₂))
  intro b₃ g₃ _ hg₃
  apply direct_bind (direct_lift (direct_liftOrder b₃ ⟨g₃, []⟩ hg₃))
  intro b₄ g₄ _ hg₄
  apply direct_bind (direct_extractSubqueries hcompile enclosing hg₄)
  exact fun b₅ g₅ _ hg₅ => direct_pure hg₅

/-- The block of a table. -/
theorem direct_ofTable {compile : List (List NodeId) → NodeId → Analysis Query}
    (hcompile : ∀ enclosing, CompilesDirectly (compile enclosing))
    (enclosing : List (List NodeId)) (hg : g.Direct) (hr : g.isRelation node = true) :
  Analysis.Direct (ofTable compile enclosing node) g
  := by
  have hlimits : g.isRelation (g.chain Graph.limitInput? node).2 = true := by
    refine hg.isRelation_chain (fun n t ht => ?_) node hr
    cases n <;> cases ht
    exact List.mem_singleton_self _
  have hsorts : g.isRelation
      (g.chain Graph.sortInput? (g.chain Graph.limitInput? node).2).2 = true := by
    refine hg.isRelation_chain (fun n t ht => ?_) _ hlimits
    cases n <;> cases ht
    exact List.mem_singleton_self _
  simp only [ofTable, foldLimits, foldTopSorts, foldSortsBy, foldDistinct, bind_assoc]
  apply direct_get
  simp only [pure_bind]
  apply direct_get
  apply direct_get
  split
  case h_1 t hn =>
      have ht : g.isRelation t = true := by
        apply hg.tables (g.chain Graph.sortInput? (g.chain Graph.limitInput? node).2).2
        rw [hn]
        exact List.mem_singleton_self t
      apply direct_bind (direct_core (hcompile enclosing) hg ht)
      exact fun b g' _ hg' => direct_complete hcompile enclosing hg'
  case h_2 =>
      apply direct_bind (direct_core (hcompile enclosing) hg hsorts)
      exact fun b g' _ hg' => direct_complete hcompile enclosing hg'

end Block

/-! ### Queries -/

theorem compilesDirectly_queryWithin (n : Nat) :
    ∀ enclosing, CompilesDirectly (queryWithin n enclosing) := by
  induction n with
  | zero => exact fun enclosing node g hg _ => direct_fail (.inr (.inr rfl))
  | succ n ih =>
      intro enclosing node g hg hr
      rw [queryWithin]
      apply direct_get
      split
      case h_1 l r distinct hn =>
          have hsides := hg.tables node
          rw [hn] at hsides
          apply direct_bind (ih enclosing l g hg (hsides l List.mem_cons_self))
          intro left g₁ e hg₁
          have hright := e.isRelation (hsides r (List.mem_cons_of_mem l List.mem_cons_self))
          apply direct_bind (ih enclosing r g₁ hg₁ hright)
          exact fun right g₂ _ hg₂ => direct_pure hg₂
      · apply direct_bind (Block.direct_ofTable ih enclosing hg hr)
        exact fun b g' _ hg' => direct_pure hg'

theorem direct_queryOf {node : NodeId} (hg : g.Direct) (hr : g.isRelation node = true) :
  Analysis.Direct (queryOf node) g
  := by
  rw [queryOf]
  apply direct_get
  exact compilesDirectly_queryWithin _ [] node g hg hr

theorem direct_withName (value : NodeId) (hg : g.Direct) :
  Analysis.Direct (withName value) g
  := by
  rw [withName]
  apply direct_get
  split
  · exact direct_pure hg
  · exact direct_push hg rfl rfl

theorem direct_constantQuery (values : List NodeId) (hg : g.Direct) :
  Analysis.Direct (constantQuery values) g
  := by
  cases values with
  | nil =>
      apply direct_push_bind hg rfl rfl
      exact fun node g' hg' _ _ => direct_pure hg'
  | cons v rest => exact direct_pure hg

/-- The query of an operator over the table that a value reads first. -/
theorem direct_queryOf_push {f : Query → α} (hg : g.Direct) (htest : n.isTest = false)
    (hwholes : n.wholes = []) (hr : n.isRelation = true) :
  Analysis.Direct (do return f (← queryOf (← push n))) g
  := by
  apply direct_push_bind hg htest hwholes
  intro table g₁ hg₁ _ hn
  apply direct_bind (direct_queryOf hg₁ (by rw [Graph.isRelation, hn, hr]))
  exact fun q g₂ _ hg₂ => direct_pure hg₂

theorem direct_valueQuery (root : NodeId) (hg : g.Direct) :
  Analysis.Direct (valueQuery root) g
  := by
  rw [valueQuery]
  apply direct_bind (direct_withName root hg)
  intro value g₁ _ hg₁
  apply direct_get
  split
  · apply direct_bind (direct_constantQuery [value] hg₁)
    exact fun q g₂ _ hg₂ => direct_pure hg₂
  · split
    · exact direct_queryOf_push hg₁ rfl rfl rfl
    · exact direct_queryOf_push hg₁ rfl rfl rfl

/-- The query of an expression that is not a duration. -/
theorem direct_rootQuery {root : NodeId} (hg : g.Direct)
    (hroot : ∀ unit count, g.node root ≠ .interval unit count) :
  Analysis.Direct (rootQuery root) g
  := by
  have htest := hg.values root
  rw [rootQuery]
  apply direct_get
  split
  · split
    case h_1 ht =>
        apply direct_bind (direct_queryOf hg (by rw [Graph.isRelation, ht]; rfl))
        exact fun q g' _ hg' => direct_pure hg'
    · exact direct_valueQuery root hg
  case h_2 exprs hn =>
      simp only [listQuery, bind_assoc]
      apply direct_bind (direct_mapM (fun e g hg => direct_withName e hg) exprs g hg)
      intro values g₁ _ hg₁
      apply direct_get
      split
      · simp only [bind_assoc]
        exact direct_queryOf_push hg₁ rfl rfl rfl
      · apply direct_bind (direct_constantQuery values hg₁)
        exact fun q g₂ _ hg₂ => direct_pure hg₂
  case h_3 hn | h_4 hn =>
      rw [hn] at htest
      cases htest
  case h_5 hn => exact absurd hn (hroot _ _)
  case h_6 =>
      split
      case isTrue hr =>
          apply direct_bind (direct_queryOf hg hr)
          exact fun q g' _ hg' => direct_pure hg'
      · exact direct_valueQuery root hg

end RelSql
