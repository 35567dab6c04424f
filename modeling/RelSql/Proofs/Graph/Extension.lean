import RelSql.Graph.Basic
import RelSql.Graph.Typing

/-!
# Extended graphs and meanings of values

A graph extends another one when it has all its nodes, under the same handles.  Adding a
node extends a graph, and keeps it well founded when the children of the node are there.
What a local step defines on the handles of a graph is the same in all graphs that extend
it.

An algebra says what columns, row counts and tables mean, and what an operator makes of the
meanings of its operands.  Every value has a meaning in every algebra, and keeps it when
the graph grows.
-/

/-! ## Extended graphs -/

namespace RelSql

/-- Two local steps that agree on the handles below `n` define the same there. -/
theorem NodeId.recurse_congr {α : Type} {bottom : NodeId → α}
    {step step' : (NodeId → α) → NodeId → α} (hstep : LocalStep step)
    (hstep' : LocalStep step') {n : Nat}
    (h : ∀ (below : NodeId → α) (id : NodeId), id.index < n → step below id = step' below id)
    (id : NodeId) (hid : id.index < n) :
  recurse bottom step id = recurse bottom step' id
  := by
  obtain ⟨i⟩ := id
  induction i using Nat.strongRecOn with
  | ind i ih =>
      rw [recurse_eq hstep, recurse_eq hstep', ← h _ _ hid]
      apply hstep
      intro c hc
      apply ih c.index hc
      exact Nat.lt_trans hc hid

namespace Graph

variable {g g' g'' : Graph} {id : NodeId} {n : Node}

/-- A handle of a graph is one of its positions. -/
def Has (g : Graph) (id : NodeId) : Prop :=
  id.index < g.size

/-- The second graph has the nodes of the first one, under the same handles. -/
def Extends (g g' : Graph) : Prop :=
  ∀ (id : NodeId) (n : Node), g.node? id = some n → g'.node? id = some n

/-- A handle of a graph has a node. -/
theorem Has.node?_eq (h : g.Has id) :
  g.node? id = some (g.node id)
  := by
  have hi : id.index < g.nodes.size := h
  rw [node, node?, Array.getElem?_eq_getElem hi]
  rfl

theorem has_of_node? (h : g.node? id = some n) :
  g.Has id
  := (Array.getElem?_eq_some_iff.mp h).choose

/-- A graph is well founded when the children of the node at every position come before it. -/
theorem wellFounded_iff :
  g.WellFounded ↔ ∀ i < g.size, ∀ c ∈ (g.node ⟨i⟩).children, c.index < i
  := by
  constructor
  · intro h i hi c hc
    have hhas : g.Has ⟨i⟩ := hi
    exact h ⟨i⟩ _ hhas.node?_eq c hc
  · intro h id n hn c hc
    have hhas := has_of_node? hn
    rw [hhas.node?_eq, Option.some.injEq] at hn
    rw [← hn] at hc
    exact h id.index hhas c hc

instance : Decidable (g.Has id) :=
  inferInstanceAs (Decidable (id.index < g.size))

instance : Decidable g.WellFounded :=
  decidable_of_iff _ wellFounded_iff.symm

/-- What is not the constant `null` has a handle of the graph. -/
theorem has_of_node (h : g.node id = n) (hn : n ≠ .literal .null) :
  g.Has id
  := by
  cases hid : g.node? id with
  | none =>
      rw [node, hid] at h
      exact absurd h.symm hn
  | some m => exact has_of_node? hid

/-- A relation has a handle of the graph. -/
theorem has_of_isRelation (h : g.isRelation id = true) :
  g.Has id
  := by
  apply has_of_node rfl
  intro hn
  rw [isRelation, hn] at h
  cases h

theorem Extends.refl (g : Graph) :
  g.Extends g
  := fun _ _ h => h

theorem Extends.trans (h : g.Extends g') (h' : g'.Extends g'') :
  g.Extends g''
  := fun id n hn => h' id n (h id n hn)

/-- A handle stays a handle. -/
theorem Has.mono (hid : g.Has id) (h : g.Extends g') :
  g'.Has id
  := has_of_node? (h id _ hid.node?_eq)

/-- A handle keeps its node. -/
theorem Extends.node_eq (h : g.Extends g') (hid : g.Has id) :
  g'.node id = g.node id
  := by
  rw [node, h id _ hid.node?_eq]
  rfl

theorem Extends.node_eq_of (h : g.Extends g') (hid : g.node id = n)
    (hn : n ≠ .literal .null) :
  g'.node id = n
  := by
  rw [h.node_eq (has_of_node hid hn), hid]

theorem Extends.isRelation_eq (h : g.Extends g') (hid : g.Has id) :
  g'.isRelation id = g.isRelation id
  := by
  rw [isRelation, isRelation, h.node_eq hid]

theorem Extends.size_le (h : g.Extends g') :
  g.size ≤ g'.size
  := by
  cases hs : g.size with
  | zero => exact Nat.zero_le _
  | succ k =>
      have hk : g.Has ⟨k⟩ := by
        rw [Has, hs]
        exact Nat.lt_succ_self k
      exact hk.mono h

/-- The children of a node come before it. -/
theorem WellFounded.child_lt (h : g.WellFounded) {c : NodeId}
    (hc : c ∈ (g.node id).children) :
  c.index < id.index
  := by
  cases hid : g.node? id with
  | none =>
      rw [node, hid] at hc
      exact absurd hc List.not_mem_nil
  | some n =>
      rw [node, hid] at hc
      exact h id n hid c hc

theorem WellFounded.has_child (h : g.WellFounded) (hid : g.Has id) {c : NodeId}
    (hc : c ∈ (g.node id).children) :
  g.Has c
  := Nat.lt_trans (h.child_lt hc) hid

/-! ### Adding a node -/

@[simp]
theorem size_push (g : Graph) (n : Node) :
  (g.push n).2.size = g.size + 1
  := Array.size_push ..

theorem extends_push (g : Graph) (n : Node) :
  g.Extends (g.push n).2
  := by
  intro id m hm
  have hi : id.index < g.nodes.size := has_of_node? hm
  rw [node?, push, Array.getElem?_push_lt hi, ← Array.getElem?_eq_getElem hi]
  exact hm

theorem has_push (g : Graph) (n : Node) :
  (g.push n).2.Has (g.push n).1
  := by
  rw [Has, size_push]
  exact Nat.lt_succ_self _

theorem node_push (g : Graph) (n : Node) :
  (g.push n).2.node (g.push n).1 = n
  := by
  simp [node, node?, push, size]

theorem WellFounded.push (h : g.WellFounded) (hn : ∀ c ∈ n.children, g.Has c) :
  (g.push n).2.WellFounded
  := by
  intro id m hm c hc
  by_cases hid : id.index < g.size
  · have hold := (g.extends_push n).node_eq hid
    rw [(has_of_node? hm).node?_eq, Option.some.injEq] at hm
    rw [← hm, hold] at hc
    exact h.child_lt hc
  · have hlt := has_of_node? hm
    rw [Has, size_push] at hlt
    have heq : id = (g.push n).1 := by
      cases id
      simp only [Graph.push, NodeId.mk.injEq]
      simp only at hid hlt
      omega
    subst heq
    rw [(has_push g n).node?_eq, node_push, Option.some.injEq] at hm
    subst hm
    exact hn c hc

end Graph

/-- A family of steps, one for each graph, that agree on a node in two graphs which have the
node, and are local in well-founded graphs. -/
structure NodeId.StableStep {α : Type} (step : Graph → (NodeId → α) → NodeId → α) : Prop where
  isLocal : ∀ {g : Graph}, g.WellFounded → LocalStep (step g)
  stable : ∀ {g g' : Graph} (below : NodeId → α) (id : NodeId), g.WellFounded →
    g'.WellFounded → g.Extends g' → g.Has id → step g' below id = step g below id

/-- What a stable family of steps defines on a handle is the same in an extended graph. -/
theorem NodeId.StableStep.recurse_eq {α : Type}
    {step : Graph → (NodeId → α) → NodeId → α} (hstep : StableStep step) {g g' : Graph}
    (hg : g.WellFounded) (hg' : g'.WellFounded) (h : g.Extends g') {id : NodeId}
    (hid : g.Has id) (bottom : NodeId → α) :
  recurse bottom (step g') id = recurse bottom (step g) id
  := by
  apply NodeId.recurse_congr (hstep.isLocal hg') (hstep.isLocal hg) _ id hid
  intro below c hc
  exact hstep.stable below c hg hg' h hc

end RelSql

/-! ## Meanings of values -/

namespace RelSql

/-- What the columns, the row counts and the tables that a value reads mean, and what each
operator makes of the meanings of its operands.  Operators are nodes without handles. -/
structure Algebra (α : Type) where
  column : NodeId → String → α
  count : NodeId → α
  table : NodeId → α
  operator : Node → List α → α

namespace Node

/-- An operator of values: neither a table nor what reads one. -/
def isOperator : Node → Bool
  | .column _ _ | .countStar _ => false
  | n => !n.isRelation

/-- A table is not an operator of values. -/
theorem isOperator_of_isRelation {n : Node} (h : n.isRelation = true) :
  n.isOperator = false
  := by
  cases n <;> first | rfl | cases h

/-- An operator of values is not a table. -/
theorem isRelation_of_isOperator {n : Node} (h : n.isOperator = true) :
  n.isRelation = false
  := by
  cases n <;> first | rfl | cases h

/-- An operator is one without its handles. -/
@[simp]
theorem isOperator_shape (n : Node) :
  n.shape.isOperator = n.isOperator
  := by
  cases n
  case contains a options negated => cases options <;> rfl
  all_goals rfl

/-- A node is a column, a row count, a table or an operator. -/
theorem kinds (n : Node) :
  (∃ t name, n = .column t name) ∨ (∃ t, n = .countStar t) ∨ n.isRelation = true
    ∨ n.isOperator = true
  := by
  cases n <;> simp [isRelation, isOperator]

end Node

namespace Graph

variable {α : Type} {g g' : Graph} {id : NodeId}

/-- The meaning of a node from the meanings of its children. -/
def denoteStep (A : Algebra α) (g : Graph) (below : NodeId → α) (id : NodeId) : α :=
  match g.node id with
  | .column t name => A.column t name
  | .countStar t => A.count t
  | n => if n.isRelation then A.table id else A.operator n.shape (n.children.map below)

/-- The meaning of a value. -/
def denote (g : Graph) (A : Algebra α) : NodeId → α :=
  NodeId.recurse A.table (g.denoteStep A)

/-- A step that consults the children of a node is local. -/
theorem denoteStep_stable (A : Algebra α) :
  NodeId.StableStep fun g => g.denoteStep A
  := by
  constructor
  · intro g hg f f' id h
    have hmap : (g.node id).children.map f = (g.node id).children.map f' := by
      apply List.map_congr_left
      intro c hc
      apply h c (hg.child_lt hc)
    rw [denoteStep, denoteStep]
    split
    · rfl
    · rfl
    · rw [hmap]
  · intro g g' below id _ _ h hid
    rw [denoteStep, denoteStep, h.node_eq hid]

theorem denote_eq (hg : g.WellFounded) (A : Algebra α) (id : NodeId) :
  g.denote A id = g.denoteStep A (g.denote A) id
  := NodeId.recurse_eq ((denoteStep_stable A).isLocal hg) id

/-- A value keeps its meaning. -/
theorem Extends.denote_eq (h : g.Extends g') (hg : g.WellFounded) (hg' : g'.WellFounded)
    (hid : g.Has id) (A : Algebra α) :
  g'.denote A id = g.denote A id
  := (denoteStep_stable A).recurse_eq hg hg' h hid _

theorem denote_column (hg : g.WellFounded) (A : Algebra α) {t : NodeId} {name : String}
    (hn : g.node id = .column t name) :
  g.denote A id = A.column t name
  := by
  rw [Graph.denote_eq hg, denoteStep, hn]

theorem denote_countStar (hg : g.WellFounded) (A : Algebra α) {t : NodeId}
    (hn : g.node id = .countStar t) :
  g.denote A id = A.count t
  := by
  rw [Graph.denote_eq hg, denoteStep, hn]

theorem denote_relation (hg : g.WellFounded) (A : Algebra α) (hr : g.isRelation id = true) :
  g.denote A id = A.table id
  := by
  rw [isRelation] at hr
  rw [Graph.denote_eq hg, denoteStep]
  split
  case h_1 hn => rw [hn] at hr; cases hr
  case h_2 hn => rw [hn] at hr; cases hr
  · rw [if_pos hr]

theorem denote_operator (hg : g.WellFounded) (A : Algebra α)
    (ho : (g.node id).isOperator = true) :
  g.denote A id = A.operator (g.node id).shape ((g.node id).children.map (g.denote A))
  := by
  rw [Graph.denote_eq hg, denoteStep]
  cases hn : g.node id <;> rw [hn] at ho <;> first | rfl | cases ho

end Graph

end RelSql

/-! ### Typing of extended graphs

The typing of a handle, the fields of a table and what a value is named are the same in
every graph that extends the given one.
-/

namespace RelSql

/-- Computations that agree on the elements of a list agree on the list. -/
theorem mapM_congr_left {m : Type → Type} [Monad m] [LawfulMonad m] {α β : Type}
    {f f' : α → m β} {l : List α} (h : ∀ a ∈ l, f a = f' a) :
  l.mapM f = l.mapM f'
  := by
  induction l with
  | nil => rw [List.mapM_nil, List.mapM_nil]
  | cons a l ih =>
      rw [List.mapM_cons, List.mapM_cons, h a List.mem_cons_self,
        ih fun b hb => h b (List.mem_cons_of_mem a hb)]

namespace Graph

variable {g g' : Graph} {id : NodeId}

/-- A value keeps the name it is given. -/
theorem Extends.name?_eq (h : g.Extends g') (hid : g.Has id) :
  g'.name? id = g.name? id
  := by
  rw [name?, name?, h.node_eq hid]

/-! ### Aliases -/

/-- One step of taking the aliases off a value. -/
theorem unaliased_stable :
  NodeId.StableStep fun g (below : NodeId → NodeId) id =>
    match g.node id with
    | .named arg _ => below arg
    | _ => id
  := by
  constructor
  · intro g hg f f' id h
    simp only
    split
    case h_1 arg _ hn =>
        apply h
        apply hg.child_lt
        rw [hn]
        exact List.mem_singleton_self arg
    · rfl
  · intro g g' below id _ _ h hid
    rw [h.node_eq hid]

theorem unaliased_eq (hg : g.WellFounded) (id : NodeId) :
  g.unaliased id = match g.node id with
    | .named arg _ => g.unaliased arg
    | _ => id
  := NodeId.recurse_eq (unaliased_stable.isLocal hg) id

theorem Extends.unaliased_eq (h : g.Extends g') (hg : g.WellFounded) (hg' : g'.WellFounded)
    (hid : g.Has id) :
  g'.unaliased id = g.unaliased id
  := unaliased_stable.recurse_eq hg hg' h hid _

/-- A value without its aliases does not come after it. -/
theorem WellFounded.unaliased_le (hg : g.WellFounded) (id : NodeId) :
  (g.unaliased id).index ≤ id.index
  := by
  obtain ⟨i⟩ := id
  induction i using Nat.strongRecOn with
  | ind i ih =>
      rw [Graph.unaliased_eq hg]
      split
      case h_1 arg _ hn =>
          have harg : arg ∈ (g.node ⟨i⟩).children := by
            rw [hn]
            exact List.mem_singleton_self arg
          have hlt : arg.index < i := hg.child_lt harg
          exact Nat.le_of_lt (Nat.lt_of_le_of_lt (ih arg.index hlt) hlt)
      · exact Nat.le_refl _

/-! ### Schemas and types -/

section

variable {typing typing' : NodeId → Typing}

/-- The schema of a node is that of its children's typing. -/
theorem schemaStep_congr (h : ∀ c ∈ (g.node id).children, typing c = typing' c) :
  g.schemaStep typing id = g.schemaStep typing' id
  := by
  unfold schemaStep
  cases hn : g.node id <;> rw [hn] at h
  case view | selection | sort | limit | distinct | union => simp only [h _ List.mem_cons_self]
  case projection t selections =>
    simp only
    rw [mapM_congr_left]
    intro c hc
    rw [itemFields, itemFields, outputField, outputField, h c (List.mem_cons_of_mem t hc)]
  case aggregation t keys metrics having =>
    simp only
    rw [mapM_congr_left]
    intro c hc
    have hitem : c ∈ (Node.aggregation t keys metrics having).children := by
      apply List.mem_cons_of_mem
      exact List.mem_append_left having hc
    rw [outputField, outputField, h c hitem]
  case join kind l r predicates =>
    simp only [h l (by simp [Node.children]), h r (by simp [Node.children])]

/-- The type of a function's value is that of its arguments' typing. -/
theorem callType_congr (function : Function) {arguments : List NodeId}
    (h : ∀ c ∈ arguments, typing c = typing' c) :
  callType typing function arguments = callType typing' function arguments
  := by
  cases arguments with
  | nil => cases function <;> rfl
  | cons c rest =>
      have hc := h c List.mem_cons_self
      cases function <;> simp only [callType, hc]

/-- The type of a node is that of its children's typing. -/
theorem dataTypeStep_congr (h : ∀ c ∈ (g.node id).children, typing c = typing' c) :
  g.dataTypeStep typing id = g.dataTypeStep typing' id
  := by
  unfold dataTypeStep
  cases hn : g.node id <;> rw [hn] at h
  case column | named | reduction => simp only [h _ List.mem_cons_self]
  case unary op arg => cases op <;> simp only [h arg List.mem_cons_self]
  case binary op l r =>
    simp only [binaryType, h l (by simp [Node.children]), h r (by simp [Node.children])]
  case call function arguments => exact callType_congr function h
  case «case» base whens default =>
    simp only
    rw [mapM_congr_left]
    intro c hc
    rw [h c]
    simp only [List.mem_append, List.mem_map] at hc
    simp only [Node.children, List.mem_append, List.mem_flatMap]
    rcases hc with ⟨w, hw, rfl⟩ | hc
    · exact .inl (.inr ⟨w, hw, by simp⟩)
    · exact .inr hc

end

theorem typingStep_stable :
  NodeId.StableStep fun g => g.typingStep
  := by
  constructor
  · intro g hg f f' id h
    have hc : ∀ c ∈ (g.node id).children, f c = f' c := fun c hc => h c (hg.child_lt hc)
    rw [typingStep, typingStep, schemaStep_congr hc, dataTypeStep_congr hc]
  · intro g g' below id hg _ h hid
    have hr : ∀ c ∈ (g.node id).children, g'.isRelation c = g.isRelation c :=
      fun c hc => h.isRelation_eq (hg.has_child hid hc)
    have hname : ∀ c ∈ (g.node id).children, g'.name? c = g.name? c :=
      fun c hc => h.name?_eq (hg.has_child hid hc)
    have hnode : ∀ c ∈ (g.node id).children, g'.node c = g.node c :=
      fun c hc => h.node_eq (hg.has_child hid hc)
    simp only [typingStep, Typing.mk.injEq]
    constructor
    · unfold schemaStep
      rw [h.node_eq hid]
      cases hn : g.node id <;> rw [hn] at hr hname
      case projection t selections =>
        simp only
        rw [mapM_congr_left]
        intro c hc
        rw [itemFields, itemFields, outputField, outputField, hr c (List.mem_cons_of_mem t hc),
          hname c (List.mem_cons_of_mem t hc)]
      case aggregation t keys metrics having =>
        simp only
        rw [mapM_congr_left]
        intro c hc
        have hitem : c ∈ (Node.aggregation t keys metrics having).children := by
          apply List.mem_cons_of_mem
          exact List.mem_append_left having hc
        rw [outputField, outputField, hname c hitem]
    · unfold dataTypeStep
      rw [h.node_eq hid]
      cases hn : g.node id <;> rw [hn] at hnode
      case binary op l r => simp only [binaryType, hnode r (by simp [Node.children])]
      case unary op arg => cases op <;> rfl

/-- A handle keeps its typing. -/
theorem Extends.typing_eq (h : g.Extends g') (hg : g.WellFounded) (hg' : g'.WellFounded)
    (hid : g.Has id) :
  g'.typing id = g.typing id
  := typingStep_stable.recurse_eq hg hg' h hid _

theorem Extends.schema_eq (h : g.Extends g') (hg : g.WellFounded) (hg' : g'.WellFounded)
    (hid : g.Has id) :
  g'.schema id = g.schema id
  := by
  rw [schema, schema, h.typing_eq hg hg' hid]

/-- A table keeps its fields. -/
theorem Extends.hasField_eq (h : g.Extends g') (hg : g.WellFounded) (hg' : g'.WellFounded)
    (hid : g.Has id) (name : String) :
  g'.hasField id name = g.hasField id name
  := by
  rw [hasField, hasField, h.schema_eq hg hg' hid]

/-- An item of a projection keeps the names it provides. -/
theorem Extends.provides_eq (h : g.Extends g') (hg : g.WellFounded) (hg' : g'.WellFounded)
    (hid : g.Has id) (name : String) :
  g'.provides name id = g.provides name id
  := by
  rw [provides, provides, h.isRelation_eq hid, h.hasField_eq hg hg' hid, h.name?_eq hid]

/-- The schema of a node from the typing of its children. -/
theorem schema_eq (hg : g.WellFounded) (id : NodeId) :
  g.schema id = g.schemaStep g.typing id
  := congrArg Typing.schema (NodeId.recurse_eq (typingStep_stable.isLocal hg) id)

end Graph

end RelSql
