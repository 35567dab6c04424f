import RelSql.Graph.Node

/-!
# Replacing the children of a node

A node lists its children, and replaces them, in two separate definitions.  They agree: replacing
the children calls a function on the children that are listed, in this order, and what it gives are
the children of the new node.  So the children of a node may be looked at or replaced one by one
with any effect, and a node is rebuilt from its shape and its children.
-/

namespace RelSql

variable {m : Type → Type} [Monad m] [LawfulMonad m] {α β γ : Type}

/-! ### Lists of calls -/

/-- What is done to each result of a list of calls can be done at each call. -/
theorem map_mapM (f : α → m β) (h : β → γ) (l : List α) :
  List.map h <$> l.mapM f = l.mapM fun a => h <$> f a
  := by
  induction l with
  | nil => rw [List.mapM_nil, List.mapM_nil, map_pure, List.map_nil]
  | cons a l ih =>
      simp only [List.mapM_cons, ← ih, map_bind, map_pure, bind_map_left, List.map_cons]

/-- Calls for the parts of pairs, one after the other. -/
theorem mapM_pairs (f : α → m β) (l : List (α × α)) :
  (l.flatMap fun w => [w.1, w.2]).mapM f
    = (List.flatMap fun w => [w.1, w.2]) <$> l.mapM fun w => do return (← f w.1, ← f w.2)
  := by
  induction l with
  | nil => rw [List.flatMap_nil, List.mapM_nil, List.mapM_nil, map_pure, List.flatMap_nil]
  | cons w l ih =>
      simp only [List.flatMap_cons, List.mapM_append, List.mapM_cons, List.mapM_nil, ih, map_bind,
        map_pure, bind_map_left, bind_assoc, pure_bind]

/-- Calls without a result of their own come one after the other. -/
theorem mapM_calling (call : α → m Unit) (f : α → β) (l : List α) :
  (l.mapM fun a => do call a; return f a) = do forM l call; return l.map f
  := by
  induction l with
  | nil => rw [List.mapM_nil, List.forM_nil, pure_bind, List.map_nil]
  | cons a l ih =>
      simp only [List.mapM_cons, ih, List.forM_cons, bind_assoc, pure_bind, List.map_cons]

theorem mapM_calling_pairs (call : α → m Unit) (f : α → β) (l : List (α × α)) :
  (l.mapM fun w => do call w.1; call w.2; return (f w.1, f w.2)) = do
    forM (l.flatMap fun w => [w.1, w.2]) call
    return l.map fun w => (f w.1, f w.2)
  := by
  induction l with
  | nil => rw [List.mapM_nil, List.flatMap_nil, List.forM_nil, pure_bind, List.map_nil]
  | cons w l ih =>
      simp only [List.mapM_cons, ih, List.flatMap_cons, List.forM_append, List.forM_cons,
        List.forM_nil, bind_assoc, pure_bind, List.map_cons]

/-! ### Nodes -/

namespace Node

attribute [local simp] children mapChildrenM

/-- An optional handle is replaced as a list of one handle at most. -/
theorem toList_mapOptionM (f : NodeId → m NodeId) (c? : Option NodeId) :
  Option.toList <$> mapOptionM f c? = c?.toList.mapM f
  := by
  cases c? <;> simp [mapOptionM]

/-- A function with any effect is called on the children, in order, and gives the new children. -/
theorem children_mapChildrenM (f : NodeId → m NodeId) (n : Node) :
  children <$> n.mapChildrenM f = n.children.mapM f
  := by
  cases n
  case sort t keys =>
    -- the handles of sort keys stand in their keys
    have hkeys : (keys.map SortKey.expr).mapM f = List.map SortKey.expr
        <$> keys.mapM fun k => do return { k with expr := ← f k.expr } := by
      rw [map_mapM, List.mapM_map]
      simp [Function.comp_def]
    simp [List.mapM_cons, hkeys]
  case «case» base whens default =>
    simp [← toList_mapOptionM, mapM_pairs]
  case contains a options negated =>
    cases options <;> simp [List.mapM_cons]
  case topK a k metric =>
    simp [List.mapM_cons, ← toList_mapOptionM]
  all_goals simp [List.mapM_cons]

/-- Calls on the children, whose results do not depend on the calls before, replace the children by
these results. -/
theorem mapChildrenM_calling (call : NodeId → m Unit) (f : NodeId → NodeId) (n : Node) :
  (n.mapChildrenM fun c => do call c; return f c) = do
    forM n.children call
    return n.mapChildren f
  := by
  cases n
  case sort t keys =>
    have hkeys : (keys.mapM fun k => do call k.expr; return { k with expr := f k.expr }) = do
        forM (keys.map SortKey.expr) call
        return keys.map fun k => { k with expr := f k.expr } := by
      rw [List.forM_map]
      exact mapM_calling (fun k : SortKey => call k.expr)
        (fun k => { k with expr := f k.expr }) keys
    simp only [mapChildrenM, bind_assoc, pure_bind, hkeys, children, List.forM_cons]
    simp [mapChildren]
  case «case» base whens default =>
    cases base <;> cases default <;>
      simp only [mapChildrenM, mapOptionM, mapM_calling_pairs, bind_assoc, pure_bind, children,
        Option.toList, List.forM_append, List.forM_cons, List.forM_nil]
    all_goals simp [mapChildren, mapOptionM]
  case contains a options negated =>
    cases options <;>
      simp only [mapChildrenM, mapM_calling, bind_assoc, pure_bind, children, List.forM_cons,
        List.forM_nil]
    all_goals simp [mapChildren]
  case topK a k metric =>
    cases metric <;>
      simp only [mapChildrenM, mapOptionM, bind_assoc, pure_bind, children, Option.toList,
        List.forM_cons, List.forM_nil]
    all_goals simp [mapChildren, mapOptionM]
  all_goals
    simp only [mapChildrenM, mapM_calling, bind_assoc, pure_bind, children, List.forM_append,
      List.forM_cons, List.forM_nil]
    simp [mapChildren]

/-- What is done to the children of the new node can be done to what each call gives. -/
theorem mapChildren_mapChildrenM (f : NodeId → m NodeId) (h : NodeId → NodeId) (n : Node) :
  mapChildren h <$> n.mapChildrenM f = n.mapChildrenM fun c => h <$> f c
  := by
  cases n
  case sort t keys =>
    have hkeys : (keys.mapM fun k => (fun e => SortKey.mk (h e) k.ascending) <$> f k.expr)
        = List.map (fun k => { k with expr := h k.expr })
          <$> keys.mapM fun k => (fun e => { k with expr := e }) <$> f k.expr := by
      rw [map_mapM]
      simp
    simp [mapChildren, hkeys]
  case «case» base whens default =>
    have hwhens : (whens.mapM fun w => f w.1 >>= fun a => (fun b => (h a, h b)) <$> f w.2)
        = List.map (fun w => (h w.1, h w.2))
          <$> whens.mapM fun w => f w.1 >>= fun a => Prod.mk a <$> f w.2 := by
      rw [map_mapM]
      simp
    cases base <;> cases default <;> simp [mapChildren, mapOptionM, hwhens]
  case contains a options negated =>
    cases options <;> simp [mapChildren, ← map_mapM]
  case topK a k metric =>
    cases metric <;> simp [mapChildren, mapOptionM]
  all_goals simp [mapChildren, ← map_mapM]

/-- The new node has the shape of the given one. -/
theorem shape_mapChildrenM (f : NodeId → m NodeId) (n : Node) :
  shape <$> n.mapChildrenM f = do
    forM n.children fun c => (fun _ => ()) <$> f c
    return n.shape
  := calc
    shape <$> n.mapChildrenM f
    _ = n.mapChildrenM fun c => (fun _ => ⟨0⟩) <$> f c := n.mapChildren_mapChildrenM f _
    _ = n.mapChildrenM fun c => do (fun _ => ()) <$> f c; return ⟨0⟩ := by
        simp only [bind_pure_comp, Functor.map_map]
    _ = do forM n.children fun c => (fun _ => ()) <$> f c; return n.shape :=
        n.mapChildrenM_calling _ _

/-- The children of the new node are the images of the children. -/
theorem children_mapChildren (f : NodeId → NodeId) (n : Node) :
  (n.mapChildren f).children = n.children.map f
  := by
  have h := children_mapChildrenM (m := Id) (fun c => pure (f c)) n
  rw [List.mapM_pure] at h
  exact h

theorem mapChildren_id (n : Node) :
  n.mapChildren id = n
  := by
  cases n
  case contains a options negated => cases options <;> simp [mapChildren]
  case «case» base whens default =>
    cases base <;> cases default <;> simp [mapChildren, mapOptionM]
  case topK a k metric => cases metric <;> simp [mapChildren, mapOptionM]
  all_goals simp [mapChildren]

theorem mapChildren_comp (f f' : NodeId → NodeId) (n : Node) :
  n.mapChildren (f' ∘ f) = (n.mapChildren f).mapChildren f'
  := (mapChildren_mapChildrenM (m := Id) (fun c => pure (f c)) f' n).symm

theorem shape_mapChildren (f : NodeId → NodeId) (n : Node) :
  (n.mapChildren f).shape = n.shape
  := (n.mapChildren_comp f fun _ => ⟨0⟩).symm

/-- A node without its handles has as many children. -/
theorem length_children_shape (n : Node) :
  n.shape.children.length = n.children.length
  := by
  rw [shape, children_mapChildren, List.length_map]

theorem length_children_of_shape_eq {n n' : Node} (h : n'.shape = n.shape) :
  n.children.length = n'.children.length
  := by
  rw [← length_children_shape n, ← length_children_shape n', h]

theorem length_children_of_equals {n m : Node} (h : n.equals m = true) :
  n.children.length = m.children.length
  := by
  rw [equals.eq_def] at h
  split at h
  · rfl
  · rw [of_decide_eq_true h]

/-- Nodes of equal shapes have as many children. -/
theorem length_children_of_shape {n m : Node} (h : n.shape.equals m.shape = true) :
  n.children.length = m.children.length
  := by
  rw [← length_children_shape n, ← length_children_shape m]
  exact length_children_of_equals h

/-- The children of a node, and their replacement, agree.  Replacing the children calls a function
on exactly the children, in their order, whatever the effects of the calls are, and the new children
are what it gives.  Nothing else of a node is replaced: the identity gives the node, and a
composition what its parts give one after the other.  Nodes of equal shapes have as many children.
-/
theorem mapChildren_agrees (n : Node) :
  (∀ {m : Type → Type} [Monad m] [LawfulMonad m] (f : NodeId → m NodeId),
      children <$> n.mapChildrenM f = n.children.mapM f)
    ∧ (∀ {m : Type → Type} [Monad m] [LawfulMonad m] (call : NodeId → m Unit) (f : NodeId → NodeId),
      (n.mapChildrenM fun c => do call c; return f c) = do
        forM n.children call
        return n.mapChildren f)
    ∧ (∀ f, (n.mapChildren f).children = n.children.map f)
    ∧ n.mapChildren id = n
    ∧ (∀ f f', n.mapChildren (f' ∘ f) = (n.mapChildren f).mapChildren f')
    ∧ ∀ n' : Node, n.shape.equals n'.shape = true → n.children.length = n'.children.length
  := by
  refine ⟨?_, ?_, fun f => n.children_mapChildren f, n.mapChildren_id, ?_, ?_⟩
  · exact fun f => n.children_mapChildrenM f
  · exact fun call f => n.mapChildrenM_calling call f
  · exact fun f f' => n.mapChildren_comp f f'
  · exact fun n' h => length_children_of_shape h

/-- The cases of a base with two branches and no default. -/
def twoBranches : Node :=
  .case (some ⟨1⟩) [(⟨2⟩, ⟨3⟩), (⟨4⟩, ⟨3⟩)] none

/-- Each call on a handle of the branches is written down, the handle of both twice. -/
theorem mapChildren_agrees_twoBranches :
  LawfulMonad (StateM (List NodeId))
    ∧ (twoBranches.mapChildrenM (m := StateM (List NodeId)) fun c => do
        modify (· ++ [c])
        return (⟨c.index + 1⟩ : NodeId)).run []
      = (.case (some ⟨2⟩) [(⟨3⟩, ⟨4⟩), (⟨5⟩, ⟨4⟩)] none, [⟨1⟩, ⟨2⟩, ⟨3⟩, ⟨4⟩, ⟨3⟩])
    ∧ twoBranches.shape.equals
        (Node.case (some ⟨7⟩) [(⟨7⟩, ⟨7⟩), (⟨7⟩, ⟨7⟩)] none).shape = true
    ∧ twoBranches.children.length
      = (Node.case (some ⟨7⟩) [(⟨7⟩, ⟨7⟩), (⟨7⟩, ⟨7⟩)] none).children.length
  := by
  have h := mapChildren_agrees twoBranches
  refine ⟨inferInstance, ?_, by decide, h.2.2.2.2.2 _ (by decide)⟩
  rw [h.2.1 (m := StateM (List NodeId)) (fun c => modify (· ++ [c])) fun c => ⟨c.index + 1⟩]
  rfl

end Node

end RelSql
