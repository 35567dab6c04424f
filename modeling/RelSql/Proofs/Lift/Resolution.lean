import Mathlib.Data.List.Find
import RelSql.Proofs.Graph.Extension
import RelSql.Lift

/-!
# Resolution

What a value means once the operators that it reads are folded: a column of a folded table
means what the column or the value that it stands for means.  Resolution says in every
algebra what lifting makes of a value, without adding a node to the graph.
-/

namespace RelSql.Folding

variable {α : Type} {g g' : Graph} {id : NodeId}

/-- The meaning of the columns of a table, and of a value. -/
structure Resolved (α : Type) where
  column : String → α
  value : α

/-- The meaning of a column of a table from that of the nodes below the table. -/
def resolveColumn (s : Folding) (mode : LiftMode) (A : Algebra α) (g : Graph)
    (below : NodeId → Resolved α) (table : NodeId) (name : String) : α :=
  if !s.contains table || (mode = .output && s.outputs.contains table) then
    A.column table name
  else
    match g.node table with
    | .projection _ selections =>
      match Lift.provider? g selections name with
      | some item =>
        if g.isRelation item then (below item).column name
        else (below (g.unaliased item)).value
      | none => A.column table name
    | node =>
      if mode = .projections then A.column table name
      else
        match node with
        | .selection t _ | .sort t _ | .limit t _ _ | .distinct t => (below t).column name
        | .join _ l r _ => (below (if g.hasField l name then l else r)).column name
        | .aggregation _ keys metrics _ =>
          match Lift.namedItem? g (keys ++ metrics) name with
          | some item => (below (g.unaliased item)).value
          | none => A.column table name
        | _ => A.column table name

/-- The meaning of a value from that of its operands. -/
def resolveValue (A : Algebra α) (g : Graph) (below : NodeId → Resolved α) (id : NodeId) : α :=
  match g.node id with
  | .column t name => (below t).column name
  | .countStar t => A.count t
  | n =>
    if n.isRelation then A.table id
    else A.operator n.shape (n.children.map fun c => (below c).value)

/-- An operator resolves to itself, over what its operands resolve to. -/
theorem resolveValue_operator (A : Algebra α) (below : NodeId → Resolved α)
    (ho : (g.node id).isOperator = true) :
  resolveValue A g below id
    = A.operator (g.node id).shape ((g.node id).children.map fun c => (below c).value)
  := by
  rw [resolveValue]
  cases hn : g.node id <;> rw [hn] at ho <;> first | rfl | cases ho

/-- A table resolves to itself. -/
theorem resolveValue_relation (A : Algebra α) (below : NodeId → Resolved α)
    (hr : g.isRelation id = true) :
  resolveValue A g below id = A.table id
  := by
  rw [Graph.isRelation] at hr
  rw [resolveValue]
  cases hn : g.node id <;> rw [hn] at hr <;> first | rfl | cases hr

/-- One step of resolution. -/
def resolveStep (s : Folding) (mode : LiftMode) (A : Algebra α) (g : Graph)
    (below : NodeId → Resolved α) (id : NodeId) : Resolved α :=
  ⟨s.resolveColumn mode A g below id, resolveValue A g below id⟩

/-- The meaning of the columns of a table, and of a value, once the folding is applied. -/
def resolve (s : Folding) (mode : LiftMode) (A : Algebra α) (g : Graph) : NodeId → Resolved α :=
  NodeId.recurse (fun id => ⟨fun name => A.column id name, A.table id⟩) (s.resolveStep mode A g)

/-- The item that provides a name is one of the items. -/
theorem provider_mem {selections : List NodeId} {name : String} {item : NodeId}
    (h : Lift.provider? g selections name = some item) :
  item ∈ selections
  := List.mem_of_find?_eq_some h

theorem namedItem_mem {items : List NodeId} {name : String} {item : NodeId}
    (h : Lift.namedItem? g items name = some item) :
  item ∈ items
  := List.mem_of_find?_eq_some h

/-- A column is resolved by the children of its table and what they stand for. -/
theorem resolveColumn_congr (hg : g.WellFounded) (s : Folding) (mode : LiftMode)
    (A : Algebra α) {f f' : NodeId → Resolved α}
    (h : ∀ c : NodeId, c.index < id.index → f c = f' c) :
  s.resolveColumn mode A g f id = s.resolveColumn mode A g f' id
  := by
  have hc : ∀ c ∈ (g.node id).children, f c = f' c := fun c hc => h c (hg.child_lt hc)
  have hu : ∀ c ∈ (g.node id).children, f (g.unaliased c) = f' (g.unaliased c) := by
    intro c hc
    apply h
    exact Nat.lt_of_le_of_lt (hg.unaliased_le c) (hg.child_lt hc)
  funext name
  unfold resolveColumn
  split
  · rfl
  · cases hn : g.node id <;> rw [hn] at hc hu
    case projection t selections =>
      simp only
      cases hp : Lift.provider? g selections name with
      | none => rfl
      | some item =>
          have hitem := List.mem_cons_of_mem t (provider_mem hp)
          simp only [hc item hitem, hu item hitem]
    case aggregation t keys metrics having =>
      simp only
      split
      · rfl
      · cases hp : Lift.namedItem? g (keys ++ metrics) name with
        | none => rfl
        | some item =>
            have hitem : item ∈ (Node.aggregation t keys metrics having).children := by
              apply List.mem_cons_of_mem
              exact List.mem_append_left having (namedItem_mem hp)
            simp only [hu item hitem]
    case join kind l r predicates =>
      have hl := hc l (by simp [Node.children])
      have hr := hc r (by simp [Node.children])
      simp only
      split
      · rfl
      · split
        · rw [hl]
        · rw [hr]
    case selection | sort | limit | distinct => simp only [hc _ List.mem_cons_self]

/-- The items of a table keep what they provide. -/
theorem provider_extends (h : g.Extends g') (hg : g.WellFounded) (hg' : g'.WellFounded)
    {selections : List NodeId} (hs : ∀ c ∈ selections, g.Has c) (name : String) :
  Lift.provider? g' selections name = Lift.provider? g selections name
  := by
  apply List.find?_congr
  intro c hc
  exact h.provides_eq hg hg' (hs c hc) name

theorem namedItem_extends (h : g.Extends g') {items : List NodeId}
    (hs : ∀ c ∈ items, g.Has c) (name : String) :
  Lift.namedItem? g' items name = Lift.namedItem? g items name
  := by
  apply List.find?_congr
  intro c hc
  rw [h.name?_eq (hs c hc)]

/-- A column of a table is resolved in the same way in an extended graph. -/
theorem resolveColumn_stable (s : Folding) (mode : LiftMode) (A : Algebra α)
    (below : NodeId → Resolved α) (hg : g.WellFounded) (hg' : g'.WellFounded)
    (h : g.Extends g') (hid : g.Has id) :
  s.resolveColumn mode A g' below id = s.resolveColumn mode A g below id
  := by
  have hc : ∀ c ∈ (g.node id).children, g.Has c := fun c hc => hg.has_child hid hc
  funext name
  unfold resolveColumn
  rw [h.node_eq hid]
  split
  · rfl
  · cases hn : g.node id <;> rw [hn] at hc
    case projection t selections =>
      have hitems : ∀ c ∈ selections, g.Has c := fun c h => hc c (List.mem_cons_of_mem t h)
      simp only [provider_extends h hg hg' hitems]
      cases hp : Lift.provider? g selections name with
      | none => rfl
      | some item =>
          have hitem := hitems item (provider_mem hp)
          simp only [h.isRelation_eq hitem, h.unaliased_eq hg hg' hitem]
    case aggregation t keys metrics having =>
      have hitems : ∀ c ∈ keys ++ metrics, g.Has c := by
        intro c hmem
        apply hc
        apply List.mem_cons_of_mem
        exact List.mem_append_left having hmem
      simp only [namedItem_extends h hitems]
      split
      · rfl
      · cases hp : Lift.namedItem? g (keys ++ metrics) name with
        | none => rfl
        | some item => simp only [h.unaliased_eq hg hg' (hitems item (namedItem_mem hp))]
    case join kind l r predicates =>
      simp only [h.hasField_eq hg hg' (hc l (by simp [Node.children]))]

/-- The step of resolution is local, and the same in extended graphs. -/
theorem resolveStep_stable (s : Folding) (mode : LiftMode) (A : Algebra α) :
  NodeId.StableStep fun g => s.resolveStep mode A g
  := by
  constructor
  · intro g hg f f' id h
    have hmap : (g.node id).children.map (fun c => (f c).value)
        = (g.node id).children.map fun c => (f' c).value := by
      apply List.map_congr_left
      intro c hc
      rw [h c (hg.child_lt hc)]
    simp only [resolveStep, Resolved.mk.injEq]
    constructor
    · exact resolveColumn_congr hg s mode A h
    · unfold resolveValue
      split
      case h_1 t name hn =>
          rw [h t]
          apply hg.child_lt
          rw [hn]
          exact List.mem_singleton_self t
      · rfl
      · rw [hmap]
  · intro g g' below id hg hg' h hid
    simp only [resolveStep, Resolved.mk.injEq]
    constructor
    · exact resolveColumn_stable s mode A below hg hg' h hid
    · rw [resolveValue, resolveValue, h.node_eq hid]

theorem resolve_eq (hg : g.WellFounded) (s : Folding) (mode : LiftMode) (A : Algebra α)
    (id : NodeId) :
  s.resolve mode A g id = s.resolveStep mode A g (s.resolve mode A g) id
  := NodeId.recurse_eq ((resolveStep_stable s mode A).isLocal hg) id

/-- A handle keeps its resolution. -/
theorem resolve_extends (h : g.Extends g') (hg : g.WellFounded) (hg' : g'.WellFounded)
    (hid : g.Has id) (s : Folding) (mode : LiftMode) (A : Algebra α) :
  s.resolve mode A g' id = s.resolve mode A g id
  := (resolveStep_stable s mode A).recurse_eq hg hg' h hid _

end RelSql.Folding
