import RelSql.Proofs.Lift.Effect
import RelSql.Proofs.Lift.Resolution

/-!
# Soundness of lifting

A lifted value means in every algebra what the resolution of the value says.  The memo of
the values that have been lifted is part of the invariant: each of them has become a value
of its resolution.
-/

namespace RelSql

variable {s : Folding} {mode : LiftMode} {st : LiftState}

/-- The node `l` of the graph means what `id` resolves to. -/
structure Folding.Lifts (s : Folding) (mode : LiftMode) (g : Graph) (id l : NodeId) : Prop where
  source : g.Has id
  target : g.Has l
  denote : ∀ {α : Type} (A : Algebra α), g.denote A l = (s.resolve mode A g id).value

/-- The node `l` of the graph means what a column of a table resolves to. -/
structure Folding.LiftsColumn (s : Folding) (mode : LiftMode) (g : Graph)
    (table : NodeId) (name : String) (l : NodeId) : Prop where
  source : g.Has table
  target : g.Has l
  denote : ∀ {α : Type} (A : Algebra α),
    g.denote A l = (s.resolve mode A g table).column name

/-- A state is sound when its graph is well founded and its memo only has liftings. -/
structure LiftState.Sound (s : Folding) (mode : LiftMode) (st : LiftState) : Prop where
  wellFounded : st.graph.WellFounded
  memo : ∀ m ∈ st.memo, s.Lifts mode st.graph m.1 m.2

namespace Folding

theorem Lifts.persistent (id : NodeId) :
  Graph.Persistent fun g l => s.Lifts mode g id l
  := by
  intro g g' l hg hg' h hl
  constructor
  · exact hl.source.mono h
  · exact hl.target.mono h
  · intro α A
    rw [h.denote_eq hg hg' hl.target, hl.denote,
      resolve_extends h hg hg' hl.source]

end Folding

/-- A sound state stays sound when nodes are added to its graph. -/
theorem LiftState.Sound.extend (h : st.Sound s mode) {g : Graph} (hg : g.WellFounded)
    (e : st.graph.Extends g) :
  LiftState.Sound s mode { st with graph := g }
  := by
  constructor
  · exact hg
  · intro m hm
    exact Folding.Lifts.persistent m.1 h.wellFounded hg e (h.memo m hm)

namespace Lift

open LiftM

/-- Adding a node whose children are there keeps a sound state sound. -/
theorem keeps_push (hs : st.Sound s mode) {n : Node} (hn : ∀ c ∈ n.children, st.graph.Has c) :
  Keeps (LiftState.Sound s mode) (fun g id => g.Has id ∧ g.node id = n) (push n) st
  := by
  have e := st.graph.extends_push n
  refine ⟨?_, e, ?_⟩
  · exact hs.extend (hs.wellFounded.push hn) e
  · exact ⟨Graph.has_push _ n, Graph.node_push _ n⟩

/-- A column that stays means what the algebra says. -/
theorem keeps_kept (hs : st.Sound s mode) {kept : Option NodeId} {table : NodeId}
    {name : String} (ht : st.graph.Has table)
    (hres : ∀ {α : Type} (A : Algebra α),
      (s.resolve mode A st.graph table).column name = A.column table name) :
  (∀ id ∈ kept, st.graph.node id = .column table name) →
    Keeps (LiftState.Sound s mode) (fun g l => s.LiftsColumn mode g table name l)
      (match kept with
        | some id => return id
        | none => push (.column table name)) st
  := by
  intro hkept
  cases kept with
  | some id =>
      have hn := hkept id rfl
      apply keeps_pure hs
      refine ⟨ht, Graph.has_of_node hn nofun, ?_⟩
      intro α A
      rw [hres, Graph.denote_column hs.wellFounded A hn]
  | none =>
      have hc : ∀ c ∈ (Node.column table name).children, st.graph.Has c := by
        intro c hc
        rw [List.mem_singleton.mp hc]
        exact ht
      apply (keeps_push hs hc).imp
      intro l st' hs' e hl
      refine ⟨ht.mono e, hl.1, ?_⟩
      intro α A
      rw [Graph.denote_column hs'.wellFounded A hl.2,
        Folding.resolve_extends e hs.wellFounded hs'.wellFounded ht, hres]

/-- What a value without handles to replace resolves to. -/
theorem resolve_value_eq {g : Graph} (hg : g.WellFounded) {α : Type} (A : Algebra α)
    (id : NodeId) :
  (s.resolve mode A g id).value = Folding.resolveValue A g (s.resolve mode A g) id
  := by
  rw [Folding.resolve_eq hg]
  rfl

theorem resolve_column_eq {g : Graph} (hg : g.WellFounded) {α : Type} (A : Algebra α)
    (table : NodeId) (name : String) :
  (s.resolve mode A g table).column name
    = s.resolveColumn mode A g (s.resolve mode A g) table name
  := by
  rw [Folding.resolve_eq hg]
  rfl

/-- A node of the operator of a value, over what its operands resolve to, is what the value
resolves to. -/
theorem lifts_operator {g : Graph} (hg : g.WellFounded) {id l : NodeId} (hid : g.Has id)
    (hl : g.Has l) (ho : (g.node id).isOperator = true)
    (h : Node.Alike (s.Lifts mode g) (g.node id) (g.node l)) :
  s.Lifts mode g id l
  := by
  refine ⟨hid, hl, ?_⟩
  intro α A
  have hol : (g.node l).isOperator = true := by
    rw [← Node.isOperator_shape, h.shape_eq, Node.isOperator_shape]
    exact ho
  have hmap : (g.node id).children.map (fun c => (s.resolve mode A g c).value)
      = (g.node l).children.map (g.denote A) := by
    rw [← List.forall₂_eq_eq_eq, List.forall₂_map_left_iff, List.forall₂_map_right_iff]
    apply h.children.imp
    intro c c' hc
    exact (hc.denote A).symm
  rw [Graph.denote_operator hg A hol, h.shape_eq, resolve_value_eq hg,
    Folding.resolveValue_operator A _ ho, hmap]

/-- A row count is not lifted. -/
theorem lifts_countStar {g : Graph} (hg : g.WellFounded) {id t : NodeId}
    (hn : g.node id = .countStar t) :
  s.Lifts mode g id id
  := by
  have hid := Graph.has_of_node hn nofun
  refine ⟨hid, hid, ?_⟩
  intro α A
  rw [resolve_value_eq hg, Folding.resolveValue, Graph.denote_countStar hg A hn, hn]

/-- A table is not lifted. -/
theorem lifts_relation {g : Graph} (hg : g.WellFounded) {id : NodeId}
    (hr : g.isRelation id = true) :
  s.Lifts mode g id id
  := by
  have hid := Graph.has_of_isRelation hr
  refine ⟨hid, hid, ?_⟩
  intro α A
  rw [resolve_value_eq hg, Folding.resolveValue_relation A _ hr, Graph.denote_relation hg A hr]

/-- Lifting is sound to a depth of `n` for the handles below `n`. -/
structure SoundWithin (s : Folding) (mode : LiftMode) (n : Nat) : Prop where
  value : ∀ {st : LiftState} {id : NodeId}, st.Sound s mode → st.graph.Has id → id.index < n →
    Keeps (LiftState.Sound s mode) (fun g l => s.Lifts mode g id l)
      (valueWithin s mode n id) st
  column : ∀ {st : LiftState} (kept : Option NodeId) {table : NodeId} {name : String},
    st.Sound s mode → st.graph.Has table → table.index < n →
    (∀ id ∈ kept, st.graph.node id = .column table name) →
    Keeps (LiftState.Sound s mode) (fun g l => s.LiftsColumn mode g table name l)
      (columnWithin s mode n kept table name) st

/-- A value keeps its handle when its operands keep theirs. -/
theorem lifts_same {g : Graph} (hg : g.WellFounded) {id : NodeId} (hid : g.Has id)
    (ho : (g.node id).isOperator = true) {n : Node}
    (h : Node.Alike (s.Lifts mode g) (g.node id) n) (hsame : n.children = (g.node id).children) :
  s.Lifts mode g id id
  := by
  have hchildren := h.children
  rw [hsame] at hchildren
  exact lifts_operator hg hid hid ho ⟨rfl, hchildren⟩

/-- The operator over the lifted operands of a value is what the value is lifted to. -/
theorem keeps_push_alike {id : NodeId} (hs : st.Sound s mode) (hid : st.graph.Has id)
    (ho : (st.graph.node id).isOperator = true) {n : Node}
    (h : Node.Alike (s.Lifts mode st.graph) (st.graph.node id) n) :
  Keeps (LiftState.Sound s mode) (fun g l => s.Lifts mode g id l) (push n) st
  := by
  have hn := forall₂_right h.children fun _ _ hc => hc.target
  apply (keeps_push hs hn).imp
  intro l st' hs' e' hl
  have hnode := e'.node_eq hid
  apply lifts_operator hs'.wellFounded (hid.mono e') hl.1
  · rw [hnode]
    exact ho
  · rw [hnode, hl.2]
    refine ⟨h.shape_eq, h.children.imp ?_⟩
    intro c c' hc
    exact Folding.Lifts.persistent c hs.wellFounded hs'.wellFounded e' hc

/-- Sound states track what values are lifted to. -/
theorem tracks_lifts (s : Folding) (mode : LiftMode) :
  Tracks (LiftState.Sound s mode) fun g id l => s.Lifts mode g id l
  where
    wellFounded _ hs := hs.wellFounded
    persistent id := Folding.Lifts.persistent id
    memo hs := hs.memo
    remembered hs hl := ⟨hs.wellFounded, List.forall_mem_cons.mpr ⟨hl, hs.memo⟩⟩
    countStar hg hn := lifts_countStar hg hn
    relation hg hr := lifts_relation hg hr
    same hg hid ho h hsame := lifts_same hg hid ho h hsame
    pushed hs hid ho h _ := keeps_push_alike hs hid ho h

/-- A column is lifted once the columns of its table are. -/
theorem keeps_column {n : Nat} (ih : SoundWithin s mode n) {id t : NodeId} {name : String}
    (hs : st.Sound s mode) (hn : id.index < n + 1) (hid : st.graph.node id = .column t name) :
  Keeps (LiftState.Sound s mode) (fun g l => s.Lifts mode g id l)
    (columnWithin s mode n (some id) t name) st
  := by
  have hhas := Graph.has_of_node hid nofun
  have ht : t ∈ (st.graph.node id).children := by
    rw [hid]
    exact List.mem_singleton_self t
  have hlt := hs.wellFounded.child_lt ht
  apply (ih.column (some id) hs (hs.wellFounded.has_child hhas ht) (by omega) _).imp
  · intro l st' hs' e' hl
    refine ⟨hhas.mono e', hl.target, ?_⟩
    intro α A
    rw [hl.denote, resolve_value_eq hs'.wellFounded, Folding.resolveValue,
      e'.node_eq_of hid nofun]
  · intro k hk
    rw [← Option.some.inj hk]
    exact hid

/-- A value is lifted once the columns and the operands below it are. -/
theorem value_succ {n : Nat} (ih : SoundWithin s mode n) {id : NodeId}
    (hs : st.Sound s mode) (hid : st.graph.Has id) (hn : id.index < n + 1) :
  Keeps (LiftState.Sound s mode) (fun g l => s.Lifts mode g id l)
    (valueWithin s mode (n + 1) id) st
  := by
  apply (tracks_lifts s mode).keeps_valueWithin hs hid
  · exact fun t name hid' => keeps_column ih hs hn hid'
  · intro c hc st' hs' e
    have hlt := hs.wellFounded.child_lt hc
    exact ih.value hs' ((hs.wellFounded.has_child hid hc).mono e) (by omega)

/-- A column that resolves to a column of another table is lifted to what that one is. -/
theorem keeps_column_of {n : Nat} (ih : SoundWithin s mode n) {table t : NodeId}
    {name : String} (hs : st.Sound s mode) (ht : st.graph.Has table)
    (hn : table.index < n + 1) (hc : t ∈ (st.graph.node table).children)
    (hres : ∀ {α : Type} (A : Algebra α), (s.resolve mode A st.graph table).column name
      = (s.resolve mode A st.graph t).column name) :
  Keeps (LiftState.Sound s mode) (fun g l => s.LiftsColumn mode g table name l)
    (columnWithin s mode n none t name) st
  := by
  have hlt := hs.wellFounded.child_lt hc
  have hhas := hs.wellFounded.has_child ht hc
  apply (ih.column none hs hhas (by omega) nofun).imp
  intro l st' hs' e' hl
  refine ⟨ht.mono e', hl.target, ?_⟩
  intro α A
  rw [hl.denote, Folding.resolve_extends e' hs.wellFounded hs'.wellFounded hhas,
    Folding.resolve_extends e' hs.wellFounded hs'.wellFounded ht, hres]

/-- A column that resolves to the value of an item is lifted to what the value is. -/
theorem keeps_value_of {n : Nat} (ih : SoundWithin s mode n) {table item : NodeId}
    {name : String} (hs : st.Sound s mode) (ht : st.graph.Has table)
    (hn : table.index < n + 1) (hc : item ∈ (st.graph.node table).children)
    (hres : ∀ {α : Type} (A : Algebra α), (s.resolve mode A st.graph table).column name
      = (s.resolve mode A st.graph (st.graph.unaliased item)).value) :
  Keeps (LiftState.Sound s mode) (fun g l => s.LiftsColumn mode g table name l)
    (valueWithin s mode n (st.graph.unaliased item)) st
  := by
  have hle := hs.wellFounded.unaliased_le item
  have hlt := hs.wellFounded.child_lt hc
  have hhas : st.graph.Has (st.graph.unaliased item) :=
    Nat.lt_of_le_of_lt hle (hs.wellFounded.has_child ht hc)
  apply (ih.value hs hhas (by omega)).imp
  intro l st' hs' e' hl
  refine ⟨ht.mono e', hl.target, ?_⟩
  intro α A
  rw [hl.denote, Folding.resolve_extends e' hs.wellFounded hs'.wellFounded hhas,
    Folding.resolve_extends e' hs.wellFounded hs'.wellFounded ht, hres]

/-- A column of a table is lifted once the columns and the values below the table are. -/
theorem column_succ {n : Nat} (ih : SoundWithin s mode n) {kept : Option NodeId}
    {table : NodeId} {name : String} (hs : st.Sound s mode) (ht : st.graph.Has table)
    (hn : table.index < n + 1) (hkept : ∀ id ∈ kept, st.graph.node id = .column table name) :
  Keeps (LiftState.Sound s mode) (fun g l => s.LiftsColumn mode g table name l)
    (columnWithin s mode (n + 1) kept table name) st
  := by
  have hres : ∀ {α : Type} (A : Algebra α), (s.resolve mode A st.graph table).column name
      = s.resolveColumn mode A st.graph (s.resolve mode A st.graph) table name :=
    fun A => resolve_column_eq hs.wellFounded A table name
  rw [columnWithin.eq_def]
  apply keeps_get
  by_cases hfold : (!s.contains table || (mode = .output && s.outputs.contains table)) = true
  · rw [if_pos hfold]
    apply keeps_kept hs ht _ hkept
    intro α A
    rw [hres, Folding.resolveColumn, if_pos hfold]
  · rw [if_neg hfold]
    simp only [Folding.resolveColumn, if_neg hfold] at hres
    cases hnode : st.graph.node table with
    | projection input selections =>
        simp only [hnode] at hres ⊢
        cases hp : provider? st.graph selections name with
        | none =>
            simp only [hp] at hres ⊢
            exact keeps_kept hs ht hres hkept
        | some item =>
            simp only [hp] at hres ⊢
            have hc : item ∈ (st.graph.node table).children := by
              rw [hnode]
              exact List.mem_cons_of_mem input (Folding.provider_mem hp)
            split
            case isTrue hr =>
                simp only [hr, if_true] at hres
                exact keeps_column_of ih hs ht hn hc hres
            case isFalse hr =>
                simp only [hr] at hres
                exact keeps_value_of ih hs ht hn hc hres
    | selection t _ | sort t _ | limit t _ _ | distinct t =>
        simp only [hnode] at hres ⊢
        split at hres
        case isTrue hmode =>
            rw [if_pos hmode]
            exact keeps_kept hs ht hres hkept
        case isFalse hmode =>
            rw [if_neg hmode]
            apply keeps_column_of ih hs ht hn _ hres
            rw [hnode]
            exact List.mem_cons_self
    | join kind l r _ =>
        simp only [hnode] at hres ⊢
        split at hres
        case isTrue hmode =>
            rw [if_pos hmode]
            exact keeps_kept hs ht hres hkept
        case isFalse hmode =>
            rw [if_neg hmode]
            apply keeps_column_of ih hs ht hn _ hres
            rw [hnode]
            split <;> simp [Node.children]
    | aggregation input keys metrics having =>
        simp only [hnode] at hres ⊢
        split at hres
        case isTrue hmode =>
            rw [if_pos hmode]
            exact keeps_kept hs ht hres hkept
        case isFalse hmode =>
            rw [if_neg hmode]
            cases hp : namedItem? st.graph (keys ++ metrics) name with
            | none =>
                simp only [hp] at hres ⊢
                exact keeps_kept hs ht hres hkept
            | some item =>
                simp only [hp] at hres ⊢
                apply keeps_value_of ih hs ht hn _ hres
                rw [hnode]
                apply List.mem_cons_of_mem
                exact List.mem_append_left having (Folding.namedItem_mem hp)
    | _ =>
        simp only [hnode, ite_self] at hres ⊢
        exact keeps_kept hs ht hres hkept

/-- Lifting is sound to every depth. -/
theorem soundWithin (s : Folding) (mode : LiftMode) (n : Nat) :
  SoundWithin s mode n
  := by
  induction n with
  | zero =>
      constructor
      · intro st id _ _ hn
        exact absurd hn (Nat.not_lt_zero _)
      · intro st kept table name _ _ hn
        exact absurd hn (Nat.not_lt_zero _)
  | succ n ih => exact ⟨value_succ ih, fun _ => column_succ ih⟩

/-- Lifting a value gives what the value resolves to. -/
theorem keeps_value {id : NodeId} (hs : st.Sound s mode) (hid : st.graph.Has id) :
  Keeps (LiftState.Sound s mode) (fun g l => s.Lifts mode g id l) (value s mode id) st
  := (soundWithin s mode _).value hs hid (Nat.lt_succ_self _)

/-- The state before anything has been lifted. -/
theorem sound_empty {g : Graph} (hg : g.WellFounded) (s : Folding) (mode : LiftMode) :
  LiftState.Sound s mode ⟨g, []⟩
  := ⟨hg, fun _ hm => absurd hm List.not_mem_nil⟩

/-- What a computation before which nothing has been lifted leads to. -/
theorem run_spec {α : Type} {g : Graph} {R : Graph → α → Prop} {m : LiftM α}
    (h : Keeps (LiftState.Sound s mode) R m ⟨g, []⟩) :
  (run m g).2.WellFounded ∧ g.Extends (run m g).2 ∧ R (run m g).2 (run m g).1
  := ⟨h.1.wellFounded, h.2.1, h.2.2⟩

end Lift

end RelSql

/-! ### Lifting named values

A lifted item of a select list keeps the name it is given.  What it means is what the value
without its aliases resolves to, in every algebra that takes an alias for its value.
-/

namespace RelSql

namespace Algebra

variable {α : Type}

/-- An algebra that takes an alias for its value. -/
def Transparent (A : Algebra α) : Prop :=
  ∀ name value, A.operator (.named ⟨0⟩ name) [value] = value

/-- The name a value is given. -/
def givenName : Algebra (Option String) where
  column _ name := some name
  count _ := none
  table _ := none
  operator n _ := match n with
    | .named _ name => some name
    | _ => none

end Algebra

variable {α : Type} {g : Graph} {s : Folding} {mode : LiftMode}

namespace Graph

/-- The name a value is given is its meaning as a name. -/
theorem denote_givenName (hg : g.WellFounded) (id : NodeId) :
  g.denote .givenName id = g.name? id
  := by
  rw [Graph.denote_eq hg, denoteStep, name?]
  cases g.node id
  case contains a options negated => cases options <;> rfl
  all_goals rfl

/-- A value means what it means without its aliases. -/
theorem denote_unaliased (hg : g.WellFounded) {A : Algebra α} (hA : A.Transparent)
    (id : NodeId) :
  g.denote A (g.unaliased id) = g.denote A id
  := by
  obtain ⟨i⟩ := id
  induction i using Nat.strongRecOn with
  | ind i ih =>
      rw [Graph.unaliased_eq hg]
      split
      case h_1 arg name hn =>
          have harg : arg ∈ (g.node ⟨i⟩).children := by
            rw [hn]
            exact List.mem_singleton_self arg
          have hop : (g.node ⟨i⟩).isOperator = true := by
            rw [hn]
            rfl
          rw [ih arg.index (hg.child_lt harg), denote_operator hg A hop, hn]
          exact (hA name _).symm
      · rfl

end Graph

namespace Folding

/-- A value resolves to what it resolves to without its aliases. -/
theorem resolve_unaliased (hg : g.WellFounded) {A : Algebra α} (hA : A.Transparent)
    (id : NodeId) :
  (s.resolve mode A g (g.unaliased id)).value = (s.resolve mode A g id).value
  := by
  obtain ⟨i⟩ := id
  induction i using Nat.strongRecOn with
  | ind i ih =>
      rw [Graph.unaliased_eq hg]
      split
      case h_1 arg name hn =>
          have harg : arg ∈ (g.node ⟨i⟩).children := by
            rw [hn]
            exact List.mem_singleton_self arg
          rw [ih arg.index (hg.child_lt harg), Lift.resolve_value_eq hg A ⟨i⟩,
            resolveValue_operator A _ (by rw [hn]; rfl), hn]
          exact (hA name _).symm
      · rfl

/-- The node `l` of the graph has the name of the item, and means what the item resolves
to. -/
structure LiftsNamed (s : Folding) (mode : LiftMode) (g : Graph) (item l : NodeId) :
    Prop where
  source : g.Has item
  target : g.Has l
  name : g.name? l = g.name? item
  denote : ∀ {α : Type} (A : Algebra α), A.Transparent →
    g.denote A l = (s.resolve mode A g item).value

theorem LiftsNamed.persistent (item : NodeId) :
  Graph.Persistent fun g l => s.LiftsNamed mode g item l
  := by
  intro g g' l hg hg' h hl
  refine ⟨hl.source.mono h, hl.target.mono h, ?_, ?_⟩
  · rw [h.name?_eq hl.target, h.name?_eq hl.source, hl.name]
  · intro α A hA
    rw [h.denote_eq hg hg' hl.target, hl.denote A hA, resolve_extends h hg hg' hl.source]

end Folding

namespace Lift

open LiftM

variable {st : LiftState}

/-- A value without a name resolves to one without a name. -/
theorem resolve_givenName_none (hg : g.WellFounded) {id : NodeId} (h : g.name? id = none) :
  (s.resolve mode .givenName g id).value = none
  := by
  rw [resolve_value_eq hg]
  rw [Graph.name?] at h
  rw [Folding.resolveValue]
  cases hn : g.node id <;> rw [hn] at h
  case contains a options negated => cases options <;> rfl
  all_goals first | rfl | cases h

/-- A value that is given no name is no alias. -/
theorem unaliased_of_unnamed (hg : g.WellFounded) {id : NodeId} (h : g.name? id = none) :
  g.unaliased id = id
  := by
  rw [Graph.unaliased_eq hg]
  split
  case h_1 hn =>
      rw [Graph.name?, hn] at h
      cases h
  · rfl

/-- A lifted item keeps the name it is given. -/
theorem keeps_named (hs : st.Sound s mode) {item : NodeId} (hitem : st.graph.Has item) :
  Keeps (LiftState.Sound s mode) (fun g l => s.LiftsNamed mode g item l)
    (named s mode item) st
  := by
  have hinner : st.graph.Has (st.graph.unaliased item) :=
    Nat.lt_of_le_of_lt (hs.wellFounded.unaliased_le item) hitem
  rw [named]
  apply keeps_get
  apply keeps_bind (keeps_value hs hinner)
  intro lifted st' hs' e' hl
  have hunaliased := e'.unaliased_eq hs.wellFounded hs'.wellFounded hitem
  rw [← hunaliased] at hl ⊢
  have hdenote : ∀ {α : Type} (A : Algebra α), A.Transparent →
      st'.graph.denote A lifted = (s.resolve mode A st'.graph item).value := by
    intro α A hA
    rw [hl.denote, Folding.resolve_unaliased hs'.wellFounded hA]
  split
  case isTrue hsame =>
      apply keeps_pure hs'
      refine ⟨hitem.mono e', hitem.mono e', rfl, ?_⟩
      intro α A hA
      rw [← hdenote A hA, hsame, Graph.denote_unaliased hs'.wellFounded hA]
  case isFalse =>
      apply keeps_get
      simp only
      cases hname : st'.graph.name? item with
      | none =>
          simp only
          apply keeps_pure hs'
          refine ⟨hitem.mono e', hl.target, ?_, hdenote⟩
          rw [hname, ← Graph.denote_givenName hs'.wellFounded, hl.denote,
            unaliased_of_unnamed hs'.wellFounded hname,
            resolve_givenName_none hs'.wellFounded hname]
      | some name =>
          have hpush : Keeps (LiftState.Sound s mode) (fun g l => s.LiftsNamed mode g item l)
              (push (.named lifted name)) st' := by
            apply (keeps_push hs' (n := .named lifted name)
              (List.forall_mem_singleton.mpr hl.target)).imp
            intro l st'' hs'' e'' hnew
            refine ⟨(hitem.mono e').mono e'', hnew.1, ?_, ?_⟩
            · rw [e''.name?_eq (hitem.mono e'), hname, Graph.name?, hnew.2]
            · intro α A hA
              rw [Folding.resolve_extends e'' hs'.wellFounded hs''.wellFounded (hitem.mono e'),
                ← hdenote A hA, Graph.denote_operator hs''.wellFounded A (by rw [hnew.2]; rfl),
                hnew.2]
              exact (hA name _).trans
                (e''.denote_eq hs'.wellFounded hs''.wellFounded hl.target A)
          simp only
          split
          case h_1 n hn =>
              split
              case isTrue hsame =>
                  apply keeps_pure hs'
                  refine ⟨hitem.mono e', hl.target, ?_, hdenote⟩
                  rw [hname, Graph.name?, hn, hsame]
              case isFalse => exact hpush
          · exact hpush

end Lift

end RelSql
