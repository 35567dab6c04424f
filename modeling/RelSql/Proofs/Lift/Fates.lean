import RelSql.Proofs.Graph.Fields
import RelSql.Proofs.Lift.Terms

/-!
# The fate of a column

A column of a table is kept, becomes a column of a table below, or the value that it stands for.
This is one step of lifting it, in any mode.
-/

namespace RelSql

/-- What becomes of a column. -/
inductive Fate where
  | kept
  /-- The column of the name of another table. -/
  | column (table : NodeId)
  | value (v : NodeId)
  deriving DecidableEq

namespace Folding

variable {s : Folding} {mode : LiftMode} {g g' : Graph} {t u v id l : NodeId} {name : String}

/-- What becomes of a column of a table. -/
def fate (s : Folding) (mode : LiftMode) (g : Graph) (table : NodeId) (name : String) : Fate :=
  if !s.contains table || (mode = .output && s.outputs.contains table) then .kept
  else
    match g.node table with
    | .projection _ selections =>
      match Lift.provider? g selections name with
      | some item => if g.isRelation item then .column item else .value (g.unaliased item)
      | none => .kept
    | node =>
      if mode = .projections then .kept
      else
        match node with
        | .selection t _ | .sort t _ | .limit t _ _ | .distinct t => .column t
        | .join _ l r _ => .column (if g.hasField l name then l else r)
        | .aggregation _ keys metrics _ =>
          match Lift.namedItem? g (keys ++ metrics) name with
          | some item => .value (g.unaliased item)
          | none => .kept
        | _ => .kept

/-- A column resolves to what becomes of it. -/
theorem resolve_fate (hg : g.WellFounded) {α : Type} (A : Algebra α) (t : NodeId)
    (name : String) :
  (s.resolve mode A g t).column name = match s.fate mode g t name with
    | .kept => A.column t name
    | .column u => (s.resolve mode A g u).column name
    | .value v => (s.resolve mode A g v).value
  := by
  rw [Lift.resolve_column_eq hg, resolveColumn, fate]
  split
  · rfl
  · cases g.node t
    case projection u items =>
      simp only
      cases Lift.provider? g items name with
      | none => rfl
      | some item =>
          simp only
          cases g.isRelation item <;> rfl
    case aggregation u keys metrics having =>
      simp only
      split
      · rfl
      · cases Lift.namedItem? g (keys ++ metrics) name <;> rfl
    all_goals
      simp only
      split <;> rfl

/-- A column of a table that is not folded is kept. -/
theorem fate_of_not_contains (h : s.contains t = false) :
  s.fate mode g t name = .kept
  := by
  rw [fate, h]
  rfl

/-- A column becomes one of a child of its table, or a child without its aliases. -/
theorem fate_children (s : Folding) (mode : LiftMode) (g : Graph) (t : NodeId) (name : String) :
  (∀ u, s.fate mode g t name = .column u → u ∈ (g.node t).children)
    ∧ ∀ v, s.fate mode g t name = .value v → ∃ c ∈ (g.node t).children, v = g.unaliased c
  := by
  rw [fate]
  split
  · exact ⟨nofun, nofun⟩
  · cases hn : g.node t
    case projection input items =>
      simp only
      cases hp : Lift.provider? g items name with
      | none => exact ⟨nofun, nofun⟩
      | some item =>
          have hitem := List.mem_cons_of_mem input (provider_mem hp)
          simp only
          split
          · refine ⟨fun u h => ?_, nofun⟩
            cases h
            exact hitem
          · refine ⟨nofun, fun v h => ?_⟩
            cases h
            exact ⟨item, hitem, rfl⟩
    case aggregation input keys metrics having =>
      simp only
      split
      · exact ⟨nofun, nofun⟩
      · cases hp : Lift.namedItem? g (keys ++ metrics) name with
        | none => exact ⟨nofun, nofun⟩
        | some item =>
            refine ⟨nofun, fun v h => ?_⟩
            cases h
            refine ⟨item, List.mem_cons_of_mem _ ?_, rfl⟩
            exact List.mem_append_left having (namedItem_mem hp)
    case join kind left right predicates =>
      simp only
      split
      · exact ⟨nofun, nofun⟩
      · refine ⟨fun u h => ?_, nofun⟩
        cases h
        split <;> simp [Node.children]
    case selection | sort | limit | distinct =>
      simp only
      split
      · exact ⟨nofun, nofun⟩
      · refine ⟨fun u h => ?_, nofun⟩
        cases h
        exact List.mem_cons_self
    all_goals
      simp only
      split <;> exact ⟨nofun, nofun⟩

/-- A column becomes one of a table, or a value, that comes before its table. -/
theorem fate_lt (hg : g.WellFounded) (s : Folding) (mode : LiftMode) (t : NodeId) (name : String) :
  (∀ u, s.fate mode g t name = .column u → u.index < t.index)
    ∧ ∀ v, s.fate mode g t name = .value v → v.index < t.index
  := by
  obtain ⟨hcolumn, hvalue⟩ := fate_children s mode g t name
  refine ⟨fun u h => hg.child_lt (hcolumn u h), ?_⟩
  intro v h
  obtain ⟨c, hc, rfl⟩ := hvalue v h
  exact Nat.lt_of_le_of_lt (hg.unaliased_le c) (hg.child_lt hc)

/-- The column of a table stands for a value. -/
inductive StandsFor (s : Folding) (mode : LiftMode) (g : Graph) :
    NodeId → String → NodeId → Prop where
  | value {t v : NodeId} {name : String} (h : s.fate mode g t name = .value v) :
    StandsFor s mode g t name v
  | column {t u v : NodeId} {name : String} (h : s.fate mode g t name = .column u)
      (hv : StandsFor s mode g u name v) :
    StandsFor s mode g t name v

theorem StandsFor.resolve (hg : g.WellFounded) (h : s.StandsFor mode g t name v) {α : Type}
    (A : Algebra α) :
  (s.resolve mode A g t).column name = (s.resolve mode A g v).value
  := by
  induction h with
  | value h => rw [resolve_fate hg, h]
  | column h _ ih =>
      rw [resolve_fate hg, h]
      exact ih

theorem StandsFor.lt (hg : g.WellFounded) (h : s.StandsFor mode g t name v) :
  v.index < t.index
  := by
  induction h with
  | value h => exact (fate_lt hg s mode _ _).2 _ h
  | column h _ ih => exact Nat.lt_trans ih ((fate_lt hg s mode _ _).1 _ h)

theorem mem_of_not_kept (h : ¬ (!s.contains t || (mode = .output && s.outputs.contains t)) = true) :
  t ∈ s.fused
  := by
  cases hmem : s.contains t with
  | false =>
      rw [hmem] at h
      exact absurd rfl h
  | true => exact List.contains_iff_mem.mp hmem

/-- A field stays the same field, or is a value of its type. -/
theorem field?_fate (hg : g.WellFounded) (hnames : g.NamesItems s.fused) (mode : LiftMode) {f : Field}
    (hf : g.field? t name = some f) :
  (∀ u, s.fate mode g t name = .column u → g.field? u name = some f)
    ∧ ∀ v, s.fate mode g t name = .value v → g.dataType v = .ok f.type
  := by
  rw [fate]
  split
  case isTrue => exact ⟨nofun, nofun⟩
  case isFalse hkept =>
    have hnamed := hnames t (mem_of_not_kept hkept)
    cases hn : g.node t <;> rw [hn] at hnamed
    case projection input items =>
      obtain ⟨item, hp, hitem⟩ := Graph.field?_projection hg hn hnamed hf
      simp only [hp]
      split
      case isTrue hr =>
          refine ⟨fun u h => ?_, nofun⟩
          cases h
          rwa [Graph.itemField?_relation hr] at hitem
      case isFalse hr =>
          refine ⟨nofun, fun v h => ?_⟩
          cases h
          rw [Graph.dataType_unaliased hg]
          exact Graph.dataType_of_itemField? (Bool.eq_false_iff.mpr hr) hitem
    case aggregation input keys metrics having =>
      obtain ⟨item, hp, hr, hitem⟩ := Graph.field?_aggregation hg hn hnamed hf
      simp only [hp]
      split
      · exact ⟨nofun, nofun⟩
      · refine ⟨nofun, fun v h => ?_⟩
        cases h
        rw [Graph.dataType_unaliased hg]
        exact Graph.dataType_of_itemField? hr hitem
    case join kind left right predicates =>
      simp only
      split
      · exact ⟨nofun, nofun⟩
      · refine ⟨fun u h => ?_, nofun⟩
        cases h
        exact Graph.field?_join hg hn hf
    case selection | sort | limit | distinct =>
      simp only
      split
      · exact ⟨nofun, nofun⟩
      · refine ⟨fun u h => ?_, nofun⟩
        cases h
        rw [Graph.field?_kept hg (by rw [hn]; rfl)] at hf
        exact hf
    all_goals
      simp only
      split <;> exact ⟨nofun, nofun⟩

/-! ### What a column is lifted to -/

/-- A column is lifted to what its table gives for its name. -/
theorem Lifts.column (hg : g.WellFounded) (hn : g.node id = .column t name)
    (h : s.Lifts mode g id l) :
  s.LiftsColumn mode g t name l
  := by
  refine ⟨?_, h.target, fun A => ?_⟩
  · apply hg.has_child h.source
    rw [hn]
    exact List.mem_singleton_self t
  · rw [h.denote, Lift.resolve_value_eq hg, resolveValue, hn]

/-- What means a column is the column. -/
theorem node_of_denote_column (hg : g.WellFounded)
    (h : ∀ {α : Type} (A : Algebra α), g.denote A l = A.column t name) :
  g.node l = .column t name
  := by
  have hterm := h .terms
  rcases (g.node l).kinds with ⟨t', name', hn⟩ | ⟨t', hn⟩ | hn | hn
  · rw [Graph.denote_column hg _ hn] at hterm
    cases hterm
    exact hn
  · rw [Graph.denote_countStar hg _ hn] at hterm
    cases hterm
  · rw [Graph.denote_relation hg _ hn] at hterm
    cases hterm
  · rw [Graph.denote_operator hg _ hn] at hterm
    cases hterm

/-- A row count is lifted to one of its table. -/
theorem Lifts.countStar (hg : g.WellFounded) (hn : g.node id = .countStar t)
    (h : s.Lifts mode g id l) :
  g.node l = .countStar t
  := by
  have hterm := h.denote .terms
  rw [Lift.resolve_value_eq hg, resolveValue, hn] at hterm
  rcases (g.node l).kinds with ⟨t', name', hn'⟩ | ⟨t', hn'⟩ | hn' | hn'
  · rw [Graph.denote_column hg _ hn'] at hterm
    cases hterm
  · rw [Graph.denote_countStar hg _ hn'] at hterm
    cases hterm
    exact hn'
  · rw [Graph.denote_relation hg _ hn'] at hterm
    cases hterm
  · rw [Graph.denote_operator hg _ hn'] at hterm
    cases hterm

/-- A table is lifted to itself. -/
theorem Lifts.relation (hg : g.WellFounded) (hr : g.isRelation id = true)
    (h : s.Lifts mode g id l) :
  l = id
  := by
  have hterm := h.denote .terms
  rw [Lift.resolve_value_eq hg, resolveValue_relation _ _ hr] at hterm
  rcases (g.node l).kinds with ⟨t', name', hn'⟩ | ⟨t', hn'⟩ | hn' | hn'
  · rw [Graph.denote_column hg _ hn'] at hterm
    cases hterm
  · rw [Graph.denote_countStar hg _ hn'] at hterm
    cases hterm
  · rw [Graph.denote_relation hg _ hn'] at hterm
    cases hterm
    rfl
  · rw [Graph.denote_operator hg _ hn'] at hterm
    cases hterm

/-- In an extended graph a column is lifted to itself, or to what becomes of it. -/
theorem LiftsColumn.fate (e : g.Extends g') (hg : g.WellFounded) (hg' : g'.WellFounded)
    (ht : g.Has t) (h : s.LiftsColumn mode g' t name l) :
  match s.fate mode g t name with
  | .kept => g'.node l = .column t name
  | .column u => s.LiftsColumn mode g' u name l
  | .value v => s.Lifts mode g' v l
  := by
  have hdenote : ∀ {α : Type} (A : Algebra α), g'.denote A l = _ := fun A => by
    rw [h.denote, resolve_extends e hg hg' ht, resolve_fate hg]
  have hlt := fate_lt hg s mode t name
  cases hfate : s.fate mode g t name with
  | kept =>
      simp only [hfate] at hdenote ⊢
      exact node_of_denote_column hg' hdenote
  | column u =>
      have hu : g.Has u := Nat.lt_trans (hlt.1 u hfate) ht
      simp only [hfate] at hdenote ⊢
      refine ⟨hu.mono e, h.target, fun A => ?_⟩
      rw [hdenote, resolve_extends e hg hg' hu]
  | value v =>
      have hv : g.Has v := Nat.lt_trans (hlt.2 v hfate) ht
      simp only [hfate] at hdenote ⊢
      refine ⟨hv.mono e, h.target, fun A => ?_⟩
      rw [hdenote, resolve_extends e hg hg' hv]

end Folding

/-! ### Lifting under aliases -/

/-- Whether a value is an alias. -/
def Algebra.aliases : Algebra Bool where
  column _ _ := false
  count _ := false
  table _ := false
  operator n _ := match n with
    | .named _ _ => true
    | _ => false

namespace Graph

variable {g : Graph} {id : NodeId}

/-- What does not mean an alias is none. -/
theorem unaliased_of_denote (hg : g.WellFounded) (h : g.denote .aliases id = false) :
  g.unaliased id = id
  := by
  rw [Graph.unaliased_eq hg]
  split
  case h_1 hn =>
      rw [denote_operator hg _ (by rw [hn]; rfl), hn] at h
      cases h
  · rfl

theorem unaliased_unaliased (hg : g.WellFounded) (id : NodeId) :
  g.unaliased (g.unaliased id) = g.unaliased id
  := by
  obtain ⟨i⟩ := id
  induction i using Nat.strongRecOn with
  | ind i ih =>
      cases hn : g.node ⟨i⟩
      case named arg name =>
        have harg : arg ∈ (g.node ⟨i⟩).children := by
          rw [hn]
          exact List.mem_singleton_self arg
        have hsame : g.unaliased ⟨i⟩ = g.unaliased arg := by rw [Graph.unaliased_eq hg, hn]
        rw [hsame]
        exact ih arg.index (hg.child_lt harg)
      all_goals
        have hself : g.unaliased ⟨i⟩ = ⟨i⟩ := by rw [Graph.unaliased_eq hg, hn]
        rw [hself, hself]

end Graph

namespace Folding

variable {s : Folding} {mode : LiftMode} {g : Graph} {t v id l : NodeId} {name : String}

/-- A column stands for a value without aliases. -/
theorem unaliased_of_fate (hg : g.WellFounded) (h : s.fate mode g t name = .value v) :
  g.unaliased v = v
  := by
  rw [fate] at h
  split at h
  · cases h
  · cases hn : g.node t <;> simp only [hn] at h
    case projection input items =>
      split at h
      · split at h
        · cases h
        · cases h
          exact Graph.unaliased_unaliased hg _
      · cases h
    case aggregation input keys metrics having =>
      split at h
      · cases h
      · split at h
        · cases h
          exact Graph.unaliased_unaliased hg _
        · cases h
    all_goals
      split at h <;> cases h

/-- No column, and no value without aliases, resolves to an alias. -/
theorem resolve_aliases (hg : g.WellFounded) (id : NodeId) :
  (∀ name, (s.resolve mode .aliases g id).column name = false)
    ∧ (g.unaliased id = id → (s.resolve mode .aliases g id).value = false)
  := by
  obtain ⟨i⟩ := id
  induction i using Nat.strongRecOn with
  | ind i ih =>
      constructor
      · intro name
        have hlt := fate_lt hg s mode ⟨i⟩ name
        rw [resolve_fate hg]
        cases hfate : s.fate mode g ⟨i⟩ name with
        | kept => rfl
        | column u => exact (ih u.index (hlt.1 u hfate)).1 name
        | value v => exact (ih v.index (hlt.2 v hfate)).2 (unaliased_of_fate hg hfate)
      · intro hself
        rw [Lift.resolve_value_eq hg]
        rcases (g.node ⟨i⟩).kinds with ⟨t, name, hn⟩ | ⟨t, hn⟩ | hn | hn
        · rw [resolveValue, hn]
          apply (ih t.index _).1 name
          apply hg.child_lt
          rw [hn]
          exact List.mem_singleton_self t
        · rw [resolveValue, hn]
          rfl
        · rw [resolveValue_relation _ _ hn]
          rfl
        · rw [resolveValue_operator _ _ hn]
          cases hnode : g.node ⟨i⟩
          case named arg name =>
            have harg : arg ∈ (g.node ⟨i⟩).children := by
              rw [hnode]
              exact List.mem_singleton_self arg
            have hle := hg.unaliased_le arg
            rw [Graph.unaliased_eq hg, hnode] at hself
            simp only at hself
            rw [hself] at hle
            exact absurd (hg.child_lt harg) (Nat.not_lt_of_le hle)
          case contains a options negated => cases options <;> rfl
          all_goals rfl

/-- What a value without aliases is lifted to has none. -/
theorem Lifts.unaliased (hg : g.WellFounded) (hself : g.unaliased id = id)
    (h : s.Lifts mode g id l) :
  g.unaliased l = l
  := by
  apply Graph.unaliased_of_denote hg
  rw [h.denote]
  exact (resolve_aliases hg id).2 hself

end Folding

namespace Lift

open LiftM

variable {s : Folding} {mode : LiftMode} {st : LiftState}

/-- What is under the aliases of an item is lifted, and is what is under the aliases of the lifted
item. -/
theorem keeps_named_handle (hs : st.Sound s mode) {item lifted : NodeId}
    (hitem : st.graph.Has item)
    (hlifted : ((value s mode (st.graph.unaliased item)).run st).1 = lifted) :
  Keeps (LiftState.Sound s mode)
    (fun g l => g.unaliased l = lifted ∧ s.Lifts mode g (g.unaliased item) lifted)
    (named s mode item) st
  := by
  have hinner : st.graph.Has (st.graph.unaliased item) :=
    Nat.lt_of_le_of_lt (hs.wellFounded.unaliased_le item) hitem
  obtain ⟨hinv, hext, hl⟩ := keeps_value hs hinner
  have hvalue : Keeps (LiftState.Sound s mode)
      (fun g l => l = lifted ∧ s.Lifts mode g (st.graph.unaliased item) l)
      (value s mode (st.graph.unaliased item)) st := ⟨hinv, hext, hlifted, hl⟩
  rw [named]
  apply keeps_get
  apply keeps_bind hvalue
  rintro lifted st' hs' e' ⟨rfl, hl⟩
  have hg' := hs'.wellFounded
  have hstable := e'.unaliased_eq hs.wellFounded hg' hitem
  rw [← hstable] at hl ⊢
  have hself := hl.unaliased hg' (Graph.unaliased_unaliased hg' item)
  split
  case isTrue hsame => exact keeps_pure hs' ⟨hsame.symm, hl⟩
  case isFalse =>
      apply keeps_get
      simp only
      cases hname : st'.graph.name? item with
      | none => exact keeps_pure hs' ⟨hself, hl⟩
      | some name =>
          have hpush : Keeps (LiftState.Sound s mode)
              (fun g l => g.unaliased l = lifted ∧ s.Lifts mode g (g.unaliased item) lifted)
              (push (.named lifted name)) st' := by
            apply (keeps_push hs' (n := .named lifted name)
              (List.forall_mem_singleton.mpr hl.target)).imp
            intro l st'' hs'' e'' hnew
            have hg'' := hs''.wellFounded
            rw [Graph.unaliased_eq hg'' l, hnew.2, e''.unaliased_eq hg' hg'' (hitem.mono e')]
            constructor
            · exact (e''.unaliased_eq hg' hg'' hl.target).trans hself
            · exact Folding.Lifts.persistent _ hg' hg'' e'' hl
          simp only
          split
          case h_1 =>
              split
              case isTrue => exact keeps_pure hs' ⟨hself, hl⟩
              case isFalse => exact hpush
          · exact hpush

/-- What is under the aliases of an item is lifted to what is under the aliases of the lifted
item. -/
theorem keeps_named_unaliased (hs : st.Sound s mode) {item : NodeId} (hitem : st.graph.Has item) :
  Keeps (LiftState.Sound s mode)
    (fun g l => s.Lifts mode g (g.unaliased item) (g.unaliased l)) (named s mode item) st
  := by
  apply (keeps_named_handle hs hitem rfl).imp
  rintro l st' _ _ ⟨hhandle, hl⟩
  rwa [hhandle]

/-- A select item keeps its name when it is lifted, also after the items before it, and what is
under its aliases is what the value under the aliases of the item is lifted to. -/
theorem named_keeps_name {g : Graph} (hg : g.WellFounded) (s : Folding) (mode : LiftMode)
    {before ls : List NodeId} {item l : NodeId} {st st' : LiftState}
    (hbefore : ∀ i ∈ before, g.Has i) (hitem : g.Has item)
    (hrun : (before.mapM (named s mode)).run ⟨g, []⟩ = (ls, st))
    (hnamed : (named s mode item).run st = (l, st')) :
  st'.graph.name? l = g.name? item
    ∧ st'.graph.unaliased l = ((value s mode (g.unaliased item)).run st).1
  := by
  have hitems : Keeps (LiftState.Sound s mode)
      (fun g' ls => List.Forall₂ (fun i l => s.LiftsNamed mode g' i l) before ls)
      (before.mapM (named s mode)) ⟨g, []⟩ := by
    apply keeps_mapM (R := fun g' i l => s.LiftsNamed mode g' i l) (fun _ h => h.wellFounded)
      Folding.LiftsNamed.persistent before (sound_empty hg s mode)
    intro i hi st₁ hs₁ e₁
    exact keeps_named hs₁ ((hbefore i hi).mono e₁)
  rw [Keeps, hrun] at hitems
  obtain ⟨hs, e, _⟩ := hitems
  have hname := keeps_named hs (hitem.mono e)
  have hhandle := keeps_named_handle hs (hitem.mono e) rfl
  rw [Keeps, hnamed] at hname hhandle
  obtain ⟨_, e', hl⟩ := hname
  constructor
  · rw [hl.name, e'.name?_eq (hitem.mono e), e.name?_eq hitem]
  · rw [hhandle.2.2.1, e.unaliased_eq hg hs.wellFounded hitem]

/-- A projection that names a sum, a column of it, and the column under two aliases. -/
def twiceNamed : Graph :=
  ⟨#[.table ⟨some "t", none, ⟨[⟨"x", .int64⟩]⟩⟩, .column ⟨0⟩ "x", .binary .add ⟨1⟩ ⟨1⟩,
    .named ⟨2⟩ "y", .projection ⟨0⟩ [⟨3⟩], .column ⟨4⟩ "y", .named ⟨5⟩ "a", .named ⟨6⟩ "b"]⟩

/-- The state after the column has been lifted as an item. -/
def afterColumn : List NodeId × LiftState :=
  (([⟨5⟩] : List NodeId).mapM (named (.of [⟨4⟩]) .substitute)).run ⟨twiceNamed, []⟩

/-- The column under its aliases, lifted after the column. -/
def liftedTwiceNamed : NodeId × LiftState :=
  (named (.of [⟨4⟩]) .substitute ⟨7⟩).run afterColumn.2

/-- The item keeps the name of its outer alias, which is put on the sum. -/
theorem named_keeps_name_twiceNamed :
  twiceNamed.WellFounded ∧ afterColumn.1 = [⟨8⟩] ∧ liftedTwiceNamed.1 = ⟨9⟩
    ∧ liftedTwiceNamed.2.graph.name? ⟨9⟩ = some "b"
    ∧ liftedTwiceNamed.2.graph.unaliased ⟨9⟩ = ⟨2⟩
  := by
  have hg : twiceNamed.WellFounded := by decide
  have hbefore : afterColumn.1 = [⟨8⟩] := by decide
  have hlifted : liftedTwiceNamed.1 = ⟨9⟩ := by decide
  have hrun : (([⟨5⟩] : List NodeId).mapM (named (.of [⟨4⟩]) .substitute)).run ⟨twiceNamed, []⟩
      = ([⟨8⟩], afterColumn.2) := Prod.ext hbefore rfl
  have hnamed : (named (.of [⟨4⟩]) .substitute ⟨7⟩).run afterColumn.2
      = (⟨9⟩, liftedTwiceNamed.2) := Prod.ext hlifted rfl
  obtain ⟨hname, hhandle⟩ :=
    named_keeps_name hg (.of [⟨4⟩]) .substitute (by decide) (by decide) hrun hnamed
  exact ⟨hg, hbefore, hlifted, hname, hhandle.trans (by decide)⟩

end Lift

end RelSql
