import RelSql.Proofs.Graph.Comparison
import RelSql.Proofs.Lift.Fates
import RelSql.Proofs.Lift.Pushing

/-!
# The handles of lifted values

What a value becomes when it is lifted is a relation between handles: a value that reads no
column that is replaced stays where it is, a column becomes what its fate says, and any other
operator becomes a node of the same shape over what its operands become.  A memo holds nothing
else, so it does not matter through which path a value got there.  What a value becomes reads no
column that is replaced, so it becomes itself, and two things that one value becomes denote the
same computation.
-/

namespace RelSql

namespace Folding

variable {s : Folding} {mode : LiftMode} {g g' : Graph}

/-- What becomes of a column is read off in the algebra of fates. -/
theorem fate_eq_resolveColumn (s : Folding) (mode : LiftMode) (g : Graph) (t : NodeId)
    (name : String) :
  s.fate mode g t name
    = s.resolveColumn mode ⟨fun _ _ => .kept, fun _ => .kept, fun _ => .kept, fun _ _ => .kept⟩ g
        (fun c => ⟨fun _ => .column c, .value c⟩) t name
  := by
  unfold fate resolveColumn
  split
  · rfl
  · cases g.node t <;> rfl

/-- The same becomes of a column when the graph grows. -/
theorem fate_extends (e : g.Extends g') (hg : g.WellFounded) (hg' : g'.WellFounded) {t : NodeId}
    (ht : g.Has t) (name : String) :
  s.fate mode g' t name = s.fate mode g t name
  := by
  rw [fate_eq_resolveColumn, fate_eq_resolveColumn,
    resolveColumn_stable s mode _ _ hg hg' e ht]

/-! ### Values that stay -/

/-- A value reads no column that is replaced. -/
def Fixes (s : Folding) (mode : LiftMode) (g : Graph) (v : NodeId) : Prop :=
  ∀ c ∈ g.denote .reads v, s.fate mode g c.1 c.2 = .kept

theorem fixes_column (hg : g.WellFounded) {v t : NodeId} {name : String}
    (hn : g.node v = .column t name) :
  s.Fixes mode g v ↔ s.fate mode g t name = .kept
  := by
  rw [Fixes, Graph.denote_column hg _ hn]
  exact List.forall_mem_singleton

/-- An operator reads what its operands read. -/
theorem fixes_operator (hg : g.WellFounded) {v : NodeId} (ho : (g.node v).isOperator = true) :
  s.Fixes mode g v ↔ ∀ c ∈ (g.node v).children, s.Fixes mode g c
  := by
  rw [Fixes, Graph.denote_operator hg _ ho]
  simp only [Algebra.reads, List.mem_flatten, List.mem_map]
  constructor
  · intro h c hc r hr
    exact h r ⟨_, ⟨c, hc, rfl⟩, hr⟩
  · rintro h r ⟨_, ⟨c, hc, rfl⟩, hr⟩
    exact h c hc r hr

theorem fixes_countStar (hg : g.WellFounded) {v t : NodeId} (hn : g.node v = .countStar t) :
  s.Fixes mode g v
  := by
  rw [Fixes, Graph.denote_countStar hg _ hn]
  exact fun _ hc => absurd hc List.not_mem_nil

theorem fixes_relation (hg : g.WellFounded) {v : NodeId} (hr : g.isRelation v = true) :
  s.Fixes mode g v
  := by
  rw [Fixes, Graph.denote_relation hg _ hr]
  exact fun _ hc => absurd hc List.not_mem_nil

/-- Whether a value stays does not change when the graph grows. -/
theorem fixes_extends (e : g.Extends g') (hg : g.WellFounded) (hg' : g'.WellFounded) {v : NodeId}
    (hv : g.Has v) :
  s.Fixes mode g' v ↔ s.Fixes mode g v
  := by
  rw [Fixes, Fixes, e.denote_eq hg hg' hv]
  apply forall₂_congr
  intro c hc
  rw [fate_extends e hg hg' (has_of_mem_reads hg hv hc)]

/-- A value stays when each of its columns does. -/
theorem fixes_iff_columns (hg : g.WellFounded) {v : NodeId} (hv : g.Has v) :
  s.Fixes mode g v ↔ ∀ c ∈ g.columns v, s.Fixes mode g c
  := by
  constructor
  · intro h c hc
    obtain ⟨t, name, hn⟩ := Graph.node_of_mem_columns hg hv hc
    rw [fixes_column hg hn]
    exact h (t, name) ((Graph.mem_reads_iff hg hv t name).mpr ⟨c, hc, hn⟩)
  · rintro h ⟨t, name⟩ hc
    obtain ⟨id, hid, hn⟩ := (Graph.mem_reads_iff hg hv t name).mp hc
    exact (fixes_column hg hn).mp (h id hid)

/-! ### What a value becomes -/

/-- What is lifted: a value, or a column that a table has. -/
inductive Subject where
  | value (id : NodeId)
  | column (table : NodeId) (name : String)

/-- What is lifted becomes a node of the graph. -/
inductive Becomes (s : Folding) (mode : LiftMode) (g : Graph) : Subject → NodeId → Prop where
  /-- A value that reads no column that is replaced keeps its handle. -/
  | fixed {v : NodeId} (hv : g.Has v) (hfixes : s.Fixes mode g v) : Becomes s mode g (.value v) v
  | read {v t l : NodeId} {name : String} (hn : g.node v = .column t name)
      (hfate : s.fate mode g t name ≠ .kept) (h : Becomes s mode g (.column t name) l) :
    Becomes s mode g (.value v) l
  /-- Another operator becomes one of its shape over what its operands become. -/
  | operator {v l : NodeId} (hv : g.Has v) (ho : (g.node v).isOperator = true)
      (hfixes : ¬ s.Fixes mode g v) (hl : g.Has l)
      (hshape : (g.node l).shape = (g.node v).shape)
      (h : ∀ p ∈ (g.node v).children.zip (g.node l).children,
        Becomes s mode g (.value p.1) p.2) :
    Becomes s mode g (.value v) l
  | kept {t l : NodeId} {name : String} (hfate : s.fate mode g t name = .kept)
      (hn : g.node l = .column t name) : Becomes s mode g (.column t name) l
  | passed {t u l : NodeId} {name : String} (ht : g.Has t)
      (hfate : s.fate mode g t name = .column u) (h : Becomes s mode g (.column u name) l) :
    Becomes s mode g (.column t name) l
  | defined {t v l : NodeId} {name : String} (ht : g.Has t)
      (hfate : s.fate mode g t name = .value v) (h : Becomes s mode g (.value v) l) :
    Becomes s mode g (.column t name) l

/-! ### A value becomes one thing -/

/-- What an operator becomes is over what its operands become. -/
theorem forall₂_children {R : NodeId → NodeId → Prop} {n n' : Node} (hshape : n'.shape = n.shape)
    (h : ∀ p ∈ n.children.zip n'.children, R p.1 p.2) :
  List.Forall₂ R n.children n'.children
  := by
  apply List.forall₂_iff_zip.mpr
  exact ⟨Node.length_children_of_shape_eq hshape, fun hp => h _ hp⟩

/-- What something becomes is a node of the graph. -/
theorem Becomes.has {x : Subject} {l : NodeId} (h : s.Becomes mode g x l) :
  g.Has l
  := by
  induction h with
  | fixed hv _ => exact hv
  | operator _ _ _ hl _ _ _ => exact hl
  | kept _ hn => exact Graph.has_of_node hn nofun
  | read _ _ _ ih | passed _ _ _ ih | defined _ _ _ ih => exact ih

/-- What something becomes reads no column that is replaced. -/
theorem Becomes.fixes (hg : g.WellFounded) {x : Subject} {l : NodeId}
    (h : s.Becomes mode g x l) :
  s.Fixes mode g l
  := by
  induction h with
  | fixed _ hfixes => exact hfixes
  | operator _ ho _ _ hshape _ ih =>
      rw [fixes_operator hg]
      · exact forall₂_right (forall₂_children hshape ih) fun _ _ hfixes => hfixes
      · rw [← Node.isOperator_shape, hshape, Node.isOperator_shape]
        exact ho
  | kept hfate hn => exact (fixes_column hg hn).mpr hfate
  | read _ _ _ ih | passed _ _ _ ih | defined _ _ _ ih => exact ih

/-- A value that reads no column that is replaced becomes itself only. -/
theorem Becomes.eq_of_fixes (hg : g.WellFounded) {v l : NodeId}
    (h : s.Becomes mode g (.value v) l) (hfixes : s.Fixes mode g v) :
  l = v
  := by
  cases h with
  | fixed _ _ => rfl
  | read hn hfate _ => exact absurd ((fixes_column hg hn).mp hfixes) hfate
  | operator _ _ hnot _ _ _ => exact absurd hfixes hnot

/-- A value keeps its handle when it reads no column that is replaced, and only then. -/
theorem Becomes.eq_iff (hg : g.WellFounded) {v l : NodeId} (h : s.Becomes mode g (.value v) l) :
  l = v ↔ s.Fixes mode g v
  := by
  refine ⟨?_, h.eq_of_fixes hg⟩
  rintro rfl
  exact h.fixes hg

theorem same_of_column {t l l' : NodeId} {name : String} (hn : g.node l = .column t name)
    (hn' : g.node l' = .column t name) :
  g.Same l l'
  := by
  apply Graph.Same.node
  · rw [hn]
    exact nofun
  · rw [hn']
    exact nofun
  · rw [hn, hn']
    exact decide_eq_true rfl
  · rw [hn, hn']
    intro p hp
    rw [List.mem_singleton.mp hp]
    exact .refl t

/-- Operators of one shape that are no constants, over operands that denote the same computations,
denote the same one. -/
theorem same_of_operator {l l' : NodeId} (ho : (g.node l).isOperator = true)
    (hliteral : ∀ v, g.node l ≠ .literal v) (hshape : (g.node l).shape = (g.node l').shape)
    (h : ∀ p ∈ (g.node l).children.zip (g.node l').children, g.Same p.1 p.2) :
  g.Same l l'
  := by
  have hview : ∀ {id : NodeId}, (g.node id).isOperator = true → ∀ t, g.node id ≠ .view t := by
    intro id hid t hn
    rw [hn] at hid
    cases hid
  have ho' : (g.node l').isOperator = true := by
    rw [← Node.isOperator_shape, ← hshape, Node.isOperator_shape]
    exact ho
  apply Graph.Same.node (hview ho) (hview ho') _ h
  rw [Node.equals_shape fun v _ hv _ => hliteral v hv]
  exact hshape

/-- Two things that one subject becomes denote the same computation. -/
theorem Becomes.same (hg : g.WellFounded) {x : Subject} {l l' : NodeId}
    (h : s.Becomes mode g x l) (h' : s.Becomes mode g x l') :
  g.Same l l'
  := by
  induction h generalizing l' with
  | fixed _ hfixes =>
      rw [h'.eq_of_fixes hg hfixes]
      exact .refl _
  | read hn hfate _ ih =>
      cases h' with
      | fixed _ hfixes => exact absurd ((fixes_column hg hn).mp hfixes) hfate
      | read hn' _ h' =>
          cases hn.symm.trans hn'
          exact ih h'
      | operator _ ho' _ _ _ _ =>
          rw [hn] at ho'
          cases ho'
  | kept hfate hn =>
      cases h' with
      | kept _ hn' => exact same_of_column hn hn'
      | passed _ hfate' _ | defined _ hfate' _ => cases hfate.symm.trans hfate'
  | passed _ hfate _ ih =>
      cases h' with
      | passed _ hfate' h' =>
          cases hfate.symm.trans hfate'
          exact ih h'
      | kept hfate' _ | defined _ hfate' _ => cases hfate.symm.trans hfate'
  | defined _ hfate _ ih =>
      cases h' with
      | defined _ hfate' h' =>
          cases hfate.symm.trans hfate'
          exact ih h'
      | kept hfate' _ | passed _ hfate' _ => cases hfate.symm.trans hfate'
  | operator _ ho hfixes _ hshape _ ih =>
      cases h' with
      | fixed _ hfixes' => exact absurd hfixes' hfixes
      | read hn' _ _ =>
          rw [hn'] at ho
          cases ho
      | operator _ _ _ _ hshape' h' =>
          apply same_of_operator _ _ (hshape.trans hshape'.symm)
          · intro p hp
            obtain ⟨c, hleft, hright⟩ := exists_mem_zip
              (Node.length_children_of_shape_eq hshape).symm hp
              (Node.length_children_of_shape_eq hshape')
            have hswap := List.mem_map_of_mem (f := Prod.swap) hleft
            rw [List.zip_swap] at hswap
            exact ih _ hswap (h' _ hright)
          · rw [← Node.isOperator_shape, hshape, Node.isOperator_shape]
            exact ho
          · -- a constant reads nothing, so it would have kept its handle
            intro v hv
            rw [hv] at hshape
            apply hfixes
            rw [fixes_operator hg ho, Node.literal_of_shape hshape.symm]
            exact fun c hc => absurd hc List.not_mem_nil

/-! ### Graphs that grow -/

/-- What something becomes it becomes in every extended graph. -/
theorem Becomes.extends (e : g.Extends g') (hg : g.WellFounded) (hg' : g'.WellFounded)
    {x : Subject} {l : NodeId} (h : s.Becomes mode g x l) :
  s.Becomes mode g' x l
  := by
  have hcolumn : ∀ {v t : NodeId} {name : String}, g.node v = .column t name → g.Has t := by
    intro v t name hn
    apply hg.has_child (Graph.has_of_node hn nofun)
    rw [hn]
    exact List.mem_singleton_self t
  induction h with
  | fixed hv hfixes => exact .fixed (hv.mono e) ((fixes_extends e hg hg' hv).mpr hfixes)
  | read hn hfate _ ih =>
      apply Becomes.read (e.node_eq_of hn nofun) _ ih
      rwa [fate_extends e hg hg' (hcolumn hn)]
  | operator hv ho hfixes hl hshape _ ih =>
      have hnode := e.node_eq hv
      have hnode' := e.node_eq hl
      apply Becomes.operator (hv.mono e) _ _ (hl.mono e)
      · rw [hnode, hnode']
        exact hshape
      · rw [hnode, hnode']
        exact ih
      · rwa [hnode]
      · rwa [fixes_extends e hg hg' hv]
  | kept hfate hn =>
      apply Becomes.kept _ (e.node_eq_of hn nofun)
      rwa [fate_extends e hg hg' (hcolumn hn)]
  | passed ht hfate _ ih =>
      apply Becomes.passed (ht.mono e) _ ih
      rwa [fate_extends e hg hg' ht]
  | defined ht hfate _ ih =>
      apply Becomes.defined (ht.mono e) _ ih
      rwa [fate_extends e hg hg' ht]

theorem Becomes.persistent (x : Subject) :
  Graph.Persistent fun g l => s.Becomes mode g x l
  := fun hg hg' e h => h.extends e hg hg'

end Folding

/-- A state is traced when its graph is well founded and its memo says what values become. -/
structure LiftState.Traced (s : Folding) (mode : LiftMode) (st : LiftState) : Prop where
  wellFounded : st.graph.WellFounded
  memo : ∀ m ∈ st.memo, s.Becomes mode st.graph (.value m.1) m.2

namespace Lift

open LiftM Folding

variable {s : Folding} {mode : LiftMode} {st : LiftState}

theorem traced_empty {g : Graph} (hg : g.WellFounded) (s : Folding) (mode : LiftMode) :
  LiftState.Traced s mode ⟨g, []⟩
  := ⟨hg, fun _ hm => absurd hm List.not_mem_nil⟩

/-- Adding a node whose children are there keeps a state traced. -/
theorem traced_push (hs : st.Traced s mode) {n : Node} (hn : ∀ c ∈ n.children, st.graph.Has c) :
  Keeps (LiftState.Traced s mode) (fun g id => g.Has id ∧ g.node id = n) (push n) st
  := by
  have e := st.graph.extends_push n
  have hg := hs.wellFounded.push hn
  refine ⟨⟨hg, ?_⟩, e, Graph.has_push _ n, Graph.node_push _ n⟩
  exact fun m hm => (hs.memo m hm).extends e hs.wellFounded hg

/-- The column of a table is lifted by what its fate says. -/
theorem run_columnWithin (n : Nat) (kept : Option NodeId) (t : NodeId) (name : String)
    (st : LiftState) :
  (columnWithin s mode (n + 1) kept t name).run st
    = (match s.fate mode st.graph t name with
      | .kept => match kept with
        | some id => return id
        | none => push (.column t name)
      | .column u => columnWithin s mode n none u name
      | .value v => valueWithin s mode n v : LiftM NodeId).run st
  := by
  rw [columnWithin.eq_def, fate, StateT.run_bind, StateT.run_get, pure_bind]
  simp only
  split
  · rfl
  · cases st.graph.node t
    case projection u items =>
      simp only
      cases provider? st.graph items name with
      | none => rfl
      | some item =>
          simp only
          cases st.graph.isRelation item <;> rfl
    case aggregation u keys metrics having =>
      simp only
      split
      · rfl
      · cases namedItem? st.graph (keys ++ metrics) name <;> rfl
    all_goals
      simp only
      split <;> rfl

theorem keeps_columnWithin {inv : LiftState → Prop} {R : Graph → NodeId → Prop} {n : Nat}
    {kept : Option NodeId} {t : NodeId} {name : String}
    (h : Keeps inv R
      (match s.fate mode st.graph t name with
        | .kept => match kept with
          | some id => return id
          | none => push (.column t name)
        | .column u => columnWithin s mode n none u name
        | .value v => valueWithin s mode n v) st) :
  Keeps inv R (columnWithin s mode (n + 1) kept t name) st
  := by
  rw [Keeps, run_columnWithin]
  exact h

/-- A column that is not replaced keeps its handle. -/
theorem run_columnWithin_kept (n : Nat) {id t : NodeId} {name : String}
    (h : s.fate mode st.graph t name = .kept) :
  (columnWithin s mode n (some id) t name).run st = (id, st)
  := by
  cases n with
  | zero =>
      rw [columnWithin]
      rfl
  | succ n =>
      rw [run_columnWithin, h]
      rfl

/-- A column that stays becomes a column of its table. -/
theorem traced_kept (hs : st.Traced s mode) {kept : Option NodeId} {t : NodeId} {name : String}
    (ht : st.graph.Has t) (hfate : s.fate mode st.graph t name = .kept) :
  (∀ id ∈ kept, st.graph.node id = .column t name) →
    Keeps (LiftState.Traced s mode) (fun g l => s.Becomes mode g (.column t name) l)
      (match kept with
        | some id => return id
        | none => push (.column t name)) st
  := by
  intro hkept
  cases kept with
  | some id => exact keeps_pure hs (.kept hfate (hkept id rfl))
  | none =>
      apply (traced_push hs (n := .column t name) (List.forall_mem_singleton.mpr ht)).imp
      intro l st' hs' e hl
      apply Becomes.kept _ hl.2
      rwa [fate_extends e hs.wellFounded hs'.wellFounded ht]

/-- Lifting says what becomes of the handles below `n`, to a depth of `n`. -/
structure TracedWithin (s : Folding) (mode : LiftMode) (n : Nat) : Prop where
  value : ∀ {st : LiftState} {id : NodeId}, st.Traced s mode → st.graph.Has id → id.index < n →
    Keeps (LiftState.Traced s mode) (fun g l => s.Becomes mode g (.value id) l)
      (valueWithin s mode n id) st
  column : ∀ {st : LiftState} (kept : Option NodeId) {t : NodeId} {name : String},
    st.Traced s mode → st.graph.Has t → t.index < n →
    (∀ id ∈ kept, st.graph.node id = .column t name) →
    Keeps (LiftState.Traced s mode) (fun g l => s.Becomes mode g (.column t name) l)
      (columnWithin s mode n kept t name) st

/-- A column of a table becomes what its fate does. -/
theorem traced_columnWithin {n : Nat} (ih : TracedWithin s mode n) {kept : Option NodeId}
    {t : NodeId} {name : String} (hs : st.Traced s mode) (ht : st.graph.Has t)
    (hn : t.index < n + 1) (hkept : ∀ id ∈ kept, st.graph.node id = .column t name) :
  Keeps (LiftState.Traced s mode) (fun g l => s.Becomes mode g (.column t name) l)
    (columnWithin s mode (n + 1) kept t name) st
  := by
  have hlt := fate_lt hs.wellFounded s mode t name
  have hstays : ∀ {st' : LiftState}, st'.Traced s mode → st.graph.Extends st'.graph →
      s.fate mode st'.graph t name = s.fate mode st.graph t name :=
    fun hs' e => fate_extends e hs.wellFounded hs'.wellFounded ht name
  apply keeps_columnWithin
  cases hfate : s.fate mode st.graph t name with
  | kept => exact traced_kept hs ht hfate hkept
  | column u =>
      have hu := hlt.1 u hfate
      apply (ih.column none hs (Nat.lt_trans hu ht) (by omega) nofun).imp
      intro l st' hs' e hl
      exact .passed (ht.mono e) ((hstays hs' e).trans hfate) hl
  | value v =>
      have hv := hlt.2 v hfate
      apply (ih.value hs (Nat.lt_trans hv ht) (by omega)).imp
      intro l st' hs' e hl
      exact .defined (ht.mono e) ((hstays hs' e).trans hfate) hl

/-- A column becomes what the column of its table becomes, unless it keeps its handle. -/
theorem traced_column {n : Nat} (ih : TracedWithin s mode n) {id t : NodeId} {name : String}
    (hs : st.Traced s mode) (hn : id.index < n + 1) (hid : st.graph.node id = .column t name) :
  Keeps (LiftState.Traced s mode) (fun g l => s.Becomes mode g (.value id) l)
    (columnWithin s mode n (some id) t name) st
  := by
  have hg := hs.wellFounded
  have hhas := Graph.has_of_node hid nofun
  have ht : t ∈ (st.graph.node id).children := by
    rw [hid]
    exact List.mem_singleton_self t
  have hlt := hg.child_lt ht
  by_cases hfate : s.fate mode st.graph t name = .kept
  · rw [Keeps, run_columnWithin_kept n hfate]
    exact ⟨hs, .refl _, .fixed hhas ((fixes_column hg hid).mpr hfate)⟩
  · have hkept : ∀ k ∈ some id, st.graph.node k = .column t name := by
      intro k hk
      rw [← Option.some.inj hk]
      exact hid
    apply (ih.column (some id) hs (hg.has_child hhas ht) (by omega) hkept).imp
    intro l st' hs' e hl
    apply Becomes.read (e.node_eq_of hid nofun) _ hl
    rwa [fate_extends e hg hs'.wellFounded (hg.has_child hhas ht)]

/-- An operator reads no column that is replaced just when its operands keep their handles. -/
theorem fixes_iff_children_eq {g : Graph} (hg : g.WellFounded) {id : NodeId}
    (ho : (g.node id).isOperator = true) {l : List NodeId}
    (h : List.Forall₂ (fun c l => s.Becomes mode g (.value c) l) (g.node id).children l) :
  s.Fixes mode g id ↔ l = (g.node id).children
  := by
  rw [fixes_operator hg ho]
  generalize (g.node id).children = operands at h ⊢
  induction h with
  | nil => exact iff_of_true (fun c hc => absurd hc List.not_mem_nil) rfl
  | cons hc _ ih => rw [List.forall_mem_cons, List.cons.injEq, hc.eq_iff hg, ih]

/-- An operator whose operands keep their handles keeps its own. -/
theorem becomes_operator_self {g : Graph} (hg : g.WellFounded) {id : NodeId} (hid : g.Has id)
    (ho : (g.node id).isOperator = true) {n : Node}
    (h : Node.Alike (fun c l => s.Becomes mode g (.value c) l) (g.node id) n)
    (hsame : n.children = (g.node id).children) :
  s.Becomes mode g (.value id) id
  := .fixed hid ((fixes_iff_children_eq hg ho h.children).mpr hsame)

/-- Another operator becomes a new one, over what its operands become. -/
theorem traced_push_alike {id : NodeId} (hs : st.Traced s mode) (hid : st.graph.Has id)
    (ho : (st.graph.node id).isOperator = true) {n : Node}
    (h : Node.Alike (fun c l => s.Becomes mode st.graph (.value c) l) (st.graph.node id) n)
    (hother : n.children ≠ (st.graph.node id).children) :
  Keeps (LiftState.Traced s mode) (fun g l => s.Becomes mode g (.value id) l) (push n) st
  := by
  have hg := hs.wellFounded
  have hn := forall₂_right h.children fun _ _ hc => Becomes.has hc
  apply (traced_push hs hn).imp
  intro l st' hs' e hl
  have hnode := e.node_eq hid
  apply Becomes.operator (hid.mono e) _ _ hl.1
  · rw [hnode, hl.2]
    exact h.shape_eq
  · rw [hnode, hl.2]
    intro p hp
    apply Becomes.extends e hg hs'.wellFounded
    exact (List.forall₂_iff_zip.mp h.children).2 hp
  · rwa [hnode]
  · rw [fixes_extends e hg hs'.wellFounded hid, fixes_iff_children_eq hg ho h.children]
    exact hother

/-- Traced states track what values become. -/
theorem tracks_becomes (s : Folding) (mode : LiftMode) :
  Tracks (LiftState.Traced s mode) fun g v l => s.Becomes mode g (.value v) l
  where
    wellFounded _ hs := hs.wellFounded
    persistent v := Becomes.persistent (.value v)
    memo hs := hs.memo
    remembered hs hl := ⟨hs.wellFounded, List.forall_mem_cons.mpr ⟨hl, hs.memo⟩⟩
    countStar hg hn := .fixed (Graph.has_of_node hn nofun) (fixes_countStar hg hn)
    relation hg hr := .fixed (Graph.has_of_isRelation hr) (fixes_relation hg hr)
    same hg hid ho h hsame := becomes_operator_self hg hid ho h hsame
    pushed hs hid ho h hother := traced_push_alike hs hid ho h hother

/-- A value becomes what its columns and its operands make of it. -/
theorem traced_valueWithin {n : Nat} (ih : TracedWithin s mode n) {id : NodeId}
    (hs : st.Traced s mode) (hid : st.graph.Has id) (hn : id.index < n + 1) :
  Keeps (LiftState.Traced s mode) (fun g l => s.Becomes mode g (.value id) l)
    (valueWithin s mode (n + 1) id) st
  := by
  apply (tracks_becomes s mode).keeps_valueWithin hs hid
  · exact fun t name hid' => traced_column ih hs hn hid'
  · intro c hc st' hs' e
    have hlt := hs.wellFounded.child_lt hc
    exact ih.value hs' ((hs.wellFounded.has_child hid hc).mono e) (by omega)

theorem tracedWithin (s : Folding) (mode : LiftMode) (n : Nat) :
  TracedWithin s mode n
  := by
  induction n with
  | zero =>
      constructor
      · intro st id _ _ hn
        exact absurd hn (Nat.not_lt_zero _)
      · intro st kept t name _ _ hn
        exact absurd hn (Nat.not_lt_zero _)
  | succ n ih => exact ⟨traced_valueWithin ih, fun _ => traced_columnWithin ih⟩

/-- Lifting a value says what it becomes. -/
theorem traced_value {id : NodeId} (hs : st.Traced s mode) (hid : st.graph.Has id) :
  Keeps (LiftState.Traced s mode) (fun g l => s.Becomes mode g (.value id) l)
    (value s mode id) st
  := (tracedWithin s mode _).value hs hid (Nat.lt_succ_self _)

/-- One value is lifted after the other. -/
theorem traced_values {vs : List NodeId} (hs : st.Traced s mode)
    (hvs : ∀ v ∈ vs, st.graph.Has v) :
  Keeps (LiftState.Traced s mode)
    (fun g ls => List.Forall₂ (fun v l => s.Becomes mode g (.value v) l) vs ls)
    (vs.mapM (value s mode)) st
  := by
  apply keeps_mapM (R := fun g v l => s.Becomes mode g (.value v) l) (fun _ h => h.wellFounded)
    (fun v => Becomes.persistent (.value v)) vs hs
  intro v hv st' hs' e
  exact traced_value hs' ((hvs v hv).mono e)

/-! ### Lifting again, and lifting afresh -/

/-- A value keeps its handle when it reads no column that is replaced, and only then. -/
theorem value_eq_iff (hs : st.Traced s mode) {v : NodeId} (hv : st.graph.Has v) :
  ((value s mode v).run st).1 = v ↔ s.Fixes mode st.graph v
  := by
  obtain ⟨hs', e, hl⟩ := traced_value hs hv
  rw [hl.eq_iff hs'.wellFounded, fixes_extends e hs.wellFounded hs'.wellFounded hv]

/-- What has become of values is settled: lifted again, through the same memo or afresh, the lifted
values keep their handles; a value has kept its handle just when each of its columns does; and
lifting it afresh, in any graph it is in, gives an equal value in every graph with both, and keeps
the handle of the value when it was kept. -/
theorem values_settled {g : Graph} (hg : g.WellFounded) (s : Folding) (mode : LiftMode)
    {vs ls : List NodeId} {st : LiftState} (hvs : ∀ v ∈ vs, g.Has v)
    (hrun : (vs.mapM (value s mode)).run ⟨g, []⟩ = (ls, st)) :
  List.Forall₂ (fun v l =>
    ((value s mode l).run st).1 = l ∧ (run (value s mode l) st.graph).1 = l
      ∧ (l = v ↔ ∀ c ∈ g.columns v, (run (value s mode c) g).1 = c)
      ∧ ∀ {g₁ g₂ h : Graph} {l' : NodeId}, g₁.WellFounded → g₁.Has v →
        run (value s mode v) g₁ = (l', g₂) → h.WellFounded → st.graph.Extends h → g₂.Extends h →
        h.equals l l' = true ∧ (l' = v ↔ l = v)) vs ls
  := by
  have hlifted := traced_values (traced_empty hg s mode) hvs
  rw [Keeps, hrun] at hlifted
  obtain ⟨hs, e, hls⟩ := hlifted
  have hg' := hs.wellFounded
  apply forall₂_mem hls
  intro v hv l _ hl
  have hv := hvs v hv
  refine ⟨?_, ?_, ?_, ?_⟩
  · exact (value_eq_iff hs hl.has).mpr (hl.fixes hg')
  · exact (value_eq_iff (traced_empty hg' s mode) hl.has).mpr (hl.fixes hg')
  · rw [hl.eq_iff hg', fixes_extends e hg hg' hv, fixes_iff_columns hg hv]
    apply forall₂_congr
    intro c hc
    obtain ⟨t, name, hn⟩ := Graph.node_of_mem_columns hg hv hc
    have hcolumn := Graph.has_of_node hn (by rintro ⟨⟩)
    exact (value_eq_iff (traced_empty hg s mode) hcolumn).symm
  · intro g₁ g₂ h l' hg₁ hv₁ hrun' hh e' e''
    have hfresh := traced_value (traced_empty hg₁ s mode) hv₁
    obtain ⟨rfl, rfl⟩ := Prod.mk.inj hrun'
    have hone := hl.extends e' hg' hh
    have hother := hfresh.2.2.extends e'' hfresh.1.wellFounded hh
    refine ⟨(Graph.equals_iff hh).mpr (hone.same hh hother), ?_⟩
    exact (hother.eq_iff hh).trans (hone.eq_iff hh).symm

/-- A column of the numbers of a filtered table, and the opposite of its sum with a constant that
is not a number. -/
def oppositeSum : Graph :=
  ⟨#[.table ⟨some "t", none, ⟨[⟨"x", .double⟩]⟩⟩, .column ⟨0⟩ "x", .literal (.float .nan),
    .binary .notEq ⟨1⟩ ⟨2⟩, .selection ⟨0⟩ [⟨3⟩], .column ⟨4⟩ "x", .binary .add ⟨5⟩ ⟨2⟩,
    .unary .negate ⟨6⟩]⟩

/-- The opposite, the column and the constant, lifted one after the other. -/
def liftedOpposite : List NodeId × LiftState :=
  ([⟨7⟩, ⟨5⟩, ⟨2⟩].mapM (value (.of [⟨4⟩]) .substitute)).run ⟨oppositeSum, []⟩

/-- The opposite, lifted afresh in the graph that this leads to. -/
def liftedAfresh : NodeId × Graph :=
  run (value (.of [⟨4⟩]) .substitute ⟨7⟩) liftedOpposite.2.graph

/-- The opposite and the column become new nodes and the constant keeps its handle; the new
opposite keeps its own when it is lifted, and is equal to the one lifted afresh. -/
theorem values_settled_oppositeSum :
  oppositeSum.WellFounded ∧ liftedOpposite.1 = [⟨10⟩, ⟨8⟩, ⟨2⟩] ∧ liftedAfresh.1 = ⟨13⟩
    ∧ (run (value (.of [⟨4⟩]) .substitute ⟨10⟩) liftedOpposite.2.graph).1 = ⟨10⟩
    ∧ ¬ (∀ c ∈ oppositeSum.columns ⟨7⟩, (run (value (.of [⟨4⟩]) .substitute c) oppositeSum).1 = c)
    ∧ liftedAfresh.2.equals ⟨10⟩ ⟨13⟩ = true
  := by
  have hg : oppositeSum.WellFounded := by decide
  have hlifted : liftedOpposite.1 = [⟨10⟩, ⟨8⟩, ⟨2⟩] := by decide
  have hafresh : liftedAfresh.1 = ⟨13⟩ := by decide
  have hvs : ∀ v ∈ ([⟨7⟩, ⟨5⟩, ⟨2⟩] : List NodeId), oppositeSum.Has v := by decide
  have hrun : ([⟨7⟩, ⟨5⟩, ⟨2⟩].mapM (value (.of [⟨4⟩]) .substitute)).run ⟨oppositeSum, []⟩
      = ([⟨10⟩, ⟨8⟩, ⟨2⟩], liftedOpposite.2) := Prod.ext hlifted rfl
  have hsettled := values_settled hg (.of [⟨4⟩]) .substitute hvs hrun
  obtain ⟨⟨_, hagain, hmoved, hequal⟩, _⟩ := List.forall₂_cons.mp hsettled
  have hs := (traced_values (traced_empty hg (.of [⟨4⟩]) .substitute) hvs).1
  have hhas : liftedOpposite.2.graph.Has ⟨7⟩ := by decide
  have hfresh := traced_value (traced_empty hs.wellFounded (.of [⟨4⟩]) .substitute) hhas
  refine ⟨hg, hlifted, hafresh, hagain, ?_, ?_⟩
  · rw [← hmoved]
    decide
  · exact (hequal hs.wellFounded hhas (Prod.ext hafresh rfl) hfresh.1.wellFounded hfresh.2.1
      (.refl _)).1

end Lift

end RelSql
