import RelSql.Block.Assembly
import RelSql.Block.Basic
import RelSql.Proofs.Graph.Chain
import RelSql.Proofs.Lift.Pushing

/-!
# Valid blocks and correlated subqueries

An analysis leads from a well-founded graph to another one, which extends the given one,
whether it succeeds or fails.  Such analyses compose, and what is known of one result is still
known after the next one if it persists when the graph grows.

The handles of a block under construction are there, and each of its nested queries has been
compiled from the table that it stands for.  `Q` is what compiling a table is known to
give.

A subquery is correlated when a value outside of its own subqueries reads a table that it does
not have.  Its columns are qualified then, and so are those of the block that it is nested
in.
-/

/-! ## Effects of an analysis -/

namespace RelSql.Analysis

variable {α β : Type} {g : Graph}

/-- The computation leads from the graph to a well-founded graph that extends it.  When it
succeeds it gives something of which `R` holds. -/
structure Grows (R : Graph → α → Prop) (m : Analysis α) (g : Graph) : Prop where
  result : ∀ a g', m.run g = .ok (a, g') → g'.WellFounded ∧ g.Extends g' ∧ R g' a
  failure : ∀ f, m.run g = .error f → f.graph.WellFounded ∧ g.Extends f.graph

theorem grows_pure {R : Graph → α → Prop} {a : α} (hg : g.WellFounded) (h : R g a) :
  Grows R (pure a) g
  := by
  refine ⟨?_, nofun⟩
  intro a' g' hrun
  cases hrun
  exact ⟨hg, .refl _, h⟩

theorem grows_fail {R : Graph → α → Prop} (hg : g.WellFounded) (e : CompileError) :
  Grows R (fail e) g
  := by
  refine ⟨nofun, ?_⟩
  intro f hrun
  cases hrun
  exact ⟨hg, .refl _⟩

theorem grows_bind {R : Graph → α → Prop} {Q : Graph → β → Prop} {m : Analysis α}
    {f : α → Analysis β} (hm : Grows R m g)
    (hf : ∀ a g', g'.WellFounded → g.Extends g' → R g' a → Grows Q (f a) g') :
  Grows Q (m >>= f) g
  := by
  cases hm' : m.run g with
  | error e =>
      have hrun : (m >>= f).run g = .error e := by rw [StateT.run_bind, hm']; rfl
      refine ⟨by rw [hrun]; exact nofun, ?_⟩
      intro e' herror
      rw [hrun] at herror
      cases herror
      exact hm.failure e hm'
  | ok result =>
      obtain ⟨a, g'⟩ := result
      have hrun : (m >>= f).run g = (f a).run g' := by rw [StateT.run_bind, hm']; rfl
      obtain ⟨hwf, e, hR⟩ := hm.result a g' hm'
      have h := hf a g' hwf e hR
      constructor
      · intro b g'' hok
        rw [hrun] at hok
        obtain ⟨hwf', e', hQ⟩ := h.result b g'' hok
        exact ⟨hwf', e.trans e', hQ⟩
      · intro f' herror
        rw [hrun] at herror
        obtain ⟨hwf', e'⟩ := h.failure f' herror
        exact ⟨hwf', e.trans e'⟩

theorem Grows.imp {R Q : Graph → α → Prop} {m : Analysis α} (hm : Grows R m g)
    (h : ∀ a g', g'.WellFounded → g.Extends g' → R g' a → Q g' a) :
  Grows Q m g
  := by
  refine ⟨?_, hm.failure⟩
  intro a g' hrun
  obtain ⟨hwf, e, hR⟩ := hm.result a g' hrun
  exact ⟨hwf, e, h a g' hwf e hR⟩

theorem Grows.and {R Q : Graph → α → Prop} {m : Analysis α} (h : Grows R m g)
    (h' : Grows Q m g) :
  Grows (fun g' a => R g' a ∧ Q g' a) m g
  := by
  refine ⟨?_, h.failure⟩
  intro a g' hrun
  obtain ⟨hwf, e, hR⟩ := h.result a g' hrun
  exact ⟨hwf, e, hR, (h'.result a g' hrun).2.2⟩

/-- A computation whose result is known, and that leaves the graph as it is. -/
theorem grows_run {Q : Graph → β → Prop} {m : Analysis α} {f : α → Analysis β} {a : α}
    (hrun : m.run g = .ok (a, g)) (hf : Grows Q (f a) g) :
  Grows Q (m >>= f) g
  := by
  have hbind : (m >>= f).run g = (f a).run g := by rw [StateT.run_bind, hrun]; rfl
  exact ⟨by rw [hbind]; exact hf.result, by rw [hbind]; exact hf.failure⟩

/-- Looking at the graph changes nothing. -/
theorem grows_get {Q : Graph → β → Prop} {f : Graph → Analysis β} (h : Grows Q (f g) g) :
  Grows Q (get >>= f) g
  := ⟨h.result, h.failure⟩

/-- Adding a node whose children are there. -/
theorem grows_push (hg : g.WellFounded) {n : Node} (hn : ∀ c ∈ n.children, g.Has c) :
  Grows (fun g' id => g'.Has id ∧ g'.node id = n ∧ g.size ≤ id.index) (push n) g
  := by
  refine ⟨?_, nofun⟩
  intro id g' hrun
  cases hrun
  exact ⟨hg.push hn, g.extends_push n, Graph.has_push g n, Graph.node_push g n, Nat.le_refl _⟩

/-- Changing the graph by a function that extends it. -/
theorem grows_modifyGet {R : Graph → α → Prop} {f : Graph → α × Graph}
    (h : (f g).2.WellFounded ∧ g.Extends (f g).2 ∧ R (f g).2 (f g).1) :
  Grows R (modifyGet f) g
  := by
  refine ⟨?_, nofun⟩
  intro a g' hrun
  have hf : f g = (a, g') := Except.ok.inj hrun
  rw [hf] at h
  exact h

/-- Lifting from a state in which nothing has been lifted. -/
theorem grows_lifted (s : Folding) (mode : LiftMode) {R : Graph → α → Prop} {m : LiftM α}
    (h : LiftM.Keeps (LiftState.Sound s mode) R m ⟨g, []⟩) :
  Grows R (lifted m) g
  := grows_modifyGet (Lift.run_spec h)

/-- Testing predicates tells whether they can be pushed. -/
theorem grows_pushable (hg : g.WellFounded) {fused predicates : List NodeId}
    (hp : ∀ p ∈ predicates, g.Has p) :
  Grows (fun _ b => b = (Folding.of fused).pushes g predicates) (pushable fused predicates) g
  := by
  obtain ⟨hwf, e⟩ := Lift.pushable_extends (s := .of fused) hg hp
  exact grows_modifyGet ⟨hwf, e, Lift.pushable_eq hg hp⟩

/-- One computation for each element of a list, each changing what the ones before have
made.  The invariant may depend on the elements that are left. -/
theorem grows_foldlM {R : Graph → List α → β → Prop} {f : β → α → Analysis β} (l : List α) :
    ∀ {b : β} {g : Graph}, g.WellFounded → R g l b →
      (∀ a rest b' g', g'.WellFounded → g.Extends g' → R g' (a :: rest) b' →
        Grows (fun g'' b'' => R g'' rest b'') (f b' a) g') →
      Grows (fun g' b' => R g' [] b') (l.foldlM f b) g := by
  induction l with
  | nil =>
      intro b g hg hb _
      exact grows_pure hg hb
  | cons a l ih =>
      intro b g hg hb hf
      rw [List.foldlM_cons]
      apply grows_bind (hf a l b g hg (.refl _) hb)
      intro b' g' hg' e' hb'
      apply ih hg' hb'
      intro a' rest b'' g'' hg'' e'' hR
      exact hf a' rest b'' g'' hg'' (e'.trans e'') hR

/-- One computation for each element of a list. -/
theorem grows_mapM {R : Graph → α → β → Prop} (hR : ∀ a, Graph.Persistent fun g b => R g a b)
    {f : α → Analysis β} (l : List α) :
    ∀ {g : Graph}, g.WellFounded →
      (∀ a ∈ l, ∀ g', g'.WellFounded → g.Extends g' → Grows (fun g b => R g a b) (f a) g') →
      Grows (fun g bs => List.Forall₂ (R g) l bs) (l.mapM f) g := by
  induction l with
  | nil =>
      intro g hg _
      rw [List.mapM_nil]
      exact grows_pure hg .nil
  | cons a l ih =>
      intro g hg hf
      rw [List.mapM_cons]
      apply grows_bind (hf a List.mem_cons_self g hg (.refl _))
      intro b g₁ hg₁ e₁ hb
      apply grows_bind
      · apply ih hg₁
        intro a' ha' g' hg' e'
        exact hf a' (List.mem_cons_of_mem _ ha') g' hg' (e₁.trans e')
      · intro bs g₂ hg₂ e₂ hbs
        apply grows_pure hg₂
        exact .cons (hR a hg₁ hg₂ e₂ hb) hbs

end RelSql.Analysis

/-! ## Valid blocks -/

namespace RelSql

namespace Graph

variable {g g' : Graph}

/-- The table below a view is there. -/
theorem WellFounded.has_body (hg : g.WellFounded) {node : NodeId} (hnode : g.Has node) :
  g.Has (g.body node)
  := by
  rw [body]
  split
  case h_1 t hn =>
      apply hg.has_child hnode
      rw [hn]
      exact List.mem_singleton_self t
  · exact hnode

/-- A view is a table, and so is what has a table for a body. -/
theorem isRelation_of_body {node : NodeId} (h : (g.node (g.body node)).isRelation = true) :
  g.isRelation node = true
  := by
  rw [body] at h
  rw [isRelation]
  split at h
  case h_1 t hn => rw [hn]; rfl
  · exact h

theorem Extends.body_eq (h : g.Extends g') {node : NodeId} (hnode : g.Has node) :
  g'.body node = g.body node
  := by
  rw [body, body, h.node_eq hnode]

end Graph

/-- What is known of the queries that are compiled from tables. -/
abbrev QuerySpec := Graph → NodeId → Query → Prop

/-- What is known of a query is still known when the graph grows. -/
def QuerySpec.Persistent (Q : QuerySpec) : Prop :=
  ∀ node, Graph.Persistent fun g q => Q g node q

/-- A compiler meets a specification. -/
def QuerySpec.Meets (Q : QuerySpec) (compile : NodeId → Analysis Query) : Prop :=
  ∀ node g, g.WellFounded → g.Has node → Analysis.Grows (fun g' q => Q g' node q) (compile node) g

namespace Node

/-- An operator that is looked at as a value: neither a test of rows nor a membership. -/
def isPlain : Node → Bool
  | .any _ | .contains _ _ _ => false
  | n => n.isOperator

theorem isOperator_of_isPlain {n : Node} (h : n.isPlain = true) :
  n.isOperator = true
  := by
  cases n <;> first | rfl | cases h

end Node

namespace Nested

/-- The table that is compiled for a nested query that stands for a node: the table itself,
the reduction of the table that the value reads first, the values of a column, or the rows
that satisfy a predicate. -/
inductive Source (g : Graph) : SubqueryKind → NodeId → NodeId → Prop where
  | table {node : NodeId} (hr : g.isRelation node = true)
      (h : ∀ t, g.node (g.body node) ≠ .table t) : Source g .table node (g.body node)
  | scalar {node t value table : NodeId} (hplain : (g.node node).isPlain = true)
      (hbase : g.denote .base node = some t)
      (hvalue : g.node value = .named node Graph.defaultName)
      (htable : g.node table = .aggregation t [] [value] []) :
    Source g .scalar node table
  | membership {node arg c t table : NodeId} {name : String} {negated : Bool}
      (hnode : g.node node = .contains arg (.column c) negated)
      (hc : g.node c = .column t name) (htable : g.node table = .projection t [c]) :
    Source g .membership node table
  | exists {node predicate table : NodeId} (hnode : g.node node = .any predicate) :
    Source g .exists node table

/-- A nested query is compiled from the table that it stands for. -/
structure Compiled (Q : QuerySpec) (g : Graph) (s : Nested Query) : Prop where
  has : g.Has s.node
  shared : s.shared = none
  source : ∃ table, g.Has table ∧ Source g s.kind s.node table ∧ Q g table s.query

variable {Q : QuerySpec} {g g' : Graph}

theorem Source.mono (h : g.Extends g') (hg : g.WellFounded) (hg' : g'.WellFounded)
    {kind : SubqueryKind} {node table : NodeId} (hnode : g.Has node)
    (hs : Source g kind node table) :
  Source g' kind node table
  := by
  cases hs with
  | table hr ht =>
      have hsame := h.body_eq hnode
      rw [← hsame]
      apply Source.table
      · rw [h.isRelation_eq hnode, hr]
      · intro t
        rw [hsame, h.node_eq (hg.has_body hnode)]
        exact ht t
  | scalar hplain hbase hvalue htable =>
      refine .scalar (by rw [h.node_eq hnode, hplain]) ?_ (h.node_eq_of hvalue nofun)
        (h.node_eq_of htable nofun)
      rw [h.denote_eq hg hg' hnode, hbase]
  | membership hn hc htable =>
      exact .membership (h.node_eq_of hn nofun) (h.node_eq_of hc nofun)
        (h.node_eq_of htable nofun)
  | «exists» hn => exact .exists (h.node_eq_of hn nofun)

theorem Compiled.mono (hQ : Q.Persistent) (h : g.Extends g') (hg : g.WellFounded)
    (hg' : g'.WellFounded) {s : Nested Query} (hs : s.Compiled Q g) :
  s.Compiled Q g'
  := by
  obtain ⟨table, htable, hsource, hq⟩ := hs.source
  refine ⟨hs.has.mono h, hs.shared, table, htable.mono h, hsource.mono h hg hg' hs.has, ?_⟩
  exact hQ table hg hg' h hq

/-- A nested query that stands for a table of the FROM clause. -/
structure Derived (Q : QuerySpec) (g : Graph) (s : Nested Query) : Prop where
  kind : s.kind = .table
  compiled : s.Compiled Q g

theorem Derived.mono (hQ : Q.Persistent) (h : g.Extends g') (hg : g.WellFounded)
    (hg' : g'.WellFounded) {s : Nested Query} (hs : s.Derived Q g) :
  s.Derived Q g'
  := ⟨hs.kind, hs.compiled.mono hQ h hg hg'⟩

end Nested

/-- The tables and the predicates of a FROM clause are there. -/
structure TableSet.Valid (g : Graph) (t : TableSet) : Prop where
  node : g.Has t.node
  leaves : ∀ leaf ∈ t.leaves, g.Has leaf
  predicates : ∀ c ∈ t.joins, ∀ p ∈ c.predicates, g.Has p

/-- The values and the tables of clauses are there. -/
structure Clauses.Valid (g : Graph) (c : Clauses) : Prop where
  select : ∀ id ∈ c.select, g.Has id
  source : ∀ t ∈ c.from?, t.Valid g
  predicates : ∀ id ∈ c.predicates, g.Has id
  having : ∀ id ∈ c.having, g.Has id
  orderBy : ∀ k ∈ c.orderBy, g.Has k.expr

/-- A table of a FROM clause is physical, or there is a nested query that stands for it. -/
def Graph.Sourced (g : Graph) (nested : List (Nested Query)) (leaf : NodeId) : Prop :=
  (∃ t, g.node (g.body leaf) = .table t ∧ t.name.isSome = true)
    ∨ (derivedFor? nested leaf).isSome = true

namespace Graph

variable {g g' : Graph} {nested nested' : List (Nested Query)} {leaf : NodeId}

/-- A table keeps the nested query that stands for it when others are added after it. -/
theorem derivedFor?_append (h : nested <+: nested') (hs : (derivedFor? nested leaf).isSome = true) :
  derivedFor? nested' leaf = derivedFor? nested leaf
  := by
  obtain ⟨more, rfl⟩ := h
  rw [derivedFor?, derivedFor?, List.find?_append]
  rw [derivedFor?] at hs
  exact Option.or_of_isSome hs

theorem Sourced.mono (e : g.Extends g') (hg : g.WellFounded) (hleaf : g.Has leaf)
    (h : nested <+: nested') (hs : g.Sourced nested leaf) :
  g'.Sourced nested' leaf
  := by
  rcases hs with ⟨t, ht, hname⟩ | hs
  · refine .inl ⟨t, ?_, hname⟩
    rw [e.body_eq hleaf, e.node_eq (hg.has_body hleaf), ht]
  · refine .inr ?_
    rw [derivedFor?_append h hs, hs]

end Graph

theorem TableSet.Valid.mono {g g' : Graph} {t : TableSet} (h : t.Valid g) (e : g.Extends g') :
  t.Valid g'
  := ⟨h.node.mono e, fun leaf hl => (h.leaves leaf hl).mono e,
    fun c hc p hp => (h.predicates c hc p hp).mono e⟩

theorem Clauses.Valid.mono {g g' : Graph} {c : Clauses} (h : c.Valid g) (e : g.Extends g') :
  c.Valid g'
  := ⟨fun id hid => (h.select id hid).mono e, fun t ht => (h.source t ht).mono e,
    fun id hid => (h.predicates id hid).mono e, fun id hid => (h.having id hid).mono e,
    fun k hk => (h.orderBy k hk).mono e⟩

/-- A block under construction is valid. -/
structure Block.Valid (Q : QuerySpec) (g : Graph) (b : Block) : Prop where
  clauses : b.clauses.Valid g
  join : ∀ j ∈ b.folding.join, g.isJoin j = true
  nested : ∀ s ∈ b.nested, s.Derived Q g
  sourced : ∀ leaf ∈ b.clauses.leaves, g.Sourced b.nested leaf

/-- The tables of a valid block are there. -/
theorem Clauses.Valid.has_leaves {g : Graph} {c : Clauses} (h : c.Valid g) :
  ∀ leaf ∈ c.leaves, g.Has leaf
  := by
  intro leaf hleaf
  rw [Clauses.leaves] at hleaf
  cases ht : c.from? with
  | none =>
      rw [ht] at hleaf
      exact absurd hleaf List.not_mem_nil
  | some t =>
      rw [ht] at hleaf
      exact (h.source t ht).leaves leaf hleaf

/-- A valid block stays valid when the graph grows. -/
theorem Block.Valid.mono {Q : QuerySpec} {g g' : Graph} {b : Block} (hQ : Q.Persistent)
    (h : b.Valid Q g) (hg : g.WellFounded) (hg' : g'.WellFounded) (e : g.Extends g') :
  b.Valid Q g'
  := by
  refine ⟨h.clauses.mono e, fun j hj => e.isJoin (h.join j hj), ?_, ?_⟩
  · exact fun s hs => (h.nested s hs).mono hQ e hg hg'
  · exact fun leaf hl => (h.sourced leaf hl).mono e hg (h.clauses.has_leaves leaf hl) (List.prefix_refl _)

end RelSql

/-! ## Correlated subqueries -/

namespace RelSql

variable {g g' : Graph} {id : NodeId}

namespace Block

variable (nested : List (Nested Query))

/-- One step of collecting the tables that a value reads outside of its own subqueries. -/
def outerStep (g : Graph) (below : NodeId → List NodeId) (id : NodeId) : List NodeId :=
  if (nestedFor? nested id).isSome then []
  else
    let n := g.node id
    match n with
    | .column t _ => [t]
    | _ => if n.isRelation then [] else n.children.flatMap below

theorem outerTables_def (g : Graph) :
  outerTables g nested = NodeId.recurse (fun _ => []) (outerStep nested g)
  := rfl

/-- The tables that a value reads outside of its own subqueries are found in its children, and
are the same in extended graphs. -/
theorem outerStep_stable :
  NodeId.StableStep (outerStep nested)
  := by
  constructor
  · intro g hg f f' id h
    have hmap : (g.node id).children.flatMap f = (g.node id).children.flatMap f' :=
      List.flatMap_congr fun c hc => h c (hg.child_lt hc)
    simp only [outerStep, hmap]
  · intro g g' below id _ _ h hid
    rw [outerStep, outerStep, h.node_eq hid]

theorem outerTables_extends (e : g.Extends g') (hg : g.WellFounded) (hg' : g'.WellFounded)
    (hid : g.Has id) :
  outerTables g' nested id = outerTables g nested id
  := by
  rw [outerTables_def, outerTables_def]
  exact (outerStep_stable nested).recurse_eq hg hg' e hid _

variable {nested}

/-- Only what nested queries stand for decides which tables a value reads. -/
theorem outerTables_congr {nested' : List (Nested Query)}
    (h : ∀ id, (nestedFor? nested' id).isSome = (nestedFor? nested id).isSome) (id : NodeId) :
  outerTables g nested' id = outerTables g nested id
  := by
  have hstep : outerStep nested' g = outerStep nested g := by
    funext below id
    rw [outerStep, outerStep, h]
  rw [outerTables_def, outerTables_def, hstep]

/-- A value of a block reads the table `t` outside of the subqueries of the block. -/
def ReadsOuter (g : Graph) (b : Select) (t : NodeId) : Prop :=
  ∃ v ∈ b.clauses.select ++ b.clauses.predicates ++ b.clauses.having,
    g.isRelation v = false ∧ t ∈ outerTables g b.nested v

/-- A block is correlated when it reads a table that it neither has nor has folded. -/
theorem isCorrelated_iff (c : Clauses) (nested : List (Nested Query)) :
  isCorrelated g (.select c nested) = true
    ↔ ∃ t, ReadsOuter g ⟨c, nested⟩ t ∧ t ∉ c.leaves ∧ t ∉ c.outputs
  := by
  simp only [isCorrelated, List.any_flatMap, List.any_eq_true, List.mem_filter, ReadsOuter,
    Bool.not_eq_true', Bool.and_eq_true, List.contains_eq_mem, decide_eq_false_iff_not]
  constructor
  · rintro ⟨v, ⟨hv, hr⟩, t, ht, hleaf, houtput⟩
    exact ⟨t, ⟨v, hv, hr, ht⟩, hleaf, houtput⟩
  · rintro ⟨t, ⟨v, hv, hr, ht⟩, hleaf, houtput⟩
    exact ⟨v, ⟨hv, hr⟩, t, ht, hleaf, houtput⟩

/-- A block whose values are there reads the same tables when the graph grows. -/
theorem readsOuter_extends (e : g.Extends g') (hg : g.WellFounded) (hg' : g'.WellFounded)
    {b : Select} (hb : b.clauses.Valid g) (t : NodeId) :
  ReadsOuter g' b t ↔ ReadsOuter g b t
  := by
  have hhas : ∀ v ∈ b.clauses.select ++ b.clauses.predicates ++ b.clauses.having, g.Has v := by
    intro v hv
    rw [List.append_assoc] at hv
    rcases List.mem_append.mp hv with hv | hv
    · exact hb.select v hv
    · rcases List.mem_append.mp hv with hv | hv
      · exact hb.predicates v hv
      · exact hb.having v hv
  apply exists_congr
  intro v
  apply and_congr_right
  intro hv
  rw [e.isRelation_eq (hhas v hv), outerTables_extends _ e hg hg' (hhas v hv)]

theorem isCorrelated_extends (e : g.Extends g') (hg : g.WellFounded) (hg' : g'.WellFounded)
    {q : Query} (hq : q.first.clauses.Valid g) :
  isCorrelated g' q = isCorrelated g q
  := by
  cases q with
  | select c nested =>
      have hb : (⟨c, nested⟩ : Select).clauses.Valid g := hq
      rw [Bool.eq_iff_iff, isCorrelated_iff, isCorrelated_iff]
      exact exists_congr fun t => and_congr_left fun _ => readsOuter_extends e hg hg' hb t
  | union l r distinct => rfl

end Block

/-- A block with a correlated subquery has its columns qualified, and so has the subquery. -/
def Select.Qualifies (g : Graph) (b : Select) : Prop :=
  ∀ s ∈ b.nested, s.kind ≠ .table → Block.isCorrelated g s.query = true →
    b.clauses.forceAliases = true ∧ s.query.first.clauses.forceAliases = true

namespace Block

theorem isCorrelated_forceAliases (g : Graph) (q : Query) :
  isCorrelated g (forceAliases q) = isCorrelated g q
  := by
  cases q <;> rfl

theorem forced_of_isCorrelated {q : Query} (h : isCorrelated g q = true) :
  (forceAliases q).first.clauses.forceAliases = true
  := by
  cases q with
  | select c nested => rfl
  | union l r distinct => cases h

/-- Correlated subqueries have been found, and their columns are qualified. -/
theorem qualifies_qualifyCorrelated (g : Graph) (b : Block) :
  Select.Qualifies g ⟨(qualifyCorrelated g b).clauses, (qualifyCorrelated g b).nested⟩
  := by
  intro s hs hkind hcorrelated
  rw [qualifyCorrelated] at hs ⊢
  split at hs
  case isTrue hany =>
      obtain ⟨s', hs', rfl⟩ := List.mem_map.mp hs
      rw [if_pos hany]
      refine ⟨rfl, ?_⟩
      by_cases hs' : isCorrelatedSubquery g s' = true
      · rw [if_pos hs'] at hcorrelated ⊢
        exact forced_of_isCorrelated ((isCorrelated_forceAliases g _).symm.trans hcorrelated)
      · rw [if_neg hs'] at hcorrelated hkind
        refine absurd ?_ hs'
        rw [isCorrelatedSubquery, hcorrelated, Bool.and_true]
        exact decide_eq_true hkind
  case isFalse hnone =>
      refine absurd ?_ hnone
      rw [List.any_eq_true]
      refine ⟨s, hs, ?_⟩
      rw [isCorrelatedSubquery, hcorrelated, Bool.and_true]
      exact decide_eq_true hkind

end Block

end RelSql
