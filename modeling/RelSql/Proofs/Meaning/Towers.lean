import RelSql.Proofs.Graph.Equality
import RelSql.Proofs.Meaning.Rows
import RelSql.Proofs.Meaning.Operators
import RelSql.Proofs.Meaning.Pipelines
import RelSql.Proofs.Statement.Sharing

/-!
# Towers of blocks

The query of a pipeline is a tower of blocks: the only table of a block is physical, or derived
from a table that fewer operators lead to.  A tower evaluates to the rows of its table, and none
of its derived tables occurs twice: tables that denote the same computation are made of as many
operators.
-/

namespace RelSql

/-! ### Depths of equal tables -/

namespace Node

@[simp]
theorem input?_shape_isSome (n : Node) :
  (Graph.input? n.shape).isSome = (Graph.input? n).isSome
  := by
  cases n
  case contains a options negated => cases options <;> rfl
  all_goals rfl

/-- The input of an operator is its first child. -/
theorem children_of_input {n : Node} {t : NodeId} (h : Graph.input? n = some t) :
  ∃ rest, n.children = t :: rest
  := by
  cases n <;> cases h <;> exact ⟨_, rfl⟩

/-- Equal nodes have an input both or none of them. -/
theorem input?_isSome_of_equals {n n' : Node} (h : n.equals n' = true) :
  (Graph.input? n).isSome = (Graph.input? n').isSome
  := by
  rw [equals.eq_def] at h
  split at h
  · rfl
  · rw [of_decide_eq_true h]

end Node

namespace Graph

variable {g : Graph} {left right : NodeId}

/-- Tables of one shape are equally deep when their children are. -/
theorem depth_eq_of_children (hg : g.WellFounded)
    (hshape : (g.node left).shape.equals (g.node right).shape = true)
    (h : ∀ p ∈ (g.node left).children.zip (g.node right).children, g.depth p.1 = g.depth p.2) :
  g.depth left = g.depth right
  := by
  have hinput := Node.input?_isSome_of_equals hshape
  rw [Node.input?_shape_isSome, Node.input?_shape_isSome] at hinput
  cases hl : input? (g.node left) with
  | none =>
      rw [hl, Option.isSome_none, eq_comm, Option.isSome_eq_false_iff, Option.isNone_iff_eq_none]
        at hinput
      rw [depth, depth, chain_end follows_input hg hl, chain_end follows_input hg hinput]
  | some t =>
      rw [hl, Option.isSome_some, eq_comm] at hinput
      obtain ⟨u, hr⟩ := Option.isSome_iff_exists.mp hinput
      obtain ⟨rest, hleft⟩ := Node.children_of_input hl
      obtain ⟨rest', hright⟩ := Node.children_of_input hr
      rw [hleft, hright, List.zip_cons_cons] at h
      rw [depth_input hg rfl hl, depth_input hg rfl hr, h (t, u) List.mem_cons_self]

/-- Equal tables are equally deep. -/
theorem depth_eq_of_equals (hg : g.WellFounded) (h : g.equals left right = true) :
  g.depth left = g.depth right
  := by
  have hsame := (equals_iff hg).mp h
  clear h
  induction hsame with
  | refl id => rfl
  | node _ _ hshape _ ih => exact depth_eq_of_children hg hshape ih

end Graph

/-! ### Blocks over one table -/

variable {g : Graph} {node leaf : NodeId} {c c' : Clauses} {nested : List (Nested Query)}
  {q : Query}

/-- A block over the single table `leaf` has the rows of `node`. -/
structure Clauses.Evaluates (g : Graph) (node leaf : NodeId) (c : Clauses) : Prop where
  source : ∃ n, c.from? = some ⟨n, leaf, []⟩
  rows : ∀ {V : Type} [DecidableEq V] (I : Interpretation V) (db : Database V),
    c.evaluate I g (g.rows I db leaf) = g.rows I db node

theorem Clauses.Evaluates.leaves (h : c.Evaluates g node leaf) :
  c.leaves = [leaf]
  := by
  obtain ⟨n, hfrom⟩ := h.source
  rw [Clauses.leaves, hfrom]
  rfl

/-- Neither its scope nor the qualification of its columns changes the rows of a block. -/
theorem Clauses.Evaluates.scoped (h : c.Evaluates g node leaf) (forceAliases : Bool)
    (scope : AliasScope) :
  ({ c with forceAliases, scope } : Clauses).Evaluates g node leaf
  := ⟨h.source, h.rows⟩

/-- A tower of blocks with the rows of a table. -/
inductive Tower (g : Graph) : NodeId → Query → Prop where
  | physical {node leaf : NodeId} {c : Clauses} {nested : List (Nested Query)} {table : Table}
      (h : c.Evaluates g node leaf) (hnested : ∀ s ∈ nested, s.kind = .table)
      (hnone : derivedFor? nested leaf = none) (htable : g.node (g.body leaf) = .table table) :
    Tower g node (.select c nested)
  | derived {node leaf : NodeId} {c : Clauses} {nested : List (Nested Query)} {s : Nested Query}
      (h : c.Evaluates g node leaf) (hnested : ∀ s ∈ nested, s.kind = .table)
      (hs : derivedFor? nested leaf = some s) (hshared : s.shared = none)
      (hlt : g.depth (g.body leaf) < g.depth node) (hquery : Tower g (g.body leaf) s.query) :
    Tower g node (.select c nested)

/-- A view has the rows of its table. -/
theorem Graph.rows_body {V : Type} [DecidableEq V] {I : Interpretation V} {db : Database V}
    (hg : g.WellFounded) (id : NodeId) :
  g.rows I db (g.body id) = g.rows I db id
  := by
  rw [body]
  split
  case h_1 t hn => rw [rows_view hg hn]
  · rfl

namespace Tower

/-! ### Rows -/

/-- The rows of a block over tables only. -/
theorem rows?_select {V : Type} [DecidableEq V] (I : Interpretation V) (db : Database V)
    (shared : List (Option (List (Row V)))) (h : c.Evaluates g node leaf)
    (hnested : ∀ s ∈ nested, s.kind = .table) :
  (Query.select c nested).rows? I db g shared
    = (sourceRows? db g shared (nested.map (Nested.map fun q => q.rows? I db g shared)) leaf).map
      (c.evaluate I g)
  := by
  obtain ⟨n, hfrom⟩ := h.source
  have hall : ((nested.map (Nested.map fun q => q.rows? I db g shared)).all fun s =>
      s.kind = .table) = true := by
    rw [List.all_map, List.all_eq_true]
    exact fun s hs => decide_eq_true (hnested s hs)
  rw [Query.rows?, Query.fold_select, hfrom]
  exact if_pos hall

/-- A tower has the rows of its table. -/
theorem rows? {V : Type} [DecidableEq V] (I : Interpretation V) (db : Database V)
    (shared : List (Option (List (Row V)))) (hg : g.WellFounded) (h : Tower g node q) :
  q.rows? I db g shared = some (g.rows I db node)
  := by
  induction h with
  | @physical node leaf c nested table h hnested hnone htable =>
      rw [rows?_select I db shared h hnested, sourceRows?, derivedFor?_mapQuery, hnone, htable,
        Option.map_none, Option.map_some, ← h.rows I db, ← g.rows_body hg leaf,
        Graph.rows_table hg htable]
  | @derived node leaf c nested s h hnested hs hshared hlt _ ih =>
      rw [rows?_select I db shared h hnested, sourceRows?, derivedFor?_mapQuery, hs,
        Option.map_some, ← h.rows I db, ← g.rows_body hg leaf]
      simp only [Nested.map, hshared, ih, Option.map_some]

/-! ### Occurrences of derived tables -/

/-- The derived tables of a tower are collected once each: they get less and less deep. -/
theorem single_collect (hg : g.WellFounded) (h : Tower g node q) :
    ∀ found : List Occurrences, (∀ o ∈ found, g.depth node ≤ g.depth o.body) →
      (∀ o ∈ found, o.leaves.length ≤ 1) →
      ∀ o ∈ Occurrences.collect g q found, o.leaves.length ≤ 1 := by
  have hcollect : ∀ {c : Clauses} {nested : List (Nested Query)} {node leaf : NodeId},
      c.Evaluates g node leaf → (∀ s ∈ nested, s.kind = .table) → ∀ found,
      Occurrences.collect g (.select c nested) found
        = Occurrences.collectLeaf g nested found leaf := by
    intro c nested node leaf h hnested found
    have hnone : (nested.filter fun s => s.kind ≠ .table) = [] := by
      rw [List.filter_eq_nil_iff]
      exact fun s hs => by simp [hnested s hs]
    rw [Occurrences.collect_select, hnone, h.leaves]
    rfl
  induction h with
  | physical h hnested hnone _ =>
      intro found _ hsingle
      rw [hcollect h hnested, Occurrences.collectLeaf, hnone]
      exact hsingle
  | @derived node leaf c nested s h hnested hs _ hlt _ ih =>
      intro found hdeep hsingle
      have hunknown : Occurrences.knows g found leaf = false := by
        rw [Occurrences.knows, List.any_eq_false]
        intro o ho hequal
        have hdepth := Graph.depth_eq_of_equals hg hequal
        have hle := hdeep o ho
        omega
      rw [hcollect h hnested, Occurrences.collectLeaf, hs, hunknown,
        Occurrences.insert_of_unknown hunknown]
      apply ih
      · intro o ho
        rcases List.mem_append.mp ho with ho | ho
        · exact Nat.le_trans (Nat.le_of_lt hlt) (hdeep o ho)
        · rw [List.mem_singleton.mp ho]
      · intro o ho
        rcases List.mem_append.mp ho with ho | ho
        · exact hsingle o ho
        · rw [List.mem_singleton.mp ho]
          exact Nat.le_refl _

/-- No derived table of a tower is shared. -/
theorem shareTables_eq (hg : g.WellFounded) (h : Tower g node q) :
  q.shareTables g = (q.refer [], [])
  := by
  have hnone : ((Occurrences.collect g q []).filter fun o => o.leaves.length > 1) = [] := by
    rw [List.filter_eq_nil_iff]
    intro o ho hlength
    have hle := h.single_collect hg [] (fun _ h => absurd h List.not_mem_nil)
      (fun _ h => absurd h List.not_mem_nil) o ho
    exact absurd (of_decide_eq_true hlength) (Nat.not_lt_of_le hle)
  rw [Query.shareTables, hnone]
  rfl

/-! ### Towers of the same rows -/

/-- Nested queries may be replaced by others that stand for the same tables. -/
theorem map {f : Nested Query → Nested Query}
    (hclauses : ∀ leaf, c.Evaluates g node leaf → c'.Evaluates g node leaf)
    (hf : ∀ s, (f s).node = s.node ∧ (f s).kind = s.kind)
    (hinner : ∀ s ∈ nested, s.kind = .table → s.shared = none →
      (f s).shared = none ∧ ∀ t, Tower g t s.query → Tower g t (f s).query)
    (h : Tower g node (.select c nested)) :
  Tower g node (.select c' (nested.map f))
  := by
  have hkinds : (∀ s ∈ nested, s.kind = .table) → ∀ s ∈ nested.map f, s.kind = .table :=
    fun hnested => List.forall_mem_map.mpr fun s hs => (hf s).2.trans (hnested s hs)
  cases h with
  | physical h hnested hnone htable =>
      refine .physical (hclauses _ h) (hkinds hnested) ?_ htable
      rw [derivedFor?_map hf, hnone]
      rfl
  | derived h hnested hs hshared hlt hquery =>
      obtain ⟨hmem, _, hkind⟩ := mem_of_derivedFor? hs
      obtain ⟨hnone, hkept⟩ := hinner _ hmem hkind hshared
      refine .derived (hclauses _ h) (hkinds hnested) ?_ hnone hlt (hkept _ hquery)
      rw [derivedFor?_map hf, hs]
      rfl

/-- A tower stays one when its columns are qualified. -/
theorem forceAliases (h : Tower g node q) :
  Tower g node (Block.forceAliases q)
  := by
  cases q with
  | select c nested =>
      rw [Block.forceAliases, ← List.map_id nested]
      exact h.map (fun _ h => h.scoped true c.scope) (fun _ => ⟨rfl, rfl⟩)
        fun _ _ _ hnone => ⟨hnone, fun _ h => h⟩
  | union l r distinct => exact h

/-- A tower stays one when no table is shared. -/
theorem refer (q : Query) :
    ∀ node, Tower g node q → Tower g node (q.refer []) := by
  induction q using Query.induction with
  | select c nested ih =>
      intro node h
      rw [Query.refer_select]
      refine h.map (fun _ h => h) (fun _ => ⟨rfl, rfl⟩) fun s hs hkind _ => ⟨?_, ih s hs⟩
      rw [Query.referNested, Query.reference, if_pos hkind]
      rfl
  | union l r distinct hl hr =>
      intro node h
      cases h

/-- A tower stays one when its blocks are bound to scopes. -/
theorem bindIn (q : Query) :
    ∀ node (scope : AliasScope), Tower g node q → Tower g node (q.bindIn scope) := by
  induction q using Query.induction with
  | select c nested ih =>
      intro node scope h
      rw [Query.bindIn_select]
      exact h.map (fun _ h => h.scoped c.forceAliases _) (fun _ => ⟨rfl, rfl⟩)
        fun s hs _ hnone => ⟨hnone, fun t ht => ih s hs t _ ht⟩
  | union l r distinct hl hr =>
      intro node scope h
      cases h

/-- A tower is bound without common table expressions. -/
theorem bind (h : Tower g node q) :
  Tower g node (q.bind []).1 ∧ (q.bind []).2 = []
  := by
  cases q with
  | select c nested =>
      refine ⟨?_, rfl⟩
      exact h.map (fun _ h => h.scoped c.forceAliases _) (fun _ => ⟨rfl, rfl⟩)
        fun s _ _ hnone => ⟨hnone, fun t ht => bindIn s.query t _ ht⟩
  | union l r distinct => cases h

end Tower

end RelSql
