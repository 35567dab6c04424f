import RelSql.Proofs.Block.Table
import RelSql.Proofs.Meaning.Rows
import RelSql.Proofs.Meaning.Columns

/-!
# Rows at the top of a table

A pipeline has one limit at its top at most, below it one sort at most, and below that a distinct
or none.  What a block outputs of the rows of the table below is made of them by the three.
-/

namespace RelSql

variable {g : Graph} {id t : NodeId}

namespace Graph

/-! ### Chains of limits and sorts -/

/-- A pipeline has one limit at its top at most. -/
theorem Pipeline.limits (hg : g.WellFounded) (h : g.Pipeline id) :
  (limitInput? (g.node id) = none ∧ g.chain limitInput? id = ([], id))
    ∨ ∃ t n offset, g.node id = .limit t n offset ∧ g.chain limitInput? id = ([id], t)
  := by
  cases ht : limitInput? (g.node id) with
  | none => exact .inl ⟨rfl, chain_end follows_limit hg ht⟩
  | some t =>
      have hregular := h.regular
      rw [Regular] at hregular
      cases hn : g.node id <;> rw [hn] at ht hregular <;> cases ht
      have hchain : g.chain limitInput? id
          = (id :: (g.chain limitInput? t).1, (g.chain limitInput? t).2) :=
        chain_next follows_limit hg (by rw [hn]; rfl)
      rw [chain_end follows_limit hg hregular] at hchain
      exact .inr ⟨t, _, _, rfl, hchain⟩

theorem isSort_of_node {keys : List SortKey} (hn : g.node id = .sort t keys) :
  g.isSort id = true
  := by
  rw [isSort, hn]

/-- A pipeline has one sort at its top at most. -/
theorem Pipeline.sortChain (hg : g.WellFounded) (h : g.Pipeline id) :
  (sortInput? (g.node id) = none ∧ g.chain sortInput? id = ([], id))
    ∨ ∃ t keys, g.node id = .sort t keys ∧ g.chain sortInput? id = ([id], t)
      ∧ (∀ k ∈ keys, g.Over false t k.expr) ∧ g.sorts t = false
  := by
  cases ht : sortInput? (g.node id) with
  | none => exact .inl ⟨rfl, chain_end follows_sort hg ht⟩
  | some t =>
      have hregular := h.regular
      rw [Regular] at hregular
      cases hn : g.node id <;> rw [hn] at ht hregular <;> cases ht
      have hend : sortInput? (g.node t) = none := by
        cases ht : sortInput? (g.node t) with
        | none => rfl
        | some u =>
            cases hsort : g.node t <;> rw [hsort] at ht <;> cases ht
            have hsorts := sorts_of_input hg hsort rfl
            rw [hregular.2, isSort_of_node hsort] at hsorts
            cases hsorts
      have hchain : g.chain sortInput? id
          = (id :: (g.chain sortInput? t).1, (g.chain sortInput? t).2) :=
        chain_next follows_sort hg (by rw [hn]; rfl)
      rw [chain_end follows_sort hg hend] at hchain
      exact .inr ⟨t, _, rfl, hchain, hregular.1, hregular.2⟩

/-- The rows of the first table are those of the second one, limited. -/
structure Limited (g : Graph) (id t : NodeId) (limits : List NodeId) : Prop where
  pipeline : g.Pipeline t
  depth_lt : ∀ n ∈ limits, g.depth t < g.depth n
  above : g.depth t < g.depth id ∨ t = id ∧ limitInput? (g.node id) = none
  rows : ∀ {V : Type} [DecidableEq V] (I : Interpretation V) (db : Database V),
    g.rows I db id = match g.outerLimit limits with
      | some l => ((g.rows I db t).drop l.offset).take l.n
      | none => g.rows I db t

theorem Pipeline.limited (hg : g.WellFounded) (h : g.Pipeline id) :
  g.Limited id (g.chain limitInput? id).2 (g.chain limitInput? id).1
  := by
  rcases h.limits hg with ⟨hnone, hchain⟩ | ⟨t, n, offset, hn, hchain⟩
  · rw [hchain]
    exact ⟨h, nofun, .inr ⟨rfl, hnone⟩, fun _ _ => rfl⟩
  · have hlt : g.depth t < g.depth id := depth_lt_of_input hg hn rfl
    have hlimit : g.outerLimit [id] = some ⟨n, offset⟩ := by
      rw [outerLimit, List.head?_cons, Option.map_some, hn]
    rw [hchain]
    refine ⟨h.input (by rw [hn]; rfl), List.forall_mem_singleton.mpr hlt, .inl hlt, ?_⟩
    · intro V _ I db
      simp only [hlimit]
      exact rows_limit hg hn

/-- The rows of the first table are those of the second one, sorted by `keys`. -/
structure Sorted (g : Graph) (id t : NodeId) (sorts : List NodeId) (keys : List SortKey) :
    Prop where
  pipeline : g.Pipeline t
  depth_le : g.depth t ≤ g.depth id
  depth_lt : ∀ n ∈ sorts, g.depth t < g.depth n
  kept : t = id ∧ sortInput? (g.node id) = none ∨ id ∈ sorts ∧ ∃ keys, g.node id = .sort t keys
  values : ∀ k ∈ keys, g.Over false t k.expr
  unsorted : keys = [] ∨ g.sorts t = false
  rows : ∀ {V : Type} [DecidableEq V] (I : Interpretation V) (db : Database V),
    g.rows I db id = I.sorted (fun v r => g.denote I.values v (.ofRow r)) keys (g.rows I db t)

theorem Pipeline.sorted (hg : g.WellFounded) (h : g.Pipeline id) :
  g.Sorted id (g.chain sortInput? id).2 (g.chain sortInput? id).1
      (g.topKeys (g.chain sortInput? id).1)
    ∧ g.innerKeys (g.chain sortInput? id).1 = g.topKeys (g.chain sortInput? id).1
    ∧ (g.sorts id = false → (g.chain sortInput? id).1 = [])
  := by
  rcases h.sortChain hg with ⟨hnone, hchain⟩ | ⟨t, keys, hn, hchain, hkeys, hsorts⟩
  · rw [hchain]
    refine ⟨⟨h, Nat.le_refl _, nofun, .inl ⟨rfl, hnone⟩, ?_, .inl rfl, ?_⟩, rfl, fun _ => rfl⟩
    · exact fun k hk => absurd hk List.not_mem_nil
    · exact fun I db => (I.sorted_nil _).symm
  · have hsort : g.sortKeysOf id = keys := by rw [sortKeysOf, hn]
    have htop : g.topKeys [id] = keys := hsort
    have hlt : g.depth t < g.depth id := depth_lt_of_input hg hn rfl
    rw [hchain]
    simp only [htop]
    refine ⟨⟨h.input (by rw [hn]; rfl), Nat.le_of_lt hlt, List.forall_mem_singleton.mpr hlt,
      .inr ⟨List.mem_singleton_self _, keys, hn⟩, hkeys, .inr hsorts,
      fun I db => rows_sort hg hn⟩, ?_, ?_⟩
    · rw [innerKeys, List.map_singleton, hsort]
      by_cases hnil : keys = []
      · rw [hnil]
        rfl
      · rw [List.find?_cons_of_pos (by simpa using hnil)]
        rfl
    · intro hfalse
      rw [sorts_of_input hg hn rfl, isSort_of_node hn] at hfalse
      cases hfalse

/-- What is below limits and sorts is deeper, or the same when there is none of them. -/
theorem Sorted.above (hg : g.WellFounded) {u : NodeId} {limits sorts : List NodeId}
    {keys : List SortKey} (h : g.Sorted t u sorts keys) (hlimited : g.Limited id t limits) :
  g.depth u < g.depth id
    ∨ u = id ∧ limitInput? (g.node u) = none ∧ sortInput? (g.node u) = none
  := by
  rcases h.kept with ⟨rfl, hnone⟩ | ⟨_, keys', hn⟩
  · rcases hlimited.above with hlt | ⟨rfl, hnone'⟩
    · exact .inl hlt
    · exact .inr ⟨rfl, hnone', hnone⟩
  · left
    have hlt : g.depth u < g.depth t := depth_lt_of_input hg hn rfl
    rcases hlimited.above with hlt' | ⟨rfl, _⟩
    · exact Nat.lt_trans hlt hlt'
    · exact hlt

end Graph

namespace Block

/-- What is folded into a block at the top of a table. -/
structure Caps (g : Graph) (node t : NodeId) (b : Block) : Prop where
  pipeline : g.Pipeline t
  clauses : b.clauses = { Clauses.ofNode node with
    orderBy := b.clauses.orderBy
    limit := b.clauses.limit
    distinct := b.clauses.distinct }
  outputs : b.folding.outputs = []
  depth_lt : ∀ n ∈ b.folding.fused, g.depth t < g.depth n
  above : g.depth t < g.depth node
    ∨ t = node ∧ Graph.limitInput? (g.node t) = none ∧ Graph.sortInput? (g.node t) = none
      ∧ ∀ u, g.node t ≠ .distinct u
  keys : ∃ t', (t' = t ∨ t' ∈ b.folding.fused ∧ Graph.keptInput? (g.node t') = some t)
    ∧ ∀ k ∈ b.clauses.orderBy, g.Over false t' k.expr
  sorts : b.clauses.orderBy = [] ∨ g.sorts t = false
  rows : ∀ {V : Type} [DecidableEq V] (I : Interpretation V) (db : Database V),
    g.rows I db node = b.clauses.finish
      (I.sorted (fun v r => g.denote I.values v (.ofRow r)) b.clauses.orderBy (g.rows I db t))

/-- The limits, the sorts and the distinct at the top of a pipeline. -/
theorem caps_top (hg : g.WellFounded) {node : NodeId} (h : g.Pipeline node) :
  Caps g node (top g node).2 (top g node).1
  := by
  have hlimited := h.limited hg
  have hsorted := (hlimited.pipeline.sorted hg).1
  rw [top]
  generalize g.chain Graph.limitInput? node = limits at hlimited hsorted ⊢
  generalize g.chain Graph.sortInput? limits.2 = sorts at hsorted ⊢
  have hbelow : ∀ n ∈ limits.1 ++ sorts.1, g.depth sorts.2 < g.depth n := by
    intro n hn
    rcases List.mem_append.mp hn with hn | hn
    · exact Nat.lt_of_le_of_lt hsorted.depth_le (hlimited.depth_lt n hn)
    · exact hsorted.depth_lt n hn
  have habove := hsorted.above hg hlimited
  rw [distinctOf]
  split
  case h_1 t hn =>
      have hlt : g.depth t < g.depth sorts.2 := Graph.depth_lt_of_input hg hn rfl
      have hmem : sorts.2 ∈ limits.1 ++ sorts.1 ++ [sorts.2] :=
        List.mem_append_right _ (List.mem_singleton_self _)
      refine ⟨hsorted.pipeline.input (by rw [hn]; rfl), rfl, rfl, ?_, .inl ?_, ?_, ?_, ?_⟩
      · intro n hmem
        rcases List.mem_append.mp hmem with hmem | hmem
        · exact Nat.lt_trans hlt (hbelow n hmem)
        · rw [List.mem_singleton.mp hmem]
          exact hlt
      · rcases habove with hlt' | ⟨hsame, _⟩
        · exact Nat.lt_trans hlt hlt'
        · rw [← hsame]
          exact hlt
      · exact ⟨sorts.2, .inr ⟨hmem, by rw [hn]; rfl⟩, hsorted.values⟩
      · rcases hsorted.unsorted with hnil | hunsorted
        · exact .inl hnil
        · rw [Graph.sorts_of_input hg hn rfl, Bool.or_eq_false_iff] at hunsorted
          exact .inr hunsorted.2
      · intro V _ I db
        rw [hlimited.rows, hsorted.rows, Graph.rows_distinct hg hn, ← I.eraseDups_sorted]
        rfl
  case h_2 hother =>
      refine ⟨hsorted.pipeline, rfl, rfl, hbelow, ?_, ⟨sorts.2, .inl rfl, hsorted.values⟩,
        hsorted.unsorted, ?_⟩
      · exact habove.imp_right fun h => ⟨h.1, h.2.1, h.2.2, hother⟩
      · intro V _ I db
        rw [hlimited.rows, hsorted.rows]
        rfl

end Block

end RelSql
