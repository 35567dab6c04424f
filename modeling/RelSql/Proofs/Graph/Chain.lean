import Mathlib.Data.List.Basic
import RelSql.Block.Basic
import RelSql.Proofs.Graph.Extension

/-!
# Chains

The operators above a table that are taken off it one after the other: limits, sorts and
selections.  They come after the table, and are the same in every extended graph.  The filters
above a table are its layers: each has the rows of the one below it for which its predicates hold.
-/

namespace RelSql.Graph

variable {g g' : Graph} {id t : NodeId} {next? : Node → Option NodeId}

/-- The next node of a chain is a child. -/
def Follows (next? : Node → Option NodeId) : Prop :=
  ∀ (n : Node) (t : NodeId), next? n = some t → t ∈ n.children

theorem follows_selection :
  Follows selectionInput?
  := by
  intro n t h
  cases n <;> cases h
  exact List.mem_cons_self

theorem follows_sort :
  Follows sortInput?
  := by
  intro n t h
  cases n <;> cases h
  exact List.mem_cons_self

theorem follows_limit :
  Follows limitInput?
  := by
  intro n t h
  cases n <;> cases h
  exact List.mem_cons_self

/-- One step of following a chain. -/
theorem chain_stable (hnext : Follows next?) :
  NodeId.StableStep fun g (below : NodeId → List NodeId × NodeId) id =>
    match next? (g.node id) with
    | some t => let (rest, last) := below t; (id :: rest, last)
    | none => ([], id)
  := by
  constructor
  · intro g hg f f' id h
    simp only
    split
    case h_1 t ht => rw [h t (hg.child_lt (hnext _ t ht))]
    · rfl
  · intro g g' below id _ _ h hid
    rw [h.node_eq hid]

theorem chain_eq (hnext : Follows next?) (hg : g.WellFounded) (id : NodeId) :
  g.chain next? id = match next? (g.node id) with
    | some t => (id :: (g.chain next? t).1, (g.chain next? t).2)
    | none => ([], id)
  := NodeId.recurse_eq ((chain_stable hnext).isLocal hg) id

theorem chain_next (hnext : Follows next?) (hg : g.WellFounded)
    (ht : next? (g.node id) = some t) :
  g.chain next? id = (id :: (g.chain next? t).1, (g.chain next? t).2)
  := by
  rw [Graph.chain_eq hnext hg, ht]

theorem chain_end (hnext : Follows next?) (hg : g.WellFounded)
    (ht : next? (g.node id) = none) :
  g.chain next? id = ([], id)
  := by
  rw [Graph.chain_eq hnext hg, ht]

/-- A handle keeps its chain. -/
theorem Extends.chain_eq (hnext : Follows next?) (h : g.Extends g') (hg : g.WellFounded)
    (hg' : g'.WellFounded) (hid : g.Has id) :
  g'.chain next? id = g.chain next? id
  := (chain_stable hnext).recurse_eq hg hg' h hid _

/-- Induction along a chain: what holds where it ends and is handed up holds of the node it
starts from. -/
theorem chain_induction (hnext : Follows next?) (hg : g.WellFounded) {P : NodeId → Prop}
    (hend : ∀ id, next? (g.node id) = none → P id)
    (hstep : ∀ id t, next? (g.node id) = some t → P t → P id) (id : NodeId) :
  P id
  := by
  obtain ⟨i⟩ := id
  induction i using Nat.strongRecOn with
  | ind i ih =>
      cases ht : next? (g.node ⟨i⟩) with
      | none => exact hend ⟨i⟩ ht
      | some t =>
          apply hstep ⟨i⟩ t ht
          exact ih t.index (hg.child_lt (hnext _ t ht))

/-- A chain ends before the node it starts from, or there. -/
theorem WellFounded.chain_le (hg : g.WellFounded) (hnext : Follows next?) (id : NodeId) :
  (g.chain next? id).2.index ≤ id.index
  := by
  apply chain_induction hnext hg (P := fun id => (g.chain next? id).2.index ≤ id.index)
  · intro id ht
    exact Nat.le_of_eq (congrArg (fun c => c.2.index) (chain_end hnext hg ht))
  · intro id t ht ih
    rw [chain_next hnext hg ht]
    exact Nat.le_of_lt (Nat.lt_of_le_of_lt ih (hg.child_lt (hnext _ t ht)))

/-- The nodes of a chain come after the table where it ends. -/
theorem WellFounded.lt_of_mem_chain (hg : g.WellFounded) (hnext : Follows next?) (id : NodeId) :
  ∀ n ∈ (g.chain next? id).1, (g.chain next? id).2.index < n.index
  := by
  apply chain_induction hnext hg
    (P := fun id => ∀ n ∈ (g.chain next? id).1, (g.chain next? id).2.index < n.index)
  · intro id ht n hn
    rw [chain_end hnext hg ht] at hn
    exact absurd hn List.not_mem_nil
  · intro id t ht ih n hn
    rw [chain_next hnext hg ht] at hn ⊢
    rcases List.mem_cons.mp hn with rfl | hn
    · exact Nat.lt_of_le_of_lt (hg.chain_le hnext t) (hg.child_lt (hnext _ t ht))
    · exact ih n hn

theorem WellFounded.has_chain (hg : g.WellFounded) (hnext : Follows next?) (hid : g.Has id) :
  g.Has (g.chain next? id).2
  := Nat.lt_of_le_of_lt (hg.chain_le hnext id) hid

/-- The nodes of a chain are there when the first one is. -/
theorem WellFounded.has_of_mem_chain (hg : g.WellFounded) (hnext : Follows next?)
    (hid : g.Has id) :
  ∀ n ∈ (g.chain next? id).1, g.Has n
  := by
  revert hid
  apply chain_induction hnext hg
    (P := fun id => g.Has id → ∀ n ∈ (g.chain next? id).1, g.Has n)
  · intro id ht _ n hn
    rw [chain_end hnext hg ht] at hn
    exact absurd hn List.not_mem_nil
  · intro id t ht ih hid n hn
    rw [chain_next hnext hg ht] at hn
    rcases List.mem_cons.mp hn with rfl | hn
    · exact hid
    · exact ih (hg.has_child hid (hnext _ t ht)) n hn

/-! ### Joins -/

theorem Extends.isJoin_eq (h : g.Extends g') (hid : g.Has id) :
  g'.isJoin id = g.isJoin id
  := by
  rw [isJoin, isJoin, h.node_eq hid]

/-- A join is there. -/
theorem has_of_isJoin (h : g.isJoin id = true) :
  g.Has id
  := by
  apply has_of_node rfl
  intro hn
  rw [isJoin, hn] at h
  cases h

theorem eq_join (h : g.isJoin id = true) :
  ∃ kind l r predicates, g.node id = .join kind l r predicates
  := by
  rw [isJoin] at h
  split at h
  case h_1 kind l r predicates hn => exact ⟨kind, l, r, predicates, hn⟩
  · cases h

/-- A join stays one. -/
theorem Extends.isJoin (e : g.Extends g') (h : g.isJoin id = true) :
  g'.isJoin id = true
  := by
  rw [e.isJoin_eq (has_of_isJoin h), h]

/-! ### Selections -/

/-- What has the input of a selection is one. -/
theorem eq_selection {n : Node} (h : selectionInput? n = some t) :
  ∃ predicates, n = .selection t predicates
  := by
  cases n with
  | selection _ predicates =>
      cases h
      exact ⟨predicates, rfl⟩
  | _ => cases h

theorem peel_selection (hg : g.WellFounded) {predicates : List NodeId}
    (hn : g.node id = .selection t predicates) :
  g.peel id = ⟨(g.peel t).table, id :: (g.peel t).chain, (g.peel t).predicates ++ predicates⟩
  := by
  have ht : selectionInput? (g.node id) = some t := by rw [hn]; rfl
  simp only [peel, chain_next follows_selection hg ht, List.reverse_cons, List.flatMap_append,
    List.flatMap_singleton, predicatesOf, hn]

theorem peel_other (hg : g.WellFounded) (hn : selectionInput? (g.node id) = none) :
  g.peel id = ⟨id, [], []⟩
  := by
  simp only [peel, chain_end follows_selection hg hn, List.reverse_nil, List.flatMap_nil]

/-- A table with selections above another one is not a join. -/
theorem isJoin_of_peel (hg : g.WellFounded) (h : (g.peel id).chain.isEmpty = false) :
  g.isJoin id = false
  := by
  cases hn : g.node id with
  | join kind l r predicates =>
      rw [peel_other hg (by rw [hn]; rfl)] at h
      cases h
  | _ => rw [isJoin, hn]

theorem Extends.predicatesOf_eq (h : g.Extends g') (hid : g.Has id) :
  g'.predicatesOf id = g.predicatesOf id
  := by
  rw [predicatesOf, predicatesOf, h.node_eq hid]

/-- A handle keeps its selections. -/
theorem Extends.peel_eq (h : g.Extends g') (hg : g.WellFounded) (hg' : g'.WellFounded)
    (hid : g.Has id) :
  g'.peel id = g.peel id
  := by
  have hchain := h.chain_eq follows_selection hg hg' hid
  simp only [peel, hchain, Peeled.mk.injEq, true_and]
  apply List.flatMap_congr
  intro n hn
  apply h.predicatesOf_eq
  exact hg.has_of_mem_chain follows_selection hid n (List.mem_reverse.mp hn)

theorem WellFounded.peel_le (hg : g.WellFounded) (id : NodeId) :
  (g.peel id).table.index ≤ id.index
  := hg.chain_le follows_selection id

theorem WellFounded.has_peel (hg : g.WellFounded) (hid : g.Has id) :
  g.Has (g.peel id).table
  := hg.has_chain follows_selection hid

/-- The table below selections is not a selection. -/
theorem WellFounded.peel_table (hg : g.WellFounded) (id : NodeId) :
  selectionInput? (g.node (g.peel id).table) = none
  := by
  apply chain_induction follows_selection hg
    (P := fun id => selectionInput? (g.node (g.peel id).table) = none)
  · intro id ht
    rw [peel_other hg ht]
    exact ht
  · intro id t ht ih
    obtain ⟨predicates, hn⟩ := eq_selection ht
    rw [peel_selection hg hn]
    exact ih

theorem WellFounded.has_predicates (hg : g.WellFounded) (hid : g.Has id) :
  ∀ p ∈ (g.peel id).predicates, g.Has p
  := by
  revert hid
  apply chain_induction follows_selection hg
    (P := fun id => g.Has id → ∀ p ∈ (g.peel id).predicates, g.Has p)
  · intro id ht _ p hp
    rw [peel_other hg ht] at hp
    exact absurd hp List.not_mem_nil
  · intro id t ht ih hid p hp
    obtain ⟨predicates, hn⟩ := eq_selection ht
    have hchild : ∀ c ∈ t :: predicates, g.Has c := by
      intro c hc
      apply hg.has_child hid
      rw [hn]
      exact hc
    rw [peel_selection hg hn] at hp
    rcases List.mem_append.mp hp with hp | hp
    · exact ih (hchild t List.mem_cons_self) p hp
    · exact hchild p (List.mem_cons_of_mem t hp)

/-- What is taken off a table are selections. -/
theorem WellFounded.isRelation_of_mem_peel (hg : g.WellFounded) {n : NodeId}
    (hn : n ∈ (g.peel id).chain) :
  g.isRelation n = true
  := by
  revert hn
  apply chain_induction follows_selection hg
    (P := fun id => n ∈ (g.peel id).chain → g.isRelation n = true)
  · intro id ht hn
    rw [peel_other hg ht] at hn
    exact absurd hn List.not_mem_nil
  · intro id t ht ih hn
    obtain ⟨predicates, hnode⟩ := eq_selection ht
    rw [peel_selection hg hnode] at hn
    rcases List.mem_cons.mp hn with rfl | hn
    · rw [isRelation, hnode]
      rfl
    · exact ih hn

/-! ### Layers -/

/-- The filters above a table, and the table below them. -/
def layers (g : Graph) (t : NodeId) : List NodeId :=
  (g.peel t).chain ++ [(g.peel t).table]

/-- A table is the topmost one of its layers. -/
theorem mem_layers_self (hg : g.WellFounded) (t : NodeId) :
  t ∈ g.layers t
  := by
  cases hinput : selectionInput? (g.node t) with
  | none =>
      rw [layers, peel_other hg hinput]
      exact List.mem_singleton_self t
  | some u =>
      obtain ⟨predicates, hn⟩ := eq_selection hinput
      rw [layers, peel_selection hg hn]
      exact List.mem_cons_self

/-- What holds of a table without filters, and is handed up from the table below a filter, holds of
every table. -/
theorem layers_induction (hg : g.WellFounded) {P : NodeId → Prop}
    (htable : ∀ t, g.peel t = ⟨t, [], []⟩ → P t)
    (hfilter : ∀ t u predicates, g.node t = .selection u predicates →
      g.layers t = t :: g.layers u → P u → P t) (t : NodeId) :
  P t
  := by
  apply chain_induction follows_selection hg
  · exact fun t ht => htable t (peel_other hg ht)
  · intro t u hu ih
    obtain ⟨predicates, hn⟩ := eq_selection hu
    refine hfilter t u predicates hn ?_ ih
    rw [layers, layers, peel_selection hg hn]
    rfl

/-- The layers above a table are filters. -/
theorem selection_of_mem_chain (hg : g.WellFounded) (t : NodeId) :
  ∀ u ∈ (g.peel t).chain, ∃ v predicates, g.node u = .selection v predicates
  := by
  apply layers_induction hg
    (P := fun t => ∀ u ∈ (g.peel t).chain, ∃ v predicates, g.node u = .selection v predicates)
  · intro t hpeel
    rw [hpeel]
    nofun
  · intro t u predicates hn _ ih
    rw [peel_selection hg hn]
    exact List.forall_mem_cons.mpr ⟨⟨u, predicates, hn⟩, ih⟩

/-- The table below all filters is not one of them. -/
theorem table_notMem_chain (hg : g.WellFounded) (t t' : NodeId) :
  (g.peel t).table ∉ (g.peel t').chain
  := by
  intro hmem
  obtain ⟨v, predicates, hn⟩ := selection_of_mem_chain hg t' _ hmem
  have hnone := hg.peel_table t
  rw [hn] at hnone
  cases hnone

/-- The table below the filters is a layer. -/
theorem table_mem_layers (g : Graph) (t : NodeId) :
  (g.peel t).table ∈ g.layers t
  := List.mem_append_right _ (List.mem_singleton_self _)

/-- The filters above a table come after what is below them. -/
theorem layers_le (hg : g.WellFounded) (t : NodeId) :
  ∀ u ∈ g.layers t, u.index ≤ t.index
  := by
  apply layers_induction hg (P := fun t => ∀ u ∈ g.layers t, u.index ≤ t.index)
  · intro t hpeel
    rw [layers, hpeel]
    exact List.forall_mem_singleton.mpr (Nat.le_refl _)
  · intro t u predicates hn hlayers ih
    have hlt : u.index < t.index := by
      apply hg.child_lt
      rw [hn]
      exact List.mem_cons_self
    rw [hlayers]
    refine List.forall_mem_cons.mpr ⟨Nat.le_refl _, fun w hw => ?_⟩
    exact Nat.le_of_lt (Nat.lt_of_le_of_lt (ih w hw) hlt)

/-- The predicates of the filters above a table come before it. -/
theorem predicates_lt (hg : g.WellFounded) (t : NodeId) :
  ∀ p ∈ (g.peel t).predicates, p.index < t.index
  := by
  apply layers_induction hg (P := fun t => ∀ p ∈ (g.peel t).predicates, p.index < t.index)
  · intro t hpeel
    rw [hpeel]
    nofun
  · intro t u predicates hn _ ih
    have hlt : ∀ c ∈ u :: predicates, c.index < t.index := by
      intro c hc
      apply hg.child_lt
      rw [hn]
      exact hc
    obtain ⟨hu, hpredicates⟩ := List.forall_mem_cons.mp hlt
    rw [peel_selection hg hn]
    exact List.forall_mem_append.mpr ⟨fun p hp => Nat.lt_trans (ih p hp) hu, hpredicates⟩

end RelSql.Graph
