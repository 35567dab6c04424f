import RelSql.Proofs.Block.Table
import RelSql.Proofs.Nesting.Bounds
import RelSql.Proofs.Nesting.Values

/-!
# Bounds for blocks

The FROM clause and the predicates of a block fit into the table that the block is built for,
whichever operators have been folded or fused on the way to the FROM clause.
-/

namespace RelSql

/-- A table that is compiled where it stands in a FROM clause unless it is at the top of a
block. -/
def Node.isStacked : Node → Bool
  | .sort _ _ | .limit _ _ _ | .distinct _ | .union _ _ _ => true
  | _ => false

namespace Graph

open Nesting

variable {g g' : Graph} {id t : NodeId} {next? : Node → Option NodeId}

/-! ### Limits and sorts -/

/-- The table where a chain ends is nested less deeply than the chain, if there is one. -/
theorem depth_chain (hnext : Follows next?) (hg : g.WellFounded)
    (hlt : ∀ id t, next? (g.node id) = some t → (g.nesting t).depth < (g.nesting id).depth)
    (id : NodeId) :
  (g.nesting (g.chain next? id).2).depth ≤ (g.nesting id).depth
    ∧ (next? (g.node id) ≠ none → (g.nesting (g.chain next? id).2).depth < (g.nesting id).depth)
  := by
  apply chain_induction hnext hg (P := fun id =>
    (g.nesting (g.chain next? id).2).depth ≤ (g.nesting id).depth
      ∧ (next? (g.node id) ≠ none
        → (g.nesting (g.chain next? id).2).depth < (g.nesting id).depth))
  · intro id ht
    rw [chain_end hnext hg ht]
    exact ⟨Nat.le_refl _, fun h => absurd ht h⟩
  · intro id t ht ih
    have h := Nat.lt_of_le_of_lt ih.1 (hlt id t ht)
    rw [chain_next hnext hg ht]
    exact ⟨Nat.le_of_lt h, fun _ => h⟩

theorem depth_limit (hg : g.WellFounded) (id t : NodeId) (h : limitInput? (g.node id) = some t) :
  (g.nesting t).depth < (g.nesting id).depth
  := by
  cases hn : g.node id <;> rw [hn] at h <;> cases h
  rw [nesting_of_node hg hn]
  exact Nat.lt_add_of_pos_left Nat.one_pos

theorem depth_sort (hg : g.WellFounded) (id t : NodeId) (h : sortInput? (g.node id) = some t) :
  (g.nesting t).depth < (g.nesting id).depth
  := by
  cases hn : g.node id <;> rw [hn] at h <;> cases h
  rw [nesting_of_node hg hn]
  exact Nat.lt_add_of_pos_left Nat.one_pos

/-- Sorts keep the rankings of a table, which nests no more in a FROM clause than they do. -/
theorem chain_sort (hg : g.WellFounded) (id : NodeId) :
  (g.nesting (g.chain sortInput? id).2).source ≤ (g.nesting id).source
    ∧ (g.nesting (g.chain sortInput? id).2).rankings = (g.nesting id).rankings
  := by
  apply chain_induction follows_sort hg (P := fun id =>
    (g.nesting (g.chain sortInput? id).2).source ≤ (g.nesting id).source
      ∧ (g.nesting (g.chain sortInput? id).2).rankings = (g.nesting id).rankings)
  · intro id ht
    rw [chain_end follows_sort hg ht]
    exact ⟨Nat.le_refl _, rfl⟩
  · intro id t ht ih
    rw [chain_next follows_sort hg ht]
    cases hn : g.node id <;> rw [hn] at ht <;> cases ht
    have hsource : (g.nesting id).source = 1 + (g.nesting t).depth := by
      rw [nesting_of_node hg hn]
      rfl
    have hrankings : (g.nesting id).rankings = (g.nesting t).rankings := by
      rw [nesting_of_node hg hn]
      rfl
    have hdepth := source_le_depth hg t
    rw [hrankings]
    refine ⟨?_, ih.2⟩
    have := ih.1
    dsimp only
    omega

/-- What is below the top of a table is nested no more deeply than the table, and less deeply
if it would have been folded at the top of a block. -/
theorem depth_top (hg : g.WellFounded) {node : NodeId}
    (hunion : ∀ l r distinct, g.node node ≠ .union l r distinct) :
  (g.nesting (Block.top g node).2).depth ≤ (g.nesting node).depth
    ∧ ((g.node (Block.top g node).2).isStacked = true
      → (g.nesting (Block.top g node).2).depth < (g.nesting node).depth)
  := by
  obtain ⟨hlimit, hlimited⟩ := depth_chain follows_limit hg (depth_limit hg) node
  obtain ⟨hsort, hsorted⟩ :=
    depth_chain follows_sort hg (depth_sort hg) (g.chain limitInput? node).2
  have hbelow : ∀ {m : Nat}, (g.nesting (g.chain sortInput? (g.chain limitInput? node).2).2).depth ≤ m
      → (g.nesting (Block.top g node).2).depth ≤ m := by
    intro m hm
    apply Nat.le_trans _ hm
    simp only [Block.top, Block.distinctOf]
    split
    case h_1 t hn =>
        rw [nesting_of_node hg hn]
        exact Nat.le_add_left _ 1
    · exact Nat.le_refl _
  refine ⟨hbelow (Nat.le_trans hsort hlimit), ?_⟩
  intro hstacked
  cases hl : limitInput? (g.node node) with
  | some t =>
      apply Nat.lt_of_le_of_lt (hbelow hsort)
      exact hlimited (by simp [hl])
  | none =>
      rw [chain_end follows_limit hg hl] at hbelow hsorted
      cases hs : sortInput? (g.node node) with
      | some t =>
          apply Nat.lt_of_le_of_lt (hbelow (Nat.le_refl _))
          exact hsorted (by simp [hs])
      | none =>
          simp only [Block.top, Block.distinctOf, chain_end follows_limit hg hl,
            chain_end follows_sort hg hs] at hstacked ⊢
          split
          case h_1 t hn =>
              rw [nesting_of_node hg hn]
              exact Nat.lt_add_of_pos_left Nat.one_pos
          case h_2 hdistinct =>
              -- nothing is folded, so the table is none of those that are
              split at hstacked
              · exact absurd ‹_› (hdistinct _)
              · cases hn : g.node node with
                | limit t n offset => rw [hn] at hl; cases hl
                | sort t keys => rw [hn] at hs; cases hs
                | distinct t => exact absurd hn (hdistinct t)
                | union l r unique => exact absurd hn (hunion l r unique)
                | _ => rw [hn] at hstacked; cases hstacked

/-! ### Fusion -/

theorem nesting_projection (hg : g.WellFounded) {selections : List NodeId}
    (hn : g.node id = .projection t selections) :
  (g.nesting id).depth = (g.nesting t).blockOver ∧ (g.nesting id).source = (g.nesting t).blockOver
    ∧ (g.nesting id).rankings = (g.nesting t).rankings
  := by
  rw [nesting_of_node hg hn]
  exact ⟨rfl, rfl, rfl⟩

/-- There are as many rankings among pushed predicates as among the given ones. -/
theorem rankings_of_pushes (hg : g.WellFounded) {fused predicates lifted : List NodeId}
    (hpushes : (Folding.of fused).pushes g predicates = true)
    (h : List.Forall₂ ((Folding.of fused).Lifts .substitute g) predicates lifted) :
  g.rankingsAmong lifted = g.rankingsAmong predicates
  := by
  induction h with
  | nil => rfl
  | @cons p l ps ls hl _ ih =>
      rw [Folding.pushes, List.all_cons, Bool.and_eq_true] at hpushes
      have hp : (Folding.of fused).pushes g [p] = true := by
        rw [Folding.pushes, List.all_cons, hpushes.1]
        rfl
      simp only [rankingsAmong, List.map_cons, List.sum_cons]
      rw [hl.rankings_eq hg hp]
      exact congrArg _ (ih hpushes.2)

/-- A fused projection nests no more than the one that it is fused from. -/
theorem Fuses.nesting (hg : g.WellFounded) {projection : NodeId} {f : Fused}
    (h : g.Fuses projection f) :
  (g.nesting f.node).depth ≤ (g.nesting projection).depth
    ∧ (g.nesting f.node).rankings ≤ (g.nesting projection).rankings
  := by
  obtain @⟨input, table, source, outer, inner, parts, hprojection, hinner, habsorbed, _, hpushes,
    hnode, _, hsource⟩ := h
  obtain ⟨hdepth, _, hrankings⟩ := nesting_projection hg hprojection
  obtain ⟨hdepth', _, hrankings'⟩ := nesting_projection hg hnode
  obtain ⟨_, hsource₁, hrankings₁⟩ := nesting_projection hg hinner
  have hbelow := below_peel hg input
  rw [hdepth, hdepth', hrankings, hrankings']
  cases hsource with
  | all hnone =>
      have hover := depth_le_blockOver hg input
      have hdepth₁ := source_le_depth hg (g.peel input).table
      have h₁ := hbelow.depth
      have h₂ := hbelow.rankings
      omega
  | @filtered _ lifted hsome hsource hlifted =>
      have hchain : selectionInput? (g.node input) ≠ none := by
        intro hnone
        apply hsome
        rw [peel_other hg hnone]
      obtain ⟨content, hcontent, hreach, hblock, hsame⟩ := block_le_peel hg hchain
      have hamong := rankings_of_pushes hg hpushes hlifted
      have hover : ∀ l ∈ lifted, (g.nesting l).reach ≤ content := by
        intro l hl
        obtain ⟨p, hp, hpl⟩ := forall₂_exists hlifted.flip l hl
        exact Nat.le_trans (hpl.nesting_within hg).reach (hreach p hp)
      have hrankings₂ := rankings_selection hg hsource
      have h₂ := hbelow.rankings
      have hr : (g.nesting source).rankings = (g.nesting input).rankings := by omega
      refine ⟨?_, Nat.le_of_eq hr⟩
      have hdepth₂ : (g.nesting source).source ≤ block content (g.nesting input).rankings := by
        have htable := depth_le_blockOver hg table
        have htable' := source_le_depth hg table
        rw [← hr, nesting_selection hg hsource]
        apply block_mono _ (Nat.le_refl _)
        apply Nat.max_le.mpr
        refine ⟨by omega, ?_⟩
        apply largest_le
        simpa using hover
      rw [blockOver, blockOver, hr, hsame, ← hblock]
      exact block_mono hdepth₂ (Nat.le_refl _)

/-- A projection to which another one is fused nests no more than that one. -/
theorem FusesTo.nesting (hg : g.WellFounded) {projection core : NodeId} {fs : List Fused}
    (h : g.FusesTo projection fs core) :
  (g.nesting core).depth ≤ (g.nesting projection).depth
    ∧ (g.nesting core).rankings ≤ (g.nesting projection).rankings
  := by
  induction h with
  | nil => exact ⟨Nat.le_refl _, Nat.le_refl _⟩
  | cons h _ ih =>
      obtain ⟨hdepth, hrankings⟩ := h.nesting hg
      exact ⟨Nat.le_trans ih.1 hdepth, Nat.le_trans ih.2 hrankings⟩

/-! ### FROM clauses and predicates -/

/-- A block over a FROM clause, with predicates, fits into a table of some depth.  Without
predicates, no queries are nested but those of the FROM clause. -/
inductive FitsWithin (g : Graph) (depth : Nat) (t : TableSet) (predicates : List NodeId) : Prop where
  | block {content rankings : Nat} (h : g.Nests content rankings t predicates)
      (hdepth : Nesting.block content rankings ≤ depth) : FitsWithin g depth t predicates
  | bare {content rankings : Nat} (h : g.Nests content rankings t predicates)
      (hnone : predicates = []) (hdepth : content < depth) : FitsWithin g depth t predicates

theorem FitsWithin.le {depth depth' : Nat} {t : TableSet} {predicates : List NodeId}
    (h : g.FitsWithin depth t predicates) (hdepth : depth ≤ depth') :
  g.FitsWithin depth' t predicates
  := by
  cases h with
  | block h hblock => exact .block h (Nat.le_trans hblock hdepth)
  | bare h hnone hlt => exact .bare h hnone (Nat.lt_of_lt_of_le hlt hdepth)

/-- What fits into a table fits into it when the graph grows. -/
theorem FitsWithin.mono (e : g.Extends g') (hg : g.WellFounded) (hg' : g'.WellFounded) {depth : Nat}
    {t : TableSet} {predicates : List NodeId} (hleaves : ∀ leaf ∈ t.leaves, g.Has leaf)
    (hpredicates : ∀ p ∈ predicates, g.Has p) (h : g.FitsWithin depth t predicates) :
  g'.FitsWithin depth t predicates
  := by
  cases h with
  | block h hblock => exact .block (h.mono e hg hg' hleaves hpredicates) hblock
  | bare h hnone hlt => exact .bare (h.mono e hg hg' hleaves hpredicates) hnone hlt

/-- The derived tables of a join tree that fits into a table are nested less deeply. -/
theorem FitsWithin.derives (hg : g.WellFounded) {depth : Nat} {predicates : List NodeId}
    (h : g.FitsWithin depth (g.joinTree id).tables predicates) :
  ∃ content < depth, ∀ leaf ∈ (g.joinTree id).leaves, g.Derives content leaf
  := by
  cases h with
  | @block content rankings h hblock =>
      have hlt := lt_block content rankings
      exact ⟨content, by omega, h.derives hg⟩
  | bare h _ hlt => exact ⟨_, hlt, h.derives hg⟩

/-- The block of an aggregation. -/
theorem fitsWithin_aggregation (hg : g.WellFounded) {node input : NodeId}
    {keys metrics having : List NodeId}
    (hn : g.node (g.peel node).table = .aggregation input keys metrics having) :
  g.FitsWithin (g.nesting node).depth (g.joinTree (g.operand input true true).table).tables
    ((g.joinTree (g.operand input true true).table).hoisted
      ++ (g.operand input true true).predicates)
  := by
  have hdepth : (g.nesting (g.peel node).table).depth = (g.nesting input).blockOver := by
    rw [nesting_of_node hg hn]
    rfl
  apply FitsWithin.block (nests_operand hg input true true)
  rw [← blockOver, ← hdepth]
  exact (below_peel hg node).depth

/-- The block of a projection, with the projections that it is fused with. -/
theorem fitsWithin_projection (hg : g.WellFounded) {node core input : NodeId} {fs : List Fused}
    {selections : List NodeId} (hprojection : g.isProjection (g.peel node).table = true)
    (hfuses : g.FusesTo (g.peel node).table fs core)
    (hn : g.node core = .projection input selections) :
  g.FitsWithin (g.nesting node).depth
    (g.joinTree (g.operand (g.chain sortInput? input).2 true true).table).tables
    ((g.joinTree (g.operand (g.chain sortInput? input).2 true true).table).hoisted
      ++ (g.operand (g.chain sortInput? input).2 true true).predicates
      ++ (g.peel node).predicates)
  := by
  obtain ⟨hdepth, hrankings⟩ := hfuses.nesting hg
  obtain ⟨hdepth', _, hrankings'⟩ := nesting_projection hg hn
  obtain ⟨hsorted, hranked⟩ := chain_sort hg input
  have hnests := nests_operand hg (g.chain sortInput? input).2 true true
  rw [hranked] at hnests
  have hlt := lt_block (g.nesting input).source (g.nesting input).rankings
  rw [← blockOver] at hlt
  cases ht : selectionInput? (g.node node) with
  | none =>
      rw [peel_other hg ht] at hdepth hrankings ⊢
      rw [List.append_nil]
      apply FitsWithin.block (hnests.le hsorted (Nat.le_refl _))
      rw [← blockOver]
      dsimp only at hdepth
      omega
  | some t =>
      obtain ⟨content, hcontent, hreach, hblock, _⟩ :=
        block_le_peel hg (show selectionInput? (g.node node) ≠ none by simp [ht])
      have hbelow := (below_peel hg node).rankings
      obtain ⟨_, _, htable⟩ := eq_projection hprojection
      obtain ⟨hdepth₁, hsource₁, _⟩ := nesting_projection hg htable
      apply FitsWithin.block (Nests.append (hnests.le (by omega) (Nat.le_refl _)) hreach)
      rw [← hblock]
      apply block_mono (Nat.le_refl _)
      omega

/-- A table that a block is built over, without being compiled, nests less in a FROM clause
than alone. -/
theorem source_lt (hg : g.WellFounded) (hselection : selectionInput? (g.node id) = none)
    (hjoin : g.isJoin id = false) (hprojection : g.isProjection id = false)
    (haggregation : ∀ input keys metrics having,
      g.node id ≠ .aggregation input keys metrics having)
    (hstacked : (g.node id).isStacked = false) :
  (g.nesting id).source < (g.nesting id).depth
  := by
  rw [isJoin] at hjoin
  rw [isProjection] at hprojection
  cases hn : g.node id with
  | selection => rw [hn] at hselection; cases hselection
  | join => rw [hn] at hjoin; cases hjoin
  | projection => rw [hn] at hprojection; cases hprojection
  | aggregation => exact absurd hn (haggregation _ _ _ _)
  | sort | limit | distinct | union => rw [hn] at hstacked; cases hstacked
  | view t =>
      rw [nesting_of_node hg hn]
      exact Nat.lt_add_of_pos_left Nat.one_pos
  | any | topK | _ =>
      rw [nesting_of_node hg hn]
      exact Nat.one_pos

/-- The block of any other table: without selections, a table that is compiled where it
stands. -/
theorem fitsWithin_other (hg : g.WellFounded) {node : NodeId} {depth : Nat}
    (hdepth : (g.nesting node).depth ≤ depth)
    (hstacked : (g.node node).isStacked = true → (g.nesting node).depth < depth)
    (hnode : ∀ input keys metrics having,
      g.node (g.peel node).table ≠ .aggregation input keys metrics having)
    (hpushes : (g.isProjection (g.peel node).table
      && (Folding.of ((g.peel node).chain ++ [(g.peel node).table])).pushes g
        (g.peel node).predicates) = false) :
  g.FitsWithin depth (g.joinTree (g.peel node).table).tables
    ((g.joinTree (g.peel node).table).hoisted ++ (g.peel node).predicates)
  := by
  have hnests := nests_joinTree hg (g.peel node).table
  cases ht : selectionInput? (g.node node) with
  | some t =>
      obtain ⟨content, hcontent, hreach, hblock, _⟩ :=
        block_le_peel hg (show selectionInput? (g.node node) ≠ none by rw [ht]; exact nofun)
      apply FitsWithin.block (Nests.append (hnests.le hcontent (Nat.le_refl _)) hreach)
      rw [(below_peel hg node).rankings, hblock]
      exact hdepth
  | none =>
      rw [peel_other hg ht] at hnode hpushes hnests ⊢
      rw [List.append_nil]
      cases hjoin : g.isJoin node with
      | true =>
          obtain ⟨kind, l, r, predicates, hn⟩ := eq_join hjoin
          apply FitsWithin.block hnests
          apply Nat.le_trans _ hdepth
          rw [nesting_join hg hn]
          exact Nat.le_refl _
      | false =>
          apply FitsWithin.bare hnests
          · rw [joinTree_other hg hjoin]
            rfl
          · have hprojection : g.isProjection node = false := by
              have hnil : ∀ s : Folding, s.pushes g [] = true := fun _ => rfl
              rwa [hnil, Bool.and_true] at hpushes
            cases hs : (g.node node).isStacked with
            | true => exact Nat.lt_of_le_of_lt (source_le_depth hg node) (hstacked hs)
            | false => exact Nat.lt_of_lt_of_le (source_lt hg ht hjoin hprojection hnode hs) hdepth

end Graph

end RelSql
