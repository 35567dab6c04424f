import RelSql.Proofs.Nesting.Extraction
import RelSql.Proofs.Nesting.Rankings
import RelSql.Proofs.Statement.Compilation

/-!
# Enough depth for queries

The query of a table settles to the depth that bounds the nesting of queries over the table:
its block fits into the table, and every table that is compiled for the block is nested less
deeply.
-/

namespace RelSql

open Analysis

variable {Q : QuerySpec} {g g' : Graph} {depth : Nat}

namespace Graph

/-- Rebuilding joins over the same tables changes nothing that is counted. -/
theorem Nests.rebuilt {content rankings : Nat} {t t' : TableSet} {predicates : List NodeId}
    (hfirst : t'.first = t.first)
    (htables : t'.joins.map JoinClause.table = t.joins.map JoinClause.table)
    (h : g.Nests content rankings t predicates) :
  g.Nests content rankings t' predicates
  := by
  have hof : g.rankingsOf t' = g.rankingsOf t := by
    have hmap : ∀ joins : List JoinClause, joins.map (fun c => (g.nesting c.table).rankings)
        = (joins.map JoinClause.table).map fun t => (g.nesting t).rankings := by
      intro joins
      rw [List.map_map]
      rfl
    rw [rankingsOf, rankingsOf, hfirst, hmap, hmap, htables]
  refine ⟨by rw [hfirst]; exact h.first, ?_, h.reaches, by rw [hof]; exact h.ranked⟩
  have hjoins := h.joins
  rw [← List.forall_mem_map (f := JoinClause.table)
    (P := fun t => (g.nesting t).depth ≤ content)] at hjoins ⊢
  rw [htables]
  exact hjoins

theorem FitsWithin.rebuilt {t t' : TableSet} {predicates : List NodeId} (hfirst : t'.first = t.first)
    (htables : t'.joins.map JoinClause.table = t.joins.map JoinClause.table)
    (h : g.FitsWithin depth t predicates) :
  g.FitsWithin depth t' predicates
  := by
  cases h with
  | block h hdepth => exact .block (h.rebuilt hfirst htables) hdepth
  | bare h hnone hlt => exact .bare (h.rebuilt hfirst htables) hnone hlt

/-- The predicates of a block that fits into a table reach less deeply. -/
theorem FitsWithin.reach_lt {t : TableSet} {predicates : List NodeId}
    (h : g.FitsWithin depth t predicates) :
  ∀ p ∈ predicates, (g.nesting p).reach < depth
  := by
  intro p hp
  cases h with
  | @block content rankings h hdepth =>
      have := h.reaches p hp
      have := Nesting.lt_block content rankings
      omega
  | bare _ hnone _ =>
      rw [hnone] at hp
      exact absurd hp List.not_mem_nil

/-- Every handle has a depth. -/
theorem depth_pos (hg : g.WellFounded) (id : NodeId) :
  0 < (g.nesting id).depth
  := by
  rw [nesting_eq hg]
  cases g.node id <;>
    simp only [Node.nesting, Nesting.ofTable, Nesting.ofLeaf, Nesting.ofSelection, Nesting.ofJoin,
      Nesting.ofValue, Nesting.blockOver, Nesting.block] <;> omega

end Graph

namespace Block

/-- A core fits into a table that it does not exceed. -/
theorem Built.fits (hg : g.WellFounded) {b b' : Block} {node : NodeId}
    (h : Built Q b node g b') (hdepth : (g.nesting node).depth ≤ depth)
    (hstacked : (g.node node).isStacked = true → (g.nesting node).depth < depth) {t : TableSet}
    (ht : b'.clauses.from? = some t) :
  g.FitsWithin depth t b'.clauses.predicates
  := by
  cases h with
  | aggregation hnode hdraws =>
      simp only [hdraws.clauses, Option.some.injEq] at ht
      rw [← ht]
      exact (Graph.fitsWithin_aggregation hg hnode).le hdepth
  | projection hnode _ hfuses hcore hdraws =>
      simp only [selecting, hdraws.clauses, Option.some.injEq] at ht
      rw [← ht]
      exact (Graph.fitsWithin_projection hg hnode hfuses hcore).le hdepth
  | other hnode hpushes hdraws =>
      simp only [selecting, hdraws.clauses, Option.some.injEq] at ht
      rw [← ht]
      exact Graph.fitsWithin_other hg hdepth hstacked hnode hpushes

theorem joinClauses_shallow {s : Folding} {leaves : List NodeId} (clauses : List JoinClause) :
    ∀ {node : NodeId} {st : LiftState} {f : Failure},
      joinClauses s leaves clauses node st = .error f → f.error ≠ .nestingTooDeep := by
  induction clauses with
  | nil =>
      intro node st f hrun
      cases hrun
  | cons c rest ih =>
      intro node st f hrun
      rw [joinClauses] at hrun
      generalize (c.predicates.mapM (Lift.value s .substitute)).run st = r at hrun
      obtain ⟨lifted, st₁⟩ := r
      simp only at hrun
      split at hrun
      · cases hrun
        simp
      · exact ih (error_of_bind_eq_error hrun fun _ h => by cases h)

/-- Putting joins together takes no depth. -/
theorem shallow_rebuildJoins (b : Block) :
  Shallow b.rebuildJoins
  := by
  intro g f hrun
  simp only [StateT.run, rebuildJoins] at hrun
  split at hrun
  · cases hrun
  · exact joinClauses_shallow _ (error_of_bind_eq_error hrun (by simp))

/-- A block settles to a depth that it fits into. -/
theorem settles_complete (hQ : Q.Persistent)
    {compile compile' : List (List NodeId) → NodeId → Analysis Query}
    (hcompile : ∀ enclosing, Q.Meets (compile enclosing))
    (h : ∀ enclosing, Agrees depth (compile enclosing) (compile' enclosing))
    (enclosing : List (List NodeId)) (hg : g.WellFounded) {b : Block} (hb : b.Valid Q g)
    {t : TableSet} (ht : b.clauses.from? = some t)
    (hfits : g.FitsWithin depth t b.clauses.predicates) :
  Settles (b.complete compile enclosing) (b.complete compile' enclosing) g
  := by
  have hsource := hb.clauses.source t ht
  rw [complete, complete]
  apply settles_bind ((shallow_rebuildJoins b).settles g) (grows_rebuildJoins hg hb ht)
  rintro b₁ g₁ hg₁ e₁ ⟨t', join, hrebuilt, hjoin, _, rfl⟩
  have hvalid₁ := hrebuilt.valid hQ hg hg₁ e₁ hb ht hjoin
  have hfits₁ := (hfits.mono e₁ hg hg₁ hsource.leaves hb.clauses.predicates).rebuilt
    hrebuilt.first (JoinClause.tables_of_lifts hrebuilt.joins)
  apply settles_bind
    (settles_joinRankings hQ (hcompile enclosing) (h enclosing) hg₁ hvalid₁ rfl hrebuilt.joined hfits₁)
    (grows_joinRankings hQ (hcompile enclosing) hg₁ hvalid₁ rfl)
  rintro b₂ g₂ hg₂ e₂ ⟨hranks, _⟩
  have hvalid₂ := hranks.valid
  have hreach₂ : ∀ p ∈ b₂.clauses.predicates, (g₂.nesting p).reach < depth := by
    rw [hranks.rest]
    intro p hp
    have hmem := List.mem_of_mem_filter hp
    rw [e₂.nesting_eq hg₁ hg₂ (hvalid₁.clauses.predicates p hmem)]
    exact hfits₁.reach_lt p hmem
  apply settles_bind ((shallow_lifted _).settles g₂) (grows_liftValues hg₂ hvalid₂.clauses
    fun j hj => Graph.has_of_isJoin (hvalid₂.join j hj))
  intro b₃ g₃ hg₃ e₃ hvalues
  have hvalid₃ := hvalues.valid (hvalid₂.mono hQ hg₂ hg₃ e₃)
  have hreach₃ : ∀ p ∈ b₃.clauses.predicates, (g₃.nesting p).reach < depth := by
    intro l hl
    obtain ⟨p, hp, hlift⟩ := forall₂_exists hvalues.predicates.flip l hl
    apply Nat.lt_of_le_of_lt (hlift.nesting_within hg₃).reach
    rw [e₃.nesting_eq hg₂ hg₃ (hvalid₂.clauses.predicates p hp)]
    exact hreach₂ p hp
  apply settles_bind ((shallow_lifted _).settles g₃) (grows_liftOrder hg₃ hvalid₃.clauses)
  intro b₄ g₄ hg₄ e₄ horder
  have hpredicates : b₄.clauses.predicates = b₃.clauses.predicates := by rw [horder.rest]
  apply settles_then _ fun b => shallow_pure _
  apply settles_extractSubqueries hcompile h enclosing hg₄
  intro p hp
  rw [hpredicates] at hp
  have hhas := hvalid₃.clauses.predicates p hp
  rw [e₄.nesting_eq hg₃ hg₄ hhas]
  exact ⟨hhas.mono e₄, hreach₃ p hp⟩

/-- The block of a table settles to the depth of the table. -/
theorem settles_ofTable (hQ : Q.Persistent)
    {compile compile' : List (List NodeId) → NodeId → Analysis Query}
    (hcompile : ∀ enclosing, Q.Meets (compile enclosing)) (enclosing : List (List NodeId))
    (hg : g.WellFounded) {node : NodeId} (hnode : g.Has node)
    (hunion : ∀ l r distinct, g.node node ≠ .union l r distinct)
    (h : ∀ enclosing,
      Agrees (g.nesting node).depth (compile enclosing) (compile' enclosing)) :
  Settles (ofTable compile enclosing node) (ofTable compile' enclosing node) g
  := by
  have hvalid := top_valid (Q := Q) hg hnode
  have htop := has_top hg hnode
  obtain ⟨hdepth, hstacked⟩ := Graph.depth_top hg hunion
  rw [ofTable, ofTable]
  apply settles_run (run_foldLimits _ node g)
  apply settles_run (run_foldTopSorts _ _ g)
  apply settles_run (run_foldDistinct _ _ g)
  apply settles_bind
    (settles_core hQ (hcompile enclosing) (h enclosing) hg htop hvalid.nested hdepth hstacked)
    (grows_core hQ (hcompile enclosing) hg htop hvalid.nested)
  intro built g₁ hg₁ e hbuilt
  obtain ⟨hvalid₁, source, rest, _, hfrom, _⟩ :=
    hbuilt.valid hg₁ (htop.mono e) (hvalid.mono hQ hg hg₁ e)
  rw [← e.nesting_eq hg hg₁ htop] at hdepth hstacked
  rw [← e.node_eq htop] at hstacked
  exact settles_complete hQ hcompile h enclosing hg₁ hvalid₁ hfrom
    (hbuilt.fits hg₁ hdepth hstacked hfrom)

end Block

/-- The query of a table settles to the depth of the table. -/
theorem settles_queryWithin (n : Nat) :
    ∀ {n' : Nat} {g : Graph} (enclosing : List (List NodeId)) {node : NodeId}, g.WellFounded →
      g.Has node → (g.nesting node).depth ≤ n → (g.nesting node).depth ≤ n' →
      Settles (queryWithin n enclosing node) (queryWithin n' enclosing node) g := by
  induction n with
  | zero =>
      intro n' g enclosing node hg _ hn
      exact absurd (Graph.depth_pos hg node) (Nat.not_lt.mpr hn)
  | succ n ih =>
      intro n' g enclosing node hg hnode hn hn'
      obtain _ | n' := n'
      · exact absurd (Graph.depth_pos hg node) (Nat.not_lt.mpr hn')
      rw [queryWithin, queryWithin]
      apply settles_get
      split
      case h_1 l r distinct hunion =>
          have hdepth : (g.nesting node).depth
              = 1 + max (g.nesting l).depth (g.nesting r).depth := by
            rw [Graph.nesting_of_node hg hunion]
            rfl
          have hchild : ∀ c ∈ [l, r], g.Has c := by
            intro c hc
            apply hg.has_child hnode
            rw [hunion]
            exact hc
          have hl := hchild l List.mem_cons_self
          have hr := hchild r (List.mem_cons_of_mem l List.mem_cons_self)
          apply settles_bind (ih enclosing hg hl (by omega) (by omega))
            (QuerySpec.hereditary_true.meets n enclosing l g hg hl)
          intro left g₁ hg₁ e _
          apply settles_then _ fun right => shallow_pure _
          have hsame := e.nesting_eq hg hg₁ hr
          exact ih enclosing hg₁ (hr.mono e) (by rw [hsame]; omega) (by rw [hsame]; omega)
      case h_2 hother =>
          apply settles_then _ fun b => shallow_pure _
          apply Block.settles_ofTable (Q := fun _ _ _ => True)
            QuerySpec.hereditary_true.persistent (QuerySpec.hereditary_true.meets n) enclosing hg
            hnode hother
          intro enclosing' node' g' hg' hnode' hlt
          exact ih enclosing' hg' hnode' (by omega) (by omega)

end RelSql
