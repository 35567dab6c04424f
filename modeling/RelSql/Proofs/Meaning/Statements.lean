import Mathlib.Algebra.Ring.Int.Defs
import RelSql.Proofs.Meaning.Cores
import RelSql.Proofs.Meaning.Groups
import RelSql.Proofs.Meaning.Projections
import RelSql.Proofs.Meaning.Towers

/-!
# Rows of statements

The block of a pipeline evaluates to the rows of the pipeline, over a single table that is
physical or whose body is deeper.  So does the statement: folding operators into blocks keeps their
meaning.
-/

namespace RelSql

/-! ### The block of a pipeline -/

section

variable {Q : QuerySpec} {g : Graph} {node t leaf : NodeId} {b₀ built b : Block}

namespace Graph

/-- What a view is a view of is below it. -/
theorem depth_body (hg : g.WellFounded) (id : NodeId) :
  g.body id = id ∨ g.depth (g.body id) < g.depth id
  := by
  rw [body]
  cases hn : g.node id
  case view t =>
    exact .inr (depth_lt_of_input hg hn rfl)
  all_goals exact .inl rfl

/-- A table is physical, or its body is deeper than `node`. -/
def Reduces (g : Graph) (node leaf : NodeId) : Prop :=
  (∃ table, g.node (g.body leaf) = .table table) ∨ g.depth (g.body leaf) < g.depth node

theorem reduces_of_lt (hg : g.WellFounded) (h : g.depth leaf < g.depth node) :
  g.Reduces node leaf
  := by
  right
  rcases g.depth_body hg leaf with hsame | hlt
  · rw [hsame]
    exact h
  · exact Nat.lt_trans hlt h

end Graph

namespace Block

/-- Predicates that are none can be pushed. -/
theorem pushes_nil (s : Folding) :
  s.pushes g [] = true
  := rfl

/-- The table of the block of a table at its top, apart from an aggregation and a projection. -/
theorem reduces_other (hg : g.WellFounded) (hcaps : Caps g node t b₀)
    (hnode : ∀ input keys metrics having,
      g.node (g.peel t).table ≠ .aggregation input keys metrics having)
    (hpushes : (g.isProjection (g.peel t).table
      && (Folding.of ((g.peel t).chain ++ [(g.peel t).table])).pushes g (g.peel t).predicates)
        = false) :
  g.Reduces node (g.peel t).table
  := by
  have hle := (Graph.depth_peel hg t).2
  rcases hcaps.above with hlt | ⟨rfl, hlimit, hsort, hdistinct⟩
  · exact Graph.reduces_of_lt hg (Nat.lt_of_le_of_lt hle hlt)
  · cases ht : Graph.selectionInput? (g.node t) with
    | some u =>
        apply Graph.reduces_of_lt hg
        apply (Graph.depth_peel hg t).1
        obtain ⟨predicates, hn⟩ := Graph.eq_selection ht
        rw [Graph.peel_selection hg hn]
        exact List.mem_cons_self
    | none =>
        -- what is left is a physical table or a view
        rw [Graph.peel_other hg ht] at hnode hpushes ⊢
        have hregular := hcaps.pipeline.regular
        rw [Graph.Regular] at hregular
        rw [Graph.Reduces, Graph.body]
        cases hn : g.node t <;> rw [hn] at ht hlimit hsort hregular
        case table table => exact .inl ⟨table, hn⟩
        case view u =>
          exact .inr (Graph.depth_lt_of_input hg hn rfl)
        case projection u items =>
          rw [Graph.isProjection, hn, pushes_nil] at hpushes
          cases hpushes
        case aggregation u keys metrics having => exact absurd hn (hnode u keys metrics having)
        case distinct u => exact absurd hn (hdistinct u)
        case selection => cases ht
        case limit => cases hlimit
        case sort => cases hsort
        all_goals cases hregular

/-- The block of a pipeline. -/
theorem OfTable.realizes (hg : g.WellFounded) (hnode : g.Pipeline node) (h : OfTable Q g node b) :
  ∃ leaf, Realizes g (top g node).1 (top g node).2 leaf b ∧ g.Reduces node leaf
  := by
  have hcaps := caps_top hg hnode
  have habove : g.depth (top g node).2 ≤ g.depth node := by
    rcases hcaps.above with hlt | ⟨hsame, _⟩
    · exact Nat.le_of_lt hlt
    · rw [hsame]
  have hreduces : ∀ {leaf}, g.depth leaf < g.depth (top g node).2 → g.Reduces node leaf :=
    fun hlt => Graph.reduces_of_lt hg (Nat.lt_of_lt_of_le hlt habove)
  obtain @⟨built, source, rest, _, hbuilt, hfrom, _, hcompleted⟩ := h
  -- the tables of the FROM clause are those of a pipeline
  have hsingle : ∀ {folded : List NodeId} {b b' : Block} {leaf : NodeId}, g.Pipeline leaf →
      Draws Q folded (g.joinTree leaf) b g b' → b'.clauses.from? = some (g.joinTree source).tables →
      Draws Q folded (.table leaf) b g b' ∧ (g.joinTree source).tables = .leaf leaf := by
    intro folded b b' leaf hleaf hdraws hfrom
    rw [hleaf.joinTree hg] at hdraws
    refine ⟨hdraws, ?_⟩
    rw [hdraws.clauses, Option.some.injEq] at hfrom
    exact hfrom.symm
  cases hbuilt with
  | @aggregation input keys metrics having b' hn hdraws =>
      have hinput := (hcaps.pipeline.peel hg).input (t := input) (by rw [hn]; rfl)
      have hleaf := (hinput.takenOff hg).pipeline
      obtain ⟨hdraws, htables⟩ := hsingle hleaf hdraws hfrom
      rw [htables, hleaf.joinTree hg] at hcompleted
      obtain ⟨hrealizes, hlt⟩ := realizes_aggregation hg hcaps hn hdraws rfl hcompleted
      exact ⟨_, hrealizes, hreduces hlt⟩
  | @projection fs core input items b' hn _ hfuses hcore hdraws =>
      obtain ⟨input₀, outer, hprojection⟩ := Graph.eq_projection hn
      have hpipeline := (hfuses.condenses hg (hcaps.pipeline.peel hg) hprojection).1
      have hsource := ((hpipeline.items hcore).1.sorted hg).1.pipeline
      have hleaf := (hsource.takenOff hg).pipeline
      obtain ⟨hdraws, htables⟩ := hsingle hleaf hdraws hfrom
      rw [htables, hleaf.joinTree hg] at hcompleted
      obtain ⟨hrealizes, hlt⟩ :=
        realizes_projection hg hcaps hn hfuses hcore rfl hdraws rfl hcompleted
      exact ⟨_, hrealizes, hreduces hlt⟩
  | @other b' hn hpushes hdraws =>
      have hleaf := hcaps.pipeline.peel hg
      obtain ⟨hdraws, htables⟩ := hsingle hleaf hdraws hfrom
      rw [htables, hleaf.joinTree hg] at hcompleted
      exact ⟨_, realizes_other hg hcaps hdraws hcompleted, reduces_other hg hcaps hn hpushes⟩

/-- The block evaluates to the rows of the pipeline. -/
theorem Realizes.evaluate (hg : g.WellFounded) (hnode : g.Pipeline node)
    (h : Realizes g (top g node).1 (top g node).2 leaf b) {V : Type} [DecidableEq V]
    (I : Interpretation V) (db : Database V) :
  b.clauses.evaluate I g (g.rows I db leaf) = g.rows I db node
  := by
  rw [Clauses.evaluate, h.selected, (caps_top hg hnode).rows, Clauses.finish, Clauses.finish,
    h.distinct, h.limit]

end Block

end

/-! ### The statement of a pipeline -/

open Analysis

variable {g g' : Graph} {node : NodeId} {b : Block}

/-- What a view of a pipeline is a view of is a pipeline. -/
theorem Graph.Pipeline.body (h : g.Pipeline node) :
  g.Pipeline (g.body node)
  := by
  rw [Graph.body]
  split
  case h_1 t hn => exact h.input (by rw [hn]; rfl)
  · exact h

/-- The query of a table is a tower of blocks if the table is a pipeline, also in a greater
graph. -/
def QuerySpec.tower : QuerySpec := fun g node q =>
  q.first.clauses.Valid g
    ∧ ∀ g' : Graph, g.Extends g' → g'.WellFounded → g'.Pipeline node → Tower g' node q

theorem QuerySpec.tower_persistent :
  tower.Persistent
  := fun _ _ _ _ _ _ e ⟨hvalid, h⟩ =>
    ⟨hvalid.mono e, fun g'' e' hg'' hnode => h g'' (e.trans e') hg'' hnode⟩

/-- The block of a pipeline is at the top of a tower if its derived tables are towers. -/
theorem Block.OfTable.tower (hg : g.WellFounded) (hnode : g.Pipeline node)
    (h : OfTable .tower g node b) :
  Tower g node b.query
  := by
  obtain ⟨leaf, hrealizes, hreduces⟩ := h.realizes hg hnode
  have hevaluates : b.clauses.Evaluates g node leaf :=
    ⟨hrealizes.source, fun I db => hrealizes.evaluate hg hnode I db⟩
  obtain ⟨_, _, _, _, hcompleted⟩ := h
  cases hderived : derivedFor? b.nested leaf with
  | none =>
      have hleaf : leaf ∈ b.clauses.leaves := by
        rw [hevaluates.leaves]
        exact List.mem_singleton_self leaf
      rcases hcompleted.sourced leaf hleaf with ⟨table, htable, _⟩ | hsome
      · exact .physical hevaluates hrealizes.nested hderived htable
      · rw [hderived] at hsome
        cases hsome
  | some s =>
      obtain ⟨hmem, hsame, hkind⟩ := mem_of_derivedFor? hderived
      have hcompiled := hcompleted.nested s hmem
      obtain ⟨table, _, hsource, hquery⟩ := hcompiled.source
      rw [hsame, hkind] at hsource
      cases hsource with
      | table _ hother =>
          refine .derived hevaluates hrealizes.nested hderived hcompiled.shared ?_ ?_
          · exact hreduces.resolve_left fun ⟨t, ht⟩ => hother t ht
          · exact hquery.2 g (.refl g) hg hrealizes.pipeline.body

theorem QuerySpec.hereditary_tower :
  tower.Hereditary
  := by
  refine ⟨tower_persistent, ?_, ?_, ?_⟩
  · rintro g node q ⟨hvalid, h⟩
    refine ⟨?_, fun g' e hg' hnode => (h g' e hg' hnode).forceAliases⟩
    cases q with
    | select c nested =>
        exact ⟨hvalid.select, hvalid.source, hvalid.predicates, hvalid.having, hvalid.orderBy⟩
    | union l r distinct => exact hvalid
  · rintro g node l r distinct left right _ hn ⟨hvalid, _⟩ _
    refine ⟨hvalid, fun g' e _ hnode => ?_⟩
    -- a union is no pipeline
    have hregular := hnode.regular
    rw [Graph.Regular, e.node_eq_of hn (by rintro ⟨⟩)] at hregular
    cases hregular
  · intro g node b hg hhas _ hb
    have hinner : ∀ s ∈ b.nested, s.query.first.clauses.Valid g := by
      intro s hs
      obtain ⟨_, _, _, _, hcompleted⟩ := hb
      obtain ⟨_, _, _, hquery⟩ := (hcompleted.nested s hs).source
      exact hquery.1
    refine ⟨?_, fun g' e hg' hnode => ?_⟩
    · obtain ⟨_, _, _, _, hcompleted⟩ := hb
      exact hcompleted.valid
    · exact (hb.mono tower_persistent e hg hg' hhas hinner).tower hg' hnode

/-- A statement whose query is a tower has the rows of the table of the tower. -/
theorem Tower.statement_rows? {st : Statement} {q : Query} (h : Tower g node q)
    (hgraph : st.graph = g) (hg : g.WellFounded)
    (hparts : (st.query, st.shared) = (q.shareTables g).1.bind (q.shareTables g).2)
    {V : Type} [DecidableEq V] (I : Interpretation V) (db : Database V) :
  st.rows? I db = some (g.rows I db node)
  := by
  obtain ⟨hbound, hnone⟩ := (Tower.refer q node h).bind
  rw [h.shareTables_eq hg] at hparts
  have hshared : st.shared = [] := (congrArg Prod.snd hparts).trans hnone
  rw [Statement.rows?, hshared, hgraph, show st.query = _ from congrArg Prod.fst hparts]
  exact hbound.rows? I db [] hg

namespace Graph

/-- The statement of a pipeline has the rows of the pipeline, in order, in every database and
whatever literals, operators and aggregates mean. -/
theorem analyze_rows (hg : g.WellFounded) {root : NodeId} (hroot : g.Pipeline root)
    {st : Statement} (h : g.analyze root = .ok st) {V : Type} [DecidableEq V]
    (I : Interpretation V) (db : Database V) :
  st.rows? I db = some (g.rows I db root)
  := by
  obtain ⟨⟨⟨q, handler⟩, g'⟩, herror, hret⟩ := exists_of_bind_eq_ok h
  have hrun := eq_ok_of_mapError herror
  obtain ⟨hgraph, hparts⟩ : st.graph = g'
      ∧ (st.query, st.shared) = (q.shareTables g').1.bind (q.shareTables g').2 := by
    cases hret
    exact ⟨rfl, rfl⟩
  have hhas := has_of_isRelation hroot.isRelation
  have hqueryOf := QuerySpec.hereditary_tower.grows_queryOf hg hhas
  obtain ⟨hg', e, ⟨_, hquery⟩, _⟩ :=
    (grows_rootQuery_relation hroot.isRelation hqueryOf).result _ _ hrun
  have htower := hquery g' (.refl g') hg' (hroot.mono e hg hg')
  rw [htower.statement_rows? hgraph hg' hparts I db, e.rows_eq hg hg' hhas]

/-- The totals above one among the first three, the greatest first; and an aggregation of all rows
whose metric reads none of them. -/
def largeTotals : Graph := ⟨#[
  .table ⟨some "t", none, ⟨[⟨"k", .int32⟩, ⟨"x", .int32⟩]⟩⟩,
  .column ⟨0⟩ "k",
  .column ⟨0⟩ "x",
  .reduction .sum ⟨2⟩,
  .named ⟨3⟩ "total",
  .aggregation ⟨0⟩ [⟨1⟩] [⟨4⟩] [],
  .limit ⟨5⟩ 3 0,
  .column ⟨6⟩ "total",
  .literal (.integer 1),
  .binary .gt ⟨7⟩ ⟨8⟩,
  .selection ⟨6⟩ [⟨9⟩],
  .column ⟨10⟩ "total",
  .sort ⟨10⟩ [⟨⟨11⟩, false⟩],
  .named ⟨8⟩ "one",
  .aggregation ⟨0⟩ [] [⟨13⟩] []]⟩

/-- Integers, their sums, and their order. -/
def sums : Interpretation Int where
  null := 0
  operator
    | .literal (.integer i), _ => i
    | .binary .gt _ _, [v, w] => if w < v then 1 else 0
    | _, _ => 0
  aggregate _ := List.sum
  count := Int.ofNat
  holds v := v = 1
  le v w := v ≤ w
  le_total v w := by simpa using Int.le_total v w
  le_trans u v w := by simpa using Int.le_trans

/-- Four rows with three keys. -/
def numbered : Database Int := fun _ =>
  [(1, 1), (2, 5), (1, 2), (3, 1)].map fun r name => if name = "k" then r.1 else r.2

theorem pipeline_largeTotals :
  largeTotals.Pipeline ⟨12⟩
  := by
  have htable : largeTotals.Pipeline ⟨0⟩ := .intro trivial nofun
  have haggregation : largeTotals.Pipeline ⟨5⟩ := by
    refine .intro ⟨?_, ?_, nofun, nofun⟩ ?_
    · refine List.forall_mem_singleton.mpr (.value rfl ?_)
      exact .column rfl (.refl _) (by decide +kernel)
    · refine List.forall_mem_singleton.mpr (.value rfl (.operator rfl ?_))
      refine List.forall_mem_singleton.mpr (.operator rfl ?_)
      exact List.forall_mem_singleton.mpr (.column rfl (.refl _) (by decide))
    · rintro t ⟨⟩
      exact htable
  have hlimit : largeTotals.Pipeline ⟨6⟩ := by
    refine .intro rfl ?_
    rintro t ⟨⟩
    exact haggregation
  have hselection : largeTotals.Pipeline ⟨10⟩ := by
    refine .intro (List.forall_mem_singleton.mpr (.operator rfl ?_)) ?_
    · refine List.forall_mem_cons.mpr ⟨?_, List.forall_mem_singleton.mpr (.operator rfl nofun)⟩
      exact .column rfl (.refl _) (by decide +kernel)
    · rintro t ⟨⟩
      exact hlimit
  refine .intro ⟨?_, by decide⟩ ?_
  · exact List.forall_mem_singleton.mpr (.column rfl (.refl _) (by decide +kernel))
  · rintro t ⟨⟩
    exact hselection

/-- The totals are those of the pipeline.  The other aggregation makes one row of all rows, but
its statement has neither a group nor a reduction, and so a row for each of them. -/
theorem analyze_rows_largeTotals :
  (∃ st, largeTotals.analyze ⟨12⟩ = .ok st
      ∧ st.rows? sums numbered = some [[("k", 2), ("total", 5)], [("k", 1), ("total", 3)]])
    ∧ ∃ st, largeTotals.analyze ⟨14⟩ = .ok st
      ∧ st.rows? sums numbered = some (List.replicate 4 [("one", 1)])
      ∧ largeTotals.rows sums numbered ⟨14⟩ = [[("one", 1)]]
  := by
  constructor
  · have hrun : (largeTotals.analyze ⟨12⟩).toOption.isSome = true := by decide
    obtain ⟨st, hst⟩ := Option.isSome_iff_exists.mp hrun
    have hok := eq_ok_of_toOption hst
    refine ⟨st, hok, ?_⟩
    rw [analyze_rows (by decide) pipeline_largeTotals hok]
    decide +kernel
  · have hrun : ((largeTotals.analyze ⟨14⟩).toOption.map fun st => st.rows? sums numbered)
        = some (some (List.replicate 4 [("one", 1)])) := by
      decide
    obtain ⟨st, hst, hrows⟩ := Option.map_eq_some_iff.mp hrun
    exact ⟨st, eq_ok_of_toOption hst, hrows, by decide⟩

end Graph

end RelSql
