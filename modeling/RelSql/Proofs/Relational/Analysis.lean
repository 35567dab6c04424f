import RelSql.Proofs.Nesting.Termination
import RelSql.Proofs.Relational.Blocks

/-!
# Analyses that succeed

The analysis of a relational table fails at no check: its tables are physical or are compiled, its
columns read no other table, and there is nothing to rank and no subquery to extract.  What it is
left to fail for is depth, which an analysis does not run out of.
-/

namespace RelSql

namespace Analysis

variable {α β : Type} {g : Graph} {m : Analysis α} {R : Graph → α → Prop} {S : Graph → β → Prop}

/-- The computation fails at most for want of depth, and otherwise gives something of which `R`
holds. -/
structure Succeeds (R : Graph → α → Prop) (m : Analysis α) (g : Graph) : Prop extends
    Grows R m g where
  deep : ∀ f, m.run g = .error f → f.error = .nestingTooDeep

theorem Grows.succeeds (h : Grows R m g) (hok : ∀ f, m.run g ≠ .error f) :
  Succeeds R m g
  := ⟨h, fun f hf => absurd hf (hok f)⟩

theorem succeeds_pure {a : α} (hg : g.WellFounded) (h : R g a) :
  Succeeds R (pure a) g
  := (grows_pure hg h).succeeds fun _ => nofun

theorem succeeds_get {f : Graph → Analysis β} (h : Succeeds S (f g) g) :
  Succeeds S (get >>= f) g
  := ⟨grows_get h.toGrows, h.deep⟩

/-- A computation whose result is known, and that leaves the graph as it is. -/
theorem succeeds_run {f : α → Analysis β} {a : α} (hrun : m.run g = .ok (a, g))
    (hf : Succeeds S (f a) g) :
  Succeeds S (m >>= f) g
  := by
  refine ⟨grows_run hrun hf.toGrows, fun e he => hf.deep e ?_⟩
  rw [StateT.run_bind, hrun] at he
  exact he

theorem succeeds_bind {f : α → Analysis β} (hm : Succeeds R m g)
    (hf : ∀ a g', g'.WellFounded → g.Extends g' → R g' a → Succeeds S (f a) g') :
  Succeeds S (m >>= f) g
  := by
  refine ⟨grows_bind hm.toGrows fun a g' hg' e h => (hf a g' hg' e h).toGrows, fun e he => ?_⟩
  rw [StateT.run_bind] at he
  cases hrun : m.run g with
  | error e' =>
      rw [hrun] at he
      cases he
      exact hm.deep e hrun
  | ok result =>
      obtain ⟨a, g'⟩ := result
      rw [hrun] at he
      obtain ⟨hg', hextends, h⟩ := hm.result a g' hrun
      exact (hf a g' hg' hextends h).deep e he

theorem Succeeds.and {R' : Graph → α → Prop} (h : Succeeds R m g) (h' : Grows R' m g) :
  Succeeds (fun g' a => R g' a ∧ R' g' a) m g
  := ⟨h.toGrows.and h', h.deep⟩

/-- Computations that change nothing, one for each element of a list. -/
theorem run_foldlM {f : β → α → Analysis β} {b : β} {l : List α}
    (h : ∀ a ∈ l, (f b a).run g = .ok (b, g)) :
  (l.foldlM f b).run g = .ok (b, g)
  := by
  induction l with
  | nil => rfl
  | cons a rest ih =>
      obtain ⟨ha, hrest⟩ := List.forall_mem_cons.mp h
      rw [List.foldlM_cons, StateT.run_bind, ha]
      exact ih hrest

/-- Lifting values and testing predicates does not fail. -/
theorem Grows.modifyGet {f : Graph → α × Graph} (h : Grows R (modifyGet f) g) :
  Succeeds R (modifyGet f) g
  := h.succeeds fun _ => nofun

end Analysis

open Analysis

/-- A compiler makes readable blocks of relational tables, or runs out of depth. -/
def Supplies (compile : NodeId → Analysis Query) : Prop :=
  ∀ node g, g.WellFounded → g.Unstacked node →
    Succeeds (fun g' q => q.Everywhere (Select.Readable g')) (compile node) g

namespace Block

variable {Q : QuerySpec} {g g' : Graph} {compile : NodeId → Analysis Query} {b : Block}
  {node : NodeId}

/-- All blocks of the nested queries of a block are readable. -/
def Nests (g : Graph) (b : Block) : Prop :=
  ∀ s ∈ b.nested, s.query.Everywhere (Select.Readable g)

theorem Nests.mono (e : g.Extends g') (hg : g.WellFounded) (hg' : g'.WellFounded)
    (h : b.Nests g) :
  b.Nests g'
  := fun s hs outer d hd => Select.readable_persistent hg hg' e (h s hs outer d hd)

/-! ### FROM clauses -/

/-- A relational table is a physical one with a name, or is compiled. -/
theorem succeeds_leaf (hcompile : Supplies compile) (hg : g.WellFounded) (hb : b.Nests g)
    (hnode : g.Unstacked node) :
  Succeeds (fun g' b' => b'.Nests g') (b.leaf compile node) g
  := by
  have hr := hnode.relational.isRelation
  have hbody := hnode.relational.body
  rw [leaf]
  apply succeeds_get
  simp only [hbody]
  split
  case h_1 t hn =>
      have hname := hnode.relational.named hn
      rw [if_neg (by simp [Option.isSome_iff_ne_none.mp hname])]
      exact succeeds_pure hg hb
  case h_2 =>
      rw [Graph.isRelation] at hr
      rw [hr, Bool.not_true, if_neg Bool.false_ne_true]
      split
      · exact succeeds_pure hg hb
      · apply succeeds_bind (hcompile node g hg hnode)
        intro q g' hg' e hq
        apply succeeds_pure hg'
        exact List.forall_mem_append.mpr ⟨hb.mono e hg hg', List.forall_mem_singleton.mpr hq⟩

/-- The FROM clause of a relational table is that table. -/
theorem succeeds_fromTables (hcompile : Supplies compile) (hg : g.WellFounded) (hb : b.Nests g)
    (hnode : g.Unstacked node) :
  Succeeds (fun g' r => r.1.Nests g') (b.fromTables compile node) g
  := by
  have hjoin : ∀ kind l r predicates, g.node node ≠ .join kind l r predicates := by
    intro kind l r predicates hn
    have htree := hnode.relational.joinTree hg
    rw [Graph.joinTree_join hg hn] at htree
    cases htree
  rw [fromTables]
  apply succeeds_bind (R := fun g' r => r.1.Nests g')
  · rw [joinedTables]
    apply succeeds_get
    split
    case h_1 hn => exact absurd hn (hjoin _ _ _ _)
    case h_2 =>
        apply succeeds_bind (succeeds_leaf hcompile hg hb hnode)
        exact fun b' g' hg' _ hb' => succeeds_pure hg' hb'
  · exact fun r g' hg' _ hb' => succeeds_pure hg' hb'

/-- Testing whether predicates can be evaluated below a projection. -/
theorem succeeds_pushed (hg : g.WellFounded) (hnode : g.Has node) :
  Succeeds (fun _ _ => True)
    (if g.isProjection (g.peel node).table
      then pushable ((g.peel node).chain ++ [(g.peel node).table]) (g.peel node).predicates
      else return false) g
  := by
  split
  · exact ((grows_pushable hg (hg.has_predicates hnode)).imp fun _ _ _ _ _ => trivial).modifyGet
  · exact succeeds_pure hg trivial

/-- The FROM clause of a table below its selections is a relational table as well. -/
theorem succeeds_fromSource (hcompile : Supplies compile) (hg : g.WellFounded) (hb : b.Nests g)
    (hnode : g.Unstacked node) :
  Succeeds (fun g' r => r.1.Nests g') (b.fromSource compile node) g
  := by
  have hhas := hnode.relational.has
  rw [fromSource]
  apply succeeds_get
  simp only
  split
  · exact succeeds_fromTables hcompile hg hb hnode
  · apply succeeds_bind (succeeds_pushed hg hhas)
    intro pushed g' hg' e _
    have hb' := hb.mono e hg hg'
    split
    · apply succeeds_bind (succeeds_leaf hcompile hg' hb' (hnode.mono e hg hg'))
      exact fun b' g'' hg'' _ hb' => succeeds_pure hg'' hb'
    · apply succeeds_bind (succeeds_fromTables hcompile hg' (b := b.foldAll (g.peel node).chain)
        hb' ((hnode.peel hg).mono e hg hg'))
      exact fun r g'' hg'' _ hb' => succeeds_pure hg'' hb'

/-! ### Cores -/

theorem succeeds_aggregation (hcompile : Supplies compile) (hg : g.WellFounded) (hb : b.Nests g)
    (hnode : g.Unstacked node) (filters : List NodeId) {input : NodeId}
    {keys metrics having : List NodeId}
    (hn : g.node node = .aggregation input keys metrics having) :
  Succeeds (fun g' b' => b'.Nests g') (b.aggregation compile node filters) g
  := by
  rw [Block.aggregation]
  apply succeeds_get
  simp only [hn]
  apply succeeds_bind (succeeds_fromSource hcompile hg (b := b.output node) hb
    (hnode.input (by rw [hn]; rfl) (by rw [Graph.isProjection, hn])))
  exact fun r g' hg' _ hb' => succeeds_pure hg' hb'

/-- Fusing projections does not fail. -/
theorem fuseAll_ne_error (n : Nat) :
  ∀ (b : Block) (projection : NodeId) (g : Graph) (f : Failure),
    (fuseAll n b projection).run g ≠ .error f
  := by
  induction n with
  | zero => exact fun _ _ _ _ => nofun
  | succ n ih =>
      intro b projection g f hrun
      rw [fuseAll, StateT.run_bind, StateT.run_modifyGet, pure_bind] at hrun
      split at hrun
      · cases hrun
      · exact ih _ _ _ _ hrun

theorem succeeds_projection (hcompile : Supplies compile) (hg : g.WellFounded) (hb : b.Nests g)
    (hnode : g.Unstacked node) (filters : List NodeId) {t : NodeId} {items : List NodeId}
    (hn : g.node node = .projection t items) :
  Succeeds (fun g' b' => b'.Nests g') (b.projection compile node filters) g
  := by
  rw [Block.projection]
  apply succeeds_bind ((grows_fuseAll _ hg hnode.relational.has
    (Nat.lt_succ_of_le (hg.fusionDepth_le _))).succeeds (fuseAll_ne_error _ _ _ _))
  rintro ⟨b₁, core⟩ g₁ hg₁ e ⟨fs, hfuses, rfl⟩
  have hn₁ : g₁.node node = .projection t items :=
    (e.node_eq (hnode.relational.has)).trans hn
  obtain ⟨w, _, _, hcondensed, hw, _, _⟩ := (hnode.mono e hg hg₁).fused hg₁ hn₁ hfuses
  obtain ⟨input, selections, hcore⟩ := Graph.eq_projection
    (isProjection_of_fusesTo (by rw [Graph.isProjection, hn₁]) hfuses)
  obtain ⟨hinput, _⟩ := hcondensed.input hw hcore
  apply succeeds_get
  simp only [hcore]
  apply succeeds_run (run_foldInnerSorts _ input g₁)
  have hb₁ : (((b.output node).fused fs).sorted (g₁.chain Graph.sortInput? input).1
      (g₁.innerKeys (g₁.chain Graph.sortInput? input).1)).Nests g₁ := by
    rw [fused_eq]
    exact hb.mono e hg hg₁
  apply succeeds_bind (succeeds_fromSource hcompile hg₁ hb₁ (hinput.sorts hg₁))
  exact fun r g' hg' _ hb' => succeeds_pure hg' hb'

/-- The core of a block of a relational table. -/
theorem succeeds_core (hcompile : Supplies compile) (hg : g.WellFounded) (hb : b.Nests g)
    (hnode : g.Unstacked node) :
  Succeeds (fun g' b' => b'.Nests g') (b.core compile node) g
  := by
  have hhas := hnode.relational.has
  have hpeel := hnode.peel hg
  have hb' : (b.foldAll (g.peel node).chain).Nests g := hb
  rw [Block.core]
  apply succeeds_get
  simp only [hnode.relational.isRelation, Bool.not_true, if_neg Bool.false_ne_true]
  split
  case h_1 hn => exact succeeds_aggregation hcompile hg hb' hpeel _ hn
  case h_2 =>
      apply succeeds_bind ((succeeds_pushed hg hhas).and
        (grows_pushed hg _ _ (hg.has_predicates hhas)))
      rintro pushed g₁ hg₁ e ⟨_, hpushed⟩
      cases pushed with
      | true =>
          rw [if_pos rfl]
          obtain ⟨hprojection, _⟩ := Bool.and_eq_true_iff.mp hpushed.symm
          obtain ⟨t, items, hn⟩ := Graph.eq_projection hprojection
          exact succeeds_projection hcompile hg₁ (hb'.mono e hg hg₁) (hpeel.mono e hg hg₁) _
            ((e.node_eq (hg.has_peel hhas)).trans hn)
      | false =>
          rw [if_neg Bool.false_ne_true]
          apply succeeds_bind
            (succeeds_fromTables hcompile hg₁ (hb'.mono e hg hg₁) (hpeel.mono e hg hg₁))
          exact fun r g' hg' _ hb' => succeeds_pure hg' hb'

/-! ### Completed blocks -/

/-- There are no joins to put together. -/
theorem run_rebuildJoins {t : NodeId} (ht : b.clauses.from? = some (.leaf t)) (g : Graph) :
  b.rebuildJoins.run g = .ok (b, g)
  := by
  obtain ⟨clauses, nested, folding, aggregate⟩ := b
  obtain ⟨node, outputs, select, from?, _⟩ := clauses
  cases ht
  rfl

/-- There are no rankings to join. -/
theorem run_joinRankings (h : ∀ p ∈ b.clauses.predicates, isRanking g p = false) :
  (b.joinRankings compile).run g = .ok (b, g)
  := by
  have hnone : b.clauses.predicates.filter (isRanking g) = [] := by
    rw [List.filter_eq_nil_iff]
    intro p hp
    rw [h p hp]
    exact Bool.false_ne_true
  have hall : b.clauses.predicates.filter (not ∘ isRanking g) = b.clauses.predicates := by
    rw [List.filter_eq_self]
    intro p hp
    rw [Function.comp_apply, h p hp]
    rfl
  rw [joinRankings, StateT.run_bind, StateT.run_get, pure_bind, List.partition_eq_filter_filter]
  simp only [hnone, hall]
  rfl

/-- There is no subquery in a value that is computed for each row. -/
theorem run_extract (hg : g.WellFounded) (enclosing : List (List NodeId)) (n : Nat) :
  ∀ (nested : List (Nested Query)) (id : NodeId), g.Has id →
    g.denote (.plain fun _ _ => True) id →
    (extract compile enclosing n nested id).run g = .ok (nested, g)
  := by
  induction n with
  | zero => exact fun _ _ _ _ => rfl
  | succ n ih =>
      intro nested id hid h
      have hall : ∀ ids : List NodeId,
          (∀ c ∈ ids, g.Has c ∧ g.denote (.plain fun _ _ => True) c) →
          (ids.foldlM (extract compile enclosing n) nested).run g = .ok (nested, g) :=
        fun ids hids => run_foldlM fun c hc => ih nested c (hids c hc).1 (hids c hc).2
      rw [extract]
      split
      · rfl
      · rw [StateT.run_bind, StateT.run_get, pure_bind]
        have hparts : (g.node id).isOperator = true → (g.node id).computes false = true
            ∧ ∀ c ∈ (g.node id).children, g.Has c ∧ g.denote (.plain fun _ _ => True) c := by
          intro ho
          obtain ⟨hcomputes, hchildren⟩ := (Graph.denote_plain_operator hg ho).mp h
          exact ⟨hcomputes, fun c hc => ⟨hg.has_child hid hc, hchildren c hc⟩⟩
        split
        case h_1 hn =>
            rw [hn] at hparts
            cases (hparts rfl).1
        case h_2 hn =>
            rw [hn] at hparts
            cases (hparts rfl).1
        case h_3 arg values negated hn =>
            rw [hn] at hparts
            exact hall (arg :: values) (hparts rfl).2
        case h_4 | h_5 => rfl
        case h_6 hcolumn hcount =>
            split
            case isTrue => rfl
            case isFalse hr =>
                have hscalar : isScalar g id = false := by
                  rw [isScalar, Graph.hasReduction_eq hg hid, Graph.reductions_of_plain hg h]
                  rfl
                rw [hscalar, if_neg Bool.false_ne_true]
                rcases (g.node id).kinds with ⟨t, name, hn⟩ | ⟨t, hn⟩ | hn | hn
                · exact absurd hn (hcolumn t name)
                · exact absurd hn (hcount t)
                · exact absurd hn hr
                · exact hall _ (hparts hn).2

/-- There is no subquery in predicates that are computed for each row. -/
theorem run_extractSubqueries {compile : List (List NodeId) → NodeId → Analysis Query}
    (hg : g.WellFounded) (enclosing : List (List NodeId)) (hb : b.Valid Q g)
    (h : ∀ p ∈ b.clauses.predicates, g.denote (.plain fun _ _ => True) p) :
  (b.extractSubqueries compile enclosing).run g = .ok (b, g)
  := by
  have hkept : qualifyCorrelated g b = b := by
    rw [qualifyCorrelated, if_neg]
    rw [Bool.not_eq_true, List.any_eq_false]
    intro s hs
    simp [isCorrelatedSubquery, (hb.nested s hs).kind]
  rw [extractSubqueries]
  split
  · rfl
  · rw [StateT.run_bind, run_foldlM]
    · show Except.ok (qualifyCorrelated g b, g) = _
      rw [hkept]
    · exact fun p hp => run_extract hg _ _ _ _ (hb.clauses.predicates p hp) (h p hp)

/-- A block of a relational table is completed without a table that is compiled for it. -/
theorem succeeds_complete (hQ : Q.Persistent)
    {compile : List (List NodeId) → NodeId → Analysis Query} (enclosing : List (List NodeId))
    (hg : g.WellFounded) (hnode : g.Unstacked node) (hvalid : b.Valid Q g)
    (hbuilt : Built Q (top g node).1 (top g node).2 g b) (hb : b.Nests g) :
  Succeeds (fun g' b' => b'.Nests g') (b.complete compile enclosing) g
  := by
  obtain ⟨u, hscoped⟩ := hbuilt.scoped (s := b.folding) hg hnode rfl rfl
  rw [complete]
  apply succeeds_run (run_rebuildJoins hscoped.source g)
  apply succeeds_run (run_joinRankings fun p hp => (hscoped.predicates p hp).not_ranking hg)
  apply succeeds_bind (grows_liftValues hg hvalid.clauses
    fun j hj => Graph.has_of_isJoin (hvalid.join j hj)).modifyGet
  intro b₁ g₁ hg₁ e₁ hvalues
  have hvalid₁ := hvalues.valid (hvalid.mono hQ hg hg₁ e₁)
  apply succeeds_bind (grows_liftOrder hg₁ hvalid₁.clauses).modifyGet
  intro b₂ g₂ hg₂ e₂ horder
  have hvalid₂ := horder.valid (hvalid₁.mono hQ hg₁ hg₂ e₂)
  have e := e₁.trans e₂
  apply succeeds_run (run_extractSubqueries hg₂ enclosing hvalid₂ _)
  · apply succeeds_pure hg₂
    obtain ⟨force, hforced, _⟩ := b₂.qualifyFiltered_eq
    rw [hforced, horder.rest, hvalues.rest]
    exact hb.mono e hg hg₂
  · rw [horder.rest]
    intro l hl
    obtain ⟨p, hp, hlifts⟩ := forall₂_exists hvalues.predicates.flip l hl
    have hhas := hnode.relational.has
    have hbuilt₁ := hbuilt.mono hQ e₁ hg hg₁ (has_top hg hhas)
    rw [← top_extends e₁ hg hg₁ hhas] at hbuilt₁
    obtain ⟨_, hscoped₁⟩ := hbuilt₁.scoped (s := b.folding) hg₁ (hnode.mono e₁ hg hg₁) rfl rfl
    rw [e₂.denote_eq hg₁ hg₂ hlifts.target]
    exact hscoped₁.plain hg₁ hp hlifts

/-- Building the block of a relational table. -/
theorem succeeds_ofTable (hQ : Q.Persistent)
    {compile : List (List NodeId) → NodeId → Analysis Query}
    (hmeets : ∀ enclosing, Q.Meets (compile enclosing))
    (hcompile : ∀ enclosing, Supplies (compile enclosing)) (enclosing : List (List NodeId))
    (hg : g.WellFounded) (hnode : g.Unstacked node) :
  Succeeds (fun g' b' => b'.Nests g') (ofTable compile enclosing node) g
  := by
  have hhas := hnode.relational.has
  have hvalid := top_valid (Q := Q) hg hhas
  have htop := has_top hg hhas
  have hb : (top g node).1.Nests g := by
    obtain ⟨_, _, _, _, hnested, _⟩ := top_eq g node
    rw [Nests, hnested]
    exact fun s hs => absurd hs List.not_mem_nil
  rw [ofTable]
  apply succeeds_run (run_foldLimits _ node g)
  apply succeeds_run (run_foldTopSorts _ _ g)
  apply succeeds_run (run_foldDistinct _ _ g)
  apply succeeds_bind ((succeeds_core (hcompile enclosing) hg hb (hnode.tops hg).unstacked).and
    (grows_core hQ (hmeets enclosing) hg htop hvalid.nested))
  rintro built g₁ hg₁ e ⟨hnests, hbuilt⟩
  obtain ⟨hvalid₁, _⟩ := hbuilt.valid hg₁ (htop.mono e) (hvalid.mono hQ hg hg₁ e)
  rw [← top_extends e hg hg₁ hhas] at hbuilt
  exact succeeds_complete hQ enclosing hg₁ (hnode.mono e hg hg₁) hvalid₁ hbuilt hnests

end Block

/-! ### Queries -/

/-- The query of a relational table is readable, at every depth that is enough. -/
theorem supplies_queryWithin (n : Nat) :
  ∀ enclosing, Supplies (queryWithin n enclosing)
  := by
  induction n with
  | zero =>
      intro enclosing node g hg _
      refine ⟨grows_fail hg _, fun f hf => ?_⟩
      cases hf
      rfl
  | succ n ih =>
      intro enclosing node g hg hnode
      have hhas := hnode.relational.has
      have hQ := QuerySpec.hereditary_true
      rw [queryWithin]
      apply succeeds_get
      split
      case h_1 l r distinct hn => exact absurd hn (hnode.relational.not_union l r distinct)
      case h_2 =>
          have hmeets := hQ.meets n
          have hsucceeds := Block.succeeds_ofTable hQ.persistent hmeets ih enclosing hg hnode
          apply succeeds_bind (hsucceeds.and
            (Block.grows_ofTable hQ.persistent hQ.qualifies hmeets enclosing hg hhas))
          rintro b g' hg' e ⟨hnests, hb⟩
          apply succeeds_pure hg'
          exact Query.everywhere_select.mpr ⟨hb.readable hg' (hnode.mono e hg hg'), hnests⟩

/-- The query of an expression that is a relational table. -/
theorem succeeds_rootQuery {g : Graph} (hg : g.WellFounded) {root : NodeId}
    (hroot : g.Unstacked root) :
  Succeeds (fun g' r => r.1.Everywhere (Select.Readable g')) (rootQuery root) g
  := by
  have hr := hroot.relational.isRelation
  rw [Graph.isRelation] at hr
  have hquery : Succeeds (fun g' q => q.Everywhere (Select.Readable g')) (queryOf root) g := by
    rw [queryOf]
    apply succeeds_get
    exact supplies_queryWithin _ [] root g hg hroot
  rw [rootQuery]
  apply succeeds_get
  cases hn : g.node root <;> rw [hn] at hr <;> first | (cases hr; done) | skip
  all_goals
    simp only [hr, if_true]
    exact succeeds_bind hquery fun q g' hg' _ hq => succeeds_pure hg' hq

/-- The analysis of a relational table ends with a statement, all blocks of which are readable. -/
theorem Graph.analyze_readable {g : Graph} (hg : g.WellFounded) {root : NodeId}
    (hroot : g.Unstacked root) :
  ∃ st, g.analyze root = .ok st ∧ ∀ outer b, st.Holds outer b → b.Readable st.graph
  := by
  have hsucceeds := succeeds_rootQuery hg hroot
  have hends := analyze_ne_nestingTooDeep hg hroot.relational.has
  rw [analyze] at hends ⊢
  cases hrun : (rootQuery root).run g with
  | error f =>
      rw [hrun, ← hsucceeds.deep f hrun] at hends
      exact absurd rfl hends
  | ok result =>
      obtain ⟨⟨q, handler⟩, g'⟩ := result
      obtain ⟨_, _, hq⟩ := hsucceeds.result _ g' hrun
      exact ⟨_, rfl, Query.everywhere_bound (Select.readable_unbound g') hq rfl⟩

end RelSql
