import RelSql.Proofs.Lift.Depth
import RelSql.Proofs.Nesting.Queries

/-!
# Termination

An analysis calls itself to a depth that is known before.  To every greater depth it does the
same, and it never runs out of the depth: it ends with a statement or with an error of the
expression.  The same holds of its inner recursions, along projections that are fused, into the
parts of predicates and through the columns that are lifted.
-/

namespace RelSql

open Analysis

variable {g g' : Graph}

/-! ### Fusion -/

namespace Block

/-- A projection that is not fused is left alone. -/
theorem fuseAll_none (n : Nat) (b : Block) {projection : NodeId}
    (h : (g.fuse projection).1 = none) :
  (fuseAll (n + 1) b projection).run g = .ok ((b, projection), (g.fuse projection).2)
  := by
  rw [fuseAll, StateT.run_bind, StateT.run_modifyGet, pure_bind, h]
  rfl

/-- A projection that is fused is followed by what it is fused into. -/
theorem fuseAll_some (n : Nat) (b : Block) {projection : NodeId} {f : Fused}
    (h : (g.fuse projection).1 = some f) :
  (fuseAll (n + 1) b projection).run g
    = (fuseAll n ((b.foldAll f.absorbed).output f.node) f.node).run (g.fuse projection).2
  := by
  rw [fuseAll, StateT.run_bind, StateT.run_modifyGet, pure_bind, h]

/-- Fusion settles when there are more steps than the tables below a projection are deep. -/
theorem fuseAll_settled (n : Nat) :
    ∀ {n' : Nat} {g : Graph} {b : Block} {projection : NodeId}, g.WellFounded →
      g.Has projection → g.fusionDepth projection < n → g.fusionDepth projection < n' →
      (fuseAll n b projection).run g = (fuseAll n' b projection).run g := by
  induction n with
  | zero => exact fun _ _ hn => absurd hn (Nat.not_lt_zero _)
  | succ n ih =>
      intro n' g b projection hg hprojection hn hn'
      obtain _ | n' := n'
      · exact absurd hn' (Nat.not_lt_zero _)
      obtain ⟨hg', e, hfuses⟩ := @Graph.fuse_spec g hg projection
      cases hf : (g.fuse projection).1 with
      | none => rw [fuseAll_none _ b hf, fuseAll_none _ b hf]
      | some f =>
          rw [fuseAll_some _ b hf, fuseAll_some _ b hf]
          have hfuse := hfuses f (by rw [hf]; rfl)
          have hlt := hfuse.fusionDepth_lt hg'
          rw [e.fusionDepth_eq hg hg' hprojection] at hlt
          exact ih hg' hfuse.has_node (by omega) (by omega)

end Block

/-! ### Roots -/

/-- The query of a table does not run out of depth. -/
theorem settles_queryOf (hg : g.WellFounded) {node : NodeId} (hnode : g.Has node) :
  Settles (queryOf node) (queryOf node) g
  := by
  rw [queryOf]
  apply settles_get
  exact settles_queryWithin _ [] hg hnode (Nat.le_refl _) (Nat.le_refl _)

/-- Handing on a handler takes no depth. -/
theorem settles_handled (handler : Handler) {m : Analysis Query} (h : Settles m m g) :
  Settles (do return (← m, handler)) (do return (← m, handler)) g
  := settles_then h fun _ => shallow_pure _

theorem shallow_withName (value : NodeId) :
  Shallow (withName value)
  := by
  rw [withName]
  apply shallow_get
  intro g
  split
  · exact shallow_pure _
  · exact shallow_push _

theorem shallow_constantQuery (values : List NodeId) :
  Shallow (constantQuery values)
  := by
  rw [constantQuery.eq_def]
  cases values with
  | nil => exact shallow_bind (shallow_push _) fun _ => shallow_pure _
  | cons v rest => exact shallow_pure _

theorem shallow_mapM {α β : Type} {f : α → Analysis β} (hf : ∀ a, Shallow (f a)) (l : List α) :
  Shallow (l.mapM f)
  := by
  induction l with
  | nil => exact shallow_pure _
  | cons a l ih =>
      rw [List.mapM_cons]
      exact shallow_bind (hf a) fun _ => shallow_bind ih fun _ => shallow_pure _

/-- The query of a single value does not run out of depth. -/
theorem settles_valueQuery (hg : g.WellFounded) {root : NodeId} (hroot : g.Has root) :
  Settles (valueQuery root) (valueQuery root) g
  := by
  rw [valueQuery]
  apply settles_bind ((shallow_withName root).settles g) (grows_withName hg hroot)
  rintro value g₁ hg₁ e ⟨hvalue, _⟩
  apply settles_get
  split
  · exact settles_handled _ ((shallow_constantQuery _).settles g₁)
  case h_2 t ht =>
      have hchildren : ∀ c ∈ [t, value], g₁.Has c :=
        List.forall_mem_cons.mpr
          ⟨has_of_baseTable hg₁ (hroot.mono e) ht, List.forall_mem_singleton.mpr hvalue⟩
      split
      · apply settles_bind ((shallow_push _).settles g₁)
          (grows_push hg₁ (n := .aggregation t [] [value] []) hchildren)
        intro table g₂ hg₂ _ htable
        exact settles_handled _ (settles_queryOf hg₂ htable.1)
      · apply settles_bind ((shallow_push _).settles g₁)
          (grows_push hg₁ (n := .projection t [value]) hchildren)
        intro table g₂ hg₂ _ htable
        exact settles_handled _ (settles_queryOf hg₂ htable.1)

/-- The query of a list of values does not run out of depth. -/
theorem settles_listQuery (hg : g.WellFounded) {root : NodeId} (hroot : g.Has root)
    {exprs : List NodeId} (hexprs : ∀ e ∈ exprs, g.Has e) :
  Settles (listQuery root exprs) (listQuery root exprs) g
  := by
  rw [listQuery]
  apply settles_bind ((shallow_mapM shallow_withName exprs).settles g)
    (grows_mapM (R := fun g (_ : NodeId) v => g.Has v) (fun _ _ _ _ _ _ e h => h.mono e) exprs hg
      fun e he g' hg' e' => (grows_withName hg' ((hexprs e he).mono e')).imp
        fun _ _ _ _ h => h.1)
  intro values g₁ hg₁ e hvalues
  have hhas := forall₂_right hvalues fun _ _ h => h
  apply settles_get
  split
  case h_1 t ht =>
      apply settles_bind ((shallow_push _).settles g₁) (grows_push hg₁ (n := .projection t values)
        (List.forall_mem_cons.mpr ⟨has_of_baseTable hg₁ (hroot.mono e) ht, hhas⟩))
      exact fun table g₂ hg₂ _ htable => settles_queryOf hg₂ htable.1
  · exact (shallow_constantQuery _).settles g₁

/-- The query of an expression does not run out of depth. -/
theorem settles_rootQuery (hg : g.WellFounded) {root : NodeId} (hroot : g.Has root) :
  Settles (rootQuery root) (rootQuery root) g
  := by
  rw [rootQuery]
  apply settles_get
  split
  case h_1 t name hn =>
      have ht : g.Has t := hg.has_child hroot (by rw [hn]; exact List.mem_singleton_self t)
      split
      · exact settles_handled _ (settles_queryOf hg ht)
      · exact settles_valueQuery hg hroot
  case h_2 exprs hn =>
      have hexprs : ∀ e ∈ exprs, g.Has e := fun e he => hg.has_child hroot (by rw [hn]; exact he)
      exact settles_handled _ (settles_listQuery hg hroot hexprs)
  all_goals first | exact settles_fail (by simp) | skip
  split
  · exact settles_handled _ (settles_queryOf hg hroot)
  · exact settles_valueQuery hg hroot

namespace Graph

/-- The recursions of an analysis over a graph have settled. -/
structure Settled (g : Graph) : Prop where
  /-- Queries in queries: of derived tables, rankings and subqueries. -/
  queries : ∀ (enclosing : List (List NodeId)) (node : NodeId) (n : Nat), g.Has node →
    g.nestingBound node ≤ n →
    Settles (queryWithin n enclosing node) (queryWithin (g.nestingBound node) enclosing node) g
  /-- Parts of the predicates of a block whose subqueries have settled. -/
  subqueries : ∀ (enclosing : List (List NodeId)) (nested : List (Nested Query)) (id : NodeId)
    (depth n : Nat), g.Has id → (g.nesting id).reach < depth → id.index < n →
    Settles (Block.extract (queryWithin depth enclosing) enclosing n nested id)
      (Block.extract (queryWithin depth enclosing) enclosing (id.index + 1) nested id) g
  /-- Projections that are fused one after the other. -/
  fusions : ∀ (b : Block) (projection : NodeId) (n : Nat), g.Has projection →
    projection.index < n →
    (Block.fuseAll n b projection).run g = (Block.fuseAll (projection.index + 1) b projection).run g
  /-- Columns that stand for what is to be lifted in turn. -/
  values : ∀ (s : Folding) (mode : LiftMode) (memo : List (NodeId × NodeId)) (id : NodeId)
    (n : Nat), LiftState.Sound s mode ⟨g, memo⟩ → g.Has id → id.index < n →
    (Lift.valueWithin s mode n id).run ⟨g, memo⟩ = (Lift.value s mode id).run ⟨g, memo⟩

/-- An analysis does not fail for want of depth. -/
theorem analyze_ne_nestingTooDeep (hg : g.WellFounded) {root : NodeId} (hroot : g.Has root) :
  g.analyze root ≠ .error .nestingTooDeep
  := by
  intro hfails
  have hroots := (settles_rootQuery hg hroot).enough
  rw [analyze] at hfails
  cases hrun : (rootQuery root).run g with
  | ok r =>
      rw [hrun] at hfails
      cases hfails
  | error f =>
      rw [hrun] at hfails
      exact hroots f hrun (Except.error.inj hfails)

/-- The recursions of an analysis end over every well-founded graph, and an analysis ends with
a statement or with an error, but never for want of depth. -/
theorem analyze_settles (hg : g.WellFounded) :
  g.Settled ∧ ∀ root, g.Has root → g.analyze root ≠ .error .nestingTooDeep
  := by
  refine ⟨⟨?_, ?_, ?_, ?_⟩, ?_⟩
  · intro enclosing node n hnode hn
    exact settles_queryWithin n enclosing hg hnode hn (Nat.le_refl _)
  · intro enclosing nested id depth n hid hreach hn
    apply (Block.settles_extract (QuerySpec.hereditary_true.meets depth enclosing) _ enclosing n hn
      (Nat.lt_succ_self _) hg hid hreach).toSettles
    intro node g' hg' hnode hlt
    exact settles_queryWithin depth enclosing hg' hnode (Nat.le_of_lt hlt) (Nat.le_of_lt hlt)
  · intro b projection n hprojection hn
    have hdepth := hg.fusionDepth_le projection
    exact Block.fuseAll_settled n hg hprojection (by omega) (Nat.lt_succ_of_le hdepth)
  · intro s mode memo id n hs hid hn
    exact (Lift.settledWithin s mode n).value hs hid hn (Nat.lt_succ_self _)
  · exact fun root hroot => analyze_ne_nestingTooDeep hg hroot

/-- The joined rows with a value that ranks first by the mean of another table, for which some
row of a third one is greater. -/
def rankedJoin : Graph := ⟨#[
  .table ⟨some "t", none, ⟨[⟨"k", .int64⟩, ⟨"x", .int64⟩]⟩⟩,
  .table ⟨some "u", none, ⟨[⟨"k", .int64⟩, ⟨"y", .int64⟩]⟩⟩,
  .column ⟨0⟩ "k",
  .column ⟨1⟩ "k",
  .binary .eq ⟨2⟩ ⟨3⟩,
  .join .inner ⟨0⟩ ⟨1⟩ [⟨4⟩],
  .column ⟨0⟩ "x",
  .column ⟨1⟩ "y",
  .reduction .mean ⟨7⟩,
  .topK ⟨6⟩ 1 (some ⟨8⟩),
  .table ⟨some "v", none, ⟨[⟨"z", .int64⟩]⟩⟩,
  .column ⟨10⟩ "z",
  .binary .gt ⟨11⟩ ⟨6⟩,
  .any ⟨12⟩,
  .selection ⟨5⟩ [⟨9⟩, ⟨13⟩]]⟩

/-- The ranking becomes a derived table of groups of the rebuilt join, and the test a subquery. -/
theorem analyze_settles_rankedJoin :
  (∃ st, rankedJoin.analyze ⟨14⟩ = .ok st ∧ st.query.allNested.length = 2)
    ∧ rankedJoin.Settled ∧ rankedJoin.analyze ⟨14⟩ ≠ .error .nestingTooDeep
  := by
  have hrun : (rankedJoin.analyze ⟨14⟩).toOption.map (fun st => st.query.allNested.length)
      = some 2 := by
    decide +kernel
  obtain ⟨st, hst, hnested⟩ := Option.map_eq_some_iff.mp hrun
  obtain ⟨hsettled, hends⟩ := analyze_settles (g := rankedJoin) (by decide)
  exact ⟨⟨st, eq_ok_of_toOption hst, hnested⟩, hsettled, hends ⟨14⟩ (by decide)⟩

end Graph

end RelSql
