import RelSql.Proofs.Statement.Rankings

/-!
# The joins of a FROM clause and their node

A FROM clause keeps its joins twice: as a list of join clauses after its first table, and as a node
that joins all of its tables.  Following the left operands of the node down to the first table gives
the clauses back, those of the joins that are put together again and those of the rankings behind
them, and the node is the table whose columns are all the columns of every folded join.
-/

namespace RelSql

/-! ## Unfolding a node -/

namespace Graph

variable {g : Graph} {stop first joined : NodeId} {bound : Nat} {joins : List JoinClause}

/-- One step down the left operands of joins. -/
def unfoldStep (g : Graph) (stop : NodeId) (below : NodeId → NodeId × List JoinClause)
    (id : NodeId) : NodeId × List JoinClause :=
  if id = stop then (id, [])
  else
    match g.node id with
    | .join kind left right predicates =>
      ((below left).1, (below left).2 ++ [⟨kind, right, predicates⟩])
    | _ => (id, [])

/-- The table that the left operands of joins lead down to, `stop` or one that is no join, and the
joins on the way, the innermost one first. -/
def unfoldJoins (g : Graph) (stop : NodeId) : NodeId → NodeId × List JoinClause :=
  NodeId.recurse (fun id => (id, [])) (g.unfoldStep stop)

theorem unfoldJoins_eq (hg : g.WellFounded) (stop id : NodeId) :
  g.unfoldJoins stop id = g.unfoldStep stop (g.unfoldJoins stop) id
  := by
  apply NodeId.recurse_eq
  intro f f' n h
  rw [unfoldStep, unfoldStep]
  split
  · rfl
  · cases hn : g.node n
    case join kind left right predicates =>
      have hleft : f left = f' left := by
        apply h
        apply hg.child_lt
        rw [hn]
        exact List.mem_cons_self
      simp only [hleft]
    all_goals rfl

theorem unfoldJoins_stop (hg : g.WellFounded) (stop : NodeId) :
  g.unfoldJoins stop stop = (stop, [])
  := by
  rw [unfoldJoins_eq hg, unfoldStep, if_pos rfl]

theorem unfoldJoins_join (hg : g.WellFounded) {id left right : NodeId} {kind : JoinKind}
    {predicates : List NodeId} (hne : id ≠ stop)
    (hn : g.node id = .join kind left right predicates) :
  g.unfoldJoins stop id = ((g.unfoldJoins stop left).1,
    (g.unfoldJoins stop left).2 ++ [⟨kind, right, predicates⟩])
  := by
  rw [unfoldJoins_eq hg, unfoldStep, if_neg hne, hn]

/-- Joins that come after a bound are passed on the way down to a table before it. -/
theorem Chained.unfoldJoins (hg : g.WellFounded) (hstop : stop.index < bound)
    (h : g.Chained bound first joins joined) :
  g.unfoldJoins stop joined
    = ((g.unfoldJoins stop first).1, (g.unfoldJoins stop first).2 ++ joins)
  := by
  induction h with
  | nil first => rw [List.append_nil]
  | @cons first next joined c rest hn hnext _ ih =>
      have hne : next ≠ stop := by
        rintro rfl
        omega
      rw [ih, unfoldJoins_join hg hne hn, List.append_assoc]
      rfl

/-- Joins that are put together over a table unfold to the joins and the table. -/
theorem Chained.unfolds (hg : g.WellFounded) (hfirst : first.index < bound)
    (h : g.Chained bound first joins joined) :
  g.unfoldJoins first joined = (first, joins)
  := by
  rw [h.unfoldJoins hg hfirst, unfoldJoins_stop hg]
  rfl

end Graph

/-- Semi joins of rankings are joins of the tables that have been joined before them. -/
theorem Folding.Ranked.chained {g : Graph} {s : Folding} {bound : Nat} {joined last : NodeId}
    {rankings : List NodeId} {clauses : List JoinClause} (hg : g.WellFounded)
    (h : s.Ranked g bound joined rankings clauses last) :
  g.Chained bound joined clauses last
  := by
  induction h with
  | nil joined => exact .nil joined
  | @cons joined next last p rankings c clauses hc htable hn _ ih =>
      have hlt : c.table.index < next.index := by
        apply hg.child_lt
        rw [hn]
        simp [Node.children]
      refine .cons ?_ (by omega) ih
      rw [(hc.bare hg).1]
      exact hn

/-- A join without conditions is written as a cross join. -/
theorem JoinTree.cross_of_mem_clauses (tree : JoinTree) :
  ∀ c ∈ tree.clauses, c.predicates = [] → c.kind = .cross
  := by
  induction tree with
  | table t => exact fun c hc => absurd hc List.not_mem_nil
  | join node kind predicates left l r ih =>
      rw [clauses, List.forall_mem_append, List.forall_mem_singleton]
      exact ⟨ih, fun hnil => if_pos hnil⟩

/-! ## The table of all columns -/

namespace Analysis

variable {α β : Type}

/-- What a computation gives, if it succeeds, satisfies a predicate. -/
structure Gives (P : α → Prop) (m : Analysis α) : Prop where
  result : ∀ g a g', m.run g = .ok (a, g') → P a

theorem gives_pure {P : α → Prop} {a : α} (h : P a) :
  Gives P (pure a)
  := by
  constructor
  intro g a' g' hrun
  cases hrun
  exact h

theorem gives_fail {P : α → Prop} (e : CompileError) :
  Gives P (fail e)
  := ⟨fun _ _ _ hrun => nomatch hrun⟩

theorem gives_bind {R : α → Prop} {P : β → Prop} {m : Analysis α} {f : α → Analysis β}
    (hm : Gives R m) (hf : ∀ a, R a → Gives P (f a)) :
  Gives P (m >>= f)
  := by
  constructor
  intro g b g' hrun
  obtain ⟨⟨a, g₁⟩, hfirst, hrest⟩ := exists_of_bind_eq_ok hrun
  exact (hf a (hm.result g a g₁ hfirst)).result g₁ b g' hrest

/-- What is given last counts. -/
theorem gives_last {P : β → Prop} {m : Analysis α} {f : α → Analysis β}
    (hf : ∀ a, Gives P (f a)) :
  Gives P (m >>= f)
  := gives_bind (R := fun _ => True) ⟨fun _ _ _ _ => trivial⟩ fun a _ => hf a

theorem gives_foldlM {P : β → Prop} {f : β → α → Analysis β}
    (hf : ∀ b a, P b → Gives P (f b a)) (l : List α) :
    ∀ b, P b → Gives P (l.foldlM f b) := by
  induction l with
  | nil => exact fun b hb => gives_pure hb
  | cons a l ih =>
      intro b hb
      rw [List.foldlM_cons]
      exact gives_bind (hf b a hb) ih

end Analysis

namespace Block

open Analysis

/-- The node of the FROM clause stands for every folded join, if there are joins. -/
def StandsForJoins (b : Block) : Prop :=
  ∀ t ∈ b.clauses.from?, t.joins ≠ [] → b.folding.join = some t.node

variable {b b' : Block} {compile : NodeId → Analysis Query}

theorem StandsForJoins.congr (h : b.StandsForJoins) (hfrom : b'.clauses.from? = b.clauses.from?)
    (hjoin : b'.folding.join = b.folding.join) :
  b'.StandsForJoins
  := by
  rw [StandsForJoins, hfrom, hjoin]
  exact h

/-- The node of joins that are put together stands for them. -/
theorem gives_rebuildJoins (b : Block) :
  Gives StandsForJoins b.rebuildJoins
  := by
  constructor
  intro g b' g' hrun
  simp only [StateT.run, rebuildJoins] at hrun
  split at hrun
  case h_1 hnone =>
      cases hrun
      intro t ht
      cases hnone.symm.trans ht
  case h_2 t _ =>
      obtain ⟨⟨joins, node, st⟩, _, hret⟩ := exists_of_bind_eq_ok hrun
      cases hret
      intro t' ht' hne
      obtain rfl := Option.some.inj ht'
      exact if_neg hne

/-- So does the node of a semi join for it and the joins before it. -/
theorem gives_semiJoin (b : Block) (table predicate : NodeId) :
  Gives StandsForJoins (b.semiJoin table predicate)
  := by
  rw [semiJoin]
  split
  · exact gives_fail _
  · apply gives_last
    intro node
    apply gives_pure
    intro t ht _
    obtain rfl := Option.some.inj ht
    rfl

/-- Whatever is ranked, and by whatever metric, the last step is a semi join. -/
theorem gives_rankedBy (b : Block) (arg metric : NodeId) (k : Nat) (name : String) :
  Gives StandsForJoins
    (do
      let (argLifted, groups) ← b.ranked arg metric
      let key ← Analysis.build fun g => g.column groups metricName
      let sorted ← Analysis.push (.sort groups [⟨key, false⟩])
      let first ← Analysis.push (.limit sorted k 0)
      let value ← Analysis.build fun g => g.column first name
      let predicate ← Analysis.push (.binary .eq argLifted value)
      let b ← b.leaf compile first
      b.semiJoin first predicate)
  := by
  refine gives_last fun _ => gives_last fun _ => gives_last fun _ => gives_last fun first => ?_
  refine gives_last fun _ => gives_last fun predicate => gives_last fun b => ?_
  exact gives_semiJoin b first predicate

theorem gives_rank (h : b.StandsForJoins) (p : NodeId) :
  Gives StandsForJoins (b.rank compile p)
  := by
  rw [rank]
  apply gives_last
  intro g
  split
  case h_1 arg k metric? _ =>
      apply gives_last
      intro g
      split
      case h_1 name _ =>
          cases metric? with
          | some m =>
              simp only [pure_bind]
              exact gives_rankedBy b arg m k name
          | none =>
              apply gives_last
              exact fun m => gives_rankedBy b arg m k name
      case h_2 => exact gives_fail _
  case h_2 => exact gives_pure h

theorem gives_joinRankings (h : b.StandsForJoins) :
  Gives StandsForJoins (b.joinRankings compile)
  := by
  rw [joinRankings]
  apply gives_last
  intro g
  apply gives_foldlM fun b p h => gives_rank h p
  exact h.congr rfl rfl

/-- What is lifted leaves the FROM clause and what is folded as they are. -/
theorem gives_lifted {m : LiftM Block} (h : ∀ st, (m.run st).1.StandsForJoins) :
  Gives StandsForJoins (lifted m)
  := by
  constructor
  intro g b g' hrun
  cases hrun
  exact h _

/-- The node of the FROM clause of a completed block stands for every folded join. -/
theorem gives_complete (compile : List (List NodeId) → NodeId → Analysis Query)
    (enclosing : List (List NodeId)) (b : Block) :
  Gives StandsForJoins (b.complete compile enclosing)
  := by
  rw [complete]
  apply gives_bind (gives_rebuildJoins b)
  intro b₁ h₁
  apply gives_bind (gives_joinRankings h₁)
  intro b₂ h₂
  apply gives_bind (gives_lifted (m := b₂.liftValues) fun st => h₂.congr rfl rfl)
  intro b₃ h₃
  apply gives_bind (gives_lifted (m := b₃.liftOrder) fun st => h₃.congr rfl rfl)
  intro b₄ h₄
  apply gives_bind (R := StandsForJoins)
  · rw [extractSubqueries]
    split
    · exact gives_pure h₄
    · apply gives_last
      intro nested
      apply gives_last
      intro g
      apply gives_pure
      rw [qualifyCorrelated]
      split <;> exact h₄.congr rfl rfl
  intro b₅ h₅
  apply gives_pure
  obtain ⟨force, hforced, _⟩ := b₅.qualifyFiltered_eq
  rw [hforced]
  exact h₅.congr rfl rfl

/-- A folded join stands for the join of the block. -/
theorem star_of_isJoin {g : Graph} {s : Folding} (hg : g.WellFounded) {j node : NodeId}
    (hfolded : s.contains j = true) (hjoin : g.isJoin j = true) (hnode : s.join = some node) :
  s.star g j = node
  := by
  obtain ⟨kind, l, r, predicates, hn⟩ := Graph.eq_join hjoin
  rw [Folding.star_eq s hg, hfolded, hn, hnode]
  rfl

/-! ## FROM clauses -/

/-- The FROM clause `t` of a block joins the tables of the tree of `source`, and then one table for
each ranking.  Following the left operands of its node down to its first table gives its joins back,
in order, with their kinds, their tables and their lifted predicates, and the node is the table of
all columns of every folded join. -/
structure Unfolds (g : Graph) (b : Block) (t : TableSet) (source : NodeId)
    (rankings : List NodeId) : Prop where
  node : g.unfoldJoins t.first t.node = (t.first, t.joins)
  first : t.first = (g.joinTree source).first
  joins : ∃ own ranked, t.joins = own ++ ranked
    ∧ List.Forall₂ (JoinClause.Lifts b.folding g) (g.joinTree source).clauses own
    ∧ List.Forall₂ (JoinClause.Ranks b.folding g) rankings ranked
  cross : ∀ c ∈ t.joins, c.predicates = [] → c.kind = .cross
  star : t.joins ≠ [] → ∀ j, b.folding.contains j = true → g.isJoin j = true →
    b.folding.star g j = t.node

theorem Origin.unfolds {old g : Graph} {node : NodeId} {b : Block} (hg : g.WellFounded)
    (h : Origin old g node b) (hstands : b.StandsForJoins) :
  ∃ built ops source t, Layout old g (top g node).2 built ops source
    ∧ b.clauses.from? = some t ∧ Unfolds g b t source (built.predicates.filter (isRanking g))
  := by
  obtain ⟨built, ops, source, hlayout, _, _, _, hassembles⟩ := h.layout hg
  obtain @⟨bound, joined, last, own, ranked, _, htables, _, hfrom, hlifts, hchained, _, hranked⟩ :=
    hassembles
  have hfirst := htables _ List.mem_cons_self
  refine ⟨built.clauses, ops, source, _, hlayout, hfrom, ?_, rfl, ?_, ?_, ?_⟩
  · exact (hchained.append (hranked.chained hg)).unfolds hg hfirst
  · exact ⟨own, ranked, rfl, hlifts, hranked.ranks.imp fun _ _ h => h.1⟩
  · refine List.forall_mem_append.mpr ⟨fun c' hc' => ?_, fun c hc => (hranked.bare hg c hc).2⟩
    obtain ⟨c, hc, hl⟩ := forall₂_exists hlifts.flip c' hc'
    exact hl.cross ((g.joinTree source).cross_of_mem_clauses c hc)
  · intro hne j hfolded hjoin
    exact star_of_isJoin hg hfolded hjoin (hstands _ hfrom hne)

/-- The FROM clause of the block of a table and its node are the same joins, from the graph in which
the block is completed on. -/
theorem ofTable_unfolds {g g' h : Graph} {node : NodeId} (hg : g.WellFounded) (hnode : g.Has node)
    {n : Nat} {enclosing : List (List NodeId)} {b : Block}
    (hrun : (ofTable (queryWithin n) enclosing node).run g = .ok (b, g')) (hh : h.WellFounded)
    (e : g'.Extends h) :
  ∃ built ops source t, Layout g h (top h node).2 built ops source
    ∧ b.clauses.from? = some t ∧ Unfolds h b t source (built.predicates.filter (isRanking h))
  := by
  have hgives : Gives StandsForJoins (ofTable (queryWithin n) enclosing node) := by
    rw [ofTable]
    refine gives_last fun _ => gives_last fun _ => gives_last fun _ => gives_last fun b => ?_
    exact gives_complete (queryWithin n) enclosing b
  obtain ⟨hg', _, horigin⟩ := (grows_origin n enclosing hg hnode).result b g' hrun
  exact (horigin.mono hg' hh e).unfolds hh (hgives.result g b g' hrun)

/-- The rows of two tables, the keys of either of which rank first by their counts. -/
def twiceRanked : Graph := ⟨#[
  .table ⟨some "a", none, ⟨[⟨"k", .int32⟩]⟩⟩,
  .table ⟨some "b", none, ⟨[⟨"g", .int32⟩]⟩⟩,
  .join .inner ⟨0⟩ ⟨1⟩ [],
  .column ⟨0⟩ "k",
  .column ⟨1⟩ "g",
  .topK ⟨3⟩ 3 none,
  .topK ⟨4⟩ 2 none,
  .selection ⟨2⟩ [⟨5⟩, ⟨6⟩]]⟩

/-- The node of the FROM clause unfolds to the cross join of the tables and a semi join for each
ranking, and stands for the join. -/
theorem ofTable_unfolds_twiceRanked :
  ∃ b g' t, (ofTable (queryWithin 3) [] ⟨7⟩).run twiceRanked = .ok (b, g')
    ∧ b.clauses.from? = some t ∧ t.joins.map JoinClause.kind = [.cross, .semi, .semi]
    ∧ g'.unfoldJoins ⟨0⟩ t.node = (⟨0⟩, t.joins) ∧ b.folding.star g' ⟨2⟩ = t.node
  := by
  have heval : ((ofTable (queryWithin 3) [] ⟨7⟩).run twiceRanked).toOption.map (fun r =>
      (r.1.clauses.from?.map fun t => (t.first, t.joins.map JoinClause.kind),
        r.1.folding.contains ⟨2⟩)) = some (some (⟨0⟩, [.cross, .semi, .semi]), true) := by
    decide +kernel
  obtain ⟨⟨b, g'⟩, hok, hresult⟩ := Option.map_eq_some_iff.mp heval
  have hrun := eq_ok_of_toOption hok
  obtain ⟨htables, hfolded⟩ := Prod.mk.inj hresult
  obtain ⟨hg', e, _⟩ :=
    (grows_origin 3 [] (g := twiceRanked) (by decide) (by decide)).result b g' hrun
  obtain ⟨_, _, _, t, _, hfrom, hunfolds⟩ :=
    ofTable_unfolds (g := twiceRanked) (by decide) (by decide) hrun hg' (.refl g')
  rw [hfrom] at htables
  obtain ⟨hfirst, hkinds⟩ := Prod.mk.inj (Option.some.inj htables)
  have hne : t.joins ≠ [] := by
    intro hnil
    rw [hnil] at hkinds
    cases hkinds
  have hjoin : g'.isJoin ⟨2⟩ = true := e.isJoin (by decide)
  refine ⟨b, g', t, hrun, hfrom, hkinds, ?_, hunfolds.star hne ⟨2⟩ hfolded hjoin⟩
  have hnode := hunfolds.node
  rwa [hfirst] at hnode

end Block

end RelSql
