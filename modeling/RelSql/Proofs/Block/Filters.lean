import RelSql.Proofs.Block.Predicates

/-!
# Filters of a block

The predicates of the selections on the way down to the FROM clause of a block are those of its
WHERE clause, and above an aggregation those of its HAVING clause.  Each of them is lifted, and
rankings become semi joins.  The selections between fused projections are the exception when a
projection is left below them: then they are kept together in a selection that is a table of the
FROM clause.
-/

namespace RelSql

open Analysis

variable {old g g' : Graph} {node : NodeId}

/-- Elements of lists that are related through those of a third list are related. -/
theorem forall₂_comp {α β γ : Type} {R : α → β → Prop} {S : β → γ → Prop} {T : α → γ → Prop}
    {xs : List α} {ys : List β} {zs : List γ} (h : List.Forall₂ R xs ys)
    (h' : List.Forall₂ S ys zs) (hcomp : ∀ x, ∀ y ∈ ys, ∀ z, R x y → S y z → T x z) :
  List.Forall₂ T xs zs
  := by
  induction h generalizing zs with
  | nil =>
      cases h'
      exact .nil
  | cons hxy _ ih =>
      cases h' with
      | cons hyz hrest =>
          refine .cons (hcomp _ _ List.mem_cons_self _ hxy hyz) (ih hrest ?_)
          exact fun x y hy => hcomp x y (List.mem_cons_of_mem _ hy)

namespace Graph

/-! ### Joins -/

/-- There is no aggregation in a join tree. -/
theorem aggregates_joinTree (hg : g.WellFounded) (e : old.Extends g) (id : NodeId) :
  (g.joinTree id).descent.aggregates old = false
  := by
  apply any_isAggregation e
  intro n hn hother
  rcases operators_joinTree hg id n hn with h | h <;> rw [h] at hother <;> cases hother

/-- The predicates of the selections of a join tree are those that have been taken off. -/
theorem filters_joinTree (hg : g.WellFounded) (id : NodeId) :
  (g.joinTree id).descent.filters g = (g.joinTree id).hoisted
  := by
  apply joinTree_induction hg (P := fun id => (g.joinTree id).descent.filters g
    = (g.joinTree id).hoisted)
  · intro id hn
    rw [joinTree_other hg hn]
    rfl
  · intro id kind l r predicates hn ih
    have hnone := aggregates_joinTree hg (.refl g) id
    rw [joinTree_join hg hn, JoinTree.descent, Descent.aggregates, Descent.operators, List.any_cons,
      List.any_append, Bool.or_eq_false_iff, Bool.or_eq_false_iff] at hnone
    rw [joinTree_join hg hn, JoinTree.descent, Descent.filters,
      Descent.filters_under_of_not hnone.2.1, Descent.filters_under_of_not hnone.2.2, ih,
      filtersOf_operand, filtersOf_operand, JoinTree.hoisted]
    rfl

/-! ### Fused projections -/

/-- The predicates of a selection that is added, which stand for others. -/
def addedFilters (old g : Graph) (x : NodeId) : List NodeId :=
  if old.Has x then [] else g.predicatesOf x

/-- The selections above what stands for a table are those above the table, and perhaps one that is
added. -/
theorem Stands.predicates {t x : NodeId} (hold : old.WellFounded) (hg : g.WellFounded)
    (e : old.Extends g) (h : old.Stands g t x) :
  old.filtersOf (g.peel x).chain = (g.peel t).predicates
    ∧ (g.peel x).predicates = (g.peel t).predicates ++ old.addedFilters g x
  := by
  cases h with
  | itself ht =>
      rw [addedFilters, if_pos ht, List.append_nil]
      exact ⟨filtersOf_peel hold hg e ht, rfl⟩
  | @filtered _ predicates ht hnew hn =>
      have hnone : old.predicatesOf x = [] := by
        by_contra hne
        exact hnew (has_of_operator (operator_of_selection hne))
      rw [peel_selection hg hn, addedFilters, if_neg hnew, predicatesOf, hn]
      refine ⟨?_, rfl⟩
      rw [← filtersOf_peel hold hg e ht, filtersOf, List.reverse_cons, List.flatMap_append,
        List.flatMap_singleton, hnone, List.append_nil]
      rfl

/-- The predicates of the selections between fused projections are those of the selection that is
added below the projections, one by one. -/
theorem carried_fusions (hg : g.WellFounded) (hold : old.WellFounded) (e : old.Extends g)
    {fused : List NodeId} {core input p : NodeId} {items : List NodeId}
    (hcore : g.node core = .projection input items) {t x : NodeId} {outer : List NodeId}
    {fs : List Fused} (hfuses : g.FusesTo p fs core)
    (hadded : (p :: fs.map Fused.node).IsChain (old.Adds g)) (hp : g.node p = .projection x outer)
    (hx : old.Stands g t x) :
  ∀ between, (∀ n ∈ fusions fs, n ∈ fused) → (¬ old.Has x → g.predicatesOf x ≠ []) →
    List.Forall₂ (g.Carried fused) between (old.addedFilters g x) →
    ∃ t', old.Stands g t' input ∧ (¬ old.Has input → g.predicatesOf input ≠ [])
      ∧ List.Forall₂ (g.Carried fused) (old.filtersOf (fusions fs) ++ between)
        (old.addedFilters g input)
  := by
  apply fusesTo_induction hg hold e hcore (P := fun _ x fs => ∀ between,
    (∀ n ∈ fusions fs, n ∈ fused) → (¬ old.Has x → g.predicatesOf x ≠ []) →
    List.Forall₂ (g.Carried fused) between (old.addedFilters g x) →
    ∃ t', old.Stands g t' input ∧ (¬ old.Has input → g.predicatesOf input ≠ [])
      ∧ List.Forall₂ (g.Carried fused) (old.filtersOf (fusions fs) ++ between)
        (old.addedFilters g input))
    (fun t hinput between _ hne h => ⟨t, hinput, hne, h⟩) _ hfuses hadded hp hx
  intro t x f table source fs hx hover ih between hsub _ hbetween
  obtain ⟨hchain, hpredicates⟩ := hx.predicates hold hg e
  obtain ⟨items, hinner⟩ := hover.inner
  obtain ⟨items', hnode⟩ := hover.fused
  have hfusions : fusions (f :: fs)
      = (g.peel x).chain ++ ([(g.peel t).table, f.node] ++ fusions fs) := by
    rw [fusions, List.flatMap_cons, ← fusions, hover.absorbed]
    simp
  have hnone : old.filtersOf [(g.peel t).table, f.node] = [] := by
    apply filtersOf_eq_nil e
    refine List.forall_mem_cons.mpr ⟨?_, List.forall_mem_singleton.mpr ?_⟩
    · simp [hinner, Node.operator?]
    · simp [hnode, Node.operator?]
  rw [hfusions, List.forall_mem_append] at hsub
  obtain ⟨hsubchain, hsub⟩ := hsub
  obtain ⟨hsubtable, hsubrest⟩ := List.forall_mem_append.mp hsub
  have habsorbed : ∀ n ∈ f.absorbed, n ∈ fused := by
    rw [hover.absorbed]
    exact List.forall_mem_append.mpr ⟨hsubchain,
      List.forall_mem_singleton.mpr (hsubtable _ List.mem_cons_self)⟩
  have hcarried : List.Forall₂ (g.Carried fused) ((g.peel t).predicates ++ between)
      (g.peel x).predicates := by
    rw [hpredicates]
    exact List.rel_append (Carried.all_refl _) hbetween
  rw [hfusions, filtersOf_append, filtersOf_append, hnone, List.append_nil, hchain,
    List.append_assoc]
  have hsource : (¬ old.Has source → g.predicatesOf source ≠ [])
      ∧ List.Forall₂ (g.Carried fused) ((g.peel t).predicates ++ between)
        (old.addedFilters g source) := by
    cases hover.lifts with
    | all hnil =>
        have htable := hover.stands.has
        rw [hnil] at hcarried
        rw [addedFilters, if_pos htable]
        exact ⟨absurd htable, hcarried⟩
    | @filtered _ lifted hne hn hlifted =>
        have hnew : ¬ old.Has source := by
          cases hover.stands with
          | itself =>
              have hlt : table.index < table.index := by
                apply hg.child_lt
                rw [hn]
                exact List.mem_cons_self
              exact absurd hlt (Nat.lt_irrefl _)
          | filtered _ hnew _ => exact hnew
        have hsame : g.predicatesOf source = lifted := by rw [predicatesOf, hn]
        rw [addedFilters, if_neg hnew, hsame]
        refine ⟨fun _ hnil => hne ?_, forall₂_comp hcarried hlifted ?_⟩
        · rw [hnil] at hlifted
          exact List.forall₂_nil_right_iff.mp hlifted
        · intro p p' hp' l h hl
          refine .lift h habsorbed ?_ hl
          rw [Folding.pushes, List.all_cons, List.all_nil, Bool.and_true]
          exact List.all_eq_true.mp hover.pushes p' hp'
  exact ih _ hsubrest hsource.1 hsource.2

/-- The operators of fused projections are selections and projections. -/
theorem operators_fusions (hg : g.WellFounded) (hold : old.WellFounded) (e : old.Extends g)
    {core input p : NodeId} {items : List NodeId} (hcore : g.node core = .projection input items)
    {t x : NodeId} {outer : List NodeId} {fs : List Fused} (hfuses : g.FusesTo p fs core)
    (hadded : (p :: fs.map Fused.node).IsChain (old.Adds g)) (hp : g.node p = .projection x outer)
    (hx : old.Stands g t x) :
  ∀ n ∈ fusions fs,
    (g.node n).operator? = some .selection ∨ (g.node n).operator? = some .projection
  := by
  apply fusesTo_induction hg hold e hcore (P := fun _ _ fs => ∀ n ∈ fusions fs,
    (g.node n).operator? = some .selection ∨ (g.node n).operator? = some .projection)
    (fun _ _ => List.forall_mem_nil _) _ hfuses hadded hp hx
  intro t x f table source fs _ hover ih
  obtain ⟨items, hinner⟩ := hover.inner
  obtain ⟨items', hnode⟩ := hover.fused
  rw [fusions, List.flatMap_cons, ← fusions, hover.absorbed]
  refine List.forall_mem_append.mpr ⟨List.forall_mem_append.mpr
    ⟨List.forall_mem_append.mpr ⟨?_, ?_⟩, ?_⟩, ih⟩
  · exact fun n hn => .inl (all_peel hg x n hn)
  · exact List.forall_mem_singleton.mpr (.inr (by rw [hinner]; rfl))
  · exact List.forall_mem_singleton.mpr (.inr (by rw [hnode]; rfl))

/-- There is no aggregation among fused projections. -/
theorem aggregates_fusions (hg : g.WellFounded) (hold : old.WellFounded) (e : old.Extends g)
    {core input p : NodeId} {items : List NodeId} (hcore : g.node core = .projection input items)
    {t x : NodeId} {outer : List NodeId} {fs : List Fused} (hfuses : g.FusesTo p fs core)
    (hadded : (p :: fs.map Fused.node).IsChain (old.Adds g)) (hp : g.node p = .projection x outer)
    (hx : old.Stands g t x) :
  (p :: fusions fs).any old.isAggregation = false
  := by
  apply any_isAggregation e
  refine List.forall_mem_cons.mpr ⟨by simp [hp, Node.operator?], fun n hn hother => ?_⟩
  rcases operators_fusions hg hold e hcore hfuses hadded hp hx n hn with h | h
    <;> rw [h] at hother <;> cases hother

/-! ### Below projections -/

/-- The tables of a FROM clause are those of a graph, or there is only one of them, a selection that
is added and that keeps the given predicates. -/
inductive Keeps (old g : Graph) (fused leaves : List NodeId) : List NodeId → Prop where
  | none (h : ∀ leaf ∈ leaves, old.Has leaf) : Keeps old g fused leaves []
  | added {leaf : NodeId} {kept : List NodeId} (hleaves : leaves = [leaf]) (hnew : ¬ old.Has leaf)
      (hsome : kept ≠ []) (hkept : List.Forall₂ (g.Carried fused) kept (g.predicatesOf leaf)) :
    Keeps old g fused leaves kept

/-- The predicates on the way through an operand to the FROM clause, and those between fused
projections above it, are taken over, but for some that a table of the FROM clause keeps. -/
def KeepsBelow (old g : Graph) (fused between : List NodeId) (o : Peeled) : Prop :=
  ∃ kept rest,
    ((g.joinTree o.table).descent.under o.chain).filters old ++ between = kept ++ rest
      ∧ List.Forall₂ (g.Carried fused) rest ((g.joinTree o.table).hoisted ++ o.predicates)
      ∧ old.Keeps g fused (g.joinTree o.table).leaves kept

/-- There is no aggregation below the operators of a block that are folded for a source. -/
theorem aggregates_operand (hg : g.WellFounded) (e : old.Extends g) (id : NodeId)
    (hoist left : Bool) :
  ((g.joinTree (g.operand id hoist left).table).descent.under
    (g.operand id hoist left).chain).aggregates old = false
  := by
  rw [Descent.aggregates_under, aggregates_joinTree hg e, Bool.or_false]
  exact any_isAggregation e ((all_operand hg id hoist left).ne (by decide))

/-- The predicates on the way from a table that is there to the FROM clause are taken over. -/
theorem filters_operand (hg : g.WellFounded) (hold : old.WellFounded) (e : old.Extends g)
    {id : NodeId} (hid : old.Has id) (hoist left : Bool) :
  ((g.joinTree (g.operand id hoist left).table).descent.under
      (g.operand id hoist left).chain).filters old
    = (g.joinTree (g.operand id hoist left).table).hoisted ++ (g.operand id hoist left).predicates
    ∧ ∀ leaf ∈ (g.joinTree (g.operand id hoist left).table).leaves, old.Has leaf
  := by
  have hnone := aggregates_operand hg e id hoist left
  have htable := hold.has_operand hid hoist left
  rw [e.operand_eq hold hg hid, e.joinTree_eq hold hg htable] at hnone ⊢
  rw [Descent.filters_under_of_not hnone, filters_joinTree hold, filtersOf_operand]
  exact ⟨rfl, (hold.has_joinTree htable).1⟩

/-- The predicates on the way from the input of a fused projection to the FROM clause are taken
over, unless the input is a selection that is added and is left where it is. -/
theorem keeps_operand (hg : g.WellFounded) (hold : old.WellFounded) (e : old.Extends g)
    {fused between : List NodeId} {t x : NodeId} (hx : old.Stands g t x)
    (hsome : ¬ old.Has x → g.predicatesOf x ≠ [])
    (hbetween : List.Forall₂ (g.Carried fused) between (old.addedFilters g x)) :
  old.KeepsBelow g fused between (g.operand x true true)
  := by
  rw [KeepsBelow]
  cases hx with
  | itself ht =>
      obtain ⟨hfilters, hleaves⟩ := filters_operand hg hold e ht true true
      rw [addedFilters, if_pos ht, List.forall₂_nil_right_iff] at hbetween
      rw [hbetween, List.append_nil, hfilters]
      exact ⟨[], _, rfl, Carried.all_refl _, .none hleaves⟩
  | @filtered _ predicates ht hnew hn =>
      have hstands : old.Stands g t x := .filtered ht hnew hn
      cases htaken : g.takesOff x true true with
      | true =>
          have hoperand : g.operand x true true = g.peel x := by rw [operand, htaken]; rfl
          obtain ⟨hchain, hpredicates⟩ := hstands.predicates hold hg e
          have hnone := aggregates_operand hg e x true true
          have htable : old.Has (g.peel x).table := by
            rw [hstands.peel_table hg, e.peel_eq hold hg ht]
            exact hold.has_peel ht
          rw [hoperand] at hnone ⊢
          rw [e.joinTree_eq hold hg htable] at hnone ⊢
          rw [Descent.filters_under_of_not hnone, filters_joinTree hold, hchain, hpredicates,
            List.append_assoc]
          refine ⟨[], _, rfl, ?_, .none (hold.has_joinTree htable).1⟩
          exact List.rel_append (Carried.all_refl _) (List.rel_append (Carried.all_refl _) hbetween)
      | false =>
          have hoperand : g.operand x true true = ⟨x, [], []⟩ := by rw [operand, htaken]; rfl
          have hjoin : g.isJoin x = false := by rw [isJoin, hn]
          rw [hoperand, joinTree_other hg hjoin]
          rw [addedFilters, if_neg hnew] at hbetween
          refine ⟨between, [], (List.append_nil _).symm, .nil, .added rfl hnew ?_ hbetween⟩
          rintro rfl
          exact hsome hnew (List.forall₂_nil_left_iff.mp hbetween)

/-- Sorts below a projection do not change that. -/
theorem keeps_sorted (hg : g.WellFounded) (hold : old.WellFounded) (e : old.Extends g)
    {fused between : List NodeId} {t x : NodeId} (hx : old.Stands g t x)
    (hsome : ¬ old.Has x → g.predicatesOf x ≠ [])
    (hbetween : List.Forall₂ (g.Carried fused) between (old.addedFilters g x)) :
  old.KeepsBelow g fused between (g.operand (g.chain sortInput? x).2 true true)
  := by
  cases hx with
  | itself ht =>
      have hbelow : old.Has (g.chain sortInput? t).2 := by
        rw [e.chain_eq follows_sort hold hg ht]
        exact hold.has_chain follows_sort ht
      apply keeps_operand hg hold e (.itself hbelow) (fun hnew => absurd hbelow hnew)
      rw [addedFilters, if_pos ht] at hbetween
      rw [addedFilters, if_pos hbelow]
      exact hbetween
  | filtered ht hnew hn =>
      rw [chain_end follows_sort hg (by rw [hn]; rfl)]
      exact keeps_operand hg hold e (.filtered ht hnew hn) hsome hbetween

/-- The predicates of the selections between fused projections are taken over or kept with those
below. -/
theorem keeps_fusions (hg : g.WellFounded) (hold : old.WellFounded) (e : old.Extends g)
    {core input p : NodeId} {items : List NodeId} (hcore : g.node core = .projection input items)
    {top : NodeId} {outer : List NodeId} {fs : List Fused} (hfuses : g.FusesTo p fs core)
    (hadded : (p :: fs.map Fused.node).IsChain (old.Adds g))
    (hp : g.node p = .projection top outer) (htop : old.Has top) {fused : List NodeId}
    (hsub : ∀ n ∈ fusions fs, n ∈ fused) :
  old.KeepsBelow g fused (old.filtersOf (p :: fusions fs))
    (g.operand (g.chain sortInput? input).2 true true)
  := by
  have hnil : List.Forall₂ (g.Carried fused) [] (old.addedFilters g top) := by
    rw [addedFilters, if_pos htop]
    exact .nil
  have hnone : old.filtersOf [p] = [] := by
    apply filtersOf_eq_nil e
    simp [hp, Node.operator?]
  obtain ⟨t, hinput, hsome, hbetween⟩ := carried_fusions hg hold e hcore hfuses hadded hp
    (.itself htop) [] hsub (absurd htop) hnil
  rw [← List.singleton_append, filtersOf_append, hnone]
  exact keeps_sorted hg hold e hinput hsome hbetween

end Graph

namespace Block

/-- The predicates on the way through the core of a block to its FROM clause are taken over: those
above an aggregation by the HAVING clause, and the others by the WHERE clause, unless a table of
the FROM clause keeps them. -/
theorem Layout.filters (hg : g.WellFounded) (hold : old.WellFounded) (e : old.Extends g)
    (hnode : old.Has node) {c : Clauses} {ops : List NodeId} {source : NodeId}
    (h : Layout old g node c ops source) {fused : List NodeId} (hsub : ∀ n ∈ ops, n ∈ fused)
    {d : Descent} (hd : d = (g.joinTree source).descent.under ops) :
  (∃ kept rest, d.filters old = kept ++ rest ∧ List.Forall₂ (g.Carried fused) rest c.predicates
      ∧ old.Keeps g fused d.leaves kept)
    ∧ c.having = d.operators.flatMap old.havingOf ++ d.groupFilters old
  := by
  have hpeel := Graph.filtersOf_peel hold hg e hnode
  have hhas : old.Has (g.peel node).table := by
    rw [e.peel_eq hold hg hnode]
    exact hold.has_peel hnode
  have hchain : (g.peel node).chain.any old.isAggregation = false :=
    Graph.any_isAggregation e ((Graph.all_peel hg node).ne (by decide))
  subst hd
  rw [Descent.leaves_under, JoinTree.leaves_descent]
  cases h with
  | @aggregation input keys metrics having hn hpredicates hhaving =>
      have htable : old.node (g.peel node).table = .aggregation input keys metrics having := by
        rw [← e.node_eq hhas, hn]
      have hinput : old.Has input := by
        apply hold.has_child hhas
        rw [htable]
        exact List.mem_cons_self
      obtain ⟨hfilters, hleaves⟩ := Graph.filters_operand hg hold e hinput true true
      obtain ⟨hrows, hgroups, hconditions⟩ := Graph.filters_aggregation
        (Graph.aggregates_operand hg e input true true) (by rw [Graph.isAggregation, htable]; rfl)
        hchain
      rw [Graph.havingOf, htable] at hconditions
      rw [Descent.under_append, Descent.under_append]
      refine ⟨⟨[], _, rfl, ?_, .none hleaves⟩, ?_⟩
      · rw [hpredicates, ← hfilters, ← hrows]
        exact Graph.Carried.all_refl _
      · rw [hhaving, ← hpeel]
        exact congrArg₂ List.append hconditions.symm hgroups.symm
  | @projection fs core top input outer selections hn hfuses hadded hcore hpredicates hhaving =>
      have htop : old.Has top := by
        apply hold.has_child hhas
        rw [← e.node_eq hhas, hn]
        exact List.mem_cons_self
      have hsorts := Graph.all_sorts hg input
      have hrun := Graph.aggregates_fusions hg hold e hcore hfuses hadded hn (.itself htop)
      have hfolded : ∀ n ∈ Graph.fusions fs, n ∈ fused := by
        intro n hn
        apply hsub
        simp [hn]
      obtain ⟨kept, rest, hfilters, hrest, hkeeps⟩ :=
        Graph.keeps_fusions hg hold e hcore hfuses hadded hn htop hfolded
      have hnone : ((g.joinTree (g.operand (g.chain Graph.sortInput? input).2 true true).table
          ).descent.under ((g.peel node).chain ++ ((g.peel node).table :: Graph.fusions fs)
            ++ (g.chain Graph.sortInput? input).1
            ++ (g.operand (g.chain Graph.sortInput? input).2 true true).chain)).aggregates old
          = false := by
        rw [Descent.under_append, Descent.aggregates_under, Graph.aggregates_operand hg e,
          List.any_append, List.any_append, hchain, hrun,
          Graph.any_isAggregation e (hsorts.ne (by decide))]
        rfl
      refine ⟨⟨kept, rest ++ (g.peel node).predicates, ?_, ?_, hkeeps⟩, ?_⟩
      · rw [Descent.under_append] at hnone ⊢
        rw [Descent.filters_under_of_not hnone, Graph.filtersOf_append, Graph.filtersOf_append,
          Graph.filtersOf_eq_nil e (hsorts.ne (by decide)), hpeel, List.nil_append,
          ← List.append_assoc, hfilters, List.append_assoc]
      · rw [hpredicates]
        exact List.rel_append hrest (Graph.Carried.all_refl _)
      · rw [hhaving, Graph.having_of_not hnone, Descent.groupFilters_of_not hnone]
        rfl
  | other hpredicates hhaving =>
      have hnone : ((g.joinTree (g.peel node).table).descent.under
          (g.peel node).chain).aggregates old = false := by
        rw [Descent.aggregates_under, Graph.aggregates_joinTree hg e, hchain]
        rfl
      refine ⟨⟨[], _, rfl, ?_, .none ?_⟩, ?_⟩
      · rw [Descent.filters_under_of_not hnone, hpeel, hpredicates, e.joinTree_eq hold hg hhas,
          Graph.filters_joinTree hold]
        exact Graph.Carried.all_refl _
      · rw [e.joinTree_eq hold hg hhas]
        exact (hold.has_joinTree hhas).1
      · rw [hhaving, Graph.having_of_not hnone, Descent.groupFilters_of_not hnone]
        rfl

/-- There is nothing to take over at the top of a table. -/
theorem filters_wayDown (hg : g.WellFounded) (e : old.Extends g) (node : NodeId)
    (ops : List NodeId) (source : NodeId) :
  (wayDown g node ops source).filters old = ((g.joinTree source).descent.under ops).filters old
    ∧ (wayDown g node ops source).groupFilters old
      = ((g.joinTree source).descent.under ops).groupFilters old
    ∧ (wayDown g node ops source).operators.flatMap old.havingOf
      = ((g.joinTree source).descent.under ops).operators.flatMap old.havingOf
  := by
  obtain ⟨limits, sorts, distincts, hfused, hlimits, hsorts, hdistincts, _⟩ := top_stages hg node
  have hothers : ∀ o, o ≠ .limit → o ≠ .sort → o ≠ .distinct →
      ∀ n ∈ (top g node).1.folding.fused, (g.node n).operator? ≠ some o := by
    intro o hlimit hsort hdistinct
    rw [hfused]
    exact List.forall_mem_append.mpr ⟨List.forall_mem_append.mpr
      ⟨hlimits.ne hlimit.symm, hsorts.ne hsort.symm⟩, hdistincts.ne hdistinct.symm⟩
  exact Graph.filters_under_others
    (Graph.filtersOf_eq_nil e (hothers .selection (by decide) (by decide) (by decide)))
    (Graph.any_isAggregation e (hothers .aggregation (by decide) (by decide) (by decide)))

/-- The predicates of the selections on the way from the table of a block down to the tables of
its FROM clause are taken over by the block, each of them once and in order, the innermost first:
those above an aggregation by the HAVING clause, behind the conditions of the aggregation
itself, and the others by the WHERE clause and, if they are rankings, by semi joins, which
stand behind the other joins.  Only when the one table of the FROM clause is a selection that has
been added below fused projections, the predicates of the selections between these are kept
there. -/
theorem ofTable_filters (hg : g.WellFounded) (hnode : g.Has node) {n : Nat}
    {enclosing : List (List NodeId)} {b : Block}
    (hrun : (Block.ofTable (queryWithin n) enclosing node).run g = .ok (b, g')) :
  g.Extends g' ∧ ∃ d table first joins ranked, g.Leads g' node d
    ∧ b.folding.fused = d.operators
    ∧ b.clauses.from? = some ⟨table, first, joins ++ ranked⟩
    ∧ d.leaves = first :: joins.map JoinClause.table
    ∧ (∃ kept rest, d.filters g = kept ++ rest ∧ g.Keeps g' d.operators d.leaves kept
      ∧ List.Forall₂ (b.folding.Lifts .substitute g')
        (rest.filter fun p => !isRanking g p) b.clauses.predicates
      ∧ List.Forall₂ (fun p c => c.Ranks b.folding g' p) (rest.filter (isRanking g)) ranked)
    ∧ List.Forall₂ (b.folding.Lifts .substitute g')
      (d.operators.flatMap g.havingOf ++ d.groupFilters g) b.clauses.having
  := by
  obtain ⟨hg', e, htraced⟩ := (grows_ofTable_traced QuerySpec.compilation_persistent
    QuerySpec.compilation_qualifies (QuerySpec.compilation_meets n) enclosing hg hnode).result
      b g' hrun
  obtain @⟨built, ops, source, hlayout, hfused, hcompleted, hjoins⟩ := htraced
  obtain ⟨table, joins, more, hfrom, hsame, hmore⟩ := hjoins
  have hsub : ∀ n ∈ ops, n ∈ b.folding.fused := by
    intro n hn
    rw [hfused, operators_wayDown]
    exact List.mem_append_left _ (List.mem_append_right _ hn)
  obtain ⟨⟨kept, rest, hfilters, hrest, hkeeps⟩, hhaving⟩ :=
    hlayout.filters hg' hg e (has_top_of_extends hg hg' e hnode) hsub rfl
  obtain ⟨hrows, hgroups, hconditions⟩ := filters_wayDown hg' e node ops source
  have hranking : ∀ p ∈ rest, isRanking g' p = isRanking g p := by
    intro p hp
    apply e.isRanking_eq
    apply hg.has_filters
    rw [hfilters]
    exact List.mem_append_right _ hp
  have hothers : rest.filter (fun p => !isRanking g p) = rest.filter fun p => !isRanking g' p :=
    List.filter_congr fun p hp => by rw [hranking p hp]
  have hrankings : rest.filter (isRanking g) = rest.filter (isRanking g') :=
    List.filter_congr fun p hp => (hranking p hp).symm
  refine ⟨e, wayDown g' node ops source, table, _, joins, more,
    hlayout.leads_wayDown hg' hg e hnode, hfused, hfrom, ?_,
    ⟨kept, rest, hrows.trans hfilters, ?_, ?_, ?_⟩, ?_⟩
  · rw [leaves_wayDown, TableSet.leaves, hsame]
  · rw [← hfused, wayDown, Descent.leaves_under]
    exact hkeeps
  · rw [hothers]
    apply forall₂_comp (List.rel_filter (fun _ _ h => by simp only [h.isRanking_eq hg']) hrest)
      hcompleted.predicates
    exact fun p p' _ c h hl => h.lifts hg' hl
  · rw [hrankings]
    apply forall₂_comp (List.rel_filter (fun _ _ h => by simp only [h.isRanking_eq hg']) hrest)
      hmore
    exact fun p p' _ c h hc => h.ranks hg' hc.1
  · rw [hconditions, hgroups, ← hhaving]
    exact hcompleted.having

end Block

/-- The rows of a filtered projection of a projection, which is of a table. -/
def Graph.keptFilter : Graph := ⟨#[
  .table ⟨some "t", none, ⟨[⟨"x", .double⟩]⟩⟩,
  .column ⟨0⟩ "x",
  .projection ⟨0⟩ [⟨1⟩],
  .column ⟨2⟩ "x",
  .projection ⟨2⟩ [⟨3⟩],
  .column ⟨4⟩ "x",
  .literal (.integer 0),
  .binary .gt ⟨5⟩ ⟨6⟩,
  .selection ⟨4⟩ [⟨7⟩],
  .projection ⟨8⟩ [⟨8⟩]]⟩

/-- The predicate is kept by a selection that is added over the inner projection, and is not in the
WHERE clause. -/
theorem Block.ofTable_filters_keptFilter :
  ∃ b g', (Block.ofTable (queryWithin 3) [] ⟨9⟩).run Graph.keptFilter = .ok (b, g')
    ∧ b.clauses.predicates = [] ∧ b.clauses.having = []
    ∧ Graph.keptFilter.Keeps g' [⟨9⟩, ⟨8⟩, ⟨4⟩, ⟨12⟩] [⟨11⟩] [⟨7⟩]
  := by
  have heval : ((Block.ofTable (queryWithin 3) [] ⟨9⟩).run Graph.keptFilter).toOption.map
      (fun r => (r.1.folding.fused, r.1.clauses.leaves, r.1.clauses.predicates))
      = some ([⟨9⟩, ⟨8⟩, ⟨4⟩, ⟨12⟩], [⟨11⟩], []) := by
    decide +kernel
  obtain ⟨⟨b, g'⟩, hok, hresult⟩ := Option.map_eq_some_iff.mp heval
  have hrun := eq_ok_of_toOption hok
  obtain ⟨hfused, hresult⟩ := Prod.mk.inj hresult
  obtain ⟨hleaves, hpredicates⟩ := Prod.mk.inj hresult
  obtain ⟨_, d, _, first, joins, ranked, _, hoperators, hfrom, hd, hfilters, hhaving⟩ :=
    ofTable_filters (g := Graph.keptFilter) (by decide) (by decide) hrun
  obtain ⟨kept, rest, hsplit, hkeeps, hwhere, _⟩ := hfilters
  have hone : d.leaves = [⟨11⟩] := by
    have htables := hleaves
    simp only [Clauses.leaves, hfrom, TableSet.leaves] at htables
    obtain ⟨rfl, hjoins⟩ := List.cons.inj htables
    rw [hd, (List.append_eq_nil_iff.mp (List.map_eq_nil_iff.mp hjoins)).1]
    rfl
  have hsame : d.operators = [⟨9⟩, ⟨8⟩, ⟨4⟩, ⟨12⟩] := hoperators.symm.trans hfused
  have hway := Descent.eq_under hone
  rw [hsame] at hway
  rw [hway] at hsplit hhaving
  rw [hsame, hone] at hkeeps
  refine ⟨b, g', hrun, hpredicates, ?_, ?_⟩
  · exact List.forall₂_nil_left_iff.mp hhaving
  · rcases List.append_eq_singleton_iff.mp hsplit.symm with ⟨_, rfl⟩ | ⟨rfl, _⟩
    · rw [hpredicates] at hwhere
      cases hwhere
    · exact hkeeps

end RelSql
