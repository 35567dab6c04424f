import RelSql.Proofs.Block.Filters
import RelSql.Proofs.Join.Crossed
import RelSql.Proofs.Output.Folding
import RelSql.Proofs.Statement.Origins

/-!
# Nested reductions

The values of a block are lifted from the items, the predicates and the conditions of the operators
that are folded into it.  A lifted value nests reductions that do not nest in these when a reduction
is over a column that stands for a value with a reduction.  In the block of an aggregation this
happens in the filters above the aggregation only, which aggregate one of its metrics.  In a WHERE
clause a subquery stands for every reduction that has another one below it.
-/

namespace RelSql

open Analysis Relation

/-! ## Reductions of lifted values -/

namespace Folding

variable {s : Folding} {g : Graph} {v v' l : NodeId}

theorem Lifts.nestsIn (hg : g.WellFounded) (h : s.Lifts .substitute g v l) :
  s.NestsIn g v l
  := nestsIn_of_denote hg (h.denote .nests)

/-- An item that a value has been lifted to through some of the operators that are folded resolves
as the value does. -/
theorem LiftsNamed.resolve_eq (hg : g.WellFounded) {fused : List NodeId}
    (h : (Folding.of fused).LiftsNamed .substitute g v v') (hsub : ∀ t ∈ fused, t ∈ s.fused)
    {α : Type} {A : Algebra α} (hA : A.Transparent) :
  (s.resolve .substitute A g v').value = (s.resolve .substitute A g v).value
  := by
  rw [resolve_value hg, h.denote (s.resolving .substitute g A) hA, resolve_value hg,
    resolve_value hg]
  refine Graph.denote_congr hg ?_ ?_ ?_ v fun t name _ => ?_
  · rfl
  · rfl
  · rfl
  · exact resolve_column_of_subset hg hsub A t name

end Folding

namespace Graph

variable {old g : Graph} {s : Folding}

/-- The values that a projection or an aggregation computes. -/
def itemsOf (g : Graph) (id : NodeId) : List NodeId :=
  match g.node id with
  | .projection _ selections => selections
  | .aggregation _ keys metrics _ => keys ++ metrics
  | _ => []

/-- The items of fused projections are lifted from those of the projections that they are fused
from. -/
theorem items_fusions (hg : g.WellFounded) (hold : old.WellFounded) (e : old.Extends g)
    {core input : NodeId} {items : List NodeId} (hcore : g.node core = .projection input items)
    {p x t : NodeId} {outer : List NodeId} {fs : List Fused} (hfuses : g.FusesTo p fs core)
    (hadded : (p :: fs.map Fused.node).IsChain (old.Adds g)) (hp : g.node p = .projection x outer)
    (hx : old.Stands g t x) (hsub : ∀ n ∈ fusions fs, n ∈ s.fused) {α : Type} {A : Algebra α}
    (hA : A.Transparent) :
  ∀ v' ∈ items, g.isRelation v' = false → ∃ v, (v ∈ outer ∨ ∃ n ∈ fusions fs, v ∈ old.itemsOf n)
    ∧ g.isRelation v = false
    ∧ (s.resolve .substitute A g v').value = (s.resolve .substitute A g v).value
  := by
  induction hfuses generalizing t x outer with
  | nil projection =>
      obtain ⟨_, rfl⟩ := Node.projection.inj (hp.symm.trans hcore)
      exact fun v' hv' hvalue => ⟨v', .inl hv', hvalue, rfl⟩
  | @cons projection core f fs h _ ih =>
      obtain ⟨hadds, hrest⟩ := List.isChain_cons_cons.mp hadded
      obtain ⟨table, source, hover⟩ := h.fusesOver hg hold e hadds hp hx
      obtain @⟨_, _, _, _, inner, parts, hprojection, hinner, habsorbed, _, _, hnode, hparts, _⟩ :=
        h
      obtain ⟨rfl, rfl⟩ := Node.projection.inj (hp.symm.trans hprojection)
      obtain ⟨_, hfused⟩ := hover.fused
      obtain ⟨rfl, _⟩ := Node.projection.inj (hfused.symm.trans hnode)
      rw [fusions, List.flatMap_cons, ← fusions, List.forall_mem_append, List.forall_mem_append]
        at hsub
      obtain ⟨⟨habsorbs, _⟩, hsub⟩ := hsub
      -- the inner projection is one of those that are absorbed
      have hbelow : (g.peel t).table ∈ f.absorbed ∧ old.itemsOf (g.peel t).table = inner := by
        rw [hx.peel_table hg] at hinner
        refine ⟨?_, by rw [itemsOf, ← e.node_eq hover.has, hinner]⟩
        rw [hover.absorbed]
        exact List.mem_append_right _ (List.mem_singleton_self _)
      intro v' hv' hvalue
      obtain ⟨v, hv, hplain, hsame⟩ := ih hcore hrest hnode hover.stands hsub v' hv' hvalue
      rw [fusions, List.flatMap_cons, ← fusions]
      rcases hv with hv | ⟨n, hn, hv⟩
      · obtain ⟨part, hpart, hv⟩ := List.mem_flatten.mp hv
        obtain ⟨item, hitem, hlifts⟩ := forall₂_exists hparts.flip part hpart
        cases hlifts with
        | absorbed _ =>
            refine ⟨v, .inr ⟨_, ?_, hbelow.2 ▸ hv⟩, hplain, hsame⟩
            exact List.mem_append_left _ (List.mem_append_left _ hbelow.1)
        | table _ hr =>
            rw [List.mem_singleton.mp hv, hr] at hplain
            cases hplain
        | value _ hr hl =>
            rw [List.mem_singleton.mp hv] at hsame
            exact ⟨item, .inl hitem, hr, hsame.trans
              (hl.resolve_eq hg habsorbs hA)⟩
      · exact ⟨v, .inr ⟨n, List.mem_append_right _ hn, hv⟩, hplain, hsame⟩

end Graph

/-! ## Reductions over columns of a block -/

namespace Folding

variable {s : Folding} {g : Graph} {t v d : NodeId} {name : String}

/-- A reduction of the value is over a column that stands for a value with a reduction. -/
def Reaggregates (s : Folding) (g : Graph) (v : NodeId) : Prop :=
  ∃ r c t name d, g.Occurs v r ∧ (g.node r).isReduction = true ∧ g.Occurs r c
    ∧ g.node c = .column t name ∧ s.StandsFor .substitute g t name d ∧ g.HoldsReduction d

/-- The operator computes the columns of its own. -/
def Computes (g : Graph) (u : NodeId) : Prop :=
  (g.node u).operator? = some .projection ∨ (g.node u).operator? = some .aggregation

/-- Only folded projections and aggregations compute columns. -/
theorem computes_of_fate (h : s.fate .substitute g t name = .value v) :
  s.contains t = true ∧ Computes g t
  := by
  rw [fate] at h
  split at h
  · cases h
  case isFalse hfolded =>
      refine ⟨List.contains_iff_mem.mpr (mem_of_not_kept hfolded), ?_⟩
      cases hn : g.node t <;> rw [hn] at h <;> simp only [reduceCtorEq, if_false] at h
      case projection => exact .inl (by rw [hn]; rfl)
      case aggregation => exact .inr (by rw [hn]; rfl)

/-- No column stands for a value up to where no operator is folded that computes columns. -/
theorem not_standsFor_of_le (hg : g.WellFounded)
    (h : ∀ u : NodeId, u.index ≤ t.index → s.contains u = true → ¬ Computes g u) :
  ¬ s.StandsFor .substitute g t name d
  := by
  intro hd
  obtain ⟨u, hpassed, hvalue⟩ := standsFor_iff.mp hd
  obtain ⟨hfolded, hcomputes⟩ := computes_of_fate hvalue
  exact h u (Passes.le hg hpassed) hfolded hcomputes

/-- A value that comes before all operators that compute columns has no reduction over a column that
stands for a value. -/
theorem not_crosses_of_le (hg : g.WellFounded)
    (h : ∀ u : NodeId, u.index < v.index → s.contains u = true → ¬ Computes g u) :
  ¬ s.Crosses g v
  := by
  rintro ⟨r, c, t, name, d, hr, _, hc, hn, hd, _⟩
  have hlt : t.index < v.index := by
    have hchild : t.index < c.index := by
      apply hg.child_lt
      rw [hn]
      exact List.mem_singleton_self t
    have hle := le_of_unfolds hg (hr.trans (unfolds_of_occurs hc))
    exact Nat.lt_of_lt_of_le hchild hle
  exact not_standsFor_of_le hg (fun u hu => h u (Nat.lt_of_le_of_lt hu hlt)) hd

/-- What stands in the unfolded value occurs in the value, if no column of it stands for another
one. -/
theorem occurs_of_unfolds {w : NodeId} (hg : g.WellFounded)
    (h : ∀ u : NodeId, u.index < v.index → s.contains u = true → ¬ Computes g u)
    (hw : ReflTransGen (s.Unfolds g) v w) :
  g.Occurs v w
  := by
  rcases occurs_or_defined hw with hoccurs | ⟨c, t, name, d, hoccurs, hn, hd, _⟩
  · exact hoccurs
  · have hlt : t.index < v.index := by
      have hchild : t.index < c.index := by
        apply hg.child_lt
        rw [hn]
        exact List.mem_singleton_self t
      exact Nat.lt_of_lt_of_le hchild (le_of_unfolds hg (unfolds_of_occurs (s := s) hoccurs))
    exact absurd hd (not_standsFor_of_le hg fun u hu => h u (Nat.lt_of_le_of_lt hu hlt))

/-- If one folded operator computes columns, a reduction is over one of its columns. -/
theorem crosses_iff_reaggregates (hg : g.WellFounded) {core : NodeId}
    (h : ∀ u, s.contains u = true → Computes g u → u = core) :
  s.Crosses g v ↔ s.Reaggregates g v
  := by
  -- what a column stands for comes before the operator, so that nothing is computed below it
  have hbelow : ∀ {t name d}, s.StandsFor .substitute g t name d → ∀ u : NodeId, u.index < d.index →
      s.contains u = true → ¬ Computes g u := by
    intro t name d hd u hu hfolded hcomputes
    obtain ⟨w, _, hvalue⟩ := standsFor_iff.mp hd
    obtain ⟨hfolded', hcomputes'⟩ := computes_of_fate hvalue
    obtain rfl := h u hfolded hcomputes
    obtain rfl := h w hfolded' hcomputes'
    exact absurd ((fate_lt hg s .substitute w name).2 d hvalue) (Nat.lt_asymm hu)
  constructor
  · rintro ⟨r, c, t, name, d, hr, hreduction, hc, hn, hd, r', hr', hreduction'⟩
    rcases occurs_or_defined hr with hoccurs | ⟨_, _, _, d', _, _, hd', hr⟩
    · exact ⟨r, c, t, name, d, hoccurs, hreduction, hc, hn, hd, r',
        occurs_of_unfolds hg (hbelow hd) hr', hreduction'⟩
    · exact absurd ⟨r, c, t, name, d, hr, hreduction, hc, hn, hd, r', hr', hreduction'⟩
        (not_crosses_of_le hg (hbelow hd'))
  · rintro ⟨r, c, t, name, d, hr, hreduction, hc, hn, hd, r', hr', hreduction'⟩
    exact ⟨r, c, t, name, d, unfolds_of_occurs hr, hreduction, hc, hn, hd, r',
      unfolds_of_occurs hr', hreduction'⟩

end Folding

namespace Block

variable {old g : Graph} {s : Folding} {node source : NodeId} {c : Clauses} {ops : List NodeId}

/-- The values that a block selects are lifted from items of its operators. -/
theorem Layout.items (hg : g.WellFounded) (hold : old.WellFounded) (e : old.Extends g)
    (hnode : old.Has node) (h : Layout old g node c ops source)
    (hsource : g.isRelation source = true) (hsub : ∀ n ∈ ops, n ∈ s.fused) {α : Type}
    {A : Algebra α} (hA : A.Transparent) :
  ∀ v' ∈ c.select, g.isRelation v' = false → ∃ n ∈ ops, ∃ v ∈ old.itemsOf n,
    (s.resolve .substitute A g v').value = (s.resolve .substitute A g v).value
  := by
  have hhas : old.Has (g.peel node).table := by
    rw [e.peel_eq hold hg hnode]
    exact hold.has_peel hnode
  cases h with
  | aggregation hn _ _ hselect =>
      rw [hselect]
      intro v' hv' _
      refine ⟨(g.peel node).table, by simp, v', ?_, rfl⟩
      rw [Graph.itemsOf, ← e.node_eq hhas, hn]
      exact hv'
  | @projection fs core top input outer selections hn hfuses hadded hcore _ _ hselect =>
      have htop : old.Has top := by
        apply hold.has_child hhas
        rw [← e.node_eq hhas, hn]
        exact List.mem_cons_self
      rw [hselect]
      intro v' hv' hvalue
      obtain ⟨v, hv | ⟨n, hn', hv⟩, _, hsame⟩ :=
        Graph.items_fusions hg hold e hcore hfuses hadded hn (.itself htop)
          (fun n hn => hsub n (by simp [hn])) hA v' hv' hvalue
      · refine ⟨(g.peel node).table, by simp, v, ?_, hsame⟩
        rw [Graph.itemsOf, ← e.node_eq hhas, hn]
        exact hv
      · exact ⟨n, by simp [hn'], v, hv, hsame⟩
  | other _ _ hselect =>
      rw [hselect]
      intro v' hv' hvalue
      rw [List.mem_singleton.mp hv', hsource] at hvalue
      cases hvalue

/-! ### Operators that compute columns -/

/-- Other operators compute no columns. -/
theorem not_computes_of_all {o : Operator} (ho : o ≠ .projection ∧ o ≠ .aggregation)
    {nodes : List NodeId} (h : g.All o nodes) :
  ∀ n ∈ nodes, ¬ Folding.Computes g n
  := by
  rintro n hn (hcomputes | hcomputes) <;> rw [h n hn] at hcomputes
  · exact ho.1 (Option.some.inj hcomputes)
  · exact ho.2 (Option.some.inj hcomputes)

/-- What is folded into a block at the top of its table, and in the join tree of its FROM clause,
computes no columns. -/
theorem not_computes_around (hg : g.WellFounded) (node source : NodeId) :
  (∀ u ∈ (top g node).1.folding.fused, ¬ Folding.Computes g u)
    ∧ ∀ u ∈ (g.joinTree source).folded, ¬ Folding.Computes g u
  := by
  obtain ⟨limits, sorts, distincts, hfused, hlimits, hsorts, hdistincts, _⟩ := top_stages hg node
  rw [hfused]
  refine ⟨List.forall_mem_append.mpr ⟨List.forall_mem_append.mpr
    ⟨not_computes_of_all (by decide) hlimits, not_computes_of_all (by decide) hsorts⟩,
    not_computes_of_all (by decide) hdistincts⟩, ?_⟩
  intro u hu
  rw [← JoinTree.operators_descent] at hu
  rintro (hc | hc) <;> rcases Graph.operators_joinTree hg source u hu with hother | hother
    <;> cases hc.symm.trans hother

/-- If an aggregation is among the operators of a block, these are selections but for the
aggregation itself. -/
theorem Layout.aggregates (hg : g.WellFounded) (hold : old.WellFounded) (e : old.Extends g)
    (hnode : old.Has node) (h : Layout old g node c ops source) {n : NodeId} (hn : n ∈ ops)
    (haggregates : old.isAggregation n = true) :
  ∃ input keys metrics having, old.node n = .aggregation input keys metrics having
    ∧ n = (g.peel node).table ∧ source = (g.operand input true true).table
    ∧ ops = (g.peel node).chain ++ [n] ++ (g.operand input true true).chain
  := by
  have hoperator := of_decide_eq_true haggregates
  have hcomputes : (g.node n).operator? = some .aggregation := by
    rw [e.node_eq (Graph.has_of_operator hoperator), hoperator]
  have hpeel := (Graph.all_peel hg node).ne (p := .aggregation) (by decide)
  have hhas : old.Has (g.peel node).table := by
    rw [e.peel_eq hold hg hnode]
    exact hold.has_peel hnode
  cases h with
  | @aggregation input keys metrics having hagg =>
      have hchain := (Graph.all_operand hg input true true).ne (p := .aggregation) (by decide)
      have hone : n = (g.peel node).table := by
        rcases List.mem_append.mp hn with hn | hn
        · rcases List.mem_append.mp hn with hn | hn
          · exact absurd hcomputes (hpeel n hn)
          · exact List.mem_singleton.mp hn
        · exact absurd hcomputes (hchain n hn)
      refine ⟨input, keys, metrics, having, ?_, hone, rfl, by rw [hone]⟩
      rw [hone, ← e.node_eq hhas, hagg]
  | @projection fs core top input outer selections hprojection hfuses hadded hfused =>
      have htop : old.Has top := by
        apply hold.has_child hhas
        rw [← e.node_eq hhas, hprojection]
        exact List.mem_cons_self
      have hnone :=
        Graph.aggregates_fusions hg hold e hfused hfuses hadded hprojection (.itself htop)
      have hsorts := (Graph.all_sorts hg input).ne (p := .aggregation) (by decide)
      have hchain := (Graph.all_operand hg (g.chain Graph.sortInput? input).2 true true).ne
        (p := .aggregation) (by decide)
      rcases List.mem_append.mp hn with hn | hn
      · rcases List.mem_append.mp hn with hn | hn
        · rcases List.mem_append.mp hn with hn | hn
          · exact absurd hcomputes (hpeel n hn)
          · exact absurd haggregates (List.any_eq_false.mp hnone n hn)
        · exact absurd hcomputes (hsorts n hn)
      · exact absurd hcomputes (hchain n hn)
  | other => exact absurd hcomputes (hpeel n hn)

/-- An aggregation that is folded is the only operator that computes columns, and comes behind its
values and behind the predicates below it. -/
theorem Layout.alone (hg : g.WellFounded) (hold : old.WellFounded) (e : old.Extends g)
    (hnode : old.Has node) (h : Layout old g (top g node).2 c ops source) {n : NodeId}
    (hn : n ∈ (wayDown g node ops source).operators) (haggregates : old.isAggregation n = true) :
  (∀ u ∈ (wayDown g node ops source).operators, Folding.Computes g u → u = n)
    ∧ ∀ v ∈ old.itemsOf n ++ old.havingOf n ++ (wayDown g node ops source).filters old,
      v.index < n.index
  := by
  have hoperator := of_decide_eq_true haggregates
  have hcomputes : Folding.Computes g n :=
    .inr (by rw [e.node_eq (Graph.has_of_operator hoperator), hoperator])
  obtain ⟨htop, htree⟩ := not_computes_around hg node source
  have hcore : ∀ u ∈ (wayDown g node ops source).operators, Folding.Computes g u → u ∈ ops := by
    intro u hu hc
    rw [operators_wayDown] at hu
    rcases List.mem_append.mp hu with hu | hu
    · exact (List.mem_append.mp hu).resolve_left fun hu => htop u hu hc
    · exact absurd hc (htree u hu)
  obtain ⟨input, keys, metrics, having, hagg, htable, rfl, rfl⟩ :=
    h.aggregates hg hold e (has_top_of_extends hold hg e hnode) (hcore n hn hcomputes) haggregates
  have hpeel := not_computes_of_all (by decide) (Graph.all_peel hg (top g node).2)
  have hchain := not_computes_of_all (by decide) (Graph.all_operand hg input true true)
  refine ⟨fun u hu hc => ?_, ?_⟩
  · rcases List.mem_append.mp (hcore u hu hc) with hu | hu
    · exact List.mem_singleton.mp ((List.mem_append.mp hu).resolve_left fun hu => hpeel u hu hc)
    · exact absurd hc (hchain u hu)
  have hhas := Graph.has_of_operator hoperator
  have hchild : ∀ v ∈ input :: (keys ++ metrics ++ having), v.index < n.index := by
    intro v hv
    apply hold.child_lt
    rw [hagg]
    exact hv
  obtain ⟨hinput, hvalues⟩ := List.forall_mem_cons.mp hchild
  have hhasInput : old.Has input := Nat.lt_trans hinput hhas
  obtain ⟨hfilters, _⟩ := Graph.filters_operand hg hold e hhasInput true true
  obtain ⟨hrows, _⟩ := Graph.filters_aggregation (Graph.aggregates_operand hg e input true true)
    haggregates (Graph.any_isAggregation e ((Graph.all_peel hg (top g node).2).ne (by decide)))
  rw [(filters_wayDown hg e node _ _).1, Descent.under_append, Descent.under_append]
  have hbelow := hrows.trans hfilters
  rw [Graph.itemsOf, Graph.havingOf, hagg]
  refine List.forall_mem_append.mpr ⟨hvalues, fun v hv => ?_⟩
  have hv' := hbelow ▸ hv
  refine Nat.lt_trans ?_ hinput
  rcases List.mem_append.mp hv' with hv' | hv'
  · exact Nat.lt_of_lt_of_le (hg.lt_of_mem_hoisted _ v hv') (hg.operand_le input true true)
  · exact hg.lt_of_mem_operand_predicates input true true v hv'

/-! ### The reductions of a block -/

/-- The values of a block nest reductions that nest in the items, the predicates and the conditions
of its operators `d`, or that its lifting brings below each other.  This happens to none of them if
no operator computes columns, and above an aggregation to the predicates that aggregate its metrics
only.  In a WHERE clause a subquery stands for every reduction that has another one below it. -/
structure NestsReductions (old g : Graph) (d : Descent) (b : Block) : Prop where
  select : ∀ l ∈ b.clauses.select, (∃ t, g.isRelation t = true ∧ l = b.folding.star g t)
    ∨ ∃ n ∈ d.operators, ∃ v ∈ old.itemsOf n, b.folding.NestsIn g v l
  predicates : ∀ l ∈ b.clauses.predicates, ∃ v ∈ d.filters old, b.folding.NestsIn g v l
  having : ∀ l ∈ b.clauses.having,
    ∃ v ∈ d.operators.flatMap old.havingOf ++ d.groupFilters old, b.folding.NestsIn g v l
  replaced : ∀ l ∈ b.clauses.predicates, ∀ r r', g.Occurs l r → (g.node r).isReduction = true →
    g.Occurs r r' → r' ≠ r → ∃ s ∈ b.nested, g.Extracts l s.node ∧ g.Occurs s.node r
  grouped : ∀ n ∈ d.operators, old.isAggregation n = true →
    (∀ v ∈ old.itemsOf n ++ old.havingOf n ++ d.filters old, ¬ b.folding.Crosses g v)
      ∧ ∀ v, b.folding.Crosses g v ↔ b.folding.Reaggregates g v
  plain : (∀ n ∈ d.operators, ¬ Folding.Computes g n) → ∀ v, ¬ b.folding.Crosses g v

end Block

/-- A reduction over a value is extracted with what it is below. -/
theorem Graph.exists_extracted {g : Graph} (hg : g.WellFounded) {p r : NodeId} (hp : g.Has p)
    (h : g.Occurs p r) (hreduction : (g.node r).isReduction = true)
    (hoperator : (g.node r).isOperator = true) :
  ∃ v, g.Extracts p v ∧ g.Occurs v r
  := by
  induction h with
  | refl id =>
      have hplain : (g.node id).isPlain = true := by
        cases hn : g.node id <;> rw [hn] at hreduction hoperator
          <;> first | rfl | (cases hreduction; done) | cases hoperator
      refine ⟨id, .scalar hplain ?_, .refl id⟩
      have hreads : g.denote .plainReads id = false := by
        rw [Graph.denote_operator hg _ hoperator]
        simp [Algebra.plainReads, hreduction]
      have hreduces : g.denote .reductions id = true := by
        rw [Graph.denote_operator hg _ hoperator]
        simp [Algebra.reductions, hreduction]
      rw [Block.isScalar, hasReduction_eq hg hp, readsOutsideReductions_eq hg hp, hreads, hreduces]
      rfl
  | @operand id c r ho hc hr ih =>
      obtain ⟨v, hv, hoccurs⟩ := ih (hg.has_child hp hc) hreduction hoperator
      have hwhole : g.Occurs id r := .operand ho hc hr
      cases hn : g.node id with
      | any q => exact ⟨id, .any hn, hwhole⟩
      | contains arg options negated =>
          cases options with
          | column column => exact ⟨id, .column hn, hwhole⟩
          | list values =>
              rw [hn] at hc
              exact ⟨v, .option hn hc hv, hoccurs⟩
      | _ =>
          have hplain : (g.node id).isPlain = true := by
            rw [hn] at ho ⊢
            exact ho
          cases hs : Block.isScalar g id with
          | true => exact ⟨id, .scalar hplain hs, hwhole⟩
          | false => exact ⟨v, .operand hplain hs hc hv, hoccurs⟩

namespace Block

variable {Q : QuerySpec} {old g : Graph} {node : NodeId} {b : Block}

/-- What the FROM clause of a block is drawn from is a table. -/
theorem Completed.isRelation_source (hg : g.WellFounded) {built : Block} {source : NodeId}
    (h : Completed Q built (g.joinTree source).tables g b) :
  g.isRelation source = true
  := by
  cases hjoin : g.isJoin source with
  | true =>
      obtain ⟨_, _, _, _, hn⟩ := Graph.eq_join hjoin
      rw [Graph.isRelation, hn]
      rfl
  | false =>
      obtain ⟨_, _, _, hfrom, _⟩ := h.source
      rw [Graph.joinTree_other hg hjoin] at hfrom
      refine (h.sourced source ?_).isRelation h.nested
      rw [Clauses.leaves, hfrom]
      exact List.mem_cons_self

/-- In a WHERE clause a subquery stands for what holds a reduction with operands. -/
theorem Completed.replaced (hg : g.WellFounded) {built : Block} {t : TableSet}
    (h : Completed Q built t g b) {l r : NodeId} (hl : l ∈ b.clauses.predicates)
    (hr : g.Occurs l r) (hreduction : (g.node r).isReduction = true)
    (hoperator : (g.node r).isOperator = true) :
  ∃ s ∈ b.nested, g.Extracts l s.node ∧ g.Occurs s.node r
  := by
  obtain ⟨v, hv, hoccurs⟩ :=
    Graph.exists_extracted hg (h.valid.predicates l hl) hr hreduction hoperator
  have hfound := h.found l hl v hv
  rw [nestedFor?, List.find?_isSome] at hfound
  obtain ⟨s, hs, hsame⟩ := hfound
  have hsame : s.node = v := by simpa using hsame
  exact ⟨s, hs, hsame ▸ hv, hsame ▸ hoccurs⟩

/-- The reductions of the block of a table. -/
theorem Origin.nests (hg : g.WellFounded) (h : Origin old g node b) :
  ∃ d, old.Leads g node d ∧ b.folding.fused = d.operators ∧ b.NestsReductions old g d
  := by
  obtain ⟨built, ops, source, hlayout, hfused, _, hcompleted, _⟩ := h.layout hg
  obtain ⟨hold, e, hnode, _⟩ := h
  have htop := has_top_of_extends hold hg e hnode
  have hsub : ∀ n ∈ ops, n ∈ b.folding.fused := by
    intro n hn
    rw [hfused]
    exact List.mem_append_left _ (List.mem_append_right _ hn)
  rw [← operators_wayDown] at hfused
  have hcontains : ∀ u, b.folding.contains u = true →
      u ∈ (wayDown g node ops source).operators := by
    intro u hu
    rw [← hfused]
    exact List.contains_iff_mem.mp hu
  obtain ⟨⟨kept, rest, hfilters, hrest, _⟩, hhaving⟩ := hlayout.filters hg hold e htop hsub rfl
  obtain ⟨hrows, hgroups, hconditions⟩ := filters_wayDown hg e node ops source
  refine ⟨_, hlayout.leads_wayDown hg hold e hnode, hfused, ?_, ?_, ?_, ?_, ?_, ?_⟩
  · intro l hl
    obtain ⟨v', hv', hselected⟩ := forall₂_exists hcompleted.select.flip l hl
    cases hselected with
    | star hr _ => exact .inl ⟨v', hr, rfl⟩
    | value hr hl =>
        obtain ⟨n, hn, v, hv, hsame⟩ := hlayout.items hg hold e htop
          (hcompleted.isRelation_source hg) hsub Algebra.nests_transparent v' hv' hr
        refine .inr ⟨n, ?_, v, hv, ?_⟩
        · rw [← hfused]
          exact hsub n hn
        · apply Folding.nestsIn_of_denote hg
          exact (hl.denote .nests Algebra.nests_transparent).trans hsame
  · intro l hl
    obtain ⟨p', hp', hlifts⟩ := forall₂_exists hcompleted.predicates.flip l hl
    obtain ⟨p, hp, hcarried⟩ := forall₂_exists hrest.flip p' (List.mem_filter.mp hp').1
    refine ⟨p, ?_, (hcarried.lifts hg hlifts).nestsIn hg⟩
    rw [hrows, hfilters]
    exact List.mem_append_right _ hp
  · intro l hl
    obtain ⟨p, hp, hlifts⟩ := forall₂_exists hcompleted.having.flip l hl
    rw [hhaving, ← hconditions, ← hgroups] at hp
    exact ⟨p, hp, hlifts.nestsIn hg⟩
  · intro l hl r r' hr hreduction hr' hne
    have hoperator : (g.node r).isOperator = true := by
      by_contra hleaf
      exact hne (hr'.eq_of_leaf (Bool.eq_false_iff.mpr hleaf))
    exact hcompleted.replaced hg hl hr hreduction hoperator
  · intro n hn haggregates
    obtain ⟨hone, hlt⟩ := hlayout.alone hg hold e hnode hn haggregates
    refine ⟨fun v hv => Folding.not_crosses_of_le hg fun u hu hfolded hcomputes => ?_, fun v =>
      Folding.crosses_iff_reaggregates hg fun u hu => hone u (hcontains u hu)⟩
    rw [hone u (hcontains u hfolded) hcomputes] at hu
    exact absurd (hlt v hv) (Nat.lt_asymm hu)
  · intro hnone v
    exact Folding.not_crosses_of_le hg fun u _ hfolded => hnone u (hcontains u hfolded)

end Block

/-- The reductions of every block of a statement. -/
theorem Graph.analyze_nests {g : Graph} (hg : g.WellFounded) {root : NodeId} (hroot : g.Has root)
    {st : Statement} (h : g.analyze root = .ok st) {outer : List Select} {b : Select}
    (hb : st.Holds outer b) (hfrom : b.clauses.from? ≠ none) :
  ∃ old node B d, b.OriginatesFrom old st.graph node B ∧ old.Leads st.graph node d
    ∧ B.folding.fused = d.operators ∧ B.NestsReductions old st.graph d
  := by
  obtain ⟨_, hg', _⟩ := analyze_rooted QuerySpec.compilation_meets_queryOf hg hroot h
  obtain ⟨old, node, B, horigin⟩ := analyze_origins hg hroot h hb hfrom
  obtain ⟨d, hleads, hfused, hnests⟩ := horigin.origin.nests hg'
  exact ⟨old, node, B, d, horigin, hleads, hfused, hnests⟩

/-- The groups of an aggregation whose total is above the mean of the totals. -/
def Graph.aboveMeanTotal : Graph := ⟨#[
  .table ⟨some "t", none, ⟨[⟨"k", .int32⟩, ⟨"x", .int32⟩]⟩⟩,
  .column ⟨0⟩ "k",
  .column ⟨0⟩ "x",
  .reduction .sum ⟨2⟩,
  .named ⟨3⟩ "s",
  .aggregation ⟨0⟩ [⟨1⟩] [⟨4⟩] [],
  .column ⟨5⟩ "s",
  .reduction .mean ⟨6⟩,
  .binary .gt ⟨6⟩ ⟨7⟩,
  .selection ⟨5⟩ [⟨8⟩]]⟩

/-- The HAVING clause takes the mean of a sum. -/
theorem Graph.analyze_nests_aboveMeanTotal :
  ∃ st b, aboveMeanTotal.analyze ⟨9⟩ = .ok st ∧ st.Holds [] b
    ∧ (∃ l ∈ b.clauses.having, st.graph.NestsReductions l)
    ∧ ∃ old node B d, b.OriginatesFrom old st.graph node B ∧ old.Leads st.graph node d
      ∧ B.folding.fused = d.operators ∧ B.NestsReductions old st.graph d
  := by
  have hrun : (aboveMeanTotal.analyze ⟨9⟩).toOption.map (fun st =>
      (st.query.first.clauses.having, st.query.first.clauses.leaves,
        [11, 10, 3].map fun i => st.graph.node ⟨i⟩))
      = some ([⟨11⟩], [⟨0⟩],
        [.binary .gt ⟨3⟩ ⟨10⟩, .reduction .mean ⟨3⟩, .reduction .sum ⟨2⟩]) := by
    decide
  obtain ⟨st, hst, hvalues⟩ := Option.map_eq_some_iff.mp hrun
  obtain ⟨hhaving, hvalues⟩ := Prod.mk.inj hvalues
  obtain ⟨hleaves, hnodes⟩ := Prod.mk.inj hvalues
  simp only [List.map_cons, List.map_nil, List.cons.injEq, and_true] at hnodes
  obtain ⟨hcompared, hmean, htotal⟩ := hnodes
  have hok := eq_ok_of_toOption hst
  have hb : st.Holds [] st.query.first := .inl st.query.holds_first
  refine ⟨st, _, hok, hb, ⟨⟨11⟩, by rw [hhaving]; exact List.mem_singleton_self _, ?_⟩, ?_⟩
  · refine ⟨⟨10⟩, ⟨3⟩, ?_, by rw [hmean]; rfl, ?_, by decide, by rw [htotal]; rfl⟩
    · exact .operand (by rw [hcompared]; rfl) (by rw [hcompared]; decide) (.refl _)
    · exact .operand (by rw [hmean]; rfl) (by rw [hmean]; decide) (.refl _)
  · refine @analyze_nests aboveMeanTotal (by decide) ⟨9⟩ (by decide) st hok [] _ hb ?_
    intro hnone
    rw [Clauses.leaves, hnone] at hleaves
    cases hleaves

end RelSql
