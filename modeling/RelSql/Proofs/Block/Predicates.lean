import RelSql.Proofs.Block.Boundaries
import RelSql.Proofs.Nesting.Values

/-!
# Predicates on the way to a FROM clause

The predicates of the selections on the way from a table down to a FROM clause, in order: those
that filter rows, and those above an aggregation, which filter groups.  Predicates are carried
along when selections are moved through fused projections, which lifts them, and a lifted
predicate is a ranking when the given one is.
-/

namespace RelSql

open Analysis

variable {old g : Graph} {s : Folding} {p p' : NodeId}

/-! ### Predicates on the way -/

namespace Graph

/-- Whether a node is an aggregation. -/
def isAggregation (g : Graph) (id : NodeId) : Bool :=
  (g.node id).operator? = some .aggregation

/-- The conditions that an aggregation has itself. -/
def havingOf (g : Graph) (id : NodeId) : List NodeId :=
  match g.node id with
  | .aggregation _ _ _ having => having
  | _ => []

/-- The predicates of the selections of a chain, those of the innermost one first. -/
def filtersOf (g : Graph) (chain : List NodeId) : List NodeId :=
  chain.reverse.flatMap g.predicatesOf

end Graph

namespace Descent

/-- Whether there is an aggregation on the way. -/
def aggregates (g : Graph) (d : Descent) : Bool :=
  d.operators.any g.isAggregation

/-- The predicates of the selections on the way that are not above an aggregation, the innermost
ones first. -/
def filters (g : Graph) : Descent → List NodeId
  | .leaf _ => []
  | .step n d => if d.aggregates g then d.filters g else d.filters g ++ g.predicatesOf n
  | .join _ l r => l.filters g ++ r.filters g

/-- The predicates of the selections on the way that are above an aggregation, the innermost
ones first. -/
def groupFilters (g : Graph) : Descent → List NodeId
  | .leaf _ => []
  | .step n d => if d.aggregates g then d.groupFilters g ++ g.predicatesOf n else d.groupFilters g
  | .join _ l r => l.groupFilters g ++ r.groupFilters g

theorem aggregates_under (d : Descent) (chain : List NodeId) :
  (d.under chain).aggregates g = (chain.any g.isAggregation || d.aggregates g)
  := by
  rw [aggregates, operators_under, List.any_append, aggregates]

/-- Without an aggregation on the way no predicate is above one. -/
theorem groupFilters_of_not {d : Descent} (h : d.aggregates g = false) :
  d.groupFilters g = []
  := by
  induction d with
  | leaf t => rfl
  | step n d ih =>
      rw [aggregates, operators, List.any_cons, Bool.or_eq_false_iff] at h
      rw [groupFilters, aggregates, h.2]
      exact ih h.2
  | join n l r ihl ihr =>
      rw [aggregates, operators, List.any_cons, List.any_append, Bool.or_eq_false_iff,
        Bool.or_eq_false_iff] at h
      rw [groupFilters, ihl h.2.1, ihr h.2.2]
      rfl

/-- Without an aggregation below operators their predicates are those of the selections. -/
theorem filters_under_of_not {d : Descent} {chain : List NodeId}
    (h : (d.under chain).aggregates g = false) :
  (d.under chain).filters g = d.filters g ++ g.filtersOf chain
  := by
  induction chain with
  | nil => exact (List.append_nil _).symm
  | cons n chain ih =>
      rw [aggregates_under, List.any_cons, Bool.or_assoc, Bool.or_eq_false_iff,
        ← aggregates_under] at h
      rw [under, List.foldr_cons, ← under, filters, if_neg (Bool.eq_false_iff.mp h.2), ih h.2]
      simp [Graph.filtersOf]

/-- Above an aggregation the predicates of selections are apart. -/
theorem filters_under {d : Descent} (h : d.aggregates g = true) (chain : List NodeId) :
  (d.under chain).filters g = d.filters g
    ∧ (d.under chain).groupFilters g = d.groupFilters g ++ g.filtersOf chain
  := by
  induction chain with
  | nil => exact ⟨rfl, (List.append_nil _).symm⟩
  | cons n chain ih =>
      have hbelow : (d.under chain).aggregates g = true := by rw [aggregates_under, h, Bool.or_true]
      rw [under, List.foldr_cons, ← under, filters, groupFilters, if_pos hbelow, if_pos hbelow,
        ih.1, ih.2]
      simp [Graph.filtersOf]

end Descent

namespace Graph

/-! ### Operators of another graph -/

/-- A node that a graph has not is no operator of it. -/
theorem has_of_operator {n : NodeId} {o : Operator} (h : (old.node n).operator? = some o) :
  old.Has n
  := by
  apply has_of_node rfl
  intro hn
  rw [hn] at h
  cases h

theorem operator_of_selection {n : NodeId} (h : old.predicatesOf n ≠ []) :
  (old.node n).operator? = some .selection
  := by
  rw [predicatesOf] at h
  split at h
  case h_1 hn => rw [hn]; rfl
  · exact absurd rfl h

theorem operator_of_having {n : NodeId} (h : old.havingOf n ≠ []) :
  (old.node n).operator? = some .aggregation
  := by
  rw [havingOf] at h
  split at h
  case h_1 hn => rw [hn]; rfl
  · exact absurd rfl h

/-- Nodes that are not selections have no predicates. -/
theorem filtersOf_eq_nil (e : old.Extends g) {nodes : List NodeId}
    (h : ∀ n ∈ nodes, (g.node n).operator? ≠ some .selection) :
  old.filtersOf nodes = []
  := by
  rw [filtersOf, List.flatMap_eq_nil_iff]
  intro n hn
  by_contra hne
  have hselection := operator_of_selection hne
  rw [← e.node_eq (has_of_operator hselection)] at hselection
  exact h n (List.mem_reverse.mp hn) hselection

/-- Nodes that are not aggregations do not aggregate. -/
theorem any_isAggregation (e : old.Extends g) {nodes : List NodeId}
    (h : ∀ n ∈ nodes, (g.node n).operator? ≠ some .aggregation) :
  nodes.any old.isAggregation = false
  := by
  rw [List.any_eq_false]
  intro n hn haggregation
  have hoperator := of_decide_eq_true haggregation
  rw [← e.node_eq (has_of_operator hoperator)] at hoperator
  exact h n hn hoperator

theorem All.ne {o p : Operator} (ho : o ≠ p) {nodes : List NodeId} (h : g.All o nodes) :
  ∀ n ∈ nodes, (g.node n).operator? ≠ some p
  := by
  intro n hn hother
  rw [h n hn] at hother
  exact ho (Option.some.inj hother)

theorem filtersOf_append (chain chain' : List NodeId) :
  g.filtersOf (chain ++ chain') = g.filtersOf chain' ++ g.filtersOf chain
  := by
  rw [filtersOf, List.reverse_append, List.flatMap_append]
  rfl

/-- Without an aggregation on the way there are no conditions of one. -/
theorem having_of_not {nodes : List NodeId} (h : nodes.any g.isAggregation = false) :
  nodes.flatMap g.havingOf = []
  := by
  rw [List.flatMap_eq_nil_iff]
  intro n hn
  by_contra hne
  exact List.any_eq_false.mp h n hn (decide_eq_true (operator_of_having hne))

/-- On a way that leads through an aggregation, the predicates above it are those of the
selections there, and the conditions are its own. -/
theorem filters_aggregation {d : Descent} {n : NodeId} {chain : List NodeId}
    (hd : d.aggregates g = false) (hn : g.isAggregation n = true)
    (hchain : chain.any g.isAggregation = false) :
  ((Descent.step n d).under chain).filters g = d.filters g
    ∧ ((Descent.step n d).under chain).groupFilters g = g.filtersOf chain
    ∧ ((Descent.step n d).under chain).operators.flatMap g.havingOf = g.havingOf n
  := by
  have habove : (Descent.step n d).aggregates g = true := by
    rw [Descent.aggregates, Descent.operators, List.any_cons, hn, Bool.true_or]
  have hnone : g.predicatesOf n = [] := by
    by_contra hne
    have hselection := operator_of_selection hne
    rw [of_decide_eq_true hn] at hselection
    cases hselection
  obtain ⟨hfilters, hgroups⟩ := Descent.filters_under habove chain
  rw [hfilters, hgroups, Descent.filters, Descent.groupFilters, hd, hnone,
    Descent.groupFilters_of_not hd, Descent.operators_under, Descent.operators,
    List.flatMap_append, List.flatMap_cons, having_of_not hchain, having_of_not hd]
  simp

/-- Other operators above change nothing. -/
theorem filters_under_others {d : Descent} {chain : List NodeId} (hfilters : g.filtersOf chain = [])
    (hchain : chain.any g.isAggregation = false) :
  (d.under chain).filters g = d.filters g
    ∧ (d.under chain).groupFilters g = d.groupFilters g
    ∧ (d.under chain).operators.flatMap g.havingOf = d.operators.flatMap g.havingOf
  := by
  have hconditions : (d.under chain).operators.flatMap g.havingOf
      = d.operators.flatMap g.havingOf := by
    rw [Descent.operators_under, List.flatMap_append, having_of_not hchain, List.nil_append]
  cases hd : d.aggregates g with
  | true =>
      obtain ⟨hrows, hgroups⟩ := Descent.filters_under hd chain
      rw [hfilters, List.append_nil] at hgroups
      exact ⟨hrows, hgroups, hconditions⟩
  | false =>
      have hnone : (d.under chain).aggregates g = false := by
        rw [Descent.aggregates_under, hchain, hd]
        rfl
      rw [Descent.filters_under_of_not hnone, hfilters, List.append_nil,
        Descent.groupFilters_of_not hnone, Descent.groupFilters_of_not hd]
      exact ⟨rfl, rfl, hconditions⟩

/-- The predicates on the way are there. -/
theorem WellFounded.has_filters (hg : g.WellFounded) (d : Descent) :
  ∀ p ∈ d.filters g, g.Has p
  := by
  induction d with
  | leaf t => exact List.forall_mem_nil _
  | step n d ih =>
      rw [Descent.filters]
      split
      · exact ih
      · refine List.forall_mem_append.mpr ⟨ih, fun p hp => ?_⟩
        rw [predicatesOf] at hp
        split at hp
        case h_1 t predicates hn =>
            apply hg.has_child (has_of_node hn (by simp))
            rw [hn]
            exact List.mem_cons_of_mem _ hp
        · exact absurd hp List.not_mem_nil
  | join n l r ihl ihr => exact List.forall_mem_append.mpr ⟨ihl, ihr⟩

/-- The predicates of the selections above a table that is there. -/
theorem filtersOf_peel (hold : old.WellFounded) (hg : g.WellFounded) (e : old.Extends g)
    {t : NodeId} (ht : old.Has t) :
  old.filtersOf (g.peel t).chain = (g.peel t).predicates
  := by
  rw [e.peel_eq hold hg ht]
  rfl

theorem filtersOf_operand (g : Graph) (id : NodeId) (hoist left : Bool) :
  g.filtersOf (g.operand id hoist left).chain = (g.operand id hoist left).predicates
  := by
  rw [operand]
  split <;> rfl

/-! ### Predicates that are carried along -/

/-- A predicate has been lifted through folded operators, in several steps perhaps, none of which
changes the name of a column. -/
inductive Carried (g : Graph) (fused : List NodeId) (p : NodeId) : NodeId → Prop where
  | refl : Carried g fused p p
  | lift {absorbed : List NodeId} {p' l : NodeId} (h : Carried g fused p p')
      (hsub : ∀ n ∈ absorbed, n ∈ fused) (hpushes : (Folding.of absorbed).pushes g [p'] = true)
      (hl : (Folding.of absorbed).Lifts .substitute g p' l) : Carried g fused p l

/-- A node of the shape of a ranking is a ranking. -/
theorem isRanking_of_shape {l : NodeId} (h : (g.node l).shape = (g.node p).shape)
    (hranking : Block.isRanking g p = true) :
  Block.isRanking g l = true
  := by
  obtain ⟨arg, k, metric?, hn⟩ := Block.eq_topK hranking
  rw [hn] at h
  cases hl : g.node l with
  | topK arg k metric? => rw [Block.isRanking, hl]
  | contains a options negated =>
      rw [hl] at h
      cases options <;> cases h
  | _ =>
      rw [hl] at h
      cases h

/-- What is no operator is no ranking. -/
theorem isRanking_of_kind {id : NodeId} (h : (g.node id).isOperator = false) :
  Block.isRanking g id = false
  := by
  by_contra hranking
  obtain ⟨_, _, _, hn⟩ := Block.eq_topK (Bool.not_eq_false _ ▸ hranking)
  rw [hn] at h
  cases h

/-- A pushed predicate is a ranking when the given one is. -/
theorem isRanking_of_lifts (hg : g.WellFounded) {absorbed : List NodeId} {l : NodeId}
    (hl : (Folding.of absorbed).Lifts .substitute g p l)
    (hpushes : (Folding.of absorbed).pushes g [p] = true) :
  Block.isRanking g l = Block.isRanking g p
  := by
  rcases (g.node p).kinds with ⟨t, name, hn⟩ | ⟨t, hn⟩ | hn | hn
  · obtain ⟨t', hcolumn⟩ := hl.column_of_pushes hg hpushes hn
    rw [isRanking_of_kind (by rw [hcolumn]; rfl), isRanking_of_kind (by rw [hn]; rfl)]
  · have hterm := hl.denote .terms
    rw [Lift.resolve_value_eq hg, Folding.resolveValue, hn] at hterm
    have hkind : (g.node l).isOperator = false := by
      by_contra hoperator
      rw [denote_operator hg _ (Bool.not_eq_false _ ▸ hoperator)] at hterm
      cases hterm
    rw [isRanking_of_kind hkind, isRanking_of_kind (by rw [hn]; rfl)]
  · rw [hl.eq_of_isRelation hg hn]
  · have hshape := (hl.operands hg hn).2.1
    exact Bool.eq_iff_iff.mpr ⟨isRanking_of_shape hshape.symm, isRanking_of_shape hshape⟩

namespace Carried

variable {fused : List NodeId}

theorem all_refl (predicates : List NodeId) :
  List.Forall₂ (g.Carried fused) predicates predicates
  := List.forall₂_same.mpr fun _ _ => .refl

theorem isRanking_eq (hg : g.WellFounded) (h : g.Carried fused p p') :
  Block.isRanking g p' = Block.isRanking g p
  := by
  induction h with
  | refl => rfl
  | lift _ _ hpushes hl ih => rw [isRanking_of_lifts hg hl hpushes, ih]

/-- What a carried predicate is lifted to, the predicate itself is lifted to. -/
theorem lifts (hg : g.WellFounded) {l : NodeId} (h : g.Carried s.fused p p')
    (hl : s.Lifts .substitute g p' l) :
  s.Lifts .substitute g p l
  := by
  induction h with
  | refl => exact hl
  | lift _ hsub _ hl' ih => exact ih (hl'.trans hg hsub hl)

/-- A semi join that stands for a carried ranking stands for the ranking. -/
theorem ranks (hg : g.WellFounded) {c : JoinClause} (h : g.Carried s.fused p p')
    (hc : c.Ranks s g p') :
  c.Ranks s g p
  := by
  induction h with
  | refl => exact hc
  | @lift absorbed p' l h hsub hpushes hl ih =>
      apply ih
      obtain @⟨arg, k, metric?, hranking, hjoin⟩ := hc
      have hkept : Block.isRanking g p' = true := by
        rw [← isRanking_of_lifts hg hl hpushes, Block.isRanking, hranking]
      obtain ⟨arg', k', metric?', hn⟩ := Block.eq_topK hkept
      obtain ⟨_, hshape, hoperands⟩ := hl.operands hg (by rw [hn]; rfl)
      rw [hn, hranking] at hshape hoperands
      obtain ⟨_, rfl, _⟩ := Node.topK.inj hshape
      obtain ⟨harg, _⟩ := List.forall₂_cons.mp hoperands
      obtain ⟨hlifted, hfirst, hvalue, hpredicate⟩ := hjoin
      exact .intro hn (.intro (harg.trans hg hsub hlifted) hfirst hvalue hpredicate)

end Carried

end Graph

end RelSql
