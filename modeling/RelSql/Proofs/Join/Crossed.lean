import RelSql.Proofs.Block.Witnesses
import RelSql.Proofs.Graph.Opened
import RelSql.Proofs.Join.Tree
import RelSql.Proofs.Lift.Unfolding

/-!
# Spans of FROM clauses

A FROM clause stands for the tables that it joins, and for the joins and the selections that are
folded with them.  The columns of these resolve to columns of the joined tables, and the columns of
all other tables stay as they are.

The FROM clause over a cross join of tables has the tables below their filters, in the same order,
unless one of them is itself a join or a projection.  Their filters are taken over, and nothing but
the filters and the cross joins is folded.
-/

/-! ## Spans -/

namespace RelSql

namespace Graph

variable {g : Graph} {id : NodeId}

/-- The selections and the joins `folded` are above tables among `tables`. -/
def Descends (g : Graph) (folded tables : List NodeId) : Prop :=
  ∀ u ∈ folded, (∃ t predicates, g.node u = .selection t predicates ∧ t ∈ tables)
    ∨ ∃ kind l r predicates, g.node u = .join kind l r predicates ∧ l ∈ tables ∧ r ∈ tables

theorem Descends.mono {folded tables tables' : List NodeId} (h : g.Descends folded tables)
    (hsub : tables ⊆ tables') :
  g.Descends folded tables'
  := by
  intro u hu
  rcases h u hu with ⟨t, predicates, hn, ht⟩ | ⟨kind, l, r, predicates, hn, hl, hr⟩
  · exact .inl ⟨t, predicates, hn, hsub ht⟩
  · exact .inr ⟨kind, l, r, predicates, hn, hsub hl, hsub hr⟩

theorem Descends.append {folded folded' tables : List NodeId} (h : g.Descends folded tables)
    (h' : g.Descends folded' tables) :
  g.Descends (folded ++ folded') tables
  := List.forall_mem_append.mpr ⟨h, h'⟩

/-- The selections above a table. -/
theorem descends_peel (hg : g.WellFounded) (id : NodeId) :
  id ∈ (g.peel id).chain ++ [(g.peel id).table]
    ∧ g.Descends (g.peel id).chain ((g.peel id).chain ++ [(g.peel id).table])
  := by
  apply chain_induction follows_selection hg (P := fun id =>
    id ∈ (g.peel id).chain ++ [(g.peel id).table]
      ∧ g.Descends (g.peel id).chain ((g.peel id).chain ++ [(g.peel id).table]))
  · intro id h
    rw [peel_other hg h]
    exact ⟨List.mem_singleton_self id, nofun⟩
  · intro id t ht ih
    obtain ⟨predicates, hn⟩ := eq_selection ht
    rw [peel_selection hg hn]
    refine ⟨List.mem_cons_self, ?_⟩
    intro u hu
    rcases List.mem_cons.mp hu with rfl | hu
    · exact .inl ⟨t, predicates, hn, List.mem_cons_of_mem _ ih.1⟩
    · exact (ih.2.mono (List.subset_cons_self _ _)) u hu

/-- The selections that are taken off an operand. -/
theorem descends_operand (hg : g.WellFounded) (node : NodeId) (hoist left : Bool) :
  node ∈ (g.operand node hoist left).chain ++ [(g.operand node hoist left).table]
    ∧ g.Descends (g.operand node hoist left).chain
      ((g.operand node hoist left).chain ++ [(g.operand node hoist left).table])
  := by
  rw [operand]
  split
  · exact descends_peel hg node
  · exact ⟨List.mem_singleton_self node, fun _ h => absurd h List.not_mem_nil⟩

/-- The joins of a tree, and the selections that are taken off its operands. -/
theorem descends_joinTree (hg : g.WellFounded) (id : NodeId) :
  id ∈ (g.joinTree id).folded ++ (g.joinTree id).leaves
    ∧ g.Descends (g.joinTree id).folded ((g.joinTree id).folded ++ (g.joinTree id).leaves)
  := by
  apply joinTree_induction hg (P := fun id =>
    id ∈ (g.joinTree id).folded ++ (g.joinTree id).leaves
      ∧ g.Descends (g.joinTree id).folded ((g.joinTree id).folded ++ (g.joinTree id).leaves))
  · intro id hn
    rw [joinTree_other hg hn]
    exact ⟨List.mem_singleton_self id, nofun⟩
  · intro id kind l r predicates hn ⟨htable, hleft⟩
    obtain ⟨hl, hchain⟩ := descends_operand hg l (kind.preservesFilters true) true
    obtain ⟨hr, hchain'⟩ := descends_operand hg r (kind.preservesFilters false) false
    rw [joinTree_join hg hn]
    generalize g.operand l (kind.preservesFilters true) true = left at *
    generalize g.operand r (kind.preservesFilters false) false = right at *
    generalize g.joinTree left.table = tree at *
    simp only [JoinTree.folded, JoinTree.leaves]
    have htree : ∀ u ∈ tree.folded ++ tree.leaves, u ∈ id :: (left.chain ++ tree.folded
        ++ right.chain) ++ (tree.leaves ++ [right.table]) := by
      intro u hu
      simp only [List.cons_append, List.mem_cons, List.mem_append] at hu ⊢
      tauto
    have hoff : ∀ u ∈ left.chain ++ [left.table], u ∈ id :: (left.chain ++ tree.folded
        ++ right.chain) ++ (tree.leaves ++ [right.table]) := by
      intro u hu
      rcases List.mem_append.mp hu with hu | hu
      · simp only [List.cons_append, List.mem_cons, List.mem_append]
        tauto
      · rw [List.mem_singleton.mp hu]
        exact htree _ htable
    have hoff' : ∀ u ∈ right.chain ++ [right.table], u ∈ id :: (left.chain ++ tree.folded
        ++ right.chain) ++ (tree.leaves ++ [right.table]) := by
      intro u hu
      simp only [List.cons_append, List.mem_cons, List.mem_append] at hu ⊢
      tauto
    refine ⟨List.mem_cons_self, List.forall_mem_cons.mpr ⟨?_, ?_⟩⟩
    · exact .inr ⟨kind, l, r, predicates, hn, hoff l hl, hoff' r hr⟩
    · exact ((hchain.mono hoff).append (hleft.mono htree)).append (hchain'.mono hoff')

/-- What the FROM clause over a table folds: the selections above the table, the joins, and the
selections above their operands. -/
def foldedOver (g : Graph) (t : NodeId) : List NodeId :=
  (g.operand t true true).chain ++ (g.joinTree (g.operand t true true).table).folded

/-- The tables that the FROM clause over a table joins. -/
def joinedOver (g : Graph) (t : NodeId) : List NodeId :=
  (g.joinTree (g.operand t true true).table).leaves

/-- The FROM clause over the table `t` stands for the table `u`. -/
def Spans (g : Graph) (t u : NodeId) : Prop :=
  u ∈ g.foldedOver t ++ g.joinedOver t

theorem Extends.over_eq {g' : Graph} (e : g.Extends g') (hg : g.WellFounded)
    (hg' : g'.WellFounded) {t : NodeId} (ht : g.Has t) :
  g'.foldedOver t = g.foldedOver t ∧ g'.joinedOver t = g.joinedOver t
  := by
  rw [foldedOver, foldedOver, joinedOver, joinedOver, e.operand_eq hg hg' ht,
    e.joinTree_eq hg hg' (hg.has_operand ht true true)]
  exact ⟨rfl, rfl⟩

end Graph

namespace Folding

variable {g : Graph} {s : Folding} {folded joined : List NodeId} {bound : Nat}

variable {t e : NodeId} {name : String}

/-- A folded selection or join hands its columns down. -/
theorem fate_of_descends {tables : List NodeId} (h : g.Descends folded tables) (ht : t ∈ folded)
    (hs : s.contains t = true) (name : String) :
  ∃ u ∈ tables, s.fate .substitute g t name = .column u
  := by
  rcases h t ht with ⟨u, predicates, hn, hu⟩ | ⟨kind, l, r, predicates, hn, hl, hr⟩
  · exact ⟨u, hu, by simp [fate, hs, hn]⟩
  · refine ⟨if g.hasField l name then l else r, ?_, by simp [fate, hs, hn]⟩
    split
    · exact hl
    · exact hr

/-- No column of a table stands for a value if the tables up to this one that are folded are
selections and joins. -/
theorem not_standsFor_of_descends (hg : g.WellFounded) {tables : List NodeId}
    (h : g.Descends folded tables)
    (hs : ∀ u : NodeId, u.index ≤ t.index → s.contains u = true → u ∈ folded) (d : NodeId) :
  ¬ s.StandsFor .substitute g t name d
  := by
  intro hd
  obtain ⟨u, hpassed, hvalue⟩ := standsFor_iff.mp hd
  cases hu : s.contains u with
  | false => simp [fate_of_not_contains hu] at hvalue
  | true =>
      have hle := Passes.le hg hpassed
      obtain ⟨w, _, hcolumn⟩ := fate_of_descends h (hs u hle hu) hu name
      rw [hcolumn] at hvalue
      cases hvalue

/-- A column of a table that is joined, or folded above joined tables, comes from one of these, if
none of them is folded itself. -/
theorem ComesFrom.mem_joined (h : g.Descends folded (folded ++ joined))
    (hfolded : ∀ u ∈ folded, s.contains u = true) (hjoined : ∀ u ∈ joined, s.contains u = false)
    (ht : t ∈ folded ++ joined) (hfrom : s.ComesFrom g t name e) :
  e ∈ joined
  := by
  obtain ⟨hpassed, hkept⟩ := hfrom
  have hdown : ∀ u ∈ folded ++ joined, ∀ w, s.Passes g name u w → w ∈ folded ++ joined := by
    intro u hu w hw
    rw [Passes] at hw
    rcases List.mem_append.mp hu with hu | hu
    · obtain ⟨w', hw', hcolumn⟩ := fate_of_descends h hu (hfolded u hu) name
      cases hcolumn.symm.trans hw
      exact hw'
    · rw [fate_of_not_contains (hjoined u hu)] at hw
      cases hw
  have hmem : e ∈ folded ++ joined := by
    clear hkept
    induction hpassed with
    | refl => exact ht
    | tail _ hstep ih => exact hdown _ ih _ hstep
  refine (List.mem_append.mp hmem).resolve_left fun he => ?_
  obtain ⟨w, _, hcolumn⟩ := fate_of_descends h he (hfolded e he) name
  cases hcolumn.symm.trans hkept

end Folding

end RelSql

/-! ## FROM clauses of cross joins -/

namespace RelSql.Graph

variable {g : Graph} {bound : Nat} {first joined t : NodeId} {rest : List NodeId}

/-- Below its filters, a table is neither a join nor a projection. -/
structure Plain (g : Graph) (t : NodeId) : Prop where
  join : g.isJoin (g.peel t).table = false
  projection : g.isProjection (g.peel t).table = false

/-- All filters of an operand are taken off it, unless they are above a projection or above a join
on the right. -/
theorem operand_eq_peel (hg : g.WellFounded) (hprojection : g.isProjection (g.peel t).table = false)
    {left : Bool} (hleft : left = true ∨ g.isJoin (g.peel t).table = false) :
  g.operand t true left = g.peel t
  := by
  have htaken : g.takesOff t true left = !(g.peel t).chain.isEmpty := by
    rw [takesOff, hprojection]
    rcases hleft with rfl | hjoin
    · simp
    · simp [hjoin]
  rw [operand, htaken]
  cases hinput : selectionInput? (g.node t) with
  | none =>
      rw [peel_other hg hinput]
      rfl
  | some u =>
      obtain ⟨predicates, hn⟩ := eq_selection hinput
      rw [peel_selection hg hn]
      rfl

/-- The predicates that the FROM clause over a table takes over. -/
def filtersOver (g : Graph) (t : NodeId) : List NodeId :=
  (g.joinTree (g.operand t true true).table).hoisted ++ (g.operand t true true).predicates

/-- The FROM clause over the table `joined` is the cross join of the tables below the filters of
`first` and of the tables after it.  Before `bound`, the filters are all that is folded. -/
structure Covers (g : Graph) (bound : Nat) (first : NodeId) (rest : List NodeId)
    (joined : NodeId) : Prop where
  plain : g.isProjection (g.peel joined).table = false
  tables : ∃ node, (g.joinTree (g.operand joined true true).table).tables
    = ⟨node, (g.peel first).table, crossed (rest.map fun r => (g.peel r).table)⟩
  folded : ∀ u : NodeId, u.index ≤ bound →
    (u ∈ g.foldedOver joined ↔ ∃ t ∈ first :: rest, u ∈ (g.peel t).chain)
  filters : ∀ p, p ∈ g.filtersOver joined ↔ ∃ t ∈ first :: rest, p ∈ (g.peel t).predicates

theorem covers_table (hg : g.WellFounded) (ht : g.Plain t) :
  g.Covers bound t [] t
  := by
  have htree := joinTree_other hg ht.join
  have hoperand := operand_eq_peel hg ht.projection (.inl rfl)
  refine ⟨ht.projection, ⟨(g.peel t).table, ?_⟩, ?_, ?_⟩
  · rw [hoperand, htree]
    rfl
  · intro u _
    rw [foldedOver, hoperand, htree, JoinTree.folded]
    simp
  · intro p
    rw [filtersOver, hoperand, htree, JoinTree.hoisted]
    simp

/-- A cross join with one more table. -/
theorem Covers.cross (hg : g.WellFounded) (h : g.Covers bound first rest joined) {next r : NodeId}
    (hn : g.node next = .join .cross joined r []) (hnext : bound < next.index) (hr : g.Plain r) :
  g.Covers bound first (rest ++ [r]) next
  := by
  obtain ⟨_, ⟨node, htables⟩, hfolded, hfilters⟩ := h
  have hpeel : g.peel next = ⟨next, [], []⟩ := peel_other hg (by rw [hn]; rfl)
  have hplain : g.isProjection (g.peel next).table = false := by
    rw [hpeel, isProjection, hn]
  have hoperand : g.operand next true true = ⟨next, [], []⟩ :=
    (operand_eq_peel hg hplain (.inl rfl)).trans hpeel
  have htree : g.joinTree next = .join next .cross []
      (g.joinTree (g.operand joined true true).table) (g.operand joined true true) (g.peel r) := by
    rw [joinTree_join hg hn]
    exact congrArg _ (operand_eq_peel hg hr.projection (.inr hr.join))
  have hmore : ∀ P : NodeId → Prop, (∃ t ∈ first :: (rest ++ [r]), P t)
      ↔ (∃ t ∈ first :: rest, P t) ∨ P r := by
    intro P
    rw [← List.cons_append]
    simp only [List.mem_append, List.mem_singleton, or_and_right, exists_or, exists_eq_left]
  refine ⟨hplain, ⟨node, ?_⟩, ?_, ?_⟩
  · rw [JoinTree.tables, TableSet.mk.injEq] at htables
    obtain ⟨hnode, hfirst, hclauses⟩ := htables
    rw [hoperand, htree, JoinTree.tables, JoinTree.first, JoinTree.clauses, hclauses, if_pos rfl]
    rw [hfirst] at hnode ⊢
    rw [hnode, crossed, crossed, List.map_append, List.map_append]
    rfl
  · intro u hu
    have hold : u ≠ next := by
      rintro rfl
      omega
    rw [hmore, ← hfolded u hu, foldedOver, foldedOver, hoperand, htree, JoinTree.folded]
    simp [hold, or_assoc]
  · intro p
    rw [hmore, ← hfilters p, filtersOver, filtersOver, hoperand, htree, JoinTree.hoisted]
    simp [or_assoc]

/-- Cross joins with further tables, after those that have been joined to `first` before. -/
theorem Covers.crossed (hg : g.WellFounded) {next : NodeId} {before : List NodeId}
    (h : g.Covers bound first before next) (hcrossed : g.Crossed bound next rest joined)
    (hrest : ∀ r ∈ rest, g.Plain r) :
  g.Covers bound first (before ++ rest) joined
  := by
  induction hcrossed generalizing before with
  | nil next =>
      rw [List.append_nil]
      exact h
  | @cons _ _ _ r rest hn hnext _ ih =>
      obtain ⟨hr, hrest⟩ := List.forall_mem_cons.mp hrest
      rw [List.append_cons]
      exact ih (h.cross hg hn hnext hr) hrest

/-- The FROM clause over a cross join. -/
theorem Crossed.covers (hg : g.WellFounded) (h : g.Crossed bound first rest joined)
    (htables : ∀ t ∈ first :: rest, g.Plain t) :
  g.Covers bound first rest joined
  := by
  obtain ⟨hfirst, hrest⟩ := List.forall_mem_cons.mp htables
  exact (covers_table hg hfirst).crossed hg h hrest

/-- A selection above a cross join is taken off. -/
theorem Covers.selection (hg : g.WellFounded) (h : g.Covers bound first rest joined)
    {filtered : NodeId} {predicates : List NodeId}
    (hn : g.node filtered = .selection joined predicates) :
  g.joinTree (g.operand filtered true true).table = g.joinTree (g.operand joined true true).table
    ∧ g.foldedOver filtered = filtered :: g.foldedOver joined
    ∧ ∀ p, p ∈ g.filtersOver filtered ↔ p ∈ g.filtersOver joined ∨ p ∈ predicates
  := by
  have hpeel := peel_selection hg hn
  have hplain : g.isProjection (g.peel filtered).table = false := by
    rw [hpeel]
    exact h.plain
  have hfiltered := (operand_eq_peel hg hplain (.inl rfl)).trans hpeel
  have hjoined := operand_eq_peel hg h.plain (.inl rfl)
  refine ⟨?_, ?_, ?_⟩
  · rw [hfiltered, hjoined]
  · rw [foldedOver, foldedOver, hfiltered, hjoined]
    rfl
  · intro p
    rw [filtersOver, filtersOver, hfiltered, hjoined]
    simp only [List.mem_append, or_assoc]

end RelSql.Graph
