import RelSql.Proofs.Block.Range
import RelSql.Proofs.Output.FieldNames

/-!
# Fields of folded tables

Folding operators into a block loses no field: fused projections have the fields of the outermost
one, and the select list of a block stands for the fields of the table that the block is built
for.  The tables of a FROM clause have the fields of the join, one after the other, unless a semi
join or an anti join is written as a cross join for want of a predicate.
-/

namespace RelSql

variable {Q : QuerySpec} {g : Graph}

/-! ### Lifted items -/

/-- Whether a value is a table under its aliases. -/
def Algebra.isTable : Algebra Bool where
  column _ _ := false
  count _ := false
  table _ := true
  operator n operands := match n with
    | .named _ _ => operands.any id
    | _ => false

theorem Algebra.isTable_transparent :
  isTable.Transparent
  := by
  intro name value
  simp [isTable]

/-- A value without a name that is no table resolves to none. -/
theorem Lift.resolve_isTable (hg : g.WellFounded) {s : Folding} {mode : LiftMode} {id : NodeId}
    (hname : g.name? id = none) (hr : g.isRelation id = false) :
  (s.resolve mode .isTable g id).value = false
  := by
  rw [resolve_value_eq hg, Folding.resolveValue]
  rw [Graph.name?] at hname
  rw [Graph.isRelation] at hr
  cases hn : g.node id <;> rw [hn] at hname hr
  case contains a options negated => cases options <;> rfl
  all_goals first | rfl | (cases hr; done) | cases hname

/-- A lifted value is no table. -/
theorem Folding.LiftsNamed.isRelation {s : Folding} {item l : NodeId} (hg : g.WellFounded)
    (hl : s.LiftsNamed .substitute g item l) (hr : g.isRelation item = false) :
  g.isRelation l = false
  := by
  cases hname : g.name? l with
  | some name =>
      rw [Graph.name?] at hname
      rw [Graph.isRelation]
      cases hn : g.node l <;> rw [hn] at hname <;> first | rfl | cases hname
  | none =>
      have hvalue := hl.denote .isTable Algebra.isTable_transparent
      rw [Lift.resolve_isTable hg (hl.name.symm.trans hname) hr] at hvalue
      by_contra htable
      rw [Graph.denote_relation hg _ (Bool.not_eq_false _ ▸ htable)] at hvalue
      cases hvalue

/-- A lifted value stands for the same name. -/
theorem Folding.LiftsNamed.selectedNames {s : Folding} {item l : NodeId} (hg : g.WellFounded)
    (hl : s.LiftsNamed .substitute g item l) (hr : g.isRelation item = false) :
  g.selectedNames l = g.selectedNames item
  := by
  rw [Graph.selectedNames_value (hl.isRelation hg hr), Graph.selectedNames_value hr,
    Graph.fieldName, Graph.fieldName, hl.name]

namespace Graph

/-! ### Fused projections -/

/-- What is absorbed by a fusion has the fields of the inner projection. -/
theorem fieldNames_absorbed (hg : g.WellFounded) {input table item : NodeId}
    {inner : List NodeId} (hinner : g.node (g.peel input).table = .projection table inner)
    (hitem : item ∈ (g.peel input).chain ++ [(g.peel input).table]) :
  g.selectedNames item = (inner.flatMap g.selectedNames).eraseDups
  := by
  rw [← fieldNames_projection hg hinner]
  rcases List.mem_append.mp hitem with hitem | hitem
  · rw [selectedNames_relation (hg.isRelation_of_mem_peel hitem)]
    exact fieldNames_peel hg input item (List.mem_cons_of_mem input hitem)
  · rw [List.mem_singleton.mp hitem, selectedNames_relation (by rw [isRelation, hinner]; rfl)]

/-- A fused projection has the fields of the outer one. -/
theorem Fuses.fieldNames (hg : g.WellFounded) {projection : NodeId} {f : Fused}
    (h : g.Fuses projection f) :
  g.fieldNames f.node = g.fieldNames projection
  := by
  obtain @⟨input, table, source, outer, inner, parts, hprojection, hinner, habsorbed, _, _, hnode,
    hparts, _⟩ := h
  rw [fieldNames_projection hg hnode, fieldNames_projection hg hprojection,
    ← List.flatMap_id, List.flatMap_assoc]
  simp only [id_eq]
  symm
  apply eraseDups_flatMap_congr
  apply hparts.imp
  intro item part hitem
  cases hitem with
  | absorbed hmem =>
      have hmem := List.contains_iff_mem.mp hmem
      rw [Folding.of, habsorbed] at hmem
      rw [fieldNames_absorbed hg hinner hmem, eraseDups_eraseDups]
  | table _ _ => rw [List.flatMap_singleton]
  | value _ hr hl => rw [List.flatMap_singleton, hl.selectedNames hg hr]

theorem FusesTo.fieldNames (hg : g.WellFounded) {projection core : NodeId} {fs : List Fused}
    (h : g.FusesTo projection fs core) :
  g.fieldNames core = g.fieldNames projection
  := by
  induction h with
  | nil => rfl
  | cons h _ ih => rw [ih, h.fieldNames hg]

end Graph

/-! ### The table of a star -/

namespace Folding

variable {s s' : Folding}

/-- Without a join that stands for the folded ones, the table whose columns are all the columns
of a table has the same fields. -/
theorem fieldNames_star (hg : g.WellFounded) (hnone : s.join = none) (id : NodeId) :
  g.fieldNames (s.star g id) = g.fieldNames id
  := by
  obtain ⟨i⟩ := id
  induction i using Nat.strongRecOn with
  | ind i ih =>
      have hbelow : ∀ c ∈ (g.node ⟨i⟩).children, g.fieldNames (s.star g c) = g.fieldNames c :=
        fun c hc => ih c.index (hg.child_lt hc)
      rw [star_eq s hg]
      split
      · rfl
      · rw [Graph.fieldNames_eq hg ⟨i⟩, Graph.fieldNamesStep]
        cases hn : g.node ⟨i⟩ <;> rw [hn] at hbelow
        case selection | sort | limit | distinct => exact hbelow _ List.mem_cons_self
        all_goals
          simp only [hnone, Option.getD_none]
          rw [Graph.fieldNames_eq hg ⟨i⟩, Graph.fieldNamesStep, hn]

/-- A table that is not folded, or a join when none stands for the folded ones, is the table of
its star. -/
theorem star_self (hg : g.WellFounded) (hnone : s.join = none) {id : NodeId}
    (h : s.contains id = false ∨ g.isJoin id = true) :
  s.star g id = id
  := by
  rw [star_eq s hg]
  rcases h with h | h
  · rw [h]
    rfl
  · obtain ⟨kind, l, r, predicates, hn⟩ := Graph.eq_join h
    rw [hn, hnone, Option.getD_none, ite_self]

/-- When a join stands for the folded ones, the table of a star is a join just when it is one
otherwise, and it is the same table if it is none. -/
theorem star_of_join (hg : g.WellFounded) (hfused : s'.fused = s.fused) (hnone : s.join = none)
    (hjoin : ∀ j ∈ s'.join, g.isJoin j = true) (id : NodeId) :
  g.isJoin (s'.star g id) = g.isJoin (s.star g id)
    ∧ (g.isJoin (s.star g id) = false → s'.star g id = s.star g id)
  := by
  have hcontains : s'.contains = s.contains := by
    funext t
    rw [contains, contains, hfused]
  obtain ⟨i⟩ := id
  induction i using Nat.strongRecOn with
  | ind i ih =>
      rw [star_eq s hg, star_eq s' hg, hcontains]
      split
      · exact ⟨rfl, fun _ => rfl⟩
      · have hbelow : ∀ c ∈ (g.node ⟨i⟩).children,
            g.isJoin (s'.star g c) = g.isJoin (s.star g c)
              ∧ (g.isJoin (s.star g c) = false → s'.star g c = s.star g c) :=
          fun c hc => ih c.index (hg.child_lt hc)
        cases hn : g.node ⟨i⟩ <;> rw [hn] at hbelow
        case selection | sort | limit | distinct => exact hbelow _ List.mem_cons_self
        case join kind l r predicates =>
          have hself : g.isJoin ⟨i⟩ = true := by rw [Graph.isJoin, hn]
          simp only [hnone, Option.getD_none, hself]
          refine ⟨?_, fun h => absurd h.symm Bool.false_ne_true⟩
          cases hj : s'.join with
          | none => exact hself
          | some j => exact hjoin j hj
        all_goals exact ⟨rfl, fun _ => rfl⟩

end Folding

/-! ### Tables of a FROM clause -/

/-- The names of the fields that a join adds to those of the tables before. -/
def JoinClause.fieldNames (g : Graph) (c : JoinClause) : List String :=
  if c.kind.leftOnly then [] else g.fieldNames c.table

/-- The names of the fields of the tables of a FROM clause, in order, apart from the right
operands of semi joins and anti joins. -/
def TableSet.fieldNames (g : Graph) (t : TableSet) : List String :=
  g.fieldNames t.first ++ t.joins.flatMap (JoinClause.fieldNames g)

/-- Lifting the predicates of joins changes no field. -/
theorem JoinClause.fieldNames_of_lifts {s : Folding} {joins joins' : List JoinClause}
    (h : List.Forall₂ (JoinClause.Lifts s g) joins joins') :
  joins'.flatMap (JoinClause.fieldNames g) = joins.flatMap (JoinClause.fieldNames g)
  := by
  induction h with
  | nil => rfl
  | cons hc _ ih =>
      rw [List.flatMap_cons, List.flatMap_cons, ih, fieldNames, fieldNames, hc.kind, hc.table]

/-- The fields of a FROM clause all of whose tables are one table are those of the table. -/
theorem TableSet.fieldNames_of_single {t : TableSet} {table : NodeId}
    (h : ∀ leaf ∈ t.leaves, leaf = table) :
  (t.fieldNames g).eraseDups = (g.fieldNames table).eraseDups
  := by
  rw [fieldNames, h t.first List.mem_cons_self]
  apply eraseDups_append_of_subset
  intro name hname
  obtain ⟨c, hc, hname⟩ := List.mem_flatMap.mp hname
  rw [JoinClause.fieldNames, h c.table (List.mem_cons_of_mem _ (List.mem_map_of_mem hc))] at hname
  split at hname
  · exact absurd hname List.not_mem_nil
  · exact hname

namespace JoinTree

/-- Every semi join and every anti join has a predicate, so that none of them is written as a
cross join. -/
def KeepsKinds : JoinTree → Prop
  | .table _ => True
  | .join _ kind predicates left _ _ =>
    (kind.leftOnly = true → predicates ≠ []) ∧ left.KeepsKinds

instance decidableKeepsKinds : DecidablePred KeepsKinds
  | .table _ => .isTrue trivial
  | .join _ kind predicates left _ _ =>
    have := decidableKeepsKinds left
    inferInstanceAs (Decidable ((kind.leftOnly = true → predicates ≠ []) ∧ left.KeepsKinds))

/-- The joins that have all fields of the tree: the outermost one, and below semi joins and anti
joins the left operand. -/
def whole : JoinTree → List NodeId
  | .table _ => []
  | .join node kind _ left _ _ => node :: if kind.leftOnly then left.whole else []

end JoinTree

namespace Graph

/-- A join that has all fields of a tree is a join with the fields of the tree. -/
theorem fieldNames_of_whole (hg : g.WellFounded) (id : NodeId) :
  ∀ u ∈ (g.joinTree id).whole, g.isJoin u = true ∧ g.fieldNames u = g.fieldNames id
  := by
  apply joinTree_induction hg (P := fun id => ∀ u ∈ (g.joinTree id).whole,
    g.isJoin u = true ∧ g.fieldNames u = g.fieldNames id)
  · intro id hn u hu
    rw [joinTree_other hg hn] at hu
    exact absurd hu List.not_mem_nil
  · intro id kind l r predicates hn ih u hu
    rw [joinTree_join hg hn] at hu
    rcases List.mem_cons.mp hu with rfl | hu
    · exact ⟨by rw [isJoin, hn], rfl⟩
    · split at hu
      case isTrue hkind =>
          obtain ⟨hjoin, hnames⟩ := ih u hu
          rw [fieldNames_operand hg] at hnames
          refine ⟨hjoin, ?_⟩
          rw [hnames, fieldNames_join hg hn, if_pos hkind]
      · exact absurd hu List.not_mem_nil

/-- The FROM clause of a join has the fields of the join, when no semi join and no anti join is
written as a cross join. -/
theorem fieldNames_joinTree (hg : g.WellFounded) (id : NodeId)
    (h : (g.joinTree id).KeepsKinds) :
  ((g.joinTree id).tables.fieldNames g).eraseDups = (g.fieldNames id).eraseDups
  := by
  revert h
  apply joinTree_induction hg (P := fun id => (g.joinTree id).KeepsKinds →
    ((g.joinTree id).tables.fieldNames g).eraseDups = (g.fieldNames id).eraseDups)
  · intro id hn _
    rw [joinTree_other hg hn]
    exact congrArg List.eraseDups (List.append_nil _)
  · intro id kind l r predicates hn ih h
    rw [joinTree_join hg hn] at h ⊢
    obtain ⟨hkind, hleft⟩ := h
    have hleft := ih hleft
    rw [fieldNames_operand hg] at hleft
    have hjoin : JoinClause.fieldNames g ⟨if predicates = [] then .cross else kind,
          (g.operand r (kind.preservesFilters false) false).table, predicates⟩
        = if kind.leftOnly then [] else g.fieldNames r := by
      rw [JoinClause.fieldNames, fieldNames_operand hg]
      by_cases hp : predicates = []
      · have hk : kind.leftOnly = false := Bool.eq_false_iff.mpr fun hk => hkind hk hp
        simp only [hp, hk, if_true]
        rfl
      · simp only [hp, if_false]
    rw [TableSet.fieldNames, JoinTree.tables, JoinTree.clauses, JoinTree.first,
      List.flatMap_append, List.flatMap_singleton, ← List.append_assoc, hjoin,
      fieldNames_join hg hn]
    have hparts := eraseDups_append_congr hleft
      (rfl : (if kind.leftOnly then [] else g.fieldNames r).eraseDups = _)
    rw [TableSet.fieldNames, JoinTree.tables] at hparts
    rw [hparts]
    split
    · rw [List.append_nil]
    · rw [eraseDups_eraseDups]

/-- A table of a FROM clause is a table. -/
theorem Sourced.isRelation {nested : List (Nested Query)} {leaf : NodeId}
    (hnested : ∀ s ∈ nested, s.Compiled Q g) (h : g.Sourced nested leaf) :
  g.isRelation leaf = true
  := by
  rcases h with ⟨t, ht, _⟩ | h
  · apply isRelation_of_body
    rw [ht]
    rfl
  · obtain ⟨s, hs⟩ := Option.isSome_iff_exists.mp h
    have hfound := List.find?_some hs
    simp only [decide_eq_true_eq] at hfound
    obtain ⟨hnode, hkind⟩ := hfound
    obtain ⟨_, _, hsource, _⟩ := (hnested s (List.mem_of_find?_eq_some hs)).source
    rw [hkind, hnode] at hsource
    cases hsource with
    | table hr _ => exact hr

end Graph

/-! ### Built blocks -/

namespace Block

/-- The table that a FROM clause is drawn from is a table. -/
theorem Draws.isRelation (hg : g.WellFounded) {folded : List NodeId} {table : NodeId}
    {b b' : Block} (h : Draws Q folded (g.joinTree table) b g b') :
  g.isRelation table = true
  := by
  cases hjoin : g.isJoin table with
  | true =>
      rw [Graph.isJoin] at hjoin
      rw [Graph.isRelation]
      cases hn : g.node table <;> rw [hn] at hjoin <;> first | rfl | cases hjoin
  | false =>
      have hleaf := h.sourced table
      rw [Graph.joinTree_other hg hjoin] at hleaf
      exact (hleaf (List.mem_singleton_self table)).2.isRelation fun s hs =>
        (h.nested s hs).compiled

/-- The select list of a built block stands for the fields of the table that it is built for. -/
theorem Built.selectedNames (hg : g.WellFounded) {b built : Block} {node : NodeId}
    (h : Built Q b node g built) :
  (built.clauses.select.flatMap g.selectedNames).eraseDups = (g.fieldNames node).eraseDups
  := by
  rw [Graph.fieldNames_peel hg node node List.mem_cons_self]
  cases h with
  | aggregation hnode _ => rw [Graph.fieldNames_aggregation hg hnode, eraseDups_eraseDups]
  | projection _ _ hfuses hcore _ =>
      rw [← hfuses.fieldNames hg, Graph.fieldNames_projection hg hcore, eraseDups_eraseDups]
      rfl
  | other _ _ hdraws =>
      rw [← Graph.selectedNames_relation (hdraws.isRelation hg)]
      exact congrArg List.eraseDups (List.flatMap_singleton _ _)

/-- No join stands for the joins that are folded into a built block. -/
theorem Built.join_eq {b built : Block} {node : NodeId} (h : Built Q b node g built) :
  built.folding.join = b.folding.join
  := by
  cases h with
  | aggregation _ hdraws =>
      have hfolding := congrArg Folding.join hdraws.folding
      exact hfolding
  | projection _ _ _ _ hdraws =>
      rw [fused_eq] at hdraws
      have hfolding := congrArg Folding.join hdraws.folding
      exact hfolding
  | other _ _ hdraws =>
      have hfolding := congrArg Folding.join hdraws.folding
      exact hfolding

end Block

end RelSql
