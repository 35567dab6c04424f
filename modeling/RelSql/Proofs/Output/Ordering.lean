import RelSql.Proofs.Meaning.Fused
import RelSql.Proofs.Meaning.Statements
import RelSql.Proofs.Output.SelectList
import RelSql.Proofs.Qualification.Declaration
import RelSql.Proofs.Relational.Blocks
import RelSql.Proofs.Statement.Reductions

/-!
# Names in sort keys

A name in a sort key is that of an output of the block before it is that of a column.  Columns of
the only table of a FROM clause are written without a label, so an item of the select list with the
name of such a column takes its place, and is another value unless it is this column itself, or a
star.
-/

namespace RelSql

open Analysis

variable {g : Graph} {s : Folding} {t e l item : NodeId} {name : String}

namespace Folding

/-- A selected value is a column just when it has been lifted from one. -/
theorem LiftsSelected.column_iff (hg : g.WellFounded) (h : s.LiftsSelected g item l)
    (hr : g.isRelation item = false) :
  g.node (g.unaliased l) = .column e name ↔ s.Renames g item e name
  := by
  cases h with
  | star hstar _ => cases hr.symm.trans hstar
  | value _ hl =>
      rw [← Graph.denote_aliased_iff hg, hl.denote _ Algebra.aliased_transparent,
        resolve_aliased_iff hg]

end Folding

/-! ### Stars of tables -/

namespace Graph

/-- Those of the nodes that keep the columns of their input have a table for it. -/
def OverTables (g : Graph) (nodes : List NodeId) : Prop :=
  ∀ n ∈ nodes, ∀ t, keptInput? (g.node n) = some t → g.isRelation t = true

theorem overTables_singleton {n : NodeId} (hn : keptInput? (g.node n) = none) :
  g.OverTables [n]
  := by
  refine List.forall_mem_singleton.mpr fun t ht => ?_
  cases hn.symm.trans ht

/-- A chain that ends in a table consists of tables. -/
theorem overTables_chain {next? : Node → Option NodeId} (hnext : Follows next?)
    (hkept : ∀ n t, next? n = some t → keptInput? n = some t ∧ n.isRelation = true)
    (hg : g.WellFounded) (id : NodeId) :
  g.isRelation (g.chain next? id).2 = true →
    g.OverTables (g.chain next? id).1 ∧ g.isRelation id = true
  := by
  apply chain_induction hnext hg (P := fun id => g.isRelation (g.chain next? id).2 = true →
    g.OverTables (g.chain next? id).1 ∧ g.isRelation id = true)
  · intro id ht hend
    rw [chain_end hnext hg ht] at hend ⊢
    exact ⟨List.forall_mem_nil _, hend⟩
  · intro id t ht ih hend
    rw [chain_next hnext hg ht] at hend ⊢
    obtain ⟨hbelow, htable⟩ := ih hend
    obtain ⟨hinput, hr⟩ := hkept _ t ht
    refine ⟨List.forall_mem_cons.mpr ⟨fun u hu => ?_, hbelow⟩, hr⟩
    rw [← Option.some.inj (hinput.symm.trans hu)]
    exact htable

theorem overTables_sorts (hg : g.WellFounded) (id : NodeId)
    (hend : g.isRelation (g.chain sortInput? id).2 = true) :
  g.OverTables (g.chain sortInput? id).1 ∧ g.isRelation id = true
  := by
  refine overTables_chain follows_sort ?_ hg id hend
  intro n t h
  cases n <;> cases h
  exact ⟨rfl, rfl⟩

theorem overTables_limits (hg : g.WellFounded) (id : NodeId)
    (hend : g.isRelation (g.chain limitInput? id).2 = true) :
  g.OverTables (g.chain limitInput? id).1 ∧ g.isRelation id = true
  := by
  refine overTables_chain follows_limit ?_ hg id hend
  intro n t h
  cases n <;> cases h
  exact ⟨rfl, rfl⟩

theorem overTables_peel (hg : g.WellFounded) (id : NodeId)
    (htable : g.isRelation (g.peel id).table = true) :
  g.OverTables (g.peel id).chain ∧ g.isRelation id = true
  := by
  refine overTables_chain follows_selection ?_ hg id htable
  intro n t h
  cases n <;> cases h
  exact ⟨rfl, rfl⟩

theorem overTables_operand (hg : g.WellFounded) (id : NodeId) (hoist left : Bool)
    (htable : g.isRelation (g.operand id hoist left).table = true) :
  g.OverTables (g.operand id hoist left).chain ∧ g.isRelation id = true
  := by
  rw [operand] at htable ⊢
  split at htable
  case isTrue htaken =>
      rw [if_pos htaken]
      exact overTables_peel hg id htable
  case isFalse hkept =>
      rw [if_neg hkept]
      exact ⟨List.forall_mem_nil _, htable⟩

/-- A join tree over tables consists of tables. -/
theorem overTables_joinTree (hg : g.WellFounded) (id : NodeId) :
  (∀ leaf ∈ (g.joinTree id).leaves, g.isRelation leaf = true) →
    g.OverTables (g.joinTree id).folded ∧ g.isRelation id = true
  := by
  apply joinTree_induction hg (P := fun id =>
    (∀ leaf ∈ (g.joinTree id).leaves, g.isRelation leaf = true) →
      g.OverTables (g.joinTree id).folded ∧ g.isRelation id = true)
  · intro id hn hleaves
    rw [joinTree_other hg hn] at hleaves ⊢
    exact ⟨List.forall_mem_nil _, hleaves id (List.mem_singleton_self id)⟩
  · intro id kind l r predicates hn ih hleaves
    rw [joinTree_join hg hn] at hleaves ⊢
    obtain ⟨hleft, hright⟩ := List.forall_mem_append.mp hleaves
    obtain ⟨hbelow, htable⟩ := ih hleft
    have hjoin : keptInput? (g.node id) = none := by
      rw [hn]
      rfl
    have hl := (overTables_operand hg l _ _ htable).1
    have hr := (overTables_operand hg r _ _ (hright _ (List.mem_singleton_self _))).1
    refine ⟨List.forall_mem_cons.mpr ⟨fun t ht => ?_, List.forall_mem_append.mpr
      ⟨List.forall_mem_append.mpr ⟨hl, hbelow⟩, hr⟩⟩, ?_⟩
    · cases hjoin.symm.trans ht
    · rw [isRelation, hn]
      rfl

/-- What is folded for fusions are selections above projections, and projections. -/
theorem FusesTo.overTables (hg : g.WellFounded) {projection core : NodeId} {fs : List Fused}
    (h : g.FusesTo projection fs core) :
  g.OverTables (fusions fs)
  := by
  induction h with
  | nil => exact List.forall_mem_nil _
  | cons h _ ih =>
      obtain @⟨input, table, source, outer, inner, parts, _, hinner, habsorbed, _, _, hnode, _⟩ := h
      have hr : g.isRelation (g.peel input).table = true := by
        rw [isRelation, hinner]
        rfl
      rw [fusions, List.flatMap_cons, habsorbed]
      refine List.forall_mem_append.mpr ⟨List.forall_mem_append.mpr
        ⟨List.forall_mem_append.mpr ⟨(overTables_peel hg input hr).1, ?_⟩, ?_⟩, ih⟩
      · exact overTables_singleton (by rw [hinner]; rfl)
      · exact overTables_singleton (by rw [hnode]; rfl)

end Graph

namespace Block

variable {Q : QuerySpec} {old : Graph} {node source : NodeId} {b : Block}

/-- What is folded for the core of a block over a table consists of tables. -/
theorem Layout.overTables (hg : g.WellFounded) {c : Clauses} {ops : List NodeId}
    (h : Layout old g node c ops source) (hsource : g.isRelation source = true) :
  g.OverTables ops ∧ g.isRelation node = true
  := by
  cases h with
  | @aggregation input keys metrics having hn =>
      have hr : g.isRelation (g.peel node).table = true := by
        rw [Graph.isRelation, hn]
        rfl
      obtain ⟨hpeel, hnode⟩ := Graph.overTables_peel hg node hr
      have hinput := (Graph.overTables_operand hg input _ _ hsource).1
      refine ⟨List.forall_mem_append.mpr ⟨List.forall_mem_append.mpr ⟨hpeel, ?_⟩, hinput⟩, hnode⟩
      exact Graph.overTables_singleton (by rw [hn]; rfl)
  | @projection fs core top input outer selections hn hfuses =>
      have hr : g.isRelation (g.peel node).table = true := by
        rw [Graph.isRelation, hn]
        rfl
      obtain ⟨hpeel, hnode⟩ := Graph.overTables_peel hg node hr
      obtain ⟨hoperand, hend⟩ := Graph.overTables_operand hg _ _ _ hsource
      have hsorts := (Graph.overTables_sorts hg input hend).1
      have hcore := List.forall_mem_append.mpr
        ⟨Graph.overTables_singleton (g := g) (n := (g.peel node).table) (by rw [hn]; rfl),
          hfuses.overTables hg⟩
      exact ⟨List.forall_mem_append.mpr ⟨List.forall_mem_append.mpr
        ⟨List.forall_mem_append.mpr ⟨hpeel, hcore⟩, hsorts⟩, hoperand⟩, hnode⟩
  | other => exact Graph.overTables_peel hg node hsource

/-- What is folded at the top of a table consists of tables. -/
theorem overTables_top (hg : g.WellFounded) (node : NodeId)
    (htable : g.isRelation (top g node).2 = true) :
  g.OverTables (top g node).1.folding.fused
  := by
  obtain ⟨distincts, hfused, htop⟩ := top_operators g node
  obtain ⟨hdistincts, hend⟩ : g.OverTables distincts
      ∧ g.isRelation (g.chain Graph.sortInput? (g.chain Graph.limitInput? node).2).2 = true := by
    obtain ⟨rfl, hsame⟩ | ⟨n, rfl, rfl, hn⟩ := htop
    · exact ⟨List.forall_mem_nil _, hsame ▸ htable⟩
    · refine ⟨List.forall_mem_singleton.mpr fun t ht => ?_, ?_⟩
      · rw [hn] at ht
        cases ht
        exact htable
      · rw [Graph.isRelation, hn]
        rfl
  obtain ⟨hsorts, hbelow⟩ := Graph.overTables_sorts hg _ hend
  have hlimits := (Graph.overTables_limits hg node hbelow).1
  rw [hfused]
  exact List.forall_mem_append.mpr ⟨List.forall_mem_append.mpr ⟨hlimits, hsorts⟩, hdistincts⟩

/-- What is folded into the block of a table consists of tables. -/
theorem Origin.overTables (hg : g.WellFounded) (h : Origin old g node b) :
  g.OverTables b.folding.fused
  := by
  obtain ⟨built, ops, source, hlayout, hfused, _, hcompleted, _⟩ := h.layout hg
  have hleaves : ∀ leaf ∈ (g.joinTree source).leaves, g.isRelation leaf = true := by
    intro leaf hleaf
    obtain ⟨_, joins, _, hfrom, hlifts, _⟩ := hcompleted.source
    refine (hcompleted.sourced leaf ?_).isRelation hcompleted.nested
    rw [← JoinTree.leaves_tables] at hleaf
    simp only [Clauses.leaves, hfrom, TableSet.leaves, List.map_append,
      JoinClause.tables_of_lifts hlifts]
    exact List.mem_append_left _ hleaf
  obtain ⟨htree, hsource⟩ := Graph.overTables_joinTree hg source hleaves
  obtain ⟨hops, htop⟩ := hlayout.overTables hg hsource
  rw [hfused]
  exact List.forall_mem_append.mpr
    ⟨List.forall_mem_append.mpr ⟨overTables_top hg node htop, hops⟩, htree⟩

end Block

/-- All columns of a table are taken from a table. -/
theorem Folding.isRelation_star (hg : g.WellFounded) (hover : g.OverTables s.fused)
    (hjoin : ∀ j ∈ s.join, g.isJoin j = true) {id : NodeId} (hid : g.isRelation id = true) :
  g.isRelation (s.star g id) = true
  := by
  obtain ⟨i⟩ := id
  induction i using Nat.strongRecOn with
  | ind i ih =>
      rw [star_eq s hg]
      cases hfolded : s.contains ⟨i⟩ with
      | false => exact hid
      | true =>
          have hinput := hover ⟨i⟩ (List.contains_iff_mem.mp hfolded)
          have hbelow : ∀ c ∈ (g.node ⟨i⟩).children, g.isRelation c = true →
              g.isRelation (s.star g c) = true := fun c hc => ih c.index (hg.child_lt hc)
          cases hn : g.node ⟨i⟩ <;> rw [hn] at hinput hbelow
          case selection | sort | limit | distinct =>
            exact hbelow _ List.mem_cons_self (hinput _ rfl)
          case join =>
            cases hj : s.join with
            | none => exact hid
            | some j =>
                obtain ⟨_, _, _, _, hnode⟩ := Graph.eq_join (hjoin j hj)
                rw [Graph.isRelation]
                simp [hnode, Node.isRelation]
          all_goals exact hid

/-! ### Names of columns and of outputs -/

namespace Render.View

variable {v : View} {id : NodeId}

/-- A sort key of the block reads a column of a table of the FROM clause, and the column is written
without a label. -/
structure OrdersBy (v : View) (t : NodeId) (name : String) : Prop where
  key : ∃ k ∈ v.clauses.orderBy, (t, name) ∈ v.graph.denote .reads k.expr
  own : t ∈ v.clauses.leaves
  output : t ∉ v.clauses.outputs
  bare : v.column t name = .ok (quoted name)

/-- What the block outputs under the name is the column of the table: by a star over no other table,
or as this column. -/
inductive Shows (v : View) (t : NodeId) (name : String) (item : NodeId) : Prop where
  | star (hr : v.graph.isRelation item = true) (hnames : v.itemNames item = v.starNames)
      (hone : ∀ leaf ∈ v.clauses.leaves, leaf = t) : Shows v t name item
  | column (hn : v.graph.node (v.graph.unaliased item) = .column t name) : Shows v t name item

/-- No item of the select list has the name of the column and is another value. -/
def Uncaptured (v : View) (t : NodeId) (name : String) : Prop :=
  ∀ item ∈ v.clauses.select, name ∈ v.itemNames item → v.Shows t name item

theorem OrdersBy.needsAliases (h : v.OrdersBy t name) :
  v.clauses.scope.needsAliases = false
  := ((column_eq_bare_iff h.output).mp h.bare).2

/-- A column that is written without a label is one of the only table. -/
theorem OrdersBy.leaf_eq (hbinds : v.clauses.scope.Binds v.clauses) (h : v.OrdersBy t name) :
  ∀ leaf ∈ v.clauses.leaves, leaf = t
  := by
  intro leaf hleaf
  by_contra hne
  have hneeds := hbinds.needsAliases_iff.mpr (.inr ⟨leaf, hleaf, t, h.own, hne⟩)
  rw [h.needsAliases] at hneeds
  cases hneeds

/-- A table in a block that does not qualify its columns is written as a star without a label. -/
theorem itemNames_star (hneeds : v.clauses.scope.needsAliases = false)
    (hr : v.graph.isRelation id = true) :
  v.itemNames id = v.starNames
  := by
  rw [Graph.isRelation] at hr
  rw [itemNames, starText, hneeds]
  cases hn : v.graph.node id <;> rw [hn] at hr <;> first | (cases hr; done) | rfl

theorem itemNames_unnamed (hname : v.graph.name? id = none) (hr : v.graph.isRelation id = false) :
  v.itemNames id = []
  := by
  rw [Graph.name?] at hname
  rw [Graph.isRelation] at hr
  rw [itemNames]
  cases hn : v.graph.node id <;> rw [hn] at hname hr <;>
    first | (cases hr; done) | (cases hname; done) | rfl

end Render.View

namespace Block

variable {Q : QuerySpec} {old : Graph} {node : NodeId} {built b : Block}

/-- No item of a select list takes the place of a column of the only table just when the items that
have its name, before they are lifted, are this column under other names. -/
theorem Completed.uncaptured_iff (hg : g.WellFounded) {tables : TableSet}
    (h : Completed Q built tables g b) (hover : g.OverTables b.folding.fused) {v : Render.View}
    (hgraph : v.graph = g) (hselect : v.clauses.select = b.clauses.select)
    (hbinds : v.clauses.scope.Binds v.clauses) (horders : v.OrdersBy t name) :
  v.Uncaptured t name ↔ ∀ item ∈ built.clauses.select, g.name? item = some name →
    b.folding.Renames g item t name
  := by
  subst hgraph
  rw [Render.View.Uncaptured, hselect]
  constructor
  · intro huncaptured item hitem hname
    have hr := Graph.isRelation_of_name? hname
    obtain ⟨l, hl, hlifts⟩ := forall₂_exists h.select item hitem
    have hlifted : v.graph.name? l = some name := by
      cases hlifts with
      | star hstar _ => cases hr.symm.trans hstar
      | value _ hvalue => exact hvalue.name.trans hname
    have hshows := huncaptured l hl (by
      rw [Render.View.itemNames_named hlifted]
      exact List.mem_singleton_self name)
    cases hshows with
    | star htable _ _ => cases (Graph.isRelation_of_name? hlifted).symm.trans htable
    | column hn => exact (hlifts.column_iff hg hr).mp hn
  · intro hrenames l hl hmem
    obtain ⟨item, hitem, hlifts⟩ := forall₂_exists h.select.flip l hl
    cases hlifts with
    | star hr _ =>
        have htable := Folding.isRelation_star hg hover h.join hr
        exact .star htable (Render.View.itemNames_star horders.needsAliases htable)
          (horders.leaf_eq hbinds)
    | value hr hvalue =>
        cases hname : v.graph.name? l with
        | none =>
            rw [Render.View.itemNames_unnamed hname (hvalue.isRelation hg hr)] at hmem
            exact absurd hmem List.not_mem_nil
        | some given =>
            rw [Render.View.itemNames_named hname] at hmem
            obtain rfl := List.mem_singleton.mp hmem
            have hcolumn := hrenames item hitem (hvalue.name.symm.trans hname)
            exact .column
              (((Folding.LiftsSelected.value hr hvalue).column_iff hg hr).mpr hcolumn)

/-- The columns of outputs of a block are those that its sort keys keep. -/
theorem Built.outputs_eq {b₀ : Block} (h : Built Q b₀ node g built)
    (houtputs : b₀.clauses.outputs = b₀.folding.outputs) :
  built.clauses.outputs = built.folding.outputs
  := by
  cases h with
  | aggregation _ hdraws =>
      simp [hdraws.clauses, hdraws.folding, output, foldAll, houtputs]
  | projection _ _ _ _ hdraws =>
      simp [selecting, hdraws.clauses, hdraws.folding, fused_eq, sorted, output, foldAll, houtputs]
  | other _ _ hdraws =>
      simp [selecting, hdraws.clauses, hdraws.folding, foldAll, houtputs]

/-- A block that is of neither a projection nor an aggregation selects tables. -/
theorem Built.isRelation_select (hg : g.WellFounded) {b₀ : Block} (h : Built Q b₀ node g built)
    (hprojection : g.isProjection (g.peel node).table = false)
    (haggregation : g.isAggregation (g.peel node).table = false) :
  ∀ item ∈ built.clauses.select, g.isRelation item = true
  := by
  cases h with
  | aggregation hnode _ =>
      rw [Graph.isAggregation, hnode] at haggregation
      cases haggregation
  | projection hnode => cases hprojection.symm.trans hnode
  | other _ _ hdraws => exact List.forall_mem_singleton.mpr (hdraws.isRelation hg)

end Block

/-- A column that is no output comes from a key that reads a column of no output. -/
theorem Folding.LiftsKey.exists_read (hg : g.WellFounded) {k k' : SortKey} (h : s.LiftsKey g k k')
    (hread : (t, name) ∈ g.denote .reads k'.expr) (houtput : t ∉ s.outputs) :
  ∃ u field, (u, field) ∈ g.denote .reads k.expr ∧ u ∉ s.outputs
  := by
  by_contra hnone
  have hkept : g.denote .reads k'.expr = g.denote .reads k.expr := by
    rw [h.expr.denote, resolve_value hg]
    apply Graph.denote_withColumns_congr hg .reads _ Algebra.reads.column
    rintro ⟨u, field⟩ hu
    have hmem : u ∈ s.outputs := by
      by_contra hout
      exact hnone ⟨u, field, hu, hout⟩
    rw [Lift.resolve_column_eq hg, resolveColumn, if_pos]
    simp [hmem]
  rw [hkept] at hread
  exact hnone ⟨t, name, hread, houtput⟩

end RelSql

/-! ### Sorting by names -/

namespace RelSql

variable {V : Type} {I : Interpretation V} {g : Graph}
  {column names : NodeId → String → Context V → V}

namespace Interpretation

/-- What values mean when `names` says what columns mean, and next to it what they mean when
`column` does.  In the operands of reductions, columns mean the latter. -/
def naming (I : Interpretation V) (column names : NodeId → String → Context V → V) :
    Algebra ((Context V → V) × (Context V → V)) where
  column t name := (names t name, column t name)
  count t := ((I.algebra column).count t, (I.algebra column).count t)
  table t := ((I.algebra column).table t, (I.algebra column).table t)
  operator n parts :=
    let inner := (I.algebra column).operator n (parts.map Prod.snd)
    (if n.isReduction then inner else (I.algebra column).operator n (parts.map Prod.fst), inner)

theorem naming_operator (n : Node) (parts : List ((Context V → V) × (Context V → V))) :
  (I.naming column names).operator n parts
    = (if n.isReduction then (I.algebra column).operator n (parts.map Prod.snd)
        else (I.algebra column).operator n (parts.map Prod.fst),
      (I.algebra column).operator n (parts.map Prod.snd))
  := rfl

theorem denote_naming_snd (hg : g.WellFounded) (v : NodeId) :
  (g.denote (I.naming column names) v).2 = g.denote (I.algebra column) v
  := by
  obtain ⟨i⟩ := v
  induction i using Nat.strongRecOn with
  | ind i ih =>
      rcases (g.node ⟨i⟩).kinds with ⟨t, name, hn⟩ | ⟨t, hn⟩ | hn | hn
      · rw [Graph.denote_column hg _ hn, Graph.denote_column hg _ hn]
        rfl
      · rw [Graph.denote_countStar hg _ hn, Graph.denote_countStar hg _ hn]
        rfl
      · rw [Graph.denote_relation hg _ hn, Graph.denote_relation hg _ hn]
        rfl
      · rw [Graph.denote_operator hg _ hn, Graph.denote_operator hg _ hn, naming_operator,
          List.map_map]
        apply congrArg ((I.algebra column).operator _)
        exact List.map_congr_left fun c hc => ih c.index (hg.child_lt hc)

/-- Any other operator depends on the values of its operands in the same context only. -/
theorem operator_at {n : Node} (hn : n.isReduction = false)
    {operands operands' : List (Context V → V)} {x : Context V}
    (h : (operands.map fun f => f x) = operands'.map fun f => f x) :
  (I.algebra column).operator n operands x = (I.algebra column).operator n operands' x
  := by
  cases n
  case reduction a arg => cases hn
  case named arg name =>
    change (operands.map fun f => f x).headD I.null = (operands'.map fun f => f x).headD I.null
    rw [h]
  all_goals exact congrArg _ h

/-- A value means the same when the names of its columns do. -/
theorem denote_naming_fst (hg : g.WellFounded) {x : Context V} (v : NodeId)
    (h : ∀ t name, (t, name) ∈ g.denote .reads v → names t name x = column t name x) :
  (g.denote (I.naming column names) v).1 x = g.denote (I.algebra column) v x
  := by
  obtain ⟨i⟩ := v
  induction i using Nat.strongRecOn with
  | ind i ih =>
      rcases (g.node ⟨i⟩).kinds with ⟨t, name, hn⟩ | ⟨t, hn⟩ | hn | hn
      · rw [Graph.denote_column hg _ hn] at h ⊢
        rw [Graph.denote_column hg _ hn]
        exact h t name (List.mem_singleton_self _)
      · rw [Graph.denote_countStar hg _ hn, Graph.denote_countStar hg _ hn]
        rfl
      · rw [Graph.denote_relation hg _ hn, Graph.denote_relation hg _ hn]
        rfl
      · cases hreduction : (g.node ⟨i⟩).shape.isReduction with
        | true =>
            have hsnd : (g.denote (I.naming column names) ⟨i⟩).2
                = g.denote (I.algebra column) ⟨i⟩ :=
              denote_naming_snd hg ⟨i⟩
            rw [← hsnd, Graph.denote_operator hg _ hn, naming_operator, if_pos hreduction]
        | false =>
            rw [Graph.denote_operator hg _ hn, Graph.denote_operator hg _ hn, naming_operator,
              if_neg (Bool.eq_false_iff.mp hreduction)]
            apply operator_at hreduction
            simp only [List.map_map]
            apply List.map_congr_left
            intro c hc
            apply ih c.index (hg.child_lt hc)
            intro t name hread
            apply h t name
            rw [Graph.denote_operator hg _ hn]
            exact List.mem_flatten.mpr ⟨_, List.mem_map_of_mem hc, hread⟩

end Interpretation

namespace Clauses

/-- What a name means in a sort key: the output of the block that has it, if it is written without a
label for a column of a table of the FROM clause, and the column if there is no such output. -/
def named (I : Interpretation V) (g : Graph) (c : Clauses) (t : NodeId) (name : String)
    (x : Context V) : V :=
  let items := c.select.filter fun i => g.isRelation i || (g.name? i).isSome
  if t ∈ c.leaves ∧ t ∉ c.outputs ∧ c.scope.needsAliases = false then
    ((g.itemsRow (I.algebra (c.column I)) items x).lookup name).getD (c.column I t name x)
  else c.column I t name x

variable [DecidableEq V]

/-- The rows of a block over a table with the given rows, sorted by what the names in its sort keys
mean. -/
def evaluateByName (I : Interpretation V) (g : Graph) (c : Clauses) (source : List (Row V)) :
    List (Row V) :=
  let A := I.algebra (c.column I)
  let outputs := (c.contexts I g source).map fun x => x.withOutput (g.itemsRow A c.select x)
  let value (v : NodeId) := (g.denote (I.naming (c.column I) (c.named I g)) v).1
  c.finish ((I.sorted value c.orderBy outputs).map Context.output)

end Clauses

namespace Render.View

variable {v : View} {t : NodeId} {name : String}

/-- The output that a name stands for is the column when items with this name show it. -/
theorem lookup_eq (hg : v.graph.WellFounded) (houtput : t ∉ v.clauses.outputs) {x : Context V}
    {items : List NodeId} (hshows : ∀ i ∈ items, name ∈ v.itemNames i → v.Shows t name i)
    (hnamed : ∀ i ∈ items, v.graph.isRelation i = true ∨ (v.graph.name? i).isSome = true) {w : V}
    (h : (v.graph.itemsRow (I.algebra (v.clauses.column I)) items x).lookup name = some w) :
  w = v.clauses.column I t name x
  := by
  have hcolumn : v.clauses.column I t name x = I.get x.row name := by
    rw [Clauses.column, if_neg fun hmem => houtput (List.contains_iff_mem.mp hmem)]
  induction items with
  | nil => cases h
  | cons i items ih =>
      rw [Graph.itemsRow, List.flatMap_cons, List.lookup_append, Option.or_eq_some_iff] at h
      rcases h with h | ⟨_, h⟩
      · rcases hnamed i List.mem_cons_self with hr | hname
        · rw [Graph.itemRow_relation hr] at h
          rw [hcolumn, Interpretation.get, h, Option.getD_some]
        · obtain ⟨given, hname⟩ := Option.isSome_iff_exists.mp hname
          have hr := Graph.isRelation_of_name? hname
          rw [Graph.itemRow_value hr, Graph.fieldName, hname, Option.getD_some, List.lookup_cons]
            at h
          split at h
          case h_2 => cases h
          case h_1 hsame =>
              obtain rfl := eq_of_beq hsame
              cases h
              have hitem := hshows i List.mem_cons_self (by
                rw [itemNames_named hname]
                exact List.mem_singleton_self _)
              cases hitem with
              | star htable _ _ => cases hr.symm.trans htable
              | column hn =>
                  rw [← Graph.denote_unaliased hg Interpretation.algebra_transparent,
                    Graph.denote_column hg _ hn]
                  rfl
      · exact ih (fun i hi => hshows i (List.mem_cons_of_mem _ hi))
          (fun i hi => hnamed i (List.mem_cons_of_mem _ hi)) h

/-- Sorting by names is sorting by columns when no item of the select list takes the place of a
column. -/
theorem evaluateByName_eq [DecidableEq V] (hg : v.graph.WellFounded)
    (hbinds : v.clauses.scope.Binds v.clauses)
    (h : ∀ t name, v.OrdersBy t name → v.Uncaptured t name) (source : List (Row V)) :
  v.clauses.evaluateByName I v.graph source = v.clauses.evaluate I v.graph source
  := by
  rw [Clauses.evaluateByName, Clauses.evaluate, Clauses.selected]
  congr 2
  apply I.sorted_congr
  rw [List.forall₂_same]
  intro k hk
  refine ⟨rfl, fun x _ => Interpretation.denote_naming_fst hg k.expr fun t name hread => ?_⟩
  rw [Clauses.named]
  split
  case isFalse => rfl
  case isTrue hbare =>
      obtain ⟨hleaf, houtput, hneeds⟩ := hbare
      obtain ⟨label, hlabel, _⟩ := hbinds.exists_alias hleaf
      have huncaptured := h t name ⟨⟨k, hk, hread⟩, hleaf, houtput,
        (column_eq_bare_iff houtput).mpr ⟨by rw [hlabel]; rfl, hneeds⟩⟩
      cases hlookup : (v.graph.itemsRow (I.algebra (v.clauses.column I)) _ x).lookup name with
      | none => rfl
      | some w =>
          rw [Option.getD_some]
          refine lookup_eq hg houtput (fun i hi => huncaptured i (List.mem_of_mem_filter hi))
            (fun i hi => ?_) hlookup
          exact Bool.or_eq_true_iff.mp (List.mem_filter.mp hi).2

end Render.View

/-! ### Statements -/

namespace Graph

variable {root t : NodeId} {name : String} {st : Statement} {outer : List Select} {b : Select}

/-- What becomes of the sort keys of the block `b`, which is that of the table `node`: a column
`name` of the table `t` that is no output has been lifted from a key that reads one.  It keeps its
meaning among the items of the select list just when those that have its name are this column under
other names, and always when there is neither a projection nor an aggregation. -/
structure KeepsOrder (g : Graph) (options : Render.Options) (b : Select) (t : NodeId)
    (name : String) (node : NodeId) (built B : Block) : Prop where
  core : Block.Built .compilation (Block.top g node).1 (Block.top g node).2 g built
  lifted : ∃ k ∈ built.clauses.orderBy, ∃ k' ∈ b.clauses.orderBy, B.folding.LiftsKey g k k'
    ∧ (t, name) ∈ g.denote .reads k'.expr
    ∧ ∃ u field, (u, field) ∈ g.denote .reads k.expr ∧ u ∉ b.clauses.outputs
  uncaptured : (Render.view g options b).Uncaptured t name
    ↔ ∀ item ∈ built.clauses.select, g.name? item = some name → B.folding.Renames g item t name
  plain : g.isProjection (g.peel (Block.top g node).2).table = false →
    g.isAggregation (g.peel (Block.top g node).2).table = false →
    (Render.view g options b).Uncaptured t name

/-- A sort key that holds a column without a label, of a table of the FROM clause, means this column
and no output of the block with the same name just when each item of the select list that has the
name is this column under other names.  The items are those of the aggregation, or of the
projections that are fused, and the keys those of the sorts above or right below, so this is always
so if there is no projection and no aggregation.  If it is so for all such columns, then looking for
the names in the sort keys among the outputs first does not change the rows of the block, nor their
order. -/
theorem analyze_orders (hg : g.WellFounded) (hroot : g.Has root) (hst : g.analyze root = .ok st)
    (options : Render.Options) (hb : st.Holds outer b) :
  (∀ t name, (Render.view st.graph options b).OrdersBy t name →
      (∀ leaf ∈ b.clauses.leaves, leaf = t)
        ∧ ∃ old node B built, b.OriginatesFrom old st.graph node B
          ∧ st.graph.KeepsOrder options b t name node built B)
    ∧ ((∀ t name, (Render.view st.graph options b).OrdersBy t name →
        (Render.view st.graph options b).Uncaptured t name) →
      ∀ {V : Type} [DecidableEq V] (I : Interpretation V) (source : List (Row V)),
        b.clauses.evaluateByName I st.graph source = b.clauses.evaluate I st.graph source)
  := by
  obtain ⟨_, hg', _⟩ := analyze_rooted QuerySpec.compilation_meets_queryOf hg hroot hst
  have hbinds := (analyze_scopes hg hroot hst hb).1
  constructor
  · intro t name horders
    refine ⟨horders.leaf_eq hbinds, ?_⟩
    have hfrom : b.clauses.from? ≠ none := by
      intro hnone
      have hown : t ∈ b.clauses.leaves := horders.own
      rw [Clauses.leaves, hnone] at hown
      exact absurd hown List.not_mem_nil
    obtain ⟨old, node, B, horigin⟩ := analyze_origins hg hroot hst hb hfrom
    have hclauses := horigin.clauses
    have hselect : b.clauses.select = B.clauses.select := by rw [hclauses]
    have horderBy : b.clauses.orderBy = B.clauses.orderBy := by rw [hclauses]
    have hover := horigin.origin.overTables hg'
    obtain ⟨_, _, _, hbuilt, _, _, _, hcompleted, _⟩ := horigin.origin
    obtain ⟨houtputs₀, houtputs₁⟩ := Block.outputs_of_top st.graph node
    have houtputs : B.folding.outputs = b.clauses.outputs := by
      rw [hcompleted.outputs, ← hbuilt.outputs_eq (houtputs₁.trans houtputs₀.symm),
        ← hcompleted.same.1, hclauses]
    have hiff := hcompleted.uncaptured_iff hg' hover (v := Render.view st.graph options b) rfl
      hselect hbinds horders
    refine ⟨old, node, B, _, horigin, hbuilt, ?_, hiff, fun hprojection haggregation => ?_⟩
    · obtain ⟨k', hk', hread⟩ := horders.key
      obtain ⟨k, hk, hlifts⟩ := forall₂_exists hcompleted.orderBy.flip k' (horderBy ▸ hk')
      have hkept := hlifts.exists_read hg' hread (houtputs ▸ horders.output)
      rw [houtputs] at hkept
      exact ⟨k, hk, k', hk', hlifts, hread, hkept⟩
    · refine hiff.mpr fun item hitem hname => ?_
      have htable := hbuilt.isRelation_select hg' hprojection haggregation item hitem
      cases (isRelation_of_name? hname).symm.trans htable
  · intro huncaptured V _ I source
    exact Render.View.evaluateByName_eq (v := Render.view st.graph options b) hg' hbinds
      huncaptured source

/-- A sorted table of which one column is left, under the name of the other that the rows are sorted
by; and of which both are left. -/
def sortedThenRenamed : Graph := ⟨#[
  .table ⟨some "t", none, ⟨[⟨"foo", .int32⟩, ⟨"bar", .int32⟩]⟩⟩,
  .column ⟨0⟩ "foo",
  .column ⟨0⟩ "bar",
  .sort ⟨0⟩ [⟨⟨1⟩, true⟩],
  .named ⟨2⟩ "foo",
  .projection ⟨3⟩ [⟨4⟩],
  .projection ⟨3⟩ [⟨2⟩, ⟨1⟩]]⟩

/-- Two rows in the order of `bar`. -/
def twoRows : List (Row Int) :=
  [[("foo", 2), ("bar", 1)], [("foo", 1), ("bar", 2)]]

/-- With `bar` under the name `foo`, a sort by names is one by `bar`, since an item with this name
is not the column that the rows are to be sorted by.  With both columns it is one by `foo`. -/
theorem analyze_orders_sortedThenRenamed :
  (∃ st, sortedThenRenamed.analyze ⟨5⟩ = .ok st
      ∧ (Render.view st.graph .default st.query.first).OrdersBy ⟨0⟩ "foo"
      ∧ (∃ old node B built, st.query.first.OriginatesFrom old st.graph node B
        ∧ Block.Built .compilation (Block.top st.graph node).1 (Block.top st.graph node).2
          st.graph built
        ∧ ∃ item ∈ built.clauses.select, st.graph.name? item = some "foo"
          ∧ ¬ B.folding.Renames st.graph item ⟨0⟩ "foo")
      ∧ st.query.first.clauses.evaluate sums st.graph twoRows = [[("foo", 2)], [("foo", 1)]]
      ∧ st.query.first.clauses.evaluateByName sums st.graph twoRows
        = [[("foo", 1)], [("foo", 2)]])
    ∧ ∃ st, sortedThenRenamed.analyze ⟨6⟩ = .ok st
      ∧ (Render.view st.graph .default st.query.first).OrdersBy ⟨0⟩ "foo"
      ∧ ∀ source, st.query.first.clauses.evaluateByName sums st.graph source
        = st.query.first.clauses.evaluate sums st.graph source
  := by
  have hwf : sortedThenRenamed.WellFounded := by decide
  have horders : ∀ root, root ≠ ⟨0⟩ → ((sortedThenRenamed.analyze root).toOption.map fun st =>
      let v := Render.view st.graph .default st.query.first
      (v.clauses.orderBy.map fun k => v.graph.denote .reads k.expr,
        v.clauses.leaves, v.clauses.outputs, (v.column ⟨0⟩ "foo").toOption))
      = some ([[(⟨0⟩, "foo")]], [⟨0⟩], [root], some (Render.quoted "foo")) →
      ∃ st, sortedThenRenamed.analyze root = .ok st
        ∧ (Render.view st.graph .default st.query.first).OrdersBy ⟨0⟩ "foo" := by
    intro root hroot hrun
    obtain ⟨st, hst, hparts⟩ := Option.map_eq_some_iff.mp hrun
    simp only [Prod.mk.injEq] at hparts
    obtain ⟨hkeys, hleaves, houtputs, hcolumn⟩ := hparts
    have hmem : [((⟨0⟩ : NodeId), "foo")]
        ∈ st.query.first.clauses.orderBy.map fun k => st.graph.denote .reads k.expr :=
      hkeys ▸ List.mem_singleton_self _
    obtain ⟨k, hk, hread⟩ := List.mem_map.mp hmem
    refine ⟨st, eq_ok_of_toOption hst, ⟨k, hk, ?_⟩, ?_, ?_, eq_ok_of_toOption hcolumn⟩
    · change (⟨0⟩, "foo") ∈ st.graph.denote .reads k.expr
      rw [hread]
      exact List.mem_singleton_self _
    · rw [hleaves]
      exact List.mem_singleton_self _
    · rw [houtputs]
      exact fun hmem => hroot (List.mem_singleton.mp hmem).symm
  constructor
  · obtain ⟨st, hst, hordered⟩ := horders ⟨5⟩ (by decide) (by decide)
    have hselect : ((sortedThenRenamed.analyze ⟨5⟩).toOption.map fun st =>
        let v := Render.view st.graph .default st.query.first
        (v.clauses.select, v.itemNames ⟨4⟩, v.graph.isRelation ⟨4⟩,
          v.graph.node (v.graph.unaliased ⟨4⟩)))
        = some ([⟨4⟩], ["foo"], false, .column ⟨0⟩ "bar") := by
      decide +kernel
    have hrows : ((sortedThenRenamed.analyze ⟨5⟩).toOption.map fun st =>
        let c := st.query.first.clauses
        (c.evaluate sums st.graph twoRows, c.evaluateByName sums st.graph twoRows))
        = some ([[("foo", 2)], [("foo", 1)]], [[("foo", 1)], [("foo", 2)]]) := by
      decide
    rw [hst] at hselect hrows
    simp only [Except.toOption, Option.map_some, Option.some.injEq, Prod.mk.injEq] at hselect hrows
    obtain ⟨hitems, hnames, hr, hcolumn⟩ := hselect
    have hcaptured : ¬ (Render.view st.graph .default st.query.first).Uncaptured ⟨0⟩ "foo" := by
      intro huncaptured
      have hshows := huncaptured ⟨4⟩ (hitems ▸ List.mem_singleton_self _)
        (hnames ▸ List.mem_singleton_self _)
      cases hshows with
      | star htable _ _ => cases hr.symm.trans htable
      | column hn => exact absurd (hcolumn.symm.trans hn) (by decide)
    obtain ⟨_, old, node, B, built, horigin, hkeeps⟩ :=
      (analyze_orders hwf (by decide) hst .default (.inl st.query.holds_first)).1 _ _ hordered
    rw [hkeeps.uncaptured] at hcaptured
    push Not at hcaptured
    exact ⟨st, hst, hordered, ⟨old, node, B, built, horigin, hkeeps.core, hcaptured⟩, hrows⟩
  · obtain ⟨st, hst, hordered⟩ := horders ⟨6⟩ (by decide) (by decide)
    have hselect : ((sortedThenRenamed.analyze ⟨6⟩).toOption.map fun st =>
        let v := Render.view st.graph .default st.query.first
        (v.clauses.leaves, v.clauses.select, v.clauses.select.map v.itemNames,
          v.clauses.select.map fun item => v.graph.node (v.graph.unaliased item)))
        = some ([⟨0⟩], [⟨2⟩, ⟨1⟩], [["bar"], ["foo"]], [.column ⟨0⟩ "bar", .column ⟨0⟩ "foo"]) := by
      decide
    rw [hst] at hselect
    simp only [Except.toOption, Option.map_some, Option.some.injEq, Prod.mk.injEq] at hselect
    obtain ⟨hleaves, hitems, hnames, hcolumns⟩ := hselect
    rw [hitems] at hnames hcolumns
    refine ⟨st, hst, hordered, fun source => ?_⟩
    obtain ⟨_, hsame⟩ := analyze_orders hwf (by decide) hst .default (.inl st.query.holds_first)
    refine hsame ?_ sums source
    intro t name hordered item hitem hname
    obtain rfl := List.mem_singleton.mp (hleaves ▸ hordered.own)
    rw [hitems] at hitem
    simp only [List.map_cons, List.map_nil, List.cons.injEq, and_true] at hnames hcolumns
    rcases List.mem_pair.mp hitem with rfl | rfl
    · obtain rfl := List.mem_singleton.mp (hnames.1 ▸ hname)
      exact .column hcolumns.1
    · obtain rfl := List.mem_singleton.mp (hnames.2 ▸ hname)
      exact .column hcolumns.2

end Graph

end RelSql
