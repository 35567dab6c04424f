import RelSql.Proofs.Output.Folding
import RelSql.Proofs.Statement.Selects
import RelSql.Render.Query

/-!
# Names of select lists

The columns that the outermost block of a table outputs are the fields of its schema when every
item of its select list is written as what it stands for: a value under its name, the whole
FROM clause as a star, and a table of the FROM clause as a star with its label.
-/

namespace RelSql

open Analysis

namespace Render.View

/-- The names of the columns that a star without a label stands for. -/
def starNames (v : View) : List String :=
  match v.clauses.from? with
  | some t => t.fieldNames v.graph
  | none => []

/-- The names of the columns that an item of the select list is written as. -/
def itemNames (v : View) (id : NodeId) : List String :=
  match v.graph.node id with
  | .join _ _ _ _ => v.starNames
  | .named _ name | .column _ name => [name]
  | n =>
    if n.isRelation then
      if v.starText id = "*" then v.starNames else v.graph.fieldNames id
    else []

/-- The names of the columns that the block outputs. -/
def outputNames (v : View) : List String :=
  v.clauses.select.flatMap v.itemNames

variable {v : View} {id : NodeId} {name : String}

theorem itemNames_join (hjoin : v.graph.isJoin id = true) :
  v.itemNames id = v.starNames
  := by
  rw [Graph.isJoin] at hjoin
  rw [itemNames]
  cases hn : v.graph.node id <;> rw [hn] at hjoin <;> first | rfl | cases hjoin

/-- A value with a name is written under it. -/
theorem itemNames_named (hname : v.graph.name? id = some name) :
  v.itemNames id = [name]
  := by
  rw [Graph.name?] at hname
  rw [itemNames]
  cases hn : v.graph.node id <;> rw [hn] at hname <;> cases hname <;> rfl

/-- A star with a label is not one without. -/
theorem starText_eq_iff {label : String} (hlabel : v.clauses.scope.alias? id = some label) :
  v.starText id = "*" ↔ v.clauses.scope.needsAliases = false
  := by
  rw [starText, hlabel]
  cases v.clauses.scope.needsAliases with
  | false => simp
  | true =>
      simp only [if_true, Bool.true_eq_false, iff_false]
      intro h
      have hlength := congrArg String.length h
      rw [String.length_append] at hlength
      have hstar : ".*".length = 2 := rfl
      have hone : "*".length = 1 := rfl
      omega

/-- A table of the FROM clause that is no join is written as its columns. -/
theorem itemNames_entry (hbinds : v.clauses.scope.Binds v.clauses)
    (hr : v.graph.isRelation id = true) (hjoin : v.graph.isJoin id = false)
    (hleaf : id ∈ v.clauses.leaves) :
  (v.itemNames id).eraseDups = (v.graph.fieldNames id).eraseDups
  := by
  obtain ⟨label, hlabel, _⟩ := hbinds.exists_alias hleaf
  have hitem : v.itemNames id
      = if v.starText id = "*" then v.starNames else v.graph.fieldNames id := by
    rw [Graph.isJoin] at hjoin
    rw [Graph.isRelation] at hr
    rw [itemNames]
    cases hn : v.graph.node id <;> rw [hn] at hjoin hr <;>
      first | (cases hr; done) | (cases hjoin; done) | rfl
  rw [hitem]
  split
  case isFalse => rfl
  case isTrue hstar =>
      -- columns are not qualified, so all tables of the block are this one
      have hsame : ∀ leaf ∈ v.clauses.leaves, leaf = id := by
        intro leaf hmem
        by_contra hne
        have hneeds := hbinds.needsAliases_iff.mpr (.inr ⟨leaf, hmem, id, hleaf, hne⟩)
        rw [(starText_eq_iff hlabel).mp hstar] at hneeds
        cases hneeds
      rw [starNames]
      rw [Clauses.leaves] at hsame hleaf
      cases hfrom : v.clauses.from? with
      | none =>
          rw [hfrom] at hleaf
          exact absurd hleaf List.not_mem_nil
      | some t =>
          rw [hfrom] at hsame
          exact TableSet.fieldNames_of_single hsame

end Render.View

variable {Q : QuerySpec} {g g' : Graph}

namespace Block

/-- An item of the select list of a block over the tables of `source` is written as what it stands
for: a value that has a name, a table whose star is a join with all fields of `source`, none of
the semi joins and anti joins in which is written as a cross join, or a table whose star is an
entry of the FROM clause and no join. -/
inductive Exposes (g : Graph) (b : Block) (source item : NodeId) : Prop where
  | value (hr : g.isRelation item = false) (hname : (g.name? item).isSome = true)
  | whole (hr : g.isRelation item = true)
      (hstar : b.folding.star g item ∈ (g.joinTree source).whole)
      (hkinds : (g.joinTree source).KeepsKinds)
  | entry (hr : g.isRelation item = true)
      (hstar : b.folding.star g item ∈ (g.joinTree source).leaves)
      (hjoin : g.isJoin (b.folding.star g item) = false)

section

variable {built b : Block} {source : NodeId} {scope : AliasScope}

/-- The view of a block that is bound to a scope. -/
theorem Completed.starNames (h : Completed Q built (g.joinTree source).tables g b)
    {v : Render.View} (hgraph : v.graph = g) (hclauses : v.clauses = { b.clauses with scope }) :
  v.starNames = (g.joinTree source).tables.fieldNames g
  := by
  obtain ⟨node, joins, more, hfrom, hlifts, _, _, hkinds, _⟩ := h.source
  have hmore : more.flatMap (JoinClause.fieldNames g) = [] := by
    rw [List.flatMap_eq_nil_iff]
    intro c hc
    rw [JoinClause.fieldNames, hkinds c hc]
    rfl
  rw [Render.View.starNames, hgraph, hclauses]
  simp only [hfrom]
  rw [TableSet.fieldNames, List.flatMap_append, hmore, List.append_nil,
    JoinClause.fieldNames_of_lifts hlifts]
  rfl

/-- An exposed item of the select list is written as what it stands for. -/
theorem Completed.itemNames (hg : g.WellFounded)
    (h : Completed Q built (g.joinTree source).tables g b) (hnone : built.folding.join = none)
    {v : Render.View} (hgraph : v.graph = g) (hclauses : v.clauses = { b.clauses with scope })
    (hbinds : v.clauses.scope.Binds v.clauses) {item l : NodeId}
    (hexposed : Exposes g built source item) (hl : b.folding.LiftsSelected g item l) :
  (g.selectedNames item).eraseDups = (v.itemNames l).eraseDups
  := by
  subst hgraph
  have hstar := Folding.star_of_join hg h.fused hnone h.join item
  have hnames := Folding.fieldNames_star hg hnone item
  cases hexposed with
  | value hr hname =>
      obtain ⟨name, hname⟩ := Option.isSome_iff_exists.mp hname
      cases hl with
      | star hr' _ =>
          rw [hr] at hr'
          cases hr'
      | value _ hl =>
          rw [Render.View.itemNames_named (hl.name.trans hname), Graph.selectedNames_value hr,
            Graph.fieldName, hname]
          rfl
  | whole hr hwhole hkinds =>
      obtain ⟨hjoin, hsource⟩ := Graph.fieldNames_of_whole hg source _ hwhole
      cases hl with
      | value hr' _ =>
          rw [hr] at hr'
          cases hr'
      | star =>
          rw [Render.View.itemNames_join (hstar.1.trans hjoin), h.starNames rfl hclauses,
            Graph.fieldNames_joinTree hg source hkinds, ← hsource, hnames,
            Graph.selectedNames_relation hr]
  | entry hr hleaf hjoin =>
      have hmem : built.folding.star v.graph item ∈ v.clauses.leaves := by
        obtain ⟨node, joins, more, hfrom, hlifts, _⟩ := h.source
        rw [← JoinTree.leaves_tables] at hleaf
        rw [hclauses]
        simp only [Clauses.leaves, hfrom, TableSet.leaves, List.map_append,
          JoinClause.tables_of_lifts hlifts]
        exact List.mem_append_left _ hleaf
      cases hl with
      | value hr' _ =>
          rw [hr] at hr'
          cases hr'
      | star =>
          rw [hstar.2 hjoin]
          have hsourced : v.graph.Sourced b.nested (built.folding.star v.graph item) := by
            apply h.sourced
            rw [hclauses] at hmem
            exact hmem
          rw [Render.View.itemNames_entry hbinds (hsourced.isRelation h.nested) hjoin hmem, hnames,
            Graph.selectedNames_relation hr]

/-- A value with a name that a block selects is an output of the block. -/
theorem Completed.mem_outputNames {t : TableSet} (h : Completed Q built t g b)
    {v : Render.View} (hgraph : v.graph = g) (hclauses : v.clauses = { b.clauses with scope })
    {item : NodeId} (hitem : item ∈ built.clauses.select) {name : String}
    (hname : g.name? item = some name) :
  name ∈ v.outputNames
  := by
  subst hgraph
  obtain ⟨l, hmem, hl⟩ := forall₂_exists h.select item hitem
  have hlifted : v.graph.name? l = some name := by
    cases hl with
    | star hr _ =>
        rw [Graph.name?] at hname
        rw [Graph.isRelation] at hr
        cases hn : v.graph.node item <;> rw [hn] at hname hr <;> first | cases hr; done | cases hname
    | value _ hl => exact hl.name.trans hname
  rw [Render.View.outputNames, hclauses]
  refine List.mem_flatMap.mpr ⟨l, hmem, ?_⟩
  rw [Render.View.itemNames_named hlifted]
  exact List.mem_singleton_self name

/-- A completed block outputs what the items of its select list stand for when every one of them
is exposed. -/
theorem Completed.outputNames (hg : g.WellFounded)
    (h : Completed Q built (g.joinTree source).tables g b) (hnone : built.folding.join = none)
    {v : Render.View} (hgraph : v.graph = g) (hclauses : v.clauses = { b.clauses with scope })
    (hbinds : v.clauses.scope.Binds v.clauses)
    (hexposed : ∀ item ∈ built.clauses.select, Exposes g built source item) :
  v.outputNames.eraseDups = (built.clauses.select.flatMap g.selectedNames).eraseDups
  := by
  rw [Render.View.outputNames, hclauses]
  symm
  apply eraseDups_flatMap_congr
  have hselect := (List.forall₂_and_left _ _).mpr ⟨hexposed, h.select⟩
  exact hselect.imp fun item l ⟨hitem, hl⟩ =>
    h.itemNames hg hnone hgraph hclauses hbinds hitem hl

end

/-! ### The block of a table -/

/-- A table that is neither a projection nor an aggregation is selected whole: it is exposed when
no semi join and no anti join in it is written as a cross join. -/
theorem Built.exposes_other (hg : g.WellFounded) {b built : Block} {node : NodeId}
    (h : Built Q b node g built) (hnone : b.folding.join = none)
    (hbelow : ∀ n ∈ b.folding.fused, node.index < n.index)
    (hprojection : g.isProjection (g.peel node).table = false)
    (haggregation : ∀ input keys metrics having,
      g.node (g.peel node).table ≠ .aggregation input keys metrics having)
    (hkinds : (g.joinTree (g.peel node).table).KeepsKinds) :
  built.clauses.from? = some (g.joinTree (g.peel node).table).tables
    ∧ ∀ item ∈ built.clauses.select, Exposes g built (g.peel node).table item
  := by
  have hjoin := h.join_eq
  rw [hnone] at hjoin
  cases h with
  | aggregation hnode _ => exact absurd hnode (haggregation _ _ _ _)
  | projection hnode =>
      rw [hprojection] at hnode
      cases hnode
  | @other b' _ _ hdraws =>
      refine ⟨congrArg Clauses.from? hdraws.clauses, ?_⟩
      intro item hitem
      rw [List.mem_singleton.mp hitem]
      have hr := hdraws.isRelation hg
      cases hj : g.isJoin (g.peel node).table with
      | true =>
          refine .whole hr ?_ hkinds
          obtain ⟨kind, l, r, predicates, hn⟩ := Graph.eq_join hj
          rw [Folding.star_self hg hjoin (.inr hj), Graph.joinTree_join hg hn]
          exact List.mem_cons_self
      | false =>
          have hfused := congrArg Folding.fused hdraws.folding
          rw [Graph.joinTree_other hg hj] at hfused
          simp only [JoinTree.folded, List.append_nil, foldAll] at hfused
          have houtside : b'.folding.contains (g.peel node).table = false := by
            rw [Folding.contains, hfused, Bool.eq_false_iff]
            intro hmem
            have hlt : (g.peel node).table.index < (g.peel node).table.index := by
              rcases List.mem_append.mp (List.contains_iff_mem.mp hmem) with hmem | hmem
              · exact Nat.lt_of_le_of_lt (hg.peel_le node) (hbelow _ hmem)
              · exact hg.lt_of_mem_chain Graph.follows_selection node _ hmem
            exact absurd hlt (Nat.lt_irrefl _)
          have hstar := Folding.star_self hg hjoin (.inl houtside)
          refine .entry hr ?_ ?_
          · rw [hstar, Graph.joinTree_other hg hj]
            exact List.mem_singleton_self _
          · rw [hstar, hj]

end Block

end RelSql
