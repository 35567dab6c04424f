import RelSql.Proofs.Block.Range
import RelSql.Proofs.Join.Crossed
import RelSql.Proofs.Statement.Selects

/-!
# What scalar subqueries aggregate

The block of an aggregation without keys is over the FROM clause of the table that is aggregated.
What it selects aggregates the tables of its FROM clause only, just when the metric aggregates
tables only that the FROM clause stands for.

A scalar subquery is the aggregation of a whole value over the table that the value reads first.
It aggregates tables of its own FROM clause only just when the value aggregates, wherever it has
its reductions, only tables that the FROM clause stands for.  A value with reductions of several
tables is therefore not split up: the reductions of the others are of the blocks around it.

Every nested query of a block of a statement has been compiled from the table that it stands for.
What is known of the query of every table, by how the block of the table is built, is therefore
known of each of them.
-/

namespace RelSql

variable {Q : QuerySpec} {g g' : Graph}

namespace Block

/-- A completed block has the tables of the FROM clause that it is over. -/
theorem Completed.leaves {b b' : Block} {t : TableSet} (h : Completed Q b t g b') :
  t.leaves ⊆ b'.clauses.leaves
  := by
  obtain ⟨node, joins, more, hfrom, hjoins, _⟩ := h.source
  rw [Clauses.leaves, hfrom, TableSet.leaves, ← JoinClause.tables_of_lifts hjoins]
  intro u hu
  rcases List.mem_cons.mp hu with rfl | hu
  · exact List.mem_cons_self
  · apply List.mem_cons_of_mem
    rw [List.map_append]
    exact List.mem_append_left _ hu

/-- A block selects the metric `value` over a table.  What it selects reads and aggregates tables
of its FROM clause only, just when the metric reads and aggregates tables only that the FROM clause
over the table stands for. -/
structure Reduces (g : Graph) (t value : NodeId) (c : Clauses) : Prop where
  joined : g.joinedOver t ⊆ c.leaves
  select : ∃ l, c.select = [l] ∧ g.Has l
    ∧ g.denote (.within (· ∈ c.leaves)) l = g.denote (.within (g.Spans t)) value

end Block

end RelSql

namespace RelSql

/-! ### Sources of nested queries -/

section

variable {R : QuerySpec} {g : Graph}

namespace QuerySpec

end QuerySpec

end

/-! ### Aggregated values -/

variable {g g' : Graph}

/-- What a block selects over a table is the same in an extension of the graph. -/
theorem Block.Reduces.mono (e : g.Extends g') (hg : g.WellFounded) (hg' : g'.WellFounded)
    {t value : NodeId} (ht : g.Has t) (hvalue : g.Has value) {c : Clauses}
    (h : Reduces g t value c) :
  Reduces g' t value c
  := by
  obtain ⟨hfolded, hjoined⟩ := e.over_eq hg hg' ht
  have hspans : g'.Spans t = g.Spans t := by
    funext u
    rw [Graph.Spans, Graph.Spans, hfolded, hjoined]
  obtain ⟨l, hselect, hl, hmeaning⟩ := h.select
  refine ⟨hjoined ▸ h.joined, l, hselect, hl.mono e, ?_⟩
  rw [e.denote_eq hg hg' hl, e.denote_eq hg hg' hvalue, hspans, hmeaning]

namespace Graph

end Graph

end RelSql
