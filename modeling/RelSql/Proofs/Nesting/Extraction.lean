import Mathlib.Algebra.Order.BigOperators.Group.List
import Mathlib.Data.List.Nodup
import RelSql.Proofs.Block.Subquery
import RelSql.Proofs.Block.Witnesses
import RelSql.Proofs.Nesting.Settled
import RelSql.Proofs.Nesting.Bounds
import RelSql.Proofs.Nesting.Values
import RelSql.Proofs.Output.Firsts

/-!
# Enough depth for subqueries

The table that a subquery of a predicate is compiled from has the reach of the predicate at
most: the groups for a scalar subquery, the values for a membership test, and the rows that an
existence test asks for.

The subqueries of a predicate settle to a depth that is above the reach of the predicate.
-/

/-! ## Bounds for subqueries -/

namespace RelSql.Graph

open Nesting

variable {g : Graph} {id t table : NodeId}

/-- The groups of a table of which a value is the metric. -/
theorem depth_groups (hg : g.WellFounded) {keys metrics having : List NodeId}
    (hn : g.node table = .aggregation t keys metrics having)
    (h : (g.nesting t).Within (g.nesting id)) :
  (g.nesting table).depth ≤ (g.nesting id).reach
  := by
  have hdepth : (g.nesting table).depth = (g.nesting t).blockOver := by
    rw [nesting_of_node hg hn]
    rfl
  rw [hdepth]
  exact Nat.le_trans (blockOver_le_reach hg t) h.reach

/-- The values that membership is tested in. -/
theorem depth_membership (hg : g.WellFounded) {arg c : NodeId} {name : String} {negated : Bool}
    (hn : g.node id = .contains arg (.column c) negated) (hc : g.node c = .column t name)
    (htable : g.node table = .projection t [c]) :
  (g.nesting table).depth ≤ (g.nesting id).reach
  := by
  have hdepth : (g.nesting table).depth = (g.nesting t).blockOver := by
    rw [nesting_of_node hg htable]
    rfl
  have hcolumn : (g.nesting t).Within (g.nesting c) :=
    within_of_child hg (by rw [isRelation, hc]; rfl) (by rw [hc]; exact List.mem_singleton_self t)
  have hvalue : (g.nesting c).Within (g.nesting id) :=
    within_of_child hg (by rw [isRelation, hn]; rfl)
      (by rw [hn]; exact List.mem_cons_of_mem arg (List.mem_singleton_self c))
  rw [hdepth]
  exact Nat.le_trans (blockOver_le_reach hg t) (hcolumn.trans hvalue).reach

/-- The conjuncts of a predicate reach no further than the predicate. -/
theorem reach_conjuncts (hg : g.WellFounded) (id : NodeId) :
  ∀ p ∈ Block.conjuncts g id, (g.nesting p).reach ≤ (g.nesting id).reach
  := by
  apply Block.conjuncts_induction hg
    (P := fun id => ∀ p ∈ Block.conjuncts g id, (g.nesting p).reach ≤ (g.nesting id).reach)
  · intro id l r hn hsame hl hr
    obtain ⟨hchildl, hchildr⟩ := Block.children_and hn
    have hvalue : g.isRelation id = false := by
      rw [isRelation, hn]
      rfl
    rw [hsame, List.forall_mem_append]
    exact ⟨fun p hp => Nat.le_trans (hl p hp) (within_of_child hg hvalue hchildl).reach,
      fun p hp => Nat.le_trans (hr p hp) (within_of_child hg hvalue hchildr).reach⟩
  · intro id hsame p hp
    rw [hsame] at hp
    rw [List.mem_singleton.mp hp]

/-- The rankings of what a predicate reads, and those among its conjuncts, fit into its width. -/
theorem conjuncts_le_width (hg : g.WellFounded) (id : NodeId) :
  ((g.denote .reads id).map fun c => (g.nesting c.1).rankings).sum
      + g.rankingsAmong (Block.conjuncts g id)
    ≤ (g.nesting id).width
  := by
  apply Block.conjuncts_induction hg (P := fun id =>
    ((g.denote .reads id).map fun c => (g.nesting c.1).rankings).sum
      + g.rankingsAmong (Block.conjuncts g id) ≤ (g.nesting id).width)
  · intro id l r hn hsame hl hr
    have hreads : g.denote .reads id = g.denote .reads l ++ g.denote .reads r := by
      rw [denote_operator hg _ (by rw [hn]; rfl), hn]
      simp [Algebra.reads, Node.children]
    have hwidth : (g.nesting id).width = (g.nesting l).width + (g.nesting r).width := by
      rw [nesting_of_node hg hn]
      rfl
    rw [hreads, hsame, rankingsAmong_append, hwidth, List.map_append, List.sum_append]
    omega
  · intro id hsame
    rw [hsame]
    exact reads_le_width hg id

/-- The rankings of tables that a predicate reads, and those among its conjuncts, fit into its
width. -/
theorem tables_le_width (hg : g.WellFounded) {tables : List NodeId} (hnodup : tables.Nodup)
    (htables : ∀ t ∈ tables, ∃ name, (t, name) ∈ g.denote .reads id) :
  (tables.map fun t => (g.nesting t).rankings).sum + g.rankingsAmong (Block.conjuncts g id)
    ≤ (g.nesting id).width
  := by
  have hsubset : tables ⊆ (g.denote .reads id).map Prod.fst := by
    intro t ht
    obtain ⟨name, hname⟩ := htables t ht
    exact List.mem_map.mpr ⟨_, hname, rfl⟩
  obtain ⟨read, hperm, hsublist⟩ := List.subperm_of_subset hnodup hsubset
  have hsum : (tables.map fun t => (g.nesting t).rankings).sum
      ≤ (((g.denote .reads id).map Prod.fst).map fun t => (g.nesting t).rankings).sum := by
    rw [← (hperm.map _).sum_eq]
    exact (hsublist.map _).sum_le_sum fun _ _ => Nat.zero_le _
  rw [List.map_map] at hsum
  exact Nat.le_trans (Nat.add_le_add_right hsum _) (conjuncts_le_width hg id)

/-- The rows that an existence test asks for. -/
theorem depth_witnesses (hg : g.WellFounded) {predicate first rows : NodeId} {rest : List NodeId}
    (hn : g.node id = .any predicate) (h : g.Witnesses predicate first rest rows)
    (hnodup : (first :: rest).Nodup)
    (hread : ∀ t ∈ first :: rest, ∃ name, (t, name) ∈ g.denote .reads predicate) :
  (g.nesting rows).depth ≤ (g.nesting id).reach
  := by
  obtain @⟨joined, filtered, one, hjoined, _, hfiltered, _, hrows⟩ := h
  obtain ⟨hfirst, hrest⟩ := List.forall_mem_cons.mp hread
  have hover : ∀ t, (∃ name, (t, name) ∈ g.denote .reads predicate) →
      (g.nesting t).depth ≤ (g.nesting predicate).reach := by
    rintro t ⟨name, hname⟩
    apply Nat.le_trans (depth_le_blockOver hg t)
    exact Nat.le_trans (blockOver_le_reach hg t) (within_of_reads hg hname).reach
  obtain ⟨hsource, hrankings⟩ := hjoined.chained.nesting hg
    (Nat.le_trans (source_le_depth hg first) (hover first hfirst))
    (List.forall_mem_map.mpr fun r hr => hover r (hrest r hr))
  have hwidth : (g.nesting filtered).rankings ≤ (g.nesting predicate).width := by
    rw [rankings_selection hg hfiltered, hrankings, crossed, List.map_map]
    exact tables_le_width hg hnodup hread
  have hfilter : (g.nesting filtered).source
      ≤ block (g.nesting predicate).reach (g.nesting predicate).width := by
    rw [nesting_selection hg hfiltered] at hwidth ⊢
    apply block_mono _ hwidth
    apply Nat.max_le.mpr
    refine ⟨hsource, largest_le ?_⟩
    simpa using reach_conjuncts hg predicate
  have hdepth : (g.nesting rows).depth = (g.nesting filtered).blockOver := by
    rw [nesting_of_node hg hrows]
    rfl
  have hreach : (g.nesting predicate).reach + 2 + 6 * Number.twoPow (g.nesting predicate).width
      ≤ (g.nesting id).reach := by
    rw [nesting_of_node hg hn]
    simp only [Node.nesting, Node.children, ofValue, largest, total, List.map_cons, List.map_nil,
      List.foldr_cons, List.foldr_nil, Nat.add_eq, Nat.add_zero]
    omega
  rw [hdepth]
  apply Nat.le_trans (block_mono hfilter hwidth)
  rw [block, block]
  omega

end RelSql.Graph

/-! ## Enough depth for subqueries -/

namespace RelSql.Block

open Analysis

variable {Q : QuerySpec} {g : Graph} {compile compile' : NodeId → Analysis Query} {depth : Nat}

/-- Asking for rows takes no depth. -/
theorem shallow_witnesses (enclosing : List (List NodeId)) (predicate : NodeId) :
  Shallow (witnesses enclosing predicate)
  := by
  rw [witnesses]
  apply shallow_get
  intro g
  split
  · exact shallow_fail (by simp)
  · apply shallow_bind (shallow_foldlM (fun _ _ => shallow_push _) _ _)
    intro joined
    apply shallow_get
    intro g
    exact shallow_bind (shallow_push _) fun _ => shallow_bind (shallow_push _) fun _ =>
      shallow_push _

/-- A subquery settles when its table is nested less deeply. -/
theorem settles_nestQuery (hcompile : Q.Meets compile) (h : Agrees depth compile compile')
    (hg : g.WellFounded) (nested : List (Nested Query)) (node : NodeId) (kind : SubqueryKind)
    {table : NodeId} (htable : g.Has table) (hdepth : (g.nesting table).depth < depth) :
  SettlesTo (fun _ _ => True) (nestQuery compile nested node kind table)
    (nestQuery compile' nested node kind table) g
  := by
  rw [nestQuery, nestQuery]
  apply settlesTo_bind ⟨h table g hg htable hdepth, hcompile table g hg htable⟩
  exact fun _ g' hg' _ _ => (shallow_pure _).settlesTo (grows_pure hg' trivial)

/-- Extraction from values settles when extraction from each of them does. -/
theorem settles_extractAll {extract extract' : List (Nested Query) → NodeId →
      Analysis (List (Nested Query))} {n : Nat}
    (hextract : ∀ {g : Graph} {nested : List (Nested Query)} {id : NodeId}, id.index < n →
      g.WellFounded → g.Has id → (g.nesting id).reach < depth →
      SettlesTo (fun _ _ => True) (extract nested id) (extract' nested id) g)
    (ids : List NodeId) (hg : g.WellFounded) (nested : List (Nested Query))
    (hids : ∀ id ∈ ids, id.index < n ∧ g.Has id ∧ (g.nesting id).reach < depth) :
  SettlesTo (fun _ _ => True) (ids.foldlM extract nested) (ids.foldlM extract' nested) g
  := by
  apply (settlesTo_foldlM (R := fun g' rest _ => ∀ id ∈ rest,
    id.index < n ∧ g'.Has id ∧ (g'.nesting id).reach < depth) ids hg hids _).imp
  · exact fun _ _ _ _ _ => trivial
  · intro id rest nested' g' hg' _ hrest
    obtain ⟨⟨hlt, hid, hreach⟩, hrest⟩ := List.forall_mem_cons.mp hrest
    apply (hextract hlt hg' hid hreach).imp
    intro _ g'' hg'' e _ id' hid'
    obtain ⟨hlt', hhas, hreach'⟩ := hrest id' hid'
    rw [e.nesting_eq hg' hg'' hhas]
    exact ⟨hlt', hhas.mono e, hreach'⟩

/-- The parts of a value come before it, and reach no further. -/
theorem reach_children (hg : g.WellFounded) {id : NodeId} (hid : g.Has id)
    (hvalue : g.isRelation id = false) {n : Nat} (hn : id.index < n + 1)
    (hreach : (g.nesting id).reach < depth) :
  ∀ c ∈ (g.node id).children, c.index < n ∧ g.Has c ∧ (g.nesting c).reach < depth
  := by
  intro c hc
  have hlt := hg.child_lt hc
  have hwithin := (Graph.within_of_child hg hvalue hc).reach
  exact ⟨by omega, hg.has_child hid hc, by omega⟩

/-- A test that some row satisfies a predicate settles. -/
theorem settles_extract_any (hcompile : Q.Meets compile) (h : Agrees depth compile compile')
    (enclosing : List (List NodeId)) (hg : g.WellFounded) (nested : List (Nested Query))
    {id p : NodeId} (hid : g.Has id) (hreach : (g.nesting id).reach < depth)
    (hn : g.node id = .any p) :
  SettlesTo (fun _ _ => True)
    (do
      let table ← witnesses enclosing p
      nestQuery compile nested id .exists table)
    (do
      let table ← witnesses enclosing p
      nestQuery compile' nested id .exists table) g
  := by
  have hp : g.Has p := by
    apply hg.has_child hid
    rw [hn]
    exact List.mem_singleton_self p
  apply settlesTo_bind ((shallow_witnesses enclosing p).settlesTo (grows_witnesses hg enclosing hp))
  rintro table g₁ hg₁ e ⟨htable, first, rest, hfilter, hwitnesses⟩
  apply settles_nestQuery hcompile h hg₁ nested id _ htable
  rw [← e.nesting_eq hg hg₁ hid] at hreach
  apply Nat.lt_of_le_of_lt _ hreach
  apply Graph.depth_witnesses hg₁ (e.node_eq_of hn nofun) hwitnesses
  · rw [← hfilter, Graph.tables]
    exact (nodup_eraseDups _).filter _
  · intro t ht
    rw [← hfilter] at ht
    rw [← Graph.mem_tables_iff hg₁ (hp.mono e), e.mem_tables_iff hg hg₁ hp]
    exact List.mem_of_mem_filter ht

/-- A value that becomes a scalar subquery settles. -/
theorem settles_extract_scalar (hcompile : Q.Meets compile) (h : Agrees depth compile compile')
    (hg : g.WellFounded) (nested : List (Nested Query)) {id t : NodeId} (hid : g.Has id)
    (hreach : (g.nesting id).reach < depth) (hbase : g.baseTable id = some t) :
  SettlesTo (fun _ _ => True)
    (do
      let value ← Analysis.push (.named id Graph.defaultName)
      let table ← Analysis.push (.aggregation t [] [value] [])
      nestQuery compile nested id .scalar table)
    (do
      let value ← Analysis.push (.named id Graph.defaultName)
      let table ← Analysis.push (.aggregation t [] [value] [])
      nestQuery compile' nested id .scalar table) g
  := by
  rw [Graph.baseTable_eq hg hid] at hbase
  have ht := Graph.has_of_base hg hid hbase
  apply settlesTo_bind ((shallow_push _).settlesTo (grows_push hg
    (n := .named id Graph.defaultName) (List.forall_mem_singleton.mpr hid)))
  intro value g₁ hg₁ e₁ hvalue
  apply settlesTo_bind ((shallow_push _).settlesTo (grows_push hg₁
    (n := .aggregation t [] [value] []) (List.forall_mem_cons.mpr
      ⟨ht.mono e₁, List.forall_mem_singleton.mpr hvalue.1⟩)))
  intro table g₂ hg₂ e₂ htable
  have e := e₁.trans e₂
  apply settles_nestQuery hcompile h hg₂ nested id _ htable.1
  rw [← e.nesting_eq hg hg₂ hid] at hreach
  apply Nat.lt_of_le_of_lt (Graph.depth_groups hg₂ htable.2.1 _) hreach
  rw [e.nesting_eq hg hg₂ ht, e.nesting_eq hg hg₂ hid]
  exact Graph.within_of_base hg hbase

/-- The subqueries of a value settle to a depth above its reach, when extraction goes beyond
its handle. -/
theorem settles_extract (hcompile : Q.Meets compile) (h : Agrees depth compile compile')
    (enclosing : List (List NodeId)) (n : Nat) :
    ∀ {n' : Nat} {g : Graph} {nested : List (Nested Query)} {id : NodeId}, id.index < n →
      id.index < n' → g.WellFounded → g.Has id → (g.nesting id).reach < depth →
      SettlesTo (fun _ _ => True) (extract compile enclosing n nested id)
        (extract compile' enclosing n' nested id) g := by
  induction n with
  | zero =>
      intro n' g nested id hn
      exact absurd hn (Nat.not_lt_zero _)
  | succ n ih =>
      intro n' g nested id hn hn' hg hid hreach
      obtain _ | n' := n'
      · exact absurd hn' (Nat.not_lt_zero _)
      have hsame : SettlesTo (fun _ _ => True) (pure nested) (pure nested) g :=
        (shallow_pure nested).settlesTo (grows_pure hg trivial)
      have hall : ∀ ids : List NodeId, g.isRelation id = false → ids ⊆ (g.node id).children →
          SettlesTo (fun _ _ => True) (ids.foldlM (extract compile enclosing n) nested)
            (ids.foldlM (extract compile' enclosing n') nested) g := by
        intro ids hvalue hids
        apply settles_extractAll (n := min n n') (fun hlt => ih (by omega) (by omega)) ids hg
        intro c hc
        exact reach_children hg hid hvalue (by omega) hreach c (hids hc)
      rw [extract, extract]
      split
      · exact hsame
      · apply settlesTo_get
        split
        case h_1 p hnode => exact settles_extract_any hcompile h enclosing hg nested hid hreach hnode
        case h_2 arg c negated hnode =>
            split
            case h_1 t name hc =>
                have hvalue : g.isRelation id = false := by
                  rw [Graph.isRelation, hnode]
                  rfl
                have hparts := reach_children hg hid hvalue hn hreach
                rw [hnode] at hparts
                obtain ⟨_, harg, hargReach⟩ := hparts arg List.mem_cons_self
                obtain ⟨_, hcolumn, _⟩ :=
                  hparts c (List.mem_cons_of_mem arg (List.mem_singleton_self c))
                have hlt : arg.index < id.index := by
                  apply hg.child_lt
                  rw [hnode]
                  exact List.mem_cons_self
                have ht : g.Has t := by
                  apply hg.has_child hcolumn
                  rw [hc]
                  exact List.mem_singleton_self t
                apply settlesTo_bind ((shallow_push _).settlesTo (grows_push hg
                  (n := .projection t [c]) (List.forall_mem_cons.mpr
                    ⟨ht, List.forall_mem_singleton.mpr hcolumn⟩)))
                intro table g₁ hg₁ e₁ htable
                have hdepth := Graph.depth_membership hg₁ (e₁.node_eq_of hnode (by simp))
                  (e₁.node_eq_of hc (by simp)) htable.2.1
                rw [e₁.nesting_eq hg hg₁ hid] at hdepth
                apply settlesTo_bind (settles_nestQuery hcompile h hg₁ nested id _ htable.1
                  (Nat.lt_of_le_of_lt hdepth hreach))
                intro nested' g₂ hg₂ e₂ _
                have e := e₁.trans e₂
                apply ih (by omega) (by omega) hg₂ (harg.mono e)
                rw [e.nesting_eq hg hg₂ harg]
                exact hargReach
            · exact (shallow_fail (e := .membershipInValue) (by simp)).settlesTo (grows_fail hg _)
        case h_3 arg values negated hnode =>
            apply hall (arg :: values) (by rw [Graph.isRelation, hnode]; rfl)
            rw [hnode]
            exact List.Subset.refl _
        case h_4 => exact hsame
        case h_5 => exact hsame
        case h_6 =>
            split
            · exact hsame
            case isFalse hr =>
                split
                · cases hbase : g.baseTable id with
                  | none =>
                      exact (shallow_fail (e := .reductionWithoutTable) (by simp)).settlesTo
                        (grows_fail hg _)
                  | some t => exact settles_extract_scalar hcompile h hg nested hid hreach hbase
                · exact hall _ (Bool.eq_false_iff.mpr hr) (List.Subset.refl _)

/-- The subqueries of a block settle to a depth above the reach of its predicates. -/
theorem settles_extractSubqueries
    {compile compile' : List (List NodeId) → NodeId → Analysis Query}
    (hcompile : ∀ enclosing, Q.Meets (compile enclosing))
    (h : ∀ enclosing, Agrees depth (compile enclosing) (compile' enclosing))
    (enclosing : List (List NodeId)) (hg : g.WellFounded) {b : Block}
    (hpredicates : ∀ p ∈ b.clauses.predicates, g.Has p ∧ (g.nesting p).reach < depth) :
  Settles (b.extractSubqueries compile enclosing) (b.extractSubqueries compile' enclosing) g
  := by
  rw [extractSubqueries, extractSubqueries]
  split
  · exact (shallow_pure b).settles g
  · apply settles_then _ fun nested => shallow_get fun g => shallow_pure _
    have hall : ∀ p ∈ b.clauses.predicates,
        p.index < g.size ∧ g.Has p ∧ (g.nesting p).reach < depth :=
      fun p hp => ⟨(hpredicates p hp).1, hpredicates p hp⟩
    apply (settles_extractAll _ b.clauses.predicates hg b.nested hall).toSettles
    intro g nested id _ hg hid hreach
    exact settles_extract (hcompile _) (h _) _ _ (Nat.lt_succ_self _) (Nat.lt_succ_self _) hg hid
      hreach

end RelSql.Block
