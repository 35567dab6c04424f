import RelSql.Proofs.Join.Hoisting
import RelSql.Proofs.Statement.Handles
import RelSql.Proofs.Statement.Origins

/-!
# The joins of a block

The operators below the table of a block lead down to a table, the source of the block, whose joins
are those of the FROM clause.  The entries of this clause are the operands of the joins, without the
selections that are taken off them, and the tables of rankings.  Two operands become one entry
exactly if one of them has its selections taken off and both stand over the same table then.  The
predicates of these selections come first in the WHERE clause, where they are sound if every join
above their operand preserves the filters of its side.
-/

namespace RelSql

/-- An operand of a join: whether its selections may filter the joined rows as well, and whether
it is a left operand. -/
structure Operand where
  node : NodeId
  hoist : Bool
  left : Bool

namespace Graph

variable {g g' : Graph} {id : NodeId}

/-- The entry of the FROM clause that an operand becomes. -/
def entry (g : Graph) (o : Operand) : NodeId :=
  (g.operand o.node o.hoist o.left).table

/-- One step of collecting the operands along the left side of a join. -/
def operandsStep (g : Graph) (below : NodeId → List Operand) (id : NodeId) : List Operand :=
  match g.node id with
  | .join kind l r _ =>
    let left : Operand := ⟨l, kind.preservesFilters true, true⟩
    (if g.isJoin (g.entry left) then below (g.entry left) else [left])
      ++ [⟨r, kind.preservesFilters false, false⟩]
  | _ => [⟨id, false, true⟩]

/-- The operands of the joins along the left side of a table, in order.  A table that is not a
join is the only one. -/
def operands (g : Graph) : NodeId → List Operand :=
  NodeId.recurse (fun _ => []) g.operandsStep

/-- The step of collecting operands is local, and the same in extended graphs. -/
theorem operandsStep_stable :
  NodeId.StableStep operandsStep
  := by
  constructor
  · intro g hg f f' id h
    rw [operandsStep, operandsStep]
    split
    case h_1 kind l r predicates hn =>
        have hl : l ∈ (g.node id).children := by
          rw [hn]
          exact List.mem_cons_self
        have hle := hg.operand_le l (kind.preservesFilters true) true
        simp only [entry, h _ (Nat.lt_of_le_of_lt hle (hg.child_lt hl))]
        rfl
    · rfl
  · intro g g' below id hg hg' h hid
    rw [operandsStep, operandsStep, h.node_eq hid]
    split
    case h_1 kind l r predicates hn =>
        obtain ⟨hl, _, _⟩ := hg.has_join hid hn
        simp only [entry, h.operand_eq hg hg' hl, h.isJoin_eq (hg.has_operand hl _ _)]
        rfl
    · rfl

theorem operands_eq (hg : g.WellFounded) (id : NodeId) :
  g.operands id = g.operandsStep g.operands id
  := NodeId.recurse_eq (operandsStep_stable.isLocal hg) id

theorem operands_other (hg : g.WellFounded) (hn : g.isJoin id = false) :
  g.operands id = [⟨id, false, true⟩]
  := by
  rw [operands_eq hg, operandsStep]
  split
  case h_1 h =>
      rw [isJoin, h] at hn
      cases hn
  · rfl

/-- The tables of a join tree are the entries of the operands. -/
theorem joinTree_leaves (hg : g.WellFounded) (id : NodeId) :
  (g.joinTree id).leaves = (g.operands id).map g.entry
  := by
  apply joinTree_induction hg (P := fun id =>
    (g.joinTree id).leaves = (g.operands id).map g.entry)
  · intro id hn
    rw [joinTree_other hg hn, operands_other hg hn]
    rfl
  · intro id kind l r predicates hn ih
    rw [joinTree_join hg hn, operands_eq hg, operandsStep, hn, JoinTree.leaves, ih,
      List.map_append]
    split
    · rfl
    case isFalse hjoin =>
        have hother := operands_other hg (Bool.eq_false_iff.mpr hjoin)
        rw [entry] at hother
        rw [hother]
        rfl

/-- The entry of an operand that keeps its selections is the operand. -/
theorem entry_of_keeps {o : Operand} (h : g.takesOff o.node o.hoist o.left = false) :
  g.entry o = o.node
  := by
  rw [entry, operand, h]
  rfl

/-- Two operands become one entry: they differ, the selections above one of them are taken off
it, and both stand over the same table then. -/
structure Collapses (g : Graph) (o o' : Operand) : Prop where
  differ : o.node ≠ o'.node
  takesOff : g.takesOff o.node o.hoist o.left = true
  entry : (g.peel o.node).table = g.entry o'

/-- Operands that differ become one entry just when they collapse, one way round or the
other. -/
theorem entry_eq_iff {o o' : Operand} (hne : o.node ≠ o'.node) :
  g.entry o = g.entry o' ↔ g.Collapses o o' ∨ g.Collapses o' o
  := by
  have htaken : ∀ {o : Operand}, g.takesOff o.node o.hoist o.left = true →
      g.entry o = (g.peel o.node).table := by
    intro o h
    rw [Graph.entry, operand, h]
    rfl
  constructor
  · intro hsame
    cases h : g.takesOff o.node o.hoist o.left with
    | true =>
        refine .inl ⟨hne, h, ?_⟩
        rw [← htaken h, hsame]
    | false =>
        cases h' : g.takesOff o'.node o'.hoist o'.left with
        | true =>
            refine .inr ⟨hne.symm, h', ?_⟩
            rw [← htaken h', hsame]
        | false =>
            rw [entry_of_keeps h, entry_of_keeps h'] at hsame
            exact absurd hsame hne
  · rintro (h | h)
    · rw [htaken h.takesOff, h.entry]
    · rw [htaken h.takesOff, h.entry]

/-- Pairwise distinct operands become pairwise distinct entries just when no two of them
collapse. -/
theorem entries_nodup_iff {operands : List Operand}
    (h : (operands.map Operand.node).Nodup) :
  (operands.map g.entry).Nodup ↔ ∀ o ∈ operands, ∀ o' ∈ operands, ¬ g.Collapses o o'
  := by
  constructor
  · intro hnodup o ho o' ho' hcollapses
    apply hcollapses.differ
    have hsame := (entry_eq_iff hcollapses.differ).mpr (.inl hcollapses)
    rw [List.inj_on_of_nodup_map hnodup ho ho' hsame]
  · intro hno
    apply List.Nodup.map_on ?_ (List.Nodup.of_map _ h)
    intro o ho o' ho' hsame
    by_contra hne
    have hnode : o.node ≠ o'.node := fun hnode => hne (List.inj_on_of_nodup_map h ho ho' hnode)
    rcases (entry_eq_iff hnode).mp hsame with hcollapses | hcollapses
    · exact hno o ho o' ho' hcollapses
    · exact hno o' ho' o ho hcollapses

end Graph

variable {g : Graph} {b : Select} {t : TableSet} {B : Block} {source : NodeId}

/-- The FROM clause `t` of the block `b`, which is `B` before aliases, joins the tables of `source`.
The block has been put together from the operators that lead down to `source` and from the joins
there.  The clauses `own` are these joins, with their predicates lifted, and the clauses `ranked`
the semi joins of the rankings.  In the WHERE clause the predicates `moved` are lifted from the
hoisted ones, and come before the others. -/
inductive Select.Joins (b : Select) (t : TableSet) (g : Graph) (B : Block) (source : NodeId) :
    Prop where
  | intro {old : Graph} {node : NodeId} {built : Clauses} {ops others moved rest : List NodeId}
      {own ranked : List JoinClause} (horigin : b.OriginatesFrom old g node B)
      (hlayout : Block.Layout old g (Block.top g node).2 built ops source)
      (hfused : B.folding.fused
        = (Block.top g node).1.folding.fused ++ ops ++ (g.joinTree source).folded)
      (hfirst : t.first = (g.joinTree source).first) (hjoins : t.joins = own ++ ranked)
      (hown : List.Forall₂ (JoinClause.Lifts B.folding g) (g.joinTree source).clauses own)
      (hreads : ∀ c ∈ own, ∀ p ∈ c.predicates, ∀ u ∈ g.tables p, u ∈ (g.joinTree source).leaves)
      (hranked : List.Forall₂ (JoinClause.Ranks B.folding g)
        (built.predicates.filter (Block.isRanking g)) ranked)
      (hdistinct : (ranked.map JoinClause.table).Nodup)
      (hfresh : ∀ c ∈ ranked, c.table ∉ (g.joinTree source).leaves)
      (hpredicates : built.predicates = (g.joinTree source).hoisted ++ others)
      (hwhere : b.clauses.predicates = moved ++ rest)
      (hmoved : List.Forall₂ (B.folding.Lifts .substitute g)
        ((g.joinTree source).hoisted.filter fun p => !Block.isRanking g p) moved)
      (hrest : List.Forall₂ (B.folding.Lifts .substitute g)
        (others.filter fun p => !Block.isRanking g p) rest) : Joins b t g B source

namespace Block

/-- The hoisted predicates come first in the WHERE clause that the operators of a block lead to. -/
theorem Layout.predicates {old : Graph} {node : NodeId} {c : Clauses} {ops : List NodeId}
    (h : Layout old g node c ops source) :
  ∃ others, c.predicates = (g.joinTree source).hoisted ++ others
  := by
  cases h with
  | aggregation _ hpredicates => exact ⟨_, hpredicates⟩
  | projection _ _ _ _ hpredicates =>
      rw [List.append_assoc] at hpredicates
      exact ⟨_, hpredicates⟩
  | other hpredicates => exact ⟨_, hpredicates⟩

/-- A join is its own source. -/
theorem Layout.source_eq (hg : g.WellFounded) {old : Graph} {node : NodeId} {c : Clauses}
    {ops : List NodeId} (hjoin : g.isJoin node = true)
    (h : Layout old g (top g node).2 c ops source) :
  source = node
  := by
  obtain ⟨kind, l, r, predicates, hn⟩ :
      ∃ kind l r predicates, g.node node = .join kind l r predicates := by
    rw [Graph.isJoin] at hjoin
    split at hjoin
    · exact ⟨_, _, _, _, by assumption⟩
    · cases hjoin
  have htop : (top g node).2 = node := by
    rw [top, Graph.chain_end Graph.follows_limit hg (by rw [hn]; rfl),
      Graph.chain_end Graph.follows_sort hg (by rw [hn]; rfl), distinctOf, hn]
  have hpeel : (g.peel node).table = node := by
    rw [Graph.peel_other hg (by rw [hn]; rfl)]
  rw [htop] at h
  cases h with
  | aggregation hnode =>
      rw [hpeel, hn] at hnode
      cases hnode
  | projection hnode =>
      rw [hpeel, hn] at hnode
      cases hnode
  | other => exact hpeel

/-- The node of a block is the table that it is the block of. -/
theorem Origin.node_eq (hg : g.WellFounded) {old : Graph} {node : NodeId}
    (h : Origin old g node B) :
  B.clauses.node = node
  := by
  obtain ⟨hold, e, hnode, hbuilt, _, _, _, hcompleted, _⟩ := h
  have hnode' := hnode.mono e
  obtain ⟨hkept, _⟩ := hbuilt.stored hg (has_top hg hnode') (by
    rw [outputs_top]
    exact fun t ht => absurd ht List.not_mem_nil)
  rw [hcompleted.rest, hkept, node_top]

end Block

namespace Select.Joins

/-- The tables of a FROM clause are the entries of the operands, and after them pairwise distinct
tables of rankings that are none of them. -/
theorem leaves (hg : g.WellFounded) (h : b.Joins t g B source) :
  ∃ more, t.leaves = (g.operands source).map g.entry ++ more ∧ more.Nodup
    ∧ ∀ leaf ∈ more, leaf ∉ (g.operands source).map g.entry
  := by
  obtain @⟨_, _, _, _, _, _, _, own, ranked, _, _, _, hfirst, hjoins, hown, _, _, hdistinct,
    hfresh, _⟩ := h
  have htables := JoinClause.tables_of_lifts hown
  refine ⟨ranked.map JoinClause.table, ?_, hdistinct, ?_⟩
  · rw [← Graph.joinTree_leaves hg, ← JoinTree.leaves_tables, TableSet.leaves, hfirst, hjoins]
    simp only [TableSet.leaves, JoinTree.tables, List.map_append, htables, List.cons_append]
  · intro leaf hleaf
    obtain ⟨clause, hc, rfl⟩ := List.mem_map.mp hleaf
    rw [← Graph.joinTree_leaves hg]
    exact hfresh clause hc

/-- The source of the block of a join is the join. -/
theorem source_eq (hg : g.WellFounded) (h : b.Joins t g B source)
    (hjoin : g.isJoin b.clauses.node = true) :
  source = b.clauses.node
  := by
  obtain ⟨horigin, hlayout, _⟩ := h
  have hnode := horigin.origin.node_eq hg
  have hsame : b.clauses.node = B.clauses.node := by rw [horigin.clauses]
  rw [hsame, hnode] at hjoin ⊢
  exact hlayout.source_eq hg hjoin

/-- Up to the source of a block, if it is a join, the tables that are folded are its joins and the
selections that are taken off their operands. -/
theorem contains_iff (hg : g.WellFounded) (h : b.Joins t g B source)
    (hjoin : g.isJoin source = true) {u : NodeId} (hu : u.index ≤ source.index) :
  B.folding.contains u = true ↔ u ∈ (g.joinTree source).folded
  := by
  obtain ⟨horigin, hlayout, hfused, _⟩ := h
  obtain ⟨hold, e, hnode, _⟩ := horigin.origin
  rw [Folding.contains, List.contains_iff_mem, hfused]
  exact hlayout.mem_fused_iff hg hold e hnode hjoin hu

end Select.Joins

namespace Graph

/-- Every block of a statement with a FROM clause joins the tables of a source. -/
theorem analyze_joins (hg : g.WellFounded) {root : NodeId} (hroot : g.Has root)
    {st : Statement} (h : g.analyze root = .ok st) {outer : List Select}
    (hb : st.Holds outer b) (ht : b.clauses.from? = some t) :
  st.graph.WellFounded ∧ ∃ B source, b.Joins t st.graph B source
  := by
  obtain ⟨_, hg', _⟩ := analyze_rooted QuerySpec.compilation_meets_queryOf hg hroot h
  obtain ⟨old, node, B, horigin⟩ := analyze_origins hg hroot h hb (by rw [ht]; nofun)
  obtain ⟨built, ops, source, hlayout, hfused, _, hcompleted, hassembles⟩ :=
    horigin.origin.layout hg'
  have hclauses := horigin.clauses
  have hfrom : B.clauses.from? = some t := by
    rw [hclauses] at ht
    exact ht
  have hwhere : b.clauses.predicates = B.clauses.predicates := by rw [hclauses]
  obtain @⟨_, _, _, own, ranked, _, _, _, hassembled, hown, _, hreads, hranked⟩ := hassembles
  obtain ⟨_, own', ranked', hcompleted', hown', hdistinct, hfresh, _⟩ := hcompleted.source
  obtain rfl := Option.some.inj (hfrom.symm.trans hassembled)
  -- both ways of telling the clauses apart give as many joins of the tree
  have hsame : own = own' ∧ ranked = ranked' := by
    have hjoins := congrArg TableSet.joins (Option.some.inj (hassembled.symm.trans hcompleted'))
    exact List.append_inj hjoins (hown.length_eq.symm.trans hown'.length_eq)
  obtain ⟨rfl, rfl⟩ := hsame
  obtain ⟨others, hpredicates⟩ := hlayout.predicates
  have hlifted := hcompleted.predicates
  rw [hpredicates, List.filter_append] at hlifted
  have hmoved := (List.forall₂_take_append _ _ _ hlifted.flip).flip
  have hrest := (List.forall₂_drop_append _ _ _ hlifted.flip).flip
  rw [JoinTree.leaves_tables] at hreads hfresh
  refine ⟨hg', B, source, .intro horigin hlayout hfused rfl rfl hown hreads
    (hranked.ranks.imp fun _ _ h => h.1) hdistinct hfresh hpredicates ?_ hmoved hrest⟩
  rw [hwhere, List.take_append_drop]

/-- The FROM entries of every block of a statement are the entries of the operands of the joins at
its source, and after them pairwise distinct tables that are none of them.  When the operands are
pairwise distinct, so are the FROM entries, unless two operands collapse; each entry has a label of
its own just when the entries are pairwise distinct, and columns are qualified just when that is
forced or there are two different entries. -/
theorem analyze_entries (hg : g.WellFounded) {root : NodeId} (hroot : g.Has root)
    {st : Statement} (h : g.analyze root = .ok st) {outer : List Select}
    (hb : st.Holds outer b) (ht : b.clauses.from? = some t) :
  ∃ B source more, b.Joins t st.graph B source
    ∧ t.leaves = (st.graph.operands source).map st.graph.entry ++ more
    ∧ (((st.graph.operands source).map Operand.node).Nodup →
      (t.leaves.Nodup ↔ ∀ o ∈ st.graph.operands source, ∀ o' ∈ st.graph.operands source,
        ¬ st.graph.Collapses o o'))
    ∧ ((t.leaves.map b.clauses.scope.alias?).Nodup ↔ t.leaves.Nodup)
    ∧ (b.clauses.scope.needsAliases = true ↔
      b.clauses.forceAliases = true ∨ ∃ leaf ∈ t.leaves, leaf ≠ t.first)
    ∧ (t.leaves.Nodup → t.joins ≠ [] → b.clauses.scope.needsAliases = true)
  := by
  obtain ⟨hg', B, source, hjoins⟩ := analyze_joins hg hroot h hb ht
  obtain ⟨hbinds, _⟩ := analyze_scopes hg hroot h hb
  have hleaves : b.clauses.leaves = t.leaves := by rw [Clauses.leaves, ht]
  have hneeds := hbinds.needsAliases_iff
  have hlabels := hbinds.labels_nodup_iff
  rw [hleaves] at hneeds hlabels
  have hqualified : b.clauses.scope.needsAliases = true ↔
      b.clauses.forceAliases = true ∨ ∃ leaf ∈ t.leaves, leaf ≠ t.first := by
    rw [hneeds]
    apply or_congr_right
    constructor
    · rintro ⟨a, ha, b, hb, hne⟩
      by_cases hfirst : a = t.first
      · exact ⟨b, hb, fun h => hne (hfirst.trans h.symm)⟩
      · exact ⟨a, ha, hfirst⟩
    · rintro ⟨a, ha, hne⟩
      exact ⟨a, ha, t.first, List.mem_cons_self, hne⟩
  obtain ⟨more, hlisted, hnodup, hfresh⟩ := hjoins.leaves hg'
  refine ⟨B, source, more, hjoins, hlisted, ?_, hlabels, hqualified, ?_⟩
  · intro hdistinct
    rw [← entries_nodup_iff hdistinct, hlisted, List.nodup_append']
    constructor
    · exact And.left
    · exact fun hentries => ⟨hentries, hnodup, fun leaf hl hl' => hfresh leaf hl' hl⟩
  · intro hleaves' hjoined
    rw [hqualified]
    obtain ⟨clause, rest, hrest⟩ := List.exists_cons_of_ne_nil hjoined
    have hmem : clause.table ∈ t.joins.map JoinClause.table := by
      rw [hrest]
      exact List.mem_cons_self
    refine .inr ⟨clause.table, List.mem_cons_of_mem _ hmem, ?_⟩
    intro hsame
    rw [hsame] at hmem
    exact (List.nodup_cons.mp hleaves').1 hmem

/-- A table filtered in two ways, and the join of both. -/
def filteredTwice : Graph := ⟨#[
  .table ⟨some "t", none, ⟨[⟨"x", .double⟩]⟩⟩,
  .literal (.integer 1),
  .column ⟨0⟩ "x",
  .binary .gt ⟨2⟩ ⟨1⟩,
  .binary .lt ⟨2⟩ ⟨1⟩,
  .selection ⟨0⟩ [⟨3⟩],
  .selection ⟨0⟩ [⟨4⟩],
  .column ⟨5⟩ "x",
  .column ⟨6⟩ "x",
  .binary .eq ⟨7⟩ ⟨8⟩,
  .join .inner ⟨5⟩ ⟨6⟩ [⟨9⟩]]⟩

/-- Two filters of one table collapse to one entry with one label, and no column is qualified. -/
theorem analyze_entries_filteredTwice :
  ∃ st, filteredTwice.analyze ⟨10⟩ = .ok st ∧ ∃ b t B, st.Holds [] b
    ∧ b.clauses.from? = some t ∧ b.Joins t st.graph B ⟨10⟩
    ∧ st.graph.Collapses ⟨⟨5⟩, true, true⟩ ⟨⟨6⟩, true, false⟩
    ∧ t.leaves = [⟨0⟩, ⟨0⟩] ∧ b.clauses.scope.needsAliases = false
    ∧ ¬ (t.leaves.map b.clauses.scope.alias?).Nodup
  := by
  have hrun : (filteredTwice.analyze ⟨10⟩).toOption.map (fun st =>
      ((st.query.first.clauses.from?.map TableSet.leaves, st.query.first.clauses.node,
        st.query.first.clauses.scope.needsAliases),
        (st.graph.isJoin ⟨10⟩, st.graph.takesOff ⟨5⟩ true true, (st.graph.peel ⟨5⟩).table,
          st.graph.entry ⟨⟨6⟩, true, false⟩)))
        = some ((some [⟨0⟩, ⟨0⟩], ⟨10⟩, false), (true, true, ⟨0⟩, ⟨0⟩)) := by
    decide
  obtain ⟨st, hst, hvalues⟩ := Option.map_eq_some_iff.mp hrun
  obtain ⟨hblock, hgraph⟩ := Prod.mk.inj hvalues
  obtain ⟨hfrom, hblock⟩ := Prod.mk.inj hblock
  obtain ⟨hnode, hneeds⟩ := Prod.mk.inj hblock
  obtain ⟨hjoin, hgraph⟩ := Prod.mk.inj hgraph
  obtain ⟨htakes, hgraph⟩ := Prod.mk.inj hgraph
  obtain ⟨htable, hentry⟩ := Prod.mk.inj hgraph
  obtain ⟨t, ht, hleaves⟩ := Option.map_eq_some_iff.mp hfrom
  have hok := eq_ok_of_toOption hst
  have hb : st.Holds [] st.query.first := .inl st.query.holds_first
  obtain ⟨_, hg', _⟩ := analyze_rooted QuerySpec.compilation_meets_queryOf
    (g := filteredTwice) (by decide) (by decide) hok
  obtain ⟨B, source, _, hjoins, _, _, hlabels, _⟩ :=
    analyze_entries (g := filteredTwice) (by decide) (by decide) hok hb ht
  rw [← hnode] at hjoin
  obtain rfl := hjoins.source_eq hg' hjoin
  refine ⟨st, hok, _, t, B, hb, ht, hnode ▸ hjoins, ⟨by decide, htakes, ?_⟩, hleaves, hneeds, ?_⟩
  · rw [htable, hentry]
  · rw [hlabels, hleaves]
    decide

/-- Every block of a statement joins the tables of a source, and the predicates that are hoisted
from the operands of the joins there come first in its WHERE clause.  All joins above the operand of
a hoisted predicate preserve its filters, for every predicate, just when the tree of the joins is
safe; and then filtering the operands before the joins gives the same rows as filtering the joined
rows. -/
theorem analyze_hoists (hg : g.WellFounded) {root : NodeId} (hroot : g.Has root)
    {st : Statement} (h : g.analyze root = .ok st) {outer : List Select}
    (hb : st.Holds outer b) (ht : b.clauses.from? = some t) :
  ∃ B source, b.Joins t st.graph B source
    ∧ (st.graph.joinTree source).hoisted
      = (st.graph.joinTree source).hoists.flatMap Hoist.predicates
    ∧ ((∀ x ∈ (st.graph.joinTree source).hoists, x.Preserved) ↔
      (st.graph.joinTree source).Safe)
    ∧ ((st.graph.joinTree source).Conditioned → (st.graph.joinTree source).Safe →
      ∀ {R : Type} (D : Contents R), (st.graph.joinTree source).filteredRows D
        = ((st.graph.joinTree source).joinedRows D).filter
          ((st.graph.joinTree source).passes D))
  := by
  obtain ⟨hg', B, source, hjoins⟩ := analyze_joins hg hroot h hb ht
  have hoffered := joinTree_offered hg' source
  exact ⟨B, source, hjoins, JoinTree.hoisted_eq _, JoinTree.preserved_iff_safe _ hoffered,
    fun hconditioned hsafe _ D => JoinTree.filteredRows_eq D _ hconditioned hoffered hsafe⟩

/-- A right join whose left side is the inner join of a filtered table and another one. -/
def filteredBelowRight : Graph := ⟨#[
  .table ⟨some "a", none, ⟨[⟨"x", .double⟩, ⟨"k", .int32⟩]⟩⟩,
  .table ⟨some "b", none, ⟨[⟨"y", .int32⟩]⟩⟩,
  .table ⟨some "c", none, ⟨[⟨"z", .int32⟩]⟩⟩,
  .column ⟨0⟩ "x",
  .literal (.integer 0),
  .binary .gt ⟨3⟩ ⟨4⟩,
  .selection ⟨0⟩ [⟨5⟩],
  .column ⟨6⟩ "k",
  .column ⟨1⟩ "y",
  .binary .eq ⟨7⟩ ⟨8⟩,
  .join .inner ⟨6⟩ ⟨1⟩ [⟨9⟩],
  .column ⟨10⟩ "k",
  .column ⟨2⟩ "z",
  .binary .eq ⟨11⟩ ⟨12⟩,
  .join .right ⟨10⟩ ⟨2⟩ [⟨13⟩]]⟩

/-- Contents of one row a table, for which every predicate holds but the filter. -/
def filteredContents : Contents Unit :=
  ⟨fun _ => [()], fun p _ => p ≠ ⟨5⟩⟩

/-- The filter of the table is hoisted over the right join, and drops the rows of the right
side that match nothing. -/
theorem analyze_hoists_filteredBelowRight :
  (∃ st, filteredBelowRight.analyze ⟨14⟩ = .ok st ∧ ∃ b t B, st.Holds [] b
    ∧ b.clauses.from? = some t ∧ b.clauses.predicates = [⟨5⟩] ∧ b.Joins t st.graph B ⟨14⟩
    ∧ (st.graph.joinTree ⟨14⟩).hoisted = [⟨5⟩]
    ∧ ¬ ∀ x ∈ (st.graph.joinTree ⟨14⟩).hoists, x.Preserved)
  ∧ (filteredBelowRight.joinTree ⟨14⟩).filteredRows filteredContents = [[none, none, some ()]]
  ∧ ((filteredBelowRight.joinTree ⟨14⟩).joinedRows filteredContents).filter
      ((filteredBelowRight.joinTree ⟨14⟩).passes filteredContents) = []
  := by
  have hrun : (filteredBelowRight.analyze ⟨14⟩).toOption.map (fun st =>
      (st.query.first.clauses.from?.isSome, st.query.first.clauses.node,
        st.query.first.clauses.predicates)) = some (true, ⟨14⟩, [⟨5⟩]) := by
    decide
  obtain ⟨st, hst, hvalues⟩ := Option.map_eq_some_iff.mp hrun
  obtain ⟨hsome, hvalues⟩ := Prod.mk.inj hvalues
  obtain ⟨hnode, hpredicates⟩ := Prod.mk.inj hvalues
  obtain ⟨t, ht⟩ := Option.isSome_iff_exists.mp hsome
  have hok := eq_ok_of_toOption hst
  have hb : st.Holds [] st.query.first := .inl st.query.holds_first
  obtain ⟨e, hg', _⟩ := analyze_rooted QuerySpec.compilation_meets_queryOf
    (g := filteredBelowRight) (by decide) (by decide) hok
  have htree : st.graph.joinTree ⟨14⟩ = filteredBelowRight.joinTree ⟨14⟩ :=
    e.joinTree_eq (by decide) hg' (by decide)
  obtain ⟨B, source, hjoins, _, hiff, _⟩ :=
    analyze_hoists (g := filteredBelowRight) (by decide) (by decide) hok hb ht
  have hjoin : st.graph.isJoin st.query.first.clauses.node = true := by
    rw [hnode]
    exact e.isJoin (by decide)
  obtain rfl := hjoins.source_eq hg' hjoin
  rw [hnode] at hjoins hiff
  refine ⟨⟨st, hok, _, t, B, hb, ht, hpredicates, hjoins, ?_, ?_⟩, by rfl, by rfl⟩
  · rw [htree]
    rfl
  · rw [hiff, htree]
    rintro ⟨_, hnil | hkind⟩
    · cases hnil
    · cases hkind

end Graph

end RelSql
