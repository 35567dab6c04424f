import RelSql.Proofs.Block.Descent
import RelSql.Proofs.Block.Scope
import RelSql.Proofs.Statement.Selects

/-!
# Scopes and origins of blocks

A block of a query stands inside other blocks, whose tables it may read.  The subqueries of a WHERE
clause stand inside the block of that clause, and the derived tables of a FROM clause stand beside
it.  What holds of the block of every table, whatever blocks it is compiled inside, holds of every
block of the query of a statement, if it does not depend on aliases.
-/

namespace RelSql

open Analysis

variable {enclosing scope : List (List NodeId)} {b : Select}

namespace Query

/-- The block `b` is one of the blocks of a query that stands inside the blocks `enclosing`, and
`scope` lists the tables of the blocks around `b`, and of `b`. -/
inductive Stands : List (List NodeId) → Query → List (List NodeId) → Select → Prop where
  | block {enclosing : List (List NodeId)} {c : Clauses} {nested : List (Nested Query)} :
    Stands enclosing (.select c nested) (enclosing ++ [c.leaves]) ⟨c, nested⟩
  | table {enclosing scope : List (List NodeId)} {c : Clauses} {nested : List (Nested Query)}
      {s : Nested Query} {b : Select} (hs : s ∈ nested) (hkind : s.kind = .table)
      (h : Stands enclosing s.query scope b) : Stands enclosing (.select c nested) scope b
  | subquery {enclosing scope : List (List NodeId)} {c : Clauses} {nested : List (Nested Query)}
      {s : Nested Query} {b : Select} (hs : s ∈ nested) (hkind : s.kind ≠ .table)
      (h : Stands (enclosing ++ [c.leaves]) s.query scope b) :
    Stands enclosing (.select c nested) scope b
  | left {enclosing scope : List (List NodeId)} {l r : Query} {distinct : Bool} {b : Select}
      (h : Stands enclosing l scope b) : Stands enclosing (.union l r distinct) scope b
  | right {enclosing scope : List (List NodeId)} {l r : Query} {distinct : Bool} {b : Select}
      (h : Stands enclosing r scope b) : Stands enclosing (.union l r distinct) scope b

/-- Every block of a query stands inside some blocks. -/
theorem Holds.stands {q : Query} {outer : List Select} (h : q.Holds outer b) :
    ∀ enclosing, ∃ scope, q.Stands enclosing scope b := by
  induction h with
  | block => exact fun enclosing => ⟨_, .block⟩
  | @nested c nested s _ _ hs _ ih =>
      intro enclosing
      by_cases hkind : s.kind = .table
      · obtain ⟨scope, hscope⟩ := ih enclosing
        exact ⟨scope, .table hs hkind hscope⟩
      · obtain ⟨scope, hscope⟩ := ih (enclosing ++ [c.leaves])
        exact ⟨scope, .subquery hs hkind hscope⟩
  | left _ ih => exact fun enclosing => (ih enclosing).imp fun _ h => .left h
  | right _ ih => exact fun enclosing => (ih enclosing).imp fun _ h => .right h

/-- What holds of every block of a query, with the tables of the block and of those around it. -/
def EverywhereIn (enclosing : List (List NodeId)) (P : List (List NodeId) → Select → Prop)
    (q : Query) : Prop :=
  ∀ scope b, q.Stands enclosing scope b → P scope b

variable {P : List (List NodeId) → Select → Prop}

/-- The blocks around a nested query of a block with the tables `leaves`. -/
def around (enclosing : List (List NodeId)) (leaves : List NodeId) (s : Nested Query) :
    List (List NodeId) :=
  if s.kind = .table then enclosing else enclosing ++ [leaves]

theorem everywhereIn_select {c : Clauses} {nested : List (Nested Query)} :
  (Query.select c nested).EverywhereIn enclosing P
    ↔ P (enclosing ++ [c.leaves]) ⟨c, nested⟩
      ∧ ∀ s ∈ nested, s.query.EverywhereIn (around enclosing c.leaves s) P
  := by
  constructor
  · refine fun h => ⟨h _ _ .block, fun s hs scope b hb => h scope b ?_⟩
    by_cases hkind : s.kind = .table
    · rw [around, if_pos hkind] at hb
      exact .table hs hkind hb
    · rw [around, if_neg hkind] at hb
      exact .subquery hs hkind hb
  · rintro ⟨hblock, hnested⟩ scope b hb
    cases hb with
    | block => exact hblock
    | table hs hkind hb =>
        apply hnested _ hs scope b
        rw [around, if_pos hkind]
        exact hb
    | subquery hs hkind hb =>
        apply hnested _ hs scope b
        rw [around, if_neg hkind]
        exact hb

theorem everywhereIn_union {l r : Query} {distinct : Bool} :
  (Query.union l r distinct).EverywhereIn enclosing P
    ↔ l.EverywhereIn enclosing P ∧ r.EverywhereIn enclosing P
  := by
  constructor
  · exact fun h => ⟨fun scope b hb => h scope b (.left hb), fun scope b hb => h scope b (.right hb)⟩
  · rintro ⟨hl, hr⟩ scope b hb
    cases hb with
    | left hb => exact hl scope b hb
    | right hb => exact hr scope b hb

/-- What depends neither on aliases nor on references holds of every block without them. -/
theorem everywhereIn_unbound (hP : ∀ scope b, P scope b.unbound ↔ P scope b) (q : Query) :
    ∀ enclosing, q.unbound.EverywhereIn enclosing P ↔ q.EverywhereIn enclosing P := by
  induction q using Query.induction with
  | select c nested ih =>
      intro enclosing
      rw [unbound_select, everywhereIn_select, everywhereIn_select, List.forall_mem_map]
      exact and_congr (hP _ ⟨c, nested⟩) (forall₂_congr fun s hs => ih s hs _)
  | union l r distinct hl hr =>
      intro enclosing
      rw [unbound_union, everywhereIn_union, everywhereIn_union, hl, hr]

end Query

namespace QuerySpec

variable {g : Graph} {P : List (List NodeId) → Select → Prop}

/-- What holds of the block of every table, also when its columns are qualified, holds of every
block of a compiled query. -/
theorem everywhereIn_of_compiledIn (hg : g.WellFounded)
    (hP : ∀ (enclosing : List (List NodeId)) (node : NodeId) (b : Block) (forceAliases : Bool),
      b.Inside enclosing g node →
        P (enclosing ++ [b.clauses.leaves]) ⟨{ b.clauses with forceAliases }, b.nested⟩)
    (q : Query) :
    ∀ (enclosing : List (List NodeId)) (node : NodeId), compiledIn enclosing g node q →
      q.EverywhereIn enclosing P := by
  induction q using Query.induction with
  | select c nested ih =>
      intro enclosing node h
      obtain ⟨q₀, hbuilds, hq⟩ := exists_builds hg h
      cases hbuilds with
      | union _ _ _ => rcases hq with hq | hq <;> cases hq
      | @block b hb =>
          obtain ⟨force, hclauses, rfl⟩ :
              ∃ force, c = { b.clauses with forceAliases := force } ∧ nested = b.nested := by
            rcases hq with hq | hq <;> cases hq
            · exact ⟨b.clauses.forceAliases, rfl, rfl⟩
            · exact ⟨true, rfl, rfl⟩
          have hleaves : c.leaves = b.clauses.leaves := by
            rw [hclauses]
            rfl
          rw [Query.everywhereIn_select, hleaves, hclauses]
          refine ⟨hP enclosing node b force hb, ?_⟩
          intro s hs
          rw [Query.around]
          cases hb.placed s hs with
          | table hkind hcompiled =>
              rw [if_pos hkind]
              exact ih s hs enclosing _ hcompiled
          | other hkind hcompiled =>
              rw [if_neg (by rcases hkind with hkind | hkind <;> rw [hkind] <;> exact nofun)]
              exact ih s hs _ _ hcompiled
          | test hasks =>
              obtain ⟨rows, _, hcompiled⟩ := hasks.compiled
              rw [if_neg (by rw [hasks.kind]; exact nofun)]
              exact ih s hs _ rows hcompiled
  | union l r distinct hl hr =>
      intro enclosing node h
      obtain ⟨q₀, hbuilds, hq⟩ := exists_builds hg h
      cases hbuilds with
      | block _ => rcases hq with hq | hq <;> cases hq
      | @union _ _ _ left right _ hleft hright =>
          have hsame : l = left ∧ r = right := by
            rcases hq with hq | hq <;> cases hq <;> exact ⟨rfl, rfl⟩
          obtain ⟨rfl, rfl⟩ := hsame
          exact Query.everywhereIn_union.mpr ⟨hl enclosing _ hleft, hr enclosing _ hright⟩

theorem compiledIn_meets_queryOf :
  (compiledIn []).Meets queryOf
  := by
  intro node g hg hnode
  rw [queryOf]
  apply grows_get
  exact compiledIn_meets _ [] node g hg hnode

end QuerySpec

/-- What holds of the block of every table, and of values from no table, holds of every block of the
query of a statement, with the tables that are in scope there. -/
theorem Graph.analyze_everywhereIn {g : Graph} (hg : g.WellFounded) {root : NodeId}
    (hroot : g.Has root) {st : Statement} (h : g.analyze root = .ok st)
    {P : List (List NodeId) → Select → Prop}
    (hP : ∀ (enclosing : List (List NodeId)) (node : NodeId) (b : Block) (forceAliases : Bool),
      b.Inside enclosing st.graph node →
        P (enclosing ++ [b.clauses.leaves]) ⟨{ b.clauses with forceAliases }, b.nested⟩)
    (hconstant : ∀ node values,
      P [[]] ⟨{ Clauses.ofNode node with select := values }, []⟩)
    (hunbound : ∀ scope b, P scope b.unbound ↔ P scope b) :
  st.query.EverywhereIn [] P
  := by
  obtain ⟨_, hg', q, hq, hbind⟩ := analyze_rooted QuerySpec.compiledIn_meets_queryOf hg hroot h
  have hquery : q.EverywhereIn [] P := by
    cases hq with
    | table _ hq => exact QuerySpec.everywhereIn_of_compiledIn hg' hP q [] _ hq
    | constant _ _ =>
        exact Query.everywhereIn_select.mpr ⟨hconstant _ _, fun s hs => absurd hs List.not_mem_nil⟩
  have hsame : st.query.unbound = q.unbound := by
    rw [show st.query = _ from congrArg Prod.fst hbind, Query.unbound_bind]
    exact Query.unbound_refer (q.repeated st.graph) q
  rw [← Query.everywhereIn_unbound hunbound, hsame]
  exact (Query.everywhereIn_unbound hunbound q []).mpr hquery

end RelSql

/-! ### Where blocks come from

Every block is that of a table, compiled in a graph that has grown since.  What has been folded into
it, how its FROM clause has been put together and what its values have been lifted from can still be
read off the graph that it has led to.
-/

namespace RelSql

open Analysis

variable {old g g' : Graph} {node : NodeId} {b : Block}

namespace Block

/-- What a FROM clause has been put together from can still be told when the graph grows. -/
theorem Assembles.mono (hg : g.WellFounded) (hg' : g'.WellFounded) (e : g.Extends g')
    {b b' : Block} {t : TableSet} (hb : ∀ p ∈ b.clauses.predicates, g.Has p)
    (h : Assembles old b t g b') :
  Assembles old b t g' b'
  := by
  obtain ⟨hbound, htables, hpredicates, hfrom, hlifts, hchained, hown, hranked⟩ := h
  have hranking : b.clauses.predicates.filter (isRanking g')
      = b.clauses.predicates.filter (isRanking g) :=
    List.filter_congr fun p hp => e.isRanking_eq (hb p hp)
  refine .intro hbound htables hpredicates hfrom
    (hlifts.imp fun c _ h => JoinClause.Lifts.persistent _ c hg hg' e h) (hchained.mono e) ?_ ?_
  · intro c hc p hp u hu
    have hhas := forall₂_right hlifts
      (fun _ _ hc => forall₂_right hc.predicates fun _ _ hl => hl.target) c hc p hp
    rw [e.mem_tables_iff hg hg' hhas] at hu
    exact hown c hc p hp u hu
  · rw [hranking]
    exact hranked.mono hg hg' e

/-- A block is that of the table `node`, compiled in the graph `old`: it has been built over the
table below the operators at the top, and then completed. -/
inductive Origin (old g : Graph) (node : NodeId) (b : Block) : Prop where
  | intro {built : Block} {nodes : List NodeId} {t : TableSet} (hold : old.WellFounded)
      (e : old.Extends g) (hnode : old.Has node)
      (hbuilt : Built .compilation (top g node).1 (top g node).2 g built)
      (houtputs : built.folding.outputs = (top g node).1.folding.outputs ++ nodes)
      (hadded : nodes.IsChain (old.Adds g)) (hfrom : built.clauses.from? = some t)
      (hcompleted : Completed .compilation built t g b) (hassembles : Assembles old built t g b) :
    Origin old g node b

theorem Origin.mono (hg : g.WellFounded) (hg' : g'.WellFounded) (e : g.Extends g')
    (h : Origin old g node b) :
  Origin old g' node b
  := by
  obtain ⟨hold, e₀, hnode, hbuilt, houtputs, hadded, hfrom, hcompleted, hassembles⟩ := h
  have hnode' := hnode.mono e₀
  have htop := has_top hg hnode'
  have hvalid := (hbuilt.valid hg htop (top_valid hg hnode')).1
  have hinner : ∀ s ∈ b.nested, s.query.first.clauses.Valid g := by
    intro s hs
    obtain ⟨_, _, _, hq⟩ := (hcompleted.nested s hs).source
    exact QuerySpec.hereditary_valid.of_compilation hg hq
  rw [← top_extends e hg hg' hnode'] at hbuilt houtputs htop
  exact .intro hold (e₀.trans e) hnode
    (hbuilt.mono QuerySpec.compilation_persistent e hg hg' htop) houtputs
    (hadded.imp fun _ _ h => h.mono e hg hg') hfrom
    (hcompleted.mono QuerySpec.compilation_persistent e hg hg' hvalid.clauses.predicates hinner)
    (hassembles.mono hg hg' e hvalid.clauses.predicates)

/-- What compiling a table gives. -/
theorem grows_origin (n : Nat) (enclosing : List (List NodeId)) (hg : g.WellFounded)
    (hnode : g.Has node) :
  Grows (fun g' b => Origin g g' node b) (ofTable (queryWithin n) enclosing node) g
  := by
  have hQ := QuerySpec.compilation_persistent
  have hforce := QuerySpec.compilation_qualifies
  have hcompile := QuerySpec.compilation_meets n
  have hvalid := top_valid (Q := QuerySpec.compilation) hg hnode
  have htop := has_top hg hnode
  rw [ofTable]
  apply grows_run (run_foldLimits _ node g)
  apply grows_run (run_foldTopSorts _ _ g)
  apply grows_run (run_foldDistinct _ _ g)
  apply grows_bind ((grows_core hQ (hcompile enclosing) hg htop hvalid.nested).and
    (grows_core_adds hQ (hcompile enclosing) hg htop hvalid.nested))
  rintro built g₁ hg₁ e₁ ⟨hbuilt, nodes, houtputs, hadded⟩
  obtain ⟨hvalid₁, source, _, _, hfrom, _⟩ :=
    hbuilt.valid hg₁ (htop.mono e₁) (hvalid.mono hQ hg hg₁ e₁)
  apply ((grows_complete hQ hforce hcompile enclosing hg₁ hvalid₁ hfrom).and
    (grows_complete_assembles hQ hforce hcompile enclosing hg₁ hvalid₁ hfrom)).imp
  rintro b g₂ hg₂ e₂ ⟨hcompleted, hassembles⟩
  have hbuilt₂ := hbuilt.mono hQ e₂ hg₁ hg₂ (htop.mono e₁)
  have hsame := top_extends (e₁.trans e₂) hg hg₂ hnode
  refine .intro hg (e₁.trans e₂) hnode ?_ ?_ (hadded.imp fun _ _ h => h.mono e₂ hg₁ hg₂) hfrom
    hcompleted (hassembles.of_extends e₁)
  · rw [hsame]
    exact hbuilt₂
  · rw [hsame]
    exact houtputs

/-- The operators that lead from the table of a block down to a table whose join tree is the FROM
clause of the block are folded into it.  Up to that table, if it is a join, no others are. -/
theorem Origin.layout (hg : g.WellFounded) (h : Origin old g node b) :
  ∃ built ops source, Layout old g (top g node).2 built.clauses ops source
    ∧ b.folding.fused = (top g node).1.folding.fused ++ ops ++ (g.joinTree source).folded
    ∧ (g.isJoin source = true → ∀ u : NodeId, u.index ≤ source.index →
      (b.folding.contains u = true ↔ u ∈ (g.joinTree source).folded))
    ∧ Completed .compilation built (g.joinTree source).tables g b
    ∧ Assembles old built (g.joinTree source).tables g b
  := by
  obtain ⟨hold, e, hnode, hbuilt, houtputs, hadded, hfrom, hcompleted, hassembles⟩ := h
  obtain ⟨_, _, hhaving, _⟩ := top_eq g node
  obtain ⟨ops, source, hlayout, hfused, hfrom'⟩ := hbuilt.layout hhaving ⟨_, houtputs, hadded⟩
  obtain rfl := Option.some.inj (hfrom.symm.trans hfrom')
  have hall := hcompleted.fused.trans hfused
  refine ⟨_, ops, source, hlayout, hall, ?_, hcompleted, hassembles⟩
  intro hjoin u hu
  rw [Folding.contains, List.contains_iff_mem, hall]
  exact hlayout.mem_fused_iff hg hold e hnode hjoin hu

end Block

namespace QuerySpec

/-- What a table has been compiled to is the union of what its operands have been compiled to, or
its block, whose columns are qualified perhaps. -/
theorem origin_of_compilation (hg : g.WellFounded) {q : Query} (h : compilation g node q) :
  (∃ l r distinct left right, g.node node = .union l r distinct ∧ compilation g l left
      ∧ compilation g r right ∧ q = .union left right distinct)
    ∨ ∃ old b forceAliases, Block.Origin old g node b
      ∧ q = .select { b.clauses with forceAliases } b.nested
  := by
  obtain ⟨n, enclosing, g₀, g₁, q₀, hg₀, hnode, hrun, e, hq⟩ := h
  cases n with
  | zero => cases hrun
  | succ n =>
      have hgrows : Grows (fun g' q => (∃ l r distinct left right,
          g'.node node = .union l r distinct ∧ compilation g' l left ∧ compilation g' r right
            ∧ q = .union left right distinct) ∨ ∃ b, Block.Origin g₀ g' node b ∧ q = b.query)
          (queryWithin (n + 1) enclosing node) g₀ := by
        rw [queryWithin]
        apply grows_get
        split
        case h_1 l r distinct hn =>
            have hchild : ∀ c ∈ [l, r], g₀.Has c := by
              intro c hc
              apply hg₀.has_child hnode
              rw [hn]
              exact hc
            have hr := hchild r (List.mem_cons_of_mem l List.mem_cons_self)
            apply grows_bind (compilation_meets n enclosing l g₀ hg₀ (hchild l List.mem_cons_self))
            intro left g₂ hg₂ e₂ hleft
            apply grows_bind (compilation_meets n enclosing r g₂ hg₂ (hr.mono e₂))
            intro right g₃ hg₃ e₃ hright
            exact grows_pure hg₃ (.inl ⟨l, r, distinct, left, right,
              (e₂.trans e₃).node_eq_of hn (by simp),
              compilation_persistent l hg₂ hg₃ e₃ hleft, hright, rfl⟩)
        · apply grows_bind (Block.grows_origin n enclosing hg₀ hnode)
          intro b g₂ hg₂ _ hb
          exact grows_pure hg₂ (.inr ⟨b, hb, rfl⟩)
      obtain ⟨hg₁, _, ⟨l, r, distinct, left, right, hn, hleft, hright, rfl⟩ | ⟨b, hb, rfl⟩⟩ :=
        hgrows.result q₀ g₁ hrun
      · refine .inl ⟨l, r, distinct, left, right, e.node_eq_of hn (by simp),
          compilation_persistent l hg₁ hg e hleft, compilation_persistent r hg₁ hg e hright, ?_⟩
        rcases hq with rfl | rfl <;> rfl
      · have hb' := hb.mono hg₁ hg e
        rcases hq with rfl | rfl
        · exact .inr ⟨g₀, b, b.clauses.forceAliases, hb', rfl⟩
        · exact .inr ⟨g₀, b, true, hb', rfl⟩

/-- What holds of the blocks of all tables, also when their columns are qualified, holds of every
block that a table has been compiled to. -/
theorem everywhere_of_compilation (hg : g.WellFounded) {P : Select → Prop}
    (hP : ∀ old node b forceAliases, Block.Origin old g node b →
      P ⟨{ b.clauses with forceAliases }, b.nested⟩) (q : Query) :
    ∀ node, compilation g node q → q.Everywhere P := by
  induction q using Query.induction with
  | select c nested ih =>
      intro node h
      obtain ⟨_, _, _, _, _, _, _, _, hq⟩ | ⟨old, b, force, horigin, hq⟩ :=
        origin_of_compilation hg h
      · cases hq
      · cases hq
        refine Query.everywhere_select.mpr ⟨hP old node b force horigin, ?_⟩
        obtain ⟨_, _, _, _, _, _, _, hcompleted, _⟩ := horigin
        intro s hs
        obtain ⟨table, _, _, hcompiled⟩ := (hcompleted.nested s hs).source
        exact ih s hs table hcompiled
  | union l r distinct hl hr =>
      intro node h
      obtain ⟨_, _, _, _, _, _, hleft, hright, hq⟩ | ⟨_, _, _, _, hq⟩ :=
        origin_of_compilation hg h
      · cases hq
        exact Query.everywhere_union.mpr ⟨hl _ hleft, hr _ hright⟩
      · cases hq

theorem compilation_meets_queryOf :
  compilation.Meets queryOf
  := by
  intro node g hg hnode
  apply (compiledIn_meets_queryOf node g hg hnode).imp
  rintro q g' _ _ ⟨n, h⟩
  exact ⟨n, [], h⟩

end QuerySpec

/-- A block of a statement is the block `B` of the table `node`, aliases apart. -/
structure Select.OriginatesFrom (b : Select) (old g : Graph) (node : NodeId) (B : Block) :
    Prop where
  origin : B.Origin old g node
  same : b.unbound
    = Select.unbound ⟨{ B.clauses with forceAliases := b.clauses.forceAliases }, B.nested⟩

/-- Its clauses are those of the block of the table, but for the aliases. -/
theorem Select.OriginatesFrom.clauses {b : Select} {B : Block}
    (h : b.OriginatesFrom old g node B) :
  b.clauses = { B.clauses with
    forceAliases := b.clauses.forceAliases, scope := b.clauses.scope }
  := by
  have hsame := congrArg Select.clauses h.same
  simp only [Select.unbound] at hsame
  have hscope := congrArg (fun c : Clauses => { c with scope := b.clauses.scope }) hsame
  exact hscope

/-- Every block of a statement with a FROM clause is that of a table. -/
theorem Graph.analyze_origins (hg : g.WellFounded) {root : NodeId} (hroot : g.Has root)
    {st : Statement} (h : g.analyze root = .ok st) {outer : List Select} {b : Select}
    (hb : st.Holds outer b) (hfrom : b.clauses.from? ≠ none) :
  ∃ old node B, b.OriginatesFrom old st.graph node B
  := by
  obtain ⟨_, hg', q, hq, hbind⟩ := analyze_rooted QuerySpec.compilation_meets_queryOf hg hroot h
  refine Query.everywhere_bound (P := fun b => b.clauses.from? ≠ none →
    ∃ old node B, b.OriginatesFrom old st.graph node B) ?_ ?_ hbind outer b hb hfrom
  · intro b
    have hsame := b.unbound_unbound
    refine imp_congr Iff.rfl
      (exists_congr fun old => exists_congr fun node => exists_congr fun B => ?_)
    constructor
    · exact fun h => ⟨h.origin, hsame ▸ h.same⟩
    · exact fun h => ⟨h.origin, hsame.trans h.same⟩
  · cases hq with
    | table _ hq =>
        refine QuerySpec.everywhere_of_compilation hg' ?_ q _ hq
        exact fun old node b force horigin _ => ⟨old, node, b, horigin, rfl⟩
    | constant _ _ =>
        exact Query.everywhere_select.mpr
          ⟨fun hnone => absurd rfl hnone, fun s hs => absurd hs List.not_mem_nil⟩

end RelSql
