import RelSql.Proofs.Lift.Unfolding
import RelSql.Proofs.Qualification.Reading
import RelSql.Proofs.Statement.Names
import RelSql.Proofs.Statement.Origins
import RelSql.Proofs.Statement.Runs

/-!
# Columns read from outside of a block

The blocks of a common table expression are bound inside the outermost scope, so the only
columns that they can read from outside of it are those of the outermost block of the query.
-/

namespace RelSql

namespace AliasScope

/-- Frames without an alias of a table are passed over. -/
theorem aliasIn?_append {table : NodeId} {frames : List Frame}
    (h : ∀ f ∈ frames, table ∉ f.tables) (frames' : List Frame) :
  aliasIn? table (frames ++ frames') = aliasIn? table frames'
  := by
  induction frames with
  | nil => rfl
  | cons f rest ih =>
      obtain ⟨hhead, hrest⟩ := List.forall_mem_cons.mp h
      rw [mem_tables_iff, Bool.not_eq_true, Option.isSome_eq_false_iff,
        Option.isNone_iff_eq_none] at hhead
      rw [List.cons_append, aliasIn?, hhead]
      exact ih hrest

end AliasScope

namespace Render.View

/-- A column is written when its table is an output of the block, or has a label. -/
theorem exists_column_iff {v : View} {t : NodeId} {name : String} :
  (∃ text, v.column t name = .ok text)
    ↔ t ∈ v.clauses.outputs ∨ (v.clauses.scope.alias? t).isSome = true
  := by
  rw [column]
  split
  case isTrue h => exact iff_of_true ⟨_, rfl⟩ (.inl (List.contains_iff_mem.mp h))
  case isFalse h =>
      rw [or_iff_right fun hmem => h (List.contains_iff_mem.mpr hmem)]
      cases v.clauses.scope.alias? t with
      | none => exact iff_of_false nofun Bool.false_ne_true
      | some label => exact iff_of_true ⟨_, rfl⟩ rfl

end Render.View

namespace Graph

variable {g : Graph}

/-- In a block of a common table expression, a table that neither this block nor one around it has
is labelled as in the outermost block of the query. -/
theorem alias?_shared (hg : g.WellFounded) {root : NodeId} (hroot : g.Has root) {st : Statement}
    (hst : g.analyze root = .ok st) {t : SharedTable} (ht : t ∈ st.shared) {outer : List Select}
    {b : Select} (hb : t.query.Holds outer b) {u : NodeId}
    (hu : ∀ d ∈ b :: outer, u ∉ d.clauses.leaves) :
  b.clauses.scope.alias? u
    = if u ∈ st.query.frontLeaves then st.query.first.clauses.scope.alias? u else none
  := by
  obtain ⟨_, _, q, _, hbind⟩ := analyze_spec QuerySpec.hereditary_unshared hg hroot hst
  have hroots := (q.shareTables st.graph).1.roots (q.shareTables st.graph).2
  have hquery := congrArg Prod.fst hbind
  have htables := congrArg Prod.snd hbind
  dsimp only at hquery htables
  obtain ⟨group, _, _, hbody⟩ := forall₂_exists hroots.tables.flip t (htables ▸ ht)
  have hbound := hb
  rw [hbody] at hbound
  obtain ⟨_, _, hframes⟩ := Query.Holds.scope group.query hroots.proper hroots.functional hbound
  have hown : ∀ f ∈ (b :: outer).map Select.frame, u ∉ f.tables := by
    rw [List.forall_mem_map]
    intro d hd
    obtain ⟨outer', hd'⟩ := Statement.Holds.around (.inr ⟨t, ht, hb⟩) d hd
    rw [Select.frame, (analyze_scopes hg hroot hst hd').1.tables]
    exact hu d hd
  have halias : b.clauses.scope.alias? u
      = ((q.shareTables st.graph).1.rootScope (q.shareTables st.graph).2).frame.alias? u := by
    rw [AliasScope.alias?, hframes, hroots.outermost, ← List.cons_append,
      show b.clauses.scope.frame :: outer.map Select.frame = (b :: outer).map Select.frame from rfl,
      AliasScope.aliasIn?_append hown, aliasIn?]
    cases Frame.alias? _ u <;> rfl
  rw [halias]
  split
  case isTrue hfront =>
      rw [hquery, Query.frontLeaves_bind] at hfront
      rw [hquery, Query.scope_first hfront, AliasScope.alias?, hroots.outermost, aliasIn?]
      cases Frame.alias? _ u <;> rfl
  case isFalse hfront =>
      rw [hquery, Query.frontLeaves_bind, ← Query.mem_tables_rootScope _ (q.shareTables st.graph).2,
        AliasScope.mem_tables_iff, Bool.not_eq_true, Option.isSome_eq_false_iff,
        Option.isNone_iff_eq_none] at hfront
      exact hfront

/-- A column that is written with a block of a common table expression is one of an output of the
block, of a table that this block or one around it has, or of a table of the outermost block
of the query: this one is read from outside of the common table expression, with the label
that it has there. -/
theorem analyze_closed (hg : g.WellFounded) {root : NodeId} (hroot : g.Has root) {st : Statement}
    (hst : g.analyze root = .ok st) {options : Render.Options} {t : SharedTable}
    (ht : t ∈ st.shared) {outer : List Select} {b : Select} (hb : t.query.Holds outer b)
    {text : String} (htext : (Render.view st.graph options b).text = .ok text) {u : NodeId}
    {name : String} (hreads : (Render.view st.graph options b).Reads u name) :
  (u ∈ b.clauses.outputs ∨ ∃ d ∈ b :: outer, u ∈ d.clauses.leaves)
    ∨ (u ∈ st.query.frontLeaves
      ∧ b.clauses.scope.alias? u = st.query.first.clauses.scope.alias? u)
  := by
  by_cases hown : ∃ d ∈ b :: outer, u ∈ d.clauses.leaves
  · exact .inl (.inr hown)
  · rcases Render.View.exists_column_iff.mp (Render.View.column_of_reads htext hreads) with
      houtput | hlabel
    · exact .inl (.inl houtput)
    · have halias := alias?_shared hg hroot hst ht hb
        fun d hd hmem => hown ⟨d, hd, hmem⟩
      right
      rw [show (Render.view st.graph options b).clauses = b.clauses from rfl, halias] at hlabel
      split at hlabel
      case isTrue hfront => exact ⟨hfront, halias.trans (if_pos hfront)⟩
      case isFalse => cases hlabel

/-- Two tests of membership in the first rows of a table that are filtered by the outer one. -/
def filteredByOuter : Graph := ⟨#[
  .table ⟨some "t", none, ⟨[⟨"k", .int32⟩, ⟨"x", .int32⟩]⟩⟩,
  .table ⟨some "w", none, ⟨[⟨"y", .int32⟩]⟩⟩,
  .column ⟨0⟩ "x",
  .column ⟨1⟩ "y",
  .binary .lt ⟨3⟩ ⟨2⟩,
  .selection ⟨1⟩ [⟨4⟩],
  .limit ⟨5⟩ 3 0,
  .column ⟨6⟩ "y",
  .column ⟨0⟩ "k",
  .contains ⟨8⟩ (.column ⟨7⟩) false,
  .contains ⟨2⟩ (.column ⟨7⟩) false,
  .selection ⟨0⟩ [⟨9⟩, ⟨10⟩]]⟩

/-- The first rows become a common table expression, which reads a column of the outer table. -/
theorem analyze_closed_filteredByOuter :
  ∃ st, filteredByOuter.analyze ⟨11⟩ = .ok st ∧ ∃ t ∈ st.shared, ∃ b, t.query.Holds [] b
    ∧ (Render.view st.graph .default b).Reads ⟨0⟩ "x"
    ∧ ⟨0⟩ ∉ b.clauses.outputs ∧ (∀ d ∈ [b], ⟨0⟩ ∉ d.clauses.leaves)
    ∧ ⟨0⟩ ∈ st.query.frontLeaves
    ∧ b.clauses.scope.alias? ⟨0⟩ = st.query.first.clauses.scope.alias? ⟨0⟩
  := by
  have hrun : ((filteredByOuter.analyze ⟨11⟩).toOption.bind fun st => st.shared.head?.map fun t =>
      let b := t.query.first
      let v := Render.view st.graph .default b
      ((b.clauses.outputs, b.clauses.leaves), (v.text.toOption.isSome, v.values, v.parts ⟨4⟩),
        st.graph.node ⟨2⟩, v.isSubquery ⟨2⟩))
      = some (([], [⟨1⟩]), (true, [⟨4⟩], [⟨3⟩, ⟨2⟩]), .column ⟨0⟩ "x", false) := by
    decide +kernel
  obtain ⟨st, hst, hrun⟩ := Option.bind_eq_some_iff.mp hrun
  obtain ⟨t, ht, hparts⟩ := Option.map_eq_some_iff.mp hrun
  simp only [Prod.mk.injEq] at hparts
  obtain ⟨⟨houtputs, hleaves⟩, ⟨htext, hvalues, hvalue⟩, hcolumn, hplain⟩ := hparts
  have hok := eq_ok_of_toOption hst
  have hmem := List.mem_of_head? ht
  obtain ⟨text, htext⟩ := Option.isSome_iff_exists.mp htext
  have hreads : (Render.view st.graph .default t.query.first).Reads ⟨0⟩ "x" := by
    refine ⟨⟨4⟩, by rw [hvalues]; exact List.mem_cons_self, ?_⟩
    apply Render.View.Writes.part (p := ⟨2⟩)
    · rw [hvalue]
      exact List.mem_cons_of_mem _ List.mem_cons_self
    · exact .column hplain hcolumn
  have houtput : ⟨0⟩ ∉ t.query.first.clauses.outputs := by
    rw [houtputs]
    exact List.not_mem_nil
  have hleaf : ∀ d ∈ [t.query.first], ⟨0⟩ ∉ d.clauses.leaves := by
    rw [List.forall_mem_singleton, hleaves]
    decide
  obtain hown | ⟨hfront, hlabel⟩ := analyze_closed (g := filteredByOuter) (by decide) (by decide)
    hok hmem t.query.holds_first (eq_ok_of_toOption htext) hreads
  · rcases hown with hown | ⟨d, hd, hown⟩
    · exact absurd hown houtput
    · exact absurd hown (hleaf d hd)
  · exact ⟨st, hok, t, hmem, _, t.query.holds_first, hreads, houtput, hleaf, hfront, hlabel⟩

end Graph

end RelSql

/-! ### Columns of tables that blocks fold

A column is lifted through the operators that are folded into its own block, and is then looked up
among the tables of this block and of those around it.  What the blocks around fold is not looked
at.  So the column of a table that is folded into a block around is another one inside than it is in
the values of that block, and is out of scope unless the table stands in a FROM clause as well.
-/

namespace RelSql

/-- The block `c` in the blocks `outer` sees a table of its own or of one of these.  A block of a
common table expression sees those of the outermost block of the query as well. -/
def Statement.Sees (st : Statement) (outer : List Select) (c : Select) (u : NodeId) : Prop :=
  (∃ d ∈ c :: outer, u ∈ d.clauses.leaves)
    ∨ (¬ st.query.Holds outer c ∧ u ∈ st.query.frontLeaves)

namespace Render.View

/-- A column is out of scope when its table is no output of the block and has no label. -/
theorem column_eq_outOfScope_iff {v : View} {t : NodeId} {name : String} :
  v.column t name = .error (.columnOutOfScope name)
    ↔ t ∉ v.clauses.outputs ∧ (v.clauses.scope.alias? t).isSome = false
  := by
  rw [column]
  split
  case isTrue h =>
      refine iff_of_false ?_ fun hout => hout.1 (List.contains_iff_mem.mp h)
      simp
  case isFalse h =>
      rw [and_iff_right fun hmem => h (List.contains_iff_mem.mpr hmem)]
      cases v.clauses.scope.alias? t with
      | none => exact iff_of_true rfl rfl
      | some label => simp

end Render.View

namespace Graph

variable {g : Graph} {root : NodeId} {st : Statement} {outer : List Select} {b c : Select}
  {u e : NodeId}

/-- The tables that have a label in a block are those that it sees. -/
theorem alias?_isSome_iff (hg : g.WellFounded) (hroot : g.Has root) (hst : g.analyze root = .ok st)
    (hc : st.Holds outer c) :
  (c.clauses.scope.alias? u).isSome = true ↔ st.Sees outer c u
  := by
  have hown : (∃ d ∈ c :: outer, u ∈ d.clauses.leaves) →
      (c.clauses.scope.alias? u).isSome = true := by
    rintro ⟨d, hd, hu⟩
    obtain ⟨_, _, around, hframes, _⟩ := analyze_scopes hg hroot hst hc
    obtain ⟨outer', hd'⟩ := hc.around d hd
    have hframe : d.frame ∈ c.clauses.scope.frame :: c.clauses.scope.outer := by
      rw [hframes, ← List.cons_append]
      exact List.mem_append_left _ (List.mem_map_of_mem (f := Select.frame) hd)
    apply AliasScope.aliasIn?_isSome hframe
    exact AliasScope.mem_tables_iff.mp (((analyze_scopes hg hroot hst hd').1.tables u).mpr hu)
  constructor
  · intro hlabel
    by_cases hmem : ∃ d ∈ c :: outer, u ∈ d.clauses.leaves
    · exact .inl hmem
    · by_cases hmain : st.query.Holds outer c
      · obtain ⟨label, hlabel⟩ := Option.isSome_iff_exists.mp hlabel
        exact .inl (exists_block_of_alias hg hroot hst hmain hlabel)
      · obtain ⟨t, ht, hshared⟩ := hc.resolve_left hmain
        rw [alias?_shared hg hroot hst ht hshared fun d hd hu => hmem ⟨d, hd, hu⟩] at hlabel
        split at hlabel
        case isTrue hfront => exact .inr ⟨hmain, hfront⟩
        case isFalse => cases hlabel
  · rintro (hmem | ⟨hmain, hfront⟩)
    · exact hown hmem
    · by_cases hmem : ∃ d ∈ c :: outer, u ∈ d.clauses.leaves
      · exact hown hmem
      · obtain ⟨t, ht, hshared⟩ := hc.resolve_left hmain
        rw [alias?_shared hg hroot hst ht hshared fun d hd hu => hmem ⟨d, hd, hu⟩, if_pos hfront]
        have hbinds := (analyze_scopes hg hroot hst (.inl st.query.holds_first)).1
        obtain ⟨label, hlabel, _⟩ := hbinds.exists_alias (Query.frontLeaves_first hfront)
        rw [hlabel]
        rfl

/-- A table has the label that a table of a block around has just when it is this table. -/
theorem alias?_eq_iff (hg : g.WellFounded) (hroot : g.Has root) (hst : g.analyze root = .ok st)
    (hc : st.Holds outer c) (hb : b ∈ outer) (he : e ∈ b.clauses.leaves) :
  c.clauses.scope.alias? u = b.clauses.scope.alias? e ↔ u = e
  := by
  obtain ⟨hbinds, hfunctional, around, hframes, _⟩ := analyze_scopes hg hroot hst hc
  obtain ⟨outer', hb'⟩ := hc.enclosing b hb
  have hbinds' := (analyze_scopes hg hroot hst hb').1
  obtain ⟨label, hlabel⟩ :=
    Option.isSome_iff_exists.mp (AliasScope.mem_tables_iff.mp ((hbinds'.tables e).mpr he))
  have hentry : (e, label) ∈ c.clauses.scope.entries := by
    rw [AliasScope.entries, hframes]
    refine List.mem_flatMap.mpr ⟨b.frame, ?_, AliasScope.mem_of_lookup hlabel⟩
    exact List.mem_cons_of_mem _ (List.mem_append_left _ (List.mem_map_of_mem hb))
  have hsame : b.clauses.scope.alias? e = some label := by rw [AliasScope.alias?, aliasIn?, hlabel]
  rw [hsame]
  constructor
  · intro hu
    exact hbinds.proper.distinct _ (AliasScope.mem_of_aliasIn? _ hu) _ hentry rfl
  · rintro rfl
    refine hfunctional.alias?_of_frame ?_ hlabel
    rw [hframes]
    exact List.mem_cons_of_mem _ (List.mem_append_left _ (List.mem_map_of_mem hb))

/-- Take a block `c` inside another one, `b`, and the columns `name` of a table `r`.  In the values
of the two blocks these become the columns of `u` and of `e`, through what is folded into the one
block and into the other.  They are columns of the same table of a FROM clause just when `u` is `e`.
If `c` does not fold `r`, then `u` is `r`, whatever the blocks around fold, and `e` is `r` only if
`b` keeps the column.  The column of `u` is out of scope when it is no output of `c`, and neither
`c` nor a block around it has the table `u`; then `c` cannot be written. -/
theorem analyze_resolves (hg : g.WellFounded) (hroot : g.Has root) (hst : g.analyze root = .ok st)
    (hc : st.Holds outer c) (hb : b ∈ outer) (hfrom : ∀ d ∈ [b, c], d.clauses.from? ≠ none) :
  ∃ old node B old' node' C, b.OriginatesFrom old st.graph node B
    ∧ c.OriginatesFrom old' st.graph node' C
    ∧ ∀ r name e u, B.folding.ComesFrom st.graph r name e → C.folding.ComesFrom st.graph r name u →
      (∀ p l, (r, name) ∈ st.graph.denote .reads p →
        (B.folding.Lifts .substitute st.graph p l → (e, name) ∈ st.graph.denote .reads l)
          ∧ (C.folding.Lifts .substitute st.graph p l → (u, name) ∈ st.graph.denote .reads l))
      ∧ (e ∈ b.clauses.leaves → (c.clauses.scope.alias? u = b.clauses.scope.alias? e ↔ u = e))
      ∧ (C.folding.contains r = false → u = r)
      ∧ (e = r ↔ B.folding.fate .substitute st.graph r name = .kept)
      ∧ ∀ options, ((Render.view st.graph options c).column u name = .error (.columnOutOfScope name)
          ↔ u ∉ c.clauses.outputs ∧ ¬ st.Sees outer c u)
        ∧ (u ∉ c.clauses.outputs → ¬ st.Sees outer c u →
          (Render.view st.graph options c).Reads u name →
          ∀ text, (Render.view st.graph options c).text ≠ .ok text)
  := by
  obtain ⟨_, hg', _⟩ := analyze_rooted QuerySpec.compilation_meets_queryOf hg hroot hst
  obtain ⟨outer', hb'⟩ := hc.enclosing b hb
  obtain ⟨old, node, B, horigin⟩ := analyze_origins hg hroot hst hb' (hfrom b List.mem_cons_self)
  obtain ⟨old', node', C, horigin'⟩ :=
    analyze_origins hg hroot hst hc (hfrom c (List.mem_cons_of_mem _ List.mem_cons_self))
  refine ⟨old, node, B, old', node', C, horigin, horigin', ?_⟩
  intro r name e u he hu
  have hlabel := alias?_isSome_iff (u := u) hg hroot hst hc
  refine ⟨?_, alias?_eq_iff hg hroot hst hc hb, ?_, ?_, fun options => ⟨?_, ?_⟩⟩
  · intro p l hread
    constructor
    · exact fun h => (h.mem_reads_iff hg').mpr (Folding.unfoldsTo_of_reads hg' hread he)
    · exact fun h => (h.mem_reads_iff hg').mpr (Folding.unfoldsTo_of_reads hg' hread hu)
  · exact fun hkept => (Folding.comesFrom_self hkept).unique hu
  · constructor
    · rintro rfl
      exact he.kept
    · exact fun hkept => Folding.ComesFrom.unique ⟨.refl, hkept⟩ he
  · rw [← hlabel, Bool.not_eq_true]
    exact Render.View.column_eq_outOfScope_iff
  · intro houtput hnone hreads text htext
    rcases Render.View.exists_column_iff.mp (Render.View.column_of_reads htext hreads) with
      hmem | hsome
    · exact houtput hmem
    · exact hnone (hlabel.mp hsome)

/-- The rows with a positive `x` whose `k` is among those of the rows of `w` that have the same `x`,
which is read from the filtered table. -/
def readsFiltered : Graph := ⟨#[
  .table ⟨some "t", none, ⟨[⟨"k", .int32⟩, ⟨"x", .int32⟩]⟩⟩,
  .column ⟨0⟩ "x",
  .literal (.integer 0),
  .binary .gt ⟨1⟩ ⟨2⟩,
  .selection ⟨0⟩ [⟨3⟩],
  .column ⟨4⟩ "k",
  .column ⟨4⟩ "x",
  .table ⟨some "w", none, ⟨[⟨"k", .int32⟩, ⟨"y", .int32⟩]⟩⟩,
  .column ⟨7⟩ "y",
  .binary .eq ⟨8⟩ ⟨6⟩,
  .selection ⟨7⟩ [⟨9⟩],
  .column ⟨10⟩ "k",
  .contains ⟨5⟩ (.column ⟨11⟩) false,
  .selection ⟨4⟩ [⟨12⟩]]⟩

/-- The column of the filtered table, which the block around folds, is out of scope inside. -/
theorem analyze_resolves_readsFiltered :
  ∃ st b c, readsFiltered.analyze ⟨13⟩ = .ok st ∧ st.Holds [b] c ∧ b.clauses.leaves = [⟨0⟩]
    ∧ (Render.view st.graph .default c).Reads ⟨4⟩ "x"
    ∧ (Render.view st.graph .default c).column ⟨4⟩ "x" = .error (.columnOutOfScope "x")
    ∧ ∃ old node B old' node' C, b.OriginatesFrom old st.graph node B
      ∧ c.OriginatesFrom old' st.graph node' C
      ∧ (C.folding.ComesFrom st.graph ⟨4⟩ "x" ⟨4⟩ → B.folding.ComesFrom st.graph ⟨4⟩ "x" ⟨0⟩ →
        c.clauses.scope.alias? ⟨4⟩ ≠ b.clauses.scope.alias? ⟨0⟩)
  := by
  have hrun : ((readsFiltered.analyze ⟨13⟩).toOption.bind fun st =>
      st.query.first.nested.head?.map fun s =>
        let v := Render.view st.graph .default s.query.first
        ((st.query.first.clauses.leaves, v.clauses.leaves, v.clauses.outputs),
          (v.values, v.parts ⟨9⟩), v.graph.node ⟨6⟩,
          v.isSubquery ⟨6⟩ || (v.clauses.scope.alias? ⟨4⟩).isSome))
      = some (([⟨0⟩], [⟨7⟩], [⟨16⟩]), ([⟨17⟩, ⟨9⟩], [⟨8⟩, ⟨6⟩]), .column ⟨4⟩ "x", false) := by
    decide +kernel
  obtain ⟨st, hst, hrun⟩ := Option.bind_eq_some_iff.mp hrun
  obtain ⟨s, hs, hparts⟩ := Option.map_eq_some_iff.mp hrun
  simp only [Prod.mk.injEq, Bool.or_eq_false_iff] at hparts
  obtain ⟨⟨hleaves, hinner, houtputs⟩, ⟨hvalues, hvalue⟩, hcolumn, hplain, hnone⟩ := hparts
  have hok := eq_ok_of_toOption hst
  have hc : st.Holds [st.query.first] s.query.first :=
    .inl (st.query.holds_nested (List.mem_of_head? hs) s.query.holds_first)
  have hfrom : ∀ d ∈ [st.query.first, s.query.first], d.clauses.from? ≠ none := by
    intro d hd hnone
    have hempty : d.clauses.leaves = [] := by rw [Clauses.leaves, hnone]
    rcases List.mem_cons.mp hd with rfl | hd
    · cases hleaves.symm.trans hempty
    · rw [List.mem_singleton.mp hd] at hempty
      cases hinner.symm.trans hempty
  refine ⟨st, _, _, hok, hc, hleaves, ?_, ?_, ?_⟩
  · refine ⟨⟨9⟩, by rw [hvalues]; decide, ?_⟩
    apply Render.View.Writes.part (p := ⟨6⟩)
    · rw [hvalue]
      decide
    · exact .column hplain hcolumn
  · apply Render.View.column_eq_outOfScope_iff.mpr
    exact ⟨by rw [houtputs]; decide, hnone⟩
  · obtain ⟨old, node, B, old', node', C, horigin, horigin', hresolves⟩ :=
      @analyze_resolves readsFiltered ⟨13⟩ st _ st.query.first s.query.first (by decide) (by decide)
        hok hc (List.mem_singleton_self _) hfrom
    refine ⟨old, node, B, old', node', C, horigin, horigin', fun hu he hsame => ?_⟩
    obtain ⟨_, hiff, _⟩ := hresolves ⟨4⟩ "x" ⟨0⟩ ⟨4⟩ he hu
    exact absurd ((hiff (by rw [hleaves]; decide)).mp hsame) (by decide)

end Graph

end RelSql
