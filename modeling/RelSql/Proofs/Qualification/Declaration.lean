import RelSql.Proofs.Statement.Selects
import RelSql.Render.Query

/-!
# Declared labels

A column that is qualified is written with the label of its table.  The label is declared by the
FROM clause of a block around the column that has the table, if the block qualifies its columns
or the table is a derived one.

A column that is no output and is written without a label is one of the only table of its block,
or of a table of a block around that its own block does not notice: a value of a derived
table or of a branch of a union may read such a table, and so may the argument of a
membership in a subquery.
-/

namespace RelSql

open Text

namespace Render.View

variable {v : View} {t : NodeId} {name label : String}

theorem ne_qualified (label q : String) :
  q ≠ label ++ "." ++ q
  := by
  intro h
  have hlength := congrArg String.length h
  rw [String.length_append, String.length_append] at hlength
  have hdot : ".".length = 1 := by decide
  omega

theorem ne_labelled (name label : String) :
  name ≠ name ++ " " ++ label
  := by
  intro h
  have hlength := congrArg String.length h
  rw [String.length_append, String.length_append] at hlength
  have hspace : " ".length = 1 := by decide
  omega

/-- A column is qualified with a label when its block qualifies its columns, and it is the label
of the table of the column. -/
theorem column_eq_qualified_iff :
  v.column t name = .ok (label ++ "." ++ quoted name)
    ↔ t ∉ v.clauses.outputs ∧ v.clauses.scope.alias? t = some label
      ∧ v.clauses.scope.needsAliases = true
  := by
  rw [column]
  split
  case isTrue houtput =>
      have hmem := List.contains_iff_mem.mp houtput
      constructor
      · intro h
        exact absurd (Except.ok.inj h) (ne_qualified _ _)
      · exact fun h => absurd hmem h.1
  case isFalse houtput =>
      have hmem : t ∉ v.clauses.outputs := fun h => houtput (List.contains_iff_mem.mpr h)
      cases v.clauses.scope.alias? t with
      | none => simp
      | some label' =>
          cases v.clauses.scope.needsAliases with
          | false =>
              simp only [Bool.false_eq_true, if_false, and_false, iff_false]
              exact fun h => ne_qualified _ _ (Except.ok.inj h)
          | true =>
              simp only [if_true, Except.ok.injEq, Option.some.injEq, and_true,
                String.append_left_inj]
              exact (and_iff_right hmem).symm

/-- A column of a table that is no output is written without a label when its block has a label
for the table, but does not qualify its columns. -/
theorem column_eq_bare_iff (houtput : t ∉ v.clauses.outputs) :
  v.column t name = .ok (quoted name)
    ↔ (v.clauses.scope.alias? t).isSome = true ∧ v.clauses.scope.needsAliases = false
  := by
  rw [column, if_neg fun h => houtput (List.contains_iff_mem.mp h)]
  cases v.clauses.scope.alias? t with
  | none => simp
  | some label =>
      cases v.clauses.scope.needsAliases with
      | false => simp
      | true =>
          simp only [if_true, Bool.true_eq_false, and_false, iff_false]
          exact fun h => ne_qualified _ _ (Except.ok.inj h).symm

/-- The FROM clause of a block writes a table with a label: after its name or its query, or the
label is the name of the common table expression that the table refers to. -/
inductive Declares (v : View) (t : NodeId) (label : String) : Prop where
  | physical {name : String} (ht : t ∈ v.clauses.leaves) (hd : derivedFor? v.nested t = none)
      (hname : v.physicalName t = .ok name) (h : v.table t = .ok (name ++ " " ++ label))
  | derived {d : Nested Delayed} {body : String} (ht : t ∈ v.clauses.leaves)
      (hd : derivedFor? v.nested t = some d) (hshared : d.shared = none)
      (hbody : d.query () = .ok body)
      (h : v.table t = .ok ("(\n" ++ indent v.options.indent body ++ "\n) " ++ label))
  | shared {d : Nested Delayed} {index : Nat} {name : String} (ht : t ∈ v.clauses.leaves)
      (hd : derivedFor? v.nested t = some d) (hshared : d.shared = some index)
      (hname : v.clauses.scope.sharedName? index = some name)
      (h : v.table t = .ok (if name = label then name else name ++ " " ++ label))

theorem Declares.mem (h : v.Declares t label) :
  t ∈ v.clauses.leaves
  := by
  cases h <;> assumption

/-- A table that is written with its label is declared unless it is a physical one, and its block
does not qualify its columns. -/
theorem declares_iff (ht : t ∈ v.clauses.leaves) (hlabel : v.clauses.scope.alias? t = some label)
    {text : String} (htext : v.table t = .ok text) :
  v.Declares t label
    ↔ v.clauses.scope.needsAliases = true ∨ (derivedFor? v.nested t).isSome = true
  := by
  have htable := htext
  rw [table, hlabel] at htable
  cases hd : derivedFor? v.nested t with
  | some d =>
      refine iff_of_true ?_ (.inr rfl)
      rw [hd] at htable
      dsimp only at htable
      cases hshared : d.shared with
      | some index =>
          rw [hshared] at htable
          dsimp only at htable
          cases hname : v.clauses.scope.sharedName? index with
          | none =>
              rw [hname] at htable
              cases htable
          | some name =>
              rw [hname] at htable
              exact .shared ht hd hshared hname (htext.trans htable.symm)
      | none =>
          rw [hshared] at htable
          obtain ⟨body, hbody, hret⟩ := exists_of_bind_eq_ok htable
          exact .derived ht hd hshared hbody (htext.trans hret.symm)
  | none =>
      rw [hd] at htable
      obtain ⟨name, hname, hret⟩ := exists_of_bind_eq_ok htable
      simp only [Option.isSome_none, Bool.false_eq_true, or_false]
      cases hneeds : v.clauses.scope.needsAliases with
      | true =>
          rw [hneeds] at hret
          exact iff_of_true (.physical ht hd hname (htext.trans hret.symm)) rfl
      | false =>
          rw [hneeds] at hret
          refine iff_of_false ?_ Bool.false_ne_true
          intro h
          cases h with
          | physical _ _ hname' h =>
              obtain rfl := Except.ok.inj (hname.symm.trans hname')
              exact ne_labelled _ _ (Except.ok.inj ((hret.trans htext.symm).trans h))
          | derived _ hd' | shared _ hd' =>
              rw [hd] at hd'
              cases hd'

/-- Every table of a FROM clause that is written is written. -/
theorem exists_table_of_fromClause {lines : List String} (h : v.fromClause = .ok lines)
    (ht : t ∈ v.clauses.leaves) :
  ∃ text, v.table t = .ok text
  := by
  rw [fromClause] at h
  rw [Clauses.leaves] at ht
  cases hfrom : v.clauses.from? with
  | none =>
      rw [hfrom] at ht
      exact absurd ht List.not_mem_nil
  | some tables =>
      rw [hfrom] at h ht
      obtain ⟨text, htext, _⟩ := exists_of_bind_eq_ok h
      obtain ⟨first, hfirst, hrest⟩ := exists_of_bind_eq_ok htext
      obtain ⟨joins, hjoins, _⟩ := exists_of_bind_eq_ok hrest
      rcases List.mem_cons.mp ht with rfl | ht
      · exact ⟨first, hfirst⟩
      · obtain ⟨clause, hclause, rfl⟩ := List.mem_map.mp ht
        obtain ⟨join, hjoin⟩ := exists_of_mapM_eq_ok hjoins clause hclause
        obtain ⟨head, hhead, _⟩ := exists_of_bind_eq_ok hjoin
        exact ⟨head, hhead⟩

end Render.View

namespace Graph

variable {g : Graph}

/-- A column of the query that is qualified with a label is one of a table that its block or a
block around has.  If the FROM clauses of these blocks are written, then a block declares the
label just when it has the table and qualifies its columns, or has the table as a derived
one.  The block of the column does if it has the table; the block around a subquery does if
it has the table, and a value of the subquery reads it. -/
theorem analyze_declares (hg : g.WellFounded) {root : NodeId} (hroot : g.Has root)
    {st : Statement} (hst : g.analyze root = .ok st) (options : Render.Options)
    {outer : List Select} {b : Select} (hb : st.Holds outer b)
    (hfrom : ∀ d ∈ b :: outer, ∃ lines, (Render.view st.graph options d).fromClause = .ok lines)
    {t : NodeId} {name label : String}
    (hcolumn : (Render.view st.graph options b).column t name
      = .ok (label ++ "." ++ Render.quoted name)) :
  (st.query.Holds outer b → ∃ d ∈ b :: outer, t ∈ d.clauses.leaves)
    ∧ (∀ d ∈ b :: outer, (Render.view st.graph options d).Declares t label
      ↔ t ∈ d.clauses.leaves ∧ (d.clauses.scope.needsAliases = true
        ∨ (derivedFor? d.nested t).isSome = true))
    ∧ (t ∈ b.clauses.leaves → (Render.view st.graph options b).Declares t label)
    ∧ ∀ a ∈ outer.head?, t ∈ a.clauses.leaves → Block.ReadsOuter st.graph b t →
      (∃ s ∈ a.nested, s.kind ≠ .table ∧ s.query = .select b.clauses b.nested) →
      ∃ d ∈ [b, a], (Render.view st.graph options d).Declares t label
  := by
  obtain ⟨houtput, hlabel, hneeds⟩ := Render.View.column_eq_qualified_iff.mp hcolumn
  have hdeclares : ∀ d ∈ b :: outer, t ∈ d.clauses.leaves →
      ((Render.view st.graph options d).Declares t label
        ↔ d.clauses.scope.needsAliases = true ∨ (derivedFor? d.nested t).isSome = true) := by
    intro d hd ht
    have hsame := label_eq hg hroot hst hb hlabel hd ht
    obtain ⟨lines, hlines⟩ := hfrom d hd
    obtain ⟨text, htext⟩ := Render.View.exists_table_of_fromClause hlines ht
    have hiff := Render.View.declares_iff ht hsame htext
    rw [Render.view, derivedFor?_mapQuery, Option.isSome_map] at hiff
    exact hiff
  refine ⟨fun hquery => exists_block_of_alias hg hroot hst hquery hlabel, ?_, ?_, ?_⟩
  · intro d hd
    constructor
    · exact fun h => ⟨h.mem, (hdeclares d hd h.mem).mp h⟩
    · exact fun h => (hdeclares d hd h.1).mpr h.2
  · exact fun ht => (hdeclares b List.mem_cons_self ht).mpr (.inl hneeds)
  · rintro a ha ht hreads ⟨s, hs, hkind, hquery⟩
    have hmem : a ∈ outer := List.mem_of_head? ha
    by_cases hown : t ∈ b.clauses.leaves
    · exact ⟨b, List.mem_cons_self, (hdeclares b List.mem_cons_self hown).mpr (.inl hneeds)⟩
    · refine ⟨a, List.mem_cons_of_mem _ (List.mem_singleton_self a), ?_⟩
      rw [hdeclares a (List.mem_cons_of_mem _ hmem) ht]
      -- the subquery is correlated, so the block around it qualifies its columns
      obtain ⟨outer', ha'⟩ := hb.enclosing a hmem
      have hcorrelated : Block.isCorrelated st.graph s.query = true := by
        rw [hquery, Block.isCorrelated_iff]
        exact ⟨t, hreads, hown, houtput⟩
      have hforced := ((analyze_settled hg hroot hst outer' a ha').qualifies s hs hkind
        hcorrelated).1
      exact .inl ((analyze_scopes hg hroot hst ha').1.needsAliases_iff.mpr (.inl hforced))

/-- A subquery inside a subquery reads a column of the outermost table only. -/
def readsThroughSubquery : Graph := ⟨#[
  .table ⟨some "t", none, ⟨[⟨"k", .double⟩, ⟨"x", .double⟩]⟩⟩,
  .table ⟨some "u", none, ⟨[⟨"k", .double⟩]⟩⟩,
  .table ⟨some "w", none, ⟨[⟨"y", .double⟩]⟩⟩,
  .column ⟨2⟩ "y",
  .column ⟨0⟩ "x",
  .binary .eq ⟨3⟩ ⟨4⟩,
  .selection ⟨2⟩ [⟨5⟩],
  .column ⟨6⟩ "y",
  .column ⟨1⟩ "k",
  .contains ⟨8⟩ (.column ⟨7⟩) false,
  .selection ⟨1⟩ [⟨9⟩],
  .column ⟨10⟩ "k",
  .column ⟨0⟩ "k",
  .contains ⟨12⟩ (.column ⟨11⟩) false,
  .selection ⟨0⟩ [⟨13⟩]]⟩

/-- Whether the FROM clause of a block is written, and whether it declares the table `t`. -/
def declaration (g : Graph) (t : NodeId) (b : Select) : Bool × Bool :=
  ((Render.view g .default b).fromClause.toOption.isSome,
    b.clauses.leaves.contains t
      && (b.clauses.scope.needsAliases || (derivedFor? b.nested t).isSome))

/-- The column is written with a label that no block around it declares. -/
theorem analyze_declares_readsThroughSubquery :
  ∃ st, readsThroughSubquery.analyze ⟨14⟩ = .ok st ∧ ∃ outer b, st.Holds outer b
    ∧ (Render.view st.graph .default b).column ⟨0⟩ "x" = .ok ("t0" ++ "." ++ Render.quoted "x")
    ∧ ∀ d ∈ b :: outer, ¬ (Render.view st.graph .default d).Declares ⟨0⟩ "t0"
  := by
  have hrun : ((readsThroughSubquery.analyze ⟨14⟩).toOption.bind fun st =>
      st.query.first.nested.head?.bind fun s => s.query.first.nested.head?.map fun s' =>
        ([s'.query.first, s.query.first, st.query.first].map (declaration st.graph ⟨0⟩),
          ((Render.view st.graph .default s'.query.first).column ⟨0⟩ "x").toOption))
      = some ([(true, false), (true, false), (true, false)],
        some ("t0" ++ "." ++ Render.quoted "x")) := by
    decide +kernel
  obtain ⟨st, hst, hrun⟩ := Option.bind_eq_some_iff.mp hrun
  obtain ⟨s, hs, hrun⟩ := Option.bind_eq_some_iff.mp hrun
  obtain ⟨s', hs', hrun⟩ := Option.map_eq_some_iff.mp hrun
  obtain ⟨hblocks, hcolumn⟩ := Prod.mk.inj hrun
  have hok := eq_ok_of_toOption hst
  have hb : st.Holds [s.query.first, st.query.first] s'.query.first :=
    .inl (st.query.holds_nested (List.mem_of_head? hs)
      (s.query.holds_nested (List.mem_of_head? hs') s'.query.holds_first))
  have hparts : ∀ d ∈ [s'.query.first, s.query.first, st.query.first],
      declaration st.graph ⟨0⟩ d = (true, false) := by
    intro d hd
    have hmem := List.mem_map_of_mem (f := declaration st.graph ⟨0⟩) hd
    rw [hblocks] at hmem
    simpa using hmem
  have hcolumn := eq_ok_of_toOption hcolumn
  have hfrom : ∀ d ∈ [s'.query.first, s.query.first, st.query.first],
      ∃ lines, (Render.view st.graph .default d).fromClause = .ok lines := by
    intro d hd
    obtain ⟨lines, hlines⟩ := Option.isSome_iff_exists.mp (Prod.mk.inj (hparts d hd)).1
    exact ⟨lines, eq_ok_of_toOption hlines⟩
  refine ⟨st, hok, _, _, hb, hcolumn, ?_⟩
  intro d hd hdeclares
  obtain ⟨_, hiff, _⟩ := analyze_declares (g := readsThroughSubquery) (by decide) (by decide) hok
    .default hb hfrom hcolumn
  obtain ⟨ht, hqualified⟩ := (hiff d hd).mp hdeclares
  have hnone := (Prod.mk.inj (hparts d hd)).2
  simp [ht] at hnone
  simp [hnone] at hqualified

/-! ### Columns without a label -/

/-- A column that is no output of its block, and is written without a label, is one of a table of
the block just when this is the only table of the block.  It is in the outermost block of the
query, in the values of a subquery, and in the predicates of joins. -/
theorem analyze_bare (hg : g.WellFounded) {root : NodeId} (hroot : g.Has root) {st : Statement}
    (hst : g.analyze root = .ok st) (options : Render.Options) {outer : List Select} {b : Select}
    (hb : st.Holds outer b) {t : NodeId} {name : String} (houtput : t ∉ b.clauses.outputs)
    (hcolumn : (Render.view st.graph options b).column t name = .ok (Render.quoted name)) :
  (t ∈ b.clauses.leaves ↔ b.clauses.leaves ≠ [] ∧ ∀ e ∈ b.clauses.leaves, e = t)
    ∧ (st.query.Holds [] b → t ∈ b.clauses.leaves)
    ∧ (∀ a ∈ outer.head?, (∃ s ∈ a.nested, s.kind ≠ .table ∧ s.query = .select b.clauses b.nested) →
      Block.ReadsOuter st.graph b t → t ∈ b.clauses.leaves)
    ∧ ∀ tables ∈ b.clauses.from?, ∀ c ∈ tables.joins, ∀ p ∈ c.predicates,
      t ∈ st.graph.tables p → t ∈ b.clauses.leaves
  := by
  obtain ⟨hlabel, hneeds⟩ := (Render.View.column_eq_bare_iff houtput).mp hcolumn
  obtain ⟨label, hlabel⟩ := Option.isSome_iff_exists.mp hlabel
  obtain ⟨hbinds, _⟩ := analyze_scopes hg hroot hst hb
  have hsettled := analyze_settled hg hroot hst outer b hb
  have hnone : ¬ (b.clauses.forceAliases = true
      ∨ ∃ e ∈ b.clauses.leaves, ∃ e' ∈ b.clauses.leaves, e ≠ e') := by
    rw [← hbinds.needsAliases_iff, show b.clauses.scope.needsAliases = false from hneeds]
    exact Bool.false_ne_true
  have hone : ∀ e ∈ b.clauses.leaves, ∀ e' ∈ b.clauses.leaves, e = e' := by
    intro e he e' he'
    by_contra hne
    exact hnone (.inr ⟨e, he, e', he', hne⟩)
  refine ⟨?_, ?_, ?_, ?_⟩
  · constructor
    · exact fun ht => ⟨List.ne_nil_of_mem ht, fun e he => hone e he t ht⟩
    · rintro ⟨hne, hsame⟩
      obtain ⟨e, he⟩ := List.exists_mem_of_ne_nil _ hne
      exact hsame e he ▸ he
  · intro hquery
    obtain ⟨d, hd, ht⟩ := exists_block_of_alias hg hroot hst hquery hlabel
    rw [List.mem_singleton.mp hd] at ht
    exact ht
  · rintro a ha ⟨s, hs, hkind, hquery⟩ hreads
    by_contra hown
    -- the subquery would be correlated, and qualify its columns
    obtain ⟨outer', ha'⟩ := hb.enclosing a (List.mem_of_head? ha)
    have hcorrelated : Block.isCorrelated st.graph s.query = true := by
      rw [hquery, Block.isCorrelated_iff]
      exact ⟨t, hreads, hown, houtput⟩
    have hforced := ((analyze_settled hg hroot hst outer' a ha').qualifies s hs hkind
      hcorrelated).2
    rw [hquery] at hforced
    exact hnone (.inl hforced)
  · intro tables htables c hc p hp ht
    have hleaves : b.clauses.leaves = tables.leaves := by
      rw [Clauses.leaves, show b.clauses.from? = some tables from htables]
    rw [hleaves] at hone ⊢
    exact hsettled.own tables htables
      (fun e he => hone e he tables.first List.mem_cons_self) c hc p hp t ht

/-- The argument of a membership inside a subquery is a column of the outermost table. -/
def readsInMembership : Graph := ⟨#[
  .table ⟨some "t", none, ⟨[⟨"k", .double⟩, ⟨"x", .double⟩]⟩⟩,
  .table ⟨some "u", none, ⟨[⟨"k", .double⟩, ⟨"x", .double⟩]⟩⟩,
  .table ⟨some "w", none, ⟨[⟨"y", .double⟩]⟩⟩,
  .column ⟨0⟩ "x",
  .column ⟨2⟩ "y",
  .contains ⟨3⟩ (.column ⟨4⟩) false,
  .selection ⟨1⟩ [⟨5⟩],
  .column ⟨6⟩ "k",
  .column ⟨0⟩ "k",
  .contains ⟨8⟩ (.column ⟨7⟩) false,
  .selection ⟨0⟩ [⟨9⟩]]⟩

/-- The column is written without a label, and it is not one of the only table of its block. -/
theorem analyze_bare_readsInMembership :
  ∃ st, readsInMembership.analyze ⟨10⟩ = .ok st ∧ ∃ outer b, st.Holds outer b
    ∧ (Render.view st.graph .default b).column ⟨0⟩ "x" = .ok (Render.quoted "x")
    ∧ (⟨0⟩ : NodeId) ∉ b.clauses.outputs
    ∧ ¬ (b.clauses.leaves ≠ [] ∧ ∀ e ∈ b.clauses.leaves, e = (⟨0⟩ : NodeId))
  := by
  have hrun : ((readsInMembership.analyze ⟨10⟩).toOption.bind fun st =>
      st.query.first.nested.head?.map fun s =>
        (s.query.first.clauses.leaves, s.query.first.clauses.outputs,
          ((Render.view st.graph .default s.query.first).column ⟨0⟩ "x").toOption))
      = some ([⟨1⟩], [⟨11⟩], some (Render.quoted "x")) := by
    decide +kernel
  obtain ⟨st, hst, hrun⟩ := Option.bind_eq_some_iff.mp hrun
  obtain ⟨s, hs, hrun⟩ := Option.map_eq_some_iff.mp hrun
  obtain ⟨hleaves, hrun⟩ := Prod.mk.inj hrun
  obtain ⟨houtputs, hcolumn⟩ := Prod.mk.inj hrun
  have hok := eq_ok_of_toOption hst
  have hb : st.Holds [st.query.first] s.query.first :=
    .inl (st.query.holds_nested (List.mem_of_head? hs) s.query.holds_first)
  have houtput : (⟨0⟩ : NodeId) ∉ s.query.first.clauses.outputs := by
    rw [houtputs]
    decide
  have hcolumn := eq_ok_of_toOption hcolumn
  refine ⟨st, hok, _, _, hb, hcolumn, houtput, ?_⟩
  rw [← (analyze_bare (g := readsInMembership) (by decide) (by decide) hok .default hb houtput
    hcolumn).1, hleaves]
  decide

end Graph

end RelSql
