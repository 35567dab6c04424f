import RelSql.Proofs.Lexical.Queries
import RelSql.Proofs.Statement.Names

/-!
# Tables of FROM clauses

A table of a FROM clause is written as the name of a common table expression, as its query in
place, or as the name of a physical table.  Every block of a statement has what this takes: when
a statement cannot be written, that is for the sake of one of its values.
-/

namespace RelSql

/-- Whether a fault is one of a table of a FROM clause. -/
def CompileError.isTableFault : CompileError → Bool
  | .withoutAlias _ | .unnamedSharedTable _ | .unnamedTable | .notPhysical _ => true
  | _ => false

namespace Render

open Text

/-- A result that is no fault of a table.  It may be another fault. -/
def Spared {α : Type} (x : Except CompileError α) : Prop :=
  ∀ e, x = .error e → e.isTableFault = false

namespace Spared

variable {α β : Type} {x : Except CompileError α}

theorem ok (a : α) :
  Spared (.ok a)
  := by
  intro e he
  cases he

theorem error {e : CompileError} (h : e.isTableFault = false) :
  Spared (.error e : Except CompileError α)
  := by
  intro e' he
  cases he
  exact h

theorem bind {f : α → Except CompileError β} (h : Spared x) (hf : ∀ a, Spared (f a)) :
  Spared (x >>= f)
  := by
  cases x with
  | error e => exact error (h e rfl)
  | ok a => exact hf a

theorem map (f : α → β) (h : Spared x) :
  Spared (do return f (← x))
  := h.bind fun a => ok (f a)

theorem mapM {f : β → Except CompileError α} {l : List β} (h : ∀ b ∈ l, Spared (f b)) :
  Spared (l.mapM f)
  := by
  induction l with
  | nil => exact ok []
  | cons b l ih =>
      obtain ⟨hb, hl⟩ := List.forall_mem_cons.mp h
      rw [List.mapM_cons]
      exact hb.bind fun a => (ih hl).map (a :: ·)

end Spared

namespace View

variable {v : View}

/-! ### Values -/

section

variable {shown : NodeId → Result}

theorem spared_column (v : View) (t : NodeId) (name : String) :
  Spared (v.column t name)
  := by
  rw [column]
  split
  · exact .ok _
  · split
    · exact .error rfl
    · exact .ok _

theorem spared_operandStep (hs : ∀ id, Spared (shown id)) (id : NodeId) :
  Spared (v.operandStep shown id)
  := by
  apply (hs _).bind
  intro text
  split
  · exact .ok _
  · split <;> exact .ok _

theorem spared_onOption (hs : ∀ id, Spared (shown id)) (o : Option NodeId) :
  Spared (onOption shown o)
  := by
  cases o with
  | none => exact .ok none
  | some id => exact (hs id).map some

/-- Infix operations, functions of two arguments, and additions of intervals. -/
theorem spared_binary (hs : ∀ id, Spared (shown id)) {id l r : NodeId} {op : BinaryOp}
    (hn : v.graph.node id = .binary op l r) :
  Spared (v.plainStep shown id)
  := by
  have hinfix : Spared (do return (← v.operandStep shown l) ++ " " ++ symbol op ++ " "
      ++ (← v.operandStep shown r)) :=
    (spared_operandStep hs l).bind fun a => (spared_operandStep hs r).map fun b =>
      a ++ " " ++ symbol op ++ " " ++ b
  have hpow : Spared (do return "pow(" ++ (← shown l) ++ ", " ++ (← shown r) ++ ")") :=
    (hs l).bind fun a => (hs r).map fun b => "pow(" ++ a ++ ", " ++ b ++ ")"
  rw [plainStep]
  simp only [hn]
  split
  case h_1 unit count _ =>
      split
      · exact (hs l).map fun a =>
          intervalFunction unit op ++ "(" ++ a ++ ", " ++ Value.integerText count ++ ")"
      · split
        · exact hpow
        · exact hinfix
  case h_2 =>
      split
      · exact hpow
      · exact hinfix

theorem spared_plainStep (hs : ∀ id, Spared (shown id)) (id : NodeId) :
  Spared (v.plainStep shown id)
  := by
  have hoperand := spared_operandStep (v := v) hs
  have hlist : ∀ l : List NodeId, Spared (l.mapM shown) := fun l => .mapM fun id _ => hs id
  rw [plainStep]
  cases hn : v.graph.node id with
  | binary op l r =>
      have htext := spared_binary hs hn
      rwa [plainStep, hn] at htext
  | unary op arg =>
      cases op with
      | not => exact (hoperand arg).map fun a => "NOT " ++ a
      | negate => exact (hoperand arg).map fun a => "-" ++ a
      | isNull => exact (hoperand arg).map fun a => a ++ " IS NULL"
      | notNull => exact (hoperand arg).map fun a => a ++ " IS NOT NULL"
  | contains arg options negated =>
      cases options with
      | list values =>
          exact (hoperand arg).bind fun a => (hlist values).map fun l =>
            a ++ membershipKeyword negated ++ "(" ++ joinWith ", " l ++ ")"
      | column c => exact .error rfl
  | literal value | countStar table => exact .ok _
  | column t name => exact v.spared_column t name
  | named arg name => exact hs arg
  | call function arguments =>
      exact (hlist arguments).map fun l => function.sqlName ++ "(" ++ joinWith ", " l ++ ")"
  | cast arg target => exact (hs arg).map fun a => "CAST(" ++ a ++ " AS " ++ target.sqlName ++ ")"
  | extract arg unit =>
      exact (hs arg).map fun a => "extract(" ++ a ++ ", '" ++ unit.name ++ "')"
  | reduction aggregate arg =>
      exact (hs arg).map fun a => aggregateOpening aggregate ++ a ++ ")"
  | between arg low high =>
      exact (hoperand arg).bind fun a => (hs low).bind fun b => (hs high).map fun c =>
        a ++ " BETWEEN " ++ b ++ " AND " ++ c
  | case base whens default =>
      apply Spared.bind
      · apply Spared.mapM
        exact fun w _ => (hs w.1).bind fun a => (hs w.2).map fun b =>
          "WHEN " ++ a ++ " THEN " ++ b
      · exact fun whens => (spared_onOption hs base).bind fun base =>
          (spared_onOption hs default).map fun default => caseText base whens default
  | _ => exact .error rfl

theorem spared_valueStep (hnested : ∀ s ∈ v.nested, Spared (s.query ()))
    (hs : ∀ id, Spared (shown id)) (id : NodeId) :
  Spared (v.valueStep shown id)
  := by
  have hplain := spared_plainStep (v := v) hs id
  rw [valueStep]
  cases hfound : nestedFor? v.nested id with
  | none => exact hplain
  | some s =>
      apply (hnested s (List.mem_of_find?_eq_some hfound)).bind
      intro text
      cases s.kind with
      | scalar | «exists» => exact .ok _
      | table => exact hplain
      | membership =>
          dsimp only
          split
          · exact (spared_operandStep hs _).map fun a =>
              a ++ membershipKeyword _ ++ ("(\n" ++ indent v.options.indent text ++ "\n)")
          · exact hplain

end

/-- A value that cannot be written is no fault of a table, unless one of a nested query is. -/
theorem spared_value (hnested : ∀ s ∈ v.nested, Spared (s.query ())) (id : NodeId) :
  Spared (v.value id)
  := by
  obtain ⟨i⟩ := id
  induction i using Nat.strongRecOn with
  | ind i ih =>
      rw [value, NodeId.recurse_eq_below]
      apply spared_valueStep hnested
      intro c
      split
      case isTrue hlt => exact ih c.index hlt
      case isFalse => exact .error rfl

theorem spared_predicate (hnested : ∀ s ∈ v.nested, Spared (s.query ())) (id : NodeId) :
  Spared (v.predicate id)
  := by
  apply (spared_value hnested id).bind
  intro text
  split <;> exact .ok _

theorem spared_item (hnested : ∀ s ∈ v.nested, Spared (s.query ())) (id : NodeId) :
  Spared (v.item id)
  := by
  rw [item]
  split
  · exact .ok _
  · exact (spared_value hnested _).map fun a => a ++ " AS " ++ quoted _
  · split
    · exact .ok _
    · exact spared_value hnested id

/-! ### Clauses -/

theorem spared_joinText (hnested : ∀ s ∈ v.nested, Spared (s.query ())) {c : JoinClause}
    (ht : Spared (v.table c.table)) :
  Spared (v.joinText c)
  := by
  apply ht.bind
  intro text
  split
  · exact .ok _
  · exact (Spared.mapM fun p _ => spared_value hnested p).map fun texts =>
      joinKeyword c.kind ++ " " ++ text ++ "\n"
        ++ indent v.options.indent ("ON " ++ joinWith " AND\n   " texts)

theorem spared_fromClause (hnested : ∀ s ∈ v.nested, Spared (s.query ()))
    (htables : ∀ leaf ∈ v.clauses.leaves, Spared (v.table leaf)) :
  Spared v.fromClause
  := by
  rw [Clauses.leaves] at htables
  rw [fromClause]
  cases hfrom : v.clauses.from? with
  | none => exact .ok []
  | some t =>
      rw [hfrom] at htables
      obtain ⟨hfirst, hjoins⟩ := List.forall_mem_cons.mp htables
      rw [List.forall_mem_map] at hjoins
      refine Spared.map (fun text => ["FROM " ++ text]) ?_
      exact hfirst.bind fun first =>
        (Spared.mapM fun c hc => spared_joinText hnested (hjoins c hc)).map fun joins =>
          joinWith "\n" (first :: joins.map (indent v.options.indent))

/-- A block that cannot be written is no fault of a table, unless one of its tables or of a nested
query is. -/
theorem spared_text (hnested : ∀ s ∈ v.nested, Spared (s.query ()))
    (htables : ∀ leaf ∈ v.clauses.leaves, Spared (v.table leaf)) :
  Spared v.text
  := by
  have hpredicates : ∀ ids, Spared (v.predicates ids) :=
    fun ids => .mapM fun id _ => spared_predicate hnested id
  refine Spared.bind ?list fun list => ?_
  case list =>
      exact (Spared.mapM fun id _ => spared_item hnested id).map fun items =>
        (if v.clauses.distinct then "SELECT DISTINCT" else "SELECT") ++ selectItems v.options items
  refine (spared_fromClause hnested htables).bind fun source => ?_
  refine Spared.bind ?filter fun filter => ?_
  case filter =>
      rw [whereClause]
      split
      · exact .ok []
      · exact (hpredicates _).map fun texts => ["WHERE " ++ joinWith " AND\n      " texts]
  refine Spared.bind ?having fun having => ?_
  case having =>
      rw [havingClause]
      split
      · exact .ok []
      · exact (hpredicates _).map fun texts => ["HAVING " ++ joinWith " AND\n       " texts]
  refine Spared.bind ?order fun order => .ok _
  rw [orderClause]
  split
  · exact .ok []
  · refine Spared.map (fun texts => ["ORDER BY " ++ joinWith ", " texts]) (Spared.mapM ?_)
    exact fun k _ => (spared_value hnested k.expr).map fun text =>
      text ++ if k.ascending then "" else " DESC"

/-! ### Tables -/

/-- The name of a physical table, or of the one that a view is of. -/
theorem physicalName_eq_ok {leaf : NodeId} {t : Table} {name : String}
    (ht : v.graph.node (v.graph.body leaf) = .table t) (hname : t.name = some name) :
  v.physicalName leaf = .ok (tableName t.database name false)
  := by
  rw [Graph.body] at ht
  split at ht
  case h_1 u hn =>
      rw [physicalName, hn]
      dsimp only
      rw [ht]
      dsimp only
      rw [hname]
  case h_2 =>
      rw [physicalName, ht]
      dsimp only
      rw [ht]
      dsimp only
      rw [hname]

end View

end Render

namespace Select

open Render

variable {g : Graph} {b : Select} {leaf : NodeId}

/-- What a block needs to refer to a table of its FROM clause: a label of the table and, unless
its query is written in place, the name of what stands for it. -/
structure RefersTo (g : Graph) (b : Select) (leaf : NodeId) : Prop where
  label : ∃ label, b.clauses.scope.alias? leaf = some label
  shared : ∀ s, derivedFor? b.nested leaf = some s → ∀ i, s.shared = some i →
    ∃ name, b.clauses.scope.sharedName? i = some name
  physical : derivedFor? b.nested leaf = none →
    ∃ t name, g.node (g.body leaf) = .table t ∧ t.name = some name

/-- A table that a block refers to is only left unwritten for its query in place. -/
theorem RefersTo.table_eq_error_iff (h : b.RefersTo g leaf) (options : Render.Options)
    (e : CompileError) :
  (view g options b).table leaf = .error e
    ↔ ∃ s, derivedFor? b.nested leaf = some s ∧ s.shared = none
      ∧ query g options s.query () = .error e
  := by
  obtain ⟨label, hlabel⟩ := h.label
  have hscope : (view g options b).clauses.scope.alias? leaf = some label := hlabel
  have hnested : derivedFor? (view g options b).nested leaf
      = (derivedFor? b.nested leaf).map (Nested.map (query g options)) :=
    derivedFor?_mapQuery _ _ _
  rw [View.table, hscope, hnested]
  cases hderived : derivedFor? b.nested leaf with
  | none =>
      obtain ⟨t, name, ht, hname⟩ := h.physical hderived
      have hphysical := View.physicalName_eq_ok (v := view g options b) ht hname
      rw [Option.map_none]
      dsimp only
      rw [hphysical]
      exact iff_of_false (by simp) (by simp)
  | some s =>
      simp only [Option.map_some, Nested.map, Option.some.injEq, exists_eq_left']
      cases hshared : s.shared with
      | some i =>
          obtain ⟨name, hname⟩ := h.shared s hderived i hshared
          have hname' : (view g options b).clauses.scope.sharedName? i = some name := hname
          dsimp only
          rw [hname']
          exact iff_of_false (by simp) (by simp)
      | none =>
          constructor
          · intro he
            exact ⟨rfl, error_of_bind_eq_error he fun _ h => by cases h⟩
          · rintro ⟨_, he⟩
            dsimp only
            rw [he]
            rfl

end Select

namespace Render

variable {g : Graph}

/-- A query whose blocks refer to their tables is left unwritten for its values only. -/
theorem spared_query (options : Options) {q : Query}
    (h : ∀ outer b, q.Holds outer b → ∀ leaf ∈ b.clauses.leaves, b.RefersTo g leaf) :
  Spared (query g options q ())
  := by
  induction q using Query.induction with
  | select c nested ih =>
      have hqueries : ∀ s ∈ nested, Spared (query g options s.query ()) :=
        fun s hs => ih s hs fun outer b hb => h _ b (.nested hs hb)
      rw [Query.text_select]
      apply View.spared_text
      · exact List.forall_mem_map.mpr hqueries
      · intro leaf hleaf e he
        obtain ⟨s, hs, _, he⟩ := ((h _ _ .block leaf hleaf).table_eq_error_iff options e).mp he
        exact hqueries s (mem_of_derivedFor? hs).1 e he
  | union l r distinct hl hr =>
      rw [Query.text_union]
      exact (hl fun outer b hb => h outer b (.left hb)).bind fun left =>
        (hr fun outer b hb => h outer b (.right hb)).map fun right =>
          left ++ "\n" ++ (if distinct then "UNION" else "UNION ALL") ++ "\n" ++ right

end Render

namespace Graph

open Render

variable {g : Graph}

/-- The blocks of a statement refer to their tables. -/
theorem analyze_refersTo (hg : g.WellFounded) {root : NodeId} (hroot : g.Has root)
    {st : Statement} (h : g.analyze root = .ok st) {outer : List Select} {b : Select}
    (hb : st.Holds outer b) {leaf : NodeId} (hleaf : leaf ∈ b.clauses.leaves) :
  b.RefersTo st.graph leaf
  := by
  obtain ⟨label, hlabel, _⟩ := (analyze_scopes hg hroot h hb).1.exists_alias hleaf
  refine ⟨⟨label, hlabel⟩, ?_, ?_⟩
  · intro s hs i hi
    obtain ⟨_, t, _, _, hname⟩ :=
      exists_shared_of_reference hg hroot h hb (mem_of_derivedFor? hs).1 hi
    exact ⟨t.name, hname⟩
  · intro hnone
    rcases ((analyze_sourced hg hroot h outer b hb).leaves leaf hleaf).2 with ⟨t, ht, hname⟩ | hsome
    · obtain ⟨name, hname⟩ := Option.isSome_iff_exists.mp hname
      exact ⟨t, name, ht, hname⟩
    · rw [hnone] at hsome
      cases hsome

/-- Every block of a statement, also of a common table expression, has a label for each table of
its FROM clause, and a name for the common table expression or the physical table that stands for
it.  So a table is only left unwritten for the query that is written in its place, and no text of
the statement, or of a value of one of its blocks, fails for a table of a FROM clause. -/
theorem analyze_writes_tables (hg : g.WellFounded) {root : NodeId} (hroot : g.Has root)
    {st : Statement} (h : g.analyze root = .ok st) (options : Render.Options) :
  (∀ outer b, st.Holds outer b → ∀ leaf ∈ b.clauses.leaves, b.RefersTo st.graph leaf
      ∧ ∀ e, (view st.graph options b).table leaf = .error e
        ↔ ∃ s, derivedFor? b.nested leaf = some s ∧ s.shared = none
          ∧ query st.graph options s.query () = .error e)
    ∧ (∀ outer b, st.Holds outer b → ∀ id, Spared ((view st.graph options b).value id))
    ∧ Spared (st.sql options)
  := by
  have hrefers : ∀ outer b, st.Holds outer b → ∀ leaf ∈ b.clauses.leaves,
      b.RefersTo st.graph leaf := fun _ _ hb _ hleaf => analyze_refersTo hg hroot h hb hleaf
  refine ⟨?_, ?_, ?_⟩
  · intro outer b hb leaf hleaf
    have hleaf := hrefers outer b hb leaf hleaf
    exact ⟨hleaf, hleaf.table_eq_error_iff options⟩
  · intro outer b hb id
    apply View.spared_value
    refine List.forall_mem_map (l := b.nested).mpr fun s hs => ?_
    exact spared_query options fun inner d hd => hrefers _ d (hb.inside hs hd)
  · apply Spared.bind
    · exact spared_query options fun outer b hb => hrefers outer b (.inl hb)
    · intro body
      split
      · exact .ok _
      · refine Spared.map (fun tables => "WITH " ++ Text.joinWith ",\n" tables ++ "\n" ++ body)
          (.mapM fun t ht => ?_)
        exact (spared_query options fun outer b hb => hrefers outer b (.inr ⟨t, ht, hb⟩)).map
          fun text => t.name ++ " AS (\n" ++ Text.indent options.indent text ++ "\n)"

/-- A view of a table that is shared is written: its block has a label for it, and the name of
the common table expression. -/
theorem analyze_writes_tables_viewedTwice :
  ∃ st, viewedTwice.analyze ⟨7⟩ = .ok st ∧ st.query.first.RefersTo st.graph ⟨2⟩
    ∧ (∃ text, (view st.graph .default st.query.first).table ⟨2⟩ = .ok text)
    ∧ Spared (st.sql .default)
  := by
  have hrun : (viewedTwice.analyze ⟨7⟩).toOption.map (fun st =>
      (st.query.first.clauses.leaves, (derivedFor? st.query.first.nested ⟨2⟩).map Nested.shared))
        = some ([⟨2⟩, ⟨3⟩], some (some 0)) := by
    decide
  obtain ⟨st, hst, hparts⟩ := Option.map_eq_some_iff.mp hrun
  obtain ⟨hleaves, hshared⟩ := Prod.mk.inj hparts
  have hok := eq_ok_of_toOption hst
  obtain ⟨htables, _, hspared⟩ :=
    analyze_writes_tables (g := viewedTwice) (by decide) (by decide) hok .default
  have hleaf : (⟨2⟩ : NodeId) ∈ st.query.first.clauses.leaves := by
    rw [hleaves]
    exact List.mem_cons_self
  obtain ⟨hrefers, herror⟩ := htables [] _ (.inl st.query.holds_first) ⟨2⟩ hleaf
  refine ⟨st, hok, hrefers, ?_, hspared⟩
  cases htext : (view st.graph .default st.query.first).table ⟨2⟩ with
  | ok text => exact ⟨text, rfl⟩
  | error e =>
      obtain ⟨s, hs, hnone, _⟩ := (herror e).mp htext
      rw [hs] at hshared
      exact absurd (hnone.symm.trans (Option.some.inj hshared)) (by decide)

end Graph

end RelSql
