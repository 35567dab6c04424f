import RelSql.Proofs.Block.Table
import RelSql.Proofs.Statement.Aliases
import RelSql.Statement.Analysis

/-!
# Compiled tables

What is known of the query of a table, once it is known to follow from what is known of the
queries of the tables that are compiled for it.  What holds of the block of every table holds of
every block of a statement, up to the scope that the block is bound to.
-/

namespace RelSql

open Analysis

variable {Q : QuerySpec} {g g' : Graph}

/-- What is known of a query follows from what is known of those that it is compiled from. -/
structure QuerySpec.Hereditary (Q : QuerySpec) : Prop where
  persistent : Q.Persistent
  qualifies : Q.Qualifies
  union : ∀ {g : Graph} {node l r : NodeId} {distinct : Bool} {left right : Query},
    g.WellFounded → g.node node = .union l r distinct → Q g l left → Q g r right →
    Q g node (.union left right distinct)
  block : ∀ {g : Graph} {node : NodeId} {b : Block}, g.WellFounded → g.Has node →
    (∀ l r distinct, g.node node ≠ .union l r distinct) → Block.OfTable Q g node b →
    Q g node b.query

namespace QuerySpec

/-- Nothing is known of a query. -/
theorem hereditary_true :
  Hereditary fun _ _ _ => True
  := ⟨fun _ _ _ _ _ _ _ _ => trivial, fun _ _ _ _ => trivial, fun _ _ _ _ => trivial,
    fun _ _ _ _ => trivial⟩

/-- The query of a table meets every hereditary specification, at every depth. -/
theorem Hereditary.meets (hQ : Q.Hereditary) (n : Nat) :
    ∀ enclosing, Q.Meets (queryWithin n enclosing) := by
  induction n with
  | zero =>
      intro enclosing node g hg _
      exact grows_fail hg _
  | succ n ih =>
      intro enclosing node g hg hnode
      rw [queryWithin]
      apply grows_get
      split
      case h_1 l r distinct hn =>
          have hchild : ∀ c ∈ [l, r], g.Has c := by
            intro c hc
            apply hg.has_child hnode
            rw [hn]
            exact hc
          apply grows_bind (ih enclosing l g hg (hchild l List.mem_cons_self))
          intro left g₁ hg₁ e₁ hleft
          have hr := hchild r (List.mem_cons_of_mem l List.mem_cons_self)
          apply grows_bind (ih enclosing r g₁ hg₁ (hr.mono e₁))
          intro right g₂ hg₂ e₂ hright
          apply grows_pure hg₂
          have hn₂ := (e₁.trans e₂).node_eq_of hn nofun
          exact hQ.union hg₂ hn₂ (hQ.persistent l hg₁ hg₂ e₂ hleft) hright
      case h_2 hother =>
          apply grows_bind
            (Block.grows_ofTable hQ.persistent hQ.qualifies ih enclosing hg hnode)
          intro b g₁ hg₁ e₁ hb
          apply grows_pure hg₁
          apply hQ.block hg₁ (hnode.mono e₁) ?_ hb
          intro l r distinct hn
          rw [e₁.node_eq hnode] at hn
          exact hother l r distinct hn

/-- The query of a table. -/
theorem Hereditary.grows_queryOf (hQ : Q.Hereditary) (hg : g.WellFounded) {node : NodeId}
    (hnode : g.Has node) :
  Grows (fun g' q => Q g' node q) (queryOf node) g
  := by
  rw [queryOf]
  apply grows_get
  exact hQ.meets _ [] node g hg hnode

theorem Hereditary.meets_queryOf (hQ : Q.Hereditary) :
  Q.Meets queryOf
  := fun _ _ hg hnode => hQ.grows_queryOf hg hnode

end QuerySpec

/-- A query is compiled from a table, or selects values that are there from no table. -/
inductive Rooted (Q : QuerySpec) (g : Graph) : Query → Prop where
  | table {node : NodeId} {q : Query} (hnode : g.Has node) (hq : Q g node q) : Rooted Q g q
  | constant {node : NodeId} {values : List NodeId} (hnode : g.Has node)
      (hvalues : ∀ v ∈ values, g.Has v) :
    Rooted Q g (.select { Clauses.ofNode node with select := values } [])

/-- Selecting values from no table. -/
theorem grows_constantQuery (hg : g.WellFounded) {values : List NodeId}
    (hvalues : ∀ v ∈ values, g.Has v) :
  Grows (Rooted Q) (constantQuery values) g
  := by
  cases values with
  | cons v rest => exact grows_pure hg (.constant (hvalues v List.mem_cons_self) hvalues)
  | nil =>
      rw [constantQuery.eq_def]
      apply grows_bind (grows_push hg (n := .literal .null) nofun)
      intro node g' hg' _ hnode
      exact grows_pure hg' (.constant hnode.1 nofun)

/-- A value is given a name when it has none. -/
theorem grows_withName (hg : g.WellFounded) {value : NodeId} (hvalue : g.Has value) :
  Grows (fun g' v => g'.Has v ∧ (g'.name? v).isSome = true) (withName value) g
  := by
  rw [withName]
  apply grows_get
  split
  case h_1 name hname => exact grows_pure hg ⟨hvalue, by rw [hname]; rfl⟩
  · apply (grows_push hg (n := .named value Graph.defaultName)
      (List.forall_mem_singleton.mpr hvalue)).imp
    exact fun v g' _ _ h => ⟨h.1, by rw [Graph.name?, h.2.1]; rfl⟩

/-- The query of a table is compiled from the table. -/
theorem grows_tableQuery (hQ : Q.Meets queryOf) (hg : g.WellFounded) {node : NodeId}
    (hnode : g.Has node) :
  Grows (Rooted Q) (queryOf node) g
  := (hQ node g hg hnode).imp fun _ _ _ e hq => .table (hnode.mono e) hq

/-- A query is given a handler. -/
theorem grows_handled (handler : Handler) {m : Analysis Query} (h : Grows (Rooted Q) m g) :
  Grows (fun g' r => Rooted Q g' r.1) (do return (← m, handler)) g
  := grows_bind h fun _ _ hg' _ hq => grows_pure hg' hq

/-- The table that a value reads first is there. -/
theorem has_of_baseTable (hg : g.WellFounded) {id t : NodeId} (hid : g.Has id)
    (h : g.baseTable id = some t) :
  g.Has t
  := by
  rw [Graph.baseTable_eq hg hid] at h
  exact Graph.has_of_base hg hid h

/-- The query of a single value. -/
theorem grows_valueQuery (hQ : Q.Meets queryOf) (hg : g.WellFounded) {root : NodeId}
    (hroot : g.Has root) :
  Grows (fun g' r => Rooted Q g' r.1) (valueQuery root) g
  := by
  rw [valueQuery]
  apply grows_bind (grows_withName hg hroot)
  intro value g₁ hg₁ e₁ ⟨hvalue, _⟩
  apply grows_get
  split
  · exact grows_handled _ (grows_constantQuery hg₁ (List.forall_mem_singleton.mpr hvalue))
  case h_2 t ht =>
      have hchildren : ∀ c ∈ [t, value], g₁.Has c :=
        List.forall_mem_cons.mpr
          ⟨has_of_baseTable hg₁ (hroot.mono e₁) ht, List.forall_mem_singleton.mpr hvalue⟩
      split
      · apply grows_bind (grows_push hg₁ (n := .aggregation t [] [value] []) hchildren)
        intro table g₂ hg₂ _ htable
        exact grows_handled _ (grows_tableQuery hQ hg₂ htable.1)
      · apply grows_bind (grows_push hg₁ (n := .projection t [value]) hchildren)
        intro table g₂ hg₂ _ htable
        exact grows_handled _ (grows_tableQuery hQ hg₂ htable.1)

/-- The query of a list of values. -/
theorem grows_listQuery (hQ : Q.Meets queryOf) (hg : g.WellFounded) {root : NodeId}
    (hroot : g.Has root) {exprs : List NodeId} (hexprs : ∀ e ∈ exprs, g.Has e) :
  Grows (Rooted Q) (listQuery root exprs) g
  := by
  rw [listQuery]
  apply grows_bind
    (grows_mapM (R := fun g (_ : NodeId) v => g.Has v) (fun _ _ _ _ _ _ e h => h.mono e) exprs hg
      fun e he g' hg' e' => (grows_withName hg' ((hexprs e he).mono e')).imp
        fun _ _ _ _ h => h.1)
  intro values g₁ hg₁ e₁ hvalues
  have hhas := forall₂_right hvalues fun _ _ h => h
  apply grows_get
  split
  case h_1 t ht =>
      apply grows_bind (grows_push hg₁ (n := .projection t values)
        (List.forall_mem_cons.mpr ⟨has_of_baseTable hg₁ (hroot.mono e₁) ht, hhas⟩))
      intro table g₂ hg₂ _ htable
      exact grows_tableQuery hQ hg₂ htable.1
  · exact grows_constantQuery hg₁ hhas

/-- The query of an expression is compiled from a table, or selects values from none. -/
theorem grows_rootQuery (hQ : Q.Meets queryOf) (hg : g.WellFounded) {root : NodeId}
    (hroot : g.Has root) :
  Grows (fun g' r => Rooted Q g' r.1) (rootQuery root) g
  := by
  rw [rootQuery]
  apply grows_get
  split
  case h_1 t name hn =>
      have ht : g.Has t := hg.has_child hroot (by rw [hn]; exact List.mem_singleton_self t)
      split
      · exact grows_handled _ (grows_tableQuery hQ hg ht)
      · exact grows_valueQuery hQ hg hroot
  case h_2 exprs hn =>
      have hexprs : ∀ e ∈ exprs, g.Has e := fun e he => hg.has_child hroot (by rw [hn]; exact he)
      exact grows_handled _ (grows_listQuery hQ hg hroot hexprs)
  all_goals first | exact grows_fail hg _ | skip
  split
  · exact grows_handled _ (grows_tableQuery hQ hg hroot)
  · exact grows_valueQuery hQ hg hroot

/-- The query of a table is that of the expression, and is read as a table. -/
theorem grows_rootQuery_relation {R : Graph → Query → Prop} {root : NodeId}
    (hr : g.isRelation root = true) (h : Grows R (queryOf root) g) :
  Grows (fun g' r => R g' r.1 ∧ r.2 = .table) (rootQuery root) g
  := by
  rw [Graph.isRelation] at hr
  rw [rootQuery]
  apply grows_get
  cases hn : g.node root <;> rw [hn] at hr <;> first | (cases hr; done) | skip
  all_goals
    simp only [hr, if_true]
    exact grows_bind h fun q g' hg' _ hq => grows_pure hg' ⟨hq, rfl⟩

/-- The statement of an expression is made of its query, whose shared tables are referred to
by name, and whose blocks are bound to scopes. -/
theorem Graph.analyze_rooted (hQ : Q.Meets queryOf) (hg : g.WellFounded) {root : NodeId}
    (hroot : g.Has root) {st : Statement} (h : g.analyze root = .ok st) :
  g.Extends st.graph ∧ st.graph.WellFounded ∧ ∃ q : Query, Rooted Q st.graph q
    ∧ (st.query, st.shared) = (q.shareTables st.graph).1.bind (q.shareTables st.graph).2
  := by
  obtain ⟨⟨⟨q, handler⟩, g'⟩, hrun, hret⟩ := exists_of_bind_eq_ok h
  cases hret
  obtain ⟨hg', e, hq⟩ := (grows_rootQuery hQ hg hroot).result _ _ (eq_ok_of_mapError hrun)
  exact ⟨e, hg', q, hq, rfl⟩

theorem Graph.analyze_spec (hQ : Q.Hereditary) (hg : g.WellFounded) {root : NodeId}
    (hroot : g.Has root) {st : Statement} (h : g.analyze root = .ok st) :
  g.Extends st.graph ∧ st.graph.WellFounded ∧ ∃ q : Query, Rooted Q st.graph q
    ∧ (st.query, st.shared) = (q.shareTables st.graph).1.bind (q.shareTables st.graph).2
  := analyze_rooted hQ.meets_queryOf hg hroot h

end RelSql
