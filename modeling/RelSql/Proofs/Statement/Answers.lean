import RelSql.Proofs.Block.Predicates
import RelSql.Proofs.Meaning.Folded
import RelSql.Proofs.Output.FieldNames
import RelSql.Proofs.Statement.Compilation

/-!
# Queries of values

A value without columns and row counts is selected from no table.  Any other value is computed
of the table that it reads first: of all rows together when it holds a reduction, and of each
row otherwise.  A field of an aggregation has the query of the aggregation, and a value list
that of a projection.
-/

namespace RelSql

open Analysis

variable {g g' : Graph} {root value : NodeId}

/-! ### What a value reads -/

theorem Algebra.plainReads_operator {n : Node} {operands : List Bool} :
  plainReads.operator n.shape operands = (!n.isReduction && operands.any id)
  := by
  rw [← Node.isReduction_shape n]
  rfl

namespace Graph

/-- A value that reads no table reads no column. -/
theorem plainReads_of_base (hg : g.WellFounded) {id : NodeId} (h : g.denote .base id = none) :
  g.denote .plainReads id = false
  := by
  obtain ⟨i⟩ := id
  induction i using Nat.strongRecOn with
  | ind i ih =>
      rcases (g.node ⟨i⟩).kinds with ⟨t, name, hn⟩ | ⟨t, hn⟩ | hn | hn
      · rw [denote_column hg _ hn] at h
        cases h
      · rw [denote_countStar hg _ hn]
        rfl
      · rw [denote_relation hg _ hn]
        rfl
      · rw [denote_operator hg _ hn] at h
        have hnone := List.findSome?_eq_none_iff.mp h
        rw [denote_operator hg _ hn, Algebra.plainReads_operator, List.any_map,
          Bool.and_eq_false_iff, List.any_eq_false]
        right
        intro c hc
        rw [Function.comp_apply, id,
          ih c.index (hg.child_lt hc) (hnone _ (List.mem_map_of_mem hc))]
        exact Bool.false_ne_true

/-- A value without reductions that reads no column reads no table. -/
theorem base_of_plainReads (hg : g.WellFounded) {id : NodeId}
    (hreductions : g.denote .reductions id = false) (h : g.denote .plainReads id = false) :
  g.denote .base id = none
  := by
  obtain ⟨i⟩ := id
  induction i using Nat.strongRecOn with
  | ind i ih =>
      rcases (g.node ⟨i⟩).kinds with ⟨t, name, hn⟩ | ⟨t, hn⟩ | hn | hn
      · rw [denote_column hg _ hn] at h
        cases h
      · rw [denote_countStar hg _ hn] at hreductions
        cases hreductions
      · rw [denote_relation hg _ hn]
        rfl
      · rw [denote_operator hg _ hn, Algebra.reductions_operator, List.any_map,
          Bool.or_eq_false_iff, List.any_eq_false] at hreductions
        rw [denote_operator hg _ hn, Algebra.plainReads_operator, hreductions.1, Bool.not_false,
          Bool.true_and, List.any_map, List.any_eq_false] at h
        rw [denote_operator hg _ hn]
        refine List.findSome?_eq_none_iff.mpr fun o ho => ?_
        obtain ⟨c, hc, rfl⟩ := List.mem_map.mp ho
        exact ih c.index (hg.child_lt hc) (Bool.eq_false_iff.mpr (hreductions.2 c hc))
          (Bool.eq_false_iff.mpr (h c hc))

/-- A value reads no table, or holds a reduction, just when it holds one or reads no column. -/
theorem base_or_reductions_iff (hg : g.WellFounded) (hroot : g.Has root) :
  (g.baseTable root = none ∨ g.hasReduction root = true)
    ↔ (g.hasReduction root = true ∨ g.readsOutsideReductions root = false)
  := by
  rw [baseTable_eq hg hroot, hasReduction_eq hg hroot, readsOutsideReductions_eq hg hroot]
  cases hreductions : g.denote .reductions root with
  | true => simp
  | false =>
      simp only [Bool.false_eq_true, or_false, false_or]
      exact ⟨plainReads_of_base hg, base_of_plainReads hg hreductions⟩

/-! ### Named values -/

/-- The first value is selected under a name: its own, or the default one by an alias. -/
def NamedAs (g : Graph) (root value : NodeId) : Prop :=
  (value = root ∧ (g.name? root).isSome = true)
    ∨ (g.name? root = none ∧ g.node value = .named root defaultName)

theorem NamedAs.name?_eq (h : g.NamedAs root value) :
  g.name? value = some (g.fieldName root)
  := by
  rw [fieldName]
  rcases h with ⟨rfl, hname⟩ | ⟨hname, hn⟩
  · obtain ⟨name, hname⟩ := Option.isSome_iff_exists.mp hname
    rw [hname, Option.getD_some]
  · rw [hname, name?, hn]
    rfl

theorem NamedAs.has (hroot : g.Has root) (h : g.NamedAs root value) :
  g.Has value
  := by
  rcases h with ⟨rfl, _⟩ | ⟨_, hn⟩
  · exact hroot
  · exact has_of_node hn nofun

/-- The value means the same under its name. -/
theorem NamedAs.denote_eq (hg : g.WellFounded) (h : g.NamedAs root value) {α : Type}
    {A : Algebra α} (hA : A.Transparent) :
  g.denote A value = g.denote A root
  := by
  rcases h with ⟨rfl, _⟩ | ⟨_, hn⟩
  · rfl
  · have hoperator : (g.node value).isOperator = true := by
      rw [hn]
      rfl
    rw [denote_operator hg A hoperator, hn]
    exact hA _ _

theorem NamedAs.mono (e : g.Extends g') (hroot : g.Has root) (h : g.NamedAs root value) :
  g'.NamedAs root value
  := by
  rcases h with ⟨rfl, hname⟩ | ⟨hname, hn⟩
  · exact .inl ⟨rfl, by rw [e.name?_eq hroot, hname]⟩
  · exact .inr ⟨by rw [e.name?_eq hroot, hname], e.node_eq_of hn nofun⟩

end Graph

/-- Giving a name to a value that has none. -/
theorem grows_withName_as (hg : g.WellFounded) (hroot : g.Has root) :
  Grows (fun g' v => g'.NamedAs root v) (withName root) g
  := by
  rw [withName]
  apply grows_get
  split
  case h_1 name hname => exact grows_pure hg (.inl ⟨rfl, by rw [hname]; rfl⟩)
  case h_2 hname =>
      apply (grows_push hg (n := .named root Graph.defaultName)
        (List.forall_mem_singleton.mpr hroot)).imp
      exact fun v g' _ e h => .inr ⟨by rw [e.name?_eq hroot, hname], h.2.1⟩

/-! ### Queries -/

/-- A value that is neither a list nor a field of an aggregation. -/
structure Graph.IsSingle (g : Graph) (root : NodeId) : Prop where
  list : ∀ exprs, g.node root ≠ .exprList exprs
  field : ∀ t name, g.node root = .column t name → g.isAggregation t = false

/-- A field of an aggregation is no single value. -/
theorem Graph.not_isSingle {t input : NodeId} {name : String} {keys metrics having : List NodeId}
    (hn : g.node root = .column t name)
    (ht : g.node t = .aggregation input keys metrics having) :
  ¬ g.IsSingle root
  := by
  intro hsingle
  have hnot := hsingle.field t name hn
  rw [isAggregation, ht] at hnot
  cases hnot

/-- A value is single, or not, when the graph grows. -/
theorem Graph.Extends.isSingle_iff (e : g.Extends g') (hg : g.WellFounded) (hroot : g.Has root) :
  g'.IsSingle root ↔ g.IsSingle root
  := by
  have hfields : ∀ t name, g.node root = .column t name →
      g'.isAggregation t = g.isAggregation t := by
    intro t name hn
    have ht : g.Has t := hg.has_child hroot (by rw [hn]; exact List.mem_singleton_self t)
    rw [isAggregation, isAggregation, e.node_eq ht]
  constructor
  · rintro ⟨hlist, hfield⟩
    rw [e.node_eq hroot] at hlist hfield
    exact ⟨hlist, fun t name hn => (hfields t name hn).symm.trans (hfield t name hn)⟩
  · rintro ⟨hlist, hfield⟩
    refine ⟨?_, ?_⟩
    all_goals rw [e.node_eq hroot]
    · exact hlist
    · exact fun t name hn => (hfields t name hn).trans (hfield t name hn)

/-- The query of a value and how its result is read, where `Q` is what is known of the queries of
tables. -/
inductive Answers (Q : QuerySpec) (g : Graph) (root : NodeId) : Query → Handler → Prop where
  | list {exprs : List NodeId} {q : Query} (hn : g.node root = .exprList exprs) :
    Answers Q g root q .table
  | field {t input : NodeId} {name : String} {keys metrics having : List NodeId} {q : Query}
      (hn : g.node root = .column t name)
      (ht : g.node t = .aggregation input keys metrics having) (hq : Q g t q) :
    Answers Q g root q (.column name)
  | constant {value : NodeId} (hsingle : g.IsSingle root) (hbase : g.baseTable root = none)
      (hvalue : g.NamedAs root value) :
    Answers Q g root (.select { Clauses.ofNode value with select := [value] } []) .scalar
  | total {t value table : NodeId} {q : Query} (hsingle : g.IsSingle root)
      (hbase : g.baseTable root = some t) (hreduction : g.hasReduction root = true)
      (hvalue : g.NamedAs root value) (htable : g.node table = .aggregation t [] [value] [])
      (hq : Q g table q) :
    Answers Q g root q .scalar
  | rows {t value table : NodeId} {q : Query} (hsingle : g.IsSingle root)
      (hbase : g.baseTable root = some t) (hreduction : g.hasReduction root = false)
      (hvalue : g.NamedAs root value) (htable : g.node table = .projection t [value])
      (hq : Q g table q) :
    Answers Q g root q (.column (g.fieldName root))

variable {Q : QuerySpec}

/-- What is known of the queries of tables that are no set operations. -/
def QuerySpec.MeetsBlocks (Q : QuerySpec) : Prop :=
  ∀ (node : NodeId) (g : Graph), g.WellFounded → g.Has node →
    (∀ l r distinct, g.node node ≠ .union l r distinct) →
      Grows (fun g' q => Q g' node q) (queryOf node) g

/-- The query of a single value. -/
theorem grows_valueQuery_answers (hQ : Q.MeetsBlocks) (hg : g.WellFounded) (hroot : g.Has root)
    (hsingle : g.IsSingle root) :
  Grows (fun g' r => Answers Q g' root r.1 r.2) (valueQuery root) g
  := by
  have hsingles : ∀ {g'}, g.Extends g' → g'.IsSingle root :=
    fun e => (e.isSingle_iff hg hroot).mpr hsingle
  rw [valueQuery]
  apply grows_bind (grows_withName_as hg hroot)
  intro value g₁ hg₁ e₁ hvalue
  have hroot₁ := hroot.mono e₁
  have hhas := hvalue.has hroot₁
  apply grows_get
  split
  case h_1 hbase => exact grows_pure hg₁ (.constant (hsingles e₁) hbase hvalue)
  case h_2 t hbase =>
      have hchildren : ∀ c ∈ [t, value], g₁.Has c :=
        List.forall_mem_cons.mpr
          ⟨has_of_baseTable hg₁ hroot₁ hbase, List.forall_mem_singleton.mpr hhas⟩
      split
      case isTrue hreduction =>
          apply grows_bind (grows_push hg₁ (n := .aggregation t [] [value] []) hchildren)
          rintro table g₂ hg₂ e₂ ⟨htable, hnode, _⟩
          apply grows_bind (hQ table g₂ hg₂ htable (by rw [hnode]; rintro _ _ _ ⟨⟩))
          intro q g₃ hg₃ e₃ hq
          have e := e₂.trans e₃
          have hbase₃ := (e.baseTable_eq hg₁ hg₃ hroot₁).trans hbase
          have hreduction₃ := (e.hasReduction_eq hg₁ hg₃ hroot₁).trans hreduction
          exact grows_pure hg₃ (.total (hsingles (e₁.trans e)) hbase₃ hreduction₃
            (hvalue.mono e hroot₁) (e₃.node_eq_of hnode (by rintro ⟨⟩)) hq)
      case isFalse hreduction =>
          apply grows_bind (grows_push hg₁ (n := .projection t [value]) hchildren)
          rintro table g₂ hg₂ e₂ ⟨htable, hnode, _⟩
          apply grows_bind (hQ table g₂ hg₂ htable (by rw [hnode]; rintro _ _ _ ⟨⟩))
          intro q g₃ hg₃ e₃ hq
          apply grows_pure hg₃
          have e := e₂.trans e₃
          have hname : (g₁.name? value).getD Graph.defaultName = g₃.fieldName root := by
            rw [← e.name?_eq hhas, (hvalue.mono e hroot₁).name?_eq, Option.getD_some]
          have hbase₃ := (e.baseTable_eq hg₁ hg₃ hroot₁).trans hbase
          have hreduction₃ :=
            (e.hasReduction_eq hg₁ hg₃ hroot₁).trans (Bool.eq_false_iff.mpr hreduction)
          rw [hname]
          exact .rows (hsingles (e₁.trans e)) hbase₃ hreduction₃ (hvalue.mono e hroot₁)
            (e₃.node_eq_of hnode (by rintro ⟨⟩)) hq

/-- The query of a value. -/
theorem grows_rootQuery_answers (hQ : Q.MeetsBlocks) (hg : g.WellFounded) (hroot : g.Has root)
    (hvalue : g.isRelation root = false) :
  Grows (fun g' r => Answers Q g' root r.1 r.2) (rootQuery root) g
  := by
  rw [rootQuery]
  apply grows_get
  split
  case h_1 t name hn =>
      have ht : g.Has t := hg.has_child hroot (by rw [hn]; exact List.mem_singleton_self t)
      split
      case h_1 input keys metrics having hnode =>
          apply grows_bind (hQ t g hg ht (by rw [hnode]; rintro _ _ _ ⟨⟩))
          intro q g' hg' e hq
          exact grows_pure hg' (.field (e.node_eq_of hn (by rintro ⟨⟩))
            (e.node_eq_of hnode (by rintro ⟨⟩)) hq)
      case h_2 hother =>
          refine grows_valueQuery_answers hQ hg hroot ⟨fun exprs h => ?_, fun u m h => ?_⟩
          · cases hn.symm.trans h
          · obtain ⟨rfl, rfl⟩ := Node.column.inj (hn.symm.trans h)
            rw [Graph.isAggregation]
            cases hnode : g.node t with
            | aggregation => exact absurd hnode (hother _ _ _ _)
            | _ => rfl
  case h_2 exprs hn =>
      have hexprs : ∀ e ∈ exprs, g.Has e := fun e he => hg.has_child hroot (by rw [hn]; exact he)
      apply grows_bind (grows_listQuery QuerySpec.hereditary_true.meets_queryOf hg hroot hexprs)
      intro q g' hg' e _
      exact grows_pure hg' (.list (e.node_eq_of hn (by rintro ⟨⟩)))
  all_goals first | exact grows_fail hg _ | skip
  case h_6 hcolumn hlist _ _ _ =>
      rw [if_neg (by rw [← Graph.isRelation, hvalue]; exact Bool.false_ne_true)]
      exact grows_valueQuery_answers hQ hg hroot
        ⟨fun exprs h => hlist exprs h, fun t name h => absurd h (hcolumn t name)⟩

end RelSql
