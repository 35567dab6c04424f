import RelSql.Proofs.Block.Filters
import RelSql.Proofs.Qualification.Reading
import RelSql.Proofs.Qualification.Resolution
import RelSql.Proofs.Relational.Analysis
import RelSql.Proofs.Relational.Values
import RelSql.Proofs.Statement.Tables

/-!
# Texts of written values

A value that is made of columns by operators that are written has a text when these columns have,
and no other column stands in the text.  A block has a text when its values and its tables have.
-/

namespace RelSql

namespace Render

open Text

/-- A result that is no error. -/
def Yields {α : Type} (x : Except CompileError α) : Prop :=
  ∃ a, x = .ok a

namespace Yields

variable {α β : Type} {x : Except CompileError α}

theorem ok (a : α) :
  Yields (.ok a)
  := ⟨a, rfl⟩

theorem bind {f : α → Except CompileError β} (h : Yields x) (hf : ∀ a, Yields (f a)) :
  Yields (x >>= f)
  := by
  obtain ⟨a, rfl⟩ := h
  exact hf a

theorem map (f : α → β) (h : Yields x) :
  Yields (do return f (← x))
  := h.bind fun a => ok (f a)

theorem mapM {f : β → Except CompileError α} {l : List β} (h : ∀ b ∈ l, Yields (f b)) :
  Yields (l.mapM f)
  := by
  induction l with
  | nil => exact ok []
  | cons b l ih =>
      obtain ⟨hb, hl⟩ := List.forall_mem_cons.mp h
      rw [List.mapM_cons]
      exact hb.bind fun a => (ih hl).map (a :: ·)

end Yields

namespace View

variable {v : View} {shown : NodeId → Result} {id p : NodeId}

/-! ### Values -/

/-- The parts of a value are its operands, or what these are aliases of. -/
theorem child_of_mem_plainParts (h : p ∈ v.plainParts id) :
  ∃ c ∈ (v.graph.node id).children, p = c ∨ p = v.graph.unaliased c
  := by
  rw [plainParts] at h
  cases hn : v.graph.node id
  all_goals simp only [hn] at h
  case contains arg options negated =>
      cases options with
      | list values =>
          rcases List.mem_cons.mp h with rfl | h
          · exact ⟨arg, List.mem_cons_self, .inr rfl⟩
          · exact ⟨p, List.mem_cons_of_mem arg h, .inl rfl⟩
      | column c => exact absurd h List.not_mem_nil
  case binary op l r =>
      have hparts : p ∈ [l] ∨ p ∈ [l, r] ∨ p ∈ [v.graph.unaliased l, v.graph.unaliased r] := by
        split at h
        all_goals (repeat' split at h) <;> simp only [h, true_or, or_true]
      have hl : l ∈ (Node.binary op l r).children := List.mem_cons_self
      have hr : r ∈ (Node.binary op l r).children :=
        List.mem_cons_of_mem l (List.mem_singleton_self r)
      simp only [List.mem_cons, List.not_mem_nil, or_false] at hparts
      rcases hparts with rfl | (rfl | rfl) | rfl | rfl
      · exact ⟨p, hl, .inl rfl⟩
      · exact ⟨p, hl, .inl rfl⟩
      · exact ⟨p, hr, .inl rfl⟩
      · exact ⟨l, hl, .inr rfl⟩
      · exact ⟨r, hr, .inr rfl⟩
  case named | cast | extract | reduction | call => exact ⟨p, h, .inl rfl⟩
  case unary op arg => exact ⟨arg, List.mem_cons_self, .inr (List.mem_singleton.mp h)⟩
  case case base whens default =>
      refine ⟨p, ?_, .inl rfl⟩
      rw [Node.children, List.mem_append, List.mem_append]
      rw [List.mem_append, List.mem_append] at h
      exact h.imp_left Or.symm
  case between arg low high =>
      rcases List.mem_cons.mp h with rfl | h
      · exact ⟨arg, List.mem_cons_self, .inr rfl⟩
      · exact ⟨p, List.mem_cons_of_mem arg h, .inl rfl⟩
  all_goals exact absurd h List.not_mem_nil

theorem yields_operandStep (h : Yields (shown (v.graph.unaliased id))) :
  Yields (v.operandStep shown id)
  := by
  apply h.bind
  intro text
  split
  · exact .ok _
  · split <;> exact .ok _

theorem yields_onOption {o : Option NodeId} (h : ∀ id ∈ o.toList, Yields (shown id)) :
  Yields (onOption shown o)
  := by
  cases o with
  | none => exact .ok none
  | some id => exact (h id (List.mem_singleton_self id)).map some

/-- Infix operations, functions of two arguments, and additions of intervals. -/
theorem yields_binary {l r : NodeId} {op : BinaryOp} (hn : v.graph.node id = .binary op l r)
    (h : ∀ p ∈ v.plainParts id, Yields (shown p)) :
  Yields (v.plainStep shown id)
  := by
  have hinfix : (∀ p ∈ [v.graph.unaliased l, v.graph.unaliased r], Yields (shown p)) →
      Yields (do return (← v.operandStep shown l) ++ " " ++ symbol op ++ " "
        ++ (← v.operandStep shown r)) := by
    intro h
    obtain ⟨hl, hr⟩ := List.forall_mem_cons.mp h
    rw [List.forall_mem_singleton] at hr
    have hr := yields_operandStep hr
    exact (yields_operandStep hl).bind fun a => hr.map fun b => a ++ " " ++ symbol op ++ " " ++ b
  have hpow : (∀ p ∈ [l, r], Yields (shown p)) →
      Yields (do return "pow(" ++ (← shown l) ++ ", " ++ (← shown r) ++ ")") := by
    intro h
    obtain ⟨hl, hr⟩ := List.forall_mem_cons.mp h
    exact hl.bind fun a => (List.forall_mem_singleton.mp hr).map fun b =>
      "pow(" ++ a ++ ", " ++ b ++ ")"
  rw [plainParts] at h
  rw [plainStep]
  simp only [hn] at h ⊢
  split
  case h_1 unit count hr =>
      simp only [hr] at h
      split
      case isTrue hop =>
          rw [if_pos hop] at h
          exact (List.forall_mem_singleton.mp h).map fun a =>
            intervalFunction unit op ++ "(" ++ a ++ ", " ++ Value.integerText count ++ ")"
      case isFalse hop =>
          rw [if_neg hop] at h
          split
          case isTrue hop => exact hpow (by rwa [if_pos hop] at h)
          case isFalse hop => exact hinfix (by rwa [if_neg hop] at h)
  case h_2 hr =>
      have hparts : ∀ p ∈ if op = .pow then [l, r] else [v.graph.unaliased l, v.graph.unaliased r],
          Yields (shown p) := by
        split at h
        case h_1 unit count hr' => exact absurd hr' (hr unit count)
        case h_2 => exact h
      split
      case isTrue hop => exact hpow (by rwa [if_pos hop] at hparts)
      case isFalse hop => exact hinfix (by rwa [if_neg hop] at hparts)

/-- A written value has a text when its parts have. -/
theorem yields_plainStep (hn : (v.graph.node id).isWritten true = true)
    (h : ∀ p ∈ v.plainParts id, Yields (shown p)) :
  Yields (v.plainStep shown id)
  := by
  cases hnode : v.graph.node id with
  | binary op l r => exact yields_binary hnode h
  | unary op arg =>
      have hoperand : Yields (v.operandStep shown arg) := by
        apply yields_operandStep
        apply h
        rw [plainParts, hnode]
        exact List.mem_singleton_self _
      rw [plainStep, hnode]
      cases op with
      | not => exact hoperand.map fun a => "NOT " ++ a
      | negate => exact hoperand.map fun a => "-" ++ a
      | isNull => exact hoperand.map fun a => a ++ " IS NULL"
      | notNull => exact hoperand.map fun a => a ++ " IS NOT NULL"
  | contains arg options negated =>
      cases options with
      | list values =>
          simp only [plainParts, hnode] at h
          obtain ⟨harg, hvalues⟩ := List.forall_mem_cons.mp h
          rw [plainStep, hnode]
          exact (yields_operandStep harg).bind fun a => (Yields.mapM hvalues).map fun l =>
            a ++ membershipKeyword negated ++ "(" ++ joinWith ", " l ++ ")"
      | column c =>
          rw [hnode] at hn
          cases hn
  | literal value =>
      rw [plainStep, hnode]
      exact .ok _
  | named arg name =>
      simp only [plainParts, hnode, List.forall_mem_singleton] at h
      rw [plainStep, hnode]
      exact h
  | call function arguments =>
      simp only [plainParts, hnode] at h
      rw [plainStep, hnode]
      exact (Yields.mapM h).map fun l => function.sqlName ++ "(" ++ joinWith ", " l ++ ")"
  | cast arg target =>
      simp only [plainParts, hnode, List.forall_mem_singleton] at h
      rw [plainStep, hnode]
      exact h.map fun a => "CAST(" ++ a ++ " AS " ++ target.sqlName ++ ")"
  | extract arg unit =>
      simp only [plainParts, hnode, List.forall_mem_singleton] at h
      rw [plainStep, hnode]
      exact h.map fun a => "extract(" ++ a ++ ", '" ++ unit.name ++ "')"
  | reduction aggregate arg =>
      simp only [plainParts, hnode, List.forall_mem_singleton] at h
      rw [plainStep, hnode]
      exact h.map fun a => aggregateOpening aggregate ++ a ++ ")"
  | between arg low high =>
      simp only [plainParts, hnode] at h
      obtain ⟨harg, hbounds⟩ := List.forall_mem_cons.mp h
      obtain ⟨hlow, hhigh⟩ := List.forall_mem_cons.mp hbounds
      rw [List.forall_mem_singleton] at hhigh
      rw [plainStep, hnode]
      exact (yields_operandStep harg).bind fun a => hlow.bind fun b => hhigh.map fun c =>
        a ++ " BETWEEN " ++ b ++ " AND " ++ c
  | case base whens default =>
      simp only [plainParts, hnode, List.forall_mem_append] at h
      obtain ⟨⟨hwhens, hbase⟩, hdefault⟩ := h
      rw [plainStep, hnode]
      apply Yields.bind
      · apply Yields.mapM
        intro w hw
        obtain ⟨hcondition, hvalue⟩ := List.forall_mem_cons.mp
          fun p hp => hwhens p (List.mem_flatMap.mpr ⟨w, hw, hp⟩)
        rw [List.forall_mem_singleton] at hvalue
        exact hcondition.bind fun a => hvalue.map fun b => "WHEN " ++ a ++ " THEN " ++ b
      · exact fun whens => (yields_onOption hbase).bind fun base =>
          (yields_onOption hdefault).map fun default => caseText base whens default
  | _ =>
      rw [hnode] at hn
      cases hn

variable {T : NodeId → String → Bool}

/-- The parts of a written value are written, and come before it. -/
theorem written_of_mem_plainParts (hg : v.graph.WellFounded)
    (h : v.graph.denote (.written true T) id = true) (hp : p ∈ v.plainParts id) :
  v.graph.denote (.written true T) p = true ∧ p.index < id.index
  := by
  rcases (v.graph.node id).kinds with ⟨t, name, hn⟩ | ⟨t, hn⟩ | hn | hn
  · rw [plainParts, hn] at hp
    exact absurd hp List.not_mem_nil
  · rw [plainParts, hn] at hp
    exact absurd hp List.not_mem_nil
  · rw [Graph.denote_relation hg _ hn] at h
    cases h
  · obtain ⟨_, hchildren⟩ := (Graph.denote_written_operator hg hn).mp h
    obtain ⟨c, hc, rfl | rfl⟩ := child_of_mem_plainParts hp
    · exact ⟨hchildren p hc, hg.child_lt hc⟩
    · rw [Graph.denote_unaliased hg (Algebra.written_transparent true T)]
      exact ⟨hchildren c hc, Nat.lt_of_le_of_lt (hg.unaliased_le c) (hg.child_lt hc)⟩

/-- A written value has a text when its columns have, and no subquery stands for it. -/
theorem yields_value (hg : v.graph.WellFounded)
    (hcolumns : ∀ t name, T t name = true → Yields (v.column t name))
    (hnested : ∀ s ∈ v.nested, s.kind = .table ∧ Yields (s.query ()))
    (h : v.graph.denote (.written true T) id = true) :
  Yields (v.value id)
  := by
  obtain ⟨i⟩ := id
  induction i using Nat.strongRecOn with
  | ind i ih =>
      rw [value, NodeId.recurse_eq_below]
      have hplain : Yields (v.plainStep (fun c => if c.index < i then NodeId.recurse
          (fun _ => .error .nestingTooDeep) v.valueStep c else .error .nestingTooDeep) ⟨i⟩) := by
        rcases (v.graph.node ⟨i⟩).kinds with ⟨t, name, hn⟩ | ⟨t, hn⟩ | hn | hn
        · rw [Graph.denote_column hg _ hn] at h
          rw [plainStep, hn]
          exact hcolumns t name h
        · rw [plainStep, hn]
          exact .ok _
        · rw [Graph.denote_relation hg _ hn] at h
          cases h
        · apply yields_plainStep ((Graph.denote_written_operator hg hn).mp h).1
          intro p hp
          obtain ⟨hwritten, hlt⟩ := written_of_mem_plainParts hg h hp
          rw [if_pos hlt]
          exact ih p.index hlt hwritten
      rw [valueStep]
      cases hfound : nestedFor? v.nested ⟨i⟩ with
      | none => exact hplain
      | some s =>
          obtain ⟨hkind, hquery⟩ := hnested s (List.mem_of_find?_eq_some hfound)
          apply hquery.bind
          intro text
          rw [hkind]
          exact hplain

/-- What is written with a value are columns of it, when no subquery stands for it. -/
theorem column_of_writes (hg : v.graph.WellFounded) (hnested : ∀ s ∈ v.nested, s.kind = .table)
    {t : NodeId} {name : String} (hwrites : v.Writes id t name)
    (h : v.graph.denote (.written true T) id = true) :
  T t name = true
  := by
  induction hwrites with
  | column _ hn =>
      rw [Graph.denote_column hg _ hn] at h
      exact h
  | @part id p t name hp _ ih =>
      apply ih
      refine (written_of_mem_plainParts hg h ?_).1
      rw [parts] at hp
      cases hfound : nestedFor? v.nested id with
      | none =>
          rw [hfound] at hp
          exact hp
      | some s =>
          simp only [hfound, hnested s (List.mem_of_find?_eq_some hfound)] at hp
          exact hp

/-! ### Blocks -/

theorem yields_predicate (h : Yields (v.value id)) :
  Yields (v.predicate id)
  := by
  apply h.bind
  intro text
  split <;> exact .ok _

/-- An item of the select list has a text when its value has, or when it is a table. -/
theorem yields_item (h : ∀ p, v.itemValue? id = some p → Yields (v.value p)) :
  Yields (v.item id)
  := by
  rw [itemValue?] at h
  rw [item]
  cases hn : v.graph.node id with
  | join kind l r predicates => exact .ok _
  | named arg name =>
      rw [hn] at h
      exact (h arg rfl).map fun a => a ++ " AS " ++ quoted name
  | _ =>
      rw [hn] at h
      first | exact .ok _ | exact h id rfl

theorem yields_joinText {c : JoinClause} (ht : Yields (v.table c.table))
    (h : ∀ p ∈ c.predicates, Yields (v.value p)) :
  Yields (v.joinText c)
  := by
  apply ht.bind
  intro text
  split
  · exact .ok _
  · exact (Yields.mapM h).map fun texts =>
      joinKeyword c.kind ++ " " ++ text ++ "\n"
        ++ indent v.options.indent ("ON " ++ joinWith " AND\n   " texts)

theorem yields_fromClause
    (h : ∀ t ∈ v.clauses.from?, ∀ c ∈ t.joins, ∀ p ∈ c.predicates, Yields (v.value p))
    (htables : ∀ leaf ∈ v.clauses.leaves, Yields (v.table leaf)) :
  Yields v.fromClause
  := by
  rw [Clauses.leaves] at htables
  rw [fromClause]
  cases hfrom : v.clauses.from? with
  | none => exact .ok []
  | some t =>
      rw [hfrom] at htables
      obtain ⟨hfirst, hjoins⟩ := List.forall_mem_cons.mp htables
      rw [List.forall_mem_map] at hjoins
      refine Yields.map (fun text => ["FROM " ++ text]) ?_
      exact hfirst.bind fun first =>
        (Yields.mapM fun c hc => yields_joinText (hjoins c hc) (h t hfrom c hc)).map fun joins =>
          joinWith "\n" (first :: joins.map (indent v.options.indent))

/-- A block has a text when its values and the tables of its FROM clause have. -/
theorem yields_text (hvalues : ∀ id ∈ v.values, Yields (v.value id))
    (htables : ∀ leaf ∈ v.clauses.leaves, Yields (v.table leaf)) :
  Yields v.text
  := by
  simp only [values, List.forall_mem_append, List.forall_mem_map] at hvalues
  obtain ⟨⟨⟨⟨hselect, hjoins⟩, hpredicates⟩, hhaving⟩, horder⟩ := hvalues
  have hfilters : ∀ ids, (∀ p ∈ ids, Yields (v.value p)) → Yields (v.predicates ids) :=
    fun ids h => .mapM fun p hp => yields_predicate (h p hp)
  refine Yields.bind ?list fun list => ?_
  case list =>
      refine Yields.map (fun items =>
        (if v.clauses.distinct then "SELECT DISTINCT" else "SELECT") ++ selectItems v.options items)
        (.mapM fun id hid => yields_item fun p hp => ?_)
      exact hselect p (List.mem_filterMap.mpr ⟨id, hid, hp⟩)
  refine Yields.bind ?source fun source => ?_
  case source =>
      refine yields_fromClause (fun t ht c hc p hp => hjoins p ?_) htables
      exact List.mem_flatMap.mpr
        ⟨t, Option.mem_toList.mpr ht, List.mem_flatMap.mpr ⟨c, hc, hp⟩⟩
  refine Yields.bind ?filter fun filter => ?_
  case filter =>
      rw [whereClause]
      split
      · exact .ok []
      · exact (hfilters _ hpredicates).map fun texts => ["WHERE " ++ joinWith " AND\n      " texts]
  refine Yields.bind ?having fun having => ?_
  case having =>
      rw [havingClause]
      split
      · exact .ok []
      · exact (hfilters _ hhaving).map fun texts => ["HAVING " ++ joinWith " AND\n       " texts]
  refine Yields.bind ?order fun order => .ok _
  rw [orderClause]
  split
  · exact .ok []
  · refine Yields.map (fun texts => ["ORDER BY " ++ joinWith ", " texts]) (Yields.mapM ?_)
    exact fun k hk => (horder k hk).map fun text => text ++ if k.ascending then "" else " DESC"

end View

end Render

end RelSql

/-! ### Relational tables in SQL

Readable blocks that refer to the tables of their FROM clauses are written, since every column of
their values has a text.  So a relational table has an SQL text, unless one of its projections
stacks a filter on another one.
-/

namespace RelSql

open Render

variable {g : Graph} {b : Select} {root : NodeId}

namespace Select

/-- The values that a readable block is written with are in scope. -/
theorem Readable.inScope (hg : g.WellFounded) (h : b.Readable g) (options : Render.Options) :
  ∀ id ∈ (view g options b).values, b.clauses.InScope g id
  := by
  simp only [View.values, List.forall_mem_append, List.forall_mem_map]
  refine ⟨⟨⟨⟨?_, ?_⟩, h.predicates⟩, h.having⟩, h.orderBy⟩
  · intro id hid
    obtain ⟨item, hitem, hvalue⟩ := List.mem_filterMap.mp hid
    have hselect := h.select item hitem
    rw [View.itemValue?, show (view g options b).graph = g from rfl] at hvalue
    split at hvalue
    case h_1 arg name hn =>
        cases hvalue
        rw [Graph.isRelation, hn] at hselect
        have hitem := hselect.resolve_left Bool.false_ne_true
        rw [Clauses.InScope, Graph.denote_written_operator hg (by rw [hn]; rfl), hn] at hitem
        exact hitem.2 id (List.mem_singleton_self id)
    case h_2 =>
        split at hvalue
        · cases hvalue
        case isFalse hr =>
            cases hvalue
            exact hselect.resolve_left hr
  · intro p hp
    obtain ⟨t, ht, hp⟩ := List.mem_flatMap.mp hp
    rw [h.joins t (Option.mem_toList.mp ht)] at hp
    exact absurd hp List.not_mem_nil

/-- A readable block is written when its nested queries are, and it refers to its tables. -/
theorem Readable.yields_text (hg : g.WellFounded) (h : b.Readable g) (options : Render.Options)
    (htables : ∀ leaf ∈ b.clauses.leaves, b.RefersTo g leaf)
    (hnested : ∀ s ∈ b.nested, Yields (query g options s.query ())) :
  Yields (view g options b).text
  := by
  apply View.yields_text
  · intro id hid
    refine View.yields_value (v := view g options b) hg (fun t name ht => ?_) ?_
      (h.inScope hg options id hid)
    · rw [Yields, View.exists_column_iff]
      rcases Bool.or_eq_true_iff.mp ht with ht | ht
      · obtain ⟨label, hlabel⟩ := (htables t (List.contains_iff_mem.mp ht)).label
        exact .inr (by rw [show (view g options b).clauses = b.clauses from rfl, hlabel]; rfl)
      · exact .inl (List.contains_iff_mem.mp ht)
    · exact List.forall_mem_map.mpr fun s hs => ⟨h.tables s hs, hnested s hs⟩
  · intro leaf hleaf
    cases htable : (view g options b).table leaf with
    | ok text => exact .ok text
    | error e =>
        obtain ⟨s, hs, _, hquery⟩ := ((htables leaf hleaf).table_eq_error_iff options e).mp htable
        obtain ⟨text, htext⟩ := hnested s (mem_of_derivedFor? hs).1
        rw [htext] at hquery
        cases hquery

end Select

/-- Readable queries whose blocks refer to their tables are written. -/
theorem yields_query (hg : g.WellFounded) (options : Render.Options) {q : Query}
    (h : ∀ outer b, q.Holds outer b →
      b.Readable g ∧ ∀ leaf ∈ b.clauses.leaves, b.RefersTo g leaf) :
  Yields (query g options q ())
  := by
  induction q using Query.induction with
  | select c nested ih =>
      rw [Query.text_select]
      obtain ⟨hreadable, htables⟩ := h _ _ .block
      exact hreadable.yields_text hg options htables fun s hs =>
        ih s hs fun outer b hb => h _ b (.nested hs hb)
  | union l r distinct hl hr =>
      rw [Query.text_union]
      exact (hl fun outer b hb => h outer b (.left hb)).bind fun left =>
        (hr fun outer b hb => h outer b (.right hb)).map fun right =>
          left ++ "\n" ++ (if distinct then "UNION" else "UNION ALL") ++ "\n" ++ right

namespace Graph

/-- A relational table, none of whose projections stacks a filter on another one, has an SQL text:
its analysis ends with a statement, every block of which only reads columns of the tables of its
FROM clause and of its outputs. -/
theorem analyze_relational (hg : g.WellFounded) (hroot : g.Relational root)
    (hfree : ¬ g.StacksFilter root) :
  ∃ st, g.analyze root = .ok st ∧ ∀ options,
    (∃ text, st.sql options = .ok text)
      ∧ ∀ outer b, st.Holds outer b → ∀ t name, (view st.graph options b).Reads t name →
        t ∈ b.clauses.leaves ∨ t ∈ b.clauses.outputs
  := by
  have hhas := hroot.has
  obtain ⟨st, hst, hreadable⟩ := analyze_readable hg ⟨hroot, hfree⟩
  have hg' := (analyze_spec QuerySpec.hereditary_true hg hhas hst).2.1
  have hrefers : ∀ outer b, st.Holds outer b → b.Readable st.graph
      ∧ ∀ leaf ∈ b.clauses.leaves, b.RefersTo st.graph leaf :=
    fun outer b hb => ⟨hreadable outer b hb, fun _ hleaf => analyze_refersTo hg hhas hst hb hleaf⟩
  refine ⟨st, hst, fun options => ⟨?_, fun outer b hb t name hreads => ?_⟩⟩
  · apply (yields_query hg' options fun outer b hb => hrefers outer b (.inl hb)).bind
    intro body
    split
    · exact .ok _
    · refine Yields.map (fun tables => "WITH " ++ Text.joinWith ",\n" tables ++ "\n" ++ body)
        (.mapM fun t ht => ?_)
      exact (yields_query hg' options fun outer b hb => hrefers outer b (.inr ⟨t, ht, hb⟩)).map
        fun text => t.name ++ " AS (\n" ++ Text.indent options.indent text ++ "\n)"
  · obtain ⟨value, hvalue, hwrites⟩ := hreads
    have hb := hreadable outer b hb
    have hcolumn := View.column_of_writes (v := view st.graph options b) hg'
      (List.forall_mem_map.mpr hb.tables) hwrites (hb.inScope hg' options value hvalue)
    exact (Bool.or_eq_true_iff.mp hcolumn).imp List.contains_iff_mem.mp List.contains_iff_mem.mp

/-- The largest totals of the rows with a positive value, of which all columns are selected. -/
def positiveTotals : Graph := ⟨#[
  .table ⟨some "t", none, ⟨[⟨"x", .int64⟩, ⟨"y", .int64⟩]⟩⟩,
  .column ⟨0⟩ "x",
  .column ⟨0⟩ "y",
  .binary .add ⟨1⟩ ⟨2⟩,
  .named ⟨3⟩ "s",
  .projection ⟨0⟩ [⟨1⟩, ⟨4⟩],
  .column ⟨5⟩ "x",
  .literal (.integer 0),
  .binary .gt ⟨6⟩ ⟨7⟩,
  .selection ⟨5⟩ [⟨8⟩],
  .projection ⟨9⟩ [⟨9⟩],
  .column ⟨10⟩ "x",
  .column ⟨10⟩ "s",
  .reduction .sum ⟨12⟩,
  .named ⟨13⟩ "total",
  .aggregation ⟨10⟩ [⟨11⟩] [⟨14⟩] [],
  .column ⟨15⟩ "total",
  .sort ⟨15⟩ [⟨⟨16⟩, false⟩],
  .limit ⟨17⟩ 3 0]⟩

/-- Each of its operators has values of its input. -/
theorem relational_positiveTotals :
  positiveTotals.Relational ⟨18⟩
  := by
  refine .limit (t := ⟨17⟩) rfl (.sort (t := ⟨15⟩) rfl ?_ (by decide))
  refine .aggregation (t := ⟨10⟩) rfl ?_ (by decide) (by decide) (by decide)
  refine .projection (t := ⟨9⟩) rfl ?_ (by decide)
  refine .selection (t := ⟨5⟩) rfl ?_ (by decide)
  exact .projection (t := ⟨0⟩) rfl (.table rfl rfl) (by decide)

/-- The outer projection is fused with the inner one, down to the physical table. -/
theorem fusesDown_positiveTotals {filters inner : List NodeId} {t : NodeId}
    (h : positiveTotals.FusesDown [⟨9⟩] ⟨9⟩ filters inner t) :
  (filters = [] ∧ inner = [⟨9⟩] ∧ t = ⟨9⟩) ∨ t = ⟨0⟩
  := by
  have hinner : positiveTotals.node (positiveTotals.peel ⟨9⟩).table = .projection ⟨0⟩ [⟨1⟩, ⟨4⟩] := by
    decide
  induction h with
  | refl => exact .inl ⟨rfl, rfl, rfl⟩
  | step _ _ hsinks hn ih =>
      rcases ih with ⟨_, _, rfl⟩ | rfl
      · rw [hinner] at hn
        cases hn
        exact .inr rfl
      · rw [sinks_eq_false (by decide)] at hsinks
        cases hsinks

/-- The filter is stacked on nothing there. -/
theorem not_stacksFilter_positiveTotals :
  ¬ positiveTotals.StacksFilter ⟨18⟩
  := by
  have hlast : ∀ filters, positiveTotals.sinks filters ⟨0⟩ = false := fun _ =>
    sinks_eq_false (by decide)
  intro h
  have htotals : positiveTotals.StacksFilter ⟨15⟩ := (h.of_input rfl rfl).of_input rfl rfl
  cases htotals.of_input (t := ⟨10⟩) rfl rfl with
  | here hn hdown hsome _ hsinks =>
      cases hn
      rcases fusesDown_positiveTotals hdown with ⟨rfl, _, _⟩ | rfl
      · exact hsome rfl
      · rw [hlast] at hsinks
        cases hsinks
  | input _ hother _ => cases hother
  | fused hn hdown hend h =>
      cases hn
      rcases fusesDown_positiveTotals hdown with ⟨rfl, rfl, rfl⟩ | rfl
      · exact absurd (hend (List.mem_singleton_self _)) (by decide)
      · cases h with
        | here hn | fused hn => cases hn
        | input ht _ _ => cases ht

/-- Its projections are fused into one, which is the derived table of the totals. -/
theorem analyze_relational_positiveTotals :
  ∃ st, positiveTotals.analyze ⟨18⟩ = .ok st ∧ (∃ text, st.sql .default = .ok text)
    ∧ st.query.first.clauses.leaves = [⟨10⟩]
  := by
  obtain ⟨st, hst, hsql⟩ := analyze_relational (g := positiveTotals) (by decide)
    relational_positiveTotals not_stacksFilter_positiveTotals
  have hrun : (positiveTotals.analyze ⟨18⟩).toOption.map (fun st => st.query.first.clauses.leaves)
      = some [⟨10⟩] := by
    decide +kernel
  rw [hst] at hrun
  exact ⟨st, hst, (hsql .default).1, Option.some.inj hrun⟩

/-- The rows of a filtered projection of a projection are relational.  Their outer projection stacks
the filter on the inner one, and what the block selects is a column of that, which is not a table of
its FROM clause. -/
theorem sql_keptFilter :
  keptFilter.Relational ⟨9⟩ ∧ keptFilter.StacksFilter ⟨9⟩
    ∧ ∃ st, keptFilter.analyze ⟨9⟩ = .ok st
      ∧ st.sql .default = .error (.columnOutOfScope "x")
  := by
  refine ⟨?_, ?_, ?_⟩
  · refine .projection (t := ⟨8⟩) rfl ?_ (by decide)
    refine .selection (t := ⟨4⟩) rfl ?_ (by decide)
    refine .projection (t := ⟨2⟩) rfl ?_ (by decide)
    exact .projection (t := ⟨0⟩) rfl (.table rfl rfl) (by decide)
  · have hinner : keptFilter.node (keptFilter.peel ⟨8⟩).table = .projection ⟨2⟩ [⟨3⟩] := by
      decide
    have hself : keptFilter.FusesDown [⟨8⟩] ⟨8⟩ [] [⟨8⟩] ⟨8⟩ := .refl
    have hdown := hself.step (List.mem_singleton_self _) (by decide) hinner
    exact .here rfl hdown (by decide) (by decide) (by decide)
  · have hrun : ((keptFilter.analyze ⟨9⟩).toOption.map fun st => decide (st.sql .default
        = .error (.columnOutOfScope "x"))) = some true := by
      decide +kernel
    obtain ⟨st, hst, hsql⟩ := Option.map_eq_some_iff.mp hrun
    exact ⟨st, eq_ok_of_toOption hst, of_decide_eq_true hsql⟩

end Graph

end RelSql
