import RelSql.Proofs.Lexical.Queries
import RelSql.Proofs.Statement.Sharing

/-!
# String literals in statements

Every string that a statement is written with stands in its text as its literal, whatever blocks,
nested queries and common table expressions it is in: spaces may stand behind its newlines, and
a literal of one line stands there as it is.
-/

namespace RelSql

open Text Render

namespace Query

/-- A query is written with a string: with a value of a block, with a nested query that stands for
such a value, or with one that stands for a table of its FROM clause. -/
inductive Shows (g : Graph) (options : Render.Options) : Query → String → Prop where
  | value {c : Clauses} {nested : List (Nested Query)} {id l : NodeId} {s : String}
      (hid : id ∈ (view g options ⟨c, nested⟩).values)
      (hholds : (view g options ⟨c, nested⟩).Holds id l)
      (hplain : nestedFor? nested l = none) (hn : g.node l = .literal (.string s)) :
    Shows g options (.select c nested) s
  | subquery {c : Clauses} {nested : List (Nested Query)} {id l : NodeId} {n : Nested Query}
      {s : String} (hid : id ∈ (view g options ⟨c, nested⟩).values)
      (hholds : (view g options ⟨c, nested⟩).Holds id l) (hnested : nestedFor? nested l = some n)
      (hkind : n.kind = .scalar ∨ n.kind = .exists
        ∨ n.kind = .membership ∧ ∃ arg values negated, g.node l = .contains arg values negated)
      (h : Shows g options n.query s) :
    Shows g options (.select c nested) s
  | derived {c : Clauses} {nested : List (Nested Query)} {leaf : NodeId} {n : Nested Query}
      {s : String} (hleaf : leaf ∈ c.leaves) (hderived : derivedFor? nested leaf = some n)
      (hshared : n.shared = none) (h : Shows g options n.query s) :
    Shows g options (.select c nested) s
  | left {l r : Query} {distinct : Bool} {s : String} (h : Shows g options l s) :
    Shows g options (.union l r distinct) s
  | right {l r : Query} {distinct : Bool} {s : String} (h : Shows g options r s) :
    Shows g options (.union l r distinct) s

end Query

/-- A statement is written with a string when one of its queries is. -/
def Statement.Shows (st : Statement) (options : Render.Options) (s : String) : Prop :=
  st.query.Shows st.graph options s ∨ ∃ t ∈ st.shared, t.query.Shows st.graph options s

namespace Render.View

variable {v : View} {id l : NodeId} {text : String}

/-- The values that a value is written with stand in its text. -/
theorem standsIn_of_holds (hholds : v.Holds id l) (h : v.value id = .ok text) :
  StandsIn v.value text l
  := by
  induction hholds generalizing text with
  | refl id => exact ⟨text, h, .refl text⟩
  | part hp _ ih =>
      rw [value, NodeId.recurse_eq_below] at h
      obtain ⟨inner, hinner, hwithin⟩ := standsIn_of_valueStep h _ hp
      beta_reduce at hinner
      split at hinner
      · exact (ih hinner).within hwithin
      · cases hinner

theorem nestedFor?_view {g : Graph} {options : Options} {c : Clauses} {nested : List (Nested Query)} :
  nestedFor? (view g options ⟨c, nested⟩).nested id
    = (nestedFor? nested id).map (Nested.map (query g options))
  := by
  rw [nestedFor?, nestedFor?, view, List.find?_map]
  rfl

/-- The text of a nested query stands in that of the value that it stands for. -/
theorem standsIn_of_subquery {s : Nested Delayed} (hnested : nestedFor? v.nested l = some s)
    (hkind : s.kind = .scalar ∨ s.kind = .exists
      ∨ s.kind = .membership ∧ ∃ arg values negated, v.graph.node l = .contains arg values negated)
    (h : v.value l = .ok text) :
  ∃ inner, s.query () = .ok inner ∧ Within inner text
  := by
  rw [value, NodeId.recurse_eq_below, valueStep, hnested] at h
  obtain ⟨body, hbody, h⟩ := exists_of_bind_eq_ok h
  refine ⟨body, hbody, ?_⟩
  have hwithin : Within body ("(\n" ++ indent v.options.indent body ++ "\n)") :=
    ((Within.refl body).indent _).between _ _
  rcases hkind with hkind | hkind | ⟨hkind, arg, values, negated, hn⟩
  · simp only [hkind] at h
    cases h
    exact hwithin
  · simp only [hkind] at h
    cases h
    exact hwithin.right _
  · simp only [hkind, hn] at h
    obtain ⟨argument, _, h⟩ := exists_of_bind_eq_ok h
    cases h
    exact hwithin.right _

/-- The text of a derived table stands in that of the table. -/
theorem standsIn_of_derived {leaf : NodeId} {s : Nested Delayed}
    (hderived : derivedFor? v.nested leaf = some s) (hshared : s.shared = none)
    (h : v.table leaf = .ok text) :
  ∃ inner, s.query () = .ok inner ∧ Within inner text
  := by
  rw [View.table] at h
  split at h
  case h_1 => cases h
  case h_2 label _ =>
      rw [hderived] at h
      simp only [hshared] at h
      obtain ⟨inner, hinner, h⟩ := exists_of_bind_eq_ok h
      cases h
      exact ⟨inner, hinner, (((Within.refl inner).indent _).between _ _).left _⟩

end Render.View

namespace Query

/-- The strings that a query is written with stand in its text. -/
theorem Shows.within {g : Graph} {options : Render.Options} {q : Query} {s : String}
    (hs : q.Shows g options s) {text : String} (h : query g options q () = .ok text) :
  Within (stringLiteral s) text
  := by
  induction hs generalizing text with
  | value hid hholds hplain hn =>
      rw [text_select] at h
      obtain ⟨value, hvalue, hwithin⟩ := (View.standsIn_of_text h).1 _ hid
      obtain ⟨inner, hinner, hwithin'⟩ := View.standsIn_of_holds hholds hvalue
      rw [View.value, NodeId.recurse_eq_below, View.valueStep, View.nestedFor?_view, hplain] at hinner
      simp only [Option.map_none, View.plainStep, view, hn] at hinner
      cases hinner
      exact hwithin'.trans hwithin
  | subquery hid hholds hnested hkind _ ih =>
      rw [text_select] at h
      obtain ⟨value, hvalue, hwithin⟩ := (View.standsIn_of_text h).1 _ hid
      obtain ⟨inner, hinner, hwithin'⟩ := View.standsIn_of_holds hholds hvalue
      obtain ⟨body, hbody, hwithin''⟩ := View.standsIn_of_subquery
        (by rw [View.nestedFor?_view, hnested, Option.map_some]) hkind hinner
      exact (ih hbody).trans (hwithin''.trans (hwithin'.trans hwithin))
  | derived hleaf hderived hshared _ ih =>
      rw [text_select] at h
      obtain ⟨table, htable, hwithin⟩ := (View.standsIn_of_text h).2 _ hleaf
      obtain ⟨body, hbody, hwithin'⟩ := View.standsIn_of_derived
        (by rw [view, derivedFor?_mapQuery, hderived, Option.map_some]) hshared htable
      exact (ih hbody).trans (hwithin'.trans hwithin)
  | left _ ih =>
      rw [text_union] at h
      obtain ⟨left, hleft, h⟩ := exists_of_bind_eq_ok h
      obtain ⟨right, _, h⟩ := exists_of_bind_eq_ok h
      cases h
      exact ((((ih hleft).left _).left _).left _).left _
  | right _ ih =>
      rw [text_union] at h
      obtain ⟨left, _, h⟩ := exists_of_bind_eq_ok h
      obtain ⟨right, hright, h⟩ := exists_of_bind_eq_ok h
      cases h
      exact (ih hright).right _

end Query

/-- The literal of a string has as many lines as the string. -/
theorem newline_mem_stringLiteral {s : String} :
  '\n' ∈ (stringLiteral s).toList ↔ '\n' ∈ s.toList
  := by
  rw [stringLiteral, String.toList_ofList, escapeString]
  simp only [List.cons_append, List.mem_cons, List.mem_append, List.mem_flatMap, List.not_mem_nil,
    or_false]
  constructor
  · rintro (h | ⟨c, hc, h⟩ | h)
    · cases h
    · split at h
      · rcases List.mem_pair.mp h with h | h <;> cases h
      · rwa [List.mem_singleton.mp h]
    · cases h
  · intro h
    exact .inr (.inl ⟨'\n', h, List.mem_singleton_self _⟩)

/-- The literal of a string that a statement is written with stands in its text, with spaces behind
its newlines; if it has none, it stands there as it is. -/
theorem Statement.literals_stand {st : Statement} {options : Render.Options} {text : String}
    (h : st.sql options = .ok text) {s : String} (hs : st.Shows options s) :
  Within (stringLiteral s) text
    ∧ ('\n' ∉ s.toList → (stringLiteral s).toList <:+: text.toList)
  := by
  have hwithin : Within (stringLiteral s) text := by
    rw [Statement.sql] at h
    obtain ⟨body, hbody, h⟩ := exists_of_bind_eq_ok h
    split at h
    case isTrue hempty =>
        cases h
        rcases hs with hs | ⟨t, ht, _⟩
        · exact hs.within hbody
        · rw [List.isEmpty_iff.mp hempty] at ht
          exact absurd ht List.not_mem_nil
    case isFalse =>
        obtain ⟨tables, htables, h⟩ := exists_of_bind_eq_ok h
        cases h
        rcases hs with hs | ⟨t, ht, hs⟩
        · exact (hs.within hbody).right _
        · obtain ⟨table, hmem, htable⟩ := exists_mem_of_mapM_eq_ok htables t ht
          rw [sharedTable] at htable
          obtain ⟨inner, hinner, htable⟩ := exists_of_bind_eq_ok htable
          cases htable
          have htable := (((hs.within hinner).indent options.indent).right (t.name ++ " AS (\n")).left "\n)"
          exact (((Within.joinWith ⟨_, hmem, htable⟩).right _).left _).left _
  exact ⟨hwithin, fun hline => hwithin.infix_of_line fun hmem =>
    hline (newline_mem_stringLiteral.mp hmem)⟩

/-- A table that is joined with the first rows of another one, in which a string is looked for. -/
def joinedWithFound : Graph := ⟨#[
  .table ⟨some "t", none, ⟨[⟨"x", .string⟩]⟩⟩,
  .column ⟨0⟩ "x",
  .literal (.string "it's"),
  .binary .eq ⟨1⟩ ⟨2⟩,
  .selection ⟨0⟩ [⟨3⟩],
  .limit ⟨4⟩ 3 0,
  .column ⟨5⟩ "x",
  .table ⟨some "u", none, ⟨[⟨"y", .string⟩]⟩⟩,
  .column ⟨7⟩ "y",
  .binary .eq ⟨8⟩ ⟨6⟩,
  .join .inner ⟨7⟩ ⟨5⟩ [⟨9⟩]]⟩

/-- The block of the derived table shows the string in one of its values. -/
theorem joinedWithFound_analyzed :
  ((joinedWithFound.analyze ⟨10⟩).toOption.bind fun st =>
    match st.query with
    | .select c nested =>
      (derivedFor? nested ⟨5⟩).bind fun n =>
        match n.query with
        | .select c' nested' =>
          some ((st.sql .default).toOption.isSome && decide (⟨5⟩ ∈ c.leaves) && n.shared.isNone
            && decide (⟨3⟩ ∈ (view st.graph .default ⟨c', nested'⟩).values)
            && decide (⟨2⟩ ∈ (view st.graph .default ⟨c', nested'⟩).parts ⟨3⟩)
            && (nestedFor? nested' ⟨2⟩).isNone
            && decide (st.graph.node ⟨2⟩ = .literal (.string "it's")))
        | _ => none
    | _ => none) = some true
  := by decide +kernel

/-- The literal of the string stands in the query of the derived table. -/
theorem literals_stand_joinedWithFound :
  ∃ st text, joinedWithFound.analyze ⟨10⟩ = .ok st ∧ st.sql .default = .ok text
    ∧ st.Shows .default "it's" ∧ (stringLiteral "it's").toList <:+: text.toList
  := by
  obtain ⟨st, hst, hrun⟩ := Option.bind_eq_some_iff.mp joinedWithFound_analyzed
  split at hrun
  case h_2 => cases hrun
  case h_1 c nested hquery =>
      obtain ⟨n, hderived, hrun⟩ := Option.bind_eq_some_iff.mp hrun
      split at hrun
      case h_2 => cases hrun
      case h_1 c' nested' hn =>
          simp only [Option.some.injEq, Bool.and_eq_true, decide_eq_true_eq,
            Option.isNone_iff_eq_none] at hrun
          obtain ⟨⟨⟨⟨⟨⟨htext, hleaf⟩, hshared⟩, hvalue⟩, hpart⟩, hplain⟩, hnode⟩ := hrun
          obtain ⟨text, htext⟩ := Option.isSome_iff_exists.mp htext
          have hshows : st.Shows .default "it's" := by
            refine .inl ?_
            rw [hquery]
            refine .derived hleaf hderived hshared ?_
            rw [hn]
            exact .value hvalue (.part hpart (.refl _)) hplain hnode
          have hstand := (Statement.literals_stand (eq_ok_of_toOption htext) hshows).2 (by decide)
          exact ⟨st, text, eq_ok_of_toOption hst, eq_ok_of_toOption htext, hshows, hstand⟩

end RelSql
