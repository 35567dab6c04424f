import RelSql.Proofs.Qualification.Reading
import RelSql.Proofs.Renaming.Queries
import RelSql.Proofs.Statement.Query

/-!
# White space

The options of the layout only decide where spaces and line breaks stand: the texts of a
statement under two of them are the same without these, and a statement that has no text under one
of them has none under the other, for the same reason.
-/

namespace RelSql

open List Text

namespace Text

/-- The characters of a text that are neither spaces nor line breaks. -/
def inked (cs : List Char) : List Char :=
  cs.filter fun c => c ≠ ' ' ∧ c ≠ '\n'

/-- A text without its spaces and line breaks. -/
def squeezed (s : String) : String :=
  String.ofList (inked s.toList)

/-- Two texts that differ in spaces and line breaks only. -/
abbrev Alike (s t : String) : Prop :=
  squeezed s = squeezed t

theorem inked_append (cs ds : List Char) :
  inked (cs ++ ds) = inked cs ++ inked ds
  := filter_append ..

theorem inked_spaces (n : Nat) :
  inked (replicate n ' ') = []
  := filter_replicate_of_neg (by decide)

/-- Spaces behind line breaks are dropped with these. -/
theorem inked_padBreaks (n : Nat) (cs : List Char) :
  inked (padBreaks (replicate n ' ') cs) = inked cs
  := by
  induction cs with
  | nil => rfl
  | cons c cs ih =>
      have hcons : inked (c :: cs) = inked [c] ++ inked cs := inked_append [c] cs
      rw [Sql.padBreaks_cons, inked_append, ih, hcons]
      split
      case isTrue =>
        have hbreak : inked (c :: replicate n ' ') = inked [c] ++ inked (replicate n ' ') :=
          inked_append [c] _
        rw [hbreak, inked_spaces, append_nil]
      case isFalse => rfl

theorem squeezed_append (s t : String) :
  squeezed (s ++ t) = squeezed s ++ squeezed t
  := by
  rw [squeezed, String.toList_append, inked_append, String.ofList_append]
  rfl

theorem squeezed_indent (n : Nat) (s : String) :
  squeezed (indent n s) = squeezed s
  := by
  rw [squeezed, indent, String.toList_ofList, inked_append, inked_spaces, inked_padBreaks]
  rfl

namespace Alike

variable {s s' t t' : String} {l l' : List String}

theorem append (hs : Alike s s') (ht : Alike t t') :
  Alike (s ++ t) (s' ++ t')
  := by
  rw [Alike, squeezed_append, squeezed_append, hs, ht]

/-- A text put between two others. -/
theorem enclose (before after : String) (h : Alike s s') :
  Alike (before ++ s ++ after) (before ++ s' ++ after)
  := (append rfl h).append rfl

/-- Texts with one between them. -/
theorem part (sep : String) (hs : Alike s s') (ht : Alike t t') :
  Alike (s ++ sep ++ t) (s' ++ sep ++ t')
  := (hs.append rfl).append ht

/-- Texts are indented by any number of spaces. -/
theorem indented (n n' : Nat) (h : Alike s s') :
  Alike (indent n s) (indent n' s')
  := by
  rw [Alike, squeezed_indent, squeezed_indent, h]

theorem refl_list (l : List String) :
  Forall₂ Alike l l
  := forall₂_same.mpr fun _ _ => rfl

theorem joined (sep : String) (h : Forall₂ Alike l l') :
  Alike (joinWith sep l) (joinWith sep l')
  := by
  induction h with
  | nil => rfl
  | cons hs ht ih =>
      cases ht with
      | nil => exact hs
      | cons ht _ => exact hs.part sep ih

end Alike

end Text

namespace Render

/-! ### Select lists -/

/-- An item is preceded by a comma and white space, wherever it is placed. -/
theorem squeezed_placeItem (options : Options) (first : Bool) (line : Line) (item : String) :
  squeezed (placeItem options first line item).1 = squeezed (comma first) ++ squeezed item
  := by
  have hbreak : squeezed "\n" = "" := by decide
  have hspace : squeezed " " = "" := by decide
  have hwrap : squeezed ",\n       " = squeezed "," := by decide
  obtain ⟨e, line', hitem, hplaces⟩ := exists_places options first line item
  rw [hitem, squeezed_append]
  cases hplaces with
  | block _ => rw [squeezed_append, squeezed_indent, hbreak, String.append_empty]
  | joined _ _ => rw [squeezed_append, hspace, String.append_empty]
  | wrapped _ _ =>
      cases first with
      | true => exact congrArg (· ++ squeezed item) hbreak
      | false => exact congrArg (· ++ squeezed item) hwrap

/-- A select list is broken into lines between its items only. -/
theorem alike_placeItems (options options' : Options) {items items' : List String}
    (h : Forall₂ Alike items items') :
  ∀ (first : Bool) (line line' : Line),
    Alike (placeItems options first line items) (placeItems options' first line' items')
  := by
  induction h with
  | nil => exact fun _ _ _ => rfl
  | cons hitem _ ih =>
      intro first line line'
      rw [placeItems_cons, placeItems_cons]
      refine Alike.append ?_ (ih false _ _)
      rw [Alike, squeezed_placeItem, squeezed_placeItem, hitem]

/-- The branches of a case are laid out by their number. -/
theorem alike_caseText {base base' : Option String} {whens whens' : List String}
    {default default' : Option String} (hb : Option.Rel Alike base base')
    (hw : Forall₂ Alike whens whens') (hd : Option.Rel Alike default default') :
  Alike (caseText base whens default) (caseText base' whens' default')
  := by
  have hbase : Forall₂ Alike base.toList base'.toList := by
    cases hb with
    | none => exact .nil
    | some h => exact .cons h .nil
  have hother : Forall₂ Alike (default.toList.map ("ELSE " ++ ·))
      (default'.toList.map ("ELSE " ++ ·)) := by
    cases hd with
    | none => exact .nil
    | some h => exact .cons (.append rfl h) .nil
  simp only [caseText, hw.length_eq]
  split
  · exact ((Alike.joined " " (.cons rfl hbase)).part "\n"
      ((Alike.joined "\n" (rel_append hw hother)).indented 2 2)).append rfl
  · exact .enclose "CASE " " END" (.joined " " (rel_append (rel_append hbase hw) hother))

/-! ### Outcomes of writing -/

/-- Two texts that differ in white space only, or the same fault twice. -/
abbrev Concordant : Result → Result → Prop :=
  Agree id Alike

/-- Two lists of texts that differ in white space only, or the same fault twice. -/
abbrev ConcordantList :
    Except CompileError (List String) → Except CompileError (List String) → Prop :=
  Agree id (Forall₂ Alike)

namespace Concordant

variable {α : Type} {x y : Result}

theorem refl (x : Result) :
  Concordant x x
  := by
  cases x with
  | ok s => exact .ok rfl
  | error e => exact .error rfl

theorem map {f f' : String → String} (h : Concordant x y)
    (hf : ∀ s t, Alike s t → Alike (f s) (f' t)) :
  Concordant (do return f (← x)) (do return f' (← y))
  := h.bind fun s t hst => .ok (hf s t hst)

theorem mapM {f f' : α → Result} (l : List α) (h : ∀ a, Concordant (f a) (f' a)) :
  ConcordantList (l.mapM f) (l.mapM f')
  := by
  apply Agree.mapM (R := Eq) (forall₂_same.mpr fun _ _ => rfl)
  rintro a _ rfl
  exact h a

/-- Outcomes are concordant when they are the same without their spaces and line breaks. -/
theorem iff_map_eq :
  Concordant x y ↔ x.map squeezed = y.map squeezed
  := by
  constructor
  · intro h
    cases h with
    | ok h => exact congrArg Except.ok h
    | error h => exact congrArg Except.error h
  · intro h
    cases x with
    | error e =>
        cases y with
        | error e' => exact .error (Except.error.inj h)
        | ok t => cases h
    | ok s =>
        cases y with
        | error e' => cases h
        | ok t => exact .ok (Except.ok.inj h)

end Concordant

/-- Views of one block under any two options, whose nested queries have concordant texts. -/
structure View.Concordant (v v' : View) : Prop where
  graph : v.graph = v'.graph
  clauses : v.clauses = v'.clauses
  nested : Forall₂ (Nested.Similar Eq fun d d' => Render.Concordant (d ()) (d' ()))
    v.nested v'.nested

namespace View.Concordant

variable {v v' : View}

theorem biUnique_eq :
  Relator.BiUnique (Eq : NodeId → NodeId → Prop)
  := ⟨fun _ _ _ h h' => h.trans h'.symm, fun _ _ _ h h' => h.symm.trans h'⟩

theorem nestedFor? (h : v.Concordant v') (id : NodeId) :
  Option.Rel (Nested.Similar Eq fun d d' => Render.Concordant (d ()) (d' ()))
    (nestedFor? v.nested id) (nestedFor? v'.nested id)
  := nestedFor?_related biUnique_eq h.nested rfl

theorem derivedFor? (h : v.Concordant v') (id : NodeId) :
  Option.Rel (Nested.Similar Eq fun d d' => Render.Concordant (d ()) (d' ()))
    (derivedFor? v.nested id) (derivedFor? v'.nested id)
  := derivedFor?_related biUnique_eq h.nested rfl

/-- Blocks are concordant when the texts of their nested queries are. -/
theorem of_nested {g : Graph} (options options' : Options) (c : Clauses)
    {nested : List (Nested Query)} {f f' : Query → Delayed}
    (h : ∀ s ∈ nested, Render.Concordant (f s.query ()) (f' s.query ())) :
  View.Concordant ⟨g, options, c, nested.map (Nested.map f)⟩
    ⟨g, options', c, nested.map (Nested.map f')⟩
  := by
  refine ⟨rfl, rfl, ?_⟩
  rw [forall₂_map_left_iff, forall₂_map_right_iff]
  exact forall₂_same.mpr fun s hs => ⟨rfl, rfl, rfl, h s hs⟩

/-! ### Values -/

section

variable {shown shown' : NodeId → Result}

theorem column (h : v.Concordant v') (table : NodeId) (name : String) :
  Render.Concordant (v.column table name) (v'.column table name)
  := by
  rw [View.column, View.column, h.clauses]
  exact .refl _

theorem operandStep (h : v.Concordant v') (hs : ∀ c, Render.Concordant (shown c) (shown' c))
    (id : NodeId) :
  Render.Concordant (v.operandStep shown id) (v'.operandStep shown' id)
  := by
  rw [View.operandStep, View.operandStep, h.graph]
  apply (hs _).bind
  intro s t hst
  rw [isSome_eq_of_related (h.nestedFor? _)]
  split
  · exact .ok hst
  · split
    · exact .ok (hst.enclose "(" ")")
    · exact .ok hst

/-- Infix operations, functions of two arguments, and additions of intervals. -/
theorem binary (h : v.Concordant v') (hs : ∀ c, Render.Concordant (shown c) (shown' c))
    (op : BinaryOp) (l r : NodeId) {id : NodeId} (hid : v'.graph.node id = .binary op l r) :
  Render.Concordant (v.plainStep shown id) (v'.plainStep shown' id)
  := by
  have hinfix : Render.Concordant
      (do return (← v.operandStep shown l) ++ " " ++ symbol op ++ " "
        ++ (← v.operandStep shown r))
      (do return (← v'.operandStep shown' l) ++ " " ++ symbol op ++ " "
        ++ (← v'.operandStep shown' r)) :=
    (h.operandStep hs l).bind fun _ _ hl => (h.operandStep hs r).map fun _ _ hr =>
      (((hl.append rfl).append rfl).append rfl).append hr
  have hpow : Render.Concordant (do return "pow(" ++ (← shown l) ++ ", " ++ (← shown r) ++ ")")
      (do return "pow(" ++ (← shown' l) ++ ", " ++ (← shown' r) ++ ")") :=
    (hs l).bind fun _ _ hl => (hs r).map fun _ _ hr =>
      (((Alike.append rfl hl).append rfl).append hr).append rfl
  rw [View.plainStep, View.plainStep, h.graph, hid]
  dsimp only
  split
  · split
    · exact (hs l).map fun _ _ hl =>
        (((Alike.append rfl hl).append rfl).append rfl).append rfl
    · split
      · exact hpow
      · exact hinfix
  · split
    · exact hpow
    · exact hinfix

/-- The branches of a case, and its other parts. -/
theorem case (hs : ∀ c, Render.Concordant (shown c) (shown' c)) (base : Option NodeId)
    (whens : List (NodeId × NodeId)) (default : Option NodeId) :
  Render.Concordant
    (do
      let whens ← whens.mapM fun w => do
        return "WHEN " ++ (← shown w.1) ++ " THEN " ++ (← shown w.2)
      let base ← View.onOption shown base
      return caseText base whens (← View.onOption shown default))
    (do
      let whens ← whens.mapM fun w => do
        return "WHEN " ++ (← shown' w.1) ++ " THEN " ++ (← shown' w.2)
      let base ← View.onOption shown' base
      return caseText base whens (← View.onOption shown' default))
  := by
  have hoption : ∀ o, Agree id (Option.Rel Alike) (View.onOption shown o)
      (View.onOption shown' o) := by
    intro o
    cases o with
    | none => exact .ok .none
    | some c => exact (hs c).bind fun _ _ hst => .ok (.some hst)
  apply Agree.bind
  · apply Concordant.mapM whens
    exact fun w => (hs w.1).bind fun _ _ hl => (hs w.2).map fun _ _ hr =>
      ((Alike.append rfl hl).append rfl).append hr
  · intro ws ws' hw
    apply (hoption base).bind
    intro b b' hb
    apply (hoption default).bind
    intro d d' hd
    exact .ok (alike_caseText hb hw hd)

theorem plainStep (h : v.Concordant v') (hs : ∀ c, Render.Concordant (shown c) (shown' c))
    (id : NodeId) :
  Render.Concordant (v.plainStep shown id) (v'.plainStep shown' id)
  := by
  have hoperand := h.operandStep hs
  obtain ⟨n, hn⟩ : ∃ n, v'.graph.node id = n := ⟨_, rfl⟩
  rw [View.plainStep, View.plainStep, h.graph, hn]
  cases n with
  | binary op l r =>
      have htext := h.binary hs op l r hn
      rwa [View.plainStep, View.plainStep, h.graph, hn] at htext
  | unary op arg =>
      cases op with
      | not => exact (hoperand arg).map fun _ _ ha => .append rfl ha
      | negate => exact (hoperand arg).map fun _ _ ha => .append rfl ha
      | isNull => exact (hoperand arg).map fun _ _ ha => .append ha rfl
      | notNull => exact (hoperand arg).map fun _ _ ha => .append ha rfl
  | column t name => exact h.column t name
  | named arg name => exact hs arg
  | call function arguments =>
      exact (Concordant.mapM arguments hs).bind fun _ _ hl =>
        .ok ((Alike.append rfl (.joined ", " hl)).append rfl)
  | cast arg target =>
      exact (hs arg).map fun _ _ ha => ((ha.enclose "CAST(" " AS ").append rfl).append rfl
  | extract arg unit =>
      exact (hs arg).map fun _ _ ha => ((ha.enclose "extract(" ", '").append rfl).append rfl
  | case base whens default => exact case hs base whens default
  | between arg low high =>
      exact (hoperand arg).bind fun _ _ ha => (hs low).bind fun _ _ hl =>
        (hs high).map fun _ _ hh => (((ha.append rfl).append hl).append rfl).append hh
  | contains arg members negated =>
      cases members with
      | list values =>
          exact (hoperand arg).bind fun _ _ ha => (Concordant.mapM values hs).bind fun _ _ hl =>
            .ok ((((ha.append rfl).append rfl).append (.joined ", " hl)).append rfl)
      | column c => exact .refl _
  | reduction aggregate arg => exact (hs arg).map fun _ _ ha => ha.enclose _ ")"
  | _ => exact .refl _

/-- Subqueries are indented. -/
theorem valueStep (h : v.Concordant v') (hs : ∀ c, Render.Concordant (shown c) (shown' c))
    (id : NodeId) :
  Render.Concordant (v.valueStep shown id) (v'.valueStep shown' id)
  := by
  have hplain := h.plainStep hs id
  have hnested := h.nestedFor? id
  rw [View.valueStep, View.valueStep]
  generalize RelSql.nestedFor? v.nested id = x at hnested
  generalize RelSql.nestedFor? v'.nested id = y at hnested
  cases hnested with
  | none => exact hplain
  | @some s s' hss =>
      dsimp only
      rw [hss.kind]
      apply hss.query.bind
      intro text text' ht
      have hbody : Alike ("(\n" ++ indent v.options.indent text ++ "\n)")
          ("(\n" ++ indent v'.options.indent text' ++ "\n)") :=
        (ht.indented v.options.indent v'.options.indent).enclose "(\n" "\n)"
      cases s'.kind with
      | scalar => exact .ok hbody
      | «exists» => exact .ok (.append rfl hbody)
      | table => exact hplain
      | membership =>
          dsimp only
          rw [h.graph]
          split
          · exact (h.operandStep hs _).map fun _ _ ha => (ha.append rfl).append hbody
          · exact hplain

end

/-- A value is laid out by its parts and by where the subqueries in it stand. -/
theorem value (h : v.Concordant v') (id : NodeId) :
  Render.Concordant (v.value id) (v'.value id)
  := by
  obtain ⟨n⟩ := id
  induction n using Nat.strongRecOn with
  | ind n ih =>
      rw [View.value, View.value, NodeId.recurse_eq_below, NodeId.recurse_eq_below]
      apply h.valueStep
      intro c
      split
      case isTrue hc => exact ih c.index hc
      case isFalse => exact .refl _

theorem predicate (h : v.Concordant v') (id : NodeId) :
  Render.Concordant (v.predicate id) (v'.predicate id)
  := by
  rw [View.predicate, View.predicate, h.graph]
  apply (h.value id).bind
  intro text text' ht
  split
  · exact .ok (ht.enclose "(" ")")
  · exact .ok ht

/-! ### Clauses -/

theorem item (h : v.Concordant v') (id : NodeId) :
  Render.Concordant (v.item id) (v'.item id)
  := by
  have hstar : v.starText id = v'.starText id := by rw [starText, starText, h.clauses]
  rw [View.item, View.item, h.graph, hstar]
  split
  · exact .refl _
  · exact (h.value _).map fun _ _ ha => (ha.append rfl).append rfl
  · split
    · exact .refl _
    · exact h.value id

theorem selectList (h : v.Concordant v') :
  Render.Concordant v.selectList v'.selectList
  := by
  rw [View.selectList, View.selectList, h.clauses]
  exact (Concordant.mapM _ h.item).bind fun _ _ hl =>
    .ok (.append rfl (alike_placeItems v.options v'.options hl true _ _))

theorem table (h : v.Concordant v') (leaf : NodeId) :
  Render.Concordant (v.table leaf) (v'.table leaf)
  := by
  have hphysical : v.physicalName leaf = v'.physicalName leaf := by
    rw [physicalName, physicalName, h.graph]
  have hderived := h.derivedFor? leaf
  rw [View.table, View.table, h.clauses, hphysical]
  split
  · exact .refl _
  · generalize RelSql.derivedFor? v.nested leaf = x at hderived
    generalize RelSql.derivedFor? v'.nested leaf = y at hderived
    cases hderived with
    | none => exact .refl _
    | @some s s' hs =>
        dsimp only
        rw [hs.shared]
        split
        · exact .refl _
        · exact hs.query.map fun _ _ ht =>
            ((ht.indented v.options.indent v'.options.indent).enclose "(\n" "\n) ").append rfl

theorem joinText (h : v.Concordant v') (c : JoinClause) :
  Render.Concordant (v.joinText c) (v'.joinText c)
  := by
  rw [View.joinText, View.joinText]
  apply (h.table c.table).bind
  intro table table' htable
  have hhead : Alike (joinKeyword c.kind ++ " " ++ table) (joinKeyword c.kind ++ " " ++ table') :=
    .append rfl htable
  split
  · exact .ok hhead
  · exact (Concordant.mapM _ h.value).bind fun _ _ hl => .ok ((hhead.append rfl).append
      ((Alike.append rfl (.joined " AND\n   " hl)).indented v.options.indent v'.options.indent))

theorem fromText (h : v.Concordant v') (t : TableSet) :
  Render.Concordant (v.fromText t) (v'.fromText t)
  := by
  rw [View.fromText, View.fromText]
  apply (h.table t.first).bind
  intro first first' hfirst
  apply (Concordant.mapM _ h.joinText).bind
  intro joins joins' hjoins
  refine .ok (.joined "\n" (.cons hfirst ?_))
  rw [forall₂_map_left_iff, forall₂_map_right_iff]
  exact hjoins.imp fun _ _ hst => hst.indented _ _

theorem predicates (h : v.Concordant v') (ids : List NodeId) :
  ConcordantList (v.predicates ids) (v'.predicates ids)
  := Concordant.mapM ids h.predicate

/-- A clause that is left out when it has no parts. -/
theorem clause {α : Type} {l : List α} {x y : Except CompileError (List String)}
    (before sep : String) [DecidableEq (List α)] (h : ConcordantList x y) :
  ConcordantList (if l = [] then return [] else do return [before ++ joinWith sep (← x)])
    (if l = [] then return [] else do return [before ++ joinWith sep (← y)])
  := by
  split
  · exact .ok .nil
  · exact h.bind fun _ _ hl => .ok (.cons (.append rfl (.joined sep hl)) .nil)

theorem fromClause (h : v.Concordant v') :
  ConcordantList v.fromClause v'.fromClause
  := by
  rw [View.fromClause, View.fromClause, h.clauses]
  split
  · exact .ok .nil
  · exact (h.fromText _).bind fun _ _ ht => .ok (.cons (.append rfl ht) .nil)

theorem orderKey (h : v.Concordant v') (k : SortKey) :
  Render.Concordant (v.orderKey k) (v'.orderKey k)
  := (h.value k.expr).map fun _ _ ht => ht.append rfl

/-- The text of a block is laid out clause by clause. -/
theorem text (h : v.Concordant v') :
  Render.Concordant v.text v'.text
  := by
  have hgroup : v.groupClause = v'.groupClause := by rw [groupClause, groupClause, h.clauses]
  have hlimit : v.limitClause = v'.limitClause := by rw [limitClause, limitClause, h.clauses]
  have hwhere : ConcordantList v.whereClause v'.whereClause := by
    rw [View.whereClause, View.whereClause, h.clauses]
    exact clause "WHERE " " AND\n      " (h.predicates _)
  have hhaving : ConcordantList v.havingClause v'.havingClause := by
    rw [View.havingClause, View.havingClause, h.clauses]
    exact clause "HAVING " " AND\n       " (h.predicates _)
  have horder : ConcordantList v.orderClause v'.orderClause := by
    rw [View.orderClause, View.orderClause, h.clauses]
    exact clause "ORDER BY " ", " (Concordant.mapM _ h.orderKey)
  rw [View.text, View.text, hgroup, hlimit]
  apply h.selectList.bind
  intro list list' hlist
  apply h.fromClause.bind
  intro source source' hsource
  apply hwhere.bind
  intro filter filter' hfilter
  apply hhaving.bind
  intro having having' hhaving
  apply horder.bind
  intro order order' horder
  refine .ok (.joined "\n" (.cons hlist ?_))
  exact rel_append (rel_append (rel_append (rel_append (rel_append hsource hfilter)
    (Alike.refl_list _)) hhaving) horder) (Alike.refl_list _)

end View.Concordant

/-! ### Queries -/

/-- A query has concordant texts under any two options. -/
theorem concordant_query (g : Graph) (options options' : Options) (q : Query) :
  Concordant (query g options q ()) (query g options' q ())
  := by
  induction q using Query.induction with
  | select c nested ih =>
      rw [Query.text_select, Query.text_select]
      exact (View.Concordant.of_nested options options' c ih).text
  | union l r distinct ihl ihr =>
      rw [Query.text_union, Query.text_union]
      exact ihl.bind fun _ _ hl => ihr.map fun _ _ hr =>
        (((hl.append rfl).append rfl).append rfl).append hr

theorem concordant_sharedTable (g : Graph) (options options' : Options) (t : SharedTable) :
  Concordant (sharedTable g options t) (sharedTable g options' t)
  := (concordant_query g options options' t.query).map fun _ _ ht =>
    (Alike.append rfl (ht.indented options.indent options'.indent)).append rfl

end Render

open Render

/-- The options of the layout affect white space only: under any two of them a statement has texts
that are the same without spaces and line breaks, or none for the same reason. -/
theorem Statement.squeezed_sql_eq (s : Statement) (options options' : Render.Options) :
  (s.sql options).map squeezed = (s.sql options').map squeezed
  := by
  rw [← Concordant.iff_map_eq, Statement.sql, Statement.sql]
  apply (concordant_query s.graph options options' s.query).bind
  intro body body' hbody
  split
  · exact .ok hbody
  · exact (Concordant.mapM s.shared (concordant_sharedTable s.graph options options')).bind
      fun _ _ hl => .ok (((Alike.append rfl (.joined ",\n" hl)).append rfl).append hbody)

end RelSql
