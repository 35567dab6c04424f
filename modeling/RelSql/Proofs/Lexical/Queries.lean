import RelSql.Proofs.Lexical.Blocks
import RelSql.Proofs.Statement.Definitions
import RelSql.Proofs.Statement.Selects

/-!
# Texts of queries

A value that is written is written as a phrase, and the text of a query starts with `SELECT`, when
in all of its blocks quotes close where they should and no minus sign stands in front of another
one.
-/

namespace RelSql

open Text Sql

namespace Sql

/-- Whether an ORDER BY or LIMIT clause starts with a token. -/
def Token.isClosing : Token → Bool
  | .keyword .ORDER | .keyword .LIMIT => true
  | _ => false

/-- Tokens of ORDER BY and LIMIT clauses. -/
structure Closing (ts : List Token) : Prop where
  first : ∀ t ∈ ts.head?, t.isClosing
  inner : ∀ t ∈ ts, t.isInner ∨ t.isClosing

theorem Closing.nil :
  Closing []
  := ⟨nofun, nofun⟩

theorem Closing.cons {t : Token} {ts : List Token} (ht : t.isClosing) (h : Inner ts) :
  Closing (t :: ts)
  := ⟨fun _ hu => Option.mem_some.mp hu ▸ ht,
    List.forall_mem_cons.mpr ⟨.inr ht, fun u hu => .inl (h u hu)⟩⟩

theorem Closing.append {t : Token} {ts us : List Token} (ht : Closing (t :: ts)) (hu : Closing us) :
  Closing (t :: ts ++ us)
  := ⟨ht.first, List.forall_mem_append.mpr ⟨ht.inner, hu.inner⟩⟩

end Sql

/-- A nested query stands for a table of the FROM clause or for a membership just when its kind says
so, and never for a duration. -/
structure Nested.Fits {Q : Type} (g : Graph) (s : Nested Q) : Prop where
  relation : s.kind = .table → g.isRelation s.node = true
  membership : s.kind = .membership →
    ∃ arg options negated, g.node s.node = .contains arg options negated
  value : ∀ unit count, g.node s.node ≠ .interval unit count

namespace Render.View

variable {v : View} {shown : NodeId → Result} {below : NodeId → Option Phrase} {id : NodeId}
  {text : String}

/-- Values that have phrases each have a list of them. -/
theorem exists_mapM {f : NodeId → Option Phrase} {ids : List NodeId}
    (h : ∀ id ∈ ids, ∃ p, f id = some p) :
  ∃ ps, ids.mapM f = some ps
  := by
  induction ids with
  | nil => exact ⟨[], rfl⟩
  | cons id ids ih =>
      obtain ⟨⟨p, hp⟩, hids⟩ := List.forall_mem_cons.mp h
      obtain ⟨ps, hps⟩ := ih hids
      exact ⟨p :: ps, by rw [List.mapM_cons, hp, hps]; rfl⟩

theorem exists_branches {whens : List (NodeId × NodeId)}
    (h : ∀ id ∈ whens.flatMap fun w => [w.1, w.2], ∃ p, below id = some p) :
  ∃ branches, (whens.mapM fun w => do return (← below w.1, ← below w.2)) = some branches
  := by
  induction whens with
  | nil => exact ⟨[], rfl⟩
  | cons w whens ih =>
      rw [List.flatMap_cons, List.forall_mem_append] at h
      obtain ⟨hw, hwhens⟩ := h
      obtain ⟨condition, hcondition⟩ := hw w.1 List.mem_cons_self
      obtain ⟨result, hresult⟩ := hw w.2 (List.mem_cons_of_mem _ List.mem_cons_self)
      obtain ⟨branches, hbranches⟩ := ih hwhens
      refine ⟨(condition, result) :: branches, ?_⟩
      rw [List.mapM_cons, hcondition, hresult, hbranches]
      rfl

/-- A value whose parts have phrases has one when it is written. -/
theorem exists_plainPhrase (hg : v.graph.WellFounded)
    (hinterval : ∀ r ∈ v.plainParts id, ∀ unit count, v.graph.node r = .interval unit count →
      below r = none)
    (hparts : ∀ p ∈ v.plainParts id, ∃ q, below p = some q) (h : v.plainStep shown id = .ok text) :
  ∃ p, v.plainPhrase below id = some p
  := by
  cases hn : v.graph.node id
  all_goals simp only [plainStep, hn] at h
  all_goals simp only [plainParts, hn] at hinterval hparts
  all_goals simp only [plainPhrase, hn]
  case literal value => exact ⟨_, rfl⟩
  case column t name =>
      rw [h]
      exact ⟨_, rfl⟩
  case named arg name => exact hparts arg List.mem_cons_self
  case unary op arg =>
      obtain ⟨q, hq⟩ := hparts _ List.mem_cons_self
      cases op <;> exact ⟨_, Option.bind_eq_some_iff.mpr ⟨q, hq, rfl⟩⟩
  case binary op l r =>
      split
      case h_1 unit count hr =>
          rw [hr] at hinterval hparts
          split
          case isTrue hop =>
              rw [if_pos hop] at hparts
              obtain ⟨q, hq⟩ := hparts l List.mem_cons_self
              exact ⟨_, Option.bind_eq_some_iff.mpr ⟨q, hq, rfl⟩⟩
          case isFalse hop =>
              -- a duration is written as the right operand of an addition only
              have hunnamed : v.graph.unaliased r = r := by
                rw [Graph.unaliased_eq hg, hr]
              rw [if_neg hop, hunnamed] at hinterval hparts
              have hmem : r ∈ (if op = .pow then [l, r] else [v.graph.unaliased l, r]) := by
                split <;> simp
              obtain ⟨q, hq⟩ := hparts r hmem
              rw [hinterval r hmem unit count hr] at hq
              cases hq
      case h_2 hother =>
          split at hparts
          case h_1 unit count hr => exact absurd hr (hother unit count)
          case h_2 =>
              split
              case isTrue hop =>
                  rw [if_pos hop] at hparts
                  obtain ⟨p, hp⟩ := hparts l List.mem_cons_self
                  obtain ⟨q, hq⟩ := hparts r (List.mem_cons_of_mem _ List.mem_cons_self)
                  exact ⟨_, Option.bind_eq_some_iff.mpr ⟨p, hp, Option.bind_eq_some_iff.mpr ⟨q, hq, rfl⟩⟩⟩
              case isFalse hop =>
                  rw [if_neg hop] at hparts
                  obtain ⟨p, hp⟩ := hparts _ List.mem_cons_self
                  obtain ⟨q, hq⟩ := hparts _ (List.mem_cons_of_mem _ List.mem_cons_self)
                  exact ⟨_, Option.bind_eq_some_iff.mpr ⟨p, hp, Option.bind_eq_some_iff.mpr ⟨q, hq, rfl⟩⟩⟩
  case call function arguments =>
      obtain ⟨ps, hps⟩ := exists_mapM hparts
      exact ⟨_, Option.bind_eq_some_iff.mpr ⟨ps, hps, rfl⟩⟩
  case cast arg target | extract arg unit | reduction aggregate arg =>
      obtain ⟨q, hq⟩ := hparts arg List.mem_cons_self
      exact ⟨_, Option.bind_eq_some_iff.mpr ⟨q, hq, rfl⟩⟩
  case case base whens default =>
      rw [List.forall_mem_append, List.forall_mem_append] at hparts
      obtain ⟨⟨hwhens, hbase⟩, hdefault⟩ := hparts
      obtain ⟨bases, hbases⟩ := exists_mapM hbase
      obtain ⟨branches, hbranches⟩ := exists_branches hwhens
      obtain ⟨defaults, hdefaults⟩ := exists_mapM hdefault
      exact ⟨_, Option.bind_eq_some_iff.mpr ⟨bases, hbases, Option.bind_eq_some_iff.mpr
        ⟨branches, hbranches, Option.bind_eq_some_iff.mpr ⟨defaults, hdefaults, rfl⟩⟩⟩⟩
  case between arg low high =>
      rw [List.forall_mem_cons, List.forall_mem_cons, List.forall_mem_singleton] at hparts
      obtain ⟨⟨p, hp⟩, ⟨q, hq⟩, r, hr⟩ := hparts
      exact ⟨_, Option.bind_eq_some_iff.mpr ⟨p, hp, Option.bind_eq_some_iff.mpr
        ⟨q, hq, Option.bind_eq_some_iff.mpr ⟨r, hr, rfl⟩⟩⟩⟩
  case contains arg options negated =>
      cases options with
      | list values =>
          obtain ⟨⟨p, hp⟩, hvalues⟩ := List.forall_mem_cons.mp hparts
          obtain ⟨ps, hps⟩ := exists_mapM hvalues
          exact ⟨_, Option.bind_eq_some_iff.mpr ⟨p, hp, Option.bind_eq_some_iff.mpr ⟨ps, hps, rfl⟩⟩⟩
      | column c => cases h
  case countStar t => exact ⟨_, rfl⟩
  all_goals cases h

/-- A value that is written is written as a phrase, if the nested queries in it are read. -/
theorem exists_phrase (hg : v.graph.WellFounded)
    (hnested : ∀ c, v.Holds id c → ∀ s, nestedFor? v.nested c = some s →
      s.Fits v.graph ∧ ∀ text, s.query () = .ok text → ∃ ts, Spells text ts)
    (h : v.value id = .ok text) :
  ∃ p, v.phrase id = some p
  := by
  obtain ⟨i⟩ := id
  induction i using Nat.strongRecOn generalizing text with
  | ind i ih =>
      have hnode : ∀ {c : NodeId} {s : Nested Delayed}, nestedFor? v.nested c = some s → s.node = c :=
        fun hs => by simpa using List.find?_some hs
      have hinterval : ∀ r ∈ v.parts ⟨i⟩, ∀ unit count, v.graph.node r = .interval unit count →
          v.phrase r = none := by
        intro r hmem unit count hr
        rw [phrase, NodeId.recurse_eq_below, phraseStep]
        cases hs : nestedFor? v.nested r with
        | none => simp only [plainPhrase, hr]
        | some s =>
            have hvalue := (hnested r (.part hmem (.refl _)) s hs).1.value unit count
            rw [hnode hs] at hvalue
            exact absurd hr hvalue
      rw [value, NodeId.recurse_eq_below] at h
      have hwritten := standsIn_of_valueStep h
      rw [phrase, NodeId.recurse_eq_below]
      have hpart : ∀ p ∈ v.parts ⟨i⟩,
          ∃ q, (if p.index < i then NodeId.recurse (fun _ => none) v.phraseStep p else none)
            = some q := by
        intro p hp
        obtain ⟨inner, hinner, _⟩ := hwritten p hp
        beta_reduce at hinner
        split at hinner
        case isTrue hlt =>
            obtain ⟨q, hq⟩ := ih p.index hlt (fun c hc => hnested c (.part hp hc)) hinner
            exact ⟨q, by rw [if_pos hlt]; exact hq⟩
        case isFalse => cases hinner
      have hnone : ∀ r ∈ v.parts ⟨i⟩, ∀ unit count, v.graph.node r = .interval unit count →
          (if r.index < i then NodeId.recurse (fun _ => none) v.phraseStep r else none) = none := by
        intro r hmem unit count hr
        split
        · exact hinterval r hmem unit count hr
        · rfl
      rw [valueStep] at h
      rw [parts] at hpart hnone
      rw [phraseStep]
      cases hs : nestedFor? v.nested ⟨i⟩ with
      | none =>
          simp only [hs] at h hpart hnone ⊢
          exact exists_plainPhrase hg hnone hpart h
      | some s =>
          obtain ⟨hfits, hread⟩ := hnested ⟨i⟩ (.refl _) s hs
          have hsame := hnode hs
          simp only [hs] at h hpart ⊢
          obtain ⟨query, hquery, h⟩ := exists_of_bind_eq_ok h
          obtain ⟨ts, hts⟩ := hread query hquery
          have htokens : v.bodyTokens? s = some (padAll (List.replicate v.options.indent ' ') ts) := by
            rw [bodyTokens?, hquery]
            exact tokens?_eq_some.mpr (hts.onLines v.options.indent)
          cases hkind : s.kind
          all_goals simp only [hkind] at h hpart ⊢
          case table =>
              have hrelation := hfits.relation hkind
              rw [hsame, Graph.isRelation] at hrelation
              simp only [plainStep] at h
              cases hn : v.graph.node ⟨i⟩ <;> rw [hn] at hrelation h <;>
                first | exact absurd hrelation Bool.false_ne_true | cases h
          case scalar | «exists» => exact ⟨_, Option.bind_eq_some_iff.mpr ⟨_, htokens, rfl⟩⟩
          case membership =>
              obtain ⟨arg, options, negated, hn⟩ := hfits.membership hkind
              rw [hsame] at hn
              simp only [hn] at hpart ⊢
              obtain ⟨q, hq⟩ := hpart _ List.mem_cons_self
              exact ⟨_, Option.bind_eq_some_iff.mpr
                ⟨_, htokens, Option.bind_eq_some_iff.mpr ⟨q, hq, rfl⟩⟩⟩

/-! ### Blocks -/

/-- The lines of a block behind its first ones: its ORDER BY and LIMIT clauses. -/
theorem closes_lastLines (hg : v.graph.WellFounded) (hv : v.Readable) {lines : List String}
    (h : v.orderClause = .ok lines) :
  ∀ line ∈ lines ++ v.limitClause, ∃ t ts, Spells line (t :: ts) ∧ Closing (t :: ts)
  := by
  rw [List.forall_mem_append]
  constructor
  · rw [orderClause] at h
    split at h
    case isTrue =>
        cases h
        exact List.forall_mem_nil _
    case isFalse =>
        obtain ⟨keys, hkeys, h⟩ := exists_of_bind_eq_ok h
        cases h
        have hkey : ∀ key ∈ keys, Plain key := by
          intro key hkey
          obtain ⟨k, hk, htext⟩ := exists_of_mem_mapM hkeys key hkey
          exact plain_orderKey hg hv hk htext
        obtain ⟨ts, hts, hinner⟩ := Plain.joinWith (show Plain ", " from .of_tokens rfl) rfl rfl hkey
        refine List.forall_mem_singleton.mpr ⟨_, _, Spells.append_of_ends
          (show Spells "ORDER BY " [.keyword .ORDER, .keyword .BY] from rfl) hts rfl, ?_⟩
        exact .cons rfl (List.forall_mem_cons.mpr ⟨rfl, hinner⟩)
  · rw [limitClause]
    split
    · exact List.forall_mem_nil _
    case h_2 l _ =>
        obtain ⟨ts, hts, hinner⟩ := plain_natText l.n
        have hlimit := Spells.append_of_ends
          (show Spells "LIMIT " [.keyword .LIMIT] from rfl) hts rfl
        obtain ⟨us, hus, hinner'⟩ := plain_natText l.offset
        have hwhole := hlimit.parted hus
          (show Spells " OFFSET " [.keyword .OFFSET] from rfl) rfl rfl
        rw [List.forall_mem_singleton]
        by_cases hoffset : l.offset > 0
        · rw [if_pos hoffset, ← String.append_assoc]
          exact ⟨_, _, hwhole, .cons rfl
            ((hinner.append (List.forall_mem_singleton.mpr rfl)).append hinner')⟩
        · rw [if_neg hoffset, String.append_empty]
          exact ⟨_, _, hlimit, .cons rfl hinner⟩

theorem lastLines_eq_nil {lines : List String} (h : v.orderClause = .ok lines) :
  lines ++ v.limitClause = [] ↔ v.clauses.orderBy = [] ∧ v.clauses.limit = none
  := by
  rw [List.append_eq_nil_iff]
  refine and_congr ?_ ?_
  · rw [orderClause] at h
    split at h
    case isTrue hnone =>
        cases h
        exact iff_of_true rfl hnone
    case isFalse hsome =>
        obtain ⟨keys, hkeys, h⟩ := exists_of_bind_eq_ok h
        cases h
        exact iff_of_false (List.cons_ne_nil _ _) hsome
  · rw [limitClause]
    cases v.clauses.limit with
    | none => exact iff_of_true rfl rfl
    | some l => exact iff_of_false (List.cons_ne_nil _ _) (Option.some_ne_none l)

/-- Last clauses on the lines behind a text. -/
theorem exists_closing {lines : List String}
    (h : ∀ line ∈ lines, ∃ t ts, Spells line (t :: ts) ∧ Closing (t :: ts)) {first : String}
    {ts : List Token} (hfirst : Spells first ts) :
  ∃ us, Spells (joinWith "\n" (first :: lines)) (ts ++ us) ∧ Closing us ∧ (us = [] ↔ lines = [])
  := by
  induction lines generalizing first ts with
  | nil => exact ⟨[], by rwa [List.append_nil], .nil, iff_of_true rfl rfl⟩
  | cons line lines ih =>
      obtain ⟨⟨t, us, hline, hclosing⟩, hlines⟩ := List.forall_mem_cons.mp h
      obtain ⟨us', hjoined, hclosing', _⟩ := ih hlines hline
      refine ⟨t :: us ++ us', ?_, hclosing.append hclosing',
        iff_of_false (List.cons_ne_nil _ _) (List.cons_ne_nil _ _)⟩
      have hwhole := hfirst.parted hjoined (show Spells "\n" [] from rfl) rfl rfl
      rwa [List.append_nil] at hwhole

/-- The text of a block starts with `SELECT`, and its ORDER BY and LIMIT clauses stand last. -/
theorem spells_clauses (hg : v.graph.WellFounded) (hv : v.Readable) (h : v.text = .ok text) :
  ∃ ts us, Spells text (.keyword .SELECT :: (ts ++ us)) ∧ Inner ts ∧ Closing us
    ∧ (us = [] ↔ v.clauses.orderBy = [] ∧ v.clauses.limit = none)
  := by
  rw [text_eq] at h
  obtain ⟨core, hcore, h⟩ := exists_of_bind_eq_ok h
  obtain ⟨order, horder, h⟩ := exists_of_bind_eq_ok h
  cases h
  obtain ⟨ts, hts, hinner⟩ := spells_coreText hg hv hcore
  obtain ⟨us, hus, hclosing, hnil⟩ := exists_closing (closes_lastLines hg hv horder) hts
  exact ⟨ts, us, hus, hinner, hclosing, hnil.trans (lastLines_eq_nil horder)⟩

/-- The text of a block starts with `SELECT`. -/
theorem spells_text (hg : v.graph.WellFounded) (hv : v.Readable) (h : v.text = .ok text) :
  ∃ ts, Spells text (.keyword .SELECT :: ts)
  := by
  obtain ⟨ts, us, hspells, _⟩ := spells_clauses hg hv h
  exact ⟨ts ++ us, hspells⟩

end Render.View

open Render

/-- The labels that a block sees are numbered, and each nested query is of the kind of its node. -/
structure Select.Placed (g : Graph) (b : Select) : Prop where
  scope : b.clauses.scope.Proper
  shared : ∀ name ∈ b.clauses.scope.rootFrame.shared, ∃ n, name = AliasScope.aliasText n
  fits : ∀ s ∈ b.nested, s.Fits g

/-- The quotes of all names and strings of a block close where they should, its tables have names
that are read as words, and no minus sign stands in front of another one. -/
structure Select.Legible (g : Graph) (options : Render.Options) (b : Select) : Prop where
  names : ∀ id ∈ b.clauses.select, ∀ arg name, g.node id = .named arg name → Named name
  tables : ∀ leaf ∈ b.clauses.leaves, ∀ name,
    (view g options b).physicalName leaf = .ok name → Plain name
  legible : ∀ id ∈ (view g options b).values, (view g options b).Legible id
  signed : ∀ id ∈ (view g options b).values, ∀ p, (view g options b).phrase id = some p →
    p.All Phrase.SignedAt

variable {g : Graph} {options : Render.Options} {text : String}

/-- A block that is written is read, if its nested queries are. -/
theorem Select.readable (hg : g.WellFounded) {b : Select} (hplaced : b.Placed g)
    (hlegible : b.Legible g options)
    (hnested : ∀ s ∈ b.nested, ∀ text, query g options s.query () = .ok text → ∃ ts, Spells text ts)
    (htext : (view g options b).text = .ok text) :
  (view g options b).Readable
  := by
  have hqueries : ∀ s ∈ (view g options b).nested, ∀ text, s.query () = .ok text →
      ∃ ts, Spells text ts := List.forall_mem_map.mpr hnested
  refine ⟨hplaced.scope, hplaced.shared, hlegible.names, hlegible.tables, hlegible.legible, ?_,
    hqueries⟩
  intro id hid
  obtain ⟨value, hvalue⟩ := View.ok_of_text htext id hid
  have hfits : ∀ s ∈ (view g options b).nested, s.Fits g := List.forall_mem_map.mpr fun s hs =>
    ⟨(hplaced.fits s hs).relation, (hplaced.fits s hs).membership, (hplaced.fits s hs).value⟩
  obtain ⟨p, hp⟩ := View.exists_phrase hg (fun c _ s hs =>
    have hmem := List.mem_of_find?_eq_some hs
    ⟨hfits s hmem, hqueries s hmem⟩) hvalue
  exact ⟨p, hp, hlegible.signed id hid p hp⟩

namespace Query

/-- The word between the branches of a set operation. -/
def unionTokens (distinct : Bool) : List Token :=
  if distinct then [.keyword .UNION] else [.keyword .UNION, .keyword .ALL]

/-- Two branches with the word between them. -/
theorem spells_union {left right : String} {ts us : List Token} (hl : Spells left ts)
    (hr : Spells right us) (distinct : Bool) :
  Spells (left ++ "\n" ++ (if distinct then "UNION" else "UNION ALL") ++ "\n" ++ right)
    (ts ++ unionTokens distinct ++ us)
  := by
  have hsplit : left ++ "\n" ++ (if distinct then "UNION" else "UNION ALL") ++ "\n" ++ right
      = left ++ ("\n" ++ (if distinct then "UNION" else "UNION ALL") ++ "\n") ++ right := by
    simp only [String.append_assoc]
  rw [hsplit]
  cases distinct with
  | true => exact hl.parted hr (show Spells "\nUNION\n" [.keyword .UNION] from rfl) rfl rfl
  | false =>
      exact hl.parted hr (show Spells "\nUNION ALL\n" [.keyword .UNION, .keyword .ALL] from rfl)
        rfl rfl

/-- The text of a query starts with `SELECT`. -/
theorem spells_text (hg : g.WellFounded) {q : Query} (hplaced : q.Everywhere (Select.Placed g))
    (hlegible : q.Everywhere (Select.Legible g options)) (h : query g options q () = .ok text) :
  ∃ ts, Spells text (.keyword .SELECT :: ts)
  := by
  induction q using Query.induction generalizing text with
  | select c nested ih =>
      obtain ⟨hblock, hnested⟩ := everywhere_select.mp hplaced
      obtain ⟨hblock', hnested'⟩ := everywhere_select.mp hlegible
      rw [text_select] at h
      refine View.spells_text hg (Select.readable hg hblock hblock' ?_ h) h
      intro s hs text htext
      obtain ⟨ts, hts⟩ := ih s hs (hnested s hs) (hnested' s hs) htext
      exact ⟨_, hts⟩
  | union l r distinct hl hr =>
      obtain ⟨hleft, hright⟩ := everywhere_union.mp hplaced
      obtain ⟨hleft', hright'⟩ := everywhere_union.mp hlegible
      rw [text_union] at h
      obtain ⟨left, hlefttext, h⟩ := exists_of_bind_eq_ok h
      obtain ⟨right, hrighttext, h⟩ := exists_of_bind_eq_ok h
      cases h
      obtain ⟨ts, hts⟩ := hl hleft hleft' hlefttext
      obtain ⟨us, hus⟩ := hr hright hright' hrighttext
      exact ⟨_, spells_union hts hus distinct⟩

/-- The blocks of a query that is written are read. -/
theorem readable_select (hg : g.WellFounded) {c : Clauses} {nested : List (Nested Query)}
    (hplaced : (Query.select c nested).Everywhere (Select.Placed g))
    (hlegible : (Query.select c nested).Everywhere (Select.Legible g options))
    (h : (view g options ⟨c, nested⟩).text = .ok text) :
  (view g options ⟨c, nested⟩).Readable
  := by
  obtain ⟨hblock, hnested⟩ := everywhere_select.mp hplaced
  obtain ⟨hblock', hnested'⟩ := everywhere_select.mp hlegible
  refine Select.readable hg hblock hblock' ?_ h
  intro s hs text htext
  obtain ⟨ts, hts⟩ := spells_text hg (hnested s hs) (hnested' s hs) htext
  exact ⟨_, hts⟩

end Query

end RelSql

/-! ### Labels and kinds in statements

In every block of a statement the labels of tables are numbered, so are the names of common table
expressions, and each nested query is of the kind of the node that it stands for.
-/

namespace RelSql

namespace AliasScope

/-- The names of common table expressions are numbered. -/
def Numbered (s : AliasScope) : Prop :=
  ∀ name ∈ s.frame.shared, ∃ n, name = aliasText n

/-- The name of a common table expression is the label of a table, or a fresh one. -/
theorem Numbered.nameShared {s : AliasScope} (hs : s.Proper) (h : s.Numbered)
    (occurrence : Option NodeId) :
  (s.nameShared occurrence).2.Numbered
  := by
  rw [AliasScope.nameShared]
  cases hlabel : occurrence.bind s.localAlias? with
  | some label =>
      obtain ⟨table, _, hlocal⟩ := Option.bind_eq_some_iff.mp hlabel
      have hentry : (table, label) ∈ s.entries := by
        apply mem_of_aliasIn?
        rw [aliasIn?, show s.frame.alias? table = some label from hlocal]
      obtain ⟨n, _, htext⟩ := hs.numbered _ hentry
      exact List.forall_mem_append.mpr ⟨h, List.forall_mem_singleton.mpr ⟨n, htext⟩⟩
  | none => exact List.forall_mem_append.mpr ⟨h, List.forall_mem_singleton.mpr ⟨_, rfl⟩⟩

end AliasScope

open AliasScope

/-- The names of common table expressions are numbered in the outermost scope. -/
theorem Query.numbered_rootScope (q : Query) (groups : List SharedGroup) :
  (q.rootScope groups).Numbered
  := by
  have hfront : q.frontScope.Proper ∧ q.frontScope.Numbered := by
    cases q with
    | select c nested =>
        refine ⟨(binds_bindBlock proper_root rfl rfl c).proper, ?_⟩
        rw [Query.frontScope, Numbered, (root.bindBlock_keeps c).2]
        exact List.forall_mem_nil _
    | union l r distinct => exact ⟨proper_root, List.forall_mem_nil _⟩
  exact (nameGroups_induction (P := fun s => s.Proper ∧ s.Numbered)
    (fun s o h => ⟨h.1.nameShared o, h.2.nameShared h.1 o⟩) _ _ hfront).2

namespace Select

/-- The nested queries of a block are there, and of the kinds of their nodes. -/
def Fitted (g : Graph) (b : Select) : Prop :=
  ∀ s ∈ b.nested, g.Has s.node ∧ s.Fits g

theorem fitted_persistent :
  Graph.Persistent Fitted
  := by
  intro g g' b _ _ e h s hs
  obtain ⟨hhas, hfits⟩ := h s hs
  refine ⟨hhas.mono e, ?_, ?_, ?_⟩
  · rw [e.isRelation_eq hhas]
    exact hfits.relation
  · rw [e.node_eq hhas]
    exact hfits.membership
  · rw [e.node_eq hhas]
    exact hfits.value

theorem fitted_unbound (g : Graph) (b : Select) :
  Fitted g b.unbound ↔ Fitted g b
  := by
  rw [Fitted, unbound, List.forall_mem_map]
  exact forall₂_congr fun s _ => and_congr Iff.rfl
    ⟨fun h => ⟨h.relation, h.membership, h.value⟩, fun h => ⟨h.relation, h.membership, h.value⟩⟩

/-- A nested query is of the kind of the node that it has been compiled for. -/
theorem fits_of_compiled {Q : QuerySpec} {g : Graph} (hg : g.WellFounded) {s : Nested Query}
    (h : s.Compiled Q g) :
  s.Fits g
  := by
  obtain ⟨table, _, hsource, _⟩ := h.source
  cases s with
  | mk node kind shared query =>
      dsimp only at hsource
      cases hsource with
      | table hr _ =>
          refine ⟨fun _ => hr, by rintro ⟨⟩, fun unit count hn => ?_⟩
          rw [Graph.isRelation, hn] at hr
          cases hr
      | membership hn =>
          refine ⟨by rintro ⟨⟩, fun _ => ⟨_, _, _, hn⟩, fun unit count hn' => ?_⟩
          cases hn.symm.trans hn'
      | «exists» hn =>
          refine ⟨by rintro ⟨⟩, by rintro ⟨⟩, fun unit count hn' => ?_⟩
          cases hn.symm.trans hn'
      | scalar _ hbase =>
          refine ⟨by rintro ⟨⟩, by rintro ⟨⟩, fun unit count hn => ?_⟩
          rw [Graph.denote_eq hg, Graph.denoteStep, hn] at hbase
          cases hbase

theorem hereditary_fitted :
  (QuerySpec.ofSelects Fitted).Hereditary
  := by
  refine QuerySpec.hereditary_ofSelects fitted_persistent (fun _ _ h => h) ?_
  intro g node b hg _ hb s hs
  obtain ⟨_, _, _, _, hcompleted⟩ := hb
  have hcompiled := hcompleted.nested s hs
  exact ⟨hcompiled.has, fits_of_compiled hg hcompiled⟩

end Select

/-- In every block of a statement labels are numbered, and nested queries are of the kinds of
their nodes. -/
theorem Graph.analyze_placed {g : Graph} (hg : g.WellFounded) {root : NodeId} (hroot : g.Has root)
    {st : Statement} (h : g.analyze root = .ok st) :
  ∀ outer b, st.Holds outer b → b.Placed st.graph
  := by
  obtain ⟨_, _, q, _, hbind⟩ := analyze_spec QuerySpec.hereditary_unshared hg hroot h
  have hroots := (q.shareTables st.graph).1.roots (q.shareTables st.graph).2
  have hfitted := Graph.analyze_selects Select.hereditary_fitted
    (fun _ _ _ _ _ s hs => absurd hs List.not_mem_nil) Select.fitted_unbound hg hroot h
  intro outer b hb
  refine ⟨(analyze_scopes hg hroot h hb).1.proper, ?_, fun s hs => (hfitted outer b hb s hs).2⟩
  rw [(hroots.mem_marks hbind hb).1]
  exact Query.numbered_rootScope _ _

/-! ### Legible graphs -/

open Sql Render

/-- Quotes close where they should in the names and strings of a node, a table has a name that is
read as words, and no sign is changed. -/
def Node.isLegible : Node → Bool
  | .column _ name | .named _ name => decide (Named name)
  | .literal (.string s) => decide (Enclosed s)
  | .unary .negate _ => false
  | .table t => t.name.all fun name =>
    (tokens? (tableName t.database name false)).any fun ts => ts.all Token.isInner
  | _ => true

namespace Graph

/-- All nodes of a graph are legible. -/
def isLegible (g : Graph) : Bool :=
  g.nodes.toList.all Node.isLegible

variable {g : Graph}

/-- What holds of all nodes of a graph, and of the constant `null`, holds of the node of a handle. -/
theorem node_of_all {P : Node → Bool} (hnull : P (.literal .null)) (h : g.nodes.toList.all P)
    (id : NodeId) :
  P (g.node id)
  := by
  rw [Graph.node, Graph.node?]
  cases hn : g.nodes[id.index]? with
  | none => exact hnull
  | some n =>
      refine List.all_eq_true.mp h n ?_
      rw [Array.mem_toList_iff]
      exact Array.mem_of_getElem? hn

theorem isLegible_node (h : g.isLegible) (id : NodeId) :
  (g.node id).isLegible
  := node_of_all rfl h id

/-- The blocks over a legible graph are legible. -/
theorem legible_of_isLegible (h : g.isLegible) (options : Render.Options) (b : Select) :
  b.Legible g options
  := by
  have hname : ∀ id arg name, g.node id = .named arg name → Named name := by
    intro id arg name hn
    have hnode := isLegible_node h id
    rw [hn] at hnode
    exact of_decide_eq_true hnode
  refine ⟨fun id _ arg name => hname id arg name, ?_, fun id _ => ⟨?_, ?_⟩, ?_⟩
  · intro leaf _ name hphysical
    simp only [View.physicalName, view] at hphysical
    split at hphysical
    case h_1 t ht =>
        have hnode : (Node.table t).isLegible := ht ▸ isLegible_node h _
        simp only [Node.isLegible] at hnode
        split at hphysical
        case h_1 table htable =>
            cases hphysical
            rw [htable] at hnode
            exact .of_tokens hnode
        case h_2 => cases hphysical
    case h_2 => cases hphysical
  · intro c t name _ hn
    have hnode := isLegible_node h c
    rw [show g.node c = _ from hn] at hnode
    exact of_decide_eq_true hnode
  · intro c s _ hn
    have hnode := isLegible_node h c
    rw [show g.node c = _ from hn] at hnode
    exact of_decide_eq_true hnode
  · intro id _ p hp
    refine View.phrase_all (fun _ => Phrase.of_signed (fun _ => trivial) (fun _ => trivial) _) ?_ hp
    intro below c q _ hnamed hq
    cases hq with
    | plain hnested hq =>
        cases hq
        case negate arg _ hn _ =>
            have hnode := isLegible_node h c
            rw [show g.node c = _ from hn] at hnode
            cases hnode
        case named hn _ => exact absurd hn (hnamed hnested _ _)
        case literal value _ =>
            exact View.of_literalPhrase (fun _ => trivial) (fun _ => trivial) (fun _ => trivial) value
        all_goals trivial
    | scalar _ _ _ | existence _ _ _ | memberOf _ _ _ _ _ => trivial

end Graph

end RelSql
