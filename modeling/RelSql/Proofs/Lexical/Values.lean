import RelSql.Proofs.Lexical.Phrasing
import RelSql.Proofs.Lexical.Words

/-!
# Texts of values

The text of a value spells the phrase that the value is written as.  Two things are needed for
that: every word of the phrase is read as one word, so that quotes close where they should, and
no minus sign stands in front of another one.
-/

namespace RelSql

open Text Sql Number

/-- A value without its names has no name. -/
theorem Graph.WellFounded.unaliased_unnamed {g : Graph} (hg : g.WellFounded) (id : NodeId) :
  ∀ arg name, g.node (g.unaliased id) ≠ .named arg name
  := by
  obtain ⟨i⟩ := id
  induction i using Nat.strongRecOn with
  | ind i ih =>
      rw [Graph.unaliased_eq hg]
      split
      case h_1 arg _ hn =>
          have harg : arg ∈ (g.node ⟨i⟩).children := by
            rw [hn]
            exact List.mem_singleton_self arg
          exact ih arg.index (hg.child_lt harg)
      case h_2 hother => exact hother

namespace Sql.Phrase

/-- The words of a phrase are read as such. -/
def WordedAt : Phrase → Prop
  | .atom cs => IsAtom cs
  | .negative cs => IsNumeral cs
  | .special name => Spells (String.ofList name) [.word name]
  | _ => True

/-- No minus sign stands in front of another one. -/
def SignedAt : Phrase → Prop
  | .negate p => leads (p.enclose p.tokens) = false
  | _ => True

/-- What a phrase needs to be read, beside its parts. -/
structure ReadableAt (p : Phrase) : Prop where
  worded : p.WordedAt
  signed : p.SignedAt

/-- A phrase whose text is read as its tokens. -/
def Readable : Phrase → Prop :=
  All ReadableAt

end Sql.Phrase

namespace Render

/-! ### Constants -/

theorem spells_signed {text : String} (h : (Phrase.signed text.toList).Readable) :
  Spells text (Phrase.signed text.toList).laidOut.tokens
  := by
  rcases Phrase.signed_cases text.toList with ⟨cs, htext, hsigned⟩ | ⟨_, hsigned⟩
  · rw [hsigned] at h ⊢
    have hcs : IsNumeral cs := (Phrase.All.here h).worded
    obtain ⟨c, hfirst, hdigit⟩ := hcs.digit
    have hsplit : text = "-" ++ String.ofList cs := by
      rw [← String.toList_inj, htext, String.toList_append, String.toList_ofList (l := cs)]
      rfl
    have hword : IsWord (String.ofList cs).toList := by
      rw [String.toList_ofList]
      exact hcs.word
    have hminus : (String.ofList cs).toList.head? ≠ some '-' := by
      rw [String.toList_ofList, hfirst]
      rintro ⟨rfl⟩
      cases hdigit
    have hspells := hword.spells.negative hminus
    rw [← hsplit, String.toList_ofList] at hspells
    simp only [Phrase.laidOut, Phrase.rebuild, Phrase.layChoice, Phrase.tokens]
    exact hspells
  · rw [hsigned] at h ⊢
    simp only [Phrase.laidOut, Phrase.rebuild, Phrase.layChoice, Phrase.tokens]
    exact IsWord.spells (Phrase.All.here h).worded.word

theorem spells_special {name text : String} (h : (Phrase.special name.toList).Readable)
    (htext : text = "CAST(" ++ name ++ " AS " ++ "double" ++ ")") :
  Spells text (Phrase.special name.toList).laidOut.tokens
  := by
  have hname : Spells (String.ofList name.toList) [.word name.toList] := (Phrase.All.here h).worded
  rw [String.ofList_toList] at hname
  simp only [Phrase.laidOut, Phrase.rebuild, Phrase.layChoice, Phrase.tokens]
  rw [htext]
  exact Spells.call_parted (show Spells "CAST" [.keyword .CAST] from rfl) hname
    (show Spells "double" [.word "double".toList] from rfl)
    (show Spells " AS " [.keyword .AS] from rfl) rfl rfl rfl

theorem spells_literal {value : Value} (h : (literalPhrase value).Readable) :
  Spells (literal value) (literalPhrase value).laidOut.tokens
  := by
  cases value with
  | float x =>
      simp only [literalPhrase, literal, literalIn, doubleLiteral] at h ⊢
      split at h
      case isTrue hnan =>
          rw [if_pos hnan, if_pos hnan]
          exact spells_special h rfl
      case isFalse hnan =>
          rw [if_neg hnan, if_neg hnan]
          split at h
          case isTrue hinfinite =>
              rw [if_pos hinfinite, if_pos hinfinite]
              cases hsign : x.negative with
              | false =>
                  rw [hsign] at h
                  exact spells_special h rfl
              | true =>
                  rw [hsign] at h
                  exact spells_special h rfl
          case isFalse hinfinite =>
              rw [if_neg hinfinite, if_neg hinfinite]
              exact spells_signed h
  | _ => exact spells_signed h

/-! ### Operands -/

variable {v : View} {shown : NodeId → Result} {below : NodeId → Option Phrase}

/-- The texts and the phrases of smaller values agree. -/
structure Phrased (v : View) (shown : NodeId → Result) (below : NodeId → Option Phrase) : Prop where
  spelled : ∀ {c : NodeId} {p : Phrase} {text : String}, below c = some p → shown c = .ok text →
    p.Readable → Spells text p.laidOut.tokens
  grouped : ∀ {c : NodeId} {p : Phrase}, below c = some p →
    (∀ arg name, v.graph.node c ≠ .named arg name) →
    p.isInfix = ((nestedFor? v.nested c).isNone && isInfix v.graph c)

/-! ### Cases -/

theorem separated_nil (parts : List (List Token)) :
  separated [] parts = parts.flatten
  := by
  fun_induction separated [] parts with
  | case1 => rfl
  | case2 ts => rw [List.flatten_cons, List.flatten_nil, List.append_nil]
  | case3 ts rest _ ih => rw [ih, List.append_nil, List.flatten_cons]

theorem spells_caseText {base default : Option String} {whens : List String}
    {bases results branches : List (List Token)} (hbase : List.Forall₂ Spells base.toList bases)
    (hwhens : List.Forall₂ Spells whens branches)
    (hdefault : List.Forall₂ Spells default.toList results) :
  Spells (caseText base whens default)
    ([.keyword .CASE] ++ (bases.flatten
      ++ if whens.length > 1 then
          padAll Phrase.branchPad (branches.flatten ++ results.flatMap (.keyword .ELSE :: ·))
        else branches.flatten ++ results.flatMap (.keyword .ELSE :: ·)) ++ [.keyword .END])
  := by
  have hotherwise : List.Forall₂ Spells (default.toList.map ("ELSE " ++ ·))
      (results.map (.keyword .ELSE :: ·)) := by
    rw [List.forall₂_map_left_iff, List.forall₂_map_right_iff]
    exact hdefault.imp fun _ _ h =>
      Spells.append_of_ends (show Spells "ELSE " [.keyword .ELSE] from rfl) h rfl
  have hlines := List.rel_append hwhens hotherwise
  have hcase : Spells "CASE" [.keyword .CASE] := rfl
  have hend : ∀ {s : String} {ts : List Token}, Spells s ts →
      Spells (s ++ "\nEND") (ts ++ [.keyword .END]) := fun h => h.append_of_starts rfl rfl
  rw [caseText]
  split
  · have hhead := Spells.joinWith (show Spells " " [] from rfl) rfl rfl (List.Forall₂.cons hcase hbase)
    have hbody : Spells (indent 2 (joinWith "\n" (whens ++ default.toList.map ("ELSE " ++ ·))))
        (padAll Phrase.branchPad _) :=
      (Spells.joinWith (show Spells "\n" [] from rfl) rfl rfl hlines).indent 2
    have hwhole := hend (hhead.parted hbody (show Spells "\n" [] from rfl) rfl rfl)
    rw [separated_nil, separated_nil, List.flatten_append, ← List.flatMap_def] at hwhole
    simpa only [List.append_nil, List.flatten_cons, List.append_assoc] using hwhole
  · have hbody := Spells.joinWith (show Spells " " [] from rfl) rfl rfl (List.rel_append hbase hlines)
    rw [separated_nil, List.flatten_append, List.flatten_append, ← List.flatMap_def] at hbody
    rw [List.append_assoc base.toList]
    exact (Spells.append_of_ends (show Spells "CASE " [.keyword .CASE] from rfl) hbody rfl).append_of_starts
      (show Spells " END" [.keyword .END] from rfl) rfl

/-- A text that may not be there, among texts. -/
theorem mapM_of_onOption {f : NodeId → Result} {id? : Option NodeId} {text? : Option String}
    (h : View.onOption f id? = .ok text?) :
  id?.toList.mapM f = .ok text?.toList
  := by
  cases id? with
  | none =>
      cases h
      rfl
  | some id =>
      obtain ⟨text, htext, h⟩ := exists_of_bind_eq_ok h
      cases h
      rw [Option.toList_some, List.mapM_cons, htext]
      rfl

/-- Two texts after a name, between parentheses. -/
theorem ofList_decimal (ds es : List Char) :
  String.ofList ("decimal(".toList ++ ds ++ ',' :: es ++ [')'])
    = "decimal(" ++ String.ofList ds ++ "," ++ String.ofList es ++ ")"
  := by
  have hcomma : ",".toList = [','] := by decide
  have hclose : ")".toList = [')'] := by decide
  apply String.toList_injective
  simp only [String.toList_append, String.toList_ofList, hcomma, hclose, List.append_assoc,
    List.cons_append, List.nil_append]

theorem spells_type (t : DataType) :
  Spells t.sqlName (typeTokens t)
  := by
  cases t with
  | decimal precision scale =>
      have hdigits : ∀ n : Nat, Spells (String.ofList (digits n)) [.ofWord (digits n)] := by
        intro n
        have hword := (isNumeral_digits n).word
        rw [← String.toList_ofList (l := digits n)] at hword
        have hspells := hword.spells
        rwa [String.toList_ofList] at hspells
      rw [show DataType.sqlName (.decimal precision scale) = _ from
        ofList_decimal (digits precision.toNat) (digits scale.toNat)]
      exact Spells.call_parted (show Spells "decimal" [.word "decimal".toList] from rfl) (hdigits _)
        (hdigits _) (show Spells "," [.comma] from rfl) rfl rfl rfl
  | _ => rfl

/-- The text of a nested query, with the parentheses around it. -/
theorem spells_body {s : Nested Delayed} {body : List Token} {query : String}
    (hbody : v.bodyTokens? s = some body) (hquery : s.query () = .ok query) :
  Spells ("\n" ++ indent v.options.indent query ++ "\n") body
  := by
  rw [View.bodyTokens?, hquery] at hbody
  exact tokens?_eq_some.mp hbody

theorem spells_aggregate {a : Aggregate} {inner : String} {ts : List Token} (hinner : Spells inner ts) :
  Spells (aggregateOpening a ++ inner ++ ")") (aggregateTokens a ts)
  := by
  have hcall : ∀ name opening : String, Spells name [.word name.toList] → opening = name ++ "(" →
      Spells (opening ++ inner ++ ")") [.word name.toList, .group ts] :=
    fun _ _ hname hopening => hname.call hinner hopening
  cases a with
  | sum => exact hcall "sum" "sum(" rfl rfl
  | mean => exact hcall "avg" "avg(" rfl rfl
  | min => exact hcall "min" "min(" rfl rfl
  | max => exact hcall "max" "max(" rfl rfl
  | count => exact hcall "count" "count(" rfl rfl
  | countDistinct =>
      have hinside : Spells ("DISTINCT " ++ inner) (.word "DISTINCT".toList :: ts) :=
        Spells.append_of_ends (show Spells "DISTINCT " [.word "DISTINCT".toList] from rfl) hinner rfl
      have hsplit : aggregateOpening .countDistinct ++ inner ++ ")"
          = "COUNT(" ++ ("DISTINCT " ++ inner) ++ ")" := by
        rw [show aggregateOpening .countDistinct = "COUNT(" ++ "DISTINCT " from rfl]
        simp only [String.append_assoc]
      rw [hsplit]
      exact Spells.call (show Spells "COUNT" [.word "COUNT".toList] from rfl) hinside rfl

namespace Phrased

theorem operand (h : Phrased v shown below) (hg : v.graph.WellFounded) {id : NodeId} {p : Phrase}
    {text : String} (hp : below (v.graph.unaliased id) = some p)
    (htext : v.operandStep shown id = .ok text) (hreadable : p.Readable) :
  Spells text (p.laidOut.enclose p.laidOut.tokens)
  := by
  rw [View.operandStep] at htext
  obtain ⟨inner, hinner, htext⟩ := exists_of_bind_eq_ok htext
  have hspells := h.spelled hp hinner hreadable
  have hgrouped := h.grouped hp (hg.unaliased_unnamed id)
  rw [Phrase.enclose, Phrase.isInfix_laidOut, hgrouped]
  cases hnested : nestedFor? v.nested (v.graph.unaliased id) with
  | some s =>
      simp only [hnested, Option.isSome_some, if_true] at htext
      cases htext
      exact hspells
  | none =>
      simp only [hnested, Option.isSome_none, Bool.false_eq_true, if_false] at htext
      cases hoperator : isInfix v.graph (v.graph.unaliased id) with
      | true =>
          rw [hoperator] at htext
          cases htext
          exact hspells.group
      | false =>
          rw [hoperator] at htext
          cases htext
          exact hspells

section

variable (h : Phrased v shown below) {id : NodeId} {p : Phrase} {text : String}

include h

theorem spells_list {ids : List NodeId} :
    ∀ {ps : List Phrase} {texts : List String}, ids.mapM below = some ps →
      ids.mapM shown = .ok texts → (∀ p ∈ ps, p.Readable) →
      List.Forall₂ Spells texts (ps.map fun p => p.laidOut.tokens) := by
  induction ids with
  | nil =>
      intro ps texts hps htexts _
      cases hps
      cases htexts
      exact .nil
  | cons id ids ih =>
      intro ps texts hps htexts hreadable
      rw [List.mapM_cons] at hps htexts
      obtain ⟨p, hp, hps⟩ := Option.bind_eq_some_iff.mp hps
      obtain ⟨ps', hps', hcons⟩ := Option.bind_eq_some_iff.mp hps
      cases hcons
      obtain ⟨text, htext, htexts⟩ := exists_of_bind_eq_ok htexts
      obtain ⟨texts', htexts', hcons⟩ := exists_of_bind_eq_ok htexts
      cases hcons
      exact .cons (h.spelled hp htext (hreadable p List.mem_cons_self))
        (ih hps' htexts' fun q hq => hreadable q (List.mem_cons_of_mem p hq))

/-- The branches of a case. -/
theorem spells_branches {whens : List (NodeId × NodeId)} :
    ∀ {branches : List (Phrase × Phrase)} {texts : List String},
      (whens.mapM fun w => do return (← below w.1, ← below w.2)) = some branches →
      (whens.mapM fun w => do
        return "WHEN " ++ (← shown w.1) ++ " THEN " ++ (← shown w.2)) = Except.ok texts →
      (∀ b ∈ branches, b.1.Readable ∧ b.2.Readable) →
      List.Forall₂ Spells texts (branches.map fun b =>
        Arm.condition.tokens ++ b.1.laidOut.tokens ++ (Arm.result.tokens ++ b.2.laidOut.tokens)) := by
  induction whens with
  | nil =>
      intro branches texts hbranches htexts _
      cases hbranches
      cases htexts
      exact .nil
  | cons w whens ih =>
      intro branches texts hbranches htexts hreadable
      rw [List.mapM_cons] at hbranches htexts
      obtain ⟨b, hb, hbranches⟩ := Option.bind_eq_some_iff.mp hbranches
      obtain ⟨rest, hrest, hcons⟩ := Option.bind_eq_some_iff.mp hbranches
      cases hcons
      obtain ⟨condition, hcondition, hb⟩ := Option.bind_eq_some_iff.mp hb
      obtain ⟨result, hresult, hb⟩ := Option.bind_eq_some_iff.mp hb
      cases hb
      obtain ⟨text, htext, htexts⟩ := exists_of_bind_eq_ok htexts
      obtain ⟨restTexts, hrestTexts, hcons⟩ := exists_of_bind_eq_ok htexts
      cases hcons
      obtain ⟨conditionText, hconditionText, htext⟩ := exists_of_bind_eq_ok htext
      obtain ⟨resultText, hresultText, htext⟩ := exists_of_bind_eq_ok htext
      cases htext
      have hreads := hreadable _ List.mem_cons_self
      have hc := h.spelled hcondition hconditionText hreads.1
      have hr := h.spelled hresult hresultText hreads.2
      have hwhen := Spells.append_of_ends (show Spells "WHEN " Arm.condition.tokens from rfl) hc rfl
      refine .cons ?_ (ih hrest hrestTexts fun b hb => hreadable b (List.mem_cons_of_mem _ hb))
      have hwhole := hwhen.parted hr (show Spells " THEN " Arm.result.tokens from rfl) rfl rfl
      simpa only [List.append_assoc] using hwhole

theorem spells_choice {base default : Option NodeId} {whens : List (NodeId × NodeId)}
    {bases defaults : List Phrase} {branches : List (Phrase × Phrase)}
    (hn : v.graph.node id = .case base whens default) (hbases : base.toList.mapM below = some bases)
    (hbranches : (whens.mapM fun w => do return (← below w.1, ← below w.2)) = some branches)
    (hdefaults : default.toList.mapM below = some defaults)
    (htext : v.plainStep shown id = .ok text)
    (hreadable : ∀ a ∈ bases.map (Prod.mk Arm.base)
      ++ (branches.flatMap fun b => [(Arm.condition, b.1), (Arm.result, b.2)])
      ++ defaults.map (Prod.mk Arm.default), Phrase.Readable a.2) :
  Spells text (Phrase.choice (bases.map (Prod.mk .base)
    ++ (branches.flatMap fun b => [(.condition, b.1), (.result, b.2)])
    ++ defaults.map (Prod.mk .default))).laidOut.tokens
  := by
  simp only [View.plainStep, hn] at htext
  obtain ⟨lines, hlines, htext⟩ := exists_of_bind_eq_ok htext
  obtain ⟨baseText, hbaseText, htext⟩ := exists_of_bind_eq_ok htext
  obtain ⟨defaultText, hdefaultText, htext⟩ := exists_of_bind_eq_ok htext
  cases htext
  have hbase := h.spells_list hbases (mapM_of_onOption hbaseText) fun q hq =>
    hreadable (.base, q) (List.mem_append_left _ (List.mem_append_left _ (List.mem_map_of_mem hq)))
  have hdefault := h.spells_list hdefaults (mapM_of_onOption hdefaultText) fun q hq =>
    hreadable (.default, q) (List.mem_append_right _ (List.mem_map_of_mem hq))
  have hbranch := h.spells_branches hbranches hlines fun b hb =>
    have hmem : ∀ a ∈ [(Arm.condition, b.1), (Arm.result, b.2)], Phrase.Readable a.2 := fun a ha =>
      hreadable a
        (List.mem_append_left _ (List.mem_append_right _ (List.mem_flatMap.mpr ⟨b, hb, ha⟩)))
    ⟨hmem _ List.mem_cons_self, hmem _ (List.mem_cons_of_mem _ List.mem_cons_self)⟩
  have hspells := spells_caseText hbase hbranch hdefault
  rw [hbranch.length_eq, List.length_map] at hspells
  rw [Phrase.tokens_laidOut_choice]
  exact hspells

/-- A name in front of the texts of values. -/
theorem spells_arguments {name : String} (hname : Spells name [.word name.toList])
    {ids : List NodeId} {ps : List Phrase} (hps : ids.mapM below = some ps) {texts : List String}
    (htexts : ids.mapM shown = .ok texts) (hreadable : ∀ p ∈ ps, p.Readable) :
  Spells (name ++ "(" ++ joinWith ", " texts ++ ")")
    [.word name.toList, .group (separated [.comma] (ps.map fun p => p.laidOut.tokens))]
  := hname.call (Spells.joinWith (show Spells ", " [.comma] from rfl) rfl rfl
    (h.spells_list hps htexts hreadable)) rfl

/-- A number of units that is added to a date. -/
theorem spells_shift {op : BinaryOp} {l r : NodeId} {unit : TimeUnit} {count : Int} {q : Phrase}
    (hn : v.graph.node id = .binary op l r) (hr : v.graph.node r = .interval unit count)
    (hop : op = .add ∨ op = .sub) (hq : below l = some q) (htext : v.plainStep shown id = .ok text)
    (hreadable : (Phrase.call (.shift unit (op = .sub))
      [q, .signed (Value.integerText count).toList]).Readable) :
  Spells text (Phrase.call (.shift unit (op = .sub))
    [q, .signed (Value.integerText count).toList]).laidOut.tokens
  := by
  simp only [View.plainStep, hn, hr, if_pos hop] at htext
  obtain ⟨inner, hinner, htext⟩ := exists_of_bind_eq_ok htext
  cases htext
  have hname : Spells (intervalFunction unit op)
      [.word (Head.shift unit (op = .sub)).name.toList] := by
    rcases hop with rfl | rfl <;> cases unit <;> rfl
  have hdate := h.spelled hq hinner (hreadable.part List.mem_cons_self)
  have hcount := spells_signed (hreadable.part (List.mem_cons_of_mem q List.mem_cons_self))
  simp only [Phrase.laidOut, Phrase.rebuild, Phrase.layChoice, Phrase.tokens, List.map_map]
  exact hname.call_parted hdate hcount (show Spells ", " [.comma] from rfl) rfl rfl rfl

/-- A power is written as a call. -/
theorem spells_power {l r : NodeId} {q q' : Phrase} (hn : v.graph.node id = .binary .pow l r)
    (hr : ∀ unit count, v.graph.node r ≠ .interval unit count) (hq : below l = some q)
    (hq' : below r = some q') (htext : v.plainStep shown id = .ok text)
    (hreadable : (Phrase.call .power [q, q']).Readable) :
  Spells text (Phrase.call .power [q, q']).laidOut.tokens
  := by
  have htext : (do return "pow(" ++ (← shown l) ++ ", " ++ (← shown r) ++ ")")
      = Except.ok text := by
    simp only [View.plainStep, hn] at htext
    generalize v.graph.node r = n at hr htext
    cases n with
    | interval unit count => exact absurd rfl (hr unit count)
    | _ => exact htext
  obtain ⟨leftText, hleft, htext⟩ := exists_of_bind_eq_ok htext
  obtain ⟨rightText, hright, htext⟩ := exists_of_bind_eq_ok htext
  cases htext
  have hbase := h.spelled hq hleft (hreadable.part List.mem_cons_self)
  have hexponent := h.spelled hq' hright
    (hreadable.part (List.mem_cons_of_mem q List.mem_cons_self))
  simp only [Phrase.laidOut, Phrase.rebuild, Phrase.layChoice, Phrase.tokens, List.map_map]
  exact Spells.call_parted (show Spells "pow" [.word "pow".toList] from rfl) hbase hexponent
    (show Spells ", " [.comma] from rfl) rfl rfl rfl

/-- A part of a date is written as a call with the quoted name of its unit. -/
theorem spells_extract {arg : NodeId} {unit : TimeUnit} {q : Phrase}
    (hn : v.graph.node id = .extract arg unit) (hq : below arg = some q)
    (htext : v.plainStep shown id = .ok text) (hreadable : (Phrase.extract q unit).Readable) :
  Spells text (Phrase.extract q unit).laidOut.tokens
  := by
  simp only [View.plainStep, hn] at htext
  obtain ⟨inner, hinner, htext⟩ := exists_of_bind_eq_ok htext
  cases htext
  have hdate := h.spelled hq hinner (hreadable.part List.mem_cons_self)
  have hunit : Spells (plainLiteral unit.name) [.word (plainLiteral unit.name).toList] := by
    cases unit <;> rfl
  have hsplit : "extract(" ++ inner ++ ", '" ++ unit.name ++ "')"
      = "extract(" ++ inner ++ ", " ++ plainLiteral unit.name ++ ")" := by
    simp only [plainLiteral, String.append_assoc]
    rfl
  rw [hsplit]
  simp only [Phrase.laidOut, Phrase.rebuild, Phrase.layChoice, Phrase.tokens]
  exact Spells.call_parted (show Spells "extract" [.word "extract".toList] from rfl) hdate hunit
    (show Spells ", " [.comma] from rfl) rfl rfl rfl

variable (hg : v.graph.WellFounded)

include hg

/-- The test of an operand for membership in what stands between parentheses. -/
theorem spells_membership {arg : NodeId} {q : Phrase} {inner body : String} {negated : Bool}
    {ts : List Token} (hq : below (v.graph.unaliased arg) = some q)
    (hinner : v.operandStep shown arg = .ok inner) (hreadable : q.Readable) (hbody : Spells body ts) :
  Spells (inner ++ membershipKeyword negated ++ ("(" ++ body ++ ")"))
    (q.laidOut.enclose q.laidOut.tokens ++ membershipTokens negated ++ [.group ts])
  := by
  have hspells := h.operand hg hq hinner hreadable
  cases negated with
  | false => exact hspells.parted hbody.group (show Spells " IN " (membershipTokens false) from rfl) rfl rfl
  | true => exact hspells.parted hbody.group (show Spells " NOT IN " (membershipTokens true) from rfl) rfl rfl

/-- An operator between two operands. -/
theorem spells_operator {op : BinaryOp} (hop : op ≠ .pow) {l r : NodeId} {left right : Phrase}
    (hleft : below (v.graph.unaliased l) = some left)
    (hright : below (v.graph.unaliased r) = some right) {leftText rightText : String}
    (hleftText : v.operandStep shown l = .ok leftText)
    (hrightText : v.operandStep shown r = .ok rightText)
    (hreadable : left.Readable ∧ right.Readable) :
  Spells (leftText ++ " " ++ symbol op ++ " " ++ rightText)
    (left.laidOut.enclose left.laidOut.tokens ++ [operator op]
      ++ right.laidOut.enclose right.laidOut.tokens)
  := by
  have hl := h.operand hg hleft hleftText hreadable.1
  have hr := h.operand hg hright hrightText hreadable.2
  have hsplit : leftText ++ " " ++ symbol op ++ " " ++ rightText
      = leftText ++ (" " ++ symbol op ++ " ") ++ rightText := by
    simp only [String.append_assoc]
  rw [hsplit]
  cases op
  case pow => exact absurd rfl hop
  all_goals exact hl.parted hr rfl rfl rfl

/-- A minus sign in front of an operand, which starts with no other one. -/
theorem spells_negate {arg : NodeId} {q : Phrase} (hn : v.graph.node id = .unary .negate arg)
    (hq : below (v.graph.unaliased arg) = some q) (htext : v.plainStep shown id = .ok text)
    (hreadable : (Phrase.negate q).Readable) :
  Spells text (Phrase.negate q).laidOut.tokens
  := by
  simp only [View.plainStep, hn] at htext
  obtain ⟨inner, hinner, htext⟩ := exists_of_bind_eq_ok htext
  cases htext
  have hspells := h.operand hg hq hinner (hreadable.part List.mem_cons_self)
  simp only [Phrase.laidOut, Phrase.rebuild, Phrase.layChoice, Phrase.tokens]
  refine hspells.negative fun hhead => ?_
  -- the operand would start with a second sign
  have hleads := hspells.leads hhead
  rw [Phrase.leads_enclose_laidOut, show _ = false from hreadable.here.signed] at hleads
  cases hleads

/-- The test of an operand for being there. -/
theorem spells_null {arg : NodeId} {q : Phrase} {negated : Bool}
    (hn : v.graph.node id = .unary (if negated then .notNull else .isNull) arg)
    (hq : below (v.graph.unaliased arg) = some q) (htext : v.plainStep shown id = .ok text)
    (hreadable : (Phrase.null q negated).Readable) :
  Spells text (Phrase.null q negated).laidOut.tokens
  := by
  simp only [Phrase.laidOut, Phrase.rebuild, Phrase.layChoice, Phrase.tokens]
  cases negated
  all_goals
    simp only [View.plainStep, hn] at htext
    obtain ⟨inner, hinner, htext⟩ := exists_of_bind_eq_ok htext
    cases htext
    have hspells := h.operand hg hq hinner (hreadable.part List.mem_cons_self)
  · exact hspells.append_of_starts (show Spells " IS NULL" (nullTokens false) from rfl) rfl
  · exact hspells.append_of_starts (show Spells " IS NOT NULL" (nullTokens true) from rfl) rfl

/-- Operators but the power stand between their operands. -/
theorem spells_binary {op : BinaryOp} {l r : NodeId} {q q' : Phrase}
    (hn : v.graph.node id = .binary op l r)
    (hr : ∀ unit count, v.graph.node r ≠ .interval unit count) (hop : op ≠ .pow)
    (hq : below (v.graph.unaliased l) = some q) (hq' : below (v.graph.unaliased r) = some q')
    (htext : v.plainStep shown id = .ok text) (hreadable : (Phrase.binary op q q').Readable) :
  Spells text (Phrase.binary op q q').laidOut.tokens
  := by
  have htext : (do
      return (← v.operandStep shown l) ++ " " ++ symbol op ++ " " ++ (← v.operandStep shown r))
      = Except.ok text := by
    simp only [View.plainStep, hn, if_neg hop] at htext
    generalize v.graph.node r = n at hr htext
    cases n with
    | interval unit count => exact absurd rfl (hr unit count)
    | _ => exact htext
  obtain ⟨leftText, hleft, htext⟩ := exists_of_bind_eq_ok htext
  obtain ⟨rightText, hright, htext⟩ := exists_of_bind_eq_ok htext
  cases htext
  simp only [Phrase.laidOut, Phrase.rebuild, Phrase.layChoice, Phrase.tokens]
  exact h.spells_operator hg hop hq hq' hleft hright ⟨hreadable.part List.mem_cons_self,
    hreadable.part (List.mem_cons_of_mem q List.mem_cons_self)⟩

/-- The test of an operand for lying between two bounds. -/
theorem spells_between {arg low high : NodeId} {q lower upper : Phrase}
    (hn : v.graph.node id = .between arg low high) (hq : below (v.graph.unaliased arg) = some q)
    (hlow : below low = some lower) (hhigh : below high = some upper)
    (htext : v.plainStep shown id = .ok text)
    (hreadable : (Phrase.between q lower upper).Readable) :
  Spells text (Phrase.between q lower upper).laidOut.tokens
  := by
  simp only [View.plainStep, hn] at htext
  obtain ⟨inner, hinner, htext⟩ := exists_of_bind_eq_ok htext
  obtain ⟨lowText, hlowText, htext⟩ := exists_of_bind_eq_ok htext
  obtain ⟨highText, hhighText, htext⟩ := exists_of_bind_eq_ok htext
  cases htext
  obtain ⟨hoperand, hbounds⟩ := List.forall_mem_cons.mp fun q hq => hreadable.part hq
  have hspells := h.operand hg hq hinner hoperand
  have hlower := h.spelled hlow hlowText (hbounds lower List.mem_cons_self)
  have hupper := h.spelled hhigh hhighText
    (hbounds upper (List.mem_cons_of_mem _ List.mem_cons_self))
  simp only [Phrase.laidOut, Phrase.rebuild, Phrase.layChoice, Phrase.tokens]
  have htested := hspells.parted hlower (show Spells " BETWEEN " [.keyword .BETWEEN] from rfl)
    rfl rfl
  exact htested.parted hupper (show Spells " AND " [.keyword .AND] from rfl) rfl rfl

/-- The test of an operand for being one of several values. -/
theorem spells_oneOf {arg : NodeId} {values : List NodeId} {negated : Bool} {q : Phrase}
    {ps : List Phrase} (hn : v.graph.node id = .contains arg (.list values) negated)
    (hq : below (v.graph.unaliased arg) = some q) (hps : values.mapM below = some ps)
    (htext : v.plainStep shown id = .ok text)
    (hreadable : (Phrase.membership q negated ps).Readable) :
  Spells text (Phrase.membership q negated ps).laidOut.tokens
  := by
  simp only [View.plainStep, hn] at htext
  obtain ⟨inner, hinner, htext⟩ := exists_of_bind_eq_ok htext
  obtain ⟨texts, htexts, htext⟩ := exists_of_bind_eq_ok htext
  cases htext
  have hlist := h.spells_list hps htexts fun p hp => hreadable.part (List.mem_cons_of_mem q hp)
  have hsplit : inner ++ membershipKeyword negated ++ "(" ++ joinWith ", " texts ++ ")"
      = inner ++ membershipKeyword negated ++ ("(" ++ joinWith ", " texts ++ ")") := by
    simp only [String.append_assoc]
  rw [hsplit]
  simp only [Phrase.laidOut, Phrase.rebuild, Phrase.layChoice, Phrase.tokens, List.map_map]
  exact h.spells_membership hg hq hinner (hreadable.part List.mem_cons_self)
    (Spells.joinWith (show Spells ", " [.comma] from rfl) rfl rfl hlist)

/-- A value that no subquery stands for. -/
theorem spells_plain (hp : View.PlainForms v below id p) (htext : v.plainStep shown id = .ok text)
    (hreadable : p.Readable) :
  Spells text p.laidOut.tokens
  := by
  have hpart : ∀ q ∈ p.parts, q.Readable := fun q hq => hreadable.part hq
  cases hp with
  | negate hn hq => exact h.spells_negate hg hn hq htext hreadable
  | null hn hq => exact h.spells_null hg hn hq htext hreadable
  | shift hn hr hop hq => exact h.spells_shift hn hr hop hq htext hreadable
  | power hn hr hq hq' => exact h.spells_power hn hr hq hq' htext hreadable
  | operator hn hr hop hq hq' => exact h.spells_binary hg hn hr hop hq hq' htext hreadable
  | extract hn hq => exact h.spells_extract hn hq htext hreadable
  | between hn hq hlow hhigh => exact h.spells_between hg hn hq hlow hhigh htext hreadable
  | membership hn hq hps => exact h.spells_oneOf hg hn hq hps htext hreadable
  | choice hn hbases hbranches hdefaults =>
      exact h.spells_choice hn hbases hbranches hdefaults htext
        fun a ha => hpart a.2 (List.mem_map_of_mem ha)
  | named hn hp =>
      simp only [View.plainStep, hn] at htext
      exact h.spelled hp htext hreadable
  | literal hn =>
      simp only [View.plainStep, hn] at htext
      cases htext
      exact spells_literal hreadable
  | column hn hcolumn =>
      simp only [View.plainStep, hn, hcolumn] at htext
      cases htext
      simp only [Phrase.laidOut, Phrase.rebuild, Phrase.layChoice, Phrase.tokens]
      exact IsWord.spells hreadable.here.worded.word
  | countStar hn =>
      simp only [View.plainStep, hn] at htext
      cases htext
      simp only [Phrase.laidOut, Phrase.rebuild, Phrase.layChoice, Phrase.tokens]
      rfl
  | not hn hq =>
      simp only [View.plainStep, hn] at htext
      obtain ⟨inner, hinner, htext⟩ := exists_of_bind_eq_ok htext
      cases htext
      have hspells := h.operand hg hq hinner (hpart _ List.mem_cons_self)
      simp only [Phrase.laidOut, Phrase.rebuild, Phrase.layChoice, Phrase.tokens]
      exact Spells.append_of_ends (show Spells "NOT " [.keyword .NOT] from rfl) hspells rfl
  | @call f arguments ps hn hps =>
      simp only [View.plainStep, hn] at htext
      obtain ⟨texts, htexts, htext⟩ := exists_of_bind_eq_ok htext
      cases htext
      have hname : Spells f.sqlName [.word f.sqlName.toList] := by
        cases f <;> rfl
      simp only [Phrase.laidOut, Phrase.rebuild, Phrase.layChoice, Phrase.tokens, List.map_map]
      exact h.spells_arguments hname hps htexts hpart
  | @cast arg target q hn hq =>
      simp only [View.plainStep, hn] at htext
      obtain ⟨inner, hinner, htext⟩ := exists_of_bind_eq_ok htext
      cases htext
      simp only [Phrase.laidOut, Phrase.rebuild, Phrase.layChoice, Phrase.tokens]
      exact Spells.call_parted (show Spells "CAST" [.keyword .CAST] from rfl)
        (h.spelled hq hinner (hpart q List.mem_cons_self)) (spells_type target)
        (show Spells " AS " [.keyword .AS] from rfl) rfl rfl rfl
  | aggregate hn hq =>
      simp only [View.plainStep, hn] at htext
      obtain ⟨inner, hinner, htext⟩ := exists_of_bind_eq_ok htext
      cases htext
      simp only [Phrase.laidOut, Phrase.rebuild, Phrase.layChoice, Phrase.tokens]
      exact spells_aggregate (h.spelled hq hinner (hpart _ List.mem_cons_self))

/-- The step from smaller values to a value. -/
theorem spells_step (hp : View.Forms v below id p) (htext : v.valueStep shown id = .ok text)
    (hreadable : p.Readable) :
  Spells text p.laidOut.tokens
  := by
  have hsplit : ∀ query : String, "(\n" ++ indent v.options.indent query ++ "\n)"
      = "(" ++ ("\n" ++ indent v.options.indent query ++ "\n") ++ ")" := by
    intro query
    rw [show "(\n" = "(" ++ "\n" from rfl, show "\n)" = "\n" ++ ")" from rfl]
    simp only [String.append_assoc]
  rw [View.valueStep] at htext
  cases hp with
  | plain hnested hp =>
      simp only [hnested] at htext
      exact h.spells_plain hg hp htext hreadable
  | scalar hnested hkind hbody =>
      simp only [hnested, hkind] at htext
      obtain ⟨query, hquery, htext⟩ := exists_of_bind_eq_ok htext
      cases htext
      simp only [Phrase.laidOut, Phrase.rebuild, Phrase.layChoice, Phrase.tokens]
      rw [hsplit]
      exact (spells_body hbody hquery).group
  | existence hnested hkind hbody =>
      simp only [hnested, hkind] at htext
      obtain ⟨query, hquery, htext⟩ := exists_of_bind_eq_ok htext
      cases htext
      simp only [Phrase.laidOut, Phrase.rebuild, Phrase.layChoice, Phrase.tokens]
      rw [hsplit]
      exact Spells.append_of_ends (show Spells "EXISTS " [.keyword .EXISTS] from rfl)
        (spells_body hbody hquery).group rfl
  | memberOf hnested hkind hbody hn hq =>
      simp only [hnested, hkind, hn] at htext
      obtain ⟨query, hquery, htext⟩ := exists_of_bind_eq_ok htext
      obtain ⟨inner, hinner, htext⟩ := exists_of_bind_eq_ok htext
      cases htext
      simp only [Phrase.laidOut, Phrase.rebuild, Phrase.layChoice, Phrase.tokens]
      rw [hsplit]
      exact h.spells_membership hg hq hinner (hreadable.part List.mem_cons_self)
        (spells_body hbody hquery)

end

end Phrased

namespace View

/-- The text of a value spells its phrase. -/
theorem value_spells {v : View} (hg : v.graph.WellFounded) {id : NodeId} {p : Phrase}
    {text : String} (hp : v.phrase id = some p) (htext : v.value id = .ok text)
    (hreadable : p.Readable) :
  Spells text p.laidOut.tokens
  := by
  obtain ⟨i⟩ := id
  induction i using Nat.strongRecOn generalizing p text with
  | ind i ih =>
      rw [phrase, NodeId.recurse_eq_below] at hp
      rw [value, NodeId.recurse_eq_below] at htext
      refine Phrased.spells_step ⟨?_, ?_⟩ hg (forms_of_phraseStep hp) htext hreadable
      · intro c q inner hq hinner hreads
        split at hq
        case isTrue hlt =>
            rw [if_pos hlt] at hinner
            exact ih c.index hlt hreads hq hinner
        case isFalse => cases hq
      · intro c q hq hn
        split at hq
        case isTrue =>
            rw [← phrase, phrase, NodeId.recurse_eq_below] at hq
            exact isInfix_of_forms (forms_of_phraseStep hq) hn
        case isFalse => cases hq

end View

end Render

end RelSql
