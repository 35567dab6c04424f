import RelSql.Proofs.Lexical.Queries
import RelSql.Proofs.Syntax.Reader

/-!
# Readings of values

Two values of a block that are written in the same way have the same operator tree, and no comment
starts in their text: this is what reading the text back gives, where the operands of both stand
apart.
-/

namespace RelSql

open Text Sql Render

namespace Sql

mutual

/-- Whether a token is no comment and holds none. -/
def Token.isUncommented : Token → Bool
  | .comment => false
  | .group ts => areUncommented ts
  | _ => true

/-- Whether tokens are no comments and hold none. -/
def areUncommented : List Token → Bool
  | [] => true
  | t :: ts => t.isUncommented && areUncommented ts

end

theorem areUncommented_iff {ts : List Token} :
  areUncommented ts ↔ ∀ t ∈ ts, t.isUncommented
  := by
  induction ts with
  | nil => simp [areUncommented]
  | cons t ts ih => rw [areUncommented, Bool.and_eq_true, ih, List.forall_mem_cons]

namespace Phrase

/-- No minus sign in a phrase without nested queries starts a comment. -/
theorem uncommented_tokens {p : Phrase} (h : p.Elementary) :
  areUncommented p.tokens
  := by
  refine areUncommented_iff.mpr
    (forall_mem_tokens ⟨fun _ => rfl, fun _ => rfl, rfl, ?_⟩ h)
  intro ts hts
  rw [Token.isUncommented, areUncommented_iff]
  intro t ht
  rcases hts t ht with h | rfl
  · exact h
  · rfl

theorem formedAt_atom {cs : List Char} (h : (atom cs).WordedAt) :
  (atom cs).FormedAt
  := by
  refine h.keyword.imp_left fun hnone => ?_
  rw [Token.ofWord, hnone]

theorem formedAt_negative {cs : List Char} (h : (negative cs).WordedAt) :
  (negative cs).FormedAt
  := by
  refine ⟨by rw [Token.ofWord, IsNumeral.read?_eq_none h], ?_⟩
  obtain ⟨c, hc, hdigit⟩ := IsNumeral.digit h
  rw [isNumeric, hc]
  exact hdigit

end Phrase

end Sql

/-- Whether a node is a column, a constant, or made of those by operators, calls, cases and tests. -/
def Node.isElementary : Node → Bool
  | .literal _ | .column _ _ | .named _ _ | .unary _ _ | .binary _ _ _ | .call _ _ | .cast _ _
  | .extract _ _ | .case _ _ _ | .between _ _ _ | .contains _ (.list _) _ => true
  | _ => false

/-- Whether the quotes of the name or the string in a node close where they should. -/
def Node.isClosed : Node → Bool
  | .column _ name => decide (Named name)
  | .literal (.string s) => decide (Enclosed s)
  | _ => true

namespace Render.View

variable {v : View} {below : NodeId → Option Phrase} {id : NodeId} {p : Phrase}

/-- A value whose operands stand apart in its text: it is made of columns and constants by operators,
calls, cases and tests, quotes close where they should, no minus sign stands in front of another one,
and no operand is read together with other words than its own. -/
structure Clear (v : View) (id : NodeId) : Prop where
  elementary : ∀ c, v.Holds id c → nestedFor? v.nested c = none ∧ (v.graph.node c).isElementary
  legible : v.Legible id
  firm : ∀ p, v.phrase id = some p → p.All fun p => p.SignedAt ∧ p.FirmAt

/-- Whether the values of a list are made of each other, of columns and of constants by operators,
calls, cases and tests, and the quotes in them close where they should. -/
def selfContained (v : View) (ids : List NodeId) : Bool :=
  ids.all fun i => (nestedFor? v.nested i).isNone && (v.graph.node i).isElementary
    && (v.graph.node i).isClosed && (v.parts i).all (ids.contains ·)

/-- A value of such a list is clear if its operands stand apart. -/
theorem clear_of_selfContained {ids : List NodeId} (h : v.selfContained ids) (hid : id ∈ ids)
    (hfirm : ∀ p, v.phrase id = some p → p.All fun p => p.SignedAt ∧ p.FirmAt) :
  v.Clear id
  := by
  have hnode : ∀ i ∈ ids, (nestedFor? v.nested i = none ∧ (v.graph.node i).isElementary)
      ∧ (v.graph.node i).isClosed ∧ ∀ c ∈ v.parts i, c ∈ ids := by
    intro i hi
    have hall := List.all_eq_true.mp h i hi
    simp only [Bool.and_eq_true, Option.isNone_iff_eq_none, List.all_eq_true,
      List.contains_iff_mem] at hall
    exact ⟨hall.1.1, hall.1.2, hall.2⟩
  have hheld : ∀ {i c}, v.Holds i c → i ∈ ids → c ∈ ids := by
    intro i c hc
    induction hc with
    | refl => exact fun hi => hi
    | part hp _ ih => exact fun hi => ih ((hnode _ hi).2.2 _ hp)
  refine ⟨fun c hc => (hnode c (hheld hc hid)).1, ⟨fun c t name hc hn => ?_, fun c s hc hn => ?_⟩, hfirm⟩
  all_goals
    have hclosed := (hnode c (hheld hc hid)).2.1
    rw [hn] at hclosed
    exact of_decide_eq_true hclosed

theorem formedAt_literalPhrase (value : Value) (h : (literalPhrase value).WordedAt) :
  (literalPhrase value).FormedAt
  := by
  have hsigned : ∀ cs, (Phrase.signed cs).WordedAt → (Phrase.signed cs).FormedAt :=
    Phrase.of_signed (P := fun p => p.WordedAt → p.FormedAt) (fun _ => Phrase.formedAt_atom)
      fun _ => Phrase.formedAt_negative
  cases value with
  | float x =>
      simp only [literalPhrase] at h ⊢
      split at h
      case isTrue hnan =>
          rw [if_pos hnan]
          rfl
      case isFalse hnan =>
          rw [if_neg hnan]
          split at h
          case isTrue hinfinite =>
              rw [if_pos hinfinite]
              cases x.negative <;> rfl
          case isFalse hinfinite =>
              rw [if_neg hinfinite]
              exact hsigned _ h
  | _ =>
      simp only [literalPhrase] at h ⊢
      exact hsigned _ h

theorem formedAt_of_plainForms (helementary : (v.graph.node id).isElementary)
    (hnamed : ∀ arg name, v.graph.node id ≠ .named arg name) (hp : PlainForms v below id p)
    (h : p.WordedAt) :
  p.FormedAt
  := by
  cases hp
  case named hn _ => exact absurd hn (hnamed _ _)
  case literal value _ => exact formedAt_literalPhrase value h
  case column => exact Phrase.formedAt_atom h
  case operator hop _ _ => exact hop
  case choice base default whens bases defaults branches hn hbases hbranches hdefaults =>
      -- a case has one base at most, in front of its branches
      have hbase : bases.tail = [] := by
        cases base with
        | none =>
            cases hbases
            rfl
        | some b =>
            rw [Option.toList_some, List.mapM_cons] at hbases
            obtain ⟨q, _, hbases⟩ := Option.bind_eq_some_iff.mp hbases
            cases hbases
            rfl
      have hrest : Arm.base ∉ ((branches.flatMap fun b => [(Arm.condition, b.1), (Arm.result, b.2)])
          ++ defaults.map (Prod.mk Arm.default)).map Prod.fst := by
        simp
      rw [Phrase.FormedAt, List.append_assoc, List.map_append]
      cases bases with
      | nil => exact fun hmem => hrest (List.mem_of_mem_tail hmem)
      | cons q qs =>
          cases hbase
          exact hrest
  case aggregate hn _ | countStar hn =>
      rw [hn] at helementary
      cases helementary
  all_goals rfl

/-- The operands of a value that is clear are read as such. -/
theorem phrase_sound (hscope : v.clauses.scope.Proper) (h : v.Clear id) (hp : v.phrase id = some p) :
  p.Sound
  := by
  have hworded := phrase_worded hscope h.legible hp
  have hformed : p.All fun p => p.WordedAt → p.FormedAt := by
    refine phrase_all (fun _ => Phrase.of_signed (P := fun p => p.WordedAt → p.FormedAt)
      (fun _ => Phrase.formedAt_atom) (fun _ => Phrase.formedAt_negative) _) ?_ hp
    intro below c q hholds hnamed hq
    obtain ⟨hplain, helementary⟩ := h.elementary c hholds
    cases hq with
    | plain hnested hq => exact formedAt_of_plainForms helementary (hnamed hnested) hq
    | scalar hnested _ _ | existence hnested _ _ | memberOf hnested _ _ _ _ =>
        rw [hplain] at hnested
        cases hnested
  exact ((hworded.and hformed).and (h.firm p hp)).imp fun _ hq => ⟨hq.2.2, hq.1.2 hq.1.1⟩

/-- The text of a clear value is read as a phrase. -/
theorem exists_sound (hg : v.graph.WellFounded) (hscope : v.clauses.scope.Proper) (h : v.Clear id)
    {text : String} (htext : v.value id = .ok text) :
  ∃ p, v.phrase id = some p ∧ p.Sound ∧ Spells text p.laidOut.tokens
  := by
  obtain ⟨p, hp⟩ := exists_phrase hg (fun c hc s hs => by
    rw [(h.elementary c hc).1] at hs
    cases hs) htext
  have hsigned := (h.firm p hp).imp fun _ hq => hq.1
  exact ⟨p, hp, phrase_sound hscope h hp,
    value_spells hg hp htext (phrase_readable hscope h.legible hp hsigned)⟩

end Render.View

/-- Two values of a block that are written as the same text, and whose operands stand apart, have the
same operator tree, and no comment starts in the text. -/
theorem Graph.value_tree {g : Graph} (hg : g.WellFounded) {root : NodeId} (hroot : g.Has root)
    {st : Statement} (h : g.analyze root = .ok st) {outer : List Select} {b : Select}
    (hb : st.Holds outer b) (options : Render.Options) {x y : NodeId}
    (hx : (view st.graph options b).Clear x) (hy : (view st.graph options b).Clear y) {text : String}
    (htx : (view st.graph options b).value x = .ok text)
    (hty : (view st.graph options b).value y = .ok text) :
  ∃ p q, (view st.graph options b).phrase x = some p ∧ (view st.graph options b).phrase y = some q
    ∧ p.tree = q.tree ∧ ∃ ts, tokens? text = some ts ∧ areUncommented ts
  := by
  obtain ⟨_, hg', _⟩ := analyze_spec QuerySpec.hereditary_unshared hg hroot h
  have hscope := (analyze_scopes hg hroot h hb).1.proper
  obtain ⟨p, hp, hsoundp, hspellsp⟩ := View.exists_sound hg' hscope hx htx
  obtain ⟨q, hq, hsoundq, hspellsq⟩ := View.exists_sound hg' hscope hy hty
  have htokens := tokens?_eq_some.mpr hspellsp
  rw [tokens?_eq_some.mpr hspellsq] at htokens
  refine ⟨p, q, hp, hq, ?_, _, tokens?_eq_some.mpr hspellsp,
    Phrase.uncommented_tokens hsoundp.laidOut.elementary⟩
  exact Phrase.tree_eq_of_laidOut hsoundp.elementary hsoundq.elementary
    (Phrase.tree_eq_of_tokens hsoundp.laidOut hsoundq.laidOut (Option.some.inj htokens).symm)

/-- A column that is looked for among a number with a sign in front of it, and among the negative
number. -/
def lookedForNegative : Graph := ⟨#[
  .table ⟨some "t", none, ⟨[⟨"x", .int32⟩]⟩⟩,
  .column ⟨0⟩ "x",
  .literal (.integer 5),
  .unary .negate ⟨2⟩,
  .literal (.integer (-5)),
  .contains ⟨1⟩ (.list [⟨3⟩]) true,
  .contains ⟨1⟩ (.list [⟨4⟩]) true]⟩

/-- Both tests of the statement have one text, and their phrases differ. -/
theorem lookedForNegative_analyzed :
  ((lookedForNegative.analyze ⟨0⟩).toOption.bind fun st =>
    match (view st.graph .default st.query.first).value ⟨5⟩,
      (view st.graph .default st.query.first).value ⟨6⟩,
      (view st.graph .default st.query.first).phrase ⟨5⟩,
      (view st.graph .default st.query.first).phrase ⟨6⟩ with
    | .ok text, .ok other, some (.membership (.atom _) _ [.negate (.atom _)]),
        some (.membership (.atom _) _ [.negative _]) =>
      some (decide (text = other)
        && (view st.graph .default st.query.first).selfContained
          [⟨1⟩, ⟨2⟩, ⟨3⟩, ⟨4⟩, ⟨5⟩, ⟨6⟩])
    | _, _, _, _ => none) = some true
  := by decide

theorem value_tree_lookedForNegative :
  ∃ st b p q, lookedForNegative.analyze ⟨0⟩ = .ok st ∧ st.Holds [] b
    ∧ (view st.graph .default b).phrase ⟨5⟩ = some p ∧ (view st.graph .default b).phrase ⟨6⟩ = some q
    ∧ p.tree = q.tree
  := by
  obtain ⟨st, hst, hrun⟩ := Option.bind_eq_some_iff.mp lookedForNegative_analyzed
  have hok := eq_ok_of_toOption hst
  split at hrun
  case h_2 => cases hrun
  case h_1 text other x negated n x' negated' n' htx hty hp hq =>
      rw [Option.some.injEq, Bool.and_eq_true, decide_eq_true_eq] at hrun
      obtain ⟨rfl, hcontained⟩ := hrun
      have hholds : st.Holds [] st.query.first := .inl (Query.holds_first _)
      have hword : ∀ cs, (Phrase.atom cs).All (fun p => p.SignedAt ∧ p.FirmAt)
          ∧ (Phrase.negative cs).All (fun p => p.SignedAt ∧ p.FirmAt) := by
        intro cs
        rw [Phrase.All, Phrase.All]
        exact ⟨⟨⟨trivial, trivial⟩, List.forall_mem_nil _⟩, ⟨trivial, trivial⟩, List.forall_mem_nil _⟩
      have hsign : ∀ cs, (Phrase.atom cs).negate.All fun p => p.SignedAt ∧ p.FirmAt := by
        intro cs
        rw [Phrase.All]
        refine ⟨⟨?_, fun h => h⟩, List.forall_mem_singleton.mpr (hword cs).1⟩
        simp only [Phrase.SignedAt, Phrase.enclose, Phrase.isInfix, Bool.false_eq_true, if_false,
          Phrase.tokens, Token.ofWord]
        split <;> rfl
      have hx : (view st.graph .default st.query.first).Clear ⟨5⟩ :=
        View.clear_of_selfContained hcontained (by decide) fun p hphrase => by
          cases hp.symm.trans hphrase
          rw [Phrase.All]
          exact ⟨⟨trivial, rfl⟩, List.forall_mem_cons.mpr ⟨(hword x).1, List.forall_mem_singleton.mpr (hsign n)⟩⟩
      have hy : (view st.graph .default st.query.first).Clear ⟨6⟩ :=
        View.clear_of_selfContained hcontained (by decide) fun p hphrase => by
          cases hq.symm.trans hphrase
          rw [Phrase.All]
          exact ⟨⟨trivial, rfl⟩, List.forall_mem_cons.mpr ⟨(hword x').1, List.forall_mem_singleton.mpr (hword n').2⟩⟩
      obtain ⟨p, q, hphrase, hphrase', htree, _⟩ := Graph.value_tree (by decide) (by decide) hok hholds
        .default hx hy htx hty
      exact ⟨st, _, p, q, hok, hholds, hphrase, hphrase', htree⟩

end RelSql
