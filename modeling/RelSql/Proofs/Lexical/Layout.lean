import RelSql.Proofs.Lexical.Values

/-!
# Layout of phrases

The layout of a phrase changes its words only: spaces stand behind the newlines in them, where
the branches of a case are indented.  What does not depend on that holds throughout the phrase
as it is laid out, and the phrase can be told from its layout.
-/

namespace RelSql.Sql

open Text

/-- Whether a token is none of the keywords that queries and their clauses start with. -/
def Token.isInner : Token → Bool
  | .keyword k => [Keyword.SELECT, .UNION, .ORDER, .LIMIT].all (· ≠ k)
  | _ => true

@[simp]
theorem Token.isInner_pad (x : List Char) (t : Token) :
  (t.pad x).isInner = t.isInner
  := by
  cases t <;> rfl

/-- Tokens none of which a query or a clause starts with. -/
def Inner (ts : List Token) : Prop :=
  ∀ t ∈ ts, t.isInner

theorem Inner.append {ts us : List Token} (ht : Inner ts) (hu : Inner us) :
  Inner (ts ++ us)
  := List.forall_mem_append.mpr ⟨ht, hu⟩

theorem Inner.pad {ts : List Token} (h : Inner ts) (x : List Char) :
  Inner (padAll x ts)
  := by
  intro t ht
  rw [padAll_eq_map] at ht
  obtain ⟨u, hu, rfl⟩ := List.mem_map.mp ht
  rw [Token.isInner_pad]
  exact h u hu

theorem Inner.flatMap {β : Type} {l : List β} {f : β → List Token} (h : ∀ b ∈ l, Inner (f b)) :
  Inner (l.flatMap f)
  := by
  intro t ht
  obtain ⟨b, hb, ht⟩ := List.mem_flatMap.mp ht
  exact h b hb t ht

namespace Phrase

theorem parts_pad (x : List Char) (p : Phrase) :
  (p.pad x).parts = p.parts.map (pad x)
  := by
  cases p with
  | choice arms =>
      simp only [pad, rebuild, padWord, parts, List.map_map]
      rfl
  | _ => simp only [pad, rebuild, padWord, parts, List.map_cons, List.map_nil]

/-- The parts of a phrase that is laid out: those in the branches of a case may be moved. -/
theorem exists_of_mem_parts_laidOut {p r : Phrase} (h : r ∈ p.laidOut.parts) :
  ∃ q ∈ p.parts, r = q.laidOut ∨ r = q.laidOut.pad branchPad
  := by
  cases p with
  | choice arms =>
      simp only [laidOut, rebuild, layChoice, parts, layArms] at h
      split at h
      all_goals
        obtain ⟨a, ha, rfl⟩ := List.mem_map.mp h
      · obtain ⟨b, hb, rfl⟩ := List.mem_map.mp ha
        obtain ⟨c, hc, rfl⟩ := List.mem_map.mp hb
        refine ⟨c.2, List.mem_map_of_mem hc, ?_⟩
        dsimp only
        split
        · exact .inl rfl
        · exact .inr rfl
      · obtain ⟨c, hc, rfl⟩ := List.mem_map.mp ha
        exact ⟨c.2, List.mem_map_of_mem hc, .inl rfl⟩
  | _ =>
      have hparts : ∀ {p : Phrase}, p.laidOut.parts = p.parts.map laidOut →
          r ∈ p.laidOut.parts → ∃ q ∈ p.parts, r = q.laidOut ∨ r = q.laidOut.pad branchPad := by
        intro p hp hr
        rw [hp] at hr
        obtain ⟨q, hq, rfl⟩ := List.mem_map.mp hr
        exact ⟨q, hq, .inl rfl⟩
      refine hparts ?_ h
      simp only [laidOut, rebuild, layChoice, parts, List.map_cons, List.map_nil]

variable {P : Phrase → Prop}

theorem all_pad (x : List Char) (hpad : ∀ p : Phrase, P p → P (p.pad x)) {p : Phrase} (h : p.All P) :
  (p.pad x).All P
  := by
  induction p using induction with
  | h p ih =>
      rw [All, parts_pad, List.forall_mem_map]
      exact ⟨hpad p h.here, fun q hq => ih q hq (h.part hq)⟩

/-- What does not depend on the words of a phrase holds of the phrase as it is laid out. -/
theorem all_laidOut (hpad : ∀ p : Phrase, P p → P (p.pad branchPad))
    (hlaid : ∀ p : Phrase, P p → P p.laidOut) {p : Phrase} (h : p.All P) :
  p.laidOut.All P
  := by
  induction p using induction with
  | h p ih =>
      rw [All]
      refine ⟨hlaid p h.here, fun r hr => ?_⟩
      obtain ⟨q, hq, rfl | rfl⟩ := exists_of_mem_parts_laidOut hr
      · exact ih q hq (h.part hq)
      · exact all_pad branchPad hpad (ih q hq (h.part hq))

/-! ### Words -/

/-- The only keyword that a word of a phrase may be is `NULL`. -/
def WordAt : Phrase → Prop
  | .atom cs | .negative cs => ∀ k, Token.ofWord cs = .keyword k → k = .NULL
  | _ => True

theorem WordedAt.wordAt {p : Phrase} (h : p.WordedAt) :
  p.WordAt
  := by
  cases p with
  | atom cs =>
      intro k hk
      rcases h.keyword with hnone | rfl
      · rw [Token.ofWord, hnone] at hk
        cases hk
      · cases hk
        rfl
  | negative cs =>
      intro k hk
      rw [Token.ofWord, h.read?_eq_none] at hk
      cases hk
  | _ => trivial

theorem wordAt_pad (x : List Char) {p : Phrase} (h : p.WordAt) :
  (p.pad x).WordAt
  := by
  cases p with
  | atom cs | negative cs =>
      simp only [pad, rebuild, padWord]
      intro k hk
      refine h k ?_
      rw [Token.ofWord_pad] at hk
      generalize Token.ofWord cs = t at hk ⊢
      cases t <;> cases hk
      rfl
  | _ =>
      simp only [pad, rebuild, padWord]
      trivial

theorem wordAt_laidOut {p : Phrase} (h : p.WordAt) :
  p.laidOut.WordAt
  := by
  cases p with
  | atom cs | negative cs =>
      simp only [laidOut, rebuild, layChoice]
      exact h
  | _ =>
      simp only [laidOut, rebuild, layChoice]
      trivial

/-- The words of a phrase whose words are read as such are, as they are laid out, no keywords. -/
theorem all_wordAt_laidOut {p : Phrase} (h : p.All WordedAt) :
  p.laidOut.All WordAt
  := all_laidOut (P := WordAt) (fun _ => wordAt_pad branchPad) (fun _ => wordAt_laidOut)
    (h.imp fun _ => WordedAt.wordAt)

/-- No token of a phrase is one that a query or a clause starts with. -/
theorem inner_tokens {p : Phrase} (h : p.All WordAt) :
  Inner p.tokens
  := by
  have hword : ∀ {cs : List Char}, (∀ k, Token.ofWord cs = .keyword k → k = .NULL) →
      Inner [Token.ofWord cs] := by
    intro cs hcs
    refine List.forall_mem_singleton.mpr ?_
    generalize Token.ofWord cs = t at hcs
    cases t with
    | keyword k =>
        rw [hcs k rfl]
        rfl
    | _ => rfl
  have hgroup : ∀ ts, Inner [.group ts] := fun ts => List.forall_mem_singleton.mpr rfl
  induction p using induction with
  | h p ih =>
      have hpart : ∀ q ∈ p.parts, Inner q.tokens := fun q hq => ih q hq (h.part hq)
      have henclose : ∀ q ∈ p.parts, Inner (q.enclose q.tokens) := by
        intro q hq
        rw [enclose]
        split
        · exact hgroup _
        · exact hpart q hq
      cases p with
      | atom cs =>
          simp only [tokens]
          exact hword h.here
      | negative cs =>
          simp only [tokens]
          exact List.forall_mem_cons.mpr ⟨rfl, hword h.here⟩
      | special _ | countStar | subquery _ | existence _ | call _ _ | cast _ _ | extract _ _ =>
          simp only [tokens]
          simp [Inner, Token.isInner]
      | aggregate a _ =>
          simp only [tokens]
          cases a <;> simp [aggregateTokens, Inner, Token.isInner]
      | not q | negate q =>
          simp only [tokens]
          exact List.forall_mem_cons.mpr ⟨rfl, henclose q List.mem_cons_self⟩
      | null q negated =>
          simp only [tokens]
          refine (henclose q List.mem_cons_self).append ?_
          cases negated <;> simp [nullTokens, Inner, Token.isInner]
      | membership q negated _ | memberOf q negated _ =>
          simp only [tokens]
          refine ((henclose q List.mem_cons_self).append ?_).append (hgroup _)
          cases negated <;> simp [membershipTokens, Inner, Token.isInner]
      | binary op l r =>
          simp only [tokens]
          refine ((henclose l List.mem_cons_self).append ?_).append
            (henclose r (List.mem_cons_of_mem _ List.mem_cons_self))
          cases op <;> exact List.forall_mem_singleton.mpr rfl
      | between q low high =>
          simp only [tokens]
          exact ((((henclose q List.mem_cons_self).append (List.forall_mem_singleton.mpr rfl)).append
            (hpart low (List.mem_cons_of_mem _ List.mem_cons_self))).append
            (List.forall_mem_singleton.mpr rfl)).append
            (hpart high (List.mem_cons_of_mem _ (List.mem_cons_of_mem _ List.mem_cons_self)))
      | choice arms =>
          simp only [tokens]
          have hkeyword : ∀ k : Keyword, Token.isInner (.keyword k) → Inner [.keyword k] :=
            fun k hk => List.forall_mem_singleton.mpr hk
          refine ((hkeyword .CASE rfl).append (.flatMap fun a ha => ?_)).append (hkeyword .END rfl)
          refine Inner.append ?_ (hpart a.2 (List.mem_map_of_mem ha))
          cases a.1 <;> simp [Arm.tokens, Inner, Token.isInner]

end Phrase

end RelSql.Sql
