import Mathlib.Order.BoundedOrder.Lattice
import RelSql.Proofs.Lexical.Layout
import RelSql.Proofs.Lexical.Legible

/-!
# Conjunctions

A predicate is read as a disjunction of conjunctions of factors: `AND` binds tighter than `OR`,
neither cuts a case or a group, and the first `AND` after a `BETWEEN` belongs to it.  The factors
are interpreted in a bounded lattice, and a factor that is a group is read itself.
-/

namespace RelSql

open Text Render

namespace Sql

variable {α : Type} [Lattice α] [BoundedOrder α] (interpret : List Token → α)

/-- The state of reading a predicate. -/
structure Reading (α : Type) where
  /-- The number of cases that are open. -/
  depth : Nat
  /-- The number of bounds that are to come. -/
  pending : Nat
  /-- The tokens of the factor, with what they denote if they are groups. -/
  factor : List (Token × Option α)
  /-- What the factors before denote, back to the last `OR`. -/
  conjunction : α
  /-- What stands before that `OR` denotes. -/
  disjunction : α

namespace Reading

/-- The state before the first token. -/
def initial : Reading α := ⟨0, 0, [], ⊤, ⊥⟩

/-- What a factor denotes. -/
def value (factor : List (Token × Option α)) : α :=
  match factor with
  | [(_, some x)] => x
  | factor => interpret (factor.map Prod.fst)

/-- What has been read denotes. -/
def result (s : Reading α) : α :=
  s.disjunction ⊔ s.conjunction ⊓ value interpret s.factor

/-- Reads a token of a factor. -/
def goOn (s : Reading α) (t : Token) (inside : Option α) : Reading α :=
  { s with factor := s.factor ++ [(t, inside)] }

/-- Reads a token. -/
def step (s : Reading α) (t : Token) (inside : Option α) : Reading α :=
  match t with
  | .keyword .CASE => { s.goOn t inside with depth := s.depth + 1 }
  | .keyword .END => { s.goOn t inside with depth := s.depth - 1 }
  | .keyword .BETWEEN =>
    if s.depth > 0 then s.goOn t inside else { s.goOn t inside with pending := s.pending + 1 }
  | .keyword .AND =>
    if s.depth > 0 then s.goOn t inside
    else if s.pending > 0 then { s.goOn t inside with pending := s.pending - 1 }
    else { s with factor := [], conjunction := s.conjunction ⊓ value interpret s.factor }
  | .keyword .OR =>
    if s.depth > 0 then s.goOn t inside
    else { s with pending := 0, factor := [], conjunction := ⊤, disjunction := s.result interpret }
  | t => s.goOn t inside

end Reading

/-- Whether tokens are those of a query. -/
def selects : List Token → Bool
  | .keyword .SELECT :: _ => true
  | _ => false

mutual

/-- What a token denotes by itself: a group of tokens that are no query denotes what these do. -/
def inside : Token → Option α
  | .group ts => if selects ts then none else some ((reads .initial ts).result interpret)
  | _ => none

/-- Reads tokens. -/
def reads : Reading α → List Token → Reading α
  | s, [] => s
  | s, t :: ts => reads (s.step interpret t (inside t)) ts

end

/-- What the tokens of a predicate denote. -/
def denote (ts : List Token) : α :=
  (reads interpret .initial ts).result interpret

/-- What a phrase denotes, when all but `AND` and `OR` is interpreted. -/
def Phrase.meaning : Phrase → α
  | .binary .and l r => l.meaning ⊓ r.meaning
  | .binary .or l r => l.meaning ⊔ r.meaning
  | p => interpret p.tokens

variable {interpret}

theorem reads_append (s : Reading α) (ts us : List Token) :
  reads interpret s (ts ++ us) = reads interpret (reads interpret s ts) us
  := by
  induction ts generalizing s with
  | nil => rfl
  | cons t ts ih =>
      rw [List.cons_append, reads, reads]
      exact ih _

/-! ### Factors -/

/-- The tokens of a factor, with what they denote if they are groups. -/
def marked (interpret : List Token → α) (ts : List Token) : List (Token × Option α) :=
  ts.map fun t => (t, inside interpret t)

/-- Tokens that go on with a factor wherever they stand. -/
def Quiet (interpret : List Token → α) (ts : List Token) : Prop :=
  ∀ s, reads interpret s ts = { s with factor := s.factor ++ marked interpret ts }

/-- Tokens that go on with a factor within a case. -/
def Sheltered (interpret : List Token → α) (ts : List Token) : Prop :=
  ∀ s, 0 < s.depth → reads interpret s ts = { s with factor := s.factor ++ marked interpret ts }

/-- Whether a token goes on with a factor wherever it stands, and opens and closes nothing. -/
def Token.isPlain : Token → Bool
  | .keyword k => [Keyword.CASE, .END, .BETWEEN, .AND, .OR].all (· ≠ k)
  | _ => true

theorem Reading.step_of_isPlain {t : Token} (h : t.isPlain) (s : Reading α) (x : Option α) :
  s.step interpret t x = s.goOn t x
  := by
  cases t with
  | keyword k => cases k <;> first | rfl | cases h
  | _ => rfl

theorem Quiet.nil :
  Quiet interpret []
  := by
  intro s
  rw [reads, marked, List.map_nil, List.append_nil]

theorem Quiet.append {ts us : List Token} (ht : Quiet interpret ts) (hu : Quiet interpret us) :
  Quiet interpret (ts ++ us)
  := by
  intro s
  rw [reads_append, ht s, hu, marked, marked, marked, List.map_append, List.append_assoc]

theorem Sheltered.append {ts us : List Token} (ht : Sheltered interpret ts)
    (hu : Sheltered interpret us) :
  Sheltered interpret (ts ++ us)
  := by
  intro s hs
  rw [reads_append, ht s hs, hu { s with factor := s.factor ++ marked interpret ts } hs]
  simp only [marked, List.map_append, List.append_assoc]

theorem Quiet.sheltered {ts : List Token} (h : Quiet interpret ts) :
  Sheltered interpret ts
  := fun s _ => h s

theorem Quiet.of_isPlain {ts : List Token} (h : ∀ t ∈ ts, t.isPlain) :
  Quiet interpret ts
  := by
  induction ts with
  | nil => exact .nil
  | cons t ts ih =>
      rw [List.forall_mem_cons] at h
      intro s
      rw [reads, Reading.step_of_isPlain h.1, ih h.2]
      simp only [Reading.goOn, marked, List.map_cons, List.append_assoc, List.singleton_append]

/-- A token of a factor within a case. -/
theorem Sheltered.of_keyword {k : Keyword} (h : k ≠ .CASE ∧ k ≠ .END) :
  Sheltered interpret [.keyword k]
  := by
  intro s hs
  cases k
  case CASE => exact absurd rfl h.1
  case END => exact absurd rfl h.2
  all_goals
    simp only [reads, Reading.step, hs, if_true]
    rfl

/-- A case goes on with a factor wherever it stands. -/
theorem Quiet.case {ts : List Token} (h : Sheltered interpret ts) :
  Quiet interpret ([.keyword .CASE] ++ ts ++ [.keyword .END])
  := by
  intro s
  rw [reads_append, reads_append]
  have hopen : reads interpret s [.keyword .CASE]
      = { s with depth := s.depth + 1, factor := s.factor ++ marked interpret [.keyword .CASE] } := rfl
  have hclose : ∀ s : Reading α, reads interpret s [.keyword .END]
      = { s with depth := s.depth - 1, factor := s.factor ++ marked interpret [.keyword .END] } :=
    fun _ => rfl
  rw [hopen, h _ (Nat.succ_pos _), hclose]
  simp only [marked, List.map_append, List.append_assoc, Nat.add_sub_cancel]

/-- A test for lying between two bounds goes on with a factor wherever it stands. -/
theorem Quiet.between {ts low high : List Token} (ht : Quiet interpret ts)
    (hlow : Quiet interpret low) (hhigh : Quiet interpret high) :
  Quiet interpret (ts ++ [.keyword .BETWEEN] ++ low ++ [.keyword .AND] ++ high)
  := by
  intro s
  rw [reads_append, reads_append, reads_append, reads_append, ht]
  have hmarked : marked interpret (ts ++ [.keyword .BETWEEN] ++ low ++ [.keyword .AND] ++ high)
      = marked interpret ts ++ [(.keyword .BETWEEN, none)] ++ marked interpret low
        ++ [(.keyword .AND, none)] ++ marked interpret high := by
    simp only [marked, List.map_append]
    rfl
  rw [hmarked]
  by_cases hs : 0 < s.depth
  · simp only [reads, Reading.step, if_pos hs, hlow _, hhigh _, inside]
    simp only [Reading.goOn, List.append_assoc, hs, if_true]
  · have hpending : 0 < s.pending + 1 := Nat.succ_pos _
    simp only [reads, Reading.step, if_neg hs, hlow _, hhigh _, inside]
    simp only [Reading.goOn, List.append_assoc, hs, hpending, if_true, if_false,
      Nat.add_sub_cancel]

namespace Phrase

/-- Whether a phrase is a conjunction or a disjunction. -/
def isChain : Phrase → Bool
  | .binary .and _ _ | .binary .or _ _ => true
  | _ => false

/-- No bound of a test is a conjunction or a disjunction. -/
def BoundedAt : Phrase → Prop
  | .between _ low high => low.isChain = false ∧ high.isChain = false
  | _ => True

/-- The subqueries of a phrase are queries. -/
def QueryAt : Phrase → Prop
  | .subquery body => selects body
  | _ => True

/-- What the words and the subqueries of a phrase are read as. -/
structure ProperAt (p : Phrase) : Prop where
  word : p.WordAt
  query : p.QueryAt

theorem isPlain_of_wordAt {cs : List Char} (h : ∀ k, Token.ofWord cs = .keyword k → k = .NULL) :
  (Token.ofWord cs).isPlain
  := by
  generalize Token.ofWord cs = t at h
  cases t with
  | keyword k =>
      rw [h k rfl]
      rfl
  | _ => rfl

theorem not_isChain_of_not_isInfix {p : Phrase} (h : ¬p.isInfix = true) :
  p.isChain = false
  := by
  cases p <;> first | rfl | exact absurd rfl h

/-- An operand goes on with a factor. -/
theorem quiet_enclose {p : Phrase} (h : p.isChain = false → Quiet interpret p.tokens) :
  Quiet interpret (p.enclose p.tokens)
  := by
  rw [enclose]
  split
  case isTrue => exact .of_isPlain (List.forall_mem_singleton.mpr rfl)
  case isFalse hoperator => exact h (not_isChain_of_not_isInfix hoperator)

/-- The tokens of a phrase go on with a factor, unless `AND` or `OR` stands between them; within
a case they always do. -/
theorem quiet_tokens {p : Phrase} (hproper : p.All ProperAt) (hbounded : p.All BoundedAt) :
  (p.isChain = false → Quiet interpret p.tokens) ∧ Sheltered interpret p.tokens
  := by
  induction p using induction with
  | h p ih =>
      have hquiet : ∀ q ∈ p.parts, q.isChain = false → Quiet interpret q.tokens :=
        fun q hq => (ih q hq (hproper.part hq) (hbounded.part hq)).1
      have henclose : ∀ q ∈ p.parts, Quiet interpret (q.enclose q.tokens) :=
        fun q hq => quiet_enclose (hquiet q hq)
      have hwhole : Quiet interpret p.tokens →
          (p.isChain = false → Quiet interpret p.tokens) ∧ Sheltered interpret p.tokens :=
        fun h => ⟨fun _ => h, h.sheltered⟩
      cases p with
      | atom cs =>
          simp only [tokens] at hwhole ⊢
          exact hwhole (.of_isPlain
            (List.forall_mem_singleton.mpr (isPlain_of_wordAt hproper.here.word)))
      | negative cs =>
          simp only [tokens] at hwhole ⊢
          exact hwhole (.of_isPlain
            (List.forall_mem_cons.mpr
              ⟨rfl, List.forall_mem_singleton.mpr (isPlain_of_wordAt hproper.here.word)⟩))
      | special _ | countStar | subquery _ | existence _ | call _ _ | cast _ _ | extract _ _ =>
          simp only [tokens] at hwhole ⊢
          exact hwhole (.of_isPlain (by simp [Token.isPlain]))
      | aggregate a _ =>
          refine hwhole (.of_isPlain ?_)
          simp only [tokens]
          cases a <;> simp [aggregateTokens, Token.isPlain]
      | not q | negate q =>
          simp only [tokens] at hwhole ⊢
          exact hwhole ((Quiet.of_isPlain (List.forall_mem_singleton.mpr rfl)).append
            (henclose q List.mem_cons_self))
      | null q negated =>
          simp only [tokens] at hwhole ⊢
          refine hwhole ((henclose q List.mem_cons_self).append (.of_isPlain ?_))
          cases negated <;> simp [nullTokens, Token.isPlain]
      | membership q negated _ | memberOf q negated _ =>
          simp only [tokens] at hwhole ⊢
          refine hwhole (((henclose q List.mem_cons_self).append (.of_isPlain ?_)).append
            (.of_isPlain (List.forall_mem_singleton.mpr rfl)))
          cases negated <;> simp [membershipTokens, Token.isPlain]
      | binary op l r =>
          have hl := henclose l List.mem_cons_self
          have hr := henclose r (List.mem_cons_of_mem _ List.mem_cons_self)
          simp only [tokens] at hwhole ⊢
          cases op
          case and =>
              exact ⟨by rintro ⟨⟩, (hl.sheltered.append
                (.of_keyword (k := .AND) ⟨by decide, by decide⟩)).append hr.sheltered⟩
          case or =>
              exact ⟨by rintro ⟨⟩, (hl.sheltered.append
                (.of_keyword (k := .OR) ⟨by decide, by decide⟩)).append hr.sheltered⟩
          all_goals
            exact hwhole ((hl.append (.of_isPlain (List.forall_mem_singleton.mpr rfl))).append hr)
      | between q low high =>
          obtain ⟨hlow, hhigh⟩ := hbounded.here
          simp only [tokens] at hwhole ⊢
          exact hwhole (.between (henclose q List.mem_cons_self)
            (hquiet low (List.mem_cons_of_mem _ List.mem_cons_self) hlow)
            (hquiet high (List.mem_cons_of_mem _ (List.mem_cons_of_mem _ List.mem_cons_self)) hhigh))
      | choice arms =>
          have harms : ∀ as ⊆ arms, Sheltered interpret (as.flatMap fun a => a.1.tokens ++ a.2.tokens) := by
            intro as
            induction as with
            | nil => exact fun _ => Quiet.nil.sheltered
            | cons a as iha =>
                intro hsub
                have ha := List.cons_subset.mp hsub
                have hpart := List.mem_map_of_mem (f := Prod.snd) ha.1
                have hkeyword : Quiet interpret a.1.tokens :=
                  .of_isPlain (by cases a.1 <;> simp [Arm.tokens, Token.isPlain])
                rw [List.flatMap_cons]
                exact (hkeyword.sheltered.append
                  (ih a.2 hpart (hproper.part hpart) (hbounded.part hpart)).2).append (iha ha.2)
          simp only [tokens] at hwhole ⊢
          exact hwhole (.case (harms arms (List.Subset.refl arms)))

/-- No phrase but a subquery is a single group. -/
theorem eq_subquery_of_tokens {p : Phrase} {ts : List Token} (h : p.tokens = [.group ts]) :
  p = .subquery ts
  := by
  cases p with
  | subquery body =>
      simp only [tokens, List.cons.injEq, Token.group.injEq, and_true] at h
      rw [h]
  | atom cs =>
      simp only [tokens, List.cons.injEq, and_true, Token.ofWord] at h
      split at h <;> cases h
  | null q negated =>
      simp only [tokens] at h
      rcases List.append_eq_singleton_iff.mp h with ⟨hnil, _⟩ | ⟨_, hnil⟩
      · exact absurd hnil (enclose_ne_nil (tokens_ne_nil q))
      · cases negated <;> cases hnil
  | membership q _ _ | memberOf q _ _ | binary _ q _ | between q _ _ =>
      simp only [tokens, List.append_assoc] at h
      rcases List.append_eq_singleton_iff.mp h with ⟨hnil, _⟩ | ⟨_, hnil⟩
      · exact absurd hnil (enclose_ne_nil (tokens_ne_nil q))
      · simp at hnil
  | aggregate a q =>
      simp only [tokens] at h
      cases a <;> cases h
  | _ =>
      simp only [tokens] at h
      cases h

/-- A factor that is a whole phrase is interpreted. -/
theorem value_marked {p : Phrase} (hproper : p.ProperAt) :
  Reading.value interpret (marked interpret p.tokens) = interpret p.tokens
  := by
  have hfst : ∀ ts : List Token, (marked interpret ts).map Prod.fst = ts := by
    intro ts
    rw [marked, List.map_map]
    exact List.map_id ts
  unfold Reading.value
  split
  case h_1 t x hmarked =>
      obtain ⟨t', htokens, ht⟩ := List.map_eq_singleton_iff.mp hmarked
      obtain ⟨rfl, hinside⟩ := Prod.mk.inj ht
      cases t' with
      | group ts =>
          cases eq_subquery_of_tokens htokens
          rw [inside, if_pos (show selects ts from hproper.query)] at hinside
          cases hinside
      | _ => cases hinside
  case h_2 => rw [hfst]

/-- No phrase starts like a query. -/
theorem not_selects_tokens {p : Phrase} (hproper : p.All ProperAt) :
  selects p.tokens = false
  := by
  have hinner := inner_tokens (hproper.imp fun _ h => h.word)
  generalize p.tokens = ts at hinner
  unfold selects
  split
  case h_1 ts => cases hinner _ List.mem_cons_self
  case h_2 => rfl

end Phrase

/-- What tokens make of what the factors in front of them denote, back to the last `OR`, and of what
stands before that `OR`. -/
def Carries (interpret : List Token → α) (ts : List Token) (next : α × α → α × α) : Prop :=
  ∀ c d, ∃ c' factor, reads interpret ⟨0, 0, [], c, d⟩ ts = ⟨0, 0, factor, c', (next (c, d)).2⟩
    ∧ c' ⊓ Reading.value interpret factor = (next (c, d)).1

theorem Carries.denote_eq {ts : List Token} {next : α × α → α × α} (h : Carries interpret ts next) :
  denote interpret ts = (next (⊤, ⊥)).2 ⊔ (next (⊤, ⊥)).1
  := by
  obtain ⟨c, factor, hreads, hvalue⟩ := h ⊤ ⊥
  rw [denote, Reading.initial, hreads, Reading.result, hvalue]

/-- What is joined by `AND` is read one after the other. -/
theorem Carries.separated {parts : List (List Token)} {nexts : List (α × α → α × α)}
    (h : List.Forall₂ (Carries interpret) parts nexts) (hne : parts ≠ []) :
  Carries interpret (separated [.keyword .AND] parts) fun s => nexts.foldl (fun s next => next s) s
  := by
  induction h with
  | nil => exact absurd rfl hne
  | @cons ts next parts nexts hts hparts ih =>
      cases hparts with
      | nil => exact hts
      | @cons us next' parts nexts hus hparts =>
          intro c d
          obtain ⟨c', factor, hreads, hvalue⟩ := hts c d
          obtain ⟨c'', factor', hreads', hvalue'⟩ :=
            ih (List.cons_ne_nil _ _) (next (c, d)).1 (next (c, d)).2
          have hand : reads interpret ⟨0, 0, factor, c', (next (c, d)).2⟩ [.keyword .AND]
              = ⟨0, 0, [], (next (c, d)).1, (next (c, d)).2⟩ := by
            rw [← hvalue]
            rfl
          refine ⟨c'', factor', ?_, hvalue'⟩
          rw [Sql.separated, reads_append, reads_append, hreads, hand]
          · exact hreads'
          · exact nofun

/-- Tokens that are read as one more factor of a conjunction, or as several. -/
def Conjunct (interpret : List Token → α) (ts : List Token) (x : α) : Prop :=
  Carries interpret ts fun s => (s.1 ⊓ x, s.2)

theorem Conjunct.of_quiet {ts : List Token} (h : Quiet interpret ts) :
  Conjunct interpret ts (Reading.value interpret (marked interpret ts))
  := by
  intro c d
  exact ⟨c, marked interpret ts, h _, rfl⟩

theorem foldl_conjuncts (xs : List α) (s : α × α) :
  (xs.map fun x (s : α × α) => (s.1 ⊓ x, s.2)).foldl (fun s next => next s) s
    = (s.1 ⊓ xs.foldr (· ⊓ ·) ⊤, s.2)
  := by
  induction xs generalizing s with
  | nil => rw [List.map_nil, List.foldl_nil, List.foldr_nil, inf_top_eq]
  | cons x xs ih => rw [List.map_cons, List.foldl_cons, ih, List.foldr_cons, inf_assoc]

namespace Phrase

/-- The operand of `AND` or `OR` is read as what its phrase denotes. -/
theorem value_enclose {p : Phrase} (hproper : p.All ProperAt)
    (hdenote : denote interpret p.tokens = p.meaning interpret) :
  Reading.value interpret (marked interpret (p.enclose p.tokens)) = p.meaning interpret
  := by
  rw [enclose]
  split
  case isTrue =>
      rw [marked, List.map_singleton, inside, if_neg (by simp [not_selects_tokens hproper])]
      exact hdenote
  case isFalse hoperator =>
      rw [value_marked hproper.here]
      cases p <;> first | rfl | exact absurd rfl hoperator

/-- What a phrase makes of what stands in front of it: a disjunction takes it to its left side. -/
def join (interpret : List Token → α) : Phrase → α × α → α × α
  | .binary .or l r, s => (r.meaning interpret, s.2 ⊔ s.1 ⊓ l.meaning interpret)
  | p, s => (s.1 ⊓ p.meaning interpret, s.2)

/-- Whether a phrase is a disjunction. -/
def isDisjunction : Phrase → Bool
  | .binary .or _ _ => true
  | _ => false

omit [BoundedOrder α] in
theorem join_of_not_isDisjunction {p : Phrase} (h : p.isDisjunction = false) (s : α × α) :
  p.join interpret s = (s.1 ⊓ p.meaning interpret, s.2)
  := by
  cases p
  case binary op l r => cases op <;> first | rfl | cases h
  all_goals rfl

theorem sup_join (p : Phrase) :
  (p.join interpret (⊤, ⊥)).2 ⊔ (p.join interpret (⊤, ⊥)).1 = p.meaning interpret
  := by
  cases h : p.isDisjunction with
  | false => rw [join_of_not_isDisjunction h, top_inf_eq, bot_sup_eq]
  | true =>
      cases p
      case binary op l r =>
          cases op
          case or => rw [join, top_inf_eq, bot_sup_eq, meaning]
          all_goals cases h
      all_goals cases h

/-- The tokens of a phrase that is no conjunction and no disjunction are one factor. -/
theorem carries_of_not_isChain {p : Phrase} (hproper : p.All ProperAt) (hbounded : p.All BoundedAt)
    (hchain : p.isChain = false) :
  Carries interpret p.tokens (p.join interpret)
  := by
  have hleaf : p.meaning interpret = interpret p.tokens := by
    cases p
    case binary op l r => cases op <;> first | rfl | cases hchain
    all_goals rfl
  have hdisjunction : p.isDisjunction = false := by
    cases p
    case binary op l r => cases op <;> first | rfl | cases hchain
    all_goals rfl
  have hquiet : Quiet interpret p.tokens := (quiet_tokens hproper hbounded).1 hchain
  have hconjunct := Conjunct.of_quiet hquiet
  rw [value_marked hproper.here, ← hleaf] at hconjunct
  rw [show p.join interpret = _ from funext (join_of_not_isDisjunction hdisjunction)]
  exact hconjunct

/-- The tokens of a phrase are read as the phrase. -/
theorem carries_tokens {p : Phrase} (hproper : p.All ProperAt) (hbounded : p.All BoundedAt) :
  Carries interpret p.tokens (p.join interpret)
  := by
  induction p using induction with
  | h p ih =>
      cases hchain : p.isChain with
      | false => exact carries_of_not_isChain hproper hbounded hchain
      | true =>
          have hquiet : ∀ q ∈ p.parts, Quiet interpret (q.enclose q.tokens) := fun q hq =>
            quiet_enclose (quiet_tokens (hproper.part hq) (hbounded.part hq)).1
          have hvalue : ∀ q ∈ p.parts, Reading.value interpret (marked interpret (q.enclose q.tokens))
              = q.meaning interpret := fun q hq =>
            value_enclose (hproper.part hq)
              ((ih q hq (hproper.part hq) (hbounded.part hq)).denote_eq.trans (sup_join q))
          cases p
          case binary op l r =>
              have hl := hquiet l List.mem_cons_self
              have hr := hquiet r (List.mem_cons_of_mem _ List.mem_cons_self)
              have hleft := hvalue l List.mem_cons_self
              have hright := hvalue r (List.mem_cons_of_mem _ List.mem_cons_self)
              intro c d
              cases op
              case and =>
                  refine ⟨c ⊓ l.meaning interpret, marked interpret (r.enclose r.tokens), ?_, ?_⟩
                  · simp only [tokens, reads_append, hl _, ← hleft]
                    exact hr _
                  · rw [hright, inf_assoc]
                    rfl
              case or =>
                  refine ⟨⊤, marked interpret (r.enclose r.tokens), ?_, ?_⟩
                  · simp only [tokens, reads_append, hl _, join, ← hleft]
                    exact hr _
                  · rw [hright, top_inf_eq]
                    rfl
              all_goals cases hchain
          all_goals cases hchain

/-- The tokens of a phrase denote what the phrase does. -/
theorem denote_tokens {p : Phrase} (hproper : p.All ProperAt) (hbounded : p.All BoundedAt) :
  denote interpret p.tokens = p.meaning interpret
  := (carries_tokens hproper hbounded).denote_eq.trans (sup_join p)

/-- The tokens of a phrase that is no disjunction are read as factors of a conjunction. -/
theorem conjunct_tokens {p : Phrase} (hproper : p.All ProperAt) (hbounded : p.All BoundedAt)
    (h : p.isDisjunction = false) :
  Conjunct interpret p.tokens (p.meaning interpret)
  := by
  have hcarries : Carries interpret p.tokens (p.join interpret) := carries_tokens hproper hbounded
  rwa [show p.join interpret = _ from funext (join_of_not_isDisjunction h)] at hcarries

end Phrase

end Sql

end RelSql
