import Mathlib.Data.Fintype.Order
import RelSql.Proofs.Lexical.Queries
import RelSql.Proofs.Syntax.Conjunctions

/-!
# Predicates of clauses

A WHERE or HAVING clause denotes the conjunction of its predicates, for the disjunctions among them
stand in parentheses.  Those of an ON clause do not: the clause denotes the conjunction of its
predicates when none of them is a disjunction, or when there is one only, and otherwise each
disjunction takes what stands in front of it to its left side, back to the last one.
-/

namespace RelSql

open Text Sql

namespace Sql

variable {α : Type} [Lattice α] [BoundedOrder α] {interpret : List Token → α}

/-! ### Reading indented tokens -/

theorem selects_padAll (x : List Char) (ts : List Token) :
  selects (padAll x ts) = selects ts
  := by
  cases ts with
  | nil => rfl
  | cons t ts =>
      cases t
      case keyword k => cases k <;> rfl
      all_goals rfl

/-- The state of reading tokens of a text whose lines are moved by `x`. -/
def Reading.pad (x : List Char) (s : Reading α) : Reading α :=
  { s with factor := s.factor.map fun e => (e.1.pad x, e.2) }

theorem Reading.value_pad {α : Type} (interpret : List Token → α) (x : List Char) (factor : List (Token × Option α)) :
  value interpret (factor.map fun e => (e.1.pad x, e.2))
    = value (fun ts => interpret (padAll x ts)) factor
  := by
  have hwords : interpret ((factor.map fun e => (e.1.pad x, e.2)).map Prod.fst)
      = interpret (padAll x (factor.map Prod.fst)) := by
    rw [padAll_eq_map, List.map_map, List.map_map]
    rfl
  unfold value
  split
  case h_1 t y hfactor =>
      obtain ⟨e, rfl, he⟩ := List.map_eq_singleton_iff.mp hfactor
      obtain ⟨u, y'⟩ := e
      cases he
      rfl
  case h_2 hother =>
      split
      case h_1 t y => exact absurd rfl (hother _ _)
      case h_2 => exact hwords

omit [BoundedOrder α] in
theorem Reading.result_pad (interpret : List Token → α) (x : List Char) (s : Reading α) :
  (s.pad x).result interpret = s.result fun ts => interpret (padAll x ts)
  := by
  rw [result, result, ← value_pad]
  rfl

theorem Reading.goOn_pad {α : Type} (x : List Char) (s : Reading α) (t : Token) (y : Option α) :
  (s.pad x).goOn (t.pad x) y = (s.goOn t y).pad x
  := by
  simp only [goOn, pad, List.map_append, List.map_cons, List.map_nil]

theorem Reading.step_pad (interpret : List Token → α) (x : List Char) (s : Reading α) (t : Token) (y : Option α) :
  (s.pad x).step interpret (t.pad x) y = (s.step (fun ts => interpret (padAll x ts)) t y).pad x
  := by
  by_cases h : t.isPlain
  case pos =>
      have hplain : (t.pad x).isPlain := by
        cases t <;> exact h
      rw [step_of_isPlain h, step_of_isPlain hplain, goOn_pad]
  case neg =>
      cases t
      case keyword k =>
          have hresult := result_pad interpret x s
          have hvalue := value_pad interpret x s.factor
          have hgoOn := goOn_pad x s (.keyword k) y
          rw [Token.pad] at hgoOn ⊢
          cases k
          case CASE | END => simp only [step, hgoOn]; rfl
          case BETWEEN =>
              simp only [step, hgoOn, show (s.pad x).depth = s.depth from rfl]
              split <;> rfl
          case AND =>
              simp only [step, hgoOn, show (s.pad x).depth = s.depth from rfl,
                show (s.pad x).pending = s.pending from rfl,
                show (s.pad x).factor = s.factor.map fun e => (e.1.pad x, e.2) from rfl, hvalue]
              split
              · rfl
              · split <;> rfl
          case OR =>
              simp only [step, hgoOn, hresult, show (s.pad x).depth = s.depth from rfl]
              split <;> rfl
          all_goals exact absurd rfl h
      all_goals exact absurd rfl h

mutual

theorem inside_pad (interpret : List Token → α) (x : List Char) (t : Token) :
  inside interpret (t.pad x) = inside (fun ts => interpret (padAll x ts)) t
  := by
  cases t with
  | group ts =>
      have hreads := reads_pad interpret x ts .initial
      rw [show (Reading.initial : Reading α).pad x = .initial from rfl] at hreads
      rw [Token.pad, inside, inside, selects_padAll, hreads, Reading.result_pad]
  | _ => rfl

/-- Tokens of a text whose lines are moved are read as before, up to the words with newlines. -/
theorem reads_pad (interpret : List Token → α) (x : List Char) (ts : List Token) (s : Reading α) :
  reads interpret (s.pad x) (padAll x ts) = (reads (fun ts => interpret (padAll x ts)) s ts).pad x
  := by
  cases ts with
  | nil => rfl
  | cons t ts => rw [padAll, reads, reads, inside_pad interpret x t, Reading.step_pad,
      reads_pad interpret x ts]

end

theorem denote_pad (interpret : List Token → α) (x : List Char) (ts : List Token) :
  denote interpret (padAll x ts) = denote (fun ts => interpret (padAll x ts)) ts
  := by
  have hreads := reads_pad interpret x ts .initial
  rw [show (Reading.initial : Reading α).pad x = .initial from rfl] at hreads
  rw [denote, denote, hreads, Reading.result_pad]

/-! ### Phrases as they are laid out -/

namespace Phrase

theorem isChain_pad (x : List Char) (p : Phrase) :
  (p.pad x).isChain = p.isChain
  := by
  cases p with
  | binary op l r => cases op <;> simp only [pad, rebuild, padWord, isChain]
  | _ => simp only [pad, rebuild, padWord, isChain]

theorem isChain_laidOut (p : Phrase) :
  p.laidOut.isChain = p.isChain
  := by
  cases p with
  | binary op l r => cases op <;> simp only [laidOut, rebuild, layChoice, isChain]
  | _ => simp only [laidOut, rebuild, layChoice, isChain]

theorem isDisjunction_laidOut (p : Phrase) :
  p.laidOut.isDisjunction = p.isDisjunction
  := by
  cases p with
  | binary op l r => cases op <;> simp only [laidOut, rebuild, layChoice, isDisjunction]
  | _ => simp only [laidOut, rebuild, layChoice, isDisjunction]

theorem isInfix_of_isDisjunction {p : Phrase} (h : p.isDisjunction) :
  p.isInfix
  := by
  cases p <;> first | rfl | cases h

theorem boundedAt_pad (x : List Char) {p : Phrase} (h : p.BoundedAt) :
  (p.pad x).BoundedAt
  := by
  cases p with
  | between p low high =>
      simp only [pad, rebuild, padWord]
      exact ⟨(isChain_pad x low).trans h.1, (isChain_pad x high).trans h.2⟩
  | _ =>
      simp only [pad, rebuild, padWord]
      trivial

theorem boundedAt_laidOut {p : Phrase} (h : p.BoundedAt) :
  p.laidOut.BoundedAt
  := by
  cases p with
  | between p low high =>
      simp only [laidOut, rebuild, layChoice]
      exact ⟨(isChain_laidOut low).trans h.1, (isChain_laidOut high).trans h.2⟩
  | _ =>
      simp only [laidOut, rebuild, layChoice]
      trivial

theorem queryAt_pad (x : List Char) {p : Phrase} (h : p.QueryAt) :
  (p.pad x).QueryAt
  := by
  cases p with
  | subquery body =>
      simp only [pad, rebuild, padWord]
      exact (selects_padAll x body).trans h
  | _ =>
      simp only [pad, rebuild, padWord]
      trivial

theorem queryAt_laidOut {p : Phrase} (h : p.QueryAt) :
  p.laidOut.QueryAt
  := by
  cases p with
  | subquery body =>
      simp only [laidOut, rebuild, layChoice]
      exact h
  | _ =>
      simp only [laidOut, rebuild, layChoice]
      trivial

theorem all_boundedAt_laidOut {p : Phrase} (h : p.All BoundedAt) :
  p.laidOut.All BoundedAt
  := all_laidOut (P := BoundedAt) (fun _ => boundedAt_pad branchPad) (fun _ => boundedAt_laidOut) h

theorem all_properAt_laidOut {p : Phrase} (hworded : p.All WordedAt) (hquery : p.All QueryAt) :
  p.laidOut.All ProperAt
  := all_laidOut (P := ProperAt)
    (fun _ h => ⟨wordAt_pad branchPad h.word, queryAt_pad branchPad h.query⟩)
    (fun _ h => ⟨wordAt_laidOut h.word, queryAt_laidOut h.query⟩)
    ((hworded.and hquery).imp fun _ h => ⟨h.1.wordAt, h.2⟩)

/-- The conjunction of what phrases denote as they are laid out. -/
def conjunction (interpret : List Token → α) (ps : List Phrase) : α :=
  (ps.map fun p => p.laidOut.meaning interpret).foldr (· ⊓ ·) ⊤

theorem foldl_conjunction (ps : List Phrase) (s : α × α) :
  ps.foldl (fun s p => (s.1 ⊓ p.laidOut.meaning interpret, s.2)) s
    = (s.1 ⊓ conjunction interpret ps, s.2)
  := by
  rw [conjunction, ← foldl_conjuncts, List.map_map, List.foldl_map]
  rfl

/-- What phrases denote that are joined by `AND` without parentheses: a disjunction takes what stands
in front of it to its left side, back to the last one. -/
def sequence (interpret : List Token → α) (ps : List Phrase) : α :=
  let s := ps.foldl (fun s p => p.laidOut.join interpret s) (⊤, ⊥)
  s.2 ⊔ s.1

theorem sequence_singleton (p : Phrase) :
  sequence interpret [p] = conjunction interpret [p]
  := (sup_join p.laidOut).trans (inf_top_eq _).symm

/-- Without disjunctions the phrases denote their conjunction. -/
theorem sequence_of_not_isDisjunction {ps : List Phrase} (h : ∀ p ∈ ps, p.isDisjunction = false) :
  sequence interpret ps = conjunction interpret ps
  := by
  have hfold : ps.foldl (fun s p => p.laidOut.join interpret s) (⊤, ⊥)
      = (⊤ ⊓ conjunction interpret ps, ⊥) := by
    refine Eq.trans ?_ (foldl_conjunction ps (⊤, ⊥))
    exact List.foldl_ext _ _ _ fun s p hp =>
      join_of_not_isDisjunction ((isDisjunction_laidOut p).trans (h p hp)) s
  rw [sequence, hfold, top_inf_eq, bot_sup_eq]

end Phrase

end Sql

/-- Whether a node is a test for lying between two bounds. -/
def Node.isBetween : Node → Bool
  | .between _ _ _ => true
  | _ => false

namespace Render.View

variable {α : Type} [Lattice α] [BoundedOrder α] {interpret : List Token → α} {v : View}
  {id : NodeId} {p : Phrase} {text : String}

/-! ### Values -/

/-- The nested queries of a block start with `SELECT`. -/
def Selects (v : View) : Prop :=
  ∀ s ∈ v.nested, ∀ text, s.query () = .ok text → ∃ ts, Spells text (.keyword .SELECT :: ts)

/-- No bound of a test in a value of a block is a conjunction or a disjunction. -/
def Bounded (v : View) : Prop :=
  ∀ id ∈ v.values, ∀ p, v.phrase id = some p → p.All Phrase.BoundedAt

theorem selects_bodyTokens (hv : v.Selects) {s : Nested Delayed} (hs : s ∈ v.nested)
    {body : List Token} (h : v.bodyTokens? s = some body) :
  selects body
  := by
  rw [bodyTokens?] at h
  split at h
  case h_1 query hquery =>
      obtain ⟨ts, hts⟩ := hv s hs query hquery
      rw [tokens?_eq_some.mpr (hts.onLines _)] at h
      cases h
      rfl
  case h_2 => cases h

theorem phrase_queryAt (hv : v.Selects) (hp : v.phrase id = some p) :
  p.All Phrase.QueryAt
  := by
  refine phrase_all (fun _ => Phrase.of_signed (fun _ => trivial) (fun _ => trivial) _) ?_ hp
  intro below c q _ hnamed hq
  cases hq with
  | plain hnested hq =>
      cases hq
      case named hn _ => exact absurd hn (hnamed hnested _ _)
      case literal value _ =>
          exact of_literalPhrase (fun _ => trivial) (fun _ => trivial) (fun _ => trivial) value
      all_goals trivial
  | scalar hnested _ hbody => exact selects_bodyTokens hv (List.mem_of_find?_eq_some hnested) hbody
  | existence _ _ _ | memberOf _ _ _ _ _ => trivial

/-- Values over a graph without tests for lying between two bounds have none. -/
theorem bounded_of_all (h : v.graph.nodes.toList.all fun n => !n.isBetween) :
  v.Bounded
  := by
  intro id _ p hp
  refine phrase_all (fun _ => Phrase.of_signed (fun _ => trivial) (fun _ => trivial) _) ?_ hp
  intro below c q _ hnamed hq
  cases hq with
  | plain hnested hq =>
      cases hq
      case named hn _ => exact absurd hn (hnamed hnested _ _)
      case between hn _ _ _ =>
          have hnode := Graph.node_of_all rfl h c
          rw [hn] at hnode
          cases hnode
      case literal value _ =>
          exact of_literalPhrase (fun _ => trivial) (fun _ => trivial) (fun _ => trivial) value
      all_goals trivial
  | scalar _ _ _ | existence _ _ _ | memberOf _ _ _ _ _ => trivial

/-- A disjunction is the value of an `OR`. -/
theorem node_of_isDisjunction (hg : v.graph.WellFounded) (hp : v.phrase id = some p)
    (h : p.isDisjunction) :
  ∃ l r, v.graph.node (v.graph.unaliased id) = .binary .or l r
  := by
  obtain ⟨i⟩ := id
  induction i using Nat.strongRecOn with
  | ind i ih =>
      rw [phrase, NodeId.recurse_eq_below] at hp
      rw [Graph.unaliased_eq hg]
      cases forms_of_phraseStep hp with
      | plain hnested hforms =>
          cases hforms
          case named arg name hn hbelow =>
              split at hbelow
              case isTrue hlt =>
                  rw [hn]
                  exact ih arg.index hlt hbelow
              case isFalse => cases hbelow
          case operator op l r p q hn _ _ _ _ =>
              cases op
              case or =>
                  rw [hn]
                  exact ⟨l, r, hn⟩
              all_goals cases h
          case literal value _ =>
              have hinfix := Phrase.isInfix_of_isDisjunction h
              rw [isInfix_literalPhrase] at hinfix
              cases hinfix
          all_goals cases h
      | scalar _ _ _ | existence _ _ _ | memberOf _ _ _ _ _ => cases h

/-- The text of a value spells its phrase, as it is laid out. -/
theorem exists_phrase_of_value (hg : v.graph.WellFounded) (hv : v.Readable) (hselects : v.Selects)
    (hbounded : v.Bounded) (hid : id ∈ v.values) (h : v.value id = .ok text) :
  ∃ p, v.phrase id = some p ∧ Spells text p.laidOut.tokens ∧ p.laidOut.All Phrase.ProperAt
    ∧ p.laidOut.All Phrase.BoundedAt
  := by
  obtain ⟨p, hp, hsigned⟩ := hv.phrases id hid
  have hlegible := hv.legible id hid
  exact ⟨p, hp, value_spells hg hp h (phrase_readable hv.scope hlegible hp hsigned),
    Phrase.all_properAt_laidOut (phrase_worded hv.scope hlegible hp) (phrase_queryAt hselects hp),
    Phrase.all_boundedAt_laidOut (hbounded id hid p hp)⟩

/-- A predicate of a WHERE or HAVING clause is read as factors of a conjunction. -/
theorem conjunct_predicate (hg : v.graph.WellFounded) (hv : v.Readable) (hselects : v.Selects)
    (hbounded : v.Bounded) (hid : id ∈ v.values) (h : v.predicate id = .ok text) :
  ∃ p ts, v.phrase id = some p ∧ Spells text ts
    ∧ Conjunct interpret ts (p.laidOut.meaning interpret)
  := by
  rw [predicate] at h
  obtain ⟨inner, hinner, h⟩ := exists_of_bind_eq_ok h
  obtain ⟨p, hp, hspells, hproper, hbound⟩ :=
    exists_phrase_of_value hg hv hselects hbounded hid hinner
  split at h
  case h_1 =>
      cases h
      have hquiet : Quiet interpret [.group p.laidOut.tokens] :=
        .of_isPlain (List.forall_mem_singleton.mpr rfl)
      have hvalue : Reading.value interpret (marked interpret [.group p.laidOut.tokens])
          = p.laidOut.meaning interpret := by
        rw [marked, List.map_singleton, inside,
          if_neg (by simp [Phrase.not_selects_tokens hproper])]
        exact Phrase.denote_tokens hproper hbound
      exact ⟨p, _, hp, hspells.group, hvalue ▸ Conjunct.of_quiet hquiet⟩
  case h_2 hother =>
      cases h
      refine ⟨p, _, hp, hspells, Phrase.conjunct_tokens hproper hbound ?_⟩
      rw [Phrase.isDisjunction_laidOut, ← Bool.not_eq_true]
      intro hdisjunction
      obtain ⟨l, r, hn⟩ := node_of_isDisjunction hg hp hdisjunction
      exact hother l r hn

/-! ### Clauses -/

/-- Texts that are joined by `AND`, when it is known how each of them is read. -/
theorem exists_carries {f : NodeId → Result} (next : Phrase → α × α → α × α) {ids : List NodeId}
    (h : ∀ id ∈ ids, ∀ text, f id = .ok text →
      ∃ p ts, v.phrase id = some p ∧ Spells text ts ∧ Carries interpret ts (next p))
    {sep : String} (hsep : Spells sep [.keyword .AND]) (hstarts : starts sep) (hends : ends sep)
    {texts : List String} (htexts : ids.mapM f = .ok texts) (hne : ids ≠ []) :
  ∃ ps ts, ids.mapM v.phrase = some ps ∧ Spells (joinWith sep texts) ts
    ∧ Carries interpret ts fun s => ps.foldl (fun s p => next p s) s
  := by
  have hparts : ∃ ps parts, ids.mapM v.phrase = some ps ∧ List.Forall₂ Spells texts parts
      ∧ List.Forall₂ (Carries interpret) parts (ps.map next) ∧ (parts = [] → ids = []) := by
    clear hne
    induction ids generalizing texts with
    | nil =>
        cases htexts
        exact ⟨[], [], rfl, .nil, .nil, fun _ => rfl⟩
    | cons id ids ih =>
        rw [List.mapM_cons] at htexts
        obtain ⟨text, htext, htexts⟩ := exists_of_bind_eq_ok htexts
        obtain ⟨rest, hrest, htexts⟩ := exists_of_bind_eq_ok htexts
        cases htexts
        obtain ⟨hid, hids⟩ := List.forall_mem_cons.mp h
        obtain ⟨p, ts, hp, hts, hcarries⟩ := hid text htext
        obtain ⟨ps, parts, hps, hspells, hall, _⟩ := ih hids hrest
        exact ⟨p :: ps, ts :: parts, by rw [List.mapM_cons, hp, hps]; rfl, .cons hts hspells,
          .cons hcarries hall, nofun⟩
  obtain ⟨ps, parts, hps, hspells, hall, hnil⟩ := hparts
  refine ⟨ps, _, hps, .joinWith hsep hstarts hends hspells, ?_⟩
  have hcarries := Carries.separated hall fun hparts => hne (hnil hparts)
  simpa only [List.foldl_map] using hcarries

/-- The predicates of a WHERE or HAVING clause, behind its keyword, denote their conjunction. -/
theorem denote_predicates (hg : v.graph.WellFounded) (hv : v.Readable) (hselects : v.Selects)
    (hbounded : v.Bounded) (interpret : List Token → α) {ids : List NodeId}
    (hids : ∀ id ∈ ids, id ∈ v.values) (hne : ids ≠ []) {head sep : String} {k : Token}
    (hhead : Spells head [k]) (hend : ends head) (hsep : Spells sep [.keyword .AND])
    (hstarts : starts sep) (hends : ends sep) {lines : List String}
    (h : (if ids = [] then return [] else do return [head ++ joinWith sep (← v.predicates ids)])
      = Except.ok lines) :
  ∃ line ps ts, lines = [line] ∧ ids.mapM v.phrase = some ps ∧ Spells line (k :: ts)
    ∧ denote interpret ts = Phrase.conjunction interpret ps
  := by
  rw [if_neg hne] at h
  obtain ⟨texts, htexts, h⟩ := exists_of_bind_eq_ok h
  cases h
  obtain ⟨ps, ts, hps, hspells, hcarries⟩ := exists_carries
    (fun p s => (s.1 ⊓ p.laidOut.meaning interpret, s.2))
    (fun id hid text => conjunct_predicate hg hv hselects hbounded (hids id hid))
    hsep hstarts hends htexts hne
  refine ⟨_, ps, ts, rfl, hps, hhead.append_of_ends hspells hend, ?_⟩
  rw [hcarries.denote_eq, Phrase.foldl_conjunction, top_inf_eq, bot_sup_eq]

/-- The tokens of a text that is indented in a block. -/
def moved (v : View) (ts : List Token) : List Token :=
  padAll (List.replicate v.options.indent ' ') ts

/-- What the predicates of the clauses of a block are read as. -/
structure ReadsPredicates (v : View) (interpret : List Token → α) : Prop where
  /-- A WHERE clause denotes the conjunction of its predicates. -/
  filter : v.clauses.predicates ≠ [] → ∃ line ps ts, v.whereClause = .ok [line]
    ∧ v.clauses.predicates.mapM v.phrase = some ps
    ∧ Spells line (.word "WHERE".toList :: ts)
    ∧ denote interpret ts = Phrase.conjunction interpret ps
  /-- A HAVING clause denotes the conjunction of its predicates. -/
  having : v.clauses.having ≠ [] → ∃ line ps ts, v.havingClause = .ok [line]
    ∧ v.clauses.having.mapM v.phrase = some ps
    ∧ Spells line (.word "HAVING".toList :: ts)
    ∧ denote interpret ts = Phrase.conjunction interpret ps
  /-- An ON clause, on lines of its own, denotes what its predicates do without parentheses around
  them: their conjunction, if none of them is a disjunction or there is only one. -/
  on : ∀ t ∈ v.clauses.from?, ∀ c ∈ t.joins, c.predicates ≠ [] → ∃ head line ps ts,
    v.joinText c = .ok (head ++ "\n" ++ line)
    ∧ c.predicates.mapM v.phrase = some ps
    ∧ Spells line (.word "ON".toList :: v.moved ts)
    ∧ denote interpret (v.moved ts) = Phrase.sequence (fun ts => interpret (v.moved ts)) ps
    ∧ ((∀ p ∈ ps, p.isDisjunction = false) ∨ ps.length = 1 →
      denote interpret (v.moved ts) = Phrase.conjunction (fun ts => interpret (v.moved ts)) ps)

theorem readsPredicates_of_readable (hg : v.graph.WellFounded) (hv : v.Readable) (hselects : v.Selects)
    (hbounded : v.Bounded) (h : v.text = .ok text) (interpret : List Token → α) :
  v.ReadsPredicates interpret
  := by
  rw [View.text] at h
  obtain ⟨list, _, h⟩ := exists_of_bind_eq_ok h
  obtain ⟨source, hsource, h⟩ := exists_of_bind_eq_ok h
  obtain ⟨filter, hfilter, h⟩ := exists_of_bind_eq_ok h
  obtain ⟨having, hhaving, _⟩ := exists_of_bind_eq_ok h
  refine ⟨fun hne => ?_, fun hne => ?_, fun t ht c hc hne => ?_⟩
  · have hids : ∀ id ∈ v.clauses.predicates, id ∈ v.values := fun id hid =>
      List.mem_append_left _ (List.mem_append_left _ (List.mem_append_right _ hid))
    obtain ⟨line, ps, ts, rfl, hps, hspells, hdenote⟩ := denote_predicates hg hv hselects hbounded
      interpret hids hne (show Spells "WHERE " [.word "WHERE".toList] from rfl) rfl
      (show Spells " AND\n      " [.keyword .AND] from rfl) rfl rfl hfilter
    exact ⟨line, ps, ts, hfilter, hps, hspells, hdenote⟩
  · have hids : ∀ id ∈ v.clauses.having, id ∈ v.values := fun id hid =>
      List.mem_append_left _ (List.mem_append_right _ hid)
    obtain ⟨line, ps, ts, rfl, hps, hspells, hdenote⟩ := denote_predicates hg hv hselects hbounded
      interpret hids hne (show Spells "HAVING " [.word "HAVING".toList] from rfl) rfl
      (show Spells " AND\n       " [.keyword .AND] from rfl) rfl rfl hhaving
    exact ⟨line, ps, ts, hhaving, hps, hspells, hdenote⟩
  · have hids : ∀ id ∈ c.predicates, id ∈ v.values := by
      intro id hid
      simp only [values, List.mem_append, List.mem_flatMap]
      exact .inl (.inl (.inl (.inr ⟨t, Option.mem_toList.mpr ht, c, hc, hid⟩)))
    rw [fromClause, ht] at hsource
    obtain ⟨lines, hlines, _⟩ := exists_of_bind_eq_ok hsource
    rw [fromText] at hlines
    obtain ⟨first, _, hlines⟩ := exists_of_bind_eq_ok hlines
    obtain ⟨joins, hjoins, _⟩ := exists_of_bind_eq_ok hlines
    obtain ⟨join, hjoin⟩ := exists_of_mapM_eq_ok hjoins c hc
    have hwhole := hjoin
    rw [joinText] at hjoin
    obtain ⟨table, htable, hjoin⟩ := exists_of_bind_eq_ok hjoin
    rw [if_neg hne] at hjoin
    obtain ⟨texts, htexts, hjoin⟩ := exists_of_bind_eq_ok hjoin
    cases hjoin
    obtain ⟨ps, ts, hps, hspells, hcarries⟩ := exists_carries
      (fun p => p.laidOut.join fun ts => interpret (v.moved ts))
      (fun id hid text htext => by
        obtain ⟨p, hp, hspells, hproper, hbound⟩ :=
          exists_phrase_of_value hg hv hselects hbounded (hids id hid) htext
        exact ⟨p, _, hp, hspells, Phrase.carries_tokens hproper hbound⟩)
      (show Spells " AND\n   " [.keyword .AND] from rfl) rfl rfl htexts hne
    have hline := (Spells.append_of_ends (show Spells "ON " [.word "ON".toList] from rfl) hspells
      rfl).indent v.options.indent
    have hdenote : denote interpret (v.moved ts)
        = Phrase.sequence (fun ts => interpret (v.moved ts)) ps :=
      (denote_pad interpret _ ts).trans hcarries.denote_eq
    refine ⟨_, _, ps, ts, hwhole, hps, hline, hdenote, ?_⟩
    rintro (hnone | hone)
    · exact hdenote.trans (Phrase.sequence_of_not_isDisjunction hnone)
    · obtain ⟨p, rfl⟩ := List.length_eq_one_iff.mp hone
      exact hdenote.trans (Phrase.sequence_singleton p)

end Render.View

open Render

namespace Query

variable {g : Graph} {options : Render.Options} {c : Clauses} {nested : List (Nested Query)}
  {text : String}

/-- The predicates of the clauses of a block that is written are read: a WHERE or HAVING clause
denotes their conjunction, and so does an ON clause, if none of its predicates is a disjunction or
there is only one. -/
theorem clauses_read_predicates (hg : g.WellFounded)
    (hplaced : (Query.select c nested).Everywhere (Select.Placed g))
    (hlegible : (Query.select c nested).Everywhere (Select.Legible g options))
    (hbounded : (view g options ⟨c, nested⟩).Bounded)
    (h : (view g options ⟨c, nested⟩).text = .ok text) {α : Type} [Lattice α] [BoundedOrder α]
    (interpret : List Token → α) :
  (view g options ⟨c, nested⟩).ReadsPredicates interpret
  := by
  refine View.readsPredicates_of_readable hg (readable_select hg hplaced hlegible h) ?_ hbounded h interpret
  refine List.forall_mem_map.mpr fun s hs text htext => ?_
  exact spells_text hg ((everywhere_select.mp hplaced).2 s hs) ((everywhere_select.mp hlegible).2 s hs)
    htext

/-- Two tables that are joined on two predicates, and filtered by them. -/
def joinedOnChoice : Graph := ⟨#[
  .table ⟨some "t", none, ⟨[⟨"x", .int32⟩]⟩⟩,
  .table ⟨some "u", none, ⟨[⟨"x", .int32⟩]⟩⟩,
  .column ⟨0⟩ "x",
  .column ⟨1⟩ "x",
  .binary .eq ⟨2⟩ ⟨3⟩,
  .binary .lt ⟨2⟩ ⟨3⟩,
  .binary .or ⟨4⟩ ⟨5⟩,
  .join .inner ⟨0⟩ ⟨1⟩ [⟨5⟩, ⟨6⟩],
  .selection ⟨7⟩ [⟨5⟩, ⟨6⟩]]⟩

/-- The statement of the graph has a text, and its block has both predicates. -/
theorem joinedOnChoice_analyzed :
  ((joinedOnChoice.analyze ⟨8⟩).toOption.bind fun st =>
    match st.query with
    | .select c nested =>
      some ((view st.graph .default ⟨c, nested⟩).text.toOption.isSome,
        decide st.graph.WellFounded, st.graph.isLegible,
        st.graph.nodes.toList.all fun n => !n.isBetween, c.predicates)
    | _ => none) = some (true, true, true, true, [⟨5⟩, ⟨6⟩])
  := by decide

/-- Its WHERE clause denotes the conjunction of both, its ON clause a disjunction. -/
theorem clauses_read_predicates_joinedOnChoice :
  ∃ st c nested, joinedOnChoice.analyze ⟨8⟩ = .ok st ∧ st.query = .select c nested
    ∧ c.predicates = [⟨5⟩, ⟨6⟩]
    ∧ (view st.graph .default ⟨c, nested⟩).ReadsPredicates fun ts => Nat.beq ts.length 1
  := by
  obtain ⟨st, hst, hrun⟩ := Option.bind_eq_some_iff.mp joinedOnChoice_analyzed
  have hok := eq_ok_of_toOption hst
  split at hrun
  case h_2 => cases hrun
  case h_1 c nested hquery =>
      simp only [Option.some.injEq, Prod.mk.injEq, decide_eq_true_eq] at hrun
      obtain ⟨htext, hg, hlegible, hbetween, hpredicates⟩ := hrun
      obtain ⟨text, htext⟩ := Option.isSome_iff_exists.mp htext
      have hplaced := Graph.analyze_placed (by decide) (by decide) hok
      exact ⟨st, c, nested, hok, hquery, hpredicates, clauses_read_predicates hg
        (fun outer b hb => hplaced outer b (.inl (hquery ▸ hb)))
        (fun outer b _ => Graph.legible_of_isLegible hlegible _ b)
        (View.bounded_of_all hbetween) (eq_ok_of_toOption htext) _⟩

end Query

end RelSql
