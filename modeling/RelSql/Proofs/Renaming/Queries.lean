import RelSql.Proofs.Renaming.Values
import RelSql.Proofs.Statement.Query

/-!
# Similar queries

Two queries are similar when they are the same but for their handles, and their handles are
related.  What is computed by recursion on similar queries is related when what is computed for
a block is.
-/

namespace RelSql

open List Relator

/-- One value to sort by, in one direction. -/
abbrev SortKey.Similar (R : Matching) (k k' : SortKey) : Prop :=
  R k.expr k'.expr ∧ k.ascending = k'.ascending

structure JoinClause.Similar (R : Matching) (c c' : JoinClause) : Prop where
  kind : c.kind = c'.kind
  table : R c.table c'.table
  predicates : Forall₂ R c.predicates c'.predicates

structure TableSet.Similar (R : Matching) (t t' : TableSet) : Prop where
  node : R t.node t'.node
  first : R t.first t'.first
  joins : Forall₂ (JoinClause.Similar R) t.joins t'.joins

/-- The same aliases of related tables. -/
structure Frame.Similar (R : Matching) (f f' : Frame) : Prop where
  aliases : Forall₂ (fun p q => R p.1 q.1 ∧ p.2 = q.2) f.aliases f'.aliases
  counter : f.counter = f'.counter
  alwaysAlias : f.alwaysAlias = f'.alwaysAlias
  shared : f.shared = f'.shared

structure AliasScope.Similar (R : Matching) (s s' : AliasScope) : Prop where
  frame : s.frame.Similar R s'.frame
  outer : Forall₂ (Frame.Similar R) s.outer s'.outer

/-- The same clauses on related values and tables. -/
structure Clauses.Similar (R : Matching) (c c' : Clauses) : Prop where
  node : R c.node c'.node
  outputs : Forall₂ R c.outputs c'.outputs
  select : Forall₂ R c.select c'.select
  from? : Option.Rel (TableSet.Similar R) c.from? c'.from?
  predicates : Forall₂ R c.predicates c'.predicates
  groupBy : c.groupBy = c'.groupBy
  having : Forall₂ R c.having c'.having
  orderBy : Forall₂ (SortKey.Similar R) c.orderBy c'.orderBy
  limit : c.limit = c'.limit
  distinct : c.distinct = c'.distinct
  forceAliases : c.forceAliases = c'.forceAliases
  scope : c.scope.Similar R c'.scope

/-- Nested queries that stand for related nodes, for the same reason. -/
structure Nested.Similar {Q Q' : Type} (R : Matching) (P : Q → Q' → Prop) (s : Nested Q)
    (s' : Nested Q') : Prop where
  node : R s.node s'.node
  kind : s.kind = s'.kind
  shared : s.shared = s'.shared
  query : P s.query s'.query

/-- The same blocks, nested and joined in the same way, on related values and tables. -/
def Query.Similar (R : Matching) : Query → Query → Prop :=
  Query.fold
    (fun c nested q => ∃ c' nested', q = .select c' nested' ∧ c.Similar R c'
      ∧ Forall₂ (Nested.Similar R fun similar q' => similar q') nested nested')
    (fun l r distinct q => ∃ l' r', q = .union l' r' distinct ∧ l l' ∧ r r')

/-! ### Larger relations -/

section

variable {R S : Matching}

theorem JoinClause.Similar.mono {c c' : JoinClause} (h : c.Similar R c') (hRS : R ≤ S) :
  c.Similar S c'
  := ⟨h.kind, hRS _ _ h.table, h.predicates.imp hRS⟩

theorem TableSet.Similar.mono {t t' : TableSet} (h : t.Similar R t') (hRS : R ≤ S) :
  t.Similar S t'
  := ⟨hRS _ _ h.node, hRS _ _ h.first, h.joins.imp fun _ _ hc => hc.mono hRS⟩

theorem Frame.Similar.mono {f f' : Frame} (h : f.Similar R f') (hRS : R ≤ S) :
  f.Similar S f'
  := ⟨h.aliases.imp fun _ _ hp => ⟨hRS _ _ hp.1, hp.2⟩, h.counter, h.alwaysAlias, h.shared⟩

theorem AliasScope.Similar.mono {s s' : AliasScope} (h : s.Similar R s') (hRS : R ≤ S) :
  s.Similar S s'
  := ⟨h.frame.mono hRS, h.outer.imp fun _ _ hf => hf.mono hRS⟩

theorem Clauses.Similar.mono {c c' : Clauses} (h : c.Similar R c') (hRS : R ≤ S) :
  c.Similar S c'
  := ⟨hRS _ _ h.node, h.outputs.imp hRS, h.select.imp hRS,
    option_imp h.from? fun _ _ ht => ht.mono hRS, h.predicates.imp hRS, h.groupBy,
    h.having.imp hRS, h.orderBy.imp fun _ _ hk => ⟨hRS _ _ hk.1, hk.2⟩, h.limit, h.distinct,
    h.forceAliases, h.scope.mono hRS⟩

theorem Nested.Similar.imp {Q Q' : Type} {P P' : Q → Q' → Prop} {s : Nested Q} {s' : Nested Q'}
    (h : s.Similar R P s') (hRS : R ≤ S) (hP : P s.query s'.query → P' s.query s'.query) :
  s.Similar S P' s'
  := ⟨hRS _ _ h.node, h.kind, h.shared, hP h.query⟩

end

/-! ### The recursion on similar queries -/

namespace Query

variable {R S : Matching} {q q' : Query}

theorem similar_select {c : Clauses} {nested : List (Nested Query)} :
  (Query.select c nested).Similar R q' ↔ ∃ c' nested', q' = .select c' nested'
    ∧ c.Similar R c' ∧ Forall₂ (Nested.Similar R (Query.Similar R)) nested nested'
  := by
  rw [Query.Similar, fold_select]
  simp only [forall₂_map_left_iff]
  constructor
  all_goals
    rintro ⟨c', nested', rfl, hc, hnested⟩
    refine ⟨c', nested', rfl, hc, hnested.imp ?_⟩
    exact fun _ _ h => ⟨h.node, h.kind, h.shared, h.query⟩

theorem similar_union {l r : Query} {distinct : Bool} :
  (Query.union l r distinct).Similar R q' ↔ ∃ l' r', q' = .union l' r' distinct
    ∧ l.Similar R l' ∧ r.Similar R r'
  := Iff.rfl

theorem Similar.select {c c' : Clauses} {nested nested' : List (Nested Query)}
    (hc : c.Similar R c') (hnested : Forall₂ (Nested.Similar R (Query.Similar R)) nested nested') :
  (Query.select c nested).Similar R (.select c' nested')
  := similar_select.mpr ⟨c', nested', rfl, hc, hnested⟩

theorem Similar.union {l l' r r' : Query} (distinct : Bool) (hl : l.Similar R l')
    (hr : r.Similar R r') :
  (Query.union l r distinct).Similar R (.union l' r' distinct)
  := similar_union.mpr ⟨l', r', rfl, hl, hr⟩

/-- Induction on two similar queries. -/
theorem Similar.induct {P : Query → Query → Prop}
    (select : ∀ c c' nested nested', c.Similar R c' →
      Forall₂ (Nested.Similar R fun q q' => q.Similar R q' ∧ P q q') nested nested' →
      P (.select c nested) (.select c' nested'))
    (union : ∀ l l' r r' distinct, l.Similar R l' → r.Similar R r' → P l l' → P r r' →
      P (.union l r distinct) (.union l' r' distinct)) (h : q.Similar R q') :
  P q q'
  := by
  induction q using Query.induction generalizing q' with
  | select c nested ih =>
      obtain ⟨c', nested', rfl, hc, hnested⟩ := similar_select.mp h
      apply select c c' nested nested' hc
      apply forall₂_mem hnested
      intro s hs s' _ hss
      exact hss.imp (le_refl R) fun hq => ⟨hq, ih s hs hq⟩
  | union l r distinct ihl ihr =>
      obtain ⟨l', r', rfl, hl, hr⟩ := similar_union.mp h
      exact union l l' r r' distinct hl hr (ihl hl) (ihr hr)

theorem Similar.mono (h : q.Similar R q') (hRS : R ≤ S) :
  q.Similar S q'
  := by
  apply h.induct (P := Query.Similar S)
  · intro c c' nested nested' hc hnested
    exact .select (hc.mono hRS) (hnested.imp fun _ _ hs => hs.imp hRS And.right)
  · intro l l' r r' distinct _ _ hl hr
    exact .union distinct hl hr

/-- What is computed by recursion on similar queries is related. -/
theorem Similar.fold {α β : Type} {P : α → β → Prop} {select : Clauses → List (Nested α) → α}
    {select' : Clauses → List (Nested β) → β} {union : α → α → Bool → α}
    {union' : β → β → Bool → β} (h : q.Similar R q')
    (hselect : ∀ c c' nested nested', c.Similar R c' →
      Forall₂ (Nested.Similar R P) nested nested' → P (select c nested) (select' c' nested'))
    (hunion : ∀ l l' r r' distinct, P l l' → P r r' →
      P (union l r distinct) (union' l' r' distinct)) :
  P (q.fold select union) (q'.fold select' union')
  := by
  apply h.induct (P := fun q q' => P (q.fold select union) (q'.fold select' union'))
  · intro c c' nested nested' hc hnested
    rw [fold_select, fold_select]
    apply hselect c c' _ _ hc
    apply rel_map _ hnested
    exact fun _ _ hs => ⟨hs.node, hs.kind, hs.shared, hs.query.2⟩
  · intro l l' r r' distinct _ _ hl hr
    exact hunion _ _ _ _ distinct hl hr

end Query

/-! ### Tables and nested queries -/

section

variable {R : Matching} {i j : NodeId}

theorem TableSet.Similar.leaves {t t' : TableSet} (h : t.Similar R t') :
  Forall₂ R t.leaves t'.leaves
  := .cons h.first (rel_map (fun _ _ hc => hc.table) h.joins)

theorem Clauses.Similar.leaves {c c' : Clauses} (h : c.Similar R c') :
  Forall₂ R c.leaves c'.leaves
  := by
  have hfrom := h.from?
  rw [Clauses.leaves, Clauses.leaves]
  generalize c.from? = x at hfrom
  generalize c'.from? = y at hfrom
  cases hfrom with
  | some ht => exact ht.leaves
  | none => exact .nil

variable {Q Q' : Type} {P : Q → Q' → Prop} {nested : List (Nested Q)} {nested' : List (Nested Q')}

/-- The nested queries that stand for related nodes are similar. -/
theorem nestedFor?_related (hR : BiUnique R) (h : Forall₂ (Nested.Similar R P) nested nested')
    (hij : R i j) :
  Option.Rel (Nested.Similar R P) (nestedFor? nested i) (nestedFor? nested' j)
  := by
  apply find?_related _ _ h
  intro s s' hs
  have hiff : s.node = i ↔ s'.node = j := rel_eq hR hs.node hij
  simp only [hiff]

theorem derivedFor?_related (hR : BiUnique R) (h : Forall₂ (Nested.Similar R P) nested nested')
    (hij : R i j) :
  Option.Rel (Nested.Similar R P) (derivedFor? nested i) (derivedFor? nested' j)
  := by
  apply find?_related _ _ h
  intro s s' hs
  have hiff : s.node = i ↔ s'.node = j := rel_eq hR hs.node hij
  simp only [hiff, hs.kind]

end

end RelSql
