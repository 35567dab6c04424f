import RelSql.Proofs.Block.Witnesses
import RelSql.Proofs.Graph.Chain
import RelSql.Proofs.Graph.Opened
import RelSql.Proofs.Lift.Terms

/-!
# Chosen rows

A predicate is satisfied by rows that are chosen for the tables that it reads openly.  A table with
filters above it has the rows of the table below them for which the filters hold.
-/

namespace RelSql

namespace Folding

variable {α : Type} {s : Folding} {g : Graph}

/-- The columns of a table that is not folded stay as they are. -/
theorem resolve_kept (hg : g.WellFounded) (A : Algebra α) {t : NodeId} (h : s.contains t = false) :
  (s.resolve .substitute A g t).column = A.column t
  := by
  funext name
  rw [Lift.resolve_column_eq hg, resolveColumn, h]
  rfl

/-- The columns of a filter that is folded resolve to those of the table below it. -/
theorem resolve_selection (hg : g.WellFounded) (A : Algebra α) {t u : NodeId}
    {predicates : List NodeId} (hn : g.node t = .selection u predicates)
    (h : s.contains t = true) :
  (s.resolve .substitute A g t).column = (s.resolve .substitute A g u).column
  := by
  funext name
  rw [Lift.resolve_column_eq hg, resolveColumn, h, hn]
  rfl

/-- The columns of filters that are folded resolve to those of the table below them. -/
theorem resolve_layers (hg : g.WellFounded) (A : Algebra α) (t : NodeId)
    (hchain : ∀ u ∈ (g.peel t).chain, s.contains u = true)
    (htable : s.contains (g.peel t).table = false) :
  ∀ u ∈ g.layers t, (s.resolve .substitute A g u).column = A.column (g.peel t).table
  := by
  revert hchain htable
  apply Graph.layers_induction hg (P := fun t => (∀ u ∈ (g.peel t).chain, s.contains u = true) →
    s.contains (g.peel t).table = false →
      ∀ u ∈ g.layers t, (s.resolve .substitute A g u).column = A.column (g.peel t).table)
  · intro t hpeel _ htable
    rw [hpeel] at htable
    rw [Graph.layers, hpeel]
    exact List.forall_mem_singleton.mpr (resolve_kept hg A htable)
  · intro t u predicates hn hlayers ih hchain htable
    rw [Graph.peel_selection hg hn] at hchain htable ⊢
    obtain ⟨ht, hchain⟩ := List.forall_mem_cons.mp hchain
    have hbelow := ih hchain htable
    rw [hlayers]
    refine List.forall_mem_cons.mpr ⟨?_, hbelow⟩
    rw [resolve_selection hg A hn ht]
    exact hbelow u (Graph.mem_layers_self hg u)

/-- The tables that a value reads are those that the columns that it reads resolve to. -/
theorem Lifts.exists_read (hg : g.WellFounded) {p l t : NodeId} (h : s.Lifts .substitute g p l)
    (ht : t ∈ g.tables l) :
  ∃ u ∈ g.tables p, ∃ name name',
    (t, name) ∈ (s.resolve .substitute .reads g u).column name'
  := by
  obtain ⟨name, hread⟩ := (Graph.mem_tables_iff hg h.target t).mp ht
  rw [h.denote] at hread
  have hp := h.source
  clear h ht
  obtain ⟨i⟩ := p
  induction i using Nat.strongRecOn with
  | ind i ih =>
      rw [resolve_value hg] at hread
      rcases (g.node ⟨i⟩).kinds with ⟨u, name', hn⟩ | ⟨u, hn⟩ | hn | hn
      · rw [Graph.denote_column hg _ hn] at hread
        refine ⟨u, ?_, name, name', hread⟩
        rw [Graph.mem_tables_iff hg hp, Graph.denote_column hg _ hn]
        exact ⟨name', List.mem_singleton_self _⟩
      · rw [Graph.denote_countStar hg _ hn] at hread
        exact absurd hread List.not_mem_nil
      · rw [Graph.denote_relation hg _ hn] at hread
        exact absurd hread List.not_mem_nil
      · rw [Graph.denote_operator hg _ hn] at hread
        obtain ⟨_, hpart, hmem⟩ := List.mem_flatten.mp hread
        obtain ⟨c, hc, rfl⟩ := List.mem_map.mp hpart
        rw [← resolve_value hg] at hmem
        obtain ⟨u, hu, hresolved⟩ := ih c.index (hg.child_lt hc) hmem (hg.has_child hp hc)
        exact ⟨u, (Graph.mem_tables_operator hg hp hn).mpr ⟨c, hc, hu⟩, hresolved⟩

end Folding

/-- A row of every table. -/
abbrev Choice (V : Type) := NodeId → String → V

/-- What operators make of their operands for chosen rows: of the values of those that they take
for these rows, and of what the others mean for rows of their own. -/
structure Semantics (V : Type) where
  null : V
  count : NodeId → V
  operator : Node → List V → List (Choice V → V) → V
  holds : V → Prop
  holds_and : ∀ v w, holds (operator (.binary .and ⟨0⟩ ⟨0⟩) [v, w] []) ↔ holds v ∧ holds w

namespace Semantics

variable {V : Type} (S : Semantics V) {g g' : Graph}

/-- The meaning of values for chosen rows. -/
def algebra : Algebra (Choice V → V) where
  column t name := fun σ => σ t name
  count t := fun _ => S.count t
  table _ := fun _ => S.null
  operator n parts := fun σ =>
    S.operator n ((n.split parts).1.map fun part => part σ) (n.split parts).2

/-- A predicate holds for chosen rows. -/
def Holds (g : Graph) (p : NodeId) (σ : Choice V) : Prop :=
  S.holds (g.denote S.algebra p σ)

theorem denote_operator (hg : g.WellFounded) {v : NodeId} (ho : (g.node v).isOperator = true)
    (σ : Choice V) :
  g.denote S.algebra v σ = S.operator (g.node v).shape
    ((g.parts v).1.map fun c => g.denote S.algebra c σ) ((g.parts v).2.map (g.denote S.algebra))
  := by
  rw [Graph.denote_operator hg _ ho]
  simp only [algebra, Node.split_shape, Node.split_map, List.map_map]
  rfl

theorem holds_extends (e : g.Extends g') (hg : g.WellFounded) (hg' : g'.WellFounded) {p : NodeId}
    (hp : g.Has p) (σ : Choice V) :
  S.Holds g' p σ ↔ S.Holds g p σ
  := by
  rw [Holds, Holds, e.denote_eq hg hg' hp]

/-- A predicate holds when its conjuncts do. -/
theorem holds_conjuncts (hg : g.WellFounded) (p : NodeId) (σ : Choice V) :
  S.Holds g p σ ↔ ∀ c ∈ Block.conjuncts g p, S.Holds g c σ
  := by
  apply Block.conjuncts_induction hg
    (P := fun p => S.Holds g p σ ↔ ∀ c ∈ Block.conjuncts g p, S.Holds g c σ)
  · intro p l r hn hsame hl hr
    have hparts : g.parts p = ([l, r], []) := by
      rw [Graph.parts, hn]
      rfl
    rw [hsame, List.forall_mem_append, ← hl, ← hr, Holds,
      S.denote_operator hg (by rw [hn]; rfl), hparts, hn]
    exact S.holds_and _ _
  · intro p hsame
    rw [hsame, List.forall_mem_singleton]

/-- What a value means depends on the rows of the tables that it reads openly. -/
theorem denote_of_agree (hg : g.WellFounded) {σ τ : Choice V} (v : NodeId)
    (h : ∀ t ∈ g.opened v, σ t = τ t) :
  g.denote S.algebra v σ = g.denote S.algebra v τ
  := by
  obtain ⟨i⟩ := v
  induction i using Nat.strongRecOn with
  | ind i ih =>
      rcases (g.node ⟨i⟩).kinds with ⟨t, name, hn⟩ | ⟨t, hn⟩ | hn | hn
      · rw [Graph.denote_column hg _ hn]
        have hread : t ∈ g.opened ⟨i⟩ := by
          rw [Graph.opened, Graph.denote_column hg _ hn]
          exact List.mem_singleton_self t
        exact congrFun (h t hread) name
      · rw [Graph.denote_countStar hg _ hn]
        rfl
      · rw [Graph.denote_relation hg _ hn]
        rfl
      · rw [S.denote_operator hg hn, S.denote_operator hg hn]
        congr 1
        apply List.map_congr_left
        intro c hc
        apply ih c.index (hg.child_lt (Graph.mem_children_iff.mpr (.inl hc)))
        exact fun t ht => h t ((Graph.mem_opened_operator hg hn).mpr ⟨c, hc, ht⟩)

theorem holds_of_agree (hg : g.WellFounded) {σ τ : Choice V} {p : NodeId}
    (h : ∀ t ∈ g.opened p, σ t = τ t) :
  S.Holds g p σ ↔ S.Holds g p τ
  := by
  rw [Holds, Holds, S.denote_of_agree hg p h]

/-- The rows that columns resolve to when rows are chosen. -/
def resolved (s : Folding) (g : Graph) (σ : Choice V) : Choice V :=
  fun t name => (s.resolve .substitute S.algebra g t).column name σ

/-- A value resolves to what it means for the rows that its columns resolve to, if the columns that
it reads for rows of their own stay as they are. -/
theorem resolve_value (hg : g.WellFounded) (s : Folding) (v : NodeId)
    (h : ∀ t ∈ g.enclosed v, ∀ name,
      (s.resolve .substitute S.algebra g t).column name = S.algebra.column t name)
    (σ : Choice V) :
  (s.resolve .substitute S.algebra g v).value σ = g.denote S.algebra v (S.resolved s g σ)
  := by
  rw [Folding.resolve_value hg]
  obtain ⟨i⟩ := v
  induction i using Nat.strongRecOn with
  | ind i ih =>
      rcases (g.node ⟨i⟩).kinds with ⟨t, name, hn⟩ | ⟨t, hn⟩ | hn | hn
      · rw [Graph.denote_column hg _ hn, Graph.denote_column hg _ hn]
        rfl
      · rw [Graph.denote_countStar hg _ hn, Graph.denote_countStar hg _ hn]
        rfl
      · rw [Graph.denote_relation hg _ hn, Graph.denote_relation hg _ hn]
        rfl
      · have hhere : ∀ c ∈ (g.parts ⟨i⟩).1,
            g.denote (s.resolving .substitute g S.algebra) c σ
              = g.denote S.algebra c (S.resolved s g σ) := by
          intro c hc
          apply ih c.index (hg.child_lt (Graph.mem_children_iff.mpr (.inl hc)))
          exact fun t ht => h t ((Graph.mem_enclosed_operator hg hn).mpr (.inl ⟨c, hc, ht⟩))
        have hinside : ∀ c ∈ (g.parts ⟨i⟩).2,
            g.denote (s.resolving .substitute g S.algebra) c = g.denote S.algebra c := by
          intro c hc
          refine Graph.denote_congr_scoped hg ?_ ?_ ?_ c fun t ht => ?_
          · rfl
          · rfl
          · rfl
          · exact h t ((Graph.mem_enclosed_operator hg hn).mpr (.inr ⟨c, hc, ht⟩))
        rw [S.denote_operator hg hn, ← List.map_congr_left hhere, ← List.map_congr_left hinside,
          Graph.denote_operator hg _ hn]
        simp only [Folding.resolving, algebra, Node.split_shape, Node.split_map, List.map_map]
        rfl

/-- The row of a table whose columns resolve to those of another one. -/
theorem resolved_eq {s : Folding} {t u : NodeId}
    (h : (s.resolve .substitute S.algebra g t).column = S.algebra.column u) (σ : Choice V) :
  S.resolved s g σ t = σ u
  := funext fun name => congrFun (congrFun h name) σ

end Semantics

namespace Graph

variable {g g' : Graph}

/-- A conjunct occurs in the conjunction. -/
theorem occurs_of_mem_conjuncts (hg : g.WellFounded) (q : NodeId) :
  ∀ p ∈ Block.conjuncts g q, g.Occurs q p
  := by
  apply Block.conjuncts_induction hg (P := fun q => ∀ p ∈ Block.conjuncts g q, g.Occurs q p)
  · intro q l r hn hsame hl hr
    have hoperator : (g.node q).isOperator = true := by
      rw [hn]
      rfl
    obtain ⟨hleft, hright⟩ := Block.children_and hn
    rw [hsame]
    exact List.forall_mem_append.mpr ⟨fun p hp => .operand hoperator hleft (hl p hp),
      fun p hp => .operand hoperator hright (hr p hp)⟩
  · intro q hsame
    rw [hsame]
    exact List.forall_mem_singleton.mpr (.refl q)

/-- A conjunct reads no more tables for rows of its own than the conjunction does. -/
theorem conjuncts_within (hg : g.WellFounded) (q : NodeId) :
  ∀ p ∈ Block.conjuncts g q, p.index ≤ q.index ∧ ∀ u ∈ g.enclosed p, u ∈ g.enclosed q
  := by
  apply Block.conjuncts_induction hg (P := fun q => ∀ p ∈ Block.conjuncts g q,
    p.index ≤ q.index ∧ ∀ u ∈ g.enclosed p, u ∈ g.enclosed q)
  · intro q l r hn hsame hl hr
    have hparts : g.parts q = ([l, r], []) := by
      rw [parts, hn]
      rfl
    have hup : ∀ c ∈ [l, r], ∀ p, (p.index ≤ c.index ∧ ∀ u ∈ g.enclosed p, u ∈ g.enclosed c) →
        p.index ≤ q.index ∧ ∀ u ∈ g.enclosed p, u ∈ g.enclosed q := by
      intro c hc p ⟨hle, henclosed⟩
      have hmem : c ∈ (g.parts q).1 := by
        rw [hparts]
        exact hc
      refine ⟨Nat.le_of_lt (Nat.lt_of_le_of_lt hle ?_), fun u hu => ?_⟩
      · exact hg.child_lt (mem_children_iff.mpr (.inl hmem))
      · rw [mem_enclosed_operator hg (by rw [hn]; rfl)]
        exact .inl ⟨c, hmem, henclosed u hu⟩
    rw [hsame]
    refine List.forall_mem_append.mpr ⟨fun p hp => hup l ?_ p (hl p hp),
      fun p hp => hup r ?_ p (hr p hp)⟩
    · exact List.mem_cons_self
    · exact List.mem_cons_of_mem l List.mem_cons_self
  · intro q hsame
    rw [hsame]
    exact List.forall_mem_singleton.mpr ⟨Nat.le_refl _, fun u hu => hu⟩

/-- The tables that a value reads and that no block around has. -/
def unbound (g : Graph) (scope : List (List NodeId)) (v : NodeId) : List NodeId :=
  (g.tables v).filter fun t => !scope.any (·.contains t)

theorem mem_unbound {scope : List (List NodeId)} {v t : NodeId} :
  t ∈ g.unbound scope v ↔ t ∈ g.tables v ∧ ∀ leaves ∈ scope, t ∉ leaves
  := by
  simp [unbound]

/-- In a predicate and in the filters above tables, no reduction and no subquery reads one of the
filters. -/
def Kept (g : Graph) (q : NodeId) (tables : List NodeId) : Prop :=
  ∀ t ∈ tables, ∀ u ∈ (g.peel t).chain, u ∉ g.enclosed q
    ∧ ∀ t' ∈ tables, ∀ p ∈ (g.peel t').predicates, u ∉ g.enclosed p

/-- The tables that a predicate reads and that no block around has do not touch one another: they
have no layers in common, with one another and with the blocks around, their filters read openly
nothing else, and no reduction and no subquery reads one of the filters. -/
structure Apart (g : Graph) (scope : List (List NodeId)) (q : NodeId) : Prop where
  disjoint : ∀ t ∈ g.unbound scope q, ∀ t' ∈ g.unbound scope q,
    ∀ u ∈ g.layers t, u ∈ g.layers t' → t = t'
  outside : ∀ t ∈ g.unbound scope q, ∀ u ∈ g.layers t, ∀ leaves ∈ scope, u ∉ leaves
  own : ∀ t ∈ g.unbound scope q, ∀ p ∈ (g.peel t).predicates, ∀ u ∈ g.opened p, u ∈ g.layers t
  kept : g.Kept q (g.unbound scope q)

/-- Tables without filters do not touch one another. -/
theorem apart_of_peel {scope : List (List NodeId)} {q : NodeId}
    (h : ∀ t ∈ g.unbound scope q, g.peel t = ⟨t, [], []⟩) :
  g.Apart scope q
  := by
  have hlayers : ∀ t ∈ g.unbound scope q, ∀ u ∈ g.layers t, u = t := by
    intro t ht u hu
    rw [layers, h t ht] at hu
    exact List.mem_singleton.mp hu
  refine ⟨?_, ?_, ?_, ?_⟩
  · exact fun t ht t' ht' u hu hu' => (hlayers t ht u hu).symm.trans (hlayers t' ht' u hu')
  · intro t ht u hu
    rw [hlayers t ht u hu]
    exact (mem_unbound.mp ht).2
  · intro t ht p hp
    rw [h t ht] at hp
    exact absurd hp List.not_mem_nil
  · intro t ht u hu
    rw [h t ht] at hu
    exact absurd hu List.not_mem_nil

end Graph

/-- The rows of each table. -/
abbrev Tables (V : Type) := NodeId → (String → V) → Prop

namespace Semantics

variable {V : Type} (S : Semantics V) {g : Graph} {D : Tables V} {σ τ : Choice V}

/-- A row has been chosen for a table: one of the table below its filters, for which they hold. -/
structure Gives (g : Graph) (D : Tables V) (τ : Choice V) (t : NodeId) : Prop where
  row : D (g.peel t).table (τ (g.peel t).table)
  same : ∀ u ∈ (g.peel t).chain, τ u = τ (g.peel t).table
  filters : ∀ p ∈ (g.peel t).predicates, S.Holds g p τ

/-- Some combination of rows of the tables satisfies a predicate, for the rows `σ` of all others. -/
def Satisfies (g : Graph) (D : Tables V) (tables : List NodeId) (q : NodeId) (σ : Choice V) :
    Prop :=
  ∃ τ, (∀ t ∈ tables, S.Gives g D τ t) ∧ (∀ u, (∀ t ∈ tables, u ∉ g.layers t) → τ u = σ u)
    ∧ S.Holds g q τ

variable {S}

/-- A row that is chosen for a table depends on the choice for the table only. -/
theorem Gives.congr (hg : g.WellFounded) {t : NodeId}
    (hown : ∀ p ∈ (g.peel t).predicates, ∀ u ∈ g.opened p, u ∈ g.layers t)
    (hsame : ∀ u ∈ g.layers t, τ u = σ u) (h : S.Gives g D τ t) :
  S.Gives g D σ t
  := by
  have htable : τ (g.peel t).table = σ (g.peel t).table :=
    hsame _ (g.table_mem_layers t)
  refine ⟨htable ▸ h.row, ?_, ?_⟩
  · intro u hu
    rw [← hsame u (List.mem_append_left _ hu), ← htable]
    exact h.same u hu
  · intro p hp
    apply (S.holds_of_agree hg fun u hu => hsame u (hown p hp u hu)).mp
    exact h.filters p hp

/-- Choices for tables that have no layers in common make one choice. -/
theorem exists_joined {P : NodeId → Prop}
    (hdisjoint : ∀ t, P t → ∀ t', P t' → ∀ u ∈ g.layers t, u ∈ g.layers t' → t = t')
    (row : NodeId → Choice V) (σ : Choice V) :
  ∃ τ : Choice V, (∀ t, P t → ∀ u ∈ g.layers t, row t u = τ u)
    ∧ ∀ u, (∀ t, P t → u ∉ g.layers t) → σ u = τ u
  := by
  classical
  let joined : Choice V := fun u =>
    if h : ∃ t, P t ∧ u ∈ g.layers t then row h.choose u else σ u
  refine ⟨joined, ?_, ?_⟩
  · intro t ht u hu
    have hex : ∃ t, P t ∧ u ∈ g.layers t := ⟨t, ht, hu⟩
    obtain ⟨hmem, hlayer⟩ := hex.choose_spec
    rw [show joined u = _ from dif_pos hex, ← hdisjoint t ht _ hmem u hu hlayer]
  · intro u hnone
    have hex : ¬ ∃ t, P t ∧ u ∈ g.layers t := fun ⟨t, ht, hu⟩ => hnone t ht hu
    rw [show joined u = _ from dif_neg hex]

/-- Rows of all tables that a predicate reads satisfy it just when there are rows of the tables
that it does not read openly, and rows of the others satisfy it. -/
theorem satisfies_iff_opened (hg : g.WellFounded) {scope : List (List NodeId)} {q : NodeId}
    (hq : g.Has q) (h : g.Apart scope q) :
  S.Satisfies g D (g.unbound scope q) q σ
    ↔ (∀ t ∈ g.unbound scope q, t ∉ g.opened q → ∃ τ, S.Gives g D τ t)
      ∧ S.Satisfies g D ((g.unbound scope q).filter (· ∈ g.opened q)) q σ
  := by
  have hself : ∀ t, t ∈ g.layers t := Graph.mem_layers_self hg
  have hclaimed : ∀ t, t ∈ (g.unbound scope q).filter (· ∈ g.opened q)
      ↔ t ∈ g.unbound scope q ∧ t ∈ g.opened q := by
    simp
  -- a table that is read openly is one of the tables, or a block around has it
  have hopened : ∀ u ∈ g.opened q, u ∈ g.unbound scope q
      ∨ ∀ t ∈ g.unbound scope q, u ∉ g.layers t := by
    intro u hu
    by_cases hbound : ∀ leaves ∈ scope, u ∉ leaves
    · left
      rw [Graph.mem_unbound, Graph.mem_tables_iff_opened hg hq]
      exact ⟨.inl hu, hbound⟩
    · exact .inr fun t ht hmem => hbound fun leaves hl => h.outside t ht u hmem leaves hl
  constructor
  · rintro ⟨τ, hgives, hothers, hholds⟩
    refine ⟨fun t ht _ => ⟨τ, hgives t ht⟩, ?_⟩
    obtain ⟨joined, hrow, hrest⟩ := exists_joined (g := g)
      (P := fun t => t ∈ g.unbound scope q ∧ t ∈ g.opened q)
      (fun t ht t' ht' => h.disjoint t ht.1 t' ht'.1) (fun _ => τ) σ
    refine ⟨joined, ?_, ?_, ?_⟩
    · intro t ht
      obtain ⟨hmem, hread⟩ := (hclaimed t).mp ht
      exact (hgives t hmem).congr hg (h.own t hmem) (hrow t ⟨hmem, hread⟩)
    · exact fun u hu => (hrest u fun t ht => hu t ((hclaimed t).mpr ht)).symm
    · apply (S.holds_of_agree hg _).mp hholds
      intro u hu
      rcases hopened u hu with hmem | houtside
      · exact hrow u ⟨hmem, hu⟩ u (hself u)
      · rw [hothers u houtside]
        exact hrest u fun t ht => houtside t ht.1
  · rintro ⟨hrows, τ, hgives, hothers, hholds⟩
    have hrows : ∀ t, ∃ τ, t ∈ g.unbound scope q ∧ t ∉ g.opened q → S.Gives g D τ t := by
      intro t
      by_cases ht : t ∈ g.unbound scope q ∧ t ∉ g.opened q
      · exact (hrows t ht.1 ht.2).imp fun _ h _ => h
      · exact ⟨σ, fun h => absurd h ht⟩
    choose row hgiven using hrows
    obtain ⟨joined, hrow, hrest⟩ := exists_joined (g := g)
      (P := fun t => t ∈ g.unbound scope q ∧ t ∉ g.opened q)
      (fun t ht t' ht' => h.disjoint t ht.1 t' ht'.1) row τ
    refine ⟨joined, ?_, ?_, ?_⟩
    · intro t ht
      by_cases hread : t ∈ g.opened q
      · apply (hgives t ((hclaimed t).mpr ⟨ht, hread⟩)).congr hg (h.own t ht)
        refine fun u hu => hrest u fun t' ht' hu' => ht'.2 ?_
        rw [← h.disjoint t ht t' ht'.1 u hu hu']
        exact hread
      · exact (hgiven t ⟨ht, hread⟩).congr hg (h.own t ht) (hrow t ⟨ht, hread⟩)
    · intro u hu
      rw [← hrest u fun t ht => hu t ht.1]
      exact hothers u fun t ht => hu t ((hclaimed t).mp ht).1
    · apply (S.holds_of_agree hg _).mp hholds
      refine fun u hu => hrest u fun t ht hmem => ?_
      rcases hopened u hu with hread | houtside
      · apply ht.2
        rw [h.disjoint t ht.1 u hread u hmem (hself u)]
        exact hu
      · exact houtside t ht.1 hmem

end Semantics

end RelSql
