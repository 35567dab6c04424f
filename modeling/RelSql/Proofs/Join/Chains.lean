import RelSql.Proofs.Block.SemiJoins
import RelSql.Proofs.Join.Hoisting

/-!
# Joins that are put together again

The joins of a FROM clause are put together again, after selections have been taken off their
operands.  The join tree of what comes out has the same tables and conditions, and nothing is taken
off any more, unless a join that is no inner join is written as a cross join.  So the rows of it are
those of the FROM clause, in which no operand is filtered.
-/

namespace RelSql

/-! ## Rows of a FROM clause -/

section

variable {R V : Type} (D : Contents R)

namespace Contents

/-- The rows of which a predicate holds are those for which its meaning does. -/
def ofMeaning (rows : NodeId → List R) (holds : V → Bool) (meaning : NodeId → JoinedRow R → V) :
    Contents R :=
  ⟨rows, fun p row => holds (meaning p row)⟩

/-- Joined rows of some width with the rows of one more table for each join clause. -/
def joinAll : Nat → List (JoinedRow R) → List JoinClause → List (JoinedRow R)
  | _, ls, [] => ls
  | width, ls, c :: rest =>
    joinAll (width + 1)
      (c.kind.rows (fun row r => D.holdAll c.predicates (row ++ [some r])) width ls
        (D.rows c.table)) rest

/-- The rows of a FROM clause. -/
def joined (first : NodeId) (joins : List JoinClause) : List (JoinedRow R) :=
  D.joinAll 1 ((D.rows first).map fun r => [some r]) joins

attribute [local simp] joinAll

theorem joinAll_append (more : List JoinClause) (joins : List JoinClause) (width : Nat)
    (ls : List (JoinedRow R)) :
  D.joinAll width ls (joins ++ more)
    = D.joinAll (width + joins.length) (D.joinAll width ls joins) more
  := by
  induction joins generalizing width ls with
  | nil => rfl
  | cons c rest ih => simp [ih, Nat.add_assoc, Nat.add_comm 1]

/-- Join clauses join the same rows when their conditions hold of the same ones. -/
theorem joinAll_congr {D' : Contents R} (hrows : D'.rows = D.rows) {joins joins' : List JoinClause}
    (h : List.Forall₂ (fun c c' => c'.kind = c.kind ∧ c'.table = c.table
      ∧ ∀ row, D'.holdAll c'.predicates row = D.holdAll c.predicates row) joins joins')
    (width : Nat) (ls : List (JoinedRow R)) :
  D'.joinAll width ls joins' = D.joinAll width ls joins
  := by
  induction h generalizing width ls with
  | nil => rfl
  | cons hc _ ih =>
      obtain ⟨hkind, htable, hholds⟩ := hc
      simp [hkind, htable, hrows, hholds, ih]

end Contents

/-- The joined rows of a tree are those of its FROM clause. -/
theorem JoinTree.joinedRows_eq (tree : JoinTree) :
  tree.joinedRows D = D.joined tree.first tree.clauses
  := by
  have hwidth : ∀ tree : JoinTree, tree.width = 1 + tree.clauses.length := by
    intro tree
    induction tree with
    | table t => rfl
    | join node kind predicates left l r ih =>
        rw [width, clauses, List.length_append, List.length_singleton, ih, Nat.add_assoc]
  induction tree with
  | table t => rfl
  | join node kind predicates left l r ih =>
      rw [joinedRows, first, clauses, Contents.joined, Contents.joinAll_append, ← Contents.joined,
        ← ih, ← hwidth left]
      rfl

end

section

variable {R V : Type} {g : Graph} {s : Folding} {joins joins' : List JoinClause}

/-- A join clause whose conditions have the meanings of those of another one. -/
structure JoinClause.SameMeaning {α : Type} (meaning meaning' : NodeId → α) (c c' : JoinClause) :
    Prop where
  kind : c'.kind = c.kind
  table : c'.table = c.table
  predicates : List.Forall₂ (fun p p' => meaning' p' = meaning p) c.predicates c'.predicates

/-- The rows of a FROM clause depend on what its conditions mean. -/
theorem Contents.joined_congr {meaning meaning' : NodeId → JoinedRow R → V}
    (h : List.Forall₂ (JoinClause.SameMeaning meaning meaning') joins joins')
    (rows : NodeId → List R) (holds : V → Bool) (first : NodeId) :
  (Contents.ofMeaning rows holds meaning').joined first joins'
    = (Contents.ofMeaning rows holds meaning).joined first joins
  := by
  have hrows : (ofMeaning rows holds meaning').rows = (ofMeaning rows holds meaning).rows := rfl
  refine joinAll_congr (ofMeaning rows holds meaning) hrows ?_ 1 _
  refine h.imp fun c c' hc => ⟨hc.kind, hc.table, fun row => ?_⟩
  have hpredicates := hc.predicates
  generalize c.predicates = predicates, c'.predicates = predicates' at hpredicates ⊢
  induction hpredicates with
  | nil => rfl
  | cons hp _ ih =>
      simp only [holdAll, ofMeaning] at ih
      simp only [holdAll, ofMeaning, List.all_cons, hp, ih]

/-- Lifted conditions mean what the conditions do, read through the operators that are folded. -/
theorem JoinClause.sameMeaning_of_lifts {α : Type} (A : Algebra α)
    (h : List.Forall₂ (JoinClause.Lifts s g) joins joins') :
  List.Forall₂ (JoinClause.SameMeaning (fun p => (s.resolve .substitute A g p).value) (g.denote A))
    joins joins'
  := h.imp fun _ _ hc => ⟨hc.kind, hc.table, hc.predicates.imp fun _ _ hl => hl.denote A⟩

/-- A join has as many conditions when they are lifted, so that it is still a cross join if it has
none. -/
theorem JoinClause.Lifts.cross {c c' : JoinClause} (h : c.Lifts s g c')
    (hcross : c.predicates = [] → c.kind = .cross) (hnil : c'.predicates = []) :
  c'.kind = .cross
  := by
  rw [h.kind]
  apply hcross
  exact List.length_eq_zero_iff.mp (h.predicates.length_eq.trans (congrArg List.length hnil))

end

/-! ## Trees of joins that are put together again -/

namespace Graph

variable {g : Graph} {t n joined : NodeId} {bound : Nat} {joins more : List JoinClause}

/-- Nothing is taken off a table that is not a selection. -/
theorem operand_of_selectionInput (hg : g.WellFounded) (hn : selectionInput? (g.node t) = none)
    (hoist left : Bool) :
  g.operand t hoist left = ⟨t, [], []⟩
  := by
  rw [operand, takesOff, peel_other hg hn]
  simp

/-- Nothing is taken off twice. -/
theorem operand_operand (hg : g.WellFounded) (t : NodeId) (hoist left : Bool) :
  g.operand (g.operand t hoist left).table hoist left = ⟨(g.operand t hoist left).table, [], []⟩
  := by
  cases htaken : g.takesOff t hoist left with
  | true =>
      have htable : (g.operand t hoist left).table = (g.peel t).table := by
        rw [operand, if_pos htaken]
      rw [htable]
      exact operand_of_selectionInput hg (hg.peel_table t) hoist left
  | false =>
      have hkept : g.operand t hoist left = ⟨t, [], []⟩ := by
        rw [operand, if_neg (by rw [htaken]; exact Bool.false_ne_true)]
      rw [hkept, hkept]

/-- Nothing is taken off the tables of join clauses, and only cross joins have no conditions. -/
def Bare (g : Graph) (joins : List JoinClause) : Prop :=
  ∀ c ∈ joins, g.operand c.table (c.kind.preservesFilters false) false = ⟨c.table, [], []⟩
    ∧ (c.predicates = [] → c.kind = .cross)

/-- Nothing is taken off the first table of a FROM clause. -/
def BareFirst (g : Graph) (first : NodeId) (joins : List JoinClause) : Prop :=
  ∀ c ∈ joins.head?, g.operand first (c.kind.preservesFilters true) true = ⟨first, [], []⟩

/-- Lifting conditions has no effect on what is taken off tables. -/
theorem Bare.lifts {s : Folding} {joins' : List JoinClause}
    (h : List.Forall₂ (JoinClause.Lifts s g) joins joins') (hbare : g.Bare joins) :
  g.Bare joins'
  := by
  intro c' hc'
  obtain ⟨c, hc, hlifts⟩ := forall₂_exists h.flip c' hc'
  obtain ⟨htable, hcross⟩ := hbare c hc
  refine ⟨?_, hlifts.cross hcross⟩
  rw [hlifts.kind, hlifts.table]
  exact htable

theorem BareFirst.lifts {s : Folding} {joins' : List JoinClause}
    (h : List.Forall₂ (JoinClause.Lifts s g) joins joins') (hbare : g.BareFirst t joins) :
  g.BareFirst t joins'
  := by
  cases h with
  | nil => exact hbare
  | cons hc _ =>
      intro c' hc'
      obtain rfl := Option.some.inj hc'
      rw [hc.kind]
      exact hbare _ rfl

/-- Joins one after the other. -/
theorem Chained.append {last : NodeId} (h : g.Chained bound t joins joined)
    (h' : g.Chained bound joined more last) :
  g.Chained bound t (joins ++ more) last
  := by
  induction h with
  | nil first => exact h'
  | cons hn hnext _ ih => exact .cons hn hnext (ih h')

/-- The table that comes out of joins is a join, or the first table. -/
theorem Chained.isJoin_or (h : g.Chained bound t joins joined) :
  joins = [] ∧ joined = t ∨ g.isJoin joined = true ∧ bound ≤ joined.index
  := by
  induction h with
  | nil first => exact .inl ⟨rfl, rfl⟩
  | cons hn hnext _ ih =>
      rcases ih with ⟨_, rfl⟩ | hjoin
      · exact .inr ⟨by rw [isJoin, hn], hnext⟩
      · exact .inr hjoin

/-- The join tree of joins that are put together over a table continues that of the table, if
nothing is taken off.  The joins that it folds come after the bound. -/
structure Continues (g : Graph) (bound : Nat) (t : NodeId) (joins : List JoinClause)
    (joined : NodeId) : Prop where
  first : (g.joinTree joined).first = (g.joinTree t).first
  clauses : (g.joinTree joined).clauses = (g.joinTree t).clauses ++ joins
  hoisted : (g.joinTree joined).hoisted = (g.joinTree t).hoisted
  folded : ∀ u ∈ (g.joinTree joined).folded,
    u ∈ (g.joinTree t).folded ∨ g.isJoin u = true ∧ bound ≤ u.index

theorem Chained.continues (hg : g.WellFounded) (h : g.Chained bound t joins joined)
    (hbare : g.Bare joins) (hfirst : g.BareFirst t joins) :
  g.Continues bound t joins joined
  := by
  induction h with
  | nil first => exact ⟨rfl, (List.append_nil _).symm, rfl, fun u hu => .inl hu⟩
  | @cons first next joined c rest hn hnext _ ih =>
      obtain ⟨⟨hoperand, hcross⟩, hrest⟩ := List.forall_mem_cons.mp hbare
      have hnode : ∀ c' ∈ rest.head?,
          g.operand next (c'.kind.preservesFilters true) true = ⟨next, [], []⟩ := by
        intro c' _
        apply operand_of_selectionInput hg
        rw [hn]
        rfl
      have htree : g.joinTree next = .join next c.kind c.predicates (g.joinTree first)
          ⟨first, [], []⟩ ⟨c.table, [], []⟩ := by
        rw [joinTree_join hg hn, hfirst c rfl, hoperand]
      have hclause : (⟨if c.predicates = [] then .cross else c.kind, c.table, c.predicates⟩ :
          JoinClause) = c := by
        split
        case isTrue hnil => rw [← hcross hnil]
        case isFalse => rfl
      obtain ⟨hfirst', hclauses, hhoisted, hfolded⟩ := ih hrest hnode
      rw [htree] at hfirst' hclauses hhoisted hfolded
      constructor
      · exact hfirst'
      · rw [hclauses, JoinTree.clauses, hclause, List.append_assoc]
        rfl
      · rw [hhoisted, JoinTree.hoisted, List.append_nil, List.append_nil]
      · intro u hu
        rcases hfolded u hu with hmem | hnew
        · simp only [JoinTree.folded, List.nil_append, List.append_nil, List.mem_cons] at hmem
          rcases hmem with rfl | hmem
          · exact .inr ⟨by rw [isJoin, hn], hnext⟩
          · exact .inl hmem
        · exact .inr hnew

/-- A join tree that is written as what it is has taken off its tables all that can be. -/
theorem bare_joinTree (hg : g.WellFounded) (source : NodeId)
    (hwritten : (g.joinTree source).Written) :
  g.Bare (g.joinTree source).clauses
    ∧ g.BareFirst (g.joinTree source).first (g.joinTree source).clauses
    ∧ g.isJoin (g.joinTree source).first = false
  := by
  have hkinds : ∀ {kind : JoinKind} {predicates : List NodeId},
      (predicates = [] → kind = .inner ∨ kind = .cross) → ∀ left,
        (if predicates = [] then JoinKind.cross else kind).preservesFilters left
          = kind.preservesFilters left := by
    intro kind predicates h left
    split
    case isTrue hnil => rcases h hnil with rfl | rfl <;> rfl
    case isFalse => rfl
  revert hwritten
  apply joinTree_induction hg (P := fun source => (g.joinTree source).Written →
    g.Bare (g.joinTree source).clauses
      ∧ g.BareFirst (g.joinTree source).first (g.joinTree source).clauses
      ∧ g.isJoin (g.joinTree source).first = false)
  · intro id hn _
    rw [joinTree_other hg hn]
    exact ⟨nofun, nofun, hn⟩
  · intro id kind l r predicates hn ih hwritten
    rw [joinTree_join hg hn] at hwritten ⊢
    obtain ⟨hkind, hleft⟩ := hwritten
    obtain ⟨hbare, hfirst, hjoin⟩ := ih hleft
    refine ⟨List.forall_mem_append.mpr ⟨hbare, List.forall_mem_singleton.mpr ⟨?_, ?_⟩⟩, ?_, hjoin⟩
    · rw [hkinds hkind]
      exact operand_operand hg r _ false
    · exact fun hnil => if_pos hnil
    · cases hoperand : g.isJoin (g.operand l (kind.preservesFilters true) true).table with
      | false =>
          rw [JoinTree.clauses, JoinTree.first, joinTree_other hg hoperand]
          intro c hc
          obtain rfl := Option.some.inj hc
          rw [hkinds hkind]
          exact operand_operand hg l _ true
      | true =>
          obtain ⟨kind', l', r', predicates', hn'⟩ := eq_join hoperand
          rw [joinTree_join hg hn'] at hfirst ⊢
          simpa [BareFirst, JoinTree.clauses, JoinTree.first, List.head?_append] using hfirst

end Graph

end RelSql
