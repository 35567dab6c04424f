import Mathlib.Algebra.GroupWithZero.Nat
import Mathlib.Algebra.Order.BigOperators.Group.List
import Mathlib.Algebra.Order.Group.Nat
import RelSql.Block.Nesting
import RelSql.Proofs.Graph.Chain
import RelSql.Proofs.Block.Joins

/-!
# Bounds for the nesting of queries

What the bounds for a table say of the tables and the predicates below it: a table is nested
less deeply than a block over it, and so is what stands below its selections.
-/

namespace RelSql

namespace Nesting

theorem le_largest {numbers : List Nat} {n : Nat} (h : n ∈ numbers) :
  n ≤ largest numbers
  := by
  induction numbers with
  | nil => exact absurd h List.not_mem_nil
  | cons m rest ih =>
      rw [largest, List.foldr_cons, ← largest]
      rcases List.mem_cons.mp h with rfl | h
      · exact Nat.le_max_left _ _
      · exact Nat.le_trans (ih h) (Nat.le_max_right _ _)

theorem largest_le {numbers : List Nat} {bound : Nat} (h : ∀ n ∈ numbers, n ≤ bound) :
  largest numbers ≤ bound
  := by
  induction numbers with
  | nil => exact Nat.zero_le _
  | cons m rest ih =>
      obtain ⟨hm, hrest⟩ := List.forall_mem_cons.mp h
      exact Nat.max_le.mpr ⟨hm, ih hrest⟩

theorem total_eq (numbers : List Nat) :
  total numbers = numbers.sum
  := rfl

/-- A block is deeper than what it nests. -/
theorem lt_block (content rankings : Nat) :
  content + 3 < block content rankings
  := by
  have := Nat.one_le_two_pow (n := rankings)
  rw [block, Number.twoPow, Nat.pow_eq]
  omega

theorem block_mono {content content' rankings rankings' : Nat} (h : content ≤ content')
    (h' : rankings ≤ rankings') :
  block content rankings ≤ block content' rankings'
  := by
  have := Nat.pow_le_pow_right (n := 2) (by omega) h'
  rw [block, block, Number.twoPow, Number.twoPow, Nat.pow_eq, Nat.pow_eq]
  omega

end Nesting

/-- The bounds for a value are those for its operator. -/
theorem Node.nesting_value {n : Node} (h : n.isRelation = false) (f : NodeId → Nesting) :
  n.nesting f = .ofValue n (n.children.map f)
  := by
  cases n <;> first | rfl | cases h

/-- The bounds for a node depend on those for its children only. -/
theorem Node.nesting_congr {f f' : NodeId → Nesting} {n : Node}
    (h : ∀ c ∈ n.children, f c = f' c) :
  n.nesting f = n.nesting f'
  := by
  have hmap : ∀ {l : List NodeId}, (∀ c ∈ l, c ∈ n.children) → l.map f = l.map f' :=
    fun hl => List.map_congr_left fun c hc => h c (hl c hc)
  cases n with
  | projection t selections =>
      rw [nesting, nesting, h t List.mem_cons_self,
        hmap fun c hc => List.mem_cons_of_mem t hc]
  | selection t predicates =>
      rw [nesting, nesting, h t List.mem_cons_self,
        hmap fun c hc => List.mem_cons_of_mem t hc]
  | aggregation t keys metrics having =>
      rw [nesting, nesting, h t List.mem_cons_self,
        hmap fun c hc => List.mem_cons_of_mem t (List.mem_append_left having hc)]
  | join kind l r predicates =>
      rw [nesting, nesting, h l List.mem_cons_self,
        h r (List.mem_cons_of_mem l List.mem_cons_self)]
  | union l r unique =>
      rw [nesting, nesting, h l List.mem_cons_self,
        h r (List.mem_cons_of_mem l List.mem_cons_self)]
  | view t | sort t _ | limit t _ _ | distinct t =>
      rw [nesting, nesting, h t List.mem_cons_self]
  | table t => rfl
  | _ => rw [nesting_value rfl, nesting_value rfl, hmap fun c hc => hc]

namespace Graph

variable {g g' : Graph} {id t : NodeId}

theorem nesting_stable :
  NodeId.StableStep fun g below id => (Graph.node g id).nesting below
  := by
  constructor
  · intro g hg f f' id h
    exact Node.nesting_congr fun c hc => h c (hg.child_lt hc)
  · intro g g' below id _ _ h hid
    rw [h.node_eq hid]

theorem nesting_eq (hg : g.WellFounded) (id : NodeId) :
  g.nesting id = (g.node id).nesting g.nesting
  := NodeId.recurse_eq (nesting_stable.isLocal hg) id

/-- The bounds for a handle stay the same when the graph grows. -/
theorem Extends.nesting_eq (h : g.Extends g') (hg : g.WellFounded) (hg' : g'.WellFounded)
    (hid : g.Has id) :
  g'.nesting id = g.nesting id
  := nesting_stable.recurse_eq hg hg' h hid _

theorem nesting_of_node (hg : g.WellFounded) {n : Node} (hn : g.node id = n) :
  g.nesting id = n.nesting g.nesting
  := by
  rw [nesting_eq hg, hn]

/-- A table is nested less deeply than a block over it. -/
theorem depth_le_blockOver (hg : g.WellFounded) (id : NodeId) :
  (g.nesting id).depth ≤ (g.nesting id).blockOver
  := by
  have hlt := Nesting.lt_block (g.nesting id).source (g.nesting id).rankings
  rw [Nesting.blockOver]
  rw [nesting_eq hg] at hlt ⊢
  cases hn : g.node id <;> rw [hn] at hlt <;>
    simp only [Node.nesting, Nesting.ofLeaf, Nesting.ofTable, Nesting.ofSelection,
      Nesting.ofJoin, Nesting.ofValue] at hlt ⊢ <;> omega

/-- What a table nests in a FROM clause it nests alone. -/
theorem source_le_depth (hg : g.WellFounded) (id : NodeId) :
  (g.nesting id).source ≤ (g.nesting id).depth
  := by
  rw [nesting_eq hg]
  cases hn : g.node id <;>
    simp only [Node.nesting, Nesting.ofLeaf, Nesting.ofTable, Nesting.ofSelection,
      Nesting.ofJoin, Nesting.ofValue] <;> first | omega | skip
  exact Nat.le_of_lt (Nat.lt_of_le_of_lt (Nat.le_add_right _ 3) (Nesting.lt_block _ _))

theorem nesting_selection (hg : g.WellFounded) {predicates : List NodeId}
    (hn : g.node id = .selection t predicates) :
  g.nesting id = .ofSelection (g.nesting t) (predicates.map g.nesting)
  := nesting_of_node hg hn

/-- The number of rankings among predicates. -/
def rankingsAmong (g : Graph) (predicates : List NodeId) : Nat :=
  (predicates.map fun p => (g.nesting p).rankings).sum

theorem rankingsAmong_append (g : Graph) (ps qs : List NodeId) :
  g.rankingsAmong (ps ++ qs) = g.rankingsAmong ps + g.rankingsAmong qs
  := by
  rw [rankingsAmong, List.map_append, List.sum_append]
  rfl

theorem rankings_selection (hg : g.WellFounded) {predicates : List NodeId}
    (hn : g.node id = .selection t predicates) :
  (g.nesting id).rankings = (g.nesting t).rankings + g.rankingsAmong predicates
  := by
  rw [nesting_selection hg hn]
  simp only [Nesting.ofSelection, Nesting.ofLeaf, Nesting.ofTable, Nesting.total_eq,
    List.map_map]
  rfl

/-- A block over the table below a selection, with its predicates, fits into the selection. -/
theorem block_le_selection (hg : g.WellFounded) {predicates : List NodeId}
    (hn : g.node id = .selection t predicates) :
  ∃ content, (g.nesting t).source ≤ content ∧ (∀ p ∈ predicates, (g.nesting p).reach ≤ content)
    ∧ Nesting.block content (g.nesting id).rankings = (g.nesting id).depth
    ∧ (g.nesting id).source = (g.nesting id).depth
  := by
  refine ⟨max (g.nesting t).source
    (Nesting.largest ((predicates.map g.nesting).map Nesting.reach)), ?_, ?_, ?_, ?_⟩
  · exact Nat.le_max_left _ _
  · intro p hp
    apply Nat.le_trans (Nesting.le_largest _) (Nat.le_max_right _ _)
    exact List.mem_map_of_mem (List.mem_map_of_mem hp)
  · rw [nesting_selection hg hn]
    rfl
  · rw [nesting_selection hg hn]
    rfl

/-! ### Selections -/

/-- What is below the selections of a table, with their predicates, nests no more than the
table. -/
structure Below (g : Graph) (id : NodeId) (p : Peeled) : Prop where
  source : (g.nesting p.table).source ≤ (g.nesting id).source
  depth : (g.nesting p.table).depth ≤ (g.nesting id).depth
  rankings : (g.nesting p.table).rankings + g.rankingsAmong p.predicates
    = (g.nesting id).rankings
  predicates : ∀ q ∈ p.predicates, (g.nesting q).reach ≤ (g.nesting id).source

theorem below_self (g : Graph) (id : NodeId) :
  g.Below id ⟨id, [], []⟩
  := ⟨Nat.le_refl _, Nat.le_refl _, rfl, nofun⟩

theorem below_peel (hg : g.WellFounded) (id : NodeId) :
  g.Below id (g.peel id)
  := by
  apply chain_induction follows_selection hg (P := fun id => g.Below id (g.peel id))
  · intro id ht
    rw [peel_other hg ht]
    exact below_self g id
  · intro id t ht ih
    obtain ⟨predicates, hn⟩ := eq_selection ht
    obtain ⟨content, hsource, hreach, hdepth, hsame⟩ := block_le_selection hg hn
    have hlt := Nesting.lt_block content (g.nesting id).rankings
    have hover := depth_le_blockOver hg t
    have hrankings := rankings_selection hg hn
    have hblock := Nesting.block_mono hsource
      (show (g.nesting t).rankings ≤ (g.nesting id).rankings by omega)
    rw [Nesting.blockOver] at hover
    rw [peel_selection hg hn]
    refine ⟨?_, ?_, ?_, ?_⟩
    · have := ih.source
      dsimp only
      omega
    · have := ih.depth
      dsimp only
      omega
    · have := ih.rankings
      dsimp only
      rw [rankingsAmong_append]
      omega
    · intro q hq
      rcases List.mem_append.mp hq with hq | hq
      · have := ih.predicates q hq
        omega
      · have := hreach q hq
        omega

/-- A block over the table below selections, with their predicates, fits into the table. -/
theorem block_le_peel (hg : g.WellFounded) {id : NodeId}
    (h : selectionInput? (g.node id) ≠ none) :
  ∃ content, (g.nesting (g.peel id).table).source ≤ content
    ∧ (∀ p ∈ (g.peel id).predicates, (g.nesting p).reach ≤ content)
    ∧ Nesting.block content (g.nesting id).rankings = (g.nesting id).depth
    ∧ (g.nesting id).source = (g.nesting id).depth
  := by
  cases ht : selectionInput? (g.node id) with
  | none => exact absurd ht h
  | some t =>
      obtain ⟨predicates, hn⟩ := eq_selection ht
      obtain ⟨content, hsource, hreach, hdepth, hsame⟩ := block_le_selection hg hn
      have hbelow := below_peel hg t
      rw [peel_selection hg hn]
      refine ⟨content, Nat.le_trans hbelow.source hsource, ?_, hdepth, hsame⟩
      intro p hp
      rcases List.mem_append.mp hp with hp | hp
      · exact Nat.le_trans (hbelow.predicates p hp) hsource
      · exact hreach p hp

end Graph

end RelSql

/-!
## Bounds for the FROM clause

The tables of a join tree nest no more queries than the table that the tree is read off, and
neither do the predicates that are taken over from its operands.
-/

namespace RelSql.Graph

variable {g g' : Graph} {id : NodeId}

/-- What is left of an operand, with what is taken off it, nests no more than the operand. -/
theorem below_operand (hg : g.WellFounded) (id : NodeId) (hoist left : Bool) :
  g.Below id (g.operand id hoist left)
  := by
  rw [operand]
  split
  · exact below_peel hg id
  · exact below_self g id

/-- The number of rankings that the tables of a FROM clause bring. -/
def rankingsOf (g : Graph) (t : TableSet) : Nat :=
  (g.nesting t.first).rankings + (t.joins.map fun c => (g.nesting c.table).rankings).sum

/-- A block over a FROM clause, with predicates, nests queries to a depth of `content`, and has
at most a number of rankings. -/
structure Nests (g : Graph) (content rankings : Nat) (t : TableSet) (predicates : List NodeId) :
    Prop where
  first : (g.nesting t.first).source ≤ content
  joins : ∀ c ∈ t.joins, (g.nesting c.table).depth ≤ content
  reaches : ∀ p ∈ predicates, (g.nesting p).reach ≤ content
  ranked : g.rankingsOf t + g.rankingsAmong predicates ≤ rankings

namespace Nests

variable {content content' rankings rankings' : Nat} {t : TableSet} {predicates more : List NodeId}

theorem le (h : g.Nests content rankings t predicates) (hcontent : content ≤ content')
    (hrankings : rankings ≤ rankings') :
  g.Nests content' rankings' t predicates
  := ⟨Nat.le_trans h.first hcontent, fun c hc => Nat.le_trans (h.joins c hc) hcontent,
    fun p hp => Nat.le_trans (h.reaches p hp) hcontent, Nat.le_trans h.ranked hrankings⟩

/-- A block with more predicates. -/
theorem append (h : g.Nests content rankings t predicates)
    (hmore : ∀ p ∈ more, (g.nesting p).reach ≤ content) :
  g.Nests content (rankings + g.rankingsAmong more) t (predicates ++ more)
  := by
  refine ⟨h.first, h.joins, List.forall_mem_append.mpr ⟨h.reaches, hmore⟩, ?_⟩
  rw [rankingsAmong_append, ← Nat.add_assoc]
  exact Nat.add_le_add_right h.ranked _

/-- What a block nests stays the same when the graph grows. -/
theorem mono (e : g.Extends g') (hg : g.WellFounded) (hg' : g'.WellFounded)
    (hleaves : ∀ leaf ∈ t.leaves, g.Has leaf) (hpredicates : ∀ p ∈ predicates, g.Has p)
    (h : g.Nests content rankings t predicates) :
  g'.Nests content rankings t predicates
  := by
  obtain ⟨hfirst, hjoins⟩ := List.forall_mem_cons.mp hleaves
  rw [List.forall_mem_map] at hjoins
  have hclause : ∀ c ∈ t.joins, g'.nesting c.table = g.nesting c.table :=
    fun c hc => e.nesting_eq hg hg' (hjoins c hc)
  have hpredicate : ∀ p ∈ predicates, g'.nesting p = g.nesting p :=
    fun p hp => e.nesting_eq hg hg' (hpredicates p hp)
  have hof : g'.rankingsOf t = g.rankingsOf t := by
    rw [rankingsOf, rankingsOf, e.nesting_eq hg hg' hfirst,
      List.map_congr_left fun c hc => by rw [hclause c hc]]
  have hamong : g'.rankingsAmong predicates = g.rankingsAmong predicates := by
    rw [rankingsAmong, rankingsAmong, List.map_congr_left fun p hp => by rw [hpredicate p hp]]
  refine ⟨?_, ?_, ?_, ?_⟩
  · rw [e.nesting_eq hg hg' hfirst]
    exact h.first
  · intro c hc
    rw [hclause c hc]
    exact h.joins c hc
  · intro p hp
    rw [hpredicate p hp]
    exact h.reaches p hp
  · rw [hof, hamong]
    exact h.ranked

end Nests

/-- The bounds for a join. -/
theorem nesting_join (hg : g.WellFounded) {kind : JoinKind} {l r : NodeId}
    {predicates : List NodeId} (hn : g.node id = .join kind l r predicates) :
  g.nesting id = .ofJoin (g.nesting l) (g.nesting r)
  := nesting_of_node hg hn

/-- Tables that are joined bring their rankings, and nest no more than each of them. -/
theorem Chained.nesting (hg : g.WellFounded) {bound : Nat} {first joined : NodeId}
    {joins : List JoinClause} (h : g.Chained bound first joins joined) {content : Nat}
    (hfirst : (g.nesting first).source ≤ content)
    (hjoins : ∀ c ∈ joins, (g.nesting c.table).depth ≤ content) :
  (g.nesting joined).source ≤ content
    ∧ (g.nesting joined).rankings
      = (g.nesting first).rankings + (joins.map fun c => (g.nesting c.table).rankings).sum
  := by
  induction h with
  | nil first => exact ⟨hfirst, rfl⟩
  | @cons first next joined c rest hn _ _ ih =>
      obtain ⟨hc, hrest⟩ := List.forall_mem_cons.mp hjoins
      have hbounds := nesting_join hg hn
      have hsource : (g.nesting next).source ≤ content := by
        rw [hbounds]
        exact Nat.max_le.mpr ⟨hfirst, hc⟩
      have hrankings : (g.nesting next).rankings
          = (g.nesting first).rankings + (g.nesting c.table).rankings := by
        rw [hbounds]
        rfl
      obtain ⟨hjoined, hsum⟩ := ih hsource hrest
      refine ⟨hjoined, ?_⟩
      rw [hsum, hrankings, List.map_cons, List.sum_cons, Nat.add_assoc]

/-- The tables of a join tree and the predicates that are taken over fit into the table. -/
theorem nests_joinTree (hg : g.WellFounded) (id : NodeId) :
  g.Nests (g.nesting id).source (g.nesting id).rankings (g.joinTree id).tables
    (g.joinTree id).hoisted
  := by
  apply joinTree_induction hg (P := fun id => g.Nests (g.nesting id).source
    (g.nesting id).rankings (g.joinTree id).tables (g.joinTree id).hoisted)
  · intro id hn
    rw [joinTree_other hg hn]
    exact ⟨Nat.le_refl _, nofun, nofun, Nat.le_refl _⟩
  · intro id kind l r predicates hn ih
    have hl := below_operand hg l (kind.preservesFilters true) true
    have hr := below_operand hg r (kind.preservesFilters false) false
    have hdepth := source_le_depth hg r
    have hbounds := nesting_join hg hn
    have hsource : (g.nesting id).source = max (g.nesting l).source (g.nesting r).depth := by
      rw [hbounds]
      rfl
    have hrankings : (g.nesting id).rankings
        = (g.nesting l).rankings + (g.nesting r).rankings := by
      rw [hbounds]
      rfl
    rw [joinTree_join hg hn]
    rw [hsource, hrankings]
    refine ⟨?_, ?_, ?_, ?_⟩
    · have h₁ := ih.first
      have h₂ := hl.source
      simp only [JoinTree.tables, JoinTree.first] at h₁ ⊢
      omega
    · intro c hc
      rcases List.mem_append.mp hc with hc | hc
      · have h₁ := ih.joins c hc
        have h₂ := hl.source
        omega
      · rw [List.mem_singleton.mp hc]
        have h₁ := hr.depth
        dsimp only
        omega
    · intro p hp
      rcases List.mem_append.mp hp with hp | hp
      · rcases List.mem_append.mp hp with hp | hp
        · have h₁ := ih.reaches p hp
          have h₂ := hl.source
          omega
        · have h₁ := hl.predicates p hp
          omega
      · have h₁ := hr.predicates p hp
        omega
    · have h₁ := ih.ranked
      have h₂ := hl.rankings
      have h₃ := hr.rankings
      simp only [rankingsOf, JoinTree.tables, JoinTree.clauses, JoinTree.first, JoinTree.hoisted,
        rankingsAmong_append, List.map_append, List.sum_append, List.map_cons, List.map_nil,
        List.sum_cons, List.sum_nil] at h₁ ⊢
      omega

/-- The tables of a FROM clause and the predicates that are taken over fit into its source. -/
theorem nests_operand (hg : g.WellFounded) (id : NodeId) (hoist left : Bool) :
  g.Nests (g.nesting id).source (g.nesting id).rankings
    (g.joinTree (g.operand id hoist left).table).tables
    ((g.joinTree (g.operand id hoist left).table).hoisted
      ++ (g.operand id hoist left).predicates)
  := by
  have h := below_operand hg id hoist left
  apply Nests.le (Nests.append _ h.predicates) (Nat.le_refl _) (Nat.le_of_eq h.rankings)
  exact (nests_joinTree hg _).le h.source (Nat.le_refl _)

/-! ### Derived tables -/

/-- The query of a table of a FROM clause, if it is compiled, is nested to a depth of
`content`. -/
def Derives (g : Graph) (content : Nat) (id : NodeId) : Prop :=
  g.isRelation (g.body id) = true → (∀ t, g.node (g.body id) ≠ .table t) →
    (g.nesting (g.body id)).depth ≤ content

theorem Derives.mono {content : Nat} (e : g.Extends g') (hg : g.WellFounded)
    (hg' : g'.WellFounded) (hid : g.Has id) (h : g.Derives content id) :
  g'.Derives content id
  := by
  have hbody := hg.has_body hid
  intro hr hn
  rw [e.body_eq hid] at hr hn ⊢
  rw [e.isRelation_eq hbody] at hr
  simp only [e.node_eq hbody] at hn
  rw [e.nesting_eq hg hg' hbody]
  exact h hr hn

/-- A joined table derives no more than what it nests. -/
theorem derives_of_depth_le (hg : g.WellFounded) {content : Nat}
    (h : (g.nesting id).depth ≤ content) :
  g.Derives content id
  := by
  intro _ _
  rw [body]
  split
  case h_1 t hn =>
      have hdepth : (g.nesting id).depth = 1 + (g.nesting t).depth := by
        rw [nesting_of_node hg hn]
        rfl
      omega
  · exact h

/-- A table that is not a join derives what it nests in a FROM clause. -/
theorem derives_of_source_le (hg : g.WellFounded) {content : Nat} (hjoin : g.isJoin id = false)
    (h : (g.nesting id).source ≤ content) :
  g.Derives content id
  := by
  intro hr ht
  apply Nat.le_trans _ h
  rw [nesting_eq hg id]
  rw [body] at hr ht ⊢
  rw [isJoin] at hjoin
  cases hn : g.node id <;> rw [hn] at hr ht hjoin <;> dsimp only at hr ht hjoin ⊢ <;>
    first
    | exact Nat.le_refl _
    | exact absurd hn (ht _)
    | (rw [isRelation, hn] at hr; cases hr; done)
    | (rw [nesting_of_node hg hn]; exact Nat.le_refl _)
    | cases hjoin

/-- The first table of a join tree is not a join. -/
theorem isJoin_first (hg : g.WellFounded) (id : NodeId) :
  g.isJoin (g.joinTree id).first = false
  := by
  apply joinTree_induction hg (P := fun id => g.isJoin (g.joinTree id).first = false)
  · intro id hn
    rw [joinTree_other hg hn]
    exact hn
  · intro id kind l r predicates hn ih
    rw [joinTree_join hg hn]
    exact ih

/-- The tables of a join tree derive no more than the block over them nests. -/
theorem Nests.derives (hg : g.WellFounded) {content rankings : Nat} {predicates : List NodeId}
    (h : g.Nests content rankings (g.joinTree id).tables predicates) :
  ∀ leaf ∈ (g.joinTree id).leaves, g.Derives content leaf
  := by
  rw [← JoinTree.leaves_tables, TableSet.leaves, List.forall_mem_cons, List.forall_mem_map]
  exact ⟨derives_of_source_le hg (isJoin_first hg id) h.first,
    fun c hc => derives_of_depth_le hg (h.joins c hc)⟩

end RelSql.Graph
