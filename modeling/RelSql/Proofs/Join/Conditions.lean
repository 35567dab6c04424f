import RelSql.Proofs.Join.Blocks
import RelSql.Proofs.Join.Crossed
import RelSql.Proofs.Lift.Substitution

/-!
# What join conditions read

The conditions of a join clause are the predicates of a join of the expression, read from the tables
of the whole FROM clause.  They are checked against all of these, not only against those that have
been joined by then.  A condition that refers to the operands of its join reads the tables that have
been joined by then; one that refers to the operand of a later join reads a table that comes too
late.  The condition of the semi join of a ranking is not checked.
-/

namespace RelSql

open Relation

/-! ## The joins of a tree -/

/-- The tables that are joined by the join clause at the position `i`: the first one, and those of
the clauses up to this one. -/
def TableSet.joined (t : TableSet) (i : Nat) : List NodeId :=
  t.first :: (t.joins.take (i + 1)).map JoinClause.table

namespace JoinTree

/-- The joins along the left side of a tree, the innermost first. -/
def joins : JoinTree → List JoinTree
  | .table _ => []
  | .join node kind predicates left l r => left.joins ++ [.join node kind predicates left l r]

/-- The predicates of the join at the top. -/
def predicates : JoinTree → List NodeId
  | .table _ => []
  | .join _ _ predicates _ _ _ => predicates

/-- There is one join clause for each join, with its predicates. -/
theorem clauses_joins (tree : JoinTree) :
  List.Forall₂ (fun j c => c.predicates = j.predicates) tree.joins tree.clauses
  := by
  induction tree with
  | table t => exact .nil
  | join node kind predicates left l r ih => exact List.rel_append ih (.cons rfl .nil)

/-- A join has the tables that are joined up to its clause. -/
theorem leaves_of_joins (tree : JoinTree) :
  ∀ i j, tree.joins[i]? = some j → j.leaves = tree.leaves.take (i + 2)
  := by
  have hlength : ∀ tree : JoinTree, tree.leaves.length = tree.joins.length + 1 := by
    intro tree
    induction tree with
    | table t => rfl
    | join node kind predicates left l r ih => simp [leaves, joins, ih]
  induction tree with
  | table t => exact fun i j h => by cases h
  | join node kind predicates left l r ih =>
      intro i j h
      rcases Nat.lt_or_ge i left.joins.length with hlt | hge
      · rw [joins, List.getElem?_append_left hlt] at h
        rw [ih i j h, leaves, List.take_append_of_le_length (by rw [hlength]; omega)]
      · obtain ⟨hi, hj⟩ := List.getElem?_eq_some_iff.mp h
        have hlast : i = left.joins.length := by
          simp only [joins, List.length_append, List.length_singleton] at hi
          omega
        subst hlast
        simp only [joins, List.getElem_concat_length] at hj
        rw [← hj, List.take_of_length_le]
        simp [leaves, hlength]

end JoinTree

namespace Graph

variable {g : Graph}

/-- The joins of the tree of a table are those of the joins along its left side, which the tree
folds. -/
theorem joins_joinTree (hg : g.WellFounded) (source : NodeId) :
  ∀ j ∈ (g.joinTree source).joins, ∃ id kind l r, g.node id = .join kind l r j.predicates
    ∧ g.joinTree id = j ∧ id.index ≤ source.index ∧ j.folded ⊆ (g.joinTree source).folded
  := by
  apply joinTree_induction hg (P := fun source => ∀ j ∈ (g.joinTree source).joins,
    ∃ id kind l r, g.node id = .join kind l r j.predicates ∧ g.joinTree id = j
      ∧ id.index ≤ source.index ∧ j.folded ⊆ (g.joinTree source).folded)
  · intro id hn j hj
    rw [joinTree_other hg hn] at hj
    exact absurd hj List.not_mem_nil
  · intro id kind l r predicates hn ih j hj
    have htree := joinTree_join hg hn
    have hlt : l.index < id.index := by
      apply hg.child_lt
      rw [hn]
      exact List.mem_cons_self
    have hle := hg.operand_le l (kind.preservesFilters true) true
    rw [htree, JoinTree.joins, List.mem_append, List.mem_singleton] at hj
    rcases hj with hj | rfl
    · obtain ⟨id', kind', l', r', hn', htree', hle', hsub⟩ := ih j hj
      refine ⟨id', kind', l', r', hn', htree', by omega, fun u hu => ?_⟩
      rw [htree, JoinTree.folded]
      exact List.mem_cons_of_mem _ (List.mem_append_left _ (List.mem_append_right _ (hsub hu)))
    · refine ⟨id, kind, l, r, hn, htree, Nat.le_refl _, ?_⟩
      rw [htree]
      exact fun u hu => hu

/-- A table with joins in its tree is a join. -/
theorem isJoin_of_mem_joins (hg : g.WellFounded) {source : NodeId} {j : JoinTree}
    (h : j ∈ (g.joinTree source).joins) :
  g.isJoin source = true
  := by
  by_contra hn
  rw [joinTree_other hg (Bool.eq_false_iff.mpr hn)] at h
  exact absurd h List.not_mem_nil

end Graph

/-! ## The conditions of a block -/

/-- The condition `l` is the predicate `p` of the join `j`, read from the tables of a join tree.  It
reads those that the columns of the predicate come from, and these are tables of the tree.  If the
predicate refers to the operands of its join only, none of which is folded, it reads the tables that
have been joined by then. -/
structure JoinTree.Condition (tree j : JoinTree) (g : Graph) (p l : NodeId) : Prop where
  reads : ∀ u, u ∈ g.tables l ↔ ∃ t name, (t, name) ∈ g.denote .reads p
    ∧ (Folding.of tree.folded).ComesFrom g t name u
  own : ∀ u ∈ g.tables l, u ∈ tree.leaves
  joined : (∀ t ∈ g.tables p, t ∈ j.folded ++ j.leaves) → (∀ u ∈ j.leaves, u ∉ tree.folded) →
    ∀ u ∈ g.tables l, u ∈ j.leaves

/-- The conditions of a FROM clause that joins the tables of `source`.  The clauses `own` are those
of the joins of its tree, in order, and the clauses behind them the semi joins of rankings, which
read their own table and whatever the ranked columns are lifted to. -/
inductive TableSet.Conditions (t : TableSet) (s : Folding) (g : Graph) (source : NodeId) : Prop where
  | intro {own ranked : List JoinClause} (hjoins : t.joins = own ++ ranked)
      (hleaves : t.first :: own.map JoinClause.table = (g.joinTree source).leaves)
      (hlength : (g.joinTree source).joins.length = own.length)
      (hown : ∀ i j c, (g.joinTree source).joins[i]? = some j → own[i]? = some c →
        j.leaves = t.joined i
          ∧ List.Forall₂ ((g.joinTree source).Condition j g) j.predicates c.predicates)
      (hranked : ∀ c ∈ ranked, ∃ p arg k metric? l, g.node p = .topK arg k metric?
        ∧ c.predicates = [l]
        ∧ ∀ u, u ∈ g.tables l ↔ u = c.table ∨ ∃ name, s.UnfoldsTo g arg u name) :
    Conditions t s g source

/-- A lifted predicate of a join is a condition of its clause, if the tables up to the table of the
FROM clause that are folded are those of its tree. -/
theorem Folding.Lifts.condition {g : Graph} {s : Folding} {source p l : NodeId} {j : JoinTree}
    (hg : g.WellFounded) (hj : j ∈ (g.joinTree source).joins)
    (hs : ∀ u : NodeId, u.index ≤ source.index →
      (s.contains u = true ↔ u ∈ (g.joinTree source).folded))
    (hp : p ∈ j.predicates) (h : s.Lifts .substitute g p l)
    (hown : ∀ u ∈ g.tables l, u ∈ (g.joinTree source).leaves) :
  (g.joinTree source).Condition j g p l
  := by
  obtain ⟨id, kind, left, right, hn, htree, hle, hsub⟩ := g.joins_joinTree hg source j hj
  have hlt : p.index < id.index := by
    apply hg.child_lt
    rw [hn]
    simp [Node.children, hp]
  have hbelow : ∀ t name, (t, name) ∈ g.denote .reads p → t.index < source.index := by
    intro t name hread
    have hread : t.index < p.index := Graph.lt_of_mem_reads hg hread
    omega
  have hsame : ∀ u : NodeId, u.index ≤ source.index →
      s.contains u = (Folding.of (g.joinTree source).folded).contains u := by
    intro u hu
    rw [Bool.eq_iff_iff, hs u hu, Folding.of, Folding.contains, List.contains_iff_mem]
  have hreads : ∀ u, u ∈ g.tables l ↔ ∃ t name, (t, name) ∈ g.denote .reads p
      ∧ (Folding.of (g.joinTree source).folded).ComesFrom g t name u := by
    intro u
    rw [h.mem_tables_iff hg, exists_comm]
    refine exists_congr fun name => ?_
    rw [unfoldsTo_iff_reads hg]
    · refine exists_congr fun t => and_congr_right fun hread => ?_
      have hlow := Nat.le_of_lt (hbelow t name hread)
      constructor
      · exact ComesFrom.congr hg fun w hw => (hsame w (Nat.le_trans hw hlow)).symm
      · exact ComesFrom.congr hg fun w hw => hsame w (Nat.le_trans hw hlow)
    · intro t name' hread d
      apply not_standsFor_of_descends hg (g.descends_joinTree hg source).2
      intro w hw hcontains
      exact (hs w (Nat.le_trans hw (Nat.le_of_lt (hbelow t name' hread)))).mp hcontains
  refine ⟨hreads, hown, ?_⟩
  intro hoperands hkept u hu
  obtain ⟨t, name, hread, hfrom⟩ := (hreads u).mp hu
  have ht : t ∈ j.folded ++ j.leaves := by
    apply hoperands
    exact (Graph.mem_tables_iff hg h.source t).mpr ⟨name, hread⟩
  refine hfrom.mem_joined (htree ▸ (g.descends_joinTree hg id).2) ?_ ?_ ht
  · intro w hw
    rw [Folding.of, Folding.contains, List.contains_iff_mem]
    exact hsub hw
  · intro w hw
    rw [Bool.eq_false_iff, ne_eq, Folding.of, Folding.contains, List.contains_iff_mem]
    exact hkept w hw

/-- A semi join that stands for a ranking has one condition, which reads its table and what the
ranked column is lifted to. -/
theorem JoinClause.Ranks.condition {g : Graph} {s : Folding} {p : NodeId} {c : JoinClause}
    (hg : g.WellFounded) (h : c.Ranks s g p) :
  ∃ arg k metric? l, g.node p = .topK arg k metric? ∧ c.predicates = [l]
    ∧ ∀ u, u ∈ g.tables l ↔ u = c.table ∨ ∃ name, s.UnfoldsTo g arg u name
  := by
  obtain @⟨arg, k, metric?, hranking, hjoin⟩ := h
  obtain @⟨lifted, _, _, value, predicate, _, hlifted, _, hvalue, hpredicate⟩ := hjoin
  refine ⟨arg, k, metric?, predicate, hranking, rfl, fun u => ?_⟩
  have hhas := Graph.has_of_node hpredicate (by simp)
  rw [Graph.mem_tables_operator hg hhas (by rw [hpredicate]; rfl), hpredicate]
  simp only [Node.children, List.mem_cons, List.not_mem_nil, or_false, exists_eq_or_imp,
    exists_eq_left, hlifted.mem_tables_iff hg]
  rw [or_comm, Graph.mem_tables_iff hg (Graph.has_of_node hvalue (by simp)),
    Graph.denote_column hg _ hvalue]
  simp [Algebra.reads]

/-- The conditions of the FROM clause of a block are those of the joins of its source. -/
theorem Select.Joins.conditions {g : Graph} (hg : g.WellFounded) {b : Select} {t : TableSet}
    {B : Block} {source : NodeId} (h : b.Joins t g B source) :
  t.Conditions B.folding g source
  := by
  have hfolded := fun hjoin u hu => h.contains_iff hg hjoin (u := u) hu
  obtain @⟨_, _, _, _, _, _, _, own, ranked, _, _, _, hfirst, hjoins, hlifts, hreads, hranked, _⟩ :=
    h
  have htables := JoinClause.tables_of_lifts hlifts
  have hleaves := JoinTree.leaves_tables (g.joinTree source)
  have hclauses := JoinTree.clauses_joins (g.joinTree source)
  have hlength : (g.joinTree source).joins.length = own.length :=
    hclauses.length_eq.trans hlifts.length_eq
  rw [TableSet.leaves, JoinTree.tables, ← htables, ← hfirst] at hleaves
  refine .intro hjoins hleaves hlength ?_ ?_
  · intro i j c hj hc
    have hi : i < own.length := (List.getElem?_eq_some_iff.mp hc).1
    have hmem := List.mem_of_getElem? hj
    refine ⟨?_, ?_⟩
    · rw [JoinTree.leaves_of_joins _ i j hj, ← hleaves, TableSet.joined, hjoins,
        List.take_succ_cons, List.take_append_of_le_length (by omega), List.map_take]
    · obtain ⟨hi', rfl⟩ := List.getElem?_eq_some_iff.mp hj
      obtain ⟨_, rfl⟩ := List.getElem?_eq_some_iff.mp hc
      have hclause : i < (g.joinTree source).clauses.length := by
        rw [← hclauses.length_eq]
        exact hi'
      have hpredicates := hclauses.get hi' hclause
      obtain ⟨_, _, hlifted⟩ := hlifts.get hclause hi
      simp only [List.get_eq_getElem] at hpredicates hlifted
      simp only [hpredicates] at hlifted
      rw [List.forall₂_iff_get] at hlifted ⊢
      refine ⟨hlifted.1, fun n hn hn' => ?_⟩
      have hread : ∀ u ∈ g.tables (own[i].predicates.get ⟨n, hn'⟩),
          u ∈ (g.joinTree source).leaves :=
        hreads _ (List.getElem_mem hi) _ (List.get_mem _ _)
      exact (hlifted.2 n hn hn').condition hg hmem (hfolded (g.isJoin_of_mem_joins hg hmem))
        (List.get_mem _ _) hread
  · intro c hc
    obtain ⟨p, _, hranks⟩ := forall₂_exists hranked.flip c hc
    exact ⟨p, hranks.condition hg⟩

end RelSql
