import RelSql.Proofs.Block.Core

/-!
# Assembled blocks and their joins

What completing a block keeps and what it changes: the predicates of its joins, its select
list, its predicates and its sort keys are lifted, its rankings become joins with fresh
tables, and the subqueries of its predicates are compiled.

The joins of a FROM clause are put together again over the tables that are not folded: their
predicates are lifted, and nothing else of them changes.
-/

/-! ## Assembled blocks -/

namespace RelSql

open Analysis

variable {Q : QuerySpec} {g g' : Graph}

namespace JoinTree

theorem first_mem_leaves (tree : JoinTree) :
  tree.first ∈ tree.leaves
  := by
  induction tree with
  | table t => exact List.mem_singleton_self t
  | join node kind predicates left l r ih => exact List.mem_append_left _ ih

/-- The FROM clause of a join tree is valid. -/
theorem tables_valid (hg : g.WellFounded) {node : NodeId} (hnode : g.Has node) :
  (g.joinTree node).tables.Valid g
  := by
  obtain ⟨hleaves, _, hclauses⟩ := hg.has_joinTree hnode
  refine ⟨hleaves _ (first_mem_leaves _), ?_, hclauses⟩
  rw [leaves_tables]
  exact hleaves

end JoinTree

namespace Graph

/-- The keys of sorts that are there are there. -/
theorem WellFounded.has_sortKeys (hg : g.WellFounded) {node : NodeId} (hnode : g.Has node) :
  ∀ k ∈ g.sortKeysOf node, g.Has k.expr
  := by
  intro k hk
  rw [sortKeysOf] at hk
  split at hk
  case h_1 t keys hn =>
      apply hg.has_child hnode
      rw [hn]
      apply List.mem_cons_of_mem
      exact List.mem_map_of_mem hk
  · exact absurd hk List.not_mem_nil

theorem WellFounded.has_topKeys (hg : g.WellFounded) {sorts : List NodeId}
    (h : ∀ n ∈ sorts, g.Has n) :
  ∀ k ∈ g.topKeys sorts, g.Has k.expr
  := by
  cases sorts with
  | nil => exact fun k hk => absurd hk List.not_mem_nil
  | cons n rest => exact hg.has_sortKeys (h n List.mem_cons_self)

theorem WellFounded.has_innerKeys (hg : g.WellFounded) {sorts : List NodeId}
    (h : ∀ n ∈ sorts, g.Has n) :
  ∀ k ∈ g.innerKeys sorts, g.Has k.expr
  := by
  rw [innerKeys]
  cases hfind : (sorts.map g.sortKeysOf).find? (· ≠ []) with
  | none => exact fun k hk => absurd hk List.not_mem_nil
  | some keys =>
      obtain ⟨n, hn, rfl⟩ := List.mem_map.mp (List.mem_of_find?_eq_some hfind)
      exact hg.has_sortKeys (h n hn)

end Graph

namespace Block

/-- A block over the FROM clause of a join tree is valid when its values are there. -/
theorem Draws.valid (hg : g.WellFounded) {folded : List NodeId} {source : NodeId}
    (hsource : g.Has source) {b b' : Block}
    (h : Draws Q folded (g.joinTree source) b g b') (hb : b.Valid Q g) :
  b'.Valid Q g
  := by
  refine ⟨?_, ?_, h.nested, ?_⟩
  · rw [h.clauses]
    refine ⟨hb.clauses.select, ?_, hb.clauses.predicates, hb.clauses.having, hb.clauses.orderBy⟩
    intro t ht
    rw [← Option.some.inj ht]
    exact JoinTree.tables_valid hg hsource
  · rw [h.folding]
    exact hb.join
  · intro leaf hleaf
    have hleaves : b'.clauses.leaves = (g.joinTree source).leaves := by
      rw [h.clauses]
      exact JoinTree.leaves_tables _
    rw [hleaves] at hleaf
    exact (h.sourced leaf hleaf).2

/-- A built block is over the FROM clause of a join tree, whose hoisted predicates are its
first ones, and valid. -/
theorem Built.valid (hg : g.WellFounded) {b b' : Block} {node : NodeId} (hnode : g.Has node)
    (h : Built Q b node g b') (hb : b.Valid Q g) :
  b'.Valid Q g ∧ ∃ source rest, g.Has source
    ∧ b'.clauses.from? = some (g.joinTree source).tables
    ∧ b'.clauses.predicates = (g.joinTree source).hoisted ++ rest
  := by
  have hpeel := hg.has_peel hnode
  have hpeeled := hg.has_predicates hnode
  cases h with
  | @aggregation input keys metrics having b' htable hdraws =>
      have hchild : ∀ c ∈ input :: (keys ++ metrics ++ having), g.Has c := by
        intro c hc
        apply hg.has_child hpeel
        rw [htable]
        exact hc
      have hinput := hchild input List.mem_cons_self
      have hsource := hg.has_operand hinput true true
      have hvalid := hdraws.valid hg hsource
        ⟨⟨hb.clauses.select, hb.clauses.source, hb.clauses.predicates, hb.clauses.having,
          hb.clauses.orderBy⟩, hb.join, hb.nested, hb.sourced⟩
      refine ⟨⟨⟨?_, hvalid.clauses.source, ?_, ?_, hvalid.clauses.orderBy⟩, hvalid.join,
        hvalid.nested, hvalid.sourced⟩, _, _, hsource, ?_, rfl⟩
      · intro id hid
        apply hchild
        exact List.mem_cons_of_mem _ (List.mem_append_left _ hid)
      · intro id hid
        rcases List.mem_append.mp hid with hid | hid
        · exact (hg.has_joinTree hsource).2.1 id hid
        · exact hg.has_operand_predicates hinput _ _ id hid
      · intro id hid
        rcases List.mem_append.mp hid with hid | hid
        · apply hchild
          exact List.mem_cons_of_mem _ (List.mem_append_right _ hid)
        · exact hpeeled id hid
      · exact congrArg Clauses.from? hdraws.clauses
  | @projection fs core input selections b' _ _ _ hcore hdraws =>
      have hchild : ∀ c ∈ input :: selections, g.Has c := by
        intro c hc
        apply hg.has_child (Graph.has_of_node hcore nofun)
        rw [hcore]
        exact hc
      have hinput := hchild input List.mem_cons_self
      have hsorts := hg.has_of_mem_chain Graph.follows_sort hinput
      have hsorted := hg.has_chain Graph.follows_sort hinput
      have hsource := hg.has_operand hsorted true true
      rw [fused_eq] at hdraws
      have hvalid := hdraws.valid hg hsource (by
        refine ⟨⟨hb.clauses.select, hb.clauses.source, hb.clauses.predicates, hb.clauses.having,
          ?_⟩, hb.join, hb.nested, hb.sourced⟩
        intro k hk
        simp only [sorted] at hk
        split at hk
        · exact hg.has_innerKeys hsorts k hk
        · exact hb.clauses.orderBy k hk)
      refine ⟨⟨⟨?_, hvalid.clauses.source, ?_, hvalid.clauses.having, hvalid.clauses.orderBy⟩,
        hvalid.join, hvalid.nested, hvalid.sourced⟩, _, _, hsource, ?_, List.append_assoc _ _ _⟩
      · intro id hid
        exact hchild id (List.mem_cons_of_mem _ hid)
      · intro id hid
        rcases List.mem_append.mp hid with hid | hid
        · rcases List.mem_append.mp hid with hid | hid
          · exact (hg.has_joinTree hsource).2.1 id hid
          · exact hg.has_operand_predicates hsorted _ _ id hid
        · exact hpeeled id hid
      · exact congrArg Clauses.from? hdraws.clauses
  | @other b' _ _ hdraws =>
      have hvalid := hdraws.valid hg hpeel ⟨hb.clauses, hb.join, hb.nested, hb.sourced⟩
      refine ⟨⟨⟨?_, hvalid.clauses.source, ?_, hvalid.clauses.having, hvalid.clauses.orderBy⟩,
        hvalid.join, hvalid.nested, hvalid.sourced⟩, _, _, hpeel, ?_, rfl⟩
      · intro id hid
        rw [List.mem_singleton.mp hid]
        exact hpeel
      · intro id hid
        rcases List.mem_append.mp hid with hid | hid
        · exact (hg.has_joinTree hpeel).2.1 id hid
        · exact hpeeled id hid
      · exact congrArg Clauses.from? hdraws.clauses

end Block

end RelSql

/-! ## Joins of blocks -/

namespace RelSql

open Analysis

variable {Q : QuerySpec} {g g' : Graph}

/-- A join clause with its predicates lifted. -/
structure JoinClause.Lifts (s : Folding) (g : Graph) (c c' : JoinClause) : Prop where
  kind : c'.kind = c.kind
  table : c'.table = c.table
  predicates : List.Forall₂ (s.Lifts .substitute g) c.predicates c'.predicates

theorem JoinClause.Lifts.persistent (s : Folding) (c : JoinClause) :
  Graph.Persistent fun g c' => c.Lifts s g c'
  := by
  intro g g' c' hg hg' e h
  exact ⟨h.kind, h.table, h.predicates.imp fun p l hl =>
    Folding.Lifts.persistent p hg hg' e hl⟩

/-- Lifting the predicates of joins changes no table. -/
theorem JoinClause.tables_of_lifts {s : Folding} {joins joins' : List JoinClause}
    (h : List.Forall₂ (JoinClause.Lifts s g) joins joins') :
  joins'.map JoinClause.table = joins.map JoinClause.table
  := by
  rw [← List.forall₂_eq_eq_eq, List.forall₂_map_left_iff, List.forall₂_map_right_iff]
  exact h.flip.imp fun _ _ h => h.table

/-- The table `joined` is `first` with joins after it, none of which comes before `bound`. -/
inductive Graph.Chained (g : Graph) (bound : Nat) : NodeId → List JoinClause → NodeId → Prop where
  | nil (first : NodeId) : Chained g bound first [] first
  | cons {first next joined : NodeId} {c : JoinClause} {rest : List JoinClause}
      (hn : g.node next = .join c.kind first c.table c.predicates) (hnext : bound ≤ next.index)
      (h : Chained g bound next rest joined) : Chained g bound first (c :: rest) joined

section

variable {bound bound' : Nat} {first joined last : NodeId} {joins more : List JoinClause}

theorem Graph.Chained.mono (e : g.Extends g') (h : g.Chained bound first joins joined) :
  g'.Chained bound first joins joined
  := by
  induction h with
  | nil first => exact .nil first
  | cons hn hnext _ ih => exact .cons (e.node_eq_of hn nofun) hnext ih

/-- What comes after a bound comes after every lower one. -/
theorem Graph.Chained.weaken (hle : bound' ≤ bound) (h : g.Chained bound first joins joined) :
  g.Chained bound' first joins joined
  := by
  induction h with
  | nil first => exact .nil first
  | cons hn hnext _ ih => exact .cons hn (Nat.le_trans hle hnext) ih

end

/-- A computation that succeeds goes through the result of its first part. -/
theorem exists_of_bind_eq_ok {ε α β : Type} {x : Except ε α} {f : α → Except ε β} {b : β}
    (h : (x >>= f) = .ok b) :
  ∃ a, x = .ok a ∧ f a = .ok b
  := by
  cases x with
  | error e => cases h
  | ok a => exact ⟨a, rfl, h⟩

/-- Every element is processed when a list is, and its result is one of those of the list. -/
theorem exists_mem_of_mapM_eq_ok {ε α β : Type} {f : α → Except ε β} {xs : List α} :
    ∀ {ys : List β}, xs.mapM f = .ok ys → ∀ x ∈ xs, ∃ y ∈ ys, f x = .ok y := by
  induction xs with
  | nil => exact fun _ x hx => absurd hx List.not_mem_nil
  | cons x rest ih =>
      intro ys h
      rw [List.mapM_cons] at h
      obtain ⟨y, hy, h⟩ := exists_of_bind_eq_ok h
      obtain ⟨ys', hys, h⟩ := exists_of_bind_eq_ok h
      cases h
      refine List.forall_mem_cons.mpr ⟨⟨y, List.mem_cons_self, hy⟩, fun x' hx' => ?_⟩
      obtain ⟨y', hy', hresult⟩ := ih hys x' hx'
      exact ⟨y', List.mem_cons_of_mem y hy', hresult⟩

/-- Every element is processed when a list is. -/
theorem exists_of_mapM_eq_ok {ε α β : Type} {f : α → Except ε β} {xs : List α} {ys : List β}
    (h : xs.mapM f = .ok ys) :
  ∀ x ∈ xs, ∃ y, f x = .ok y
  := by
  intro x hx
  obtain ⟨y, _, hy⟩ := exists_mem_of_mapM_eq_ok h x hx
  exact ⟨y, hy⟩

/-- A computation that succeeds has given its result. -/
theorem eq_ok_of_toOption {ε α : Type} {x : Except ε α} {a : α} (h : x.toOption = some a) :
  x = .ok a
  := by
  cases x with
  | error e => cases h
  | ok b => rw [Option.some.inj h]

/-- A computation that fails after its first part, or in it, fails in its first part when the
rest does not fail. -/
theorem error_of_bind_eq_error {ε α β : Type} {x : Except ε α} {f : α → Except ε β} {e : ε}
    (h : (x >>= f) = .error e) (hf : ∀ a, f a ≠ .error e) :
  x = .error e
  := by
  cases x with
  | error e' =>
      cases h
      rfl
  | ok a => exact absurd h (hf a)

/-- A computation succeeds when it does with its errors replaced. -/
theorem eq_ok_of_mapError {ε ε' α : Type} {x : Except ε α} {f : ε → ε'} {a : α}
    (h : x.mapError f = .ok a) :
  x = .ok a
  := by
  cases x with
  | error e => cases h
  | ok b =>
      cases h
      rfl

namespace Block

/-- The children of a join with lifted predicates are there. -/
theorem has_children_join {s : Folding} {kind : JoinKind} {node table : NodeId}
    {predicates lifted : List NodeId} (e : g.Extends g') (hnode : g.Has node)
    (htable : g.Has table) (hlifted : List.Forall₂ (s.Lifts .substitute g') predicates lifted) :
  ∀ d ∈ (Node.join kind node table lifted).children, g'.Has d
  := by
  intro d hd
  rcases List.mem_cons.mp hd with rfl | hd
  · exact hnode.mono e
  · rcases List.mem_cons.mp hd with rfl | hd
    · exact htable.mono e
    · exact forall₂_right hlifted (fun _ _ h => h.target) d hd

/-- The predicates of join clauses are lifted, and the tables joined. -/
theorem joinClauses_spec {s : Folding} {leaves : List NodeId} (clauses : List JoinClause) :
    ∀ {node : NodeId} {st : LiftState} {joins : List JoinClause} {node' : NodeId}
      {st' : LiftState}, st.Sound s .substitute → st.graph.Has node →
      (∀ c ∈ clauses, st.graph.Has c.table ∧ ∀ p ∈ c.predicates, st.graph.Has p) →
      joinClauses s leaves clauses node st = .ok (joins, node', st') →
      st'.Sound s .substitute ∧ st.graph.Extends st'.graph ∧ st'.graph.Has node'
        ∧ (st.graph.isJoin node = true ∨ clauses ≠ [] → st'.graph.isJoin node' = true)
        ∧ st'.graph.Chained st.graph.size node joins node'
        ∧ List.Forall₂ (JoinClause.Lifts s st'.graph) clauses joins
        ∧ ∀ c ∈ joins, ∀ p ∈ c.predicates, ∀ t ∈ st'.graph.tables p, t ∈ leaves := by
  induction clauses with
  | nil =>
      intro node st joins node' st' hs hnode _ hrun
      cases hrun
      refine ⟨hs, .refl _, hnode, ?_, .nil _, .nil, fun c hc => absurd hc List.not_mem_nil⟩
      rintro (hjoin | hne)
      · exact hjoin
      · exact absurd rfl hne
  | cons c rest ih =>
      intro node st joins node' st' hs hnode hclauses hrun
      obtain ⟨⟨htable, hpreds⟩, hrest⟩ := List.forall_mem_cons.mp hclauses
      have hkeeps := Fused.keeps_values hs hpreds
      rw [joinClauses] at hrun
      rw [LiftM.Keeps] at hkeeps
      generalize (c.predicates.mapM (Lift.value s .substitute)).run st = r at hkeeps hrun
      obtain ⟨lifted, st₁⟩ := r
      obtain ⟨hs₁, e₁, hlifted⟩ := hkeeps
      simp only at hrun
      split at hrun
      · cases hrun
      case h_2 hown =>
        obtain ⟨⟨joins', node₁, st₂⟩, hrec, hret⟩ := exists_of_bind_eq_ok hrun
        cases hret
        obtain ⟨hs₂, e₂, hpushed⟩ :=
          Lift.keeps_push hs₁ (has_children_join e₁ hnode htable hlifted)
        have e := e₁.trans e₂
        obtain ⟨hs₃, e₃, hnode', hjoin, hjoined, hjoins, howns⟩ := ih hs₂ hpushed.1
          (fun d hd => ⟨(hrest d hd).1.mono e, fun p hp => ((hrest d hd).2 p hp).mono e⟩) hrec
        refine ⟨hs₃, e.trans e₃, hnode', fun _ => hjoin (.inl ?_),
          .cons (e₃.node_eq_of hpushed.2 (by rintro ⟨⟩)) e₁.size_le (hjoined.weaken e.size_le),
          .cons ⟨rfl, rfl, hlifted.imp ?_⟩ hjoins, List.forall_mem_cons.mpr ⟨?_, howns⟩⟩
        · rw [Graph.isJoin, hpushed.2]
        · intro p l hl
          exact Folding.Lifts.persistent p hs₁.wellFounded hs₃.wellFounded (e₂.trans e₃) hl
        · intro p hp t ht
          have hhas := forall₂_right hlifted (fun _ _ h => h.target) p hp
          rw [(e₂.trans e₃).mem_tables_iff hs₁.wellFounded hs₃.wellFounded hhas] at ht
          have hnone := List.find?_eq_none.mp hown p hp
          simp only [List.any_eq_true, Bool.not_eq_true', List.contains_eq_mem,
            decide_eq_false_iff_not, not_exists, not_and, not_not] at hnone
          exact hnone t ht

/-- Joining tables that fails leaves a graph in which the predicates so far are lifted. -/
theorem joinClauses_failure {s : Folding} {leaves : List NodeId} (clauses : List JoinClause) :
    ∀ {node : NodeId} {st : LiftState} {f : Failure}, st.Sound s .substitute →
      st.graph.Has node →
      (∀ c ∈ clauses, st.graph.Has c.table ∧ ∀ p ∈ c.predicates, st.graph.Has p) →
      joinClauses s leaves clauses node st = .error f →
      f.graph.WellFounded ∧ st.graph.Extends f.graph := by
  induction clauses with
  | nil =>
      intro node st f _ _ _ hrun
      cases hrun
  | cons c rest ih =>
      intro node st f hs hnode hclauses hrun
      obtain ⟨⟨htable, hpreds⟩, hrest⟩ := List.forall_mem_cons.mp hclauses
      have hkeeps := Fused.keeps_values hs hpreds
      rw [joinClauses] at hrun
      rw [LiftM.Keeps] at hkeeps
      generalize (c.predicates.mapM (Lift.value s .substitute)).run st = r at hkeeps hrun
      obtain ⟨lifted, st₁⟩ := r
      obtain ⟨hs₁, e₁, hlifted⟩ := hkeeps
      simp only at hrun
      split at hrun
      · cases hrun
        exact ⟨hs₁.wellFounded, e₁⟩
      · obtain ⟨hs₂, e₂, hpushed⟩ :=
          Lift.keeps_push hs₁ (has_children_join e₁ hnode htable hlifted)
        have e := e₁.trans e₂
        have hrec := ih hs₂ hpushed.1
          (fun d hd => ⟨(hrest d hd).1.mono e, fun p hp => ((hrest d hd).2 p hp).mono e⟩)
          (error_of_bind_eq_error hrun (by rintro _ ⟨⟩))
        exact ⟨hrec.1, e.trans hrec.2⟩

/-- A FROM clause with its joins put together after `bound`, and their predicates lifted, which read
its own tables only. -/
structure Rebuilt (s : Folding) (bound : Nat) (g : Graph) (t t' : TableSet) : Prop where
  node : g.Has t'.node
  first : t'.first = t.first
  joined : g.Chained bound t'.first t'.joins t'.node
  joins : List.Forall₂ (JoinClause.Lifts s g) t.joins t'.joins
  own : ∀ c ∈ t'.joins, ∀ p ∈ c.predicates, ∀ u ∈ g.tables p, u ∈ t.leaves

/-- Putting the joins of the FROM clause together changes their predicates only. -/
theorem grows_rebuildJoins (hg : g.WellFounded) {b : Block} (hb : b.Valid Q g) {t : TableSet}
    (ht : b.clauses.from? = some t) :
  Grows (fun g' b' => ∃ t' join, Rebuilt b.folding g.size g' t t' ∧ (∀ j ∈ join, g'.isJoin j = true)
      ∧ (t.joins = [] → join = b.folding.join)
      ∧ b' = { b with
        folding := { b.folding with join }
        clauses := { b.clauses with from? := some t' } })
    b.rebuildJoins g
  := by
  have hvalid := hb.clauses.source t ht
  have hleaf : ∀ leaf ∈ t.leaves, g.Has leaf := hvalid.leaves
  have hfirst := hleaf t.first List.mem_cons_self
  have hclauses : ∀ c ∈ t.joins, g.Has c.table ∧ ∀ p ∈ c.predicates, g.Has p := fun c hc =>
    ⟨hleaf c.table (List.mem_cons_of_mem _ (List.mem_map_of_mem hc)), hvalid.predicates c hc⟩
  constructor
  · intro b' g' hrun
    simp only [StateT.run, rebuildJoins, ht] at hrun
    obtain ⟨⟨joins, node, st⟩, hrebuilt, hret⟩ := exists_of_bind_eq_ok hrun
    cases hret
    obtain ⟨hs, e, hnode, hjoined, hjoins, hlifts, hown⟩ :=
      joinClauses_spec t.joins (Lift.sound_empty hg _ _) hfirst hclauses hrebuilt
    refine ⟨hs.wellFounded, e, ⟨node, t.first, joins⟩,
      if joins = [] then b.folding.join else some node, ⟨hnode, rfl, hjoins, hlifts, hown⟩,
      ?_, ?_, rfl⟩
    · intro j hj
      split at hj
      · exact e.isJoin (hb.join j hj)
      case isFalse hne =>
          rw [← Option.some.inj hj]
          apply hjoined
          refine .inr fun hnil => hne ?_
          rw [hnil] at hlifts
          cases hlifts
          rfl
    · intro hnil
      rw [hnil] at hlifts
      cases hlifts
      exact if_pos rfl
  · intro f hrun
    simp only [StateT.run, rebuildJoins, ht] at hrun
    exact joinClauses_failure t.joins (Lift.sound_empty hg _ _) hfirst hclauses
      (error_of_bind_eq_error hrun nofun)

/-- Putting joins together changes no table. -/
theorem Rebuilt.leaves {s : Folding} {bound : Nat} {t t' : TableSet} (h : Rebuilt s bound g t t') :
  t'.leaves = t.leaves
  := by
  rw [TableSet.leaves, TableSet.leaves, h.first, JoinClause.tables_of_lifts h.joins]

/-- A block stays valid when its joins are put together. -/
theorem Rebuilt.valid (hQ : Q.Persistent) (hg : g.WellFounded) (hg' : g'.WellFounded)
    (e : g.Extends g') {b : Block} (hb : b.Valid Q g) {t t' : TableSet}
    (ht : b.clauses.from? = some t) {bound : Nat} (h : Rebuilt b.folding bound g' t t')
    {join : Option NodeId}
    (hjoin : ∀ j ∈ join, g'.isJoin j = true) :
  Block.Valid Q g' { b with
    folding := { b.folding with join }
    clauses := { b.clauses with from? := some t' } }
  := by
  have hvalid := hb.mono hQ hg hg' e
  have hsource := hvalid.clauses.source t ht
  have hleaves : Clauses.leaves { b.clauses with from? := some t' } = b.clauses.leaves := by
    rw [Clauses.leaves, Clauses.leaves, ht]
    exact h.leaves
  refine ⟨⟨hvalid.clauses.select, ?_, hvalid.clauses.predicates, hvalid.clauses.having,
    hvalid.clauses.orderBy⟩, hjoin, hvalid.nested, ?_⟩
  · intro t₁ ht₁
    rw [← Option.some.inj ht₁]
    refine ⟨h.node, ?_, ?_⟩
    · rw [h.leaves]
      exact hsource.leaves
    · exact forall₂_right h.joins fun c c' hc => forall₂_right hc.predicates fun _ _ hl => hl.target
  · rw [hleaves]
    exact hvalid.sourced

end Block

end RelSql
