import RelSql.Proofs.Block.Fusion
import RelSql.Proofs.Block.Source

/-!
# The core of a block

What is folded at the top of a table, and what the block of its core consists of: the block of
an aggregation, of a projection with the projections that it is fused with, or of any other
table.
-/

namespace RelSql

namespace Graph

/-- The outermost limit of a chain of limits. -/
def outerLimit (g : Graph) (limits : List NodeId) : Option LimitClause :=
  match limits.head?.map g.node with
  | some (.limit _ n offset) => some ⟨n, offset⟩
  | _ => none

/-- The keys of the outermost sort of a chain of sorts. -/
def topKeys (g : Graph) (sorts : List NodeId) : List SortKey :=
  (sorts.head?.map g.sortKeysOf).getD []

/-- The keys of the outermost sort that has keys. -/
def innerKeys (g : Graph) (sorts : List NodeId) : List SortKey :=
  ((sorts.map g.sortKeysOf).find? (· ≠ [])).getD []

end Graph

namespace Graph

variable {g g' : Graph} {node : NodeId}

theorem eq_projection (h : g.isProjection node = true) :
  ∃ input selections, g.node node = .projection input selections
  := by
  rw [isProjection] at h
  split at h
  case h_1 input selections hn => exact ⟨input, selections, hn⟩
  · cases h

/-- Sorts that are there keep their keys. -/
theorem Extends.innerKeys_eq (e : g.Extends g') {sorts : List NodeId}
    (h : ∀ n ∈ sorts, g.Has n) :
  g'.innerKeys sorts = g.innerKeys sorts
  := by
  have hkeys : sorts.map g'.sortKeysOf = sorts.map g.sortKeysOf := by
    apply List.map_congr_left
    intro n hn
    rw [sortKeysOf, sortKeysOf, e.node_eq (h n hn)]
  rw [innerKeys, innerKeys, hkeys]

end Graph

namespace Block

open Analysis

variable {Q : QuerySpec} {g g' : Graph} {compile : NodeId → Analysis Query}

/-- The block after folding limits. -/
def limited (b : Block) (g : Graph) (limits : List NodeId) : Block :=
  { b.foldAll limits with clauses := { b.clauses with limit := g.outerLimit limits } }

/-- The block after folding sorts, which is ordered by `keys` unless it is ordered yet. -/
def sorted (b : Block) (sorts : List NodeId) (keys : List SortKey) : Block :=
  { b.foldAll sorts with
    clauses := { b.clauses with
      orderBy := if b.clauses.orderBy = [] then keys else b.clauses.orderBy } }

theorem run_foldLimits (b : Block) (node : NodeId) (g : Graph) :
  (b.foldLimits node).run g = .ok
    ((b.limited g (g.chain Graph.limitInput? node).1, (g.chain Graph.limitInput? node).2), g)
  := rfl

theorem run_foldTopSorts (b : Block) (node : NodeId) (g : Graph) :
  (b.foldTopSorts node).run g = .ok
    ((b.sorted (g.chain Graph.sortInput? node).1
        (g.topKeys (g.chain Graph.sortInput? node).1), (g.chain Graph.sortInput? node).2), g)
  := rfl

theorem run_foldInnerSorts (b : Block) (node : NodeId) (g : Graph) :
  (b.foldInnerSorts node).run g = .ok
    ((b.sorted (g.chain Graph.sortInput? node).1
        (g.innerKeys (g.chain Graph.sortInput? node).1), (g.chain Graph.sortInput? node).2), g)
  := rfl

/-- What is folded of a distinct: itself, if the table is one. -/
def distinctOf (b : Block) (g : Graph) (node : NodeId) : Block × NodeId :=
  match g.node node with
  | .distinct t =>
    ({ b.fold node with clauses := { b.clauses with distinct := true } }, t)
  | _ => (b, node)

theorem run_foldDistinct (b : Block) (node : NodeId) (g : Graph) :
  (b.foldDistinct node).run g = .ok (b.distinctOf g node, g)
  := by
  rw [foldDistinct, distinctOf]
  have h : ∀ m : Node, ((match m with
      | .distinct t =>
        let b := b.fold node
        return ({ b with clauses := { b.clauses with distinct := true } }, t)
      | _ => return (b, node) : Analysis (Block × NodeId))).run g
        = .ok ((match m with
      | .distinct t =>
        ({ b.fold node with clauses := { b.clauses with distinct := true } }, t)
      | _ => (b, node)), g) := by
    intro m
    cases m <;> rfl
  exact h (g.node node)

/-- The block of a table below which a FROM clause is drawn: that of an aggregation with the
selections above it, of a projection that the selections above it can be pushed below, or of
any other table. -/
inductive Built (Q : QuerySpec) (b : Block) (node : NodeId) (g : Graph) : Block → Prop where
  | aggregation {input : NodeId} {keys metrics having : List NodeId} {b' : Block}
      (hnode : g.node (g.peel node).table = .aggregation input keys metrics having)
      (hdraws : Draws Q (g.operand input true true).chain
        (g.joinTree (g.operand input true true).table)
        ((b.foldAll (g.peel node).chain).output (g.peel node).table) g b') :
    Built Q b node g
      { b' with
        aggregate := true
        clauses := { b'.clauses with
          select := keys ++ metrics
          predicates := (g.joinTree (g.operand input true true).table).hoisted
            ++ (g.operand input true true).predicates
          groupBy := List.range keys.length
          having := having ++ (g.peel node).predicates } }
  | projection {fs : List Fused} {core input : NodeId} {selections : List NodeId} {b' : Block}
      (hnode : g.isProjection (g.peel node).table = true)
      (hpushes : (Folding.of ((g.peel node).chain ++ [(g.peel node).table])).pushes g
        (g.peel node).predicates = true)
      (hfuses : g.FusesTo (g.peel node).table fs core)
      (hcore : g.node core = .projection input selections)
      (hdraws : Draws Q (g.operand (g.chain Graph.sortInput? input).2 true true).chain
        (g.joinTree (g.operand (g.chain Graph.sortInput? input).2 true true).table)
        ((((b.foldAll (g.peel node).chain).output (g.peel node).table).fused fs).sorted
          (g.chain Graph.sortInput? input).1 (g.innerKeys (g.chain Graph.sortInput? input).1))
        g b') :
    Built Q b node g (b'.selecting selections
      ((g.joinTree (g.operand (g.chain Graph.sortInput? input).2 true true).table).hoisted
        ++ (g.operand (g.chain Graph.sortInput? input).2 true true).predicates
        ++ (g.peel node).predicates))
  | other {b' : Block}
      (hnode : ∀ input keys metrics having,
        g.node (g.peel node).table ≠ .aggregation input keys metrics having)
      (hpushes : (g.isProjection (g.peel node).table
        && (Folding.of ((g.peel node).chain ++ [(g.peel node).table])).pushes g
          (g.peel node).predicates) = false)
      (hdraws : Draws Q [] (g.joinTree (g.peel node).table) (b.foldAll (g.peel node).chain)
        g b') :
    Built Q b node g (b'.selecting [(g.peel node).table]
      ((g.joinTree (g.peel node).table).hoisted ++ (g.peel node).predicates))

/-- A FROM clause is still that of the join tree when the graph grows. -/
theorem Draws.mono (hQ : Q.Persistent) (e : g.Extends g') (hg : g.WellFounded)
    (hg' : g'.WellFounded) {folded : List NodeId} {tree : JoinTree} {b b' : Block}
    (h : Draws Q folded tree b g b') :
  Draws Q folded tree b g' b'
  := by
  refine ⟨h.clauses, h.folding, h.aggregate, h.added, ?_, ?_⟩
  · exact fun s hs => (h.nested s hs).mono hQ e hg hg'
  · intro leaf hleaf
    obtain ⟨hhas, hsourced⟩ := h.sourced leaf hleaf
    exact ⟨hhas.mono e, hsourced.mono e hg hhas (List.prefix_refl _)⟩

/-- A block is built in the same way when the graph grows. -/
theorem Built.mono (hQ : Q.Persistent) (e : g.Extends g') (hg : g.WellFounded)
    (hg' : g'.WellFounded) {b b' : Block} {node : NodeId} (hnode : g.Has node)
    (h : Built Q b node g b') :
  Built Q b node g' b'
  := by
  have hpeel := e.peel_eq hg hg' hnode
  have htable := hg.has_peel hnode
  have hpredicates := hg.has_predicates hnode
  cases h with
  | @aggregation input keys metrics having b' hn hdraws =>
      have hinput : g.Has input := hg.has_child htable (by rw [hn]; exact List.mem_cons_self)
      have hop := e.operand_eq hg hg' hinput true true
      have htree := e.joinTree_eq hg hg' (hg.has_operand hinput true true)
      rw [← hpeel] at hn hdraws ⊢
      rw [← htree, ← hop] at hdraws ⊢
      exact .aggregation (e.node_eq_of hn nofun) (hdraws.mono hQ e hg hg')
  | @projection fs core input selections b' hn hpushes hfuses hcore hdraws =>
      have hinput : g.Has input :=
        hg.has_child (Graph.has_of_node hcore nofun) (by rw [hcore]; exact List.mem_cons_self)
      have hchain := e.chain_eq Graph.follows_sort hg hg' hinput
      have hsource := hg.has_chain Graph.follows_sort hinput
      have hkeys := e.innerKeys_eq (hg.has_of_mem_chain Graph.follows_sort hinput)
      have hop := e.operand_eq hg hg' hsource true true
      have htree := e.joinTree_eq hg hg' (hg.has_operand hsource true true)
      rw [← e.isProjection_eq htable] at hn
      rw [← Folding.pushes_extends e hg hg' _ hpredicates] at hpushes
      rw [← hpeel] at hn hpushes hfuses hdraws ⊢
      rw [← hkeys, ← htree, ← hop, ← hchain] at hdraws
      rw [← htree, ← hop, ← hchain]
      exact .projection hn hpushes (hfuses.mono e hg hg' (by rwa [hpeel])) (e.node_eq_of hcore nofun)
        (hdraws.mono hQ e hg hg')
  | @other b' hn hpushes hdraws =>
      have htree := e.joinTree_eq hg hg' htable
      rw [← e.isProjection_eq htable, ← Folding.pushes_extends e hg hg' _ hpredicates] at hpushes
      simp only [← e.node_eq htable] at hn
      rw [← htree] at hdraws ⊢
      rw [← hpeel] at hn hpushes hdraws ⊢
      exact .other hn hpushes (hdraws.mono hQ e hg hg')

/-- The block of an aggregation. -/
theorem grows_aggregation (hQ : Q.Persistent) (hcompile : Q.Meets compile)
    (hg : g.WellFounded) {b : Block} {node : NodeId} (hnode : g.Has node)
    (hb : ∀ s ∈ b.nested, s.Derived Q g) {input : NodeId} {keys metrics having : List NodeId}
    (htable : g.node (g.peel node).table = .aggregation input keys metrics having) :
  Grows (Built Q b node)
    ((b.foldAll (g.peel node).chain).aggregation compile (g.peel node).table
      (g.peel node).predicates) g
  := by
  have hhas := hg.has_peel hnode
  have hinput : g.Has input := by
    apply hg.has_child hhas
    rw [htable]
    exact List.mem_cons_self
  rw [Block.aggregation]
  apply grows_get
  simp only [htable]
  apply grows_bind (grows_fromSource hQ hcompile hg hinput
    (b := (b.foldAll (g.peel node).chain).output (g.peel node).table) hb)
  rintro ⟨b', predicates⟩ g' hg' e ⟨hdraws, rfl⟩
  apply grows_pure hg'
  have hop := e.operand_eq hg hg' hinput true true
  have hpeel := e.peel_eq hg hg' hnode
  have htree := e.joinTree_eq hg hg' (hg.has_operand hinput true true)
  have := @Built.aggregation Q b node g' input keys metrics having b'
    (by rw [hpeel]; exact e.node_eq_of htable nofun)
    (by rw [hop, htree, hpeel]; exact hdraws)
  rw [hop, htree, hpeel] at this
  exact this

/-- The node that a projection is fused to is a projection. -/
theorem isProjection_of_fusesTo {node core : NodeId} (hn : g.isProjection node = true)
    {fs : List Fused} (h : g.FusesTo node fs core) :
  g.isProjection core = true
  := by
  induction h with
  | nil => exact hn
  | cons h _ ih =>
      obtain ⟨_, _, _, _, _, hnode, _, _⟩ := h
      apply ih
      rw [Graph.isProjection, hnode]

/-- The block of a projection. -/
theorem grows_projection (hQ : Q.Persistent) (hcompile : Q.Meets compile)
    (hg : g.WellFounded) {b : Block} {node : NodeId} (hnode : g.Has node)
    (hb : ∀ s ∈ b.nested, s.Derived Q g)
    (htable : g.isProjection (g.peel node).table = true)
    (hpushes : (Folding.of ((g.peel node).chain ++ [(g.peel node).table])).pushes g
      (g.peel node).predicates = true) :
  Grows (Built Q b node)
    ((b.foldAll (g.peel node).chain).projection compile (g.peel node).table
      (g.peel node).predicates) g
  := by
  rw [Block.projection]
  have hhas := hg.has_peel hnode
  apply grows_bind (grows_fuseAll _ hg hhas (Nat.lt_succ_of_le (hg.fusionDepth_le _)))
  rintro ⟨b₁, core⟩ g₁ hg₁ e₁ ⟨fs, hfuses, rfl⟩
  have htable₁ : g₁.isProjection (g.peel node).table = true := by
    rw [e₁.isProjection_eq hhas, htable]
  have hcore := isProjection_of_fusesTo htable₁ hfuses
  apply grows_get
  obtain ⟨input, selections, hcore⟩ := Graph.eq_projection hcore
  have hinput : g₁.Has input := by
    apply hg₁.has_child (Graph.has_of_node hcore nofun)
    rw [hcore]
    exact List.mem_cons_self
  simp only [hcore]
  apply grows_run (run_foldInnerSorts _ input g₁)
  have hsource := hg₁.has_chain Graph.follows_sort hinput
  have hnested : ∀ s ∈ ((((b.foldAll (g.peel node).chain).output (g.peel node).table).fused fs).sorted
      (g₁.chain Graph.sortInput? input).1
      (g₁.innerKeys (g₁.chain Graph.sortInput? input).1)).nested, s.Derived Q g₁ := by
    intro s hs
    rw [fused_eq] at hs
    exact (hb s hs).mono hQ e₁ hg hg₁
  apply grows_bind (grows_fromSource hQ hcompile hg₁ hsource hnested)
  rintro ⟨b', predicates⟩ g' hg' e' ⟨hdraws, rfl⟩
  apply grows_pure hg'
  have e := e₁.trans e'
  have hop := e'.operand_eq hg₁ hg' hsource true true
  have hpeel := e.peel_eq hg hg' hnode
  have hchain := e'.chain_eq Graph.follows_sort hg₁ hg' hinput
  have htree := e'.joinTree_eq hg₁ hg' (hg₁.has_operand hsource true true)
  have hkeys : g'.innerKeys (g₁.chain Graph.sortInput? input).1
      = g₁.innerKeys (g₁.chain Graph.sortInput? input).1 :=
    e'.innerKeys_eq (hg₁.has_of_mem_chain Graph.follows_sort hinput)
  have := @Built.projection Q b node g' fs core input selections b'
    (by rw [hpeel, e.isProjection_eq hhas, htable])
    (by rw [hpeel, Folding.pushes_extends e hg hg' _ (hg.has_predicates hnode), hpushes])
    (by rw [hpeel]; exact hfuses.mono e' hg₁ hg' (hhas.mono e₁))
    (e'.node_eq_of hcore nofun)
    (by rw [hchain, hop, htree, hpeel, hkeys]; exact hdraws)
  rw [hchain, hop, htree, hpeel] at this
  exact this

/-- The block of any other table. -/
theorem grows_other (hQ : Q.Persistent) (hcompile : Q.Meets compile)
    (hg : g.WellFounded) {b : Block} {node : NodeId} (hnode : g.Has node)
    (hb : ∀ s ∈ b.nested, s.Derived Q g)
    (hother : ∀ input keys metrics having,
      g.node (g.peel node).table ≠ .aggregation input keys metrics having)
    (hpushes : (g.isProjection (g.peel node).table
      && (Folding.of ((g.peel node).chain ++ [(g.peel node).table])).pushes g
        (g.peel node).predicates) = false) :
  Grows (Built Q b node)
    (do
      let (b, filters) ← (b.foldAll (g.peel node).chain).fromTables compile (g.peel node).table
      return b.selecting [(g.peel node).table] (filters ++ (g.peel node).predicates)) g
  := by
  have htable := hg.has_peel hnode
  apply grows_bind
    (grows_fromTables hQ hcompile hg htable (b := b.foldAll (g.peel node).chain) hb)
  rintro ⟨b', filters⟩ g' hg' e ⟨hdraws, rfl⟩
  apply grows_pure hg'
  have hpeel := e.peel_eq hg hg' hnode
  have htree := e.joinTree_eq hg hg' htable
  have := @Built.other Q b node g' b'
    (by
      intro input keys metrics having
      rw [hpeel, e.node_eq htable]
      exact hother input keys metrics having)
    (by
      rw [hpeel, e.isProjection_eq htable,
        Folding.pushes_extends e hg hg' _ (hg.has_predicates hnode), hpushes])
    (by rw [hpeel, htree]; exact hdraws)
  rw [hpeel, htree] at this
  exact this

/-- The core of a block is built from the table below its selections. -/
theorem grows_core (hQ : Q.Persistent) (hcompile : Q.Meets compile)
    (hg : g.WellFounded) {b : Block} {node : NodeId} (hnode : g.Has node)
    (hb : ∀ s ∈ b.nested, s.Derived Q g) :
  Grows (Built Q b node) (b.core compile node) g
  := by
  rw [core]
  apply grows_get
  split
  · exact grows_fail hg _
  · simp only
    split
    case h_1 input keys metrics having htable =>
        exact grows_aggregation hQ hcompile hg hnode hb htable
    case h_2 hother =>
        apply grows_bind (grows_pushed hg _ _ (hg.has_predicates hnode))
        intro pushed g₁ hg₁ e₁ hpushed
        have htable := hg.has_peel hnode
        have hb₁ : ∀ s ∈ b.nested, s.Derived Q g₁ := fun s hs => (hb s hs).mono hQ e₁ hg hg₁
        rw [← e₁.isProjection_eq htable,
          ← Folding.pushes_extends e₁ hg hg₁ _ (hg.has_predicates hnode)] at hpushed
        simp only [← e₁.node_eq htable] at hother
        rw [← e₁.peel_eq hg hg₁ hnode] at hpushed hother ⊢
        cases pushed with
        | true =>
            rw [if_pos rfl]
            obtain ⟨hprojection, hpushes⟩ := Bool.and_eq_true_iff.mp hpushed.symm
            exact grows_projection hQ hcompile hg₁ (hnode.mono e₁) hb₁ hprojection hpushes
        | false =>
            rw [if_neg Bool.false_ne_true]
            exact grows_other hQ hcompile hg₁ (hnode.mono e₁) hb₁ hother hpushed.symm

end Block

end RelSql
