import RelSql.Proofs.Block.Valid
import RelSql.Proofs.Join.Tree

/-!
# The FROM clause of a block

The tables of the FROM clause, and the predicates that the block takes over, are those of the
join tree of its source.  Apart from them the block is the same, with nested queries for
the tables that are not physical.
-/

namespace RelSql.Block

open Analysis

variable {Q : QuerySpec} {g : Graph} {compile : NodeId → Analysis Query}

/-- The second block is the first one, with operators folded into it, and with nested queries
for the tables `leaves`. -/
structure Feeds (Q : QuerySpec) (folded leaves : List NodeId) (b : Block) (g : Graph)
    (b' : Block) : Prop where
  clauses : b'.clauses = b.clauses
  folding : b'.folding = { b.folding with fused := b.folding.fused ++ folded }
  aggregate : b'.aggregate = b.aggregate
  added : b.nested <+: b'.nested
  nested : ∀ s ∈ b'.nested, s.Derived Q g
  sourced : ∀ leaf ∈ leaves, g.Has leaf ∧ g.Sourced b'.nested leaf

theorem Feeds.refl {b : Block} (h : ∀ s ∈ b.nested, s.Derived Q g) :
  Feeds Q [] [] b g b
  := ⟨rfl, by rw [List.append_nil], rfl, List.prefix_refl _, h,
    fun _ hl => absurd hl List.not_mem_nil⟩

/-- Feeding a block twice. -/
theorem Feeds.trans {g' : Graph} (hg : g.WellFounded)
    (e : g.Extends g') {folded folded' leaves leaves' : List NodeId}
    {b b' b'' : Block} (h : Feeds Q folded leaves b g b')
    (h' : Feeds Q folded' leaves' b' g' b'') :
  Feeds Q (folded ++ folded') (leaves ++ leaves') b g' b''
  := by
  constructor
  · rw [h'.clauses, h.clauses]
  · rw [h'.folding, h.folding, List.append_assoc]
  · rw [h'.aggregate, h.aggregate]
  · exact h.added.trans h'.added
  · exact h'.nested
  · intro leaf hl
    rcases List.mem_append.mp hl with hl | hl
    · obtain ⟨hhas, hs⟩ := h.sourced leaf hl
      exact ⟨hhas.mono e, hs.mono e hg hhas h'.added⟩
    · exact h'.sourced leaf hl

/-- Folding operators into a block. -/
theorem feeds_foldAll {b : Block} (h : ∀ s ∈ b.nested, s.Derived Q g) (nodes : List NodeId) :
  Feeds Q nodes [] b g (b.foldAll nodes)
  := ⟨rfl, rfl, rfl, List.prefix_refl _, h, fun _ hl => absurd hl List.not_mem_nil⟩

/-- A table of the FROM clause is physical, or it is compiled unless it has been before. -/
theorem grows_leaf (hQ : Q.Persistent) (hcompile : Q.Meets compile) (hg : g.WellFounded)
    {b : Block} (hb : ∀ s ∈ b.nested, s.Derived Q g) {node : NodeId} (hnode : g.Has node) :
  Grows (Feeds Q [] [node] b) (b.leaf compile node) g
  := by
  have hsame : ∀ {g' : Graph}, g'.WellFounded → g.Extends g' → g'.Sourced b.nested node →
      Feeds Q [] [node] b g' b := by
    intro g' hg' e hs
    refine ⟨rfl, by rw [List.append_nil], rfl, List.prefix_refl _, ?_, ?_⟩
    · exact fun s hmem => (hb s hmem).mono hQ e hg hg'
    · intro leaf hl
      rw [List.mem_singleton.mp hl]
      exact ⟨hnode.mono e, hs⟩
  rw [leaf]
  apply grows_get
  simp only
  split
  case h_1 t ht =>
      split
      · exact grows_fail hg _
      case isFalse hname =>
          apply grows_pure hg
          apply hsame hg (.refl _)
          refine .inl ⟨t, ht, ?_⟩
          simpa [Option.isSome_iff_ne_none] using hname
  case h_2 hother =>
      split
      · exact grows_fail hg _
      case isFalse hr =>
        split
        case isTrue hd =>
            apply grows_pure hg
            exact hsame hg (.refl _) (.inr hd)
        case isFalse hd =>
            have hbody := hg.has_body hnode
            apply grows_bind (hcompile (g.body node) g hg hbody)
            intro q g' hg' e hq
            apply grows_pure hg'
            have hcompiled : Nested.Derived Q g' ⟨node, .table, none, q⟩ := by
              refine ⟨rfl, hnode.mono e, rfl, g.body node, hbody.mono e, ?_, hq⟩
              rw [← e.body_eq hnode]
              apply Nested.Source.table
              · rw [e.isRelation_eq hnode]
                exact Graph.isRelation_of_body (by simpa using hr)
              · intro t
                rw [e.body_eq hnode, e.node_eq hbody]
                exact hother t
            refine ⟨rfl, by rw [List.append_nil]; rfl, rfl, List.prefix_append _ _, ?_, ?_⟩
            · intro s hs
              rcases List.mem_append.mp hs with hs | hs
              · exact (hb s hs).mono hQ e hg hg'
              · rw [List.mem_singleton.mp hs]
                exact hcompiled
            · intro leaf hl
              rw [List.mem_singleton.mp hl]
              refine ⟨hnode.mono e, .inr ?_⟩
              rw [derivedFor?, nest, List.find?_isSome]
              exact ⟨_, List.mem_append_right _ (List.mem_singleton_self _), by simp⟩

/-- Whether predicates can be evaluated below a projection. -/
theorem grows_pushed (hg : g.WellFounded) (table : NodeId) (fused : List NodeId)
    {predicates : List NodeId} (hp : ∀ p ∈ predicates, g.Has p) :
  Grows (fun _ pushed => pushed
      = (g.isProjection table && (Folding.of fused).pushes g predicates))
    (if g.isProjection table then pushable fused predicates else return false) g
  := by
  split
  case isTrue h =>
      apply (grows_pushable hg hp).imp
      intro pushed g' _ _ hpushed
      rw [hpushed, h, Bool.true_and]
  case isFalse h =>
      apply grows_pure hg
      rw [Bool.eq_false_iff.mpr h, Bool.false_and]

/-- An operand of a join: the selections that are taken off it are folded. -/
theorem grows_operand (hQ : Q.Persistent) (hg : g.WellFounded) {b : Block}
    (hb : ∀ s ∈ b.nested, s.Derived Q g) {node : NodeId} (hnode : g.Has node)
    (hoist left : Bool) :
  Grows (fun g' r => Feeds Q (g.operand node hoist left).chain [] b g' r.1
      ∧ r.2.1 = (g.operand node hoist left).table
      ∧ r.2.2 = (g.operand node hoist left).predicates)
    (b.operand node hoist left) g
  := by
  have hkept : ∀ {g' : Graph}, g'.WellFounded → g.Extends g' →
      g.takesOff node hoist left = false →
      Grows (fun g' r => Feeds Q (g.operand node hoist left).chain [] b g' r.1
          ∧ r.2.1 = (g.operand node hoist left).table
          ∧ r.2.2 = (g.operand node hoist left).predicates)
        (pure (b, node, [])) g' := by
    intro g' hg' e hoff
    apply grows_pure hg'
    rw [Graph.operand, hoff]
    exact ⟨.refl fun s hs => (hb s hs).mono hQ e hg hg', rfl, rfl⟩
  rw [operand]
  apply grows_get
  simp only
  split
  case isTrue h =>
      apply hkept hg (.refl _)
      rw [Graph.takesOff]
      cases hoist <;> simp_all
  case isFalse h =>
      have hflags : hoist = true ∧ (g.peel node).chain.isEmpty = false := by
        cases hoist <;> simp_all
      apply grows_bind (grows_pushed hg _ _ (hg.has_predicates hnode))
      intro pushed g' hg' e hpushed
      have hoff : g.takesOff node hoist left
          = (!pushed && (left || !g.isJoin (g.peel node).table)) := by
        rw [Graph.takesOff, ← hpushed, hflags.1, hflags.2]
        rfl
      cases pushed with
      | true =>
          apply hkept hg' e
          rw [hoff, Bool.not_true, Bool.false_and]
      | false =>
          rw [Bool.not_false, Bool.true_and] at hoff
          rw [if_neg Bool.false_ne_true]
          split
          case isTrue hj =>
              apply hkept hg' e
              rw [hoff]
              cases left <;> simp_all
          case isFalse hj =>
              apply grows_pure hg'
              have hon : g.takesOff node hoist left = true := by
                rw [hoff]
                cases left <;> simp_all
              rw [Graph.operand, hon]
              exact ⟨feeds_foldAll (fun s hs => (hb s hs).mono hQ e hg hg') _, rfl, rfl⟩

/-- The tables of a left-deep join, and the predicates taken over from its operands, are
those of its join tree. -/
theorem grows_joinedTables (hQ : Q.Persistent) (hcompile : Q.Meets compile) (n : Nat) :
    ∀ {g : Graph} {b : Block} {node : NodeId}, g.WellFounded → g.Has node →
      (∀ s ∈ b.nested, s.Derived Q g) →
      Grows (fun g' r => Feeds Q (g.joinTree node).folded (g.joinTree node).leaves b g' r.1
          ∧ r.2.1 = (g.joinTree node).tables ∧ r.2.2 = (g.joinTree node).hoisted)
        (joinedTables compile n b node) g := by
  induction n with
  | zero =>
      intro g b node hg _ _
      exact grows_fail hg _
  | succ n ih =>
      intro g b node hg hnode hb
      rw [joinedTables]
      apply grows_get
      split
      case h_1 kind l r predicates hn =>
          obtain ⟨hl, hr, _⟩ := hg.has_join hnode hn
          have hlop := hg.has_operand hl (kind.preservesFilters true) true
          have hrop := hg.has_operand hr (kind.preservesFilters false) false
          rw [Graph.joinTree_join hg hn]
          apply grows_bind (grows_operand hQ hg (b := b.fold node) hb hl _ _)
          rintro ⟨b₁, l', hoisted⟩ g₁ hg₁ e₁ ⟨hfeed₁, rfl, rfl⟩
          apply grows_bind (ih hg₁ (hlop.mono e₁) hfeed₁.nested)
          rintro ⟨b₂, tables, inner⟩ g₂ hg₂ e₂ ⟨hfeed₂, rfl, rfl⟩
          apply grows_bind (grows_operand hQ hg₂ hfeed₂.nested ((hr.mono e₁).mono e₂) _ _)
          rintro ⟨b₃, r', filters⟩ g₃ hg₃ e₃ ⟨hfeed₃, rfl, rfl⟩
          have hr' := hg₂.has_operand ((hr.mono e₁).mono e₂) (kind.preservesFilters false) false
          apply grows_bind (grows_leaf hQ hcompile hg₃ hfeed₃.nested (hr'.mono e₃))
          intro b₄ g₄ hg₄ e₄ hfeed₄
          apply grows_pure hg₄
          have hfeed : Feeds Q _ _ b g₄ b₄ :=
            (((feeds_foldAll hb [node]).trans hg e₁ hfeed₁).trans hg₁ e₂ hfeed₂).trans hg₂
              (e₃.trans e₄) (hfeed₃.trans hg₃ e₄ hfeed₄)
          have htree := e₁.joinTree_eq hg hg₁ hlop
          have hop := (e₁.trans e₂).operand_eq hg hg₂ hr (kind.preservesFilters false) false
          rw [htree, hop] at hfeed
          rw [htree, hop]
          refine ⟨?_, rfl, rfl⟩
          simpa [JoinTree.folded, JoinTree.leaves] using hfeed
      case h_2 hn =>
          have hjoin : g.isJoin node = false := by
            rw [Graph.isJoin]
            split
            case h_1 h => exact absurd h (hn _ _ _ _)
            · rfl
          rw [Graph.joinTree_other hg hjoin]
          apply grows_bind (grows_leaf hQ hcompile hg hb hnode)
          intro b' g' hg' e hfeed
          apply grows_pure hg'
          exact ⟨hfeed, rfl, rfl⟩

/-- The second block is the first one over the FROM clause of a join tree, the joins and the
selections of which are folded, after the operators `folded`. -/
structure Draws (Q : QuerySpec) (folded : List NodeId) (tree : JoinTree) (b : Block) (g : Graph)
    (b' : Block) : Prop where
  clauses : b'.clauses = { b.clauses with from? := some tree.tables }
  folding : b'.folding = { b.folding with fused := b.folding.fused ++ folded ++ tree.folded }
  aggregate : b'.aggregate = b.aggregate
  added : b.nested <+: b'.nested
  nested : ∀ s ∈ b'.nested, s.Derived Q g
  sourced : ∀ leaf ∈ tree.leaves, g.Has leaf ∧ g.Sourced b'.nested leaf

theorem Feeds.draws (folded : List NodeId) (tree : JoinTree) {b b' : Block}
    (h : Feeds Q (folded ++ tree.folded) tree.leaves b g b') :
  Draws Q folded tree b g
    { b' with clauses := { b'.clauses with from? := some tree.tables } }
  := by
  refine ⟨?_, ?_, h.aggregate, h.added, h.nested, h.sourced⟩
  · rw [h.clauses]
  · rw [h.folding, List.append_assoc]

/-- The FROM clause of a table is that of its join tree. -/
theorem grows_fromTables (hQ : Q.Persistent) (hcompile : Q.Meets compile)
    (hg : g.WellFounded) {b : Block} {node : NodeId} (hnode : g.Has node)
    (hb : ∀ s ∈ b.nested, s.Derived Q g) :
  Grows (fun g' r => Draws Q [] (g.joinTree node) b g' r.1 ∧ r.2 = (g.joinTree node).hoisted)
    (b.fromTables compile node) g
  := by
  rw [fromTables]
  apply grows_bind (grows_joinedTables hQ hcompile _ hg hnode hb)
  rintro ⟨b', tables, hoisted⟩ g' hg' e ⟨hfeed, rfl, rfl⟩
  exact grows_pure hg' ⟨hfeed.draws [] _, rfl⟩

/-- The FROM clause of a table is that of the table below its selections, which are taken off
unless they can be evaluated below a projection. -/
theorem grows_fromSource (hQ : Q.Persistent) (hcompile : Q.Meets compile)
    (hg : g.WellFounded) {b : Block} {node : NodeId} (hnode : g.Has node)
    (hb : ∀ s ∈ b.nested, s.Derived Q g) :
  Grows (fun g' r =>
      Draws Q (g.operand node true true).chain (g.joinTree (g.operand node true true).table)
          b g' r.1
        ∧ r.2 = (g.joinTree (g.operand node true true).table).hoisted
          ++ (g.operand node true true).predicates)
    (b.fromSource compile node) g
  := by
  rw [fromSource]
  apply grows_get
  simp only
  split
  case isTrue h =>
      have hoff : g.takesOff node true true = false := by
        rw [Graph.takesOff, h]
        rfl
      rw [Graph.operand, hoff]
      apply (grows_fromTables hQ hcompile hg hnode hb).imp
      rintro ⟨b', hoisted⟩ g' _ _ ⟨hdraws, rfl⟩
      exact ⟨hdraws, (List.append_nil _).symm⟩
  case isFalse h =>
      have hchain : (g.peel node).chain.isEmpty = false := Bool.eq_false_iff.mpr h
      apply grows_bind (grows_pushed hg _ _ (hg.has_predicates hnode))
      intro pushed g' hg' e hpushed
      have hoff : g.takesOff node true true = !pushed := by
        rw [Graph.takesOff, ← hpushed, hchain]
        simp
      have hb' : ∀ s ∈ b.nested, s.Derived Q g' := fun s hs => (hb s hs).mono hQ e hg hg'
      cases pushed with
      | true =>
          rw [if_pos rfl, Graph.operand, hoff]
          have hjoin := Graph.isJoin_of_peel hg hchain
          rw [Bool.not_true, if_neg Bool.false_ne_true, Graph.joinTree_other hg hjoin]
          apply grows_bind (grows_leaf hQ hcompile hg' hb' (hnode.mono e))
          intro b' g'' hg'' e' hfeed
          exact grows_pure hg'' ⟨hfeed.draws [] (.table node), rfl⟩
      | false =>
          rw [if_neg Bool.false_ne_true, Graph.operand, hoff, Bool.not_false, if_pos rfl]
          have htable := hg.has_peel hnode
          apply grows_bind
            (grows_fromTables hQ hcompile hg' (b := b.foldAll (g.peel node).chain)
              (htable.mono e) hb')
          rintro ⟨b', hoisted⟩ g'' hg'' e' ⟨hdraws, rfl⟩
          rw [e.joinTree_eq hg hg' htable] at hdraws ⊢
          apply grows_pure hg''
          refine ⟨?_, rfl⟩
          refine ⟨hdraws.clauses, ?_, hdraws.aggregate, hdraws.added, hdraws.nested,
            hdraws.sourced⟩
          rw [hdraws.folding, List.append_nil]
          rfl

end RelSql.Block
