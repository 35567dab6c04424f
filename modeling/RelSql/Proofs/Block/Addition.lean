import RelSql.Proofs.Block.Table

/-!
# What fusion adds

A fused projection is none of the nodes that were there before, and neither is the selection
that it is over when there are selections between the two projections.  The projections that
the core of a block outputs are fused one after the other, each with a node that is added.
-/

namespace RelSql

open Analysis LiftM

variable {Q : QuerySpec} {g g' old : Graph} {s : Folding} {st : LiftState}

/-- A node is added to a graph that extends another one. -/
theorem Lift.keeps_push_added {mode : LiftMode} (hs : st.Sound s mode)
    (e : old.Extends st.graph) {n : Node} (hn : ∀ c ∈ n.children, st.graph.Has c) :
  Keeps (LiftState.Sound s mode) (fun g id => (g.Has id ∧ g.node id = n) ∧ ¬ old.Has id)
    (Lift.push n) st
  := by
  obtain ⟨hs', e', hpushed⟩ := Lift.keeps_push hs hn
  exact ⟨hs', e', hpushed, Nat.not_lt.mpr e.size_le⟩

namespace Fused

/-- The selection that a fused projection is over is added. -/
theorem keeps_input_added (hs : st.Sound s .substitute) (e : old.Extends st.graph)
    {table : NodeId} {predicates : List NodeId} (ht : st.graph.Has table)
    (hp : ∀ p ∈ predicates, st.graph.Has p) :
  Keeps (LiftState.Sound s .substitute)
    (fun g source => g.Has source ∧ (predicates ≠ [] → ¬ old.Has source))
    (input s table predicates) st
  := by
  rw [input]
  split
  case isTrue hnil => exact keeps_pure hs ⟨ht, fun hne => absurd hnil hne⟩
  case isFalse =>
      apply keeps_bind (keeps_values hs hp)
      intro lifted st' hs' e' hl
      apply (Lift.keeps_push_added hs' (e.trans e') _).imp
      · exact fun source st'' _ _ hnew => ⟨hnew.1.1, fun _ => hnew.2⟩
      · intro c hc
        rcases List.mem_cons.mp hc with rfl | hc
        · exact ht.mono e'
        · exact forall₂_right hl (fun _ _ h => h.target) c hc

/-- A fused projection is added, and so is the selection that it is over. -/
theorem keeps_rebuild_added (hs : st.Sound s .substitute) (e : old.Extends st.graph)
    {table : NodeId} {outer inner predicates : List NodeId} (ht : st.graph.Has table)
    (houter : ∀ id ∈ outer, st.graph.Has id) (hinner : ∀ id ∈ inner, st.graph.Has id)
    (hp : ∀ p ∈ predicates, st.graph.Has p) :
  Keeps (LiftState.Sound s .substitute)
    (fun g node => ¬ old.Has node ∧ ∃ source items, g.node node = .projection source items
      ∧ (predicates ≠ [] → ¬ old.Has source))
    (rebuild s table outer inner predicates) st
  := by
  rw [rebuild]
  apply keeps_bind
  · apply keeps_mapM (R := fun g item parts => g.Has item ∧ s.LiftsItem g inner item parts)
      (fun _ h => h.wellFounded) _ outer hs
    · intro item hitem st' hs' e'
      exact keeps_items hs' ((houter item hitem).mono e')
    · intro item g g' parts hg hg' e h
      exact ⟨h.1.mono e, h.2.mono e hg hg' h.1⟩
  · intro parts st₁ hs₁ e₁ hparts
    apply keeps_bind (keeps_input_added hs₁ (e.trans e₁) (ht.mono e₁)
      fun p hmem => (hp p hmem).mono e₁)
    intro source st₂ hs₂ e₂ hsource
    have hall : ∀ id ∈ parts.flatten, st₂.graph.Has id := by
      intro id hid
      exact (has_parts (fun i hi => (hinner i hi).mono e₁) hparts id hid).mono e₂
    apply (Lift.keeps_push_added hs₂ ((e.trans e₁).trans e₂) _).imp
    · intro node st₃ _ _ hnew
      exact ⟨hnew.2, source, parts.flatten, hnew.1.2, hsource.2⟩
    · intro c hc
      rcases List.mem_cons.mp hc with rfl | hc
      · exact hsource.1
      · exact hall c hc

end Fused

namespace Graph

/-- A projection has been fused to one that is not a node of `old`, and neither is the input of
that when there are selections below the given projection. -/
inductive Adds (old g : Graph) (projection node : NodeId) : Prop where
  | intro {input source : NodeId} {outer items : List NodeId}
      (hprojection : g.node projection = .projection input outer)
      (hnode : g.node node = .projection source items) (hnew : ¬ old.Has node)
      (hsource : (g.peel input).predicates ≠ [] → ¬ old.Has source) :
    Adds old g projection node

theorem Adds.mono (e : g.Extends g') (hg : g.WellFounded) (hg' : g'.WellFounded)
    {projection node : NodeId} (h : old.Adds g projection node) :
  old.Adds g' projection node
  := by
  obtain @⟨input, source, outer, items, hprojection, hnode, hnew, hsource⟩ := h
  have hinput : g.Has input := by
    apply hg.has_child (has_of_node hprojection nofun)
    rw [hprojection]
    exact List.mem_cons_self
  refine .intro (e.node_eq_of hprojection nofun) (e.node_eq_of hnode nofun) hnew ?_
  rw [e.peel_eq hg hg' hinput]
  exact hsource

/-- Fusing a projection adds the fused one. -/
theorem fuse_adds (hg : g.WellFounded) (e : old.Extends g) {projection : NodeId} :
  ∀ f ∈ (g.fuse projection).1, old.Adds (g.fuse projection).2 projection f.node
  := by
  rw [fuse]
  split
  case h_2 => rintro f ⟨⟩
  case h_1 input outer hprojection =>
      have hchild : ∀ c ∈ input :: outer, g.Has c := by
        intro c hc
        apply hg.has_child (has_of_node hprojection (by simp))
        rw [hprojection]
        exact hc
      obtain ⟨hinput, houter⟩ := List.forall_mem_cons.mp hchild
      simp only
      split
      case h_2 => rintro f ⟨⟩
      case h_1 table inner hinner =>
          have hbelow : ∀ c ∈ table :: inner, g.Has c := by
            intro c hc
            apply hg.has_child (hg.has_peel hinput)
            rw [hinner]
            exact hc
          obtain ⟨htable, hitems⟩ := List.forall_mem_cons.mp hbelow
          have hpreds := hg.has_predicates hinput
          split
          case isFalse => rintro f ⟨⟩
          case isTrue =>
              obtain ⟨hg₁, e₁⟩ := Lift.pushable_extends
                (s := .of ((g.peel input).chain ++ [(g.peel input).table])) hg hpreds
              split
              case isFalse => rintro f ⟨⟩
              case isTrue =>
                  obtain ⟨hg₂, e₂, hnew, source, items, hnode, hsource⟩ := Lift.run_spec
                    (Fused.keeps_rebuild_added
                      (Lift.sound_empty hg₁ (.of ((g.peel input).chain ++ [(g.peel input).table]))
                        .substitute)
                      (e.trans e₁) (htable.mono e₁) (fun id hid => (houter id hid).mono e₁)
                      (fun id hid => (hitems id hid).mono e₁)
                      (fun p hp => (hpreds p hp).mono e₁))
                  intro f hf
                  rw [← Option.some.inj hf]
                  have e' := e₁.trans e₂
                  refine .intro (e'.node_eq_of hprojection (by simp)) hnode hnew ?_
                  rw [e'.peel_eq hg hg₂ hinput]
                  exact hsource

end Graph

namespace Block

/-- A FROM clause changes nothing of what a block outputs. -/
theorem Draws.outputs {folded : List NodeId} {tree : JoinTree} {b b' : Block}
    (h : Draws Q folded tree b g b') :
  b'.folding.outputs = b.folding.outputs
  := by
  rw [h.folding]

/-- A projection is fused one step after the other, each adding the fused one. -/
theorem grows_fuseAll_adds (n : Nat) :
    ∀ {g : Graph} {b : Block} {projection : NodeId}, g.WellFounded → old.Extends g →
      Grows (fun g' r => ∃ nodes, r.1.folding.outputs = b.folding.outputs ++ nodes
          ∧ (projection :: nodes).IsChain (old.Adds g'))
        (fuseAll n b projection) g := by
  induction n with
  | zero =>
      intro g b projection hg _
      exact grows_pure hg ⟨[], (List.append_nil _).symm, .singleton _⟩
  | succ n ih =>
      intro g b projection hg e
      rw [fuseAll]
      obtain ⟨hfused, e', _⟩ : (g.fuse projection).2.WellFounded ∧ g.Extends (g.fuse projection).2
          ∧ ∀ f ∈ (g.fuse projection).1, (g.fuse projection).2.Fuses projection f :=
        Graph.fuse_spec hg
      apply grows_bind (R := fun g' f? => ∀ f ∈ f?, old.Adds g' projection f.node)
        (grows_modifyGet ⟨hfused, e', Graph.fuse_adds hg e⟩)
      intro f? g₁ hg₁ e₁ hf
      cases f? with
      | none => exact grows_pure hg₁ ⟨[], (List.append_nil _).symm, .singleton _⟩
      | some f =>
          apply (ih hg₁ (e.trans e₁)).imp
          rintro ⟨b', core⟩ g₂ hg₂ e₂ ⟨nodes, houtputs, hchain⟩
          refine ⟨f.node :: nodes, ?_, .cons_cons ((hf f rfl).mono e₂ hg₁ hg₂) hchain⟩
          rw [houtputs]
          simp [output, foldAll]

/-- The projections that the core of a block outputs have been fused one after the other. -/
theorem grows_core_adds {compile : NodeId → Analysis Query} (hQ : Q.Persistent)
    (hcompile : Q.Meets compile) (hg : g.WellFounded) {b : Block} {node : NodeId}
    (hnode : g.Has node) (hb : ∀ s ∈ b.nested, s.Derived Q g) :
  Grows (fun g' b' => ∃ nodes, b'.folding.outputs = b.folding.outputs ++ nodes
      ∧ nodes.IsChain (g.Adds g'))
    (b.core compile node) g
  := by
  have hpeel := hg.has_peel hnode
  rw [core]
  apply grows_get
  split
  · exact grows_fail hg _
  · simp only
    split
    case h_1 input keys metrics having htable =>
        have hinput : g.Has input := by
          apply hg.has_child hpeel
          rw [htable]
          exact List.mem_cons_self
        rw [Block.aggregation]
        apply grows_get
        simp only [htable]
        apply grows_bind (grows_fromSource hQ hcompile hg hinput
          (b := (b.foldAll (g.peel node).chain).output (g.peel node).table) hb)
        rintro ⟨b', predicates⟩ g' hg' _ ⟨hdraws, _⟩
        exact grows_pure hg' ⟨[(g.peel node).table], hdraws.outputs, .singleton _⟩
    case h_2 =>
        apply grows_bind (grows_pushed hg _ _ (hg.has_predicates hnode))
        intro pushed g₁ hg₁ e₁ hpushed
        have hb₁ : ∀ s ∈ b.nested, s.Derived Q g₁ := fun s hs => (hb s hs).mono hQ e₁ hg hg₁
        cases pushed with
        | true =>
            rw [if_pos rfl, Block.projection]
            apply grows_bind ((grows_fuseAll _ hg₁ (hpeel.mono e₁) (Nat.lt_succ_of_le (hg₁.fusionDepth_le _))).and
              (grows_fuseAll_adds _ hg₁ e₁))
            rintro ⟨b₂, core⟩ g₂ hg₂ e₂ ⟨⟨fs, hfuses, rfl⟩, nodes, houtputs, hadded⟩
            apply grows_get
            obtain ⟨input, selections, hcore⟩ :
                ∃ input selections, g₂.node core = .projection input selections := by
              apply Graph.eq_projection
              apply isProjection_of_fusesTo _ hfuses
              rw [(e₁.trans e₂).isProjection_eq hpeel]
              exact (Bool.and_eq_true_iff.mp hpushed.symm).1
            have hinput : g₂.Has input := by
              apply hg₂.has_child (Graph.has_of_node hcore (by simp))
              rw [hcore]
              exact List.mem_cons_self
            simp only [hcore]
            apply grows_run (run_foldInnerSorts _ input g₂)
            apply grows_bind (grows_fromSource hQ hcompile hg₂
              (hg₂.has_chain Graph.follows_sort hinput) _)
            · rintro ⟨b₃, predicates⟩ g₃ hg₃ e₃ ⟨hdraws, _⟩
              refine grows_pure hg₃ ⟨(g.peel node).table :: nodes, hdraws.outputs.trans ?_,
                hadded.imp fun _ _ h => h.mono e₃ hg₂ hg₃⟩
              exact houtputs.trans (List.append_assoc _ _ _)
            · intro s hs
              rw [fused_eq] at hs
              exact (hb₁ s hs).mono hQ e₂ hg₁ hg₂
        | false =>
            rw [if_neg Bool.false_ne_true]
            apply grows_bind (grows_fromTables hQ hcompile hg₁ (hpeel.mono e₁)
              (b := b.foldAll (g.peel node).chain) hb₁)
            rintro ⟨b', filters⟩ g' hg' _ ⟨hdraws, _⟩
            exact grows_pure hg' ⟨[], hdraws.outputs.trans (List.append_nil _).symm, .nil⟩

end Block

end RelSql
