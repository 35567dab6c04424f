import RelSql.Block.Fusion
import RelSql.Proofs.Block.Valid
import RelSql.Proofs.Graph.Chain
import RelSql.Proofs.Lift.Soundness

/-!
# Fused projections

A fused projection selects the items of the inner projection in place of the table they are
all selected from, and the other items lifted.  Its input is that of the inner projection,
filtered by the lifted predicates of the selections between the two.
-/

namespace RelSql

open LiftM

variable {g g' : Graph}

/-- The items that an item of the outer projection becomes. -/
inductive Folding.LiftsItem (s : Folding) (g : Graph) (inner : List NodeId) (item : NodeId) :
    List NodeId → Prop where
  | absorbed (h : s.contains item = true) : LiftsItem s g inner item inner
  | table (h : s.contains item = false) (hr : g.isRelation item = true) :
    LiftsItem s g inner item [item]
  | value {l : NodeId} (h : s.contains item = false) (hr : g.isRelation item = false)
      (hl : s.LiftsNamed .substitute g item l) :
    LiftsItem s g inner item [l]

theorem Folding.LiftsItem.mono {s : Folding} (e : g.Extends g') (hg : g.WellFounded)
    (hg' : g'.WellFounded) {inner parts : List NodeId} {item : NodeId} (hitem : g.Has item)
    (h : s.LiftsItem g inner item parts) :
  s.LiftsItem g' inner item parts
  := by
  cases h with
  | absorbed h => exact .absorbed h
  | table h hr => exact .table h (by rw [e.isRelation_eq hitem, hr])
  | value h hr hl =>
      refine .value h (by rw [e.isRelation_eq hitem, hr]) ?_
      exact Folding.LiftsNamed.persistent item hg hg' e hl

/-- The input of a fused projection: the input of the inner one, filtered by the lifted
predicates. -/
inductive Folding.LiftsInput (s : Folding) (g : Graph) (table : NodeId)
    (predicates : List NodeId) : NodeId → Prop where
  | all (h : predicates = []) : LiftsInput s g table predicates table
  | filtered {source : NodeId} {lifted : List NodeId} (h : predicates ≠ [])
      (hsource : g.node source = .selection table lifted)
      (hlifted : List.Forall₂ (s.Lifts .substitute g) predicates lifted) :
    LiftsInput s g table predicates source

theorem Folding.LiftsInput.mono {s : Folding} (e : g.Extends g') (hg : g.WellFounded)
    (hg' : g'.WellFounded) {table source : NodeId} {predicates : List NodeId}
    (h : s.LiftsInput g table predicates source) :
  s.LiftsInput g' table predicates source
  := by
  cases h with
  | all h => exact .all h
  | filtered h hsource hlifted =>
      refine .filtered h (e.node_eq_of hsource nofun) (hlifted.imp ?_)
      exact fun p l hl => Folding.Lifts.persistent p hg hg' e hl

/-- A projection is fused with the one below it. -/
inductive Graph.Fuses (g : Graph) (projection : NodeId) (f : Fused) : Prop where
  | intro {input table source : NodeId} {outer inner : List NodeId}
      {parts : List (List NodeId)}
      (hprojection : g.node projection = .projection input outer)
      (hinner : g.node (g.peel input).table = .projection table inner)
      (habsorbed : f.absorbed = (g.peel input).chain ++ [(g.peel input).table])
      (hwhole : outer.any f.absorbed.contains = true)
      (hpushes : (Folding.of f.absorbed).pushes g (g.peel input).predicates = true)
      (hnode : g.node f.node = .projection source parts.flatten)
      (hparts : List.Forall₂ ((Folding.of f.absorbed).LiftsItem g inner) outer parts)
      (hsource : (Folding.of f.absorbed).LiftsInput g table (g.peel input).predicates source)

/-- A projection that is fused stays fused when the graph grows. -/
theorem Graph.Fuses.mono (e : g.Extends g') (hg : g.WellFounded) (hg' : g'.WellFounded)
    {projection : NodeId} {f : Fused} (h : g.Fuses projection f) :
  g'.Fuses projection f
  := by
  obtain ⟨hprojection, hinner, habsorbed, hwhole, hpushes, hnode, hparts, hsource⟩ := h
  rename_i input table source outer inner parts
  have hhas := Graph.has_of_node hprojection nofun
  have hchild : ∀ c ∈ input :: outer, g.Has c := by
    intro c hc
    apply hg.has_child hhas
    rw [hprojection]
    exact hc
  have hinput := hchild input List.mem_cons_self
  have hpeel := e.peel_eq hg hg' hinput
  refine @Graph.Fuses.intro _ _ _ _ table _ _ inner _ (e.node_eq_of hprojection nofun) ?_ ?_ hwhole
    ?_ (e.node_eq_of hnode nofun) ?_ ?_
  · rw [hpeel]
    exact e.node_eq_of hinner nofun
  · rw [hpeel, habsorbed]
  · rw [hpeel, Folding.pushes_extends e hg hg' _ (hg.has_predicates hinput), hpushes]
  · have hmem : ∀ item ∈ outer, g.Has item := fun c hc => hchild c (List.mem_cons_of_mem input hc)
    clear hwhole hnode hprojection hchild
    induction hparts with
    | nil => exact .nil
    | cons hitem _ ih =>
        obtain ⟨hhead, htail⟩ := List.forall_mem_cons.mp hmem
        exact .cons (hitem.mono e hg hg' hhead) (ih htail)
  · rw [hpeel]
    exact hsource.mono e hg hg'

namespace Fused

variable {s : Folding} {st : LiftState}

/-- An item of the outer projection becomes the items that replace it. -/
theorem keeps_items (hs : st.Sound s .substitute) {inner : List NodeId} {item : NodeId}
    (hitem : st.graph.Has item) :
  Keeps (LiftState.Sound s .substitute)
    (fun g parts => g.Has item ∧ s.LiftsItem g inner item parts) (items s inner item) st
  := by
  rw [items]
  split
  case isTrue h => exact keeps_pure hs ⟨hitem, .absorbed h⟩
  case isFalse h =>
      have h := Bool.eq_false_iff.mpr h
      apply keeps_get
      split
      case isTrue hr => exact keeps_pure hs ⟨hitem, .table h hr⟩
      case isFalse hr =>
          apply keeps_bind (Lift.keeps_named hs hitem)
          intro l st' hs' e' hl
          apply keeps_pure hs'
          refine ⟨hl.source, .value h ?_ hl⟩
          rw [e'.isRelation_eq hitem, Bool.eq_false_iff.mpr hr]

/-- The items that replace one are there. -/
theorem has_part {inner parts : List NodeId} {item : NodeId} (hinner : ∀ id ∈ inner, g.Has id)
    (hitem : g.Has item) (h : s.LiftsItem g inner item parts) :
  ∀ id ∈ parts, g.Has id
  := by
  cases h with
  | absorbed _ => exact hinner
  | table _ _ => exact List.forall_mem_singleton.mpr hitem
  | value _ _ hl => exact List.forall_mem_singleton.mpr hl.target

/-- The parts of the items of a fused projection are there. -/
theorem has_parts {inner : List NodeId} {outer : List NodeId} {parts : List (List NodeId)}
    (hinner : ∀ id ∈ inner, g.Has id)
    (h : List.Forall₂ (fun item parts => g.Has item ∧ s.LiftsItem g inner item parts) outer parts) :
  ∀ id ∈ parts.flatten, g.Has id
  := by
  intro id hid
  obtain ⟨l, hl, hmem⟩ := List.mem_flatten.mp hid
  exact forall₂_right (P := fun l => ∀ id ∈ l, g.Has id) h
    (fun _ _ h => has_part hinner h.1 h.2) l hl id hmem

/-- Values are lifted one after the other. -/
theorem keeps_values {mode : LiftMode} (hs : st.Sound s mode) {values : List NodeId}
    (hv : ∀ id ∈ values, st.graph.Has id) :
  Keeps (LiftState.Sound s mode) (fun g ls => List.Forall₂ (s.Lifts mode g) values ls)
    (values.mapM (Lift.value s mode)) st
  := by
  apply keeps_mapM (R := fun g id l => s.Lifts mode g id l) (fun _ h => h.wellFounded)
    Folding.Lifts.persistent values hs
  intro id hid st' hs' e'
  exact Lift.keeps_value hs' ((hv id hid).mono e')

/-- The input of a fused projection. -/
theorem keeps_input (hs : st.Sound s .substitute) {table : NodeId} {predicates : List NodeId}
    (ht : st.graph.Has table) (hp : ∀ p ∈ predicates, st.graph.Has p) :
  Keeps (LiftState.Sound s .substitute)
    (fun g source => g.Has source ∧ s.LiftsInput g table predicates source)
    (input s table predicates) st
  := by
  rw [input]
  split
  case isTrue h => exact keeps_pure hs ⟨ht, .all h⟩
  case isFalse h =>
      apply keeps_bind (keeps_values hs hp)
      intro lifted st' hs' e' hl
      have hchildren : ∀ c ∈ (Node.selection table lifted).children, st'.graph.Has c := by
        intro c hc
        rcases List.mem_cons.mp hc with rfl | hc
        · exact ht.mono e'
        · exact forall₂_right hl (fun _ _ h => h.target) c hc
      apply (Lift.keeps_push hs' hchildren).imp
      intro source st'' hs'' e'' hnew
      refine ⟨hnew.1, .filtered h hnew.2 (hl.imp ?_)⟩
      exact fun p l h => Folding.Lifts.persistent p hs'.wellFounded hs''.wellFounded e'' h

/-- The fused projection is one of the parts over the input, whatever is known of the parts. -/
theorem keeps_rebuild_of (hs : st.Sound s .substitute) {table : NodeId}
    {outer inner predicates : List NodeId} (ht : st.graph.Has table)
    (hp : ∀ p ∈ predicates, st.graph.Has p) {R : Graph → NodeId → List NodeId → Prop}
    (hR : ∀ item, Graph.Persistent fun g parts => R g item parts)
    (hhas : ∀ {g item parts}, R g item parts → ∀ id ∈ parts, g.Has id)
    (hitems : ∀ item ∈ outer, ∀ st' : LiftState, st'.Sound s .substitute →
      st.graph.Extends st'.graph →
      Keeps (LiftState.Sound s .substitute) (fun g parts => R g item parts) (items s inner item)
        st') :
  Keeps (LiftState.Sound s .substitute)
    (fun g node => ∃ source parts, g.node node = .projection source parts.flatten ∧
      List.Forall₂ (R g) outer parts ∧ s.LiftsInput g table predicates source)
    (rebuild s table outer inner predicates) st
  := by
  rw [rebuild]
  apply keeps_bind (keeps_mapM (fun _ h => h.wellFounded) hR outer hs hitems)
  intro parts st' hs' e' hparts
  apply keeps_bind (keeps_input hs' (ht.mono e') fun p hmem => (hp p hmem).mono e')
  intro source st'' hs'' e'' hsource
  have hparts'' : List.Forall₂ (R st''.graph) outer parts :=
    hparts.imp fun item l h => hR item hs'.wellFounded hs''.wellFounded e'' h
  have hchildren : ∀ c ∈ (Node.projection source parts.flatten).children,
      st''.graph.Has c := by
    intro c hc
    rcases List.mem_cons.mp hc with rfl | hc
    · exact hsource.1
    · obtain ⟨l, hl, hmem⟩ := List.mem_flatten.mp hc
      exact forall₂_right (P := fun l => ∀ id ∈ l, st''.graph.Has id) hparts''
        (fun _ _ => hhas) l hl c hmem
  apply (Lift.keeps_push hs'' hchildren).imp
  intro node st₃ hs₃ e₃ hnew
  refine ⟨source, parts, hnew.2, ?_, hsource.2.mono e₃ hs''.wellFounded hs₃.wellFounded⟩
  exact hparts''.imp fun item l h => hR item hs''.wellFounded hs₃.wellFounded e₃ h

/-- The fused projection is one of the parts over the input. -/
theorem keeps_rebuild (hs : st.Sound s .substitute) {table : NodeId}
    {outer inner predicates : List NodeId} (ht : st.graph.Has table)
    (houter : ∀ id ∈ outer, st.graph.Has id) (hinner : ∀ id ∈ inner, st.graph.Has id)
    (hp : ∀ p ∈ predicates, st.graph.Has p) :
  Keeps (LiftState.Sound s .substitute)
    (fun g node => ∃ source parts, g.node node = .projection source parts.flatten ∧
      List.Forall₂ (s.LiftsItem g inner) outer parts ∧ s.LiftsInput g table predicates source)
    (rebuild s table outer inner predicates) st
  := by
  let R (g : Graph) (item : NodeId) (parts : List NodeId) : Prop :=
    (∀ id ∈ inner, g.Has id) ∧ g.Has item ∧ s.LiftsItem g inner item parts
  have hrebuild : Keeps (LiftState.Sound s .substitute)
      (fun g node => ∃ source parts, g.node node = .projection source parts.flatten ∧
        List.Forall₂ (R g) outer parts ∧ s.LiftsInput g table predicates source)
      (rebuild s table outer inner predicates) st := by
    apply keeps_rebuild_of hs ht hp
    · intro item g g' parts hg hg' e h
      exact ⟨fun id hid => (h.1 id hid).mono e, h.2.1.mono e, h.2.2.mono e hg hg' h.2.1⟩
    · exact fun h => has_part h.1 h.2.1 h.2.2
    · intro item hitem st' hs' e'
      apply (keeps_items hs' ((houter item hitem).mono e')).imp
      exact fun parts st'' _ e'' h => ⟨fun id hid => ((hinner id hid).mono e').mono e'', h⟩
  apply hrebuild.imp
  rintro node st' _ _ ⟨source, parts, hnode, hparts, hsource⟩
  exact ⟨source, parts, hnode, hparts.imp fun _ _ h => h.2.2, hsource⟩

end Fused

namespace Graph

/-- A projection that is fused has another one below its filters, whose columns it selects, and
which these can be pushed below.  The two are rebuilt. -/
theorem fuse_eq_some {projection : NodeId} {f : Fused} (hf : (g.fuse projection).1 = some f) :
  ∃ input outer table inner, g.node projection = .projection input outer
    ∧ g.node (g.peel input).table = .projection table inner
    ∧ f.absorbed = (g.peel input).chain ++ [(g.peel input).table]
    ∧ outer.any f.absorbed.contains = true
    ∧ (Lift.pushable (.of f.absorbed) (g.peel input).predicates g).1 = true
    ∧ Lift.run (Fused.rebuild (.of f.absorbed) table outer inner (g.peel input).predicates)
        (Lift.pushable (.of f.absorbed) (g.peel input).predicates g).2
      = (f.node, (g.fuse projection).2)
  := by
  rw [fuse] at hf ⊢
  split at hf
  case h_2 => cases hf
  case h_1 input outer hprojection =>
      simp only at hf ⊢
      split at hf
      case h_2 => cases hf
      case h_1 table inner hinner =>
          split at hf
          case isFalse => cases hf
          case isTrue hwhole =>
              split at hf
              case isFalse => cases hf
              case isTrue hpushable =>
                  cases hf
                  refine ⟨input, outer, table, inner, hprojection, hinner, rfl, hwhole, hpushable, ?_⟩
                  simp only [hwhole, hpushable, if_true]

/-- What fusion gives: the graph is extended, and a fused projection is one. -/
theorem fuse_spec (hg : g.WellFounded) {projection : NodeId} :
  (g.fuse projection).2.WellFounded ∧ g.Extends (g.fuse projection).2
    ∧ ∀ f ∈ (g.fuse projection).1, (g.fuse projection).2.Fuses projection f
  := by
  have hnone : g.WellFounded ∧ g.Extends g ∧ ∀ f ∈ (none : Option Fused), g.Fuses projection f :=
    ⟨hg, .refl g, nofun⟩
  rw [fuse]
  split
  case h_2 => exact hnone
  case h_1 input outer hprojection =>
      have hhas := Graph.has_of_node hprojection nofun
      have hchild : ∀ c ∈ input :: outer, g.Has c := by
        intro c hc
        apply hg.has_child hhas
        rw [hprojection]
        exact hc
      have hinput := hchild input List.mem_cons_self
      simp only
      split
      case h_2 => exact hnone
      case h_1 table inner hinner =>
          split
          case isFalse => exact hnone
          case isTrue hwhole =>
              have hpreds := hg.has_predicates hinput
              obtain ⟨hg₁, e₁⟩ := Lift.pushable_extends
                (s := .of ((g.peel input).chain ++ [(g.peel input).table])) hg hpreds
              have hpushed := Lift.pushable_eq
                (s := .of ((g.peel input).chain ++ [(g.peel input).table])) hg hpreds
              split
              case isFalse => exact ⟨hg₁, e₁, nofun⟩
              case isTrue hpushes =>
                  rw [hpushed] at hpushes
                  have htable : ∀ c ∈ table :: inner, g.Has c := by
                    intro c hc
                    apply hg.has_child (hg.has_peel hinput)
                    rw [hinner]
                    exact hc
                  obtain ⟨hg₂, e₂, source, parts, hnode, hparts, hsource⟩ := Lift.run_spec
                    (Fused.keeps_rebuild
                      (Lift.sound_empty hg₁ (.of ((g.peel input).chain ++ [(g.peel input).table]))
                        .substitute)
                      ((htable table List.mem_cons_self).mono e₁)
                      (fun id hid => (hchild id (List.mem_cons_of_mem input hid)).mono e₁)
                      (fun id hid => (htable id (List.mem_cons_of_mem table hid)).mono e₁)
                      (fun p hp => (hpreds p hp).mono e₁))
                  have e := e₁.trans e₂
                  have hpeel := e.peel_eq hg hg₂ hinput
                  refine ⟨hg₂, e, ?_⟩
                  intro f hf
                  rw [← Option.some.inj hf]
                  refine @Graph.Fuses.intro _ _ _ _ table _ _ inner _
                    (e.node_eq_of hprojection nofun) ?_ ?_ hwhole ?_ hnode hparts ?_
                  · rw [hpeel]
                    exact e.node_eq_of hinner nofun
                  · rw [hpeel]
                  · rw [hpeel, Folding.pushes_extends e hg hg₂ _ hpreds, hpushes]
                  · rw [hpeel]
                    exact hsource

/-- A projection can be fused: it selects all columns of another one below the filters of its input,
and these can be pushed below that one. -/
def Fusible (g : Graph) (projection : NodeId) : Prop :=
  ∃ input outer table inner, g.node projection = .projection input outer
    ∧ g.node (g.peel input).table = .projection table inner
    ∧ outer.any ((g.peel input).chain ++ [(g.peel input).table]).contains = true
    ∧ (Folding.of ((g.peel input).chain ++ [(g.peel input).table])).pushes g
        (g.peel input).predicates = true

/-- What can be fused is. -/
theorem Fusible.fuse_ne_none (hg : g.WellFounded) {projection : NodeId} (h : g.Fusible projection) :
  (g.fuse projection).1 ≠ none
  := by
  obtain ⟨input, outer, table, inner, hprojection, hinner, hwhole, hpushes⟩ := h
  have hinput : g.Has input := by
    apply hg.has_child (Graph.has_of_node hprojection nofun)
    rw [hprojection]
    exact List.mem_cons_self
  rw [← Lift.pushable_eq hg (hg.has_predicates hinput)] at hpushes
  rw [fuse, hprojection]
  simp only [hinner, hwhole, hpushes, if_true]
  exact nofun

/-- What can be fused in an extended graph could be before. -/
theorem Fusible.of_extends (e : g.Extends g') (hg : g.WellFounded) (hg' : g'.WellFounded)
    {projection : NodeId} (hp : g.Has projection) (h : g'.Fusible projection) :
  g.Fusible projection
  := by
  obtain ⟨input, outer, table, inner, hprojection, hinner, hwhole, hpushes⟩ := h
  rw [e.node_eq hp] at hprojection
  have hinput : g.Has input := by
    apply hg.has_child hp
    rw [hprojection]
    exact List.mem_cons_self
  rw [e.peel_eq hg hg' hinput] at hinner hwhole hpushes
  rw [e.node_eq (hg.has_peel hinput)] at hinner
  rw [Folding.pushes_extends e hg hg' _ (hg.has_predicates hinput)] at hpushes
  exact ⟨input, outer, table, inner, hprojection, hinner, hwhole, hpushes⟩

/-- How deep the table below a projection stands, under the selections between the two. -/
def fusionDepth (g : Graph) (projection : NodeId) : Nat :=
  match g.node projection with
  | .projection input _ => (g.peel input).table.index
  | _ => 0

theorem WellFounded.fusionDepth_le (hg : g.WellFounded) (projection : NodeId) :
  g.fusionDepth projection ≤ projection.index
  := by
  rw [fusionDepth]
  split
  case h_1 input _ hn =>
      apply Nat.le_of_lt
      apply Nat.lt_of_le_of_lt (hg.peel_le input)
      apply hg.child_lt
      rw [hn]
      exact List.mem_cons_self
  · exact Nat.zero_le _

/-- A fused projection reads a table further down. -/
theorem Fuses.fusionDepth_lt (hg : g.WellFounded) {projection : NodeId} {f : Fused}
    (h : g.Fuses projection f) :
  g.fusionDepth f.node < g.fusionDepth projection
  := by
  obtain ⟨hprojection, hinner, habsorbed, hwhole, hpushes, hnode, hparts, hsource⟩ := h
  rename_i input table source outer inner parts
  have htable : table.index < (g.peel input).table.index := by
    apply hg.child_lt
    rw [hinner]
    exact List.mem_cons_self
  have hpeel : (g.peel source).table = (g.peel table).table := by
    cases hsource with
    | all _ => rfl
    | filtered _ hselection _ => rw [peel_selection hg hselection]
  simp only [fusionDepth, hprojection, hnode, hpeel]
  exact Nat.lt_of_le_of_lt (hg.peel_le table) htable

/-- The depth below a projection is the same in an extended graph. -/
theorem Extends.fusionDepth_eq (e : g.Extends g') (hg : g.WellFounded) (hg' : g'.WellFounded)
    {projection : NodeId} (hp : g.Has projection) :
  g'.fusionDepth projection = g.fusionDepth projection
  := by
  rw [fusionDepth, fusionDepth, e.node_eq hp]
  split
  case h_1 input _ hn =>
      rw [e.peel_eq hg hg']
      apply hg.has_child hp
      rw [hn]
      exact List.mem_cons_self
  · rfl

/-- A projection is fused with projections below it, one after the other, until it cannot be. -/
inductive FusesTo (g : Graph) : NodeId → List Fused → NodeId → Prop where
  | nil {projection : NodeId} (hend : ¬ g.Fusible projection) : FusesTo g projection [] projection
  | cons {projection core : NodeId} {f : Fused} {fs : List Fused} (h : g.Fuses projection f)
      (hs : FusesTo g f.node fs core) :
    FusesTo g projection (f :: fs) core

/-- A fused projection is a node of the graph. -/
theorem Fuses.has_node {projection : NodeId} {f : Fused} (h : g.Fuses projection f) :
  g.Has f.node
  := by
  obtain ⟨_, _, _, _, _, hnode, _, _⟩ := h
  exact Graph.has_of_node hnode nofun

theorem FusesTo.mono (e : g.Extends g') (hg : g.WellFounded) (hg' : g'.WellFounded)
    {projection core : NodeId} {fs : List Fused} (hp : g.Has projection)
    (h : g.FusesTo projection fs core) :
  g'.FusesTo projection fs core
  := by
  induction h with
  | nil hend => exact .nil fun h => hend (h.of_extends e hg hg' hp)
  | cons h _ ih => exact .cons (h.mono e hg hg') (ih h.has_node)

/-- What a projection is fused to cannot be fused. -/
theorem FusesTo.not_fusible {projection core : NodeId} {fs : List Fused}
    (h : g.FusesTo projection fs core) :
  ¬ g.Fusible core
  := by
  induction h with
  | nil hend => exact hend
  | cons _ _ ih => exact ih

end Graph

namespace Block

/-- The block after fusions: what they replace is folded, and the block outputs each fused
projection. -/
def fused (b : Block) (fs : List Fused) : Block :=
  fs.foldl (fun b f => (b.foldAll f.absorbed).output f.node) b

/-- A projection is fused as long as it can be, in any number of steps that suffices for the tables
below it. -/
theorem grows_fuseAll (n : Nat) :
    ∀ {g : Graph} {b : Block} {projection : NodeId}, g.WellFounded → g.Has projection →
      g.fusionDepth projection < n →
      Analysis.Grows (fun g' r => ∃ fs, g'.FusesTo projection fs r.2 ∧ r.1 = b.fused fs)
        (fuseAll n b projection) g := by
  induction n with
  | zero => exact fun _ _ hn => absurd hn (Nat.not_lt_zero _)
  | succ n ih =>
      intro g b projection hg hp hn
      obtain ⟨hg₁, e, hfuses⟩ := @Graph.fuse_spec g hg projection
      rw [fuseAll]
      apply Analysis.grows_bind
        (R := fun g' f? => (∀ f ∈ f?, g'.Fuses projection f ∧ g'.fusionDepth f.node < n)
          ∧ (f? = none → ¬ g'.Fusible projection))
      · refine Analysis.grows_modifyGet ⟨hg₁, e, fun f hf => ⟨hfuses f hf, ?_⟩, fun hnone h => ?_⟩
        · have hlt := (hfuses f hf).fusionDepth_lt hg₁
          rw [e.fusionDepth_eq hg hg₁ hp] at hlt
          omega
        · exact (h.of_extends e hg hg₁ hp).fuse_ne_none hg hnone
      · rintro f? g' hg' e ⟨hf, hend⟩
        cases f? with
        | none => exact Analysis.grows_pure hg' ⟨[], .nil (hend rfl), rfl⟩
        | some f =>
            obtain ⟨hfuse, hdepth⟩ := hf f rfl
            apply (ih hg' hfuse.has_node hdepth).imp
            rintro ⟨b', core⟩ g'' hg'' e' ⟨fs, hfs, rfl⟩
            exact ⟨f :: fs, .cons (hfuse.mono e' hg' hg'') hfs, rfl⟩

/-- Fusions change what a block folds and outputs only. -/
theorem fused_eq (b : Block) (fs : List Fused) :
  b.fused fs = { b with
    folding := { b.folding with
      fused := b.folding.fused ++ fs.flatMap fun f => f.absorbed ++ [f.node]
      outputs := b.folding.outputs ++ fs.map Fused.node }
    clauses := { b.clauses with outputs := b.clauses.outputs ++ fs.map Fused.node } }
  := by
  induction fs generalizing b with
  | nil => simp [fused]
  | cons f fs ih =>
      rw [fused, List.foldl_cons, ← fused, ih]
      simp [foldAll, output]

end Block

end RelSql
