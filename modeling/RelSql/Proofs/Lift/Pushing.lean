import RelSql.Proofs.Graph.Reading
import RelSql.Proofs.Lift.Soundness

/-!
# Predicates that can be pushed

Predicates can be evaluated on the input of what is folded when every column that they read
of it resolves to a column of the same name.  This depends on the nodes below the predicates
only, and not on what has been added to the graph.
-/

namespace RelSql

namespace Algebra

/-- The name of a column, of which there is none for other values. -/
def columnName : Algebra (Option String) where
  column _ name := some name
  count _ := none
  table _ := none
  operator _ _ := none

end Algebra

namespace Graph

variable {g g' : Graph} {id : NodeId}

/-- Only columns have a name. -/
theorem denote_columnName (hg : g.WellFounded) (id : NodeId) :
  g.denote .columnName id = match g.node id with
    | .column _ name => some name
    | _ => none
  := by
  rw [Graph.denote_eq hg, denoteStep]
  cases g.node id <;> rfl

end Graph

namespace Folding

variable {g g' : Graph}

/-- Whether a column is not folded, or resolves to a column of its name. -/
def unchanged (s : Folding) (g : Graph) (table : NodeId) (name : String) : Bool :=
  !s.contains table
    || (s.resolve .substitute .columnName g table).column name == some name

/-- Whether predicates read what is folded through unchanged columns only. -/
def pushes (s : Folding) (g : Graph) (predicates : List NodeId) : Bool :=
  predicates.all fun p => (g.denote .reads p).all fun c => s.unchanged g c.1 c.2

theorem unchanged_extends (h : g.Extends g') (hg : g.WellFounded) (hg' : g'.WellFounded)
    (s : Folding) {table : NodeId} (ht : g.Has table) (name : String) :
  s.unchanged g' table name = s.unchanged g table name
  := by
  rw [unchanged, unchanged, resolve_extends h hg hg' ht]

/-- What is read is there. -/
theorem has_of_mem_reads (hg : g.WellFounded) {p : NodeId} (hp : g.Has p)
    {c : NodeId × String} (hc : c ∈ g.denote .reads p) :
  g.Has c.1
  := by
  obtain ⟨col, hcol, hnode⟩ := (Graph.mem_reads_iff hg hp c.1 c.2).mp hc
  have hcol' := Graph.has_of_node hnode nofun
  apply hg.has_child hcol'
  rw [hnode]
  exact List.mem_singleton_self c.1

/-- Whether predicates can be pushed is the same in an extended graph. -/
theorem pushes_extends (h : g.Extends g') (hg : g.WellFounded) (hg' : g'.WellFounded)
    (s : Folding) {predicates : List NodeId} (hp : ∀ p ∈ predicates, g.Has p) :
  s.pushes g' predicates = s.pushes g predicates
  := by
  rw [pushes, pushes, Bool.eq_iff_iff, List.all_eq_true, List.all_eq_true]
  apply forall₂_congr
  intro p hmem
  rw [h.denote_eq hg hg' (hp p hmem), List.all_eq_true, List.all_eq_true]
  apply forall₂_congr
  intro c hc
  rw [unchanged_extends h hg hg' s (has_of_mem_reads hg (hp p hmem) hc)]

end Folding

namespace Lift

open LiftM

variable {s : Folding} {st : LiftState}

/-- The test of a column tells whether the column is unchanged. -/
theorem keeps_isUnchanged (hs : st.Sound s .substitute) {c t : NodeId} {name : String}
    (hc : st.graph.node c = .column t name) :
  Keeps (LiftState.Sound s .substitute) (fun g b => b = s.unchanged g t name)
    (isUnchanged s c) st
  := by
  have hhas := Graph.has_of_node hc nofun
  have ht : st.graph.Has t := by
    apply hs.wellFounded.has_child hhas
    rw [hc]
    exact List.mem_singleton_self t
  rw [isUnchanged]
  apply keeps_get
  rw [hc]
  simp only
  split
  case isTrue hfold =>
      apply keeps_pure hs
      rw [Folding.unchanged, hfold, Bool.true_or]
  case isFalse hfold =>
      apply keeps_bind (keeps_value hs hhas)
      intro l st' hs' e' hl
      have hname : (match st'.graph.node l with
          | .column _ name => some name
          | _ => none) = (s.resolve .substitute .columnName st'.graph t).column name := by
        rw [← Graph.denote_columnName hs'.wellFounded, hl.denote,
          resolve_value_eq hs'.wellFounded, Folding.resolveValue, e'.node_eq_of hc nofun]
      have hchanged : s.unchanged st'.graph t name
          = ((s.resolve .substitute .columnName st'.graph t).column name == some name) := by
        rw [Folding.unchanged, Bool.eq_false_iff.mpr hfold, Bool.false_or]
      apply keeps_get
      split
      case h_1 _ n hnode =>
          rw [hnode] at hname
          apply keeps_pure hs'
          rw [hchanged, ← hname]
          rfl
      case h_2 hnode =>
          apply keeps_pure hs'
          rw [hchanged, ← hname]
          split
          case h_1 _ n h => exact absurd h (hnode _ _)
          · rfl

/-- The test of several columns tells whether they are all unchanged. -/
theorem keeps_allUnchanged (columns : List NodeId) :
    ∀ {st : LiftState}, st.Sound s .substitute →
      (∀ c ∈ columns, ∃ t name, st.graph.node c = .column t name) →
      Keeps (LiftState.Sound s .substitute)
        (fun g b => b = true ↔ ∀ c ∈ columns, ∀ t name, g.node c = .column t name →
          s.unchanged g t name = true)
        (allUnchanged s columns) st := by
  induction columns with
  | nil =>
      intro st hs _
      exact keeps_pure hs ⟨fun _ c hc => absurd hc List.not_mem_nil, fun _ => rfl⟩
  | cons c rest ih =>
      intro st hs hcolumns
      obtain ⟨t, name, hc⟩ := hcolumns c List.mem_cons_self
      rw [allUnchanged]
      apply keeps_bind (keeps_isUnchanged hs hc)
      intro b st' hs' e' hb
      have hc' := e'.node_eq_of hc nofun
      split
      case isTrue h =>
          apply (ih hs' _).imp
          · intro b' st'' hs'' e'' hrest
            have hc'' := e''.node_eq_of hc' nofun
            have ht : st'.graph.Has t := by
              apply hs'.wellFounded.has_child (Graph.has_of_node hc' nofun)
              rw [hc']
              exact List.mem_singleton_self t
            rw [hrest, List.forall_mem_cons]
            refine ⟨fun h' => ⟨?_, h'⟩, fun h' => h'.2⟩
            intro t' name' hnode
            rw [hc''] at hnode
            cases hnode
            rw [Folding.unchanged_extends e'' hs'.wellFounded hs''.wellFounded s ht, ← hb, h]
          · intro d hd
            obtain ⟨t', name', h'⟩ := hcolumns d (List.mem_cons_of_mem c hd)
            exact ⟨t', name', e'.node_eq_of h' nofun⟩
      case isFalse h =>
          apply keeps_pure hs'
          refine ⟨nofun, fun h' => ?_⟩
          exact absurd (hb ▸ h' c List.mem_cons_self t name hc') h

/-- The test of predicates tells whether they can be pushed. -/
theorem keeps_pushableM (predicates : List NodeId) :
    ∀ {st : LiftState}, st.Sound s .substitute → (∀ p ∈ predicates, st.graph.Has p) →
      Keeps (LiftState.Sound s .substitute) (fun g b => b = s.pushes g predicates)
        (pushableM s predicates) st := by
  induction predicates with
  | nil =>
      intro st hs _
      exact keeps_pure hs rfl
  | cons p rest ih =>
      intro st hs hhas
      have hp := hhas p List.mem_cons_self
      rw [pushableM]
      apply keeps_get
      apply keeps_bind (keeps_allUnchanged _ hs fun c => Graph.node_of_mem_columns hs.wellFounded hp)
      intro b st' hs' e' hb
      have hall : b = (st'.graph.denote .reads p).all fun c => s.unchanged st'.graph c.1 c.2 := by
        rw [Bool.eq_iff_iff, hb, List.all_eq_true, e'.denote_eq hs.wellFounded hs'.wellFounded hp]
        constructor
        · rintro h ⟨t, name⟩ hmem
          obtain ⟨c, hc, hnode⟩ := (Graph.mem_reads_iff hs.wellFounded hp t name).mp hmem
          exact h c hc t name (e'.node_eq_of hnode nofun)
        · intro h c hc t name hnode
          obtain ⟨t', name', hnode'⟩ := Graph.node_of_mem_columns hs.wellFounded hp hc
          rw [e'.node_eq_of hnode' nofun] at hnode
          cases hnode
          exact h (t, name) ((Graph.mem_reads_iff hs.wellFounded hp t name).mpr
            ⟨c, hc, hnode'⟩)
      have hrest : ∀ q ∈ rest, st'.graph.Has q :=
        fun q hq => (hhas q (List.mem_cons_of_mem p hq)).mono e'
      split
      case isTrue h =>
          apply (ih hs' hrest).imp
          intro b' st'' hs'' e'' hb'
          have hp' : ∀ q ∈ [p], st'.graph.Has q := List.forall_mem_singleton.mpr (hp.mono e')
          have hpushes := Folding.pushes_extends e'' hs'.wellFounded hs''.wellFounded s hp'
          simp only [Folding.pushes, List.all_cons, List.all_nil, Bool.and_true] at hpushes
          rw [hb', Folding.pushes, Folding.pushes, List.all_cons, hpushes, ← hall, h, Bool.true_and]
      case isFalse h =>
          apply keeps_pure hs'
          rw [Folding.pushes, List.all_cons, ← hall, Bool.eq_false_iff.mpr h, Bool.false_and]

/-- Testing predicates only adds nodes to the graph. -/
theorem pushable_extends {g : Graph} (hg : g.WellFounded) {predicates : List NodeId}
    (hp : ∀ p ∈ predicates, g.Has p) :
  (pushable s predicates g).2.WellFounded ∧ g.Extends (pushable s predicates g).2
  := by
  obtain ⟨hwf, e, _⟩ := run_spec (keeps_pushableM (s := s) predicates (sound_empty hg s _) hp)
  exact ⟨hwf, e⟩

/-- The test of predicates tells whether they can be pushed. -/
theorem pushable_eq {g : Graph} (hg : g.WellFounded) {predicates : List NodeId}
    (hp : ∀ p ∈ predicates, g.Has p) :
  (pushable s predicates g).1 = s.pushes g predicates
  := by
  obtain ⟨hwf, e, h⟩ := run_spec (keeps_pushableM (s := s) predicates (sound_empty hg s _) hp)
  exact h.trans (Folding.pushes_extends e hg hwf s hp)

end Lift

end RelSql
