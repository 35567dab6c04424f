import RelSql.Proofs.Renaming.Lifting

/-!
# Lifted values of similar graphs

Lifting a value goes in parallel, to any two depths that suffice for its handles.  Handles
decrease from a value to what is lifted for it, so a run never ends for lack of depth.
-/

namespace RelSql

open List Relator LiftM

namespace Lift

variable [Comparison] {R : Matching} {s s' : Folding} {mode : LiftMode} {st st' : LiftState} {i j : NodeId}

/-- Lifting values and columns to the depth `n` goes in parallel with lifting the related ones
to any depth that suffices. -/
structure ParallelWithin (s s' : Folding) (mode : LiftMode) (n : Nat) : Prop where
  value : ∀ {R st st' i j n'}, s.Similar R s' → st.Similar R st' → R i j → i.index < n →
    j.index < n' →
    Parallel R (fun S => S) (valueWithin s mode n i) (valueWithin s' mode n' j) st st'
  column : ∀ {R st st' k k' t t' n'} (name : String), s.Similar R s' → st.Similar R st' →
    Option.Rel R k k' → R t t' → t.index < n → t'.index < n' →
    Parallel R (fun S => S) (columnWithin s mode n k t name) (columnWithin s' mode n' k' t' name)
      st st'

/-- Lifting the operands of a value, and remembering what the value has become. -/
theorem parallel_operands {n n' : Nat} (ih : ParallelWithin s s' mode n) (hs : s.Similar R s')
    (hst : st.Similar R st') (hij : R i j) (hi : i.index < n + 1) (hj : j.index < n' + 1) :
  Parallel R (fun S => S)
    (do
      let rebuilt ← (st.graph.node i).mapChildrenM (valueWithin s mode n)
      if rebuilt.children = (st.graph.node i).children then
        (do let lifted ← pure i; remember i lifted; return lifted)
      else (do let lifted ← push rebuilt; remember i lifted; return lifted))
    (do
      let rebuilt ← (st'.graph.node j).mapChildrenM (valueWithin s' mode n')
      if rebuilt.children = (st'.graph.node j).children then
        (do let lifted ← pure j; remember j lifted; return lifted)
      else (do let lifted ← push rebuilt; remember j lifted; return lifted))
    st st'
  := by
  have hnn := hst.graph.node hij
  have hchildren : Node.Similar (fun c d => R c d ∧ c.index < n ∧ d.index < n')
      (st.graph.node i) (st'.graph.node j) := by
    apply hnn.imp
    intro c hc d hd hcd
    have hlt := hst.graph.wellFounded.child_lt hc
    have hlt' := hst.graph.wellFounded'.child_lt hd
    exact ⟨hcd, by omega, by omega⟩
  apply parallel_bind (parallel_mapChildrenM hchildren hst _)
  · rintro S b b' t t' hRS ht ⟨hbb, hshape⟩
    have htest : ∀ p, b = .any p → Comparison.entire := by
      intro p hp
      obtain ⟨q, hq⟩ := Node.any_of_shape hshape hp
      exact hst.graph.tests hij hq
    have hiff : b.children = (st.graph.node i).children
        ↔ b'.children = (st'.graph.node j).children :=
      rel_eq ht.graph.biUnique.forall₂ hbb.children (hnn.children.imp hRS)
    by_cases hsame : b.children = (st.graph.node i).children
    · rw [if_pos hsame, if_pos (hiff.mp hsame)]
      exact parallel_remembered (hRS _ _ hij) (parallel_pure ht (hRS _ _ hij))
    · rw [if_neg hsame, if_neg fun h => hsame (hiff.mpr h)]
      exact parallel_remembered (hRS _ _ hij) (parallel_push ht hbb htest)
  · rintro c d ⟨hcd, hc, hd⟩ S t t' hRS ht
    exact ih.value (hs.mono hRS) ht (hRS _ _ hcd) hc hd

theorem parallel_value_succ {n n' : Nat} (ih : ParallelWithin s s' mode n)
    (hs : s.Similar R s') (hst : st.Similar R st') (hij : R i j) (hi : i.index < n + 1)
    (hj : j.index < n' + 1) :
  Parallel R (fun S => S) (valueWithin s mode (n + 1) i) (valueWithin s' mode (n' + 1) j) st st'
  := by
  rw [valueWithin, valueWithin]
  apply parallel_get
  have hlookup := hst.lookup hij
  generalize st.memo.lookup i = x at hlookup
  generalize st'.memo.lookup j = y at hlookup
  cases hlookup with
  | some hl => exact parallel_pure hst hl
  | none =>
      have hoperands := parallel_operands ih hs hst hij hi hj
      have hkeep := parallel_remembered (R := R) hij (parallel_pure (P := fun S => S) hst hij)
      have hchild : ∀ t ∈ (st.graph.node i).children, t.index < n := by
        intro t ht
        have hlt := hst.graph.wellFounded.child_lt ht
        omega
      have hchild' : ∀ t ∈ (st'.graph.node j).children, t.index < n' := by
        intro t ht
        have hlt := hst.graph.wellFounded'.child_lt ht
        omega
      obtain ⟨b, b', hb, hb', hbb⟩ := hst.graph.nodes hij
      rw [hb, hb'] at hoperands
      rw [hb] at hchild ⊢
      rw [hb'] at hchild' ⊢
      cases hbb with
      | column name ht =>
          apply parallel_remembered hij
          exact ih.column name hs hst (.some hij) ht (hchild _ mem_cons_self)
            (hchild' _ mem_cons_self)
      | table | view | projection | selection | aggregation | join | sort | limit | distinct
      | union | countStar => exact hkeep
      | _ => exact hoperands

/-- A column that stays is the node it was, or a new one. -/
theorem parallel_kept {k k' : Option NodeId} {t t' : NodeId} (name : String)
    (hst : st.Similar R st') (ht : R t t') :
  Option.Rel R k k' → Parallel R (fun S => S)
    (match k with
      | some id => return id
      | none => push (.column t name) : LiftM NodeId)
    (match k' with
      | some id => return id
      | none => push (.column t' name) : LiftM NodeId) st st'
  := by
  intro hk
  cases hk with
  | some hij => exact parallel_pure hst hij
  | none => exact parallel_push hst (.column name ht) nofun

/-- The items that provide a name are related. -/
theorem provider?_related {g g' : Graph} (h : g.Similar R g') {l l' : List NodeId}
    (hl : Forall₂ R l l') (name : String) :
  Option.Rel R (provider? g l name) (provider? g' l' name)
  := find?_related _ _ hl fun _ _ hcd => h.provides_eq hcd name

theorem namedItem?_related {g g' : Graph} (h : g.Similar R g') {l l' : List NodeId}
    (hl : Forall₂ R l l') (name : String) :
  Option.Rel R (namedItem? g l name) (namedItem? g' l' name)
  := by
  apply find?_related _ _ hl
  intro c d hcd
  rw [h.name?_eq hcd]

/-- The value of an item below a table, without its aliases, is lifted. -/
theorem parallel_item {n n' : Nat} (ih : ParallelWithin s s' mode n) (hs : s.Similar R s')
    (hst : st.Similar R st') (hij : R i j) (hi : i.index < n) (hj : j.index < n') :
  Parallel R (fun S => S) (valueWithin s mode n (st.graph.unaliased i))
    (valueWithin s' mode n' (st'.graph.unaliased j)) st st'
  := by
  apply ih.value hs hst (hst.graph.unaliased hij)
  · exact Nat.lt_of_le_of_lt (hst.graph.wellFounded.unaliased_le i) hi
  · exact Nat.lt_of_le_of_lt (hst.graph.wellFounded'.unaliased_le j) hj

theorem parallel_column_succ {n n' : Nat} (ih : ParallelWithin s s' mode n) {t t' : NodeId}
    {k k' : Option NodeId} (name : String) (hs : s.Similar R s') (hst : st.Similar R st')
    (hk : Option.Rel R k k') (ht : R t t') (hn : t.index < n + 1) (hn' : t'.index < n' + 1) :
  Parallel R (fun S => S) (columnWithin s mode (n + 1) k t name)
    (columnWithin s' mode (n' + 1) k' t' name) st st'
  := by
  have hg := hst.graph
  have hkeep := parallel_kept name hst ht hk
  have hchild : ∀ c ∈ (st.graph.node t).children, c.index < n := by
    intro c hc
    have hlt := hg.wellFounded.child_lt hc
    omega
  have hchild' : ∀ c ∈ (st'.graph.node t').children, c.index < n' := by
    intro c hc
    have hlt := hg.wellFounded'.child_lt hc
    omega
  have hbelow : ∀ c ∈ (st.graph.node t).children, ∀ d ∈ (st'.graph.node t').children, R c d →
      Parallel R (fun S => S) (columnWithin s mode n none c name)
        (columnWithin s' mode n' none d name) st st' :=
    fun c hc d hd hcd => ih.column name hs hst .none hcd (hchild c hc) (hchild' d hd)
  have hitem : ∀ c ∈ (st.graph.node t).children, ∀ d ∈ (st'.graph.node t').children, R c d →
      Parallel R (fun S => S) (valueWithin s mode n (st.graph.unaliased c))
        (valueWithin s' mode n' (st'.graph.unaliased d)) st st' :=
    fun c hc d hd hcd => parallel_item ih hs hst hcd (hchild c hc) (hchild' d hd)
  rw [columnWithin.eq_def, columnWithin.eq_def]
  apply parallel_get
  dsimp only
  rw [hs.contains_eq hg.biUnique ht, contains_eq_of_related hg.biUnique hs.outputs ht]
  split
  · exact hkeep
  · obtain ⟨b, b', hb, hb', hbb⟩ := hg.nodes ht
    rw [hb] at hbelow hitem
    rw [hb'] at hbelow hitem
    rw [hb, hb']
    cases hbb with
    | @projection u u' l l' _ hl =>
        have hfind := provider?_related hg hl name
        have hmem : ∀ c, provider? st.graph l name = some c → c ∈ u :: l :=
          fun c hc => mem_cons_of_mem _ (mem_of_find?_eq_some hc)
        have hmem' : ∀ c, provider? st'.graph l' name = some c → c ∈ u' :: l' :=
          fun c hc => mem_cons_of_mem _ (mem_of_find?_eq_some hc)
        simp only
        generalize provider? st.graph l name = x at hfind hmem
        generalize provider? st'.graph l' name = y at hfind hmem'
        cases hfind with
        | none => exact hkeep
        | some hcd =>
            simp only [hg.isRelation_eq hcd]
            split
            · exact hbelow _ (hmem _ rfl) _ (hmem' _ rfl) hcd
            · exact hitem _ (hmem _ rfl) _ (hmem' _ rfl) hcd
    | selection hu | sort hu | limit _ _ hu | distinct hu =>
        simp only
        split
        · exact hkeep
        · exact hbelow _ mem_cons_self _ mem_cons_self hu
    | join kind hl hr _ =>
        simp only [hg.hasField_eq hl name]
        split
        · exact hkeep
        · split
          · exact hbelow _ mem_cons_self _ mem_cons_self hl
          · exact hbelow _ (by simp [Node.children]) _ (by simp [Node.children]) hr
    | @aggregation u u' ks ks' ms ms' hs hs' _ hk hm _ =>
        simp only
        split
        · exact hkeep
        · have hfind := namedItem?_related hg (rel_append hk hm) name
          have hmem : ∀ c, namedItem? st.graph (ks ++ ms) name = some c →
              c ∈ u :: (ks ++ ms ++ hs) :=
            fun c hc => mem_cons_of_mem _ (mem_append_left _ (mem_of_find?_eq_some hc))
          have hmem' : ∀ c, namedItem? st'.graph (ks' ++ ms') name = some c →
              c ∈ u' :: (ks' ++ ms' ++ hs') :=
            fun c hc => mem_cons_of_mem _ (mem_append_left _ (mem_of_find?_eq_some hc))
          generalize namedItem? st.graph (ks ++ ms) name = x at hfind hmem
          generalize namedItem? st'.graph (ks' ++ ms') name = y at hfind hmem'
          cases hfind with
          | none => exact hkeep
          | some hcd => exact hitem _ (hmem _ rfl) _ (hmem' _ rfl) hcd
    | _ =>
        simp only [ite_self]
        exact hkeep

theorem parallelWithin (s s' : Folding) (mode : LiftMode) (n : Nat) :
  ParallelWithin s s' mode n
  := by
  induction n with
  | zero =>
      constructor
      · intro R st st' i j n' _ _ _ hi
        exact absurd hi (Nat.not_lt_zero _)
      · intro R st st' k k' t t' n' name _ _ _ _ ht
        exact absurd ht (Nat.not_lt_zero _)
  | succ n ih =>
      constructor
      · intro R st st' i j n' hs hst hij hi hj
        cases n' with
        | zero => exact absurd hj (Nat.not_lt_zero _)
        | succ n' => exact parallel_value_succ ih hs hst hij hi hj
      · intro R st st' k k' t t' n' name hs hst hk ht hn hn'
        cases n' with
        | zero => exact absurd hn' (Nat.not_lt_zero _)
        | succ n' => exact parallel_column_succ ih name hs hst hk ht hn hn'

/-- Lifting related values goes in parallel. -/
theorem parallel_value (mode : LiftMode) (hs : s.Similar R s') (hst : st.Similar R st')
    (hij : R i j) :
  Parallel R (fun S => S) (value s mode i) (value s' mode j) st st'
  := (parallelWithin s s' mode _).value hs hst hij (Nat.lt_succ_self _) (Nat.lt_succ_self _)

/-- Lifting lists of related values. -/
theorem parallel_values (mode : LiftMode) (hs : s.Similar R s') (hst : st.Similar R st')
    {l l' : List NodeId} (hl : Forall₂ R l l') :
  Parallel R (fun S => Forall₂ S) (l.mapM (value s mode)) (l'.mapM (value s' mode)) st st'
  := by
  apply parallel_mapM (P := fun S => S) (fun _ _ _ _ hST => hST _ _) hl hst
  intro c d hcd S t t' hRS ht
  exact parallel_value mode (hs.mono hRS) ht (hRS _ _ hcd)

/-- Lifting related values that keep their names. -/
theorem parallel_named (mode : LiftMode) (hs : s.Similar R s') (hst : st.Similar R st')
    (hij : R i j) :
  Parallel R (fun S => S) (named s mode i) (named s' mode j) st st'
  := by
  rw [named, named]
  apply parallel_get
  have hinner := hst.graph.unaliased hij
  apply parallel_bind (parallel_value mode hs hst hinner)
  intro S l l' t t' hRS ht hl
  have hiff := ht.graph.eq_iff hl (hRS _ _ hinner)
  by_cases hsame : l = st.graph.unaliased i
  · rw [if_pos hsame, if_pos (hiff.mp hsame)]
    exact parallel_pure ht (hRS _ _ hij)
  · rw [if_neg hsame, if_neg fun h => hsame (hiff.mpr h)]
    apply parallel_get
    dsimp only
    rw [ht.graph.name?_eq (hRS _ _ hij)]
    cases t'.graph.name? j with
    | none => exact parallel_pure ht hl
    | some name =>
        have hpush : Parallel S (fun S => S) (push (.named l name)) (push (.named l' name)) t t' :=
          parallel_push ht (.named name hl) (by rintro _ ⟨⟩)
        obtain ⟨n, n', hn, hn', hnn⟩ := ht.graph.nodes hl
        rw [hn, hn']
        cases hnn with
        | column m _ =>
            simp only
            split
            · exact parallel_pure ht hl
            · exact hpush
        | _ => exact hpush

/-- Runs before which nothing has been lifted lead to similar graphs. -/
theorem run_related {α β : Type} {P : Matching → α → β → Prop} {m : LiftM α} {m' : LiftM β}
    {g g' : Graph} (h : Parallel R P m m' ⟨g, []⟩ ⟨g', []⟩) :
  ∃ S, R ≤ S ∧ (run m g).2.Similar S (run m' g').2 ∧ P S (run m g).1 (run m' g').1
  := by
  obtain ⟨S, hRS, hst, hP⟩ := h
  exact ⟨S, hRS, hst.graph, hP⟩

/-! ### Tests -/

theorem parallel_isUnchanged (hs : s.Similar R s') (hst : st.Similar R st') (hij : R i j) :
  Parallel R (fun _ => Eq) (isUnchanged s i) (isUnchanged s' j) st st'
  := by
  rw [isUnchanged, isUnchanged]
  apply parallel_get
  obtain ⟨n, n', hn, hn', hnn⟩ := hst.graph.nodes hij
  rw [hn, hn']
  cases hnn with
  | column name ht =>
      simp only [hs.contains_eq hst.graph.biUnique ht]
      split
      · exact parallel_pure hst rfl
      · apply parallel_bind (parallel_value .substitute hs hst hij)
        intro S l l' t t' _ ht hl
        apply parallel_get
        obtain ⟨n, n', hn, hn', hnn⟩ := ht.graph.nodes hl
        rw [hn, hn']
        cases hnn <;> exact parallel_pure ht rfl
  | _ => exact parallel_pure hst rfl

theorem parallel_allUnchanged {T : Matching} (hTR : T ≤ R) (hs : s.Similar R s')
    (hst : st.Similar R st') {l l' : List NodeId} (hl : Forall₂ T l l') :
  Parallel R (fun _ => Eq) (allUnchanged s l) (allUnchanged s' l') st st'
  := by
  induction hl generalizing R st st' with
  | nil => exact parallel_pure hst rfl
  | cons hij _ ih =>
      rw [allUnchanged, allUnchanged]
      apply parallel_bind (parallel_isUnchanged hs hst (hTR _ _ hij))
      rintro S unchanged _ t t' hRS ht rfl
      split
      · exact ih (hTR.trans hRS) (hs.mono hRS) ht
      · exact parallel_pure ht rfl

theorem parallel_pushableM {T : Matching} (hTR : T ≤ R) (hs : s.Similar R s')
    (hst : st.Similar R st') {l l' : List NodeId} (hl : Forall₂ T l l') :
  Parallel R (fun _ => Eq) (pushableM s l) (pushableM s' l') st st'
  := by
  induction hl generalizing R st st' with
  | nil => exact parallel_pure hst rfl
  | cons hij _ ih =>
      rw [pushableM, pushableM]
      apply parallel_get
      apply parallel_bind
        (parallel_allUnchanged (le_refl R) hs hst (hst.graph.columns (hTR _ _ hij)))
      rintro S unchanged _ t t' hRS ht rfl
      split
      · exact ih (hTR.trans hRS) (hs.mono hRS) ht
      · exact parallel_pure ht rfl

end Lift

end RelSql
