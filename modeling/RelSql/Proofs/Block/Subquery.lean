import RelSql.Proofs.Block.Ranking
import RelSql.Proofs.Block.Witnesses
import RelSql.Proofs.Lift.Terms

/-!
# Subqueries of a predicate

Which parts of a predicate are extracted can be read off the graph: a membership in a column,
a test that some row satisfies a predicate, and the greatest parts that read columns under
reductions only.  Extraction compiles one subquery for each of them, from the table that
the part stands for.
-/

namespace RelSql

open Analysis

variable {Q : QuerySpec} {g g' : Graph} {compile : NodeId → Analysis Query}

namespace Graph

/-- The part `v` of the value `id` is extracted. -/
inductive Extracts (g : Graph) : NodeId → NodeId → Prop where
  | any {id p : NodeId} (hn : g.node id = .any p) : Extracts g id id
  | column {id arg c : NodeId} {negated : Bool}
      (hn : g.node id = .contains arg (.column c) negated) : Extracts g id id
  | argument {id arg c v : NodeId} {negated : Bool}
      (hn : g.node id = .contains arg (.column c) negated) (hv : Extracts g arg v) :
    Extracts g id v
  | option {id arg c v : NodeId} {values : List NodeId} {negated : Bool}
      (hn : g.node id = .contains arg (.list values) negated) (hc : c ∈ arg :: values)
      (hv : Extracts g c v) : Extracts g id v
  | scalar {id : NodeId} (hn : (g.node id).isPlain = true)
      (hs : Block.isScalar g id = true) : Extracts g id id
  | operand {id c v : NodeId} (hn : (g.node id).isPlain = true)
      (hs : Block.isScalar g id = false) (hc : c ∈ (g.node id).children)
      (hv : Extracts g c v) : Extracts g id v

/-- Whether a value is scalar is the same in an extended graph. -/
theorem Extends.isScalar_eq (e : g.Extends g') (hg : g.WellFounded) (hg' : g'.WellFounded)
    {id : NodeId} (hid : g.Has id) :
  Block.isScalar g' id = Block.isScalar g id
  := by
  rw [Block.isScalar, Block.isScalar, e.hasReduction_eq hg hg' hid,
    e.readsOutsideReductions_eq hg hg' hid]

theorem Extracts.mono (e : g.Extends g') (hg : g.WellFounded) (hg' : g'.WellFounded)
    {id v : NodeId} (hid : g.Has id) (h : g.Extracts id v) :
  g'.Extracts id v
  := by
  induction h with
  | any hn => exact .any (e.node_eq_of hn nofun)
  | column hn => exact .column (e.node_eq_of hn nofun)
  | argument hn _ ih =>
      apply Extracts.argument (e.node_eq_of hn nofun)
      apply ih
      apply hg.has_child hid
      rw [hn]
      exact List.mem_cons_self
  | option hn hc _ ih =>
      apply Extracts.option (e.node_eq_of hn nofun) hc
      apply ih
      apply hg.has_child hid
      rw [hn]
      exact hc
  | scalar hn hs =>
      apply Extracts.scalar
      · rw [e.node_eq hid, hn]
      · rw [e.isScalar_eq hg hg' hid, hs]
  | operand hn hs hc _ ih =>
      refine Extracts.operand ?_ ?_ ?_ (ih (hg.has_child hid hc))
      · rw [e.node_eq hid, hn]
      · rw [e.isScalar_eq hg hg' hid, hs]
      · rw [e.node_eq hid]
        exact hc

theorem Extracts.restrict (e : g.Extends g') (hg : g.WellFounded) (hg' : g'.WellFounded)
    {id v : NodeId} (hid : g.Has id) (h : g'.Extracts id v) :
  g.Extracts id v
  := by
  induction h with
  | any hn => exact .any (by rw [← hn, e.node_eq hid])
  | column hn => exact .column (by rw [← hn, e.node_eq hid])
  | argument hn _ ih =>
      rw [e.node_eq hid] at hn
      apply Extracts.argument hn
      apply ih
      apply hg.has_child hid
      rw [hn]
      exact List.mem_cons_self
  | option hn hc _ ih =>
      rw [e.node_eq hid] at hn
      apply Extracts.option hn hc
      apply ih
      apply hg.has_child hid
      rw [hn]
      exact hc
  | scalar hn hs =>
      apply Extracts.scalar
      · rw [← hn, e.node_eq hid]
      · rw [← hs, e.isScalar_eq hg hg' hid]
  | operand hn hs hc _ ih =>
      rw [e.node_eq hid] at hn hc
      refine Extracts.operand hn ?_ hc (ih (hg.has_child hid hc))
      rw [← hs, e.isScalar_eq hg hg' hid]

/-- What is extracted of an extracted part is extracted of the whole. -/
theorem Extracts.trans {id v w : NodeId} (h : g.Extracts id v) (h' : g.Extracts v w) :
  g.Extracts id w
  := by
  induction h with
  | any _ | column _ | scalar _ _ => exact h'
  | argument hn _ ih => exact .argument hn (ih h')
  | option hn hc _ ih => exact .option hn hc (ih h')
  | operand hn hs hc _ ih => exact .operand hn hs hc (ih h')

/-- What is extracted of a value occurs in it. -/
theorem Extracts.occurs {id v : NodeId} (h : g.Extracts id v) :
  g.Occurs id v
  := by
  induction h with
  | any _ | column _ | scalar _ _ => exact .refl _
  | argument hn _ ih =>
      refine .operand ?_ ?_ ih
      · rw [hn]
        rfl
      · rw [hn]
        exact List.mem_cons_self
  | option hn hc _ ih =>
      refine .operand ?_ ?_ ih
      · rw [hn]
        rfl
      · rw [hn]
        exact hc
  | operand hn _ hc _ ih => exact .operand (Node.isOperator_of_isPlain hn) hc ih

end Graph

namespace Block

/-- Every part of a value that a nested query stands for is extracted as well; this is asked
of the values below `bound`. -/
def Closed (g : Graph) (bound : Nat) (nested : List (Nested Query)) : Prop :=
  ∀ s ∈ nested, s.node.index < bound → ∀ v, g.Extracts s.node v →
    (nestedFor? nested v).isSome = true

/-- The second list is the first one with a nested query for each part that is extracted of
the values `ids`. -/
structure Extracted (Q : QuerySpec) (g : Graph) (ids : List NodeId)
    (nested nested' : List (Nested Query)) : Prop where
  added : nested <+: nested'
  compiled : ∀ s ∈ nested', s.Compiled Q g
  held : ∀ s ∈ nested', s ∈ nested ∨ (s.kind ≠ .table ∧ ∃ id ∈ ids, g.Extracts id s.node)
  found : ∀ id ∈ ids, ∀ v, g.Extracts id v → (nestedFor? nested' v).isSome = true

section

variable {nested nested' nested'' : List (Nested Query)} {ids : List NodeId} {id v : NodeId}

/-- A value keeps its nested query when others are added. -/
theorem nestedFor?_mono (h : nested <+: nested') (hv : (nestedFor? nested v).isSome = true) :
  (nestedFor? nested' v).isSome = true
  := by
  obtain ⟨more, rfl⟩ := h
  rw [nestedFor?, List.find?_append, Option.isSome_or]
  rw [nestedFor?] at hv
  rw [hv, Bool.true_or]

theorem nestedFor?_mem {s : Nested Query} (hs : s ∈ nested) :
  (nestedFor? nested s.node).isSome = true
  := by
  rw [nestedFor?, List.find?_isSome]
  exact ⟨s, hs, by simp⟩

/-- A closed list stays closed by an extraction. -/
theorem Extracted.closed {bound : Nat} (h : Extracted Q g ids nested nested')
    (hclosed : Closed g bound nested) :
  Closed g bound nested'
  := by
  intro s hs hlt v hv
  rcases h.held s hs with hold | ⟨_, id, hid, hnew⟩
  · exact nestedFor?_mono h.added (hclosed s hold hlt v hv)
  · exact h.found id hid v (hnew.trans hv)

theorem Closed.mono (e : g.Extends g') (hg : g.WellFounded) (hg' : g'.WellFounded)
    {bound : Nat} (hnested : ∀ s ∈ nested, g.Has s.node) (h : Closed g bound nested) :
  Closed g' bound nested
  := by
  intro s hs hlt v hv
  exact h s hs hlt v (hv.restrict e hg hg' (hnested s hs))

/-- Extracting from several values, one after the other. -/
theorem Extracted.trans (e : g.Extends g') (hg : g.WellFounded) (hg' : g'.WellFounded)
    {ids' : List NodeId} (hids : ∀ id ∈ ids, g.Has id)
    (h : Extracted Q g ids nested nested') (h' : Extracted Q g' ids' nested' nested'') :
  Extracted Q g' (ids ++ ids') nested nested''
  := by
  refine ⟨h.added.trans h'.added, h'.compiled, ?_, ?_⟩
  · intro s hs
    rcases h'.held s hs with hold | ⟨hkind, id, hid, hv⟩
    · rcases h.held s hold with hold | ⟨hkind, id, hid, hv⟩
      · exact .inl hold
      · exact .inr ⟨hkind, id, List.mem_append_left _ hid, hv.mono e hg hg' (hids id hid)⟩
    · exact .inr ⟨hkind, id, List.mem_append_right _ hid, hv⟩
  · intro id hid v hv
    rcases List.mem_append.mp hid with hid | hid
    · apply nestedFor?_mono h'.added
      exact h.found id hid v (hv.restrict e hg hg' (hids id hid))
    · exact h'.found id hid v hv

end

/-! ### Compiling subqueries -/

/-- A subquery is compiled from the table that its node stands for. -/
theorem grows_nestQuery (hQ : Q.Persistent) (hcompile : Q.Meets compile) (hg : g.WellFounded)
    {nested : List (Nested Query)} (hnested : ∀ s ∈ nested, s.Compiled Q g) {node : NodeId}
    {kind : SubqueryKind} {table : NodeId} (hnode : g.Has node) (htable : g.Has table)
    (hsource : Nested.Source g kind node table) :
  Grows (fun g' nested' => ∃ q, nested' = nested ++ [⟨node, kind, none, q⟩]
      ∧ ∀ s ∈ nested', s.Compiled Q g')
    (nestQuery compile nested node kind table) g
  := by
  apply grows_bind (hcompile table g hg htable)
  intro q g' hg' e hq
  apply grows_pure hg'
  refine ⟨q, rfl, ?_⟩
  intro s hs
  rcases List.mem_append.mp hs with hs | hs
  · exact (hnested s hs).mono hQ e hg hg'
  · rw [List.mem_singleton.mp hs]
    exact ⟨hnode.mono e, rfl, table, htable.mono e, hsource.mono e hg hg' hnode, hq⟩

/-! ### Extraction -/

/-- One extraction, from the values below `n`. -/
def Extracting (Q : QuerySpec) (n : Nat)
    (extract : List (Nested Query) → NodeId → Analysis (List (Nested Query))) : Prop :=
  ∀ {g : Graph} {nested : List (Nested Query)} {id : NodeId} {bound : Nat}, g.WellFounded →
    g.Has id → id.index < n → id.index < bound → (∀ s ∈ nested, s.Compiled Q g) →
    Closed g bound nested → Grows (fun g' nested' => Extracted Q g' [id] nested nested')
      (extract nested id) g

/-- Nothing is extracted. -/
theorem Extracted.refl {nested : List (Nested Query)} {ids : List NodeId}
    (hnested : ∀ s ∈ nested, s.Compiled Q g)
    (h : ∀ id ∈ ids, ∀ v, g.Extracts id v → (nestedFor? nested v).isSome = true) :
  Extracted Q g ids nested nested
  := ⟨List.prefix_refl _, hnested, fun _ hs => .inl hs, h⟩

/-- Extraction from values, one after the other. -/
theorem grows_extractAll {n bound : Nat}
    {extract : List (Nested Query) → NodeId → Analysis (List (Nested Query))}
    (hextract : Extracting Q n extract) (ids : List NodeId) :
    ∀ {g : Graph} {nested : List (Nested Query)}, g.WellFounded →
      (∀ id ∈ ids, g.Has id ∧ id.index < n ∧ id.index < bound) →
      (∀ s ∈ nested, s.Compiled Q g) → Closed g bound nested →
      Grows (fun g' nested' => Extracted Q g' ids nested nested') (ids.foldlM extract nested) g := by
  induction ids with
  | nil =>
      intro g nested hg _ hnested _
      exact grows_pure hg (.refl hnested fun id hid => absurd hid List.not_mem_nil)
  | cons id rest ih =>
      intro g nested hg hids hnested hclosed
      obtain ⟨⟨hid, hn, hbound⟩, hrest⟩ := List.forall_mem_cons.mp hids
      rw [List.foldlM_cons]
      apply grows_bind (hextract hg hid hn hbound hnested hclosed)
      intro nested₁ g₁ hg₁ e₁ h₁
      have hclosed₁ : Closed g₁ bound nested₁ :=
        h₁.closed (hclosed.mono e₁ hg hg₁ fun s hs => (hnested s hs).has)
      have hrest₁ : ∀ c ∈ rest, g₁.Has c ∧ c.index < n ∧ c.index < bound :=
        fun c hc => ⟨(hrest c hc).1.mono e₁, (hrest c hc).2⟩
      apply (ih hg₁ hrest₁ h₁.compiled hclosed₁).imp
      intro nested₂ g₂ hg₂ e₂ h₂
      exact h₁.trans e₂ hg₁ hg₂ (List.forall_mem_singleton.mpr (hid.mono e₁)) h₂

/-- What is extracted of a value is extracted of those of its parts that are looked at. -/
theorem Extracted.of_parts {id : NodeId} {ids : List NodeId}
    {nested nested' : List (Nested Query)} (h : Extracted Q g ids nested nested')
    (hids : ∀ v, g.Extracts id v ↔ ∃ c ∈ ids, g.Extracts c v) :
  Extracted Q g [id] nested nested'
  := by
  refine ⟨h.added, h.compiled, ?_, ?_⟩
  · intro s hs
    rcases h.held s hs with hold | ⟨hkind, hheld⟩
    · exact .inl hold
    · exact .inr ⟨hkind, id, List.mem_singleton_self id, (hids s.node).mpr hheld⟩
  · intro i hi v hv
    rw [List.mem_singleton.mp hi] at hv
    obtain ⟨c, hc, hv⟩ := (hids v).mp hv
    exact h.found c hc v hv

/-- A value that is a whole subquery. -/
theorem extracted_whole {id : NodeId} {nested : List (Nested Query)} {kind : SubqueryKind}
    {q : Query} (hkind : kind ≠ .table) (hself : g.Extracts id id)
    (hwhole : ∀ v, g.Extracts id v → v = id)
    (hcompiled : ∀ s ∈ nested ++ [⟨id, kind, none, q⟩], s.Compiled Q g) :
  Extracted Q g [id] nested (nested ++ [⟨id, kind, none, q⟩])
  := by
  refine ⟨List.prefix_append _ _, hcompiled, ?_, ?_⟩
  · intro s hs
    rcases List.mem_append.mp hs with hs | hs
    · exact .inl hs
    · rw [List.mem_singleton.mp hs]
      exact .inr ⟨hkind, id, List.mem_singleton_self id, hself⟩
  · intro i hi v hv
    rw [List.mem_singleton.mp hi] at hv
    rw [hwhole v hv]
    exact nestedFor?_mem (s := ⟨id, kind, none, q⟩)
      (List.mem_append_right _ (List.mem_singleton_self _))

/-- A plain value is extracted as a whole when it is scalar, and otherwise what its operands
hold is. -/
theorem grows_extract_plain (hQ : Q.Persistent) (hcompile : Q.Meets compile) {n bound : Nat}
    {extract : List (Nested Query) → NodeId → Analysis (List (Nested Query))}
    (hextract : Extracting Q n extract) (hg : g.WellFounded) {id : NodeId} (hid : g.Has id)
    (hn : id.index < n + 1) (hbound : id.index < bound) {nested : List (Nested Query)}
    (hnested : ∀ s ∈ nested, s.Compiled Q g) (hclosed : Closed g bound nested)
    (hplain : (g.node id).isPlain = true) :
  Grows (fun g' nested' => Extracted Q g' [id] nested nested')
    (if isScalar g id then
      match g.baseTable id with
      | none => Analysis.fail .reductionWithoutTable
      | some t => do
        let value ← Analysis.push (.named id Graph.defaultName)
        let table ← Analysis.push (.aggregation t [] [value] [])
        nestQuery compile nested id .scalar table
    else (g.node id).children.foldlM extract nested) g
  := by
  split
  case isTrue hs =>
      cases hbase : g.baseTable id with
      | none => exact grows_fail hg _
      | some t =>
          rw [Graph.baseTable_eq hg hid] at hbase
          have ht := Graph.has_of_base hg hid hbase
          apply grows_bind (grows_push hg (n := .named id Graph.defaultName)
            (List.forall_mem_singleton.mpr hid))
          intro value g₁ hg₁ e₁ hvalue
          apply grows_bind (grows_push hg₁ (n := .aggregation t [] [value] []) _)
          · intro table g₂ hg₂ e₂ htable
            have e := e₁.trans e₂
            have hsource : Nested.Source g₂ .scalar id table := by
              refine .scalar (by rw [e.node_eq hid, hplain]) ?_ (e₂.node_eq_of hvalue.2.1 nofun)
                htable.2.1
              rw [e.denote_eq hg hg₂ hid, hbase]
            apply (grows_nestQuery hQ hcompile hg₂
              (fun s hs => (hnested s hs).mono hQ e hg hg₂) (hid.mono e) htable.1 hsource).imp
            rintro nested' g' hg' e' ⟨q, rfl, hcompiled⟩
            have e' := e.trans e'
            have hplain' : (g'.node id).isPlain = true := by rw [e'.node_eq hid, hplain]
            have hs' : isScalar g' id = true := by rw [e'.isScalar_eq hg hg' hid, hs]
            refine extracted_whole nofun (.scalar hplain' hs') ?_ hcompiled
            intro v hv
            cases hv with
            | any _ | column _ | scalar _ _ => rfl
            | argument hn _ | option hn _ _ =>
                rw [hn] at hplain'
                cases hplain'
            | operand _ h _ _ => rw [hs'] at h; cases h
          · intro c hc
            rcases List.mem_cons.mp hc with rfl | hc
            · exact ht.mono e₁
            · rw [List.mem_singleton.mp hc]
              exact hvalue.1
  case isFalse hs =>
      have hs := Bool.eq_false_iff.mpr hs
      have hchild : ∀ c ∈ (g.node id).children, g.Has c ∧ c.index < n ∧ c.index < bound := by
        intro c hc
        have hlt := hg.child_lt hc
        exact ⟨hg.has_child hid hc, by omega, by omega⟩
      apply (grows_extractAll hextract _ hg hchild hnested hclosed).imp
      intro nested' g' hg' e h
      apply h.of_parts
      intro v
      rw [← e.node_eq hid]
      have hplain' : (g'.node id).isPlain = true := by rw [e.node_eq hid, hplain]
      have hs' : isScalar g' id = false := by rw [e.isScalar_eq hg hg' hid, hs]
      constructor
      · intro hv
        cases hv with
        | any hn | column hn | argument hn _ | option hn _ _ =>
            rw [hn] at hplain'
            cases hplain'
        | scalar _ h => rw [hs'] at h; cases h
        | operand _ _ hc hv => exact ⟨_, hc, hv⟩
      · rintro ⟨c, hc, hv⟩
        exact .operand hplain' hs' hc hv

/-- A test that some row satisfies a predicate is extracted. -/
theorem grows_extract_any (hQ : Q.Persistent) (hcompile : Q.Meets compile)
    (enclosing : List (List NodeId)) (hg : g.WellFounded) {id p : NodeId} (hid : g.Has id)
    {nested : List (Nested Query)} (hnested : ∀ s ∈ nested, s.Compiled Q g)
    (hnode : g.node id = .any p) :
  Grows (fun g' nested' => Extracted Q g' [id] nested nested')
    (do
      let table ← witnesses enclosing p
      nestQuery compile nested id .exists table) g
  := by
  have hp : g.Has p := by
    apply hg.has_child hid
    rw [hnode]
    exact List.mem_singleton_self p
  apply grows_bind (grows_witnesses hg enclosing hp)
  rintro table g₁ hg₁ e₁ ⟨htable, _⟩
  apply (grows_nestQuery hQ hcompile hg₁ (fun s hs => (hnested s hs).mono hQ e₁ hg hg₁)
    (hid.mono e₁) htable (.exists (e₁.node_eq_of hnode nofun))).imp
  rintro nested' g' hg' e' ⟨q, rfl, hcompiled⟩
  have hnode' := (e₁.trans e').node_eq_of hnode nofun
  refine extracted_whole nofun (.any hnode') ?_ hcompiled
  intro v hv
  cases hv with
  | any _ | column _ | scalar _ _ => rfl
  | argument hn _ | option hn _ _ => rw [hnode'] at hn; cases hn
  | operand hn _ _ _ => rw [hnode'] at hn; cases hn

/-- A membership in a column is extracted, and so is what its argument holds. -/
theorem grows_extract_column (hQ : Q.Persistent) (hcompile : Q.Meets compile) {n bound : Nat}
    {extract : List (Nested Query) → NodeId → Analysis (List (Nested Query))}
    (hextract : Extracting Q n extract) (hg : g.WellFounded) {id arg c t : NodeId}
    {negated : Bool} {name : String} (hid : g.Has id) (hn : id.index < n + 1)
    (hbound : id.index < bound) {nested : List (Nested Query)}
    (hnested : ∀ s ∈ nested, s.Compiled Q g) (hclosed : Closed g bound nested)
    (hnode : g.node id = .contains arg (.column c) negated) (hc : g.node c = .column t name) :
  Grows (fun g' nested' => Extracted Q g' [id] nested nested')
    (do
      let table ← Analysis.push (.projection t [c])
      let nested ← nestQuery compile nested id .membership table
      extract nested arg) g
  := by
  have hchild : ∀ d ∈ [arg, c], d ∈ (g.node id).children := by
    intro d hd
    rw [hnode]
    exact hd
  have harg := hg.has_child hid (hchild arg (by simp))
  have harglt := hg.child_lt (hchild arg (by simp))
  have hchas := hg.has_child hid (hchild c (by simp))
  have ht : g.Has t := by
    apply hg.has_child hchas
    rw [hc]
    exact List.mem_singleton_self t
  apply grows_bind (grows_push hg (n := .projection t [c]) _)
  · intro table g₁ hg₁ e₁ htable
    apply grows_bind (grows_nestQuery hQ hcompile hg₁
      (fun s hs => (hnested s hs).mono hQ e₁ hg hg₁) (hid.mono e₁) htable.1
      (.membership (e₁.node_eq_of hnode nofun) (e₁.node_eq_of hc nofun) htable.2.1))
    rintro nested₂ g₂ hg₂ e₂ ⟨q, rfl, hcompiled⟩
    have e := e₁.trans e₂
    have hclosed₂ : Closed g₂ id.index (nested ++ [⟨id, .membership, none, q⟩]) := by
      intro s hs hlt v hv
      rcases List.mem_append.mp hs with hs | hs
      · apply nestedFor?_mono (List.prefix_append _ _)
        exact hclosed s hs (Nat.lt_trans hlt hbound) v (hv.restrict e hg hg₂ (hnested s hs).has)
      · rw [List.mem_singleton.mp hs] at hlt
        exact absurd hlt (Nat.lt_irrefl _)
    apply (hextract hg₂ (harg.mono e) (by omega) harglt hcompiled hclosed₂).imp
    intro nested' g' hg' e' h
    have hnode' := (e.trans e').node_eq_of hnode nofun
    refine ⟨(List.prefix_append _ _).trans h.added, h.compiled, ?_, ?_⟩
    · intro s hs
      rcases h.held s hs with hold | ⟨hkind, i, hi, hv⟩
      · rcases List.mem_append.mp hold with hold | hold
        · exact .inl hold
        · rw [List.mem_singleton.mp hold]
          exact .inr ⟨nofun, id, List.mem_singleton_self id, .column hnode'⟩
      · rw [List.mem_singleton.mp hi] at hv
        exact .inr ⟨hkind, id, List.mem_singleton_self id, .argument hnode' hv⟩
    · intro i hi v hv
      rw [List.mem_singleton.mp hi] at hv
      have hself : (nestedFor? nested' id).isSome = true := by
        apply nestedFor?_mono h.added
        exact nestedFor?_mem (s := ⟨id, .membership, none, q⟩)
          (List.mem_append_right _ (List.mem_singleton_self _))
      cases hv with
      | any hn => rw [hnode'] at hn; cases hn
      | column _ | scalar _ _ => exact hself
      | argument hn hv =>
          rw [hnode'] at hn
          cases hn
          exact h.found arg (List.mem_singleton_self arg) v hv
      | option hn _ _ => rw [hnode'] at hn; cases hn
      | operand hn _ _ _ => rw [hnode'] at hn; cases hn
  · intro d hd
    rcases List.mem_cons.mp hd with rfl | hd
    · exact ht
    · rw [List.mem_singleton.mp hd]
      exact hchas

/-- A membership in a list is extracted with its argument and its values. -/
theorem grows_extract_list {n bound : Nat}
    {extract : List (Nested Query) → NodeId → Analysis (List (Nested Query))}
    (hextract : Extracting Q n extract) (hg : g.WellFounded) {id arg : NodeId}
    {values : List NodeId} {negated : Bool} (hid : g.Has id) (hn : id.index < n + 1)
    (hbound : id.index < bound) {nested : List (Nested Query)}
    (hnested : ∀ s ∈ nested, s.Compiled Q g) (hclosed : Closed g bound nested)
    (hnode : g.node id = .contains arg (.list values) negated) :
  Grows (fun g' nested' => Extracted Q g' [id] nested nested')
    ((arg :: values).foldlM extract nested) g
  := by
  have hchild : ∀ c ∈ arg :: values, g.Has c ∧ c.index < n ∧ c.index < bound := by
    intro c hc
    have hmem : c ∈ (g.node id).children := by
      rw [hnode]
      exact hc
    have hlt := hg.child_lt hmem
    exact ⟨hg.has_child hid hmem, by omega, by omega⟩
  apply (grows_extractAll hextract _ hg hchild hnested hclosed).imp
  intro nested' g' hg' e h
  apply h.of_parts
  intro v
  have hnode' := e.node_eq_of hnode nofun
  constructor
  · intro hv
    cases hv with
    | any h | column h | argument h _ => rw [hnode'] at h; cases h
    | option h hc hv =>
        rw [hnode'] at h
        cases h
        exact ⟨_, hc, hv⟩
    | scalar h _ | operand h _ _ _ => rw [hnode'] at h; cases h
  · rintro ⟨c, hc, hv⟩
    exact .option hnode' hc hv

/-- Nothing is extracted of what is no operator. -/
theorem grows_extract_leaf (hg : g.WellFounded) {id : NodeId} {nested : List (Nested Query)}
    (hnested : ∀ s ∈ nested, s.Compiled Q g) (hop : (g.node id).isOperator = false)
    (hcontains : ∀ arg options negated, g.node id ≠ .contains arg options negated)
    (hany : ∀ p, g.node id ≠ .any p) :
  Grows (fun g' nested' => Extracted Q g' [id] nested nested') (pure nested) g
  := by
  apply grows_pure hg
  apply Extracted.refl hnested
  intro i hi v hv
  rw [List.mem_singleton.mp hi] at hv
  cases hv with
  | any hn => exact absurd hn (hany _)
  | column hn | argument hn _ | option hn _ _ => exact absurd hn (hcontains _ _ _)
  | scalar hn _ | operand hn _ _ _ =>
      rw [Node.isOperator_of_isPlain hn] at hop
      cases hop

/-- Nothing is extracted again. -/
theorem grows_extract_found (hg : g.WellFounded) {id : NodeId} {bound : Nat}
    (hbound : id.index < bound) {nested : List (Nested Query)}
    (hnested : ∀ s ∈ nested, s.Compiled Q g) (hclosed : Closed g bound nested)
    (hfound : (nestedFor? nested id).isSome = true) :
  Grows (fun g' nested' => Extracted Q g' [id] nested nested') (pure nested) g
  := by
  apply grows_pure hg
  apply Extracted.refl hnested
  intro i hi v hv
  rw [List.mem_singleton.mp hi] at hv
  rw [nestedFor?, List.find?_isSome] at hfound
  obtain ⟨s, hs, hnode⟩ := hfound
  have hnode : s.node = id := by simpa using hnode
  exact hclosed s hs (hnode ▸ hbound) v (hnode ▸ hv)

/-- Extraction compiles a nested query for each part that is extracted of a value. -/
theorem extracting (hQ : Q.Persistent) (hcompile : Q.Meets compile)
    (enclosing : List (List NodeId)) (n : Nat) :
  Extracting Q n (extract compile enclosing n)
  := by
  induction n with
  | zero =>
      intro g nested id bound _ _ hn
      exact absurd hn (Nat.not_lt_zero _)
  | succ n ih =>
      intro g nested id bound hg hid hn hbound hnested hclosed
      rw [extract]
      split
      case isTrue hfound => exact grows_extract_found hg hbound hnested hclosed hfound
      case isFalse hmissing =>
          apply grows_get
          split
          case h_1 p hnode =>
              exact grows_extract_any hQ hcompile enclosing hg hid hnested hnode
          case h_2 arg c negated hnode =>
              split
              case h_1 t name hc =>
                  exact grows_extract_column hQ hcompile ih hg hid hn hbound hnested hclosed
                    hnode hc
              · exact grows_fail hg _
          case h_3 arg values negated hnode =>
              exact grows_extract_list ih hg hid hn hbound hnested hclosed hnode
          case h_4 t name hnode =>
              apply grows_extract_leaf hg hnested
              all_goals rw [hnode]
              · rfl
              · exact nofun
              · exact nofun
          case h_5 t hnode =>
              apply grows_extract_leaf hg hnested
              all_goals rw [hnode]
              · rfl
              · exact nofun
              · exact nofun
          case h_6 hany hcolumns hlist hcolumn hcount =>
              split
              case isTrue hr =>
                  apply grows_extract_leaf hg hnested (Node.isOperator_of_isRelation hr) ?_ hany
                  intro arg options negated hnode
                  rw [hnode] at hr
                  cases hr
              case isFalse hr =>
                  apply grows_extract_plain hQ hcompile ih hg hid hn hbound hnested hclosed
                  -- what is left is plain
                  cases hnode : g.node id with
                  | any p => exact absurd hnode (hany p)
                  | contains arg options negated =>
                      cases options with
                      | list values => exact absurd hnode (hlist _ _ _)
                      | column c => exact absurd hnode (hcolumns _ _ _)
                  | column t name => exact absurd hnode (hcolumn _ _)
                  | countStar t => exact absurd hnode (hcount _)
                  | table | view | projection | selection | aggregation | join | sort | limit
                  | distinct | union =>
                      rw [hnode] at hr
                      exact absurd rfl hr
                  | _ => rfl

end Block

end RelSql
