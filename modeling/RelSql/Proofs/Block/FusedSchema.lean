import RelSql.Proofs.Lift.Substitution
import RelSql.Proofs.Lift.Types
import RelSql.Proofs.Output.Folding

/-!
# Schemas of fused projections

A fused projection has the fields of the outer one, in the same order: the items of the inner
projection stand where the outer one has all its columns, and of several fields with one name the
first one counts in any case.  The values keep their types.  Nothing in the fused projection refers
to what has been absorbed, and each fusion uses up one of the projections below.
-/

namespace RelSql

open List

/-! ## First fields -/

namespace Schema

/-- Of what has the names that are seen, nothing depends on their order. -/
theorem firsts_congr {seen seen' : List String} (h : ∀ name, name ∈ seen ↔ name ∈ seen')
    (fields : List Field) :
  firsts seen fields = firsts seen' fields
  := by
  induction fields generalizing seen seen' with
  | nil => rfl
  | cons f rest ih =>
      have hcons : ∀ name, name ∈ f.name :: seen ↔ name ∈ f.name :: seen' := by
        intro name
        rw [mem_cons, mem_cons, h]
      simp only [firsts, h f.name, ih h, ih hcons]

/-- The names of the fields that come first are seen when the others are read. -/
theorem firsts_append (seen : List String) (l m : List Field) :
  firsts seen (l ++ m) = firsts seen l ++ firsts (l.map Field.name ++ seen) m
  := by
  induction l generalizing seen with
  | nil => rfl
  | cons f rest ih =>
      rw [cons_append, firsts, firsts]
      split
      case isTrue h =>
          rw [ih]
          congr 1
          apply firsts_congr
          intro name
          rw [map_cons, cons_append, mem_cons, iff_or_self]
          rintro rfl
          exact mem_append_right _ h
      case isFalse h =>
          rw [ih, cons_append]
          congr 2
          apply firsts_congr
          intro name
          simp only [map_cons, cons_append, mem_append, mem_cons]
          exact or_left_comm

/-- Fields that are left out for a name that is seen are left out again. -/
theorem firsts_firsts {seen seen' : List String} (h : ∀ name ∈ seen', name ∈ seen)
    (fields : List Field) :
  firsts seen (firsts seen' fields) = firsts seen fields
  := by
  induction fields generalizing seen seen' with
  | nil => rfl
  | cons f rest ih =>
      rw [firsts, firsts.eq_def seen (f :: rest)]
      simp only
      split
      case isTrue hseen => rw [if_pos (h _ hseen), ih h]
      case isFalse =>
          rw [firsts]
          split
          case isTrue hseen =>
              apply ih
              exact forall_mem_cons.mpr ⟨hseen, h⟩
          case isFalse =>
              rw [ih]
              intro name hname
              rcases mem_cons.mp hname with rfl | hname
              · exact mem_cons_self
              · exact mem_cons_of_mem _ (h name hname)

/-- Two lists of fields count alike behind any other fields. -/
def SameFirsts (l m : List Field) : Prop :=
  ∀ seen, firsts seen l = firsts seen m

theorem SameFirsts.mem_names {l m : List Field} (h : SameFirsts l m) (name : String) :
  name ∈ l.map Field.name ↔ name ∈ m.map Field.name
  := by
  have hnames : (ofFields l).names = (ofFields m).names := congrArg (map Field.name) (h [])
  rw [names_ofFields, names_ofFields] at hnames
  rw [← mem_eraseDups, hnames, mem_eraseDups]

theorem SameFirsts.append {l l' m m' : List Field} (hl : SameFirsts l l') (hm : SameFirsts m m') :
  SameFirsts (l ++ m) (l' ++ m')
  := by
  intro seen
  rw [firsts_append, firsts_append, hl, hm]
  congr 1
  apply firsts_congr
  intro name
  rw [mem_append, mem_append, hl.mem_names]

/-- The first fields count as all of them do. -/
theorem sameFirsts_ofFields (fields : List Field) :
  SameFirsts (ofFields fields).fields fields
  := fun _ => firsts_firsts (fun _ h => absurd h not_mem_nil) fields

end Schema

open Schema

variable {ε κ : Type} {kind : ε → κ}

/-- Items whose fields agree with those of the items that replace them have the same first
fields. -/
theorem agree_fields {F F' : NodeId → Except ε (List Field)} {items : List NodeId}
    {parts : List (List NodeId)}
    (h : Forall₂ (fun item part => Agree kind (fun fields found => SameFirsts fields found.flatten)
      (F item) (part.mapM F')) items parts) :
  Agree kind (fun found found' => SameFirsts found.flatten found'.flatten) (items.mapM F)
    (parts.flatten.mapM F')
  := by
  induction h with
  | nil =>
      rw [flatten_nil, mapM_nil, mapM_nil]
      exact .ok fun _ => rfl
  | cons hitem _ ih =>
      rw [flatten_cons, mapM_cons, mapM_append]
      apply hitem.bind
      intro fields found hfirst
      apply ih.bind
      intro rest rest' hrest
      apply Agree.ok
      rw [flatten_cons, flatten_append]
      exact hfirst.append hrest

/-! ## The items of a fused projection -/

namespace LiftM

/-- Two things that are known of one computation are known together. -/
theorem Keeps.and {α : Type} {inv : LiftState → Prop} {R R' : Graph → α → Prop} {m : LiftM α}
    {st : LiftState} (h : Keeps inv R m st) (h' : Keeps inv R' m st) :
  Keeps inv (fun g a => R g a ∧ R' g a) m st
  := ⟨h.1, h.2.1, h.2.2, h'.2.2⟩

end LiftM

open LiftM

variable {s : Folding} {g g' : Graph} {id item : NodeId} {inner part : List NodeId}

/-- The items that an item of the outer projection becomes; a value is lifted under its aliases. -/
inductive Folding.Replaces (s : Folding) (g : Graph) (inner : List NodeId) (item : NodeId) :
    List NodeId → Prop where
  | absorbed (h : item ∈ s.fused) : Replaces s g inner item inner
  | table (h : item ∉ s.fused) (hr : g.isRelation item = true) : Replaces s g inner item [item]
  | value {l : NodeId} (hr : g.isRelation item = false)
      (hnamed : s.LiftsNamed .substitute g item l)
      (hl : s.Lifts .substitute g (g.unaliased item) (g.unaliased l)) :
    Replaces s g inner item [l]

theorem Folding.Replaces.mono (e : g.Extends g') (hg : g.WellFounded) (hg' : g'.WellFounded)
    (hitem : g.Has item) (h : s.Replaces g inner item part) :
  s.Replaces g' inner item part
  := by
  cases h with
  | absorbed h => exact .absorbed h
  | table h hr => exact .table h (by rw [e.isRelation_eq hitem, hr])
  | value hr hnamed hl =>
      refine .value (by rw [e.isRelation_eq hitem, hr]) ?_ ?_
      · exact Folding.LiftsNamed.persistent item hg hg' e hnamed
      · rw [e.unaliased_eq hg hg' hitem, e.unaliased_eq hg hg' hnamed.target]
        exact Folding.Lifts.persistent _ hg hg' e hl

/-- An item of the outer projection becomes the items that replace it. -/
theorem Fused.keeps_items_replaced {st : LiftState} (hs : st.Sound s .substitute)
    (hitem : st.graph.Has item) :
  Keeps (LiftState.Sound s .substitute)
    (fun g parts => g.Has item ∧ s.Replaces g inner item parts) (items s inner item) st
  := by
  rw [items]
  split
  case isTrue h => exact keeps_pure hs ⟨hitem, .absorbed (contains_iff_mem.mp h)⟩
  case isFalse h =>
      apply keeps_get
      split
      case isTrue hr => exact keeps_pure hs ⟨hitem, .table (mt contains_iff_mem.mpr h) hr⟩
      case isFalse hr =>
          apply keeps_bind ((Lift.keeps_named hs hitem).and (Lift.keeps_named_unaliased hs hitem))
          intro l st' hs' e' hl
          apply keeps_pure hs'
          refine ⟨hl.1.source, .value ?_ hl.1 hl.2⟩
          rw [e'.isRelation_eq hitem, Bool.eq_false_iff.mpr hr]

namespace Graph

/-- What a fusion has made of a projection of `g` in the graph `g'`. -/
inductive Refines (g g' : Graph) (projection : NodeId) (f : Fused) : Prop where
  | intro {input table source : NodeId} {outer inner : List NodeId} {parts : List (List NodeId)}
      (hprojection : g.node projection = .projection input outer)
      (hinner : g.node (g.peel input).table = .projection table inner)
      (habsorbed : f.absorbed = g.layers input)
      (hnode : g'.node f.node = .projection source parts.flatten)
      (hparts : Forall₂ ((Folding.of f.absorbed).Replaces g' inner) outer parts)
      (hsource : (Folding.of f.absorbed).LiftsInput g' table (g.peel input).predicates source) :
    Refines g g' projection f

theorem fuse_refines (hg : g.WellFounded) {projection : NodeId} {f : Fused}
    (hf : g.fuse projection = (some f, g')) :
  g'.WellFounded ∧ g.Extends g' ∧ g.Refines g' projection f
  := by
  obtain ⟨input, outer, table, inner, hprojection, hinner, habsorbed, _, _, hrun⟩ :=
    fuse_eq_some (f := f) (by rw [hf])
  rw [hf] at hrun
  have hchild : ∀ c ∈ input :: outer, g.Has c := by
    intro c hc
    apply hg.has_child (has_of_node hprojection nofun)
    rwa [hprojection]
  obtain ⟨hinput, houter⟩ := forall_mem_cons.mp hchild
  have hbelow : ∀ c ∈ table :: inner, g.Has c := by
    intro c hc
    apply hg.has_child (hg.has_peel hinput)
    rwa [hinner]
  obtain ⟨htable, hitems⟩ := forall_mem_cons.mp hbelow
  have hpredicates := hg.has_predicates hinput
  obtain ⟨hg₁, e₁⟩ := Lift.pushable_extends (s := .of f.absorbed) hg hpredicates
  let R (g : Graph) (item : NodeId) (parts : List NodeId) : Prop :=
    (∀ id ∈ inner, g.Has id) ∧ g.Has item ∧ (Folding.of f.absorbed).Replaces g inner item parts
  have hrebuilt := Lift.run_spec (@Fused.keeps_rebuild_of _ _
    (Lift.sound_empty hg₁ (.of f.absorbed) .substitute) _ outer inner _ (htable.mono e₁)
    (fun p hp => (hpredicates p hp).mono e₁) R ?_ ?_ ?_)
  · rw [hrun] at hrebuilt
    obtain ⟨hg', e₂, source, parts, hnode, hparts, hsource⟩ := hrebuilt
    refine ⟨hg', e₁.trans e₂, ?_⟩
    exact .intro hprojection hinner habsorbed hnode (hparts.imp fun _ _ h => h.2.2) hsource
  · intro item g g' parts hg hg' e h
    exact ⟨fun id hid => (h.1 id hid).mono e, h.2.1.mono e, h.2.2.mono e hg hg' h.2.1⟩
  · rintro g item parts ⟨hinner, hitem, h⟩
    cases h with
    | absorbed _ => exact hinner
    | table _ _ => exact forall_mem_singleton.mpr hitem
    | value _ hnamed _ => exact forall_mem_singleton.mpr hnamed.target
  · intro item hitem st hs e
    apply (Fused.keeps_items_replaced hs (((houter item hitem).mono e₁).mono e)).imp
    exact fun parts st' _ e' h =>
      ⟨fun id hid => (((hitems id hid).mono e₁).mono e).mono e', h⟩

/-! ### Schemas -/

/-- The filters above a table have its schema. -/
theorem schema_layers (hg : g.WellFounded) (t : NodeId) :
  ∀ u ∈ g.layers t, g.schema u = g.schema (g.peel t).table
  := by
  apply layers_induction hg (P := fun t => ∀ u ∈ g.layers t, g.schema u = g.schema (g.peel t).table)
  · intro t hpeel
    rw [layers, hpeel]
    exact forall_mem_singleton.mpr rfl
  · intro t u predicates hn hlayers ih
    have hkept : g.schema t = g.schema u := schema_kept hg (by rw [hn]; rfl)
    rw [hlayers, peel_selection hg hn]
    exact forall_mem_cons.mpr ⟨hkept.trans (ih u (mem_layers_self hg u)), ih⟩

/-- An item keeps its fields. -/
theorem Extends.itemFields_eq (e : g.Extends g') (hg : g.WellFounded) (hg' : g'.WellFounded)
    (hitem : g.Has item) :
  g'.itemFields g'.typing item = g.itemFields g.typing item
  := by
  rw [itemFields, itemFields, outputField, outputField, e.isRelation_eq hitem, e.name?_eq hitem,
    e.typing_eq hg hg' hitem]

/-- Lifting a value involves what it does without its aliases. -/
theorem involves_unaliased (hg : g.WellFounded) {mode : LiftMode} {o : NodeId}
    (h : s.Involves mode g (g.unaliased id) o) :
  s.Involves mode g id o
  := by
  obtain ⟨i⟩ := id
  induction i using Nat.strongRecOn with
  | ind i ih =>
      rw [Graph.unaliased_eq hg] at h
      split at h
      case h_1 arg name hn =>
          have harg : arg ∈ (g.node ⟨i⟩).children := by
            rw [hn]
            exact mem_singleton_self arg
          exact .operand (by rw [hn]; rfl) harg (ih arg.index (hg.child_lt harg) h)
      · exact h

/-- The items that replace one have the fields that count of it. -/
theorem agree_replaced (e : g.Extends g') (hg : g.WellFounded) (hg' : g'.WellFounded)
    (hreads : g.ReadsFields) (hnames : g.NamesItems s.fused) {input table : NodeId}
    (hinner : g.node (g.peel input).table = .projection table inner)
    (habsorbed : s.fused = g.layers input) (hitem : g.Has item)
    (hshows : s.ShowsDurations .substitute g item) (h : s.Replaces g' inner item part) :
  Agree GraphError.kind (fun fields found => SameFirsts fields found.flatten)
    (g.itemFields g.typing item) (part.mapM (g'.itemFields g'.typing))
  := by
  cases h with
  | absorbed hmem =>
      have hhas : ∀ i ∈ inner, g.Has i := by
        intro i hi
        have hmem : i ∈ (g.node (g.peel input).table).children := by
          rw [hinner]
          exact mem_cons_of_mem table hi
        exact hg.has_child (has_of_node hinner nofun) hmem
      have hsame : inner.mapM (g'.itemFields g'.typing) = inner.mapM (g.itemFields g.typing) :=
        mapM_congr_left fun i hi => e.itemFields_eq hg hg' (hhas i hi)
      have hschema : (g.typing item).schema
          = (do return ofFields (← inner.mapM (g.itemFields g.typing)).flatten) := by
        have hlayer := schema_layers hg input item (habsorbed ▸ hmem)
        rw [Graph.schema_eq hg (g.peel input).table, schemaStep, hinner] at hlayer
        exact hlayer
      have hrelation : g.isRelation item = true := by
        rw [habsorbed] at hmem
        rcases mem_append.mp hmem with hmem | hmem
        · exact hg.isRelation_of_mem_peel hmem
        · rw [mem_singleton.mp hmem, isRelation, hinner]
          rfl
      rw [hsame, itemFields, if_pos hrelation, hschema]
      cases inner.mapM (g.itemFields g.typing) with
      | error error => exact .error rfl
      | ok fields => exact .ok (sameFirsts_ofFields _)
  | table hmem hr =>
      rw [mapM_cons, mapM_nil, e.itemFields_eq hg hg' hitem]
      cases g.itemFields g.typing item with
      | error error => exact .error rfl
      | ok fields =>
          apply Agree.ok
          rw [flatten_singleton]
          exact fun _ => rfl
  | value hr hnamed hl =>
      rename_i l
      have hrelation : g.isRelation item = false := by rw [← e.isRelation_eq hitem, hr]
      have hhas : g.Has (g.unaliased item) := Nat.lt_of_le_of_lt (hg.unaliased_le item) hitem
      have hname : g'.name? l = g.name? item := by rw [hnamed.name, e.name?_eq hitem]
      rw [e.unaliased_eq hg hg' hitem] at hl
      have htype : Agree GraphError.kind Eq (g.dataType item) (g'.dataType l) := by
        have hunaliased := ((Folding.lifts_agree e hg hg' hreads hnames hhas).2 _ hl
          (hshows.mono fun o => involves_unaliased hg)).dataType
        change Agree _ _ (g.dataType _) (g'.dataType _) at hunaliased
        rwa [dataType_unaliased hg, dataType_unaliased hg'] at hunaliased
      rw [mapM_cons, mapM_nil, itemFields, itemFields, hrelation, hnamed.isRelation hg' hr, outputField,
        outputField, hname]
      change Agree _ _ (g.typing item).dataType (g'.typing l).dataType at htype
      simp only [Bool.false_eq_true, if_false]
      generalize (g.typing item).dataType = x at htype ⊢
      generalize (g'.typing l).dataType = y at htype ⊢
      cases htype with
      | error hkind => exact .error hkind
      | ok heq =>
          subst heq
          exact .ok fun _ => rfl

/-- A fused projection has the schema of the given one, or is wrong in the same way. -/
theorem Refines.schema_agrees (e : g.Extends g') (hg : g.WellFounded) (hg' : g'.WellFounded)
    (hreads : g.ReadsFields) {projection input : NodeId} {f : Fused}
    (hnames : g.NamesItems f.absorbed) {outer : List NodeId} (h : g.Refines g' projection f)
    (hprojection : g.node projection = .projection input outer)
    (hshows : ∀ item ∈ outer, (Folding.of f.absorbed).ShowsDurations .substitute g item) :
  Agree GraphError.kind Eq (g.schema projection) (g'.schema f.node)
  := by
  obtain @⟨input', table, source, outer', inner, parts, hprojection', hinner, habsorbed, hnode,
    hparts, _⟩ := h
  cases hprojection.symm.trans hprojection'
  have hhas : ∀ item ∈ outer, g.Has item := by
    intro item hitem
    apply hg.has_child (has_of_node hprojection nofun)
    rw [hprojection]
    exact mem_cons_of_mem input hitem
  rw [Graph.schema_eq hg, Graph.schema_eq hg', schemaStep, schemaStep, hprojection, hnode]
  have hfields := forall₂_mem hparts fun item hitem part _ hpart =>
    agree_replaced e hg hg' hreads hnames hinner habsorbed (hhas item hitem) (hshows item hitem)
      hpart
  apply (agree_fields hfields).bind
  intro found found' hfirst
  apply Agree.ok
  rw [ofFields, ofFields, hfirst]

/-! ### References -/

/-- What has been absorbed comes after the input of the inner projection, and its items. -/
theorem notMem_layers_of_lt (hg : g.WellFounded) {input t : NodeId}
    (h : t.index < (g.peel input).table.index) :
  t ∉ g.layers input
  := by
  intro hmem
  rcases mem_append.mp hmem with hmem | hmem
  · exact absurd (hg.lt_of_mem_chain follows_selection input t hmem) (Nat.lt_asymm h)
  · rw [mem_singleton.mp hmem] at h
    exact absurd h (Nat.lt_irrefl _)

/-- Values are lifted through filters, and through a projection whose items have names, by
substitution alone. -/
theorem substitutes_layers (hg : g.WellFounded) {input table : NodeId}
    (hnames : g.NamesItems (g.layers input))
    (hinner : g.node (g.peel input).table = .projection table inner) :
  ∀ t ∈ g.layers input, g.Substitutes t
  := by
  intro t ht
  rw [Substitutes]
  rcases mem_append.mp ht with ht | ht
  · obtain ⟨u, predicates, hn⟩ := selection_of_mem_chain hg input t ht
    rw [hn]
    trivial
  · rw [mem_singleton.mp ht, hinner]
    have hnamed := hnames (g.peel input).table (mem_append_right _ (mem_singleton_self _))
    rwa [hinner] at hnamed

end Graph

/-- A value resolves to what reads no folded table. -/
theorem Folding.reads_outside (hg : g.WellFounded) (hreads : g.ReadsFields)
    (hnames : g.NamesItems s.fused) (hs : ∀ t ∈ s.fused, g.Substitutes t) (id : NodeId) :
  ∀ c ∈ (s.resolve .substitute .reads g id).value, c.1 ∉ s.fused
  := by
  intro c hc hmem
  have hfield := (Folding.reads_fields hg hreads hnames id).2 c hc
  rw [(madeFrom_of_resolved hg hs hc).2 (contains_iff_mem.mpr hmem)] at hfield
  cases hfield

theorem Algebra.reads_transparent :
  Algebra.reads.Transparent
  := fun _ value => append_nil value

namespace Graph

/-- What comes before the inner projection refers to nothing that is absorbed. -/
theorem tables_before (hg : g.WellFounded) (hg' : g'.WellFounded) {input v : NodeId}
    (hv : g'.Has v) (hlt : v.index < (g.peel input).table.index) :
  ∀ t ∈ g'.tables v, t ∉ g.layers input
  := by
  intro t ht
  obtain ⟨name, hread⟩ := (mem_tables_iff hg' hv t).mp ht
  exact notMem_layers_of_lt hg (Nat.lt_trans (lt_of_mem_reads hg' hread) hlt)

/-- What reads as a resolved value refers to nothing that is absorbed. -/
theorem tables_resolved (e : g.Extends g') (hg : g.WellFounded) (hg' : g'.WellFounded)
    (hreads : g.ReadsFields) (hnames : g.NamesItems s.fused) (hs : ∀ t ∈ s.fused, g.Substitutes t)
    {v l : NodeId} (hv : g.Has v) (hl : g'.Has l)
    (h : g'.denote .reads l = (s.resolve .substitute .reads g' v).value) :
  ∀ t ∈ g'.tables l, t ∉ s.fused
  := by
  intro t ht
  obtain ⟨name, hread⟩ := (mem_tables_iff hg' hl t).mp ht
  rw [h, Folding.resolve_extends e hg hg' hv] at hread
  exact Folding.reads_outside hg hreads hnames hs v _ hread

/-- Nothing that replaces an item refers to what is absorbed. -/
theorem tables_replaced (e : g.Extends g') (hg : g.WellFounded) (hg' : g'.WellFounded)
    (hreads : g.ReadsFields) (hnames : g.NamesItems s.fused) {input table : NodeId}
    (hinner : g.node (g.peel input).table = .projection table inner)
    (habsorbed : s.fused = g.layers input) (hitem : g.Has item)
    (h : s.Replaces g' inner item part) :
  ∀ i ∈ part, i ∉ g.layers input ∧ ∀ t ∈ g'.tables i, t ∉ g.layers input
  := by
  have hrelation : ∀ t ∈ g.layers input, g.Has t ∧ g.isRelation t = true := by
    intro t ht
    have hr : g.isRelation t = true := by
      rcases mem_append.mp ht with ht | ht
      · exact hg.isRelation_of_mem_peel ht
      · rw [mem_singleton.mp ht, isRelation, hinner]
        rfl
    exact ⟨has_of_isRelation hr, hr⟩
  have hsubstitutes : ∀ t ∈ s.fused, g.Substitutes t := by
    rw [habsorbed] at hnames ⊢
    exact substitutes_layers hg hnames hinner
  cases h with
  | absorbed _ =>
      intro i hi
      have hmem : i ∈ (g.node (g.peel input).table).children := by
        rw [hinner]
        exact mem_cons_of_mem table hi
      have hlt := hg.child_lt hmem
      have hbase := (hrelation _ (mem_append_right _ (mem_singleton_self _))).1
      exact ⟨notMem_layers_of_lt hg hlt,
        tables_before hg hg' ((hg.has_child hbase hmem).mono e) hlt⟩
  | table hmem hr =>
      rw [forall_mem_singleton, ← habsorbed]
      refine ⟨hmem, fun t ht => ?_⟩
      obtain ⟨name, hread⟩ := (mem_tables_iff hg' (hitem.mono e) t).mp ht
      rw [denote_relation hg' _ hr] at hread
      cases hread
  | value hr hnamed hl =>
      rw [forall_mem_singleton]
      constructor
      · intro hmem
        obtain ⟨hhas, htable⟩ := hrelation _ hmem
        rw [← e.isRelation_eq hhas, hnamed.isRelation hg' hr] at htable
        cases htable
      · rw [← habsorbed]
        exact tables_resolved e hg hg' hreads hnames hsubstitutes hitem hnamed.target
          (hnamed.denote .reads Algebra.reads_transparent)

/-- Nothing in a fused projection, and in the filter that it is over, refers to what has been
absorbed. -/
theorem Refines.tables (e : g.Extends g') (hg : g.WellFounded) (hg' : g'.WellFounded)
    (hreads : g.ReadsFields) {projection source : NodeId} {f : Fused}
    (hnames : g.NamesItems f.absorbed) {items : List NodeId} (h : g.Refines g' projection f)
    (hnode : g'.node f.node = .projection source items) :
  (∀ i ∈ items, i ∉ f.absorbed)
    ∧ ∀ v ∈ items ++ g'.predicatesOf source, ∀ t ∈ g'.tables v, t ∉ f.absorbed
  := by
  obtain @⟨input, table, source', outer, inner, parts, hprojection, hinner, habsorbed, hnode',
    hparts, hsource⟩ := h
  cases hnode.symm.trans hnode'
  have hchild : ∀ c ∈ input :: outer, g.Has c := by
    intro c hc
    apply hg.has_child (has_of_node hprojection nofun)
    rwa [hprojection]
  obtain ⟨hinput, houter⟩ := forall_mem_cons.mp hchild
  have hitems : ∀ i ∈ parts.flatten, i ∉ g.layers input ∧ ∀ t ∈ g'.tables i, t ∉ g.layers input := by
    have hmembers : Forall₂ (fun item part => g.Has item ∧ (Folding.of f.absorbed).Replaces g' inner
        item part) outer parts :=
      forall₂_mem hparts fun item hitem _ _ h => ⟨houter item hitem, h⟩
    have hreplaced : ∀ part ∈ parts, ∀ i ∈ part, i ∉ g.layers input
        ∧ ∀ t ∈ g'.tables i, t ∉ g.layers input := by
      refine forall₂_right hmembers ?_
      rintro item part ⟨hitem, h⟩
      exact tables_replaced e hg hg' hreads hnames hinner habsorbed hitem h
    intro i hi
    obtain ⟨part, hpart, hmem⟩ := mem_flatten.mp hi
    exact hreplaced part hpart i hmem
  have hpredicates : ∀ v ∈ g'.predicatesOf source, ∀ t ∈ g'.tables v, t ∉ g.layers input := by
    cases hsource with
    | all _ =>
        have hsource : source ∈ (g.node (g.peel input).table).children := by
          rw [hinner]
          exact mem_cons_self
        have hhas := hg.has_child (has_of_node hinner nofun) hsource
        rw [e.predicatesOf_eq hhas]
        intro v hv
        have hmem : v ∈ (g.node source).children := by
          rw [predicatesOf] at hv
          split at hv
          case h_1 u predicates hn =>
              rw [hn]
              exact mem_cons_of_mem u hv
          case h_2 => cases hv
        exact tables_before hg hg' ((hg.has_child hhas hmem).mono e)
          (Nat.lt_trans (hg.child_lt hmem) (hg.child_lt hsource))
    | filtered _ hn hlifted =>
        rw [predicatesOf, hn]
        have hmembers := forall₂_mem (S := fun p l => g.Has p ∧ _) hlifted
          fun p hp _ _ h => ⟨hg.has_predicates hinput p hp, h⟩
        refine forall₂_right hmembers ?_
        rintro p l ⟨hp, hl⟩
        rw [← habsorbed]
        apply tables_resolved (s := .of f.absorbed) e hg hg' hreads hnames _ hp hl.target
          (hl.denote .reads)
        rw [habsorbed] at hnames
        rw [Folding.of, habsorbed]
        exact substitutes_layers hg hnames hinner
  rw [habsorbed]
  exact ⟨fun i hi => (hitems i hi).1,
    forall_mem_append.mpr ⟨fun i hi => (hitems i hi).2, hpredicates⟩⟩

/-! ### Fusing again -/

/-- One step of counting projections. -/
def projectionsStep (g : Graph) (below : NodeId → Nat) (id : NodeId) : Nat :=
  match g.node id with
  | .projection t _ => below t + 1
  | .selection t _ => below t
  | _ => 0

/-- The number of projections from a table down, with filters between them at most. -/
def projections (g : Graph) : NodeId → Nat :=
  NodeId.recurse (fun _ => 0) g.projectionsStep

theorem projectionsStep_stable :
  NodeId.StableStep projectionsStep
  := by
  constructor
  · intro g hg f f' id h
    have hc : ∀ c ∈ (g.node id).children, f c = f' c := fun c hc => h c (hg.child_lt hc)
    rw [projectionsStep, projectionsStep]
    cases hn : g.node id <;> rw [hn] at hc
    case projection t items => exact congrArg (· + 1) (hc t mem_cons_self)
    case selection t predicates => exact hc t mem_cons_self
  · intro g g' below id _ _ e hid
    rw [projectionsStep, projectionsStep, e.node_eq hid]

theorem projections_eq (hg : g.WellFounded) (id : NodeId) :
  g.projections id = g.projectionsStep g.projections id
  := NodeId.recurse_eq (projectionsStep_stable.isLocal hg) id

theorem Extends.projections_eq (e : g.Extends g') (hg : g.WellFounded) (hg' : g'.WellFounded)
    (hid : g.Has id) :
  g'.projections id = g.projections id
  := projectionsStep_stable.recurse_eq hg hg' e hid _

/-- Filters are no projections. -/
theorem projections_peel (hg : g.WellFounded) (t : NodeId) :
  g.projections (g.peel t).table = g.projections t
  := by
  apply layers_induction hg (P := fun t => g.projections (g.peel t).table = g.projections t)
  · intro t hpeel
    rw [hpeel]
  · intro t u predicates hn _ ih
    rw [peel_selection hg hn, ih, Graph.projections_eq hg t, projectionsStep, hn]

/-- A fusion uses up one projection. -/
theorem Refines.projections (e : g.Extends g') (hg : g.WellFounded) (hg' : g'.WellFounded)
    {projection : NodeId} {f : Fused} (h : g.Refines g' projection f) :
  g'.projections f.node + 1 = g.projections projection
  := by
  obtain @⟨input, table, source, outer, inner, parts, hprojection, hinner, _, hnode, _, hsource⟩ := h
  have htable : g.Has table := by
    apply hg.has_child (has_of_node hinner nofun)
    rw [hinner]
    exact mem_cons_self
  have hbelow : g'.projections source = g.projections table := by
    rw [← e.projections_eq hg hg' htable]
    cases hsource with
    | all _ => rfl
    | filtered _ hn _ => rw [Graph.projections_eq hg' source, projectionsStep, hn]
  rw [Graph.projections_eq hg' f.node, Graph.projections_eq hg projection, projectionsStep,
    projectionsStep, hnode, hprojection]
  simp only
  rw [← projections_peel hg input, Graph.projections_eq hg (g.peel input).table, projectionsStep,
    hinner, hbelow]

/-- A projection is fused `n` times, one after the other. -/
inductive FusesTimes : Graph → NodeId → Nat → Graph → NodeId → Prop where
  | zero (g : Graph) (projection : NodeId) : FusesTimes g projection 0 g projection
  | succ {g g' g'' : Graph} {projection last : NodeId} {f : Fused} {n : Nat}
      (h : g.fuse projection = (some f, g')) (hs : FusesTimes g' f.node n g'' last) :
    FusesTimes g projection (n + 1) g'' last

theorem FusesTimes.projections {projection last : NodeId} {n : Nat}
    (h : g.FusesTimes projection n g' last) (hg : g.WellFounded) :
  g'.projections last + n = g.projections projection
  := by
  induction h with
  | zero => rfl
  | succ h _ ih =>
      obtain ⟨hg', e, hrefines⟩ := fuse_refines hg h
      rw [← hrefines.projections e hg hg', ← ih hg']
      exact (Nat.add_assoc _ _ _).symm

/-- What a projection is fused to is a projection. -/
theorem FusesTimes.projections_pos {projection last source : NodeId} {items : List NodeId} {n : Nat}
    (h : g.FusesTimes projection n g' last) (hg : g.WellFounded)
    (hn : g.node projection = .projection source items) :
  0 < g'.projections last
  := by
  induction h generalizing source items with
  | zero =>
      rw [Graph.projections_eq hg, projectionsStep, hn]
      exact Nat.succ_pos _
  | succ h _ ih =>
      obtain ⟨hg', _, hrefines⟩ := fuse_refines hg h
      obtain @⟨_, _, source', _, _, parts, _, _, _, hnode, _, _⟩ := hrefines
      exact ih hg' hnode

/-- A fused projection is one in place of the given one, in a graph whose columns name fields of
their tables, when the inner projection selects tables and values with names.  It has the same schema,
if the values that are lifted show their durations.  Neither what it selects nor the filter that it
is over refers to what has been absorbed.  It can be fused again, but not as often as there are
projections below the given one. -/
theorem fuse_refined (hg : g.WellFounded) (hreads : g.ReadsFields) {projection : NodeId}
    {f : Fused} (hf : g.fuse projection = (some f, g')) (hnames : g.NamesItems f.absorbed) :
  ∃ input outer source items, g.node projection = .projection input outer
    ∧ g'.node f.node = .projection source items
    ∧ ((∀ item ∈ outer, (Folding.of f.absorbed).ShowsDurations .substitute g item) →
      ∀ schema, g.schema projection = .ok schema ↔ g'.schema f.node = .ok schema)
    ∧ (∀ i ∈ items, i ∉ f.absorbed)
    ∧ (∀ v ∈ items ++ g'.predicatesOf source, ∀ t ∈ g'.tables v, t ∉ f.absorbed)
    ∧ ∀ n g'' last, g'.FusesTimes f.node n g'' last → n < g.projections input
  := by
  obtain ⟨hg', e, h⟩ := fuse_refines hg hf
  have hcount := h.projections e hg hg'
  obtain ⟨input, outer, source, items, hprojection, hnode⟩ : ∃ input outer source items,
      g.node projection = .projection input outer ∧ g'.node f.node = .projection source items := by
    obtain ⟨hprojection, _, _, hnode, _, _⟩ := h
    exact ⟨_, _, _, _, hprojection, hnode⟩
  obtain ⟨hitems, hreferences⟩ := h.tables e hg hg' hreads hnames hnode
  refine ⟨input, outer, source, items, hprojection, hnode, fun hshows schema => ?_, hitems,
    hreferences, fun n g'' last htimes => ?_⟩
  · exact (Agree.iff_eq.mp (h.schema_agrees e hg hg' hreads hnames hprojection hshows)).1 schema
  · have htotal := htimes.projections hg'
    have hlast := htimes.projections_pos hg' hnode
    rw [Graph.projections_eq hg projection, projectionsStep, hprojection] at hcount
    simp only at hcount
    omega

/-- The sums of a table that are not null, with the addends, in three projections. -/
def namedSums : Graph := ⟨#[
  .table ⟨some "t", none, ⟨[⟨"x", .int32⟩, ⟨"y", .int32⟩]⟩⟩,
  .column ⟨0⟩ "x",
  .column ⟨0⟩ "y",
  .binary .add ⟨1⟩ ⟨2⟩,
  .named ⟨3⟩ "sum",
  .projection ⟨0⟩ [⟨4⟩, ⟨0⟩],
  .column ⟨5⟩ "sum",
  .projection ⟨5⟩ [⟨6⟩, ⟨5⟩],
  .column ⟨7⟩ "sum",
  .unary .notNull ⟨8⟩,
  .selection ⟨7⟩ [⟨9⟩],
  .column ⟨10⟩ "x",
  .named ⟨11⟩ "z",
  .projection ⟨10⟩ [⟨12⟩, ⟨10⟩]]⟩

/-- The names stay the same when the outer two projections are fused, and one more fusion is
possible at most. -/
theorem fuse_refined_namedSums :
  ∃ f g', namedSums.fuse ⟨13⟩ = (some f, g') ∧ f.absorbed = [⟨10⟩, ⟨7⟩]
    ∧ (∃ schema, g'.schema f.node = .ok schema ∧ schema.names = ["z", "sum", "x", "y"])
    ∧ (∀ n g'' last, g'.FusesTimes f.node n g'' last → n < 2)
  := by
  obtain ⟨f, g', hf, habsorbed⟩ : ∃ f g', namedSums.fuse ⟨13⟩ = (some f, g')
      ∧ f.absorbed = [⟨10⟩, ⟨7⟩] := ⟨_, _, rfl, by decide⟩
  have hnames : namedSums.NamesItems f.absorbed := by
    rw [habsorbed]
    decide
  obtain ⟨input, outer, _, _, hn, _, hschema, _, _, hcount⟩ :=
    fuse_refined (by decide) (by decide) hf hnames
  cases hn
  have hshows : ∀ item ∈ [⟨12⟩, ⟨10⟩],
      (Folding.of f.absorbed).ShowsDurations .substitute namedSums item := by
    intro item _ o op left right _ hn _ hright
    have hbinary : ∀ n ∈ namedSums.nodes.toList, ∀ op left right, n = .binary op left right →
        right = ⟨2⟩ := by
      simp [namedSums]
    have hmem : namedSums.node o ∈ namedSums.nodes.toList := by
      rw [nodes_eq]
      exact mem_map_of_mem (mem_handles.mpr (has_of_node hn nofun))
    rw [hbinary _ hmem op left right hn, Lift.resolve_value_eq (by decide)] at hright
    rw [habsorbed] at hright
    exact absurd hright (by decide)
  refine ⟨f, g', hf, habsorbed, ⟨_, (hschema hshows _).mp rfl, by decide⟩, ?_⟩
  intro n g'' last h
  exact hcount n g'' last h

/-- A date and a period that has a name, and a projection with their sum. -/
def namedPeriodEnd : Graph := ⟨#[
  .table ⟨some "t", none, ⟨[⟨"x", .date⟩]⟩⟩,
  .column ⟨0⟩ "x",
  .interval .month 1,
  .named ⟨2⟩ "period",
  .projection ⟨0⟩ [⟨1⟩, ⟨3⟩],
  .column ⟨4⟩ "x",
  .column ⟨4⟩ "period",
  .binary .add ⟨5⟩ ⟨6⟩,
  .named ⟨7⟩ "end",
  .projection ⟨4⟩ [⟨8⟩, ⟨4⟩]]⟩

/-- The period is an integer, and so is its sum with a date, until the projections are fused. -/
theorem schema_of_namedPeriodEnd :
  namedPeriodEnd.WellFounded ∧ namedPeriodEnd.ReadsFields
    ∧ namedPeriodEnd.NamesItems namedPeriodEnd.handles
    ∧ namedPeriodEnd.schema ⟨9⟩ = .ok ⟨[⟨"end", .int64⟩, ⟨"x", .date⟩, ⟨"period", .int64⟩]⟩
    ∧ ∃ f g', namedPeriodEnd.fuse ⟨9⟩ = (some f, g')
      ∧ g'.schema f.node = .ok ⟨[⟨"end", .date⟩, ⟨"x", .date⟩, ⟨"period", .int64⟩]⟩
  := by
  refine ⟨by decide, by decide, by decide, by decide, ?_⟩
  have h : (namedPeriodEnd.fuse ⟨9⟩).1.map (fun f =>
      (namedPeriodEnd.fuse ⟨9⟩).2.schema f.node)
        = some (.ok ⟨[⟨"end", .date⟩, ⟨"x", .date⟩, ⟨"period", .int64⟩]⟩) := by
    decide
  obtain ⟨f, hf, hschema⟩ := Option.map_eq_some_iff.mp h
  exact ⟨f, _, Prod.ext hf rfl, hschema⟩

end Graph

end RelSql
