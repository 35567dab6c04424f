import RelSql.Proofs.Lift.Pushable
import RelSql.Proofs.Lift.Substitution
import RelSql.Proofs.Relational.Tables

/-!
# Fused projections of relational tables

A filter that can be evaluated below a projection reads columns of it that are columns of the same
names of what is projected.  So the names that it reads tell whether it can move down further.

A projection of a relational table that is fused becomes a projection of another one.  The filters
between the two come to stand above the latter, and a block takes them over, unless they are
stacked on a further projection.
-/

namespace RelSql

namespace Folding

variable {s : Folding} {g : Graph} {p t : NodeId} {name : String}

/-- A column is unchanged when it is not folded, or resolves to one of its name. -/
theorem unchanged_iff :
  s.unchanged g t name = true
    ↔ (t ∈ s.fused → (s.resolve .substitute .columnName g t).column name = some name)
  := by
  rw [unchanged, Bool.or_eq_true, beq_iff_eq, ← List.contains_iff_mem, ← contains]
  cases s.contains t <;> simp

/-- Predicates can be pushed when all columns that they read are unchanged. -/
theorem pushes_iff {predicates : List NodeId} :
  s.pushes g predicates = true
    ↔ ∀ q ∈ predicates, ∀ c ∈ g.denote .reads q, s.unchanged g c.1 c.2 = true
  := by
  rw [pushes, List.all_eq_true]
  simp only [List.all_eq_true]

/-- The filters above a projection have its fields. -/
theorem FiltersOver.hasField_eq (h : s.FiltersOver g p) (hg : g.WellFounded) (ht : t ∈ s.fused) :
  g.hasField t name = g.hasField p name
  := by
  obtain ⟨i⟩ := t
  induction i using Nat.strongRecOn with
  | ind i ih =>
      rcases h.filters ⟨i⟩ ht with rfl | ⟨input, predicates, hn, hinput⟩
      · rfl
      · have hmem : input ∈ (g.node ⟨i⟩).children := by
          rw [hn]
          exact List.mem_cons_self
        have hlt : input.index < i := hg.child_lt hmem
        rw [Graph.hasField_kept hg (t := input) (by rw [hn]; rfl) name]
        exact ih input.index hlt hinput

end Folding

namespace Graph

/-! ### Filters pushed below two projections -/

variable {α : Type} {g : Graph} {s : Folding} {source table u w : NodeId} {inner : List NodeId}
  {name : String}

/-- The layers of a table are filters over the lowest one. -/
theorem filtersOver_layers (hg : g.WellFounded) (t : NodeId) :
  (Folding.of (g.layers t)).FiltersOver g (g.peel t).table
  := by
  apply layers_induction hg
    (P := fun t => (Folding.of (g.layers t)).FiltersOver g (g.peel t).table)
  · intro t hpeel
    rw [layers, hpeel]
    exact ⟨List.mem_singleton_self t, List.forall_mem_singleton.mpr (.inl rfl)⟩
  · intro t u predicates hn hlayers ih
    have htable : (g.peel t).table = (g.peel u).table := by rw [peel_selection hg hn]
    rw [hlayers, htable]
    refine ⟨List.mem_cons_of_mem t ih.base, List.forall_mem_cons.mpr ⟨.inr ?_, fun v hv => ?_⟩⟩
    · exact ⟨u, predicates, hn, List.mem_cons_of_mem t (mem_layers_self hg u)⟩
    · apply (ih.filters v hv).imp_right
      rintro ⟨input, predicates, hn, hinput⟩
      exact ⟨input, predicates, hn, List.mem_cons_of_mem t hinput⟩

/-- What the filters of a relational table read are fields of its layers. -/
theorem Relational.reads_predicates (hg : g.WellFounded) (h : g.Relational w) :
  ∀ q ∈ (g.peel w).predicates, ∀ c ∈ g.denote .reads q,
    c.1 ∈ g.layers w ∧ g.hasField c.1 c.2 = true
  := by
  intro q hq c hc
  obtain ⟨t, ht, hcomputes⟩ := h.predicates hg q hq
  obtain ⟨rfl, hfield⟩ := fieldOf_iff.mp (((denote_written_iff hg).mp hcomputes).2 c hc)
  refine ⟨?_, hfield⟩
  rw [layers, List.mem_append, List.mem_singleton]
  exact (List.mem_cons.mp ht).symm

/-- A column of a filtered projection that can be pushed becomes the column of its name of the table
that is projected. -/
theorem Relational.resolve_pushed (hg : g.WellFounded) (h : g.Relational w)
    (hinner : g.node (g.peel w).table = .projection table inner)
    (hs : s.FiltersOver g (g.peel w).table) (hu : u ∈ s.fused) (hfield : g.hasField u name = true)
    (hname : (s.resolve .substitute .columnName g u).column name = some name) :
  g.hasField table name = true
    ∧ ∀ {α : Type} (A : Algebra α), (s.resolve .substitute A g u).column name = A.column table name
  := by
  have hprojects := (h.peel hg).of_projection hinner
  rw [hs.hasField_eq hg hu] at hfield
  have hshows : g.Shows false table (g.peel w).table := .projection hinner hprojects.2
  have hmode : LiftMode.substitute ≠ .projections := by decide
  have hfate := Folding.fate_shown hg hmode hs.base (fun hout => absurd hout.1 (by decide))
    hprojects.1.isRelation hshows hfield
  have hresolve : ∀ {α : Type} (A : Algebra α), _ := fun A =>
    (hs.resolve_eq hg A hu name).trans (Folding.resolve_fate hg A (g.peel w).table name)
  have hlt := Folding.fate_lt hg s .substitute (g.peel w).table name
  have hbefore : ∀ {α : Type} (A : Algebra α), _ := fun A =>
    Folding.resolve_before hg (fun t ht => hs.le hg ht) .substitute A
  rcases hfate with ⟨hfate, htable⟩ | ⟨v, hfate, hv⟩
  · refine ⟨htable, fun A => ?_⟩
    rw [hresolve, hfate]
    exact (hbefore A).1 table name (hlt.1 table hfate)
  · have hvalue : ∀ {α : Type} (A : Algebra α),
        (s.resolve .substitute A g u).column name = g.denote A v := by
      intro α A
      rw [hresolve, hfate]
      exact (hbefore A).2 v (hlt.2 v hfate)
    -- the value is a column of the name
    rw [hvalue, denote_columnName hg] at hname
    split at hname
    case h_1 t name' hn =>
        cases hname
        rw [Computes, denote_column hg _ hn] at hv
        obtain ⟨rfl, htable⟩ := fieldOf_iff.mp hv
        exact ⟨htable, fun A => (hvalue A).trans (denote_column hg A hn)⟩
    case h_2 => cases hname

/-- Filters of a projection can be pushed below it when the names of the columns that they read are
unchanged, whichever layers the columns are those of. -/
theorem pushes_iff_readNames (hg : g.WellFounded)
    (hinner : g.node (g.peel w).table = .projection table inner)
    (hs : s.FiltersOver g (g.peel w).table) {predicates : List NodeId}
    (hreads : ∀ q ∈ predicates, ∀ c ∈ g.denote .reads q, c.1 ∈ s.fused) :
  s.pushes g predicates = true
    ↔ ∀ name ∈ g.readNames predicates, (Folding.of (g.layers w)).unchanged g w name = true
  := by
  have hself := mem_layers_self hg w
  have hunchanged : ∀ t ∈ s.fused, ∀ name, s.unchanged g t name = true
      ↔ (Folding.of (g.layers w)).unchanged g w name = true := by
    intro t ht name
    rw [Folding.unchanged_iff, Folding.unchanged_iff, hs.resolve_projection hg hinner _ ht,
      (filtersOver_layers hg w).resolve_projection hg hinner _ hself]
    exact ⟨fun h _ => h ht, fun h _ => h hself⟩
  rw [Folding.pushes_iff]
  constructor
  · intro h name hname
    obtain ⟨q, hq, hname⟩ := List.mem_flatMap.mp hname
    obtain ⟨c, hc, rfl⟩ := List.mem_map.mp hname
    exact (hunchanged c.1 (hreads q hq c hc) c.2).mp (h q hq c hc)
  · intro h q hq c hc
    apply (hunchanged c.1 (hreads q hq c hc) c.2).mpr
    exact h c.2 (List.mem_flatMap.mpr ⟨q, hq, List.mem_map_of_mem hc⟩)

/-- The filters of a projection that are pushed below it read columns of the same names there. -/
theorem Relational.readNames_lifted (hg : g.WellFounded) (h : g.Relational w)
    (hinner : g.node (g.peel w).table = .projection table inner)
    (hpushes : (Folding.of (g.layers w)).pushes g (g.peel w).predicates = true)
    {lifted : List NodeId}
    (hlifted : List.Forall₂ ((Folding.of (g.layers w)).Lifts .substitute g)
      (g.peel w).predicates lifted) :
  g.readNames lifted = g.readNames (g.peel w).predicates
  := by
  have hreads : ∀ q ∈ (g.peel w).predicates, ∀ l, (Folding.of (g.layers w)).Lifts .substitute g q l →
      (g.denote .reads l).map Prod.snd = (g.denote .reads q).map Prod.snd := by
    intro q hq l hl
    rw [hl.denote, Folding.reads_resolved hg, List.map_flatMap, List.map_eq_flatMap]
    apply List.flatMap_congr
    intro c hc
    obtain ⟨hmem, hfield⟩ := h.reads_predicates hg q hq c hc
    have hname := Folding.unchanged_iff.mp (Folding.pushes_iff.mp hpushes q hq c hc) hmem
    rw [(h.resolve_pushed hg hinner (filtersOver_layers hg w) hmem hfield hname).2]
    rfl
  clear hpushes
  generalize (g.peel w).predicates = predicates at hlifted hreads ⊢
  induction hlifted with
  | nil => rfl
  | @cons q l _ _ hl _ ih =>
      obtain ⟨hhead, htail⟩ := List.forall_mem_cons.mp hreads
      rw [readNames, readNames, List.flatMap_cons, List.flatMap_cons, hhead l hl]
      exact congrArg _ (ih htail)

end Graph

end RelSql

namespace RelSql.Graph

/-! ### Condensed projections -/

variable {g : Graph} {p w source table : NodeId} {f : Fused} {fs : List Fused}
  {items filters inner : List NodeId}

/-- A table, or a filter above it by predicates that read columns of the same names as `filters`. -/
inductive Filtered (g : Graph) (w : NodeId) : List NodeId → NodeId → Prop where
  | none : Filtered g w [] w
  | some {source : NodeId} {predicates filters : List NodeId}
      (hsource : g.node source = .selection w predicates)
      (hpredicates : ∀ q ∈ predicates, g.Computes false w q)
      (hnames : g.readNames predicates = g.readNames filters) (hsome : predicates ≠ [])
      (hfilters : filters ≠ []) : Filtered g w filters source

theorem Filtered.relational (h : g.Filtered w filters source) (hw : g.Relational w) :
  g.Relational source
  := by
  cases h with
  | none => exact hw
  | some hsource hpredicates _ _ _ => exact .selection hsource hw hpredicates

/-- Filtering a table stacks nothing. -/
theorem Filtered.unstacked (h : g.Filtered w filters source) (hw : g.Unstacked w) :
  g.Unstacked source
  := by
  refine ⟨h.relational hw.relational, fun hstacks => hw.free ?_⟩
  cases h with
  | none => exact hstacks
  | some hsource _ _ _ _ =>
      exact hstacks.of_input (by rw [hsource]; rfl) (by rw [isProjection, hsource])

/-- What is filtered is among the layers, and above the same table. -/
theorem Filtered.layers (hg : g.WellFounded) (h : g.Filtered w filters source) :
  w ∈ g.layers source ∧ (g.peel source).table = (g.peel w).table
  := by
  cases h with
  | none => exact ⟨mem_layers_self hg w, rfl⟩
  | some hsource _ _ _ _ =>
      rw [Graph.layers, peel_selection hg hsource]
      exact ⟨List.mem_cons_of_mem source (mem_layers_self hg w), rfl⟩

/-- The filters down to a projection are those of the table, and the ones above it. -/
theorem Filtered.readNames_eq (hg : g.WellFounded) (h : g.Filtered w filters source) :
  g.readNames (g.peel source).predicates = g.readNames ((g.peel w).predicates ++ filters)
  := by
  cases h with
  | none => rw [List.append_nil]
  | some hsource _ hnames _ _ =>
      rw [peel_selection hg hsource, readNames, readNames, List.flatMap_append,
        List.flatMap_append]
      exact congrArg _ hnames

theorem Filtered.eq_nil_iff (hg : g.WellFounded) (h : g.Filtered w filters source) :
  (g.peel source).predicates = [] ↔ (g.peel w).predicates ++ filters = []
  := by
  cases h with
  | none => rw [List.append_nil]
  | some hsource _ _ hsome hfilters =>
      rw [peel_selection hg hsource, List.append_eq_nil_iff, List.append_eq_nil_iff]
      exact ⟨fun h => absurd h.2 hsome, fun h => absurd h.2 hfilters⟩

/-- The filters above a table, and its own, can be evaluated below the projection that it filters when
the names are unchanged that they read. -/
theorem Filtered.sinks_eq (hg : g.WellFounded) (h : g.Filtered w filters source)
    (hw : g.Relational w) :
  g.sinks filters w = (g.isProjection (g.peel source).table
    && (Folding.of (g.layers source)).pushes g (g.peel source).predicates)
  := by
  have htable := (h.layers hg).2
  rw [sinks, ← h.readNames_eq hg, htable]
  cases hp : g.isProjection (g.peel w).table with
  | false => rfl
  | true =>
      obtain ⟨table, inner, hinner⟩ := eq_projection hp
      have hover := filtersOver_layers hg source
      rw [htable] at hover
      have hreads := (h.relational hw).reads_predicates hg
      rw [Bool.true_and, Bool.true_and, Bool.eq_iff_iff, List.all_eq_true,
        pushes_iff_readNames hg hinner hover fun q hq c hc => (hreads q hq c hc).1]

/-- A projection shows columns of a relational table, and values of it.  The table may be filtered
in between.  All of its columns are selected when they are among `inner`. -/
inductive Condensed (g : Graph) (p w : NodeId) (filters inner : List NodeId) : Prop where
  | intro {source : NodeId} {items : List NodeId} (hn : g.node p = .projection source items)
      (hsource : g.Filtered w filters source) (hw : g.Relational w)
      (hitems : ∀ i ∈ items, g.Selects false w i) (hmem : w ∈ items ↔ w ∈ inner) :
    Condensed g p w filters inner

/-- A projection of a relational table shows what it selects. -/
theorem Relational.condensed (h : g.Relational p) (hn : g.node p = .projection w items) :
  g.Condensed p w [] items
  := by
  obtain ⟨hw, hitems⟩ := h.of_projection hn
  exact .intro hn .none hw hitems Iff.rfl

/-- What a condensed projection selects are columns of a table below its input, and values of it. -/
theorem Condensed.input (h : g.Condensed p w filters inner) (hw : g.Unstacked w) {input : NodeId}
    (hn : g.node p = .projection input items) :
  g.Unstacked input ∧ ∀ i ∈ items, g.Selects false w i
  := by
  obtain ⟨hn', hsource, _, hitems, _⟩ := h
  rw [hn] at hn'
  cases hn'
  exact ⟨hsource.unstacked hw, hitems⟩

theorem Condensed.ladder (hg : g.WellFounded) (h : g.Condensed p w filters inner) :
  g.Ladder false [p] w
  := by
  obtain ⟨hn, hsource, _, hitems, _⟩ := h
  apply ladder_singleton (.projection hn hitems)
  have hlt := depth_lt_of_input hg hn rfl
  cases hsource with
  | none => exact hlt
  | some hsource _ _ _ _ => exact Nat.lt_trans (depth_lt_of_input hg hsource rfl) hlt

/-! ### Fusing once -/

/-- A value of what is replaced, lifted to the input of the inner projection, is written with the
columns of that. -/
theorem Relational.lifted (hg : g.WellFounded) (h : g.Relational w) {inner : List NodeId}
    (hinner : g.node (g.peel w).table = .projection table inner) {v l : NodeId}
    (hv : g.ComputesAmong false (g.layers w) v)
    (hl : ∀ {α : Type} (A : Algebra α), A.Transparent → g.denote A l
      = ((Folding.of (g.layers w)).resolve .substitute A g v).value) :
  g.Computes false table l
  := by
  have hladder := h.ladder_layers hg hinner
  have htable := (h.peel hg).of_projection hinner
  have hresolved : g.Writes (Folding.of (g.layers w)) .substitute false table v :=
    hladder.writes hg (by decide) hladder.not_mem htable.1.isRelation (fun _ h => h)
      (hv.imp fun _ ht => List.mem_cons_of_mem table ht)
  have hremains : (Folding.of (g.layers w)).remains .substitute g table = g.fieldOf table := by
    funext t name
    simp [Folding.remains, fieldOf]
  rw [Computes, hl _ (Algebra.written_transparent _ _), ← hremains]
  exact hresolved

/-- An item of the outer projection becomes items of the input of the inner one: all of them, if it
is the table that is filtered. -/
theorem Relational.liftsItem (hg : g.WellFounded) (h : g.Relational source)
    (hinner : g.node (g.peel source).table = .projection table inner) (hw : w ∈ g.layers source)
    {item : NodeId} {part : List NodeId} (hitem : g.Selects false w item)
    (hlifts : (Folding.of (g.layers source)).LiftsItem g inner item part) :
  (∀ i ∈ part, g.Selects false table i) ∧ (table ∈ part → table ∈ inner)
  := by
  have hprojects := (h.peel hg).of_projection hinner
  -- the only table that the outer projection selects is absorbed
  have hvalue : (Folding.of (g.layers source)).contains item = false →
      (g.name? item).isSome = true ∧ g.Computes false w item := by
    intro hfold
    apply hitem.resolve_left
    rintro rfl
    rw [Folding.contains, Folding.of, List.contains_iff_mem.mpr hw] at hfold
    cases hfold
  cases hlifts with
  | absorbed _ => exact ⟨hprojects.2, id⟩
  | table hfold hr =>
      rw [isRelation_of_written hg (hvalue hfold).2] at hr
      cases hr
  | @value l hfold _ hl =>
      obtain ⟨hname, hcomputes⟩ := hvalue hfold
      have hlifted := h.lifted hg hinner ⟨w, hw, hcomputes⟩ hl.denote
      refine ⟨List.forall_mem_singleton.mpr (.inr ⟨by rw [hl.name, hname], hlifted⟩), ?_⟩
      intro hmem
      have hrelation := hprojects.1.isRelation
      rw [List.mem_singleton.mp hmem, isRelation_of_written hg hlifted] at hrelation
      cases hrelation

/-- A projection that is fused has selected all columns of the table that it shows. -/
theorem Relational.mem_of_whole (hg : g.WellFounded) (h : g.Relational source)
    {outer : List NodeId} (houter : ∀ i ∈ outer, g.Selects false w i)
    (hwhole : outer.any (g.layers source).contains = true) :
  w ∈ outer
  := by
  obtain ⟨item, hitem, hcontains⟩ := List.any_eq_true.mp hwhole
  rcases houter item hitem with rfl | ⟨_, hcomputes⟩
  · exact hitem
  · have hr : g.isRelation item = true := by
      rcases List.mem_append.mp (List.contains_iff_mem.mp hcontains) with hmem | hmem
      · exact hg.isRelation_of_mem_peel hmem
      · rw [List.mem_singleton.mp hmem]
        exact (h.peel hg).isRelation
    rw [isRelation_of_written hg hcomputes] at hr
    cases hr

/-- The items of the fused projection are items of the input of the inner one, which is among them
if it is among those of the inner one. -/
theorem Relational.liftsItems (hg : g.WellFounded) (h : g.Relational source)
    {outer : List NodeId} {parts : List (List NodeId)}
    (hinner : g.node (g.peel source).table = .projection table inner) (hw : w ∈ g.layers source)
    (houter : ∀ i ∈ outer, g.Selects false w i) (hall : w ∈ outer)
    (hparts : List.Forall₂ ((Folding.of (g.layers source)).LiftsItem g inner) outer parts) :
  (∀ i ∈ parts.flatten, g.Selects false table i) ∧ (table ∈ parts.flatten ↔ table ∈ inner)
  := by
  have hitems : ∀ part ∈ parts,
      (∀ i ∈ part, g.Selects false table i) ∧ (table ∈ part → table ∈ inner) := by
    intro part hpart
    obtain ⟨item, hitem, hlifts⟩ := forall₂_exists hparts.flip part hpart
    exact h.liftsItem hg hinner hw (houter item hitem) hlifts
  refine ⟨fun i hi => ?_, fun hi => ?_, fun hi => ?_⟩
  · obtain ⟨part, hpart, hi⟩ := List.mem_flatten.mp hi
    exact (hitems part hpart).1 i hi
  · obtain ⟨part, hpart, hi⟩ := List.mem_flatten.mp hi
    exact (hitems part hpart).2 hi
  · obtain ⟨part, hpart, hlifts⟩ := forall₂_exists hparts w hall
    have hfold := List.contains_iff_mem.mpr hw
    cases hlifts with
    | absorbed _ => exact List.mem_flatten.mpr ⟨inner, hpart, hi⟩
    | table hkept _ | value hkept _ _ =>
        rw [Folding.contains, Folding.of, hfold] at hkept
        cases hkept

/-- The filters between two projections that are fused come to stand above the input of the inner
one. -/
theorem Filtered.lifted (hg : g.WellFounded) (h : g.Filtered w filters source)
    (hw : g.Relational w) (hinner : g.node (g.peel source).table = .projection table inner)
    (hpushes : (Folding.of (g.layers source)).pushes g (g.peel source).predicates = true)
    {above : NodeId}
    (hlifts : (Folding.of (g.layers source)).LiftsInput g table (g.peel source).predicates above) :
  g.Filtered table ((g.peel w).predicates ++ filters) above
  := by
  have hsource := h.relational hw
  cases hlifts with
  | all hnone =>
      rw [(h.eq_nil_iff hg).mp hnone]
      exact .none
  | @filtered _ lifted hsome hselection hlifted =>
      refine .some hselection (fun l hl => ?_) ?_ ?_ (fun hnil => hsome ((h.eq_nil_iff hg).mpr hnil))
      · obtain ⟨q, hq, hlifts⟩ := forall₂_exists hlifted.flip l hl
        refine hsource.lifted hg hinner ((hsource.predicates hg q hq).imp ?_)
          fun A _ => hlifts.denote A
        intro t ht
        rw [Graph.layers, List.mem_append, List.mem_singleton]
        exact (List.mem_cons.mp ht).symm
      · rw [hsource.readNames_lifted hg hinner hpushes hlifted, h.readNames_eq hg]
      · rintro rfl
        rw [List.forall₂_nil_right_iff] at hlifted
        exact hsome hlifted

/-- What a projection of a relational table is fused to is one as well, and what is replaced leads
to its table. -/
theorem Fuses.condensed (hg : g.WellFounded) {input : NodeId}
    (hdown : g.FusesDown items input filters inner w) (h : g.Condensed p w filters inner)
    (hf : g.Fuses p f) :
  ∃ w' filters' inner', g.FusesDown items input filters' inner' w'
    ∧ g.Condensed f.node w' filters' inner' ∧ g.Ladder false f.absorbed w' ∧ w ∈ f.absorbed
  := by
  obtain @⟨source, table, above, outer, inner', parts, hprojection, hinner, habsorbed, hwhole,
    hpushes, hnode, hparts, habove⟩ := hf
  obtain @⟨_, _, hn, hsource, hw, houter, hmem⟩ := h
  rw [hprojection] at hn
  cases hn
  rw [← layers] at habsorbed
  rw [habsorbed] at hwhole hpushes hparts habove ⊢
  have hrelational := hsource.relational hw
  obtain ⟨hlayer, htable⟩ := hsource.layers hg
  have hall := hrelational.mem_of_whole hg houter hwhole
  obtain ⟨hselects, hitems⟩ := hrelational.liftsItems hg hinner hlayer houter hall hparts
  have hsinks : g.sinks filters w = true := by
    rw [hsource.sinks_eq hg hw, isProjection, hinner, hpushes]
    rfl
  have hbelow := ((hrelational.peel hg).of_projection hinner).1
  refine ⟨table, (g.peel w).predicates ++ filters, inner', ?_, ?_,
    hrelational.ladder_layers hg hinner, hlayer⟩
  · exact hdown.step (hmem.mp hall) hsinks (htable ▸ hinner)
  · exact .intro hnode (hsource.lifted hg hw hinner hpushes habove) hbelow hselects hitems

/-! ### Fusing on -/

/-- The nodes that fusions fold. -/
theorem FusesTo.condensed (hg : g.WellFounded) {core input : NodeId}
    (hdown : g.FusesDown items input filters inner w) (h : g.Condensed p w filters inner)
    (hfs : g.FusesTo p fs core) :
  ∃ w' filters' inner', g.FusesDown items input filters' inner' w'
    ∧ g.Condensed core w' filters' inner'
    ∧ g.Ladder false (p :: fs.flatMap fun f => f.absorbed ++ [f.node]) w'
    ∧ w ∈ w' :: fs.flatMap fun f => f.absorbed ++ [f.node]
  := by
  induction hfs generalizing w filters inner with
  | nil _ => exact ⟨w, filters, inner, hdown, h, h.ladder hg, List.mem_cons_self⟩
  | @cons p core f fs hf _ ih =>
      obtain ⟨w₁, filters₁, inner₁, hdown₁, hcondensed, hladder, hmem⟩ := hf.condensed hg hdown h
      obtain ⟨w', filters', inner', hdown', hcore, hrest, hmem₁⟩ := ih hdown₁ hcondensed
      have hnodes : List.flatMap (fun f : Fused => f.absorbed ++ [f.node]) (f :: fs)
          = f.absorbed ++ (f.node :: fs.flatMap fun f => f.absorbed ++ [f.node]) := by
        rw [List.flatMap_cons, List.append_assoc]
        rfl
      rw [hnodes]
      have htail := hladder.append hrest (mem_ladder_right [f.node] hmem₁)
      have hw : w ∈ w' :: (f.absorbed ++ (f.node :: fs.flatMap fun f => f.absorbed ++ [f.node])) :=
        List.mem_cons_of_mem w' (List.mem_append_left _ hmem)
      exact ⟨w', filters', inner', hdown', hcore, (h.ladder hg).append htail hw, hw⟩

/-- A condensed projection that cannot be fused does not select all columns of its table, or the
filters cannot be evaluated below a further projection. -/
theorem Condensed.not_sinks (hg : g.WellFounded) (h : g.Condensed p w filters inner)
    (hend : ¬ g.Fusible p) (hmem : w ∈ inner) :
  g.sinks filters w = false
  := by
  obtain @⟨source, items, hn, hsource, hw, _, hall⟩ := h
  rw [Bool.eq_false_iff, hsource.sinks_eq hg hw]
  intro hsinks
  obtain ⟨hprojection, hpushes⟩ := Bool.and_eq_true_iff.mp hsinks
  obtain ⟨table, inner', hinner⟩ := eq_projection hprojection
  refine hend ⟨source, items, table, inner', hn, hinner, List.any_eq_true.mpr ?_, hpushes⟩
  exact ⟨w, hall.mpr hmem, List.contains_iff_mem.mpr (hsource.layers hg).1⟩

/-- Where fusing a projection that stacks no filter ends, no filter is stacked, and the filters that
have moved cannot be evaluated below a further projection. -/
theorem Unstacked.fused (hg : g.WellFounded) (h : g.Unstacked p) {core input : NodeId}
    (hn : g.node p = .projection input items) (hfs : g.FusesTo p fs core) :
  ∃ w filters inner, g.Condensed core w filters inner ∧ g.Unstacked w
    ∧ (filters ≠ [] → g.sinks filters w = false)
    ∧ g.Ladder false (p :: fs.flatMap fun f => f.absorbed ++ [f.node]) w
  := by
  obtain ⟨w, filters, inner, hdown, hcore, hladder, _⟩ :=
    hfs.condensed hg .refl (h.relational.condensed hn)
  have hend := hcore.not_sinks hg hfs.not_fusible
  have hw : g.Relational w := by
    obtain ⟨_, _, hw, _, _⟩ := hcore
    exact hw
  refine ⟨w, filters, inner, hcore, ⟨hw, fun hstacks => ?_⟩, fun hsome => ?_, hladder⟩
  · exact h.free (.fused hn hdown hend hstacks)
  · rw [Bool.eq_false_iff]
    intro hsinks
    by_cases hmem : w ∈ inner
    · rw [hend hmem] at hsinks
      cases hsinks
    · exact h.free (.here hn hdown hsome hmem hsinks)

/-- Below the sorts of its input and what is taken off that, the table that a condensed projection
shows is among what is folded, or the table of the FROM clause. -/
theorem Condensed.ladder_source (hg : g.WellFounded) (h : g.Condensed p w filters inner)
    (hends : filters ≠ [] → g.sinks filters w = false) {input : NodeId}
    (hn : g.node p = .projection input items) :
  g.Ladder false ((g.chain sortInput? input).1
        ++ (g.operand (g.chain sortInput? input).2 true true).chain)
      (g.operand (g.chain sortInput? input).2 true true).table
    ∧ w ∈ (g.operand (g.chain sortInput? input).2 true true).table
      :: ((g.chain sortInput? input).1
        ++ (g.operand (g.chain sortInput? input).2 true true).chain)
  := by
  obtain ⟨hsorts, hinput⟩ := ladder_sorts hg false input
  obtain ⟨hoperand, hsource⟩ := ladder_operand hg false (g.chain sortInput? input).2
  refine ⟨hsorts.append hoperand hsource, ?_⟩
  obtain ⟨hn', hfiltered, hw, _, _⟩ := h
  rw [hn] at hn'
  cases hn'
  have hsinks := hfiltered.sinks_eq hg hw
  cases hfiltered with
  | none => exact mem_ladder_append hinput hsource
  | some hselection _ _ _ hfilters =>
      have hpeel := peel_selection hg hselection
      -- the filter is taken off, with those below it
      rw [chain_end follows_sort hg (by rw [hselection]; rfl)]
      have htaken : g.takesOff input true true = true := by
        rw [takesOff, ← layers, ← hsinks, hends hfilters, hpeel]
        rfl
      rw [Graph.operand, htaken, if_pos rfl, hpeel]
      exact mem_ladder_right [input] (ladder_peel hg false w).2

end RelSql.Graph
