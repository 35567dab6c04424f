import RelSql.Proofs.Meaning.Cores
import RelSql.Proofs.Relational.Fused
import RelSql.Proofs.Statement.Selects

/-!
# Blocks of relational tables

The block of a relational table stands over a single table, and all of its values resolve to written
values of that table.  Those of the completed block are written with columns of the one table of its
FROM clause and of its outputs, and no subquery stands for any of them.
-/

namespace RelSql

variable {Q : QuerySpec} {g : Graph} {s : Folding} {mode : LiftMode} {grouped : Bool}
  {node t u v : NodeId}

namespace Graph

/-! ### The top of a table -/

/-- What is folded at the top of a relational table leads from it to a relational table, of which
the keys are values. -/
structure Tops (g : Graph) (fused : List NodeId) (keys : List SortKey) (t : NodeId) : Prop where
  unstacked : g.Unstacked t
  ladder : g.Ladder false fused t
  keys : ∀ k ∈ keys, g.ComputesAmong false (t :: fused) k.expr

/-- The keys of the outermost sort, and of the outermost one with keys, are keys of a sort. -/
theorem exists_sort_of_keys {sorts : List NodeId} {k : SortKey}
    (hk : k ∈ g.topKeys sorts ∨ k ∈ g.innerKeys sorts) :
  ∃ n ∈ sorts, k ∈ g.sortKeysOf n
  := by
  rcases hk with hk | hk
  · rw [topKeys] at hk
    cases sorts with
    | nil => exact absurd hk List.not_mem_nil
    | cons n rest => exact ⟨n, List.mem_cons_self, hk⟩
  · rw [innerKeys] at hk
    cases hfound : (sorts.map g.sortKeysOf).find? (· ≠ []) with
    | none =>
        rw [hfound] at hk
        exact absurd hk List.not_mem_nil
    | some keys =>
        rw [hfound] at hk
        obtain ⟨n, hn, rfl⟩ := List.mem_map.mp (List.mem_of_find?_eq_some hfound)
        exact ⟨n, hn, hk⟩

/-- The limits, the sorts and the distinct at the top of a relational table. -/
theorem Unstacked.tops (hg : g.WellFounded) (h : g.Unstacked node) :
  g.Tops (Block.top g node).1.folding.fused (Block.top g node).1.clauses.orderBy
    (Block.top g node).2
  := by
  have hlimit := h.limits hg
  have hlimits := (ladder_chain hg false (fun _ _ => keptInput_of_limitInput) node).1
  have hsort := hlimit.sorts hg
  obtain ⟨hsorts, hmem⟩ := ladder_sorts hg false (g.chain limitInput? node).2
  have hladder := hlimits.append hsorts hmem
  have hkeys : ∀ k ∈ g.topKeys (g.chain sortInput? (g.chain limitInput? node).2).1,
      g.ComputesAmong false ((g.chain sortInput? (g.chain limitInput? node).2).2
        :: ((g.chain limitInput? node).1
          ++ (g.chain sortInput? (g.chain limitInput? node).2).1)) k.expr := by
    intro k hk
    obtain ⟨n, hn, hk⟩ := exists_sort_of_keys (.inl hk)
    exact (hlimit.relational.sortKeys hg n hn k hk).imp fun t ht => mem_ladder_right _ ht
  simp only [Block.top, Block.distinctOf]
  split
  case h_1 t hn =>
      have hkept : keptInput? (g.node (g.chain sortInput? (g.chain limitInput? node).2).2)
          = some t := by
        rw [hn]
        rfl
      have hone : g.Ladder false [(g.chain sortInput? (g.chain limitInput? node).2).2] t :=
        ladder_singleton (.kept hkept) (depth_lt_of_input hg hn rfl)
      have hself := List.mem_cons_of_mem t
        (List.mem_singleton_self (g.chain sortInput? (g.chain limitInput? node).2).2)
      refine ⟨hsort.input (input_of_keptInput hkept) (isProjection_of_keptInput hkept),
        hladder.append hone hself, ?_⟩
      exact fun k hk => (hkeys k hk).imp fun t ht => mem_ladder_append ht hself
  case h_2 => exact ⟨hsort, hladder, hkeys⟩

/-- Below the top of a table its selections lead on.  When all of this is folded, their predicates
and the keys at the top resolve to written values of the table below, and so do the values that are
written with columns of what is on the way. -/
theorem Tops.writes (hg : g.WellFounded) {fused below : List NodeId} {keys : List SortKey}
    (h : g.Tops fused keys t) (hr : g.isRelation u = true) (hbelow : g.Ladder grouped below u)
    (htable : (g.peel t).table ∈ u :: below)
    (hs : s.fused = fused ++ ((g.peel t).chain ++ below)) :
  u ∉ s.fused
    ∧ (∀ p ∈ (g.peel t).predicates, g.Writes s .substitute grouped u p)
    ∧ (∀ k ∈ keys, g.Writes s .output grouped u k.expr)
    ∧ ∀ mode, mode ≠ .projections → ∀ v, g.ComputesAmong grouped (u :: below) v →
      g.Writes s mode grouped u v
  := by
  obtain ⟨hpeel, ht⟩ := ladder_peel hg grouped t
  have ht' : t ∈ u :: ((g.peel t).chain ++ below) := mem_ladder_append ht htable
  have hladder : g.Ladder grouped s.fused u := by
    rw [hs]
    exact h.ladder.ofRow.append (hpeel.append hbelow htable) ht'
  have hwrites : ∀ {mode : LiftMode} {v : NodeId}, mode ≠ .projections →
      g.ComputesAmong grouped (u :: (fused ++ ((g.peel t).chain ++ below))) v →
      g.Writes s mode grouped u v := by
    intro mode v hmode hv
    rw [← hs] at hv
    exact hladder.writes_fused hg hmode hr hv
  refine ⟨hladder.not_mem, fun p hp => ?_, fun k hk => ?_, fun mode hmode v hv => ?_⟩
  · refine hwrites (by decide) (((h.unstacked.relational.predicates hg p hp).ofRow hg).imp ?_)
    exact fun w hw => mem_ladder_right fused (mem_ladder_append hw htable)
  · refine hwrites (by decide) (((h.keys k hk).ofRow hg).imp ?_)
    exact fun w hw => mem_ladder_append hw ht'
  · exact hwrites hmode (hv.imp fun w hw => mem_ladder_right fused (mem_ladder_right _ hw))

end Graph

namespace Block

/-- A block over the table `u` whose values resolve to written values of it. -/
structure Scoped (g : Graph) (s : Folding) (c : Clauses) (u : NodeId) : Prop where
  source : c.from? = some (.leaf u)
  outputs : c.outputs = s.outputs
  select : ∀ i ∈ c.select, g.Relational i ∨ g.Writes s .substitute true u i
  predicates : ∀ p ∈ c.predicates, g.Writes s .substitute false u p
  having : ∀ p ∈ c.having, g.Writes s .substitute true u p
  orderBy : ∀ k ∈ c.orderBy, g.Writes s .output true u k.expr

theorem outputs_of_top (g : Graph) (node : NodeId) :
  (top g node).1.folding.outputs = [] ∧ (top g node).1.clauses.outputs = []
  := by
  simp only [top, distinctOf]
  split <;> exact ⟨rfl, rfl⟩

/-- The block of an aggregation, whose values are those of its groups. -/
theorem scoped_aggregation (hg : g.WellFounded) (hnode : g.Unstacked node) {input : NodeId}
    {keys metrics having : List NodeId}
    (hn : g.node (g.peel (top g node).2).table = .aggregation input keys metrics having)
    {b : Block}
    (hdraws : Draws Q (g.operand input true true).chain
      (g.joinTree (g.operand input true true).table)
      (((top g node).1.foldAll (g.peel (top g node).2).chain).output
        (g.peel (top g node).2).table) g b)
    (hfused : s.fused = b.folding.fused) (houtputs : s.outputs = b.folding.outputs) :
  ∃ u, Scoped g s { b.clauses with
    select := keys ++ metrics
    predicates := (g.joinTree (g.operand input true true).table).hoisted
      ++ (g.operand input true true).predicates
    groupBy := List.range keys.length
    having := having ++ (g.peel (top g node).2).predicates } u
  := by
  have htops := hnode.tops hg
  obtain ⟨houtputs₀, houtputs₁⟩ := outputs_of_top g node
  generalize top g node = r at hn hdraws htops houtputs₀ houtputs₁ ⊢
  obtain ⟨b₀, t⟩ := r
  dsimp only at hn hdraws htops houtputs₀ houtputs₁ ⊢
  have hunstacked := htops.unstacked.peel hg
  obtain ⟨_, hkeys, hmetrics, hhaving⟩ := hunstacked.relational.of_aggregation hn
  have hinput := hunstacked.input (t := input) (by rw [hn]; rfl) (by rw [Graph.isProjection, hn])
  have hleaf := hinput.operand hg
  rw [hleaf.relational.joinTree hg] at hdraws ⊢
  obtain ⟨hoperand, hsource⟩ := Graph.ladder_operand hg false input
  have hitems : ∀ i ∈ keys ++ metrics, g.Selects true input i := by
    refine List.forall_mem_append.mpr ⟨fun i hi => ?_, hmetrics⟩
    exact (hkeys i hi).imp_right (And.imp_right (·.ofRow hg))
  have hgroups : g.Ladder true [(g.peel t).table] input :=
    Graph.ladder_singleton (.aggregation rfl hn hitems) (Graph.depth_lt_of_input hg hn rfl)
  have hbelow := hgroups.append hoperand.ofRow hsource
  have hnodes : s.fused = b₀.folding.fused ++ ((g.peel t).chain ++ ([(g.peel t).table]
      ++ (g.operand input true true).chain)) := by
    rw [hfused, hdraws.folding]
    simp [foldAll, output, JoinTree.folded]
  have hr := hleaf.relational.isRelation
  obtain ⟨hnot, hfilters, horder, hwrites⟩ :=
    htops.writes hg hr hbelow (List.mem_cons_of_mem _ List.mem_cons_self) hnodes
  have hvalues : ∀ v, g.Computes true input v →
      g.Writes s .substitute true (g.operand input true true).table v :=
    fun v hv => hwrites _ (by decide) v ⟨input, Graph.mem_ladder_right _ hsource, hv⟩
  refine ⟨(g.operand input true true).table, ?_, ?_, ?_, ?_, ?_, ?_⟩
  · rw [hdraws.clauses]
    rfl
  · rw [houtputs, hdraws.folding]
    simp [hdraws.clauses, foldAll, output, houtputs₀, houtputs₁]
  · intro i hi
    rcases hitems i hi with rfl | ⟨_, hcomputes⟩
    · exact .inl hinput.relational
    · exact .inr (hvalues i hcomputes)
  · intro p hp
    refine hoperand.writes hg (by decide) hnot hr (fun n hn => ?_)
      (hinput.relational.operand_predicates hg p hp)
    rw [hnodes]
    exact List.mem_append_right _ (List.mem_append_right _ (List.mem_append_right _ hn))
  · intro p hp
    rcases List.mem_append.mp hp with hp | hp
    · exact hvalues p (hhaving p hp)
    · exact hfilters p hp
  · intro k hk
    rw [hdraws.clauses] at hk
    exact horder k hk

/-- The block of a projection, with those that it is fused with. -/
theorem scoped_projection (hg : g.WellFounded) (hnode : g.Unstacked node) {fs : List Fused}
    {core input : NodeId} {items : List NodeId}
    (hprojection : g.isProjection (g.peel (top g node).2).table = true)
    (hfuses : g.FusesTo (g.peel (top g node).2).table fs core)
    (hcore : g.node core = .projection input items) {b : Block}
    (hdraws : Draws Q (g.operand (g.chain Graph.sortInput? input).2 true true).chain
      (g.joinTree (g.operand (g.chain Graph.sortInput? input).2 true true).table)
      (((((top g node).1.foldAll (g.peel (top g node).2).chain).output
        (g.peel (top g node).2).table).fused fs).sorted (g.chain Graph.sortInput? input).1
          (g.innerKeys (g.chain Graph.sortInput? input).1)) g b)
    (hfused : s.fused = b.folding.fused) (houtputs : s.outputs = b.folding.outputs) :
  ∃ u, Scoped g s (b.selecting items
    ((g.joinTree (g.operand (g.chain Graph.sortInput? input).2 true true).table).hoisted
      ++ (g.operand (g.chain Graph.sortInput? input).2 true true).predicates
      ++ (g.peel (top g node).2).predicates)).clauses u
  := by
  have htops := hnode.tops hg
  obtain ⟨_, _, hhaving₀, _⟩ := top_eq g node
  obtain ⟨houtputs₀, houtputs₁⟩ := outputs_of_top g node
  generalize top g node = r at hprojection hfuses hdraws htops hhaving₀ houtputs₀ houtputs₁ ⊢
  obtain ⟨b₀, t⟩ := r
  dsimp only at hprojection hfuses hdraws htops hhaving₀ houtputs₀ houtputs₁ ⊢
  obtain ⟨w₀, outer, hn⟩ := Graph.eq_projection hprojection
  obtain ⟨w, filters, inner, hcondensed, hw, hends, hprojections⟩ :=
    (htops.unstacked.peel hg).fused hg hn hfuses
  obtain ⟨hinput, hitems⟩ := hcondensed.input hw hcore
  have hleaf := (hinput.sorts hg).operand hg
  rw [hleaf.relational.joinTree hg] at hdraws ⊢
  obtain ⟨hsource, hw'⟩ := hcondensed.ladder_source hg hends hcore
  obtain ⟨_, hoperand⟩ := Graph.ladder_operand hg false (g.chain Graph.sortInput? input).2
  have hnodes : s.fused = b₀.folding.fused ++ ((g.peel t).chain
      ++ (((g.peel t).table :: fs.flatMap fun f => f.absorbed ++ [f.node])
        ++ ((g.chain Graph.sortInput? input).1
          ++ (g.operand (g.chain Graph.sortInput? input).2 true true).chain))) := by
    rw [hfused, hdraws.folding, fused_eq]
    simp [sorted, foldAll, output, JoinTree.folded]
  have hr := hleaf.relational.isRelation
  have hbelow := hprojections.append hsource hw'
  have hgroups : g.Ladder true _ _ := hbelow.ofRow
  -- predicates are values of rows, while items and keys may be values of groups
  obtain ⟨_, hfilters, _, hrows⟩ :=
    htops.writes hg hr hbelow (List.mem_cons_of_mem _ List.mem_cons_self) hnodes
  obtain ⟨_, _, horder, hvalues⟩ :=
    htops.writes hg hr hgroups (List.mem_cons_of_mem _ List.mem_cons_self) hnodes
  refine ⟨(g.operand (g.chain Graph.sortInput? input).2 true true).table, ?_, ?_, ?_, ?_, ?_, ?_⟩
  · rw [selecting, hdraws.clauses]
    rfl
  · rw [houtputs, hdraws.folding, selecting, hdraws.clauses, fused_eq]
    simp [sorted, foldAll, output, houtputs₀, houtputs₁]
  · intro i hi
    rcases hitems i hi with rfl | ⟨_, hcomputes⟩
    · exact .inl hw.relational
    · exact .inr (hvalues _ (by decide) i
        ⟨w, Graph.mem_ladder_right _ hw', hcomputes.ofRow hg⟩)
  · intro p hp
    rcases List.mem_append.mp hp with hp | hp
    · refine hrows _ (by decide) p
        (((hinput.sorts hg).relational.operand_predicates hg p hp).imp fun n hn => ?_)
      exact Graph.mem_ladder_right _ (Graph.mem_ladder_right _ hn)
    · exact hfilters p hp
  · rw [selecting, hdraws.clauses, fused_eq]
    simp [sorted, foldAll, output, hhaving₀]
  · intro k hk
    have hkey : k ∈ if b₀.clauses.orderBy = [] then g.innerKeys (g.chain Graph.sortInput? input).1
        else b₀.clauses.orderBy := by
      rw [selecting, hdraws.clauses, fused_eq] at hk
      exact hk
    by_cases hkeys : b₀.clauses.orderBy = []
    · rw [if_pos hkeys] at hkey
      obtain ⟨n, hn, hkey⟩ := Graph.exists_sort_of_keys (.inr hkey)
      refine hvalues _ (by decide) k.expr
        (((hinput.relational.sortKeys hg n hn k hkey).ofRow hg).imp fun m hm => ?_)
      exact Graph.mem_ladder_right _ (Graph.mem_ladder_append hm hoperand)
    · rw [if_neg hkeys] at hkey
      exact horder k hkey

/-- The block of any other table. -/
theorem scoped_other (hg : g.WellFounded) (hnode : g.Unstacked node) {b : Block}
    (hdraws : Draws Q [] (g.joinTree (g.peel (top g node).2).table)
      ((top g node).1.foldAll (g.peel (top g node).2).chain) g b)
    (hfused : s.fused = b.folding.fused) (houtputs : s.outputs = b.folding.outputs) :
  ∃ u, Scoped g s (b.selecting [(g.peel (top g node).2).table]
    ((g.joinTree (g.peel (top g node).2).table).hoisted
      ++ (g.peel (top g node).2).predicates)).clauses u
  := by
  have htops := hnode.tops hg
  obtain ⟨_, _, hhaving₀, _⟩ := top_eq g node
  obtain ⟨houtputs₀, houtputs₁⟩ := outputs_of_top g node
  generalize top g node = r at hdraws htops hhaving₀ houtputs₀ houtputs₁ ⊢
  obtain ⟨b₀, t⟩ := r
  dsimp only at hdraws htops hhaving₀ houtputs₀ houtputs₁ ⊢
  have hleaf := htops.unstacked.peel hg
  rw [hleaf.relational.joinTree hg] at hdraws ⊢
  have hnodes : s.fused = b₀.folding.fused ++ ((g.peel t).chain ++ []) := by
    rw [hfused, hdraws.folding]
    simp [foldAll, JoinTree.folded]
  have hr := hleaf.relational.isRelation
  obtain ⟨_, hfilters, _⟩ :=
    htops.writes hg hr (Graph.ladder_nil false _) List.mem_cons_self hnodes
  obtain ⟨_, _, horder, _⟩ :=
    htops.writes hg hr (Graph.ladder_nil true _) List.mem_cons_self hnodes
  refine ⟨(g.peel t).table, ?_, ?_, ?_, ?_, ?_, ?_⟩
  · rw [selecting, hdraws.clauses]
    rfl
  · rw [houtputs, hdraws.folding, selecting, hdraws.clauses]
    simp [foldAll, houtputs₀, houtputs₁]
  · exact List.forall_mem_singleton.mpr (.inl hleaf.relational)
  · exact hfilters
  · rw [selecting, hdraws.clauses]
    simp [foldAll, hhaving₀]
  · intro k hk
    rw [selecting, hdraws.clauses] at hk
    exact horder k hk

/-- The block below the top of a relational table has written values of one table. -/
theorem Built.scoped (hg : g.WellFounded) (hnode : g.Unstacked node) {b : Block}
    (h : Built Q (top g node).1 (top g node).2 g b) (hfused : s.fused = b.folding.fused)
    (houtputs : s.outputs = b.folding.outputs) :
  ∃ u, Scoped g s b.clauses u
  := by
  cases h with
  | aggregation hn hdraws => exact scoped_aggregation hg hnode hn hdraws hfused houtputs
  | projection hn _ hfuses hcore hdraws =>
      exact scoped_projection hg hnode hn hfuses hcore hdraws hfused houtputs
  | other _ _ hdraws => exact scoped_other hg hnode hdraws hfused houtputs

end Block

end RelSql

namespace RelSql

/-! ### Blocks whose columns are in scope -/

variable {Q : QuerySpec} {g g' : Graph} {s : Folding} {c : Clauses} {node u v : NodeId}

/-- A value is written with columns of tables of the FROM clause and of outputs of a block. -/
def Clauses.InScope (g : Graph) (c : Clauses) (v : NodeId) : Prop :=
  g.denote (.written true fun t _ => c.leaves.contains t || c.outputs.contains t) v = true

theorem Clauses.InScope.mono (e : g.Extends g') (hg : g.WellFounded) (hg' : g'.WellFounded)
    (hv : g.Has v) (h : c.InScope g v) :
  c.InScope g' v
  := by
  rw [InScope, e.denote_eq hg hg' hv]
  exact h

/-- A block without joins and subqueries, whose columns are in scope. -/
structure Select.Readable (g : Graph) (b : Select) : Prop where
  valid : b.clauses.Valid g
  tables : ∀ s ∈ b.nested, s.kind = .table
  joins : ∀ t ∈ b.clauses.from?, t.joins = []
  select : ∀ i ∈ b.clauses.select, g.isRelation i = true ∨ b.clauses.InScope g i
  predicates : ∀ p ∈ b.clauses.predicates, b.clauses.InScope g p
  having : ∀ p ∈ b.clauses.having, b.clauses.InScope g p
  orderBy : ∀ k ∈ b.clauses.orderBy, b.clauses.InScope g k.expr

namespace Select

theorem readable_persistent :
  Graph.Persistent Readable
  := by
  intro g g' b hg hg' e h
  refine ⟨h.valid.mono e, h.tables, h.joins, fun i hi => ?_, fun p hp => ?_, fun p hp => ?_,
    fun k hk => ?_⟩
  · have hhas := h.valid.select i hi
    rw [e.isRelation_eq hhas]
    exact (h.select i hi).imp_right (·.mono e hg hg' hhas)
  · exact (h.predicates p hp).mono e hg hg' (h.valid.predicates p hp)
  · exact (h.having p hp).mono e hg hg' (h.valid.having p hp)
  · exact (h.orderBy k hk).mono e hg hg' (h.valid.orderBy k hk)

/-- What is in scope depends neither on labels nor on common table expressions. -/
theorem readable_unbound (g : Graph) (b : Select) :
  Readable g b.unbound ↔ Readable g b
  := by
  constructor
  · intro h
    refine ⟨⟨h.valid.select, h.valid.source, h.valid.predicates, h.valid.having, h.valid.orderBy⟩,
      ?_, h.joins, h.select, h.predicates, h.having, h.orderBy⟩
    exact fun s hs => h.tables s.unbound (List.mem_map_of_mem hs)
  · intro h
    exact ⟨⟨h.valid.select, h.valid.source, h.valid.predicates, h.valid.having, h.valid.orderBy⟩,
      List.forall_mem_map.mpr h.tables, h.joins, h.select, h.predicates, h.having, h.orderBy⟩

end Select

/-! ### Completed blocks -/

namespace Block

/-- What is left of a value that a block writes is in the scope of the block. -/
theorem inScope_of_writes {mode : LiftMode} {grouped : Bool} {l : NodeId} (hg : g.WellFounded)
    (hu : u ∈ c.leaves) (houtputs : c.outputs = s.outputs) (h : g.Writes s mode grouped u v)
    (hl : g.denote (.written grouped (s.remains mode g u)) l
      = (s.resolve mode (.written grouped (s.remains mode g u)) g v).value) :
  c.InScope g l
  := by
  rw [Graph.Writes, ← hl] at h
  refine Graph.denote_written_mono hg (fun _ => rfl) (fun t name ht => ?_) h
  rw [Folding.remains, Bool.and_eq_true, Bool.or_eq_true, beq_iff_eq, Bool.and_eq_true] at ht
  rw [Bool.or_eq_true, houtputs]
  rcases ht.1 with rfl | ⟨_, ht⟩
  · exact .inl (List.contains_iff_mem.mpr hu)
  · exact .inr ht

/-- A predicate of a block, lifted, is written for each row. -/
theorem Scoped.plain (hg : g.WellFounded) (h : Scoped g s c u) {p l : NodeId}
    (hp : p ∈ c.predicates) (hlifts : s.Lifts .substitute g p l) :
  g.denote (.plain fun _ _ => True) l
  := Graph.plain_of_written hg ((hlifts.denote _).trans (h.predicates p hp))

/-- Completing a block leaves its columns in scope, and compiles no subqueries. -/
theorem Completed.readable (hg : g.WellFounded) {built b : Block}
    (hscoped : Scoped g b.folding built.clauses u) (h : Completed Q built (.leaf u) g b) :
  Select.Readable g ⟨b.clauses, b.nested⟩
  := by
  have hranking : ∀ p ∈ built.clauses.predicates, isRanking g p = false :=
    fun p hp => (hscoped.predicates p hp).not_ranking hg
  obtain ⟨n, joins, more, hfrom, hjoins, _, _, _, hnone⟩ := h.source
  obtain rfl : more = [] := by
    apply hnone
    rw [List.filter_eq_nil_iff]
    intro p hp
    rw [hranking p hp]
    exact Bool.false_ne_true
  cases hjoins
  have hu : u ∈ b.clauses.leaves := by
    rw [Clauses.leaves, hfrom]
    exact List.mem_cons_self
  have houtputs : b.clauses.outputs = b.folding.outputs := h.same.1.trans hscoped.outputs
  have hpredicates := h.predicates
  rw [List.filter_eq_self.mpr fun p hp => by rw [hranking p hp]; rfl] at hpredicates
  refine ⟨h.valid, fun s hs => ?_, ?_, fun l hl => ?_, fun l hl => ?_, fun l hl => ?_,
    fun k hk => ?_⟩
  · -- a subquery would stand for part of a predicate, which is written for each row
    by_contra hkind
    obtain ⟨l, hl, hextracts⟩ := h.held s hs hkind
    obtain ⟨p, hp, hlifts⟩ := forall₂_exists hpredicates.flip l hl
    exact Graph.not_extracts_of_plain hg hlifts.target hextracts (hscoped.plain hg hp hlifts)
  · rw [hfrom]
    rintro t ⟨⟩
    rfl
  · obtain ⟨i, hi, hlifts⟩ := forall₂_exists h.select.flip l hl
    cases hlifts with
    | star hr _ =>
        rcases hscoped.select i hi with hi | hi
        · exact .inl (hi.star hg)
        · rw [hi.not_relation hg] at hr
          cases hr
    | value hr hlifts =>
        rcases hscoped.select i hi with hi | hi
        · rw [hi.isRelation] at hr
          cases hr
        · exact .inr (inScope_of_writes hg hu houtputs hi
            (hlifts.denote _ (Algebra.written_transparent _ _)))
  · obtain ⟨p, hp, hlifts⟩ := forall₂_exists hpredicates.flip l hl
    exact inScope_of_writes hg hu houtputs (hscoped.predicates p hp) (hlifts.denote _)
  · obtain ⟨p, hp, hlifts⟩ := forall₂_exists h.having.flip l hl
    exact inScope_of_writes hg hu houtputs (hscoped.having p hp) (hlifts.denote _)
  · obtain ⟨k', hk', hlifts⟩ := forall₂_exists h.orderBy.flip k hk
    exact inScope_of_writes hg hu houtputs (hscoped.orderBy k' hk') (hlifts.expr.denote _)

/-- The block of a relational table is readable. -/
theorem OfTable.readable (hg : g.WellFounded) (hnode : g.Unstacked node) {b : Block}
    (h : OfTable Q g node b) :
  Select.Readable g ⟨b.clauses, b.nested⟩
  := by
  obtain @⟨built, source, _, _, hbuilt, hfrom, _, hcompleted⟩ := h
  obtain ⟨u, hscoped⟩ := hbuilt.scoped hg hnode hcompleted.fused hcompleted.outputs
  have htables : (g.joinTree source).tables = .leaf u :=
    Option.some.inj (hfrom.symm.trans hscoped.source)
  rw [htables] at hcompleted
  exact hcompleted.readable hg hscoped

end Block

end RelSql
