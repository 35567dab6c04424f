import RelSql.Proofs.Block.Joins

/-!
# Rankings

A ranking adds one table to the FROM clause of a block.  The table has been compiled for the
ranking, so it is none of the tables before.
-/

namespace RelSql

open Analysis

variable {Q : QuerySpec} {g g' : Graph} {compile : NodeId → Analysis Query}

/-- Adding a column of a table. -/
theorem Analysis.grows_column (hg : g.WellFounded) {table : NodeId} {name : String}
    (ht : g.Has table) :
  Grows (fun g' id => g'.Has id ∧ g'.node id = .column table name)
    (build fun g => g.column table name) g
  := by
  constructor
  · intro id g' hrun
    simp only [build, StateT.run] at hrun
    split at hrun
    case h_2 => cases hrun
    case h_1 result hresult =>
        cases hrun
        rw [Graph.column] at hresult
        split at hresult
        · cases hresult
        · obtain ⟨schema, _, hresult⟩ := exists_of_bind_eq_ok hresult
          obtain ⟨field, _, hresult⟩ := exists_of_bind_eq_ok hresult
          split at hresult
          · cases hresult
          · cases hresult
            have hn : ∀ c ∈ (Node.column table name).children, g.Has c :=
              List.forall_mem_singleton.mpr ht
            exact ⟨hg.push hn, g.extends_push _, Graph.has_push g _, Graph.node_push g _⟩
  · intro f hrun
    simp only [build, StateT.run] at hrun
    split at hrun
    · cases hrun
    · cases hrun
      exact ⟨hg, .refl _⟩

/-- The tables that a value reads are there. -/
theorem Graph.WellFounded.has_tables (hg : g.WellFounded) {id : NodeId} (hid : g.Has id) :
  ∀ t ∈ g.tables id, g.Has t
  := by
  intro t ht
  rw [Graph.tables, List.mem_eraseDups, List.mem_filterMap] at ht
  obtain ⟨c, hc, ht⟩ := ht
  obtain ⟨t', name, hn⟩ := Graph.node_of_mem_columns hg hid hc
  rw [Graph.columnTable?, hn] at ht
  rw [← Option.some.inj ht]
  apply hg.has_child (Graph.has_of_node hn (by rintro ⟨⟩))
  rw [hn]
  exact List.mem_singleton_self t'

namespace Block

/-- Lifting the ranked value and its metric. -/
theorem grows_both (hg : g.WellFounded) (s : Folding) (mode : LiftMode) {arg metric : NodeId}
    (harg : g.Has arg) (hmetric : g.Has metric) :
  Grows (fun g' r => s.Lifts mode g' arg r.1 ∧ s.Lifts mode g' metric r.2)
    (lifted (do return (← Lift.value s mode arg, ← Lift.value s mode metric))) g
  := by
  apply grows_lifted s mode
  apply LiftM.keeps_bind (Lift.keeps_value (Lift.sound_empty hg s mode) harg)
  intro a st hs e ha
  apply LiftM.keeps_bind (Lift.keeps_value hs (hmetric.mono e))
  intro m st' hs' e' hm
  exact LiftM.keeps_pure hs'
    ⟨Folding.Lifts.persistent arg hs.wellFounded hs'.wellFounded e' ha, hm⟩

/-- The groups of the ranked values: of a table that the value reads below projections, or of
the FROM clause. -/
inductive GroupedBy (b : Block) (g : Graph) (arg groups : NodeId) : Prop where
  | table {table key metric : NodeId} (hkey : b.folding.Lifts .projections g arg key)
      (htable : table ∈ g.tables key)
      (hnode : g.node groups = .aggregation table [key] [metric] []) : GroupedBy b g arg groups
  | source {t : TableSet} {key metric : NodeId} (ht : b.clauses.from? = some t)
      (hnode : g.node groups = .aggregation t.node [key] [metric] []) : GroupedBy b g arg groups

/-- The groups of the ranked values. -/
theorem grows_ranked (hg : g.WellFounded) {b : Block} (hb : b.clauses.Valid g)
    {arg metric : NodeId} (harg : g.Has arg) (hmetric : g.Has metric) :
  Grows (fun g' r => g'.Has r.1 ∧ g'.Has r.2 ∧ b.GroupedBy g' arg r.2) (b.ranked arg metric) g
  := by
  have hgroups : ∀ {g : Graph} {table key metric lifted : NodeId}, g.WellFounded →
      g.Has table → g.Has key → g.Has metric → g.Has lifted →
      Grows (fun g' r => g'.Has r.1 ∧ g'.Has r.2 ∧ ∃ metric,
          g'.node r.2 = .aggregation table [key] [metric] [])
        (do
          let metric ← Analysis.push (.named metric metricName)
          return (lifted, ← Analysis.push (.aggregation table [key] [metric] []))) g := by
    intro g table key metric lifted hg htable hkey hmetric hlifted
    apply grows_bind (grows_push hg (n := .named metric metricName)
      (List.forall_mem_singleton.mpr hmetric))
    intro m g₁ hg₁ e₁ hm
    apply grows_bind (grows_push hg₁ (n := .aggregation table [key] [m] []) _)
    · intro groups g₂ hg₂ e₂ hgroups
      exact grows_pure hg₂ ⟨(hlifted.mono e₁).mono e₂, hgroups.1, m, hgroups.2.1⟩
    · intro c hc
      rcases List.mem_cons.mp hc with rfl | hc
      · exact htable.mono e₁
      · rcases List.mem_cons.mp hc with rfl | hc
        · exact hkey.mono e₁
        · rw [List.mem_singleton.mp hc]
          exact hm.1
  rw [ranked]
  apply grows_bind (grows_both hg b.folding .projections harg hmetric)
  rintro ⟨argBelow, metricBelow⟩ g₁ hg₁ e₁ ⟨hargBelow, hmetricBelow⟩
  apply grows_bind (grows_both hg₁ b.folding .substitute (harg.mono e₁) (hmetric.mono e₁))
  rintro ⟨argLifted, metricLifted⟩ g₂ hg₂ e₂ ⟨hargLifted, hmetricLifted⟩
  apply grows_get
  split
  · exact grows_fail hg₂ _
  case h_2 table rest htables =>
      have hread : table ∈ g₂.tables argBelow := by
        rw [htables]
        exact List.mem_cons_self
      have hbelow := hargBelow.target.mono e₂
      split
      · apply (hgroups hg₂ (hg₂.has_tables hbelow table hread) hbelow
          (hmetricBelow.target.mono e₂) hargLifted.target).imp
        rintro r g₃ hg₃ e₃ ⟨hlifted, hhas, m, hnode⟩
        have hkey := Folding.Lifts.persistent arg hg₁ hg₃ (e₂.trans e₃) hargBelow
        have htable := (e₃.mem_tables_iff hg₂ hg₃ hbelow table).mpr hread
        exact ⟨hlifted, hhas, .table hkey htable hnode⟩
      · split
        · exact grows_fail hg₂ _
        case h_2 t ht =>
            have hnode := ((hb.source t ht).node.mono e₁).mono e₂
            apply (hgroups hg₂ hnode hargLifted.target hmetricLifted.target hargLifted.target).imp
            rintro r g₃ _ _ ⟨hlifted, hhas, m, hnode⟩
            exact ⟨hlifted, hhas, .source ht hnode⟩

/-- The second block is the first one with more semi joins, whose tables are pairwise distinct
and are not in the graph `old`. -/
structure Ranks (Q : QuerySpec) (old : Graph) (t : TableSet) (b : Block) (g : Graph)
    (b' : Block) : Prop where
  valid : b'.Valid Q g
  rest : b' = { b with
    nested := b'.nested
    folding := { b.folding with join := b'.folding.join }
    clauses := { b.clauses with from? := b'.clauses.from? } }
  source : ∃ node more, b'.clauses.from? = some ⟨node, t.first, t.joins ++ more⟩
    ∧ (more.map JoinClause.table).Nodup ∧ ∀ c ∈ more, ¬ old.Has c.table ∧ c.kind = .semi

/-- A ranking adds a join with a fresh table. -/
theorem grows_semiJoin (hg : g.WellFounded) {old : Graph} {t : TableSet} {b₀ b : Block}
    (h : Ranks Q old t b₀ g b) {table predicate : NodeId} (htable : g.Has table)
    (hpredicate : g.Has predicate) (hsourced : g.Sourced b.nested table)
    (hfresh : ¬ old.Has table) (hnew : table ∉ b.clauses.leaves) (hQ : Q.Persistent) :
  Grows (Ranks Q old t b₀) (b.semiJoin table predicate) g
  := by
  obtain ⟨node, more, hfrom, hnodup, hmore⟩ := h.source
  have hsource := h.valid.clauses.source _ hfrom
  rw [semiJoin, hfrom]
  apply grows_bind (grows_push hg (n := .join .semi node table [predicate]) _)
  · intro joined g' hg' e hjoined
    apply grows_pure hg'
    have hvalid := h.valid.mono hQ hg hg' e
    have hclauses := hvalid.clauses
    refine ⟨⟨⟨hclauses.select, ?_, hclauses.predicates, hclauses.having, hclauses.orderBy⟩, ?_,
      hvalid.nested, ?_⟩, ?_, joined, more ++ [⟨.semi, table, [predicate]⟩], ?_, ?_, ?_⟩
    · intro t' ht'
      rw [← Option.some.inj ht']
      have hold := hsource.mono e
      refine ⟨hjoined.1, ?_, ?_⟩
      · intro leaf hleaf
        simp only [TableSet.leaves, List.map_append, ← List.cons_append] at hleaf
        rcases List.mem_append.mp hleaf with hleaf | hleaf
        · apply hold.leaves
          simpa [TableSet.leaves] using hleaf
        · rw [List.mem_singleton.mp hleaf]
          exact htable.mono e
      · intro c hc p hp
        rcases List.mem_append.mp hc with hc | hc
        · exact hold.predicates c hc p hp
        · rw [List.mem_singleton.mp hc] at hp
          rw [List.mem_singleton.mp hp]
          exact hpredicate.mono e
    · intro j hj
      rw [← Option.some.inj hj, Graph.isJoin, hjoined.2.1]
    · intro leaf hleaf
      simp only [Clauses.leaves, TableSet.leaves, List.map_append, ← List.cons_append] at hleaf
      rcases List.mem_append.mp hleaf with hleaf | hleaf
      · apply hvalid.sourced
        simp only [Clauses.leaves, hfrom, TableSet.leaves, List.map_append]
        simpa using hleaf
      · rw [List.mem_singleton.mp hleaf]
        exact hsourced.mono e hg htable (List.prefix_refl _)
    · have hrest := h.rest
      rw [hrest]
    · rw [List.append_assoc]
    · rw [List.map_append]
      apply List.Nodup.append hnodup (List.nodup_singleton _)
      intro x hx hx'
      rw [List.mem_singleton.mp hx'] at hx
      apply hnew
      simp only [Clauses.leaves, hfrom, TableSet.leaves, List.map_append]
      exact List.mem_cons_of_mem _ (List.mem_append_right _ hx)
    · intro c hc
      rcases List.mem_append.mp hc with hc | hc
      · exact hmore c hc
      · rw [List.mem_singleton.mp hc]
        exact ⟨hfresh, rfl⟩
  · intro c hc
    rcases List.mem_cons.mp hc with rfl | hc
    · exact hsource.node
    · rcases List.mem_cons.mp hc with rfl | hc
      · exact htable
      · rw [List.mem_singleton.mp hc]
        exact hpredicate

/-- Compiling a table changes no join. -/
theorem Ranks.feeds (hQ : Q.Persistent) {old : Graph} {t : TableSet} {b₀ b b' : Block}
    (h : Ranks Q old t b₀ g b) (hg : g.WellFounded) (hg' : g'.WellFounded) (e : g.Extends g')
    {leaf : NodeId} (hfeed : Feeds Q [] [leaf] b g' b') :
  Ranks Q old t b₀ g' b'
  := by
  have hfolding : b'.folding = b.folding := by rw [hfeed.folding, List.append_nil]
  have hvalid := h.valid.mono hQ hg hg' e
  refine ⟨⟨?_, ?_, hfeed.nested, ?_⟩, ?_, ?_⟩
  · rw [hfeed.clauses]
    exact hvalid.clauses
  · rw [hfolding]
    exact hvalid.join
  · intro l hl
    rw [hfeed.clauses] at hl
    exact (hvalid.sourced l hl).mono (.refl _) hg' (hvalid.clauses.has_leaves l hl) hfeed.added
  · have hrest : b' = { b with nested := b'.nested } := by
      cases b'
      cases b
      simp only [Block.mk.injEq, true_and]
      exact ⟨hfeed.clauses, hfolding, hfeed.aggregate⟩
    rw [hrest, h.rest]
  · rw [hfeed.clauses]
    exact h.source

/-- The values of a column that rank first by a metric are joined. -/
theorem grows_rankedBy (hQ : Q.Persistent) (hcompile : Q.Meets compile) (hg : g.WellFounded)
    {old : Graph} (eold : old.Extends g) {t : TableSet} {b₀ b : Block}
    (h : Ranks Q old t b₀ g b) {arg metric : NodeId} (harg : g.Has arg)
    (hmetric : g.Has metric) (k : Nat) (name : String) :
  Grows (Ranks Q old t b₀)
    (do
      let (argLifted, groups) ← b.ranked arg metric
      let key ← Analysis.build fun g => g.column groups metricName
      let sorted ← Analysis.push (.sort groups [⟨key, false⟩])
      let first ← Analysis.push (.limit sorted k 0)
      let value ← Analysis.build fun g => g.column first name
      let predicate ← Analysis.push (.binary .eq argLifted value)
      let b ← b.leaf compile first
      b.semiJoin first predicate) g
  := by
  apply grows_bind (grows_ranked hg h.valid.clauses harg hmetric)
  rintro ⟨argLifted, groups⟩ g₁ hg₁ e₁ ⟨hargLifted, hgroups, _⟩
  apply grows_bind (grows_column hg₁ hgroups)
  intro key g₂ hg₂ e₂ hkey
  apply grows_bind (grows_push hg₂ (n := .sort groups [⟨key, false⟩]) _)
  · intro sorted g₃ hg₃ e₃ hsorted
    apply grows_bind (grows_push hg₃ (n := .limit sorted k 0)
      (List.forall_mem_singleton.mpr hsorted.1))
    intro first g₄ hg₄ e₄ hfirst
    apply grows_bind (grows_column hg₄ hfirst.1)
    intro value g₅ hg₅ e₅ hvalue
    have harg₅ := (((hargLifted.mono e₂).mono e₃).mono e₄).mono e₅
    apply grows_bind (grows_push hg₅ (n := .binary .eq argLifted value) _)
    · intro predicate g₆ hg₆ e₆ hpredicate
      have e := ((((e₁.trans e₂).trans e₃).trans e₄).trans e₅).trans e₆
      have hfirst₆ := (hfirst.1.mono e₅).mono e₆
      apply grows_bind (grows_leaf hQ hcompile hg₆ (h.valid.mono hQ hg hg₆ e).nested hfirst₆)
      intro b' g₇ hg₇ e₇ hfeed
      -- the table has been added after every handle of the graphs before
      have hsize : g.size ≤ first.index := by
        apply Nat.le_trans _ hfirst.2.2
        exact ((e₁.trans e₂).trans e₃).size_le
      apply grows_semiJoin hg₇ (h.feeds hQ hg hg₇ (e.trans e₇) hfeed) (hfirst₆.mono e₇)
        (hpredicate.1.mono e₇) (hfeed.sourced first (List.mem_singleton_self _)).2 _ _ hQ
      · intro hold
        exact absurd (hold.mono eold) (Nat.not_lt.mpr hsize)
      · intro hmem
        rw [hfeed.clauses] at hmem
        exact absurd (h.valid.clauses.has_leaves first hmem) (Nat.not_lt.mpr hsize)
    · intro c hc
      rcases List.mem_cons.mp hc with rfl | hc
      · exact harg₅
      · rw [List.mem_singleton.mp hc]
        exact hvalue.1
  · intro c hc
    rcases List.mem_cons.mp hc with rfl | hc
    · exact hgroups.mono e₂
    · rw [List.mem_singleton.mp hc]
      exact hkey.1

/-- A ranking becomes a join with the values that rank first. -/
theorem grows_rank (hQ : Q.Persistent) (hcompile : Q.Meets compile) (hg : g.WellFounded)
    {old : Graph} (eold : old.Extends g) {t : TableSet} {b₀ b : Block}
    (h : Ranks Q old t b₀ g b) {id : NodeId} (hid : g.Has id) :
  Grows (Ranks Q old t b₀) (rank compile b id) g
  := by
  rw [rank]
  apply grows_get
  split
  case h_2 => exact grows_pure hg h
  case h_1 arg k metric? hn =>
      have hchild : ∀ c ∈ arg :: metric?.toList, g.Has c := by
        intro c hc
        apply hg.has_child hid
        rw [hn]
        exact hc
      have harg := hchild arg List.mem_cons_self
      apply grows_get
      split
      case h_2 => exact grows_fail hg _
      case h_1 _ name _ =>
          cases metric? with
          | some m =>
              simp only [pure_bind]
              exact grows_rankedBy hQ hcompile hg eold h harg (hchild m (by simp)) k name
          | none =>
              apply grows_bind (grows_push hg (n := .reduction .count arg)
                (List.forall_mem_singleton.mpr harg))
              intro m g₁ hg₁ e₁ hm
              have h₁ : Ranks Q old t b₀ g₁ b :=
                ⟨h.valid.mono hQ hg hg₁ e₁, h.rest, h.source⟩
              exact grows_rankedBy hQ hcompile hg₁ (eold.trans e₁) h₁ (harg.mono e₁) hm.1 k name

/-- Rankings become joins with tables that are fresh for the graph before all of them. -/
theorem grows_rankAll (hQ : Q.Persistent) (hcompile : Q.Meets compile) {old : Graph}
    {t : TableSet} {b₀ : Block} (ids : List NodeId) {g : Graph} {b : Block}
    (hg : g.WellFounded) (eold : old.Extends g) (h : Ranks Q old t b₀ g b)
    (hids : ∀ id ∈ ids, g.Has id) :
  Grows (Ranks Q old t b₀) (ids.foldlM (rank compile) b) g
  := by
  apply (grows_foldlM (R := fun g' rest b' => Ranks Q old t b₀ g' b' ∧ old.Extends g'
    ∧ ∀ id ∈ rest, g'.Has id) ids hg ⟨h, eold, hids⟩ _).imp
  · exact fun b' g' _ _ h => h.1
  · rintro id rest b' g' hg' e ⟨h, eold, hids⟩
    apply (grows_rank hQ hcompile hg' eold h (hids id List.mem_cons_self)).imp
    intro b'' g'' _ e' h'
    exact ⟨h', eold.trans e', fun i hi => (hids i (List.mem_cons_of_mem id hi)).mono e'⟩

/-- A block without some of its predicates. -/
def filtering (b : Block) (keep : NodeId → Bool) : Block :=
  { b with clauses := { b.clauses with predicates := b.clauses.predicates.filter keep } }

/-- A block without its rankings has no joins with fresh tables yet. -/
theorem ranks_filtering {b : Block} (hb : b.Valid Q g) {t : TableSet}
    (ht : b.clauses.from? = some t) (keep : NodeId → Bool) :
  Ranks Q g t (b.filtering keep) g (b.filtering keep)
  := by
  refine ⟨⟨⟨hb.clauses.select, hb.clauses.source, ?_, hb.clauses.having, hb.clauses.orderBy⟩,
    hb.join, hb.nested, hb.sourced⟩, rfl, t.node, [], ?_, List.nodup_nil, nofun⟩
  · exact fun id hid => hb.clauses.predicates id (List.mem_of_mem_filter hid)
  · rw [List.append_nil]
    exact ht

/-- The rankings of a block become joins with fresh tables. -/
theorem grows_joinRankings (hQ : Q.Persistent) (hcompile : Q.Meets compile)
    (hg : g.WellFounded) {b : Block} (hb : b.Valid Q g) {t : TableSet}
    (ht : b.clauses.from? = some t) :
  Grows (fun g' b' => Ranks Q g t (b.filtering fun p => !isRanking g p) g' b'
      ∧ (b.clauses.predicates.filter (isRanking g) = []
        → b' = b.filtering fun p => !isRanking g p))
    (b.joinRankings compile) g
  := by
  rw [joinRankings]
  apply grows_get
  simp only [List.partition_eq_filter_filter]
  have hids : ∀ id ∈ b.clauses.predicates.filter (isRanking g), g.Has id :=
    fun id hid => hb.clauses.predicates id (List.mem_of_mem_filter hid)
  have hstart := ranks_filtering hb ht fun p => !isRanking g p
  cases hnil : b.clauses.predicates.filter (isRanking g) with
  | nil => exact grows_pure hg ⟨hstart, fun _ => rfl⟩
  | cons id rest =>
      rw [hnil] at hids
      apply (grows_rankAll hQ hcompile (id :: rest) hg (.refl g) hstart hids).imp
      exact fun b' g' _ _ h => ⟨h, nofun⟩

end Block

end RelSql

/-! ### Lifted blocks

The values of a block are lifted to the tables of the FROM clause; the values it is ordered by
are lifted down to the outputs of the block only.
-/

namespace RelSql

open Analysis LiftM

variable {Q : QuerySpec} {g g' : Graph} {s : Folding} {st : LiftState}

namespace Folding

/-- One step of finding the table whose columns are all the columns of a table. -/
theorem star_stable (s : Folding) :
  NodeId.StableStep fun g (below : NodeId → NodeId) id =>
    if !s.contains id then id
    else
      match g.node id with
      | .selection t _ | .sort t _ | .limit t _ _ | .distinct t => below t
      | .join _ _ _ _ => s.join.getD id
      | _ => id
  := by
  constructor
  · intro g hg f f' id h
    have hc : ∀ c ∈ (g.node id).children, f c = f' c := fun c hc => h c (hg.child_lt hc)
    simp only
    split
    · rfl
    · cases hn : g.node id <;> rw [hn] at hc
      case selection | sort | limit | distinct => exact hc _ List.mem_cons_self
  · intro g g' below id _ _ h hid
    rw [h.node_eq hid]

theorem star_eq (s : Folding) (hg : g.WellFounded) (id : NodeId) :
  s.star g id = if !s.contains id then id
    else
      match g.node id with
      | .selection t _ | .sort t _ | .limit t _ _ | .distinct t => s.star g t
      | .join _ _ _ _ => s.join.getD id
      | _ => id
  := NodeId.recurse_eq ((star_stable s).isLocal hg) id

theorem star_extends (s : Folding) (h : g.Extends g') (hg : g.WellFounded)
    (hg' : g'.WellFounded) {id : NodeId} (hid : g.Has id) :
  s.star g' id = s.star g id
  := (star_stable s).recurse_eq hg hg' h hid _

/-- The table that all columns are taken from is there. -/
theorem has_star (hg : g.WellFounded) (hjoin : ∀ j ∈ s.join, g.Has j) {id : NodeId}
    (hid : g.Has id) :
  g.Has (s.star g id)
  := by
  obtain ⟨i⟩ := id
  induction i using Nat.strongRecOn with
  | ind i ih =>
      have hc : ∀ c ∈ (g.node ⟨i⟩).children, g.Has (s.star g c) :=
        fun c hc => ih c.index (hg.child_lt hc) (hg.has_child hid hc)
      rw [star_eq s hg]
      split
      · exact hid
      · cases hn : g.node ⟨i⟩ <;> rw [hn] at hc
        case selection | sort | limit | distinct => exact hc _ List.mem_cons_self
        case join =>
          cases hj : s.join with
          | none => exact hid
          | some j => exact hjoin j hj
        all_goals exact hid

/-- What an item of the select list becomes: the table that all columns are taken from, or a
lifted value of the same name. -/
inductive LiftsSelected (s : Folding) (g : Graph) (item : NodeId) : NodeId → Prop where
  | star (hr : g.isRelation item = true) (hl : g.Has (s.star g item)) :
    LiftsSelected s g item (s.star g item)
  | value {l : NodeId} (hr : g.isRelation item = false)
      (hl : s.LiftsNamed .substitute g item l) : LiftsSelected s g item l

theorem LiftsSelected.target {item l : NodeId} (h : s.LiftsSelected g item l) :
  g.Has l
  := by
  cases h with
  | star _ hl => exact hl
  | value _ hl => exact hl.target

theorem LiftsSelected.persistent (s : Folding) (item : NodeId) :
  Graph.Persistent fun g l => s.LiftsSelected g item l
  := by
  intro g g' l hg hg' e h
  cases h with
  | star hr hl =>
      have hitem := Graph.has_of_isRelation hr
      have hstar := star_extends s e hg hg' hitem
      rw [← hstar]
      exact .star (by rw [e.isRelation_eq hitem, hr]) (by rw [hstar]; exact hl.mono e)
  | value hr hl =>
      exact .value (by rw [e.isRelation_eq hl.source, hr])
        (LiftsNamed.persistent item hg hg' e hl)

/-- A sort key with its value lifted. -/
structure LiftsKey (s : Folding) (g : Graph) (k k' : SortKey) : Prop where
  ascending : k'.ascending = k.ascending
  expr : s.Lifts .output g k.expr k'.expr

theorem LiftsKey.persistent (s : Folding) (k : SortKey) :
  Graph.Persistent fun g k' => s.LiftsKey g k k'
  := by
  intro g g' k' hg hg' e h
  exact ⟨h.ascending, Lifts.persistent k.expr hg hg' e h.expr⟩

end Folding

namespace Block

theorem keeps_liftItem (hs : st.Sound s .substitute) (hjoin : ∀ j ∈ s.join, st.graph.Has j)
    {item : NodeId} (hitem : st.graph.Has item) :
  Keeps (LiftState.Sound s .substitute)
    (fun g l => s.LiftsSelected g item l) (liftItem s item) st
  := by
  rw [liftItem]
  apply keeps_get
  simp only
  split
  case isTrue hr =>
      exact keeps_pure hs (.star hr (Folding.has_star hs.wellFounded hjoin hitem))
  case isFalse hr =>
      apply (Lift.keeps_named hs hitem).imp
      intro l st' _ e hl
      refine .value ?_ hl
      rw [e.isRelation_eq hitem, Bool.eq_false_iff.mpr hr]

/-- The second block is the first one with its values lifted, apart from its sort keys. -/
structure LiftsValues (b : Block) (g : Graph) (b' : Block) : Prop where
  select : List.Forall₂ (b.folding.LiftsSelected g) b.clauses.select b'.clauses.select
  predicates : List.Forall₂ (b.folding.Lifts .substitute g) b.clauses.predicates
    b'.clauses.predicates
  having : List.Forall₂ (b.folding.Lifts .substitute g) b.clauses.having b'.clauses.having
  rest : b' = { b with clauses := { b.clauses with
    select := b'.clauses.select
    predicates := b'.clauses.predicates
    having := b'.clauses.having } }

/-- Lifted values stay those when the graph grows. -/
theorem LiftsValues.mono (hg : g.WellFounded) (hg' : g'.WellFounded) (e : g.Extends g')
    {b b' : Block} (h : LiftsValues b g b') :
  LiftsValues b g' b'
  where
    select := h.select.imp fun item _ hl => Folding.LiftsSelected.persistent _ item hg hg' e hl
    predicates := h.predicates.imp fun p _ hl => Folding.Lifts.persistent p hg hg' e hl
    having := h.having.imp fun p _ hl => Folding.Lifts.persistent p hg hg' e hl
    rest := h.rest

/-- The values of a block are lifted. -/
theorem grows_liftValues (hg : g.WellFounded) {b : Block} (hb : b.clauses.Valid g)
    (hjoin : ∀ j ∈ b.folding.join, g.Has j) :
  Grows (LiftsValues b) (lifted b.liftValues) g
  := by
  apply grows_lifted b.folding .substitute
  have hs := Lift.sound_empty hg b.folding .substitute
  rw [liftValues]
  apply keeps_bind
  · apply keeps_mapM (R := fun g item l => b.folding.LiftsSelected g item l)
      (fun _ h => h.wellFounded) (Folding.LiftsSelected.persistent _) b.clauses.select hs
    intro item hitem st' hs' e'
    exact keeps_liftItem hs' (fun j hj => (hjoin j hj).mono e') ((hb.select item hitem).mono e')
  · intro select st₁ hs₁ e₁ hselect
    apply keeps_bind (Fused.keeps_values hs₁ fun p hp => (hb.predicates p hp).mono e₁)
    intro predicates st₂ hs₂ e₂ hpredicates
    apply keeps_bind
      (Fused.keeps_values hs₂ fun p hp => ((hb.having p hp).mono e₁).mono e₂)
    intro having st₃ hs₃ e₃ hhaving
    apply keeps_pure hs₃
    refine ⟨hselect.imp ?_, hpredicates.imp ?_, hhaving, rfl⟩
    · exact fun item l h => Folding.LiftsSelected.persistent _ item hs₁.wellFounded
        hs₃.wellFounded (e₂.trans e₃) h
    · exact fun p l h => Folding.Lifts.persistent p hs₂.wellFounded hs₃.wellFounded e₃ h

/-- The second block is the first one with its sort keys lifted. -/
structure LiftsOrder (b : Block) (g : Graph) (b' : Block) : Prop where
  orderBy : List.Forall₂ (b.folding.LiftsKey g) b.clauses.orderBy b'.clauses.orderBy
  rest : b' = { b with clauses := { b.clauses with orderBy := b'.clauses.orderBy } }

theorem LiftsOrder.mono (hg : g.WellFounded) (hg' : g'.WellFounded) (e : g.Extends g')
    {b b' : Block} (h : LiftsOrder b g b') :
  LiftsOrder b g' b'
  := ⟨h.orderBy.imp fun k _ hk => Folding.LiftsKey.persistent _ k hg hg' e hk, h.rest⟩

/-- The values a block is ordered by are lifted. -/
theorem grows_liftOrder (hg : g.WellFounded) {b : Block} (hb : b.clauses.Valid g) :
  Grows (LiftsOrder b) (lifted b.liftOrder) g
  := by
  apply grows_lifted b.folding .output
  have hs := Lift.sound_empty hg b.folding .output
  rw [liftOrder]
  apply keeps_bind
  · apply keeps_mapM (R := fun g k k' => b.folding.LiftsKey g k k') (fun _ h => h.wellFounded)
      (Folding.LiftsKey.persistent _) b.clauses.orderBy hs
    intro k hk st' hs' e'
    apply keeps_bind (Lift.keeps_value hs' ((hb.orderBy k hk).mono e'))
    intro l st'' hs'' _ hl
    exact keeps_pure hs'' ⟨rfl, hl⟩
  · intro orderBy st' hs' _ horderBy
    exact keeps_pure hs' ⟨horderBy, rfl⟩

/-- A block stays valid when its values are lifted. -/
theorem LiftsValues.valid {b b' : Block} (h : LiftsValues b g b') (hb : b.Valid Q g) :
  b'.Valid Q g
  := by
  rw [h.rest]
  refine ⟨⟨?_, hb.clauses.source, ?_, ?_, hb.clauses.orderBy⟩, hb.join, hb.nested, hb.sourced⟩
  · exact forall₂_right h.select fun _ _ h => h.target
  · exact forall₂_right h.predicates fun _ _ h => h.target
  · exact forall₂_right h.having fun _ _ h => h.target

theorem LiftsOrder.valid {b b' : Block} (h : LiftsOrder b g b') (hb : b.Valid Q g) :
  b'.Valid Q g
  := by
  rw [h.rest]
  refine ⟨⟨hb.clauses.select, hb.clauses.source, hb.clauses.predicates, hb.clauses.having, ?_⟩,
    hb.join, hb.nested, hb.sourced⟩
  exact forall₂_right h.orderBy fun _ _ h => h.expr.target

end Block

end RelSql
