import RelSql.Proofs.Block.Table
import RelSql.Proofs.Nesting.Cores
import RelSql.Proofs.Nesting.Settled

/-!
# Enough depth for cores and rankings

The core of a block settles to the depth of the table that the block is built for.

The groups for a ranking may be those of the whole FROM clause, with the rankings joined
before.  Every ranking therefore makes the queries deeper by a block, whose rankings are those
that the tables of the FROM clause bring.
-/

namespace RelSql.Block

open Analysis Nesting

/-! ### Cores -/

section

variable {Q : QuerySpec} {g : Graph} {compile compile' : NodeId → Analysis Query} {depth : Nat}

/-- Fusing projections takes no depth. -/
theorem shallow_fuseAll (n : Nat) :
    ∀ (b : Block) (projection : NodeId), Shallow (fuseAll n b projection) := by
  induction n with
  | zero => exact fun b projection => shallow_pure _
  | succ n ih =>
      intro b projection
      rw [fuseAll]
      apply shallow_bind (shallow_modifyGet _)
      intro fused
      cases fused with
      | none => exact shallow_pure _
      | some f => exact ih _ _

/-- The block of an aggregation settles to the depth of the table. -/
theorem settles_aggregation (hQ : Q.Persistent) (hcompile : Q.Meets compile)
    (h : Agrees depth compile compile') (hg : g.WellFounded) {b : Block} {node : NodeId}
    (hnode : g.Has node) (hb : ∀ s ∈ b.nested, s.Derived Q g)
    (hdepth : (g.nesting node).depth ≤ depth) {input : NodeId}
    {keys metrics having : List NodeId}
    (htable : g.node (g.peel node).table = .aggregation input keys metrics having) :
  Settles (b.aggregation compile (g.peel node).table (g.peel node).predicates)
    (b.aggregation compile' (g.peel node).table (g.peel node).predicates) g
  := by
  have hinput : g.Has input := by
    apply hg.has_child (hg.has_peel hnode)
    rw [htable]
    exact List.mem_cons_self
  obtain ⟨content, hlt, hderives⟩ := (Graph.fitsWithin_aggregation hg htable).derives hg
  rw [Block.aggregation, Block.aggregation]
  apply settles_get
  simp only [htable]
  apply settles_then _ fun r => shallow_pure _
  exact settles_fromSource hQ hcompile h (Nat.lt_of_lt_of_le hlt hdepth) hg hinput hb hderives

/-- The block of a projection settles to the depth of the table. -/
theorem settles_projection (hQ : Q.Persistent) (hcompile : Q.Meets compile)
    (h : Agrees depth compile compile') (hg : g.WellFounded) {b : Block} {node : NodeId}
    (hnode : g.Has node) (hb : ∀ s ∈ b.nested, s.Derived Q g)
    (hdepth : (g.nesting node).depth ≤ depth)
    (htable : g.isProjection (g.peel node).table = true) :
  Settles (b.projection compile (g.peel node).table (g.peel node).predicates)
    (b.projection compile' (g.peel node).table (g.peel node).predicates) g
  := by
  rw [Block.projection, Block.projection]
  have hhas := hg.has_peel hnode
  apply settles_bind ((shallow_fuseAll _ _ _).settles g)
    (grows_fuseAll _ hg hhas (Nat.lt_succ_of_le (hg.fusionDepth_le _)))
  rintro ⟨b₁, core⟩ g₁ hg₁ e ⟨fs, hfuses, rfl⟩
  have hprojection : g₁.isProjection (g.peel node).table = true := by
    rw [e.isProjection_eq hhas, htable]
  rw [← e.nesting_eq hg hg₁ hnode] at hdepth
  apply settles_get
  obtain ⟨input, selections, hcore⟩ :=
    Graph.eq_projection (isProjection_of_fusesTo hprojection hfuses)
  have hinput : g₁.Has input := by
    apply hg₁.has_child (Graph.has_of_node hcore (by simp))
    rw [hcore]
    exact List.mem_cons_self
  rw [← e.peel_eq hg hg₁ hnode] at hprojection hfuses
  obtain ⟨content, hlt, hderives⟩ :=
    (Graph.fitsWithin_projection hg₁ hprojection hfuses hcore).derives hg₁
  simp only [hcore]
  apply settles_run (run_foldInnerSorts _ input g₁)
  apply settles_then _ fun r => shallow_pure _
  apply settles_fromSource hQ hcompile h (Nat.lt_of_lt_of_le hlt hdepth) hg₁
    (hg₁.has_chain Graph.follows_sort hinput) _ hderives
  intro s hs
  rw [fused_eq] at hs
  exact (hb s hs).mono hQ e hg hg₁

/-- The core of a block settles to a depth that the table does not exceed, and does not have if
it would have been folded. -/
theorem settles_core (hQ : Q.Persistent) (hcompile : Q.Meets compile)
    (h : Agrees depth compile compile') (hg : g.WellFounded) {b : Block} {node : NodeId}
    (hnode : g.Has node) (hb : ∀ s ∈ b.nested, s.Derived Q g)
    (hdepth : (g.nesting node).depth ≤ depth)
    (hstacked : (g.node node).isStacked = true → (g.nesting node).depth < depth) :
  Settles (b.core compile node) (b.core compile' node) g
  := by
  rw [core, core]
  apply settles_get
  split
  · exact settles_fail (by simp)
  · simp only
    split
    case h_1 input keys metrics having htable =>
        exact settles_aggregation hQ hcompile h hg hnode hb hdepth htable
    case h_2 hother =>
        apply settles_bind ((shallow_ite (shallow_pushable _ _) (shallow_pure _)).settles g)
          (grows_pushed hg _ _ (hg.has_predicates hnode))
        intro pushed g₁ hg₁ e hpushed
        have htable := hg.has_peel hnode
        have hb₁ : ∀ s ∈ b.nested, s.Derived Q g₁ := fun s hs => (hb s hs).mono hQ e hg hg₁
        have hpeel := e.peel_eq hg hg₁ hnode
        rw [← e.isProjection_eq htable,
          ← Folding.pushes_extends e hg hg₁ _ (hg.has_predicates hnode)] at hpushed
        simp only [← e.node_eq htable] at hother
        rw [← e.nesting_eq hg hg₁ hnode] at hdepth hstacked
        rw [← e.node_eq hnode] at hstacked
        rw [← hpeel] at hpushed hother ⊢
        cases pushed with
        | true =>
            obtain ⟨hprojection, _⟩ := Bool.and_eq_true_iff.mp hpushed.symm
            exact settles_projection hQ hcompile h hg₁ (hnode.mono e) hb₁ hdepth hprojection
        | false =>
            obtain ⟨content, hlt, hderives⟩ :=
              (Graph.fitsWithin_other hg₁ hdepth hstacked hother hpushed.symm).derives hg₁
            apply settles_then _ fun r => shallow_pure _
            exact settles_fromTables hQ hcompile h hlt hg₁ (hg₁.has_peel (hnode.mono e)) hb₁
              hderives

end

/-! ### Rankings -/

variable {Q : QuerySpec} {g g' : Graph} {compile compile' : NodeId → Analysis Query}
  {b : Block} {depth content rankings : Nat}

/-- The FROM clause of a block nests queries to a depth of `content`, and its tables bring a
number of rankings. -/
def Over (b : Block) (g : Graph) (content rankings : Nat) : Prop :=
  ∀ t ∈ b.clauses.from?, (g.nesting t.node).source ≤ content
    ∧ (g.nesting t.node).rankings ≤ rankings

theorem Over.mono (e : g.Extends g') (hg : g.WellFounded) (hg' : g'.WellFounded)
    (hb : b.clauses.Valid g) (h : b.Over g content rankings) :
  b.Over g' content rankings
  := by
  intro t ht
  rw [e.nesting_eq hg hg' (hb.source t ht).node]
  exact h t ht

/-- The groups of ranked values are nested no more deeply than a block over the FROM clause. -/
theorem GroupedBy.depth_le (hg : g.WellFounded) {arg groups : NodeId} (h : b.GroupedBy g arg groups)
    (hover : b.Over g content rankings) (hreach : (g.nesting arg).reach ≤ content) :
  (g.nesting groups).depth ≤ Nesting.block content rankings
  := by
  cases h with
  | @table table key metric hkey htable hnode =>
      have hdepth : (g.nesting groups).depth = (g.nesting table).blockOver := by
        rw [Graph.nesting_of_node hg hnode]
        rfl
      obtain ⟨name, hread⟩ := (Graph.mem_tables_iff hg hkey.target table).mp htable
      have hwithin := (Graph.within_of_reads hg hread).trans (hkey.nesting_within hg)
      have hover := Graph.blockOver_le_reach hg table
      have hlt := lt_block content rankings
      have := hwithin.reach
      dsimp only at this
      omega
  | @source t key metric ht hnode =>
      have hdepth : (g.nesting groups).depth = (g.nesting t.node).blockOver := by
        rw [Graph.nesting_of_node hg hnode]
        rfl
      obtain ⟨hcontent, hrankings⟩ := hover t ht
      rw [hdepth]
      exact block_mono hcontent hrankings

/-- Finding the groups of ranked values takes no depth. -/
theorem shallow_ranked (b : Block) (arg metric : NodeId) :
  Shallow (b.ranked arg metric)
  := by
  have hgroups : ∀ table key metric lifted : NodeId, Shallow (do
      let metric ← Analysis.push (.named metric metricName)
      return (lifted, ← Analysis.push (.aggregation table [key] [metric] []))) := by
    intro table key metric lifted
    exact shallow_bind (shallow_push _) fun _ => shallow_bind (shallow_push _) fun _ =>
      shallow_pure _
  rw [ranked]
  apply shallow_bind (shallow_lifted _)
  rintro ⟨argBelow, metricBelow⟩
  apply shallow_bind (shallow_lifted _)
  rintro ⟨argLifted, metricLifted⟩
  apply shallow_get
  intro g
  split
  · exact shallow_fail (by simp)
  · split
    · exact hgroups _ _ _ _
    · split
      · exact shallow_fail (by simp)
      · exact hgroups _ _ _ _

/-- Joining a table takes no depth. -/
theorem shallow_semiJoin (b : Block) (table predicate : NodeId) :
  Shallow (b.semiJoin table predicate)
  := by
  rw [semiJoin]
  split
  · exact shallow_fail (by simp)
  · exact shallow_bind (shallow_push _) fun _ => shallow_pure _

/-- Joining a table brings its rankings. -/
theorem grows_semiJoin_over (hg : g.WellFounded) (hb : b.clauses.Valid g)
    (hover : b.Over g content rankings) {table predicate : NodeId} (htable : g.Has table)
    (hpredicate : g.Has predicate) (hdepth : (g.nesting table).depth ≤ content)
    (hrankings : (g.nesting table).rankings = 0) :
  Grows (fun g' b' => b'.Over g' content rankings) (b.semiJoin table predicate) g
  := by
  rw [semiJoin]
  split
  · exact grows_fail hg _
  case h_2 t ht =>
      have hvalid := hb.source t ht
      obtain ⟨hsource, hranked⟩ := hover t ht
      apply grows_bind (grows_push hg (n := .join .semi t.node table [predicate]) _)
      · intro joined g' hg' e hjoined
        apply grows_pure hg'
        intro t' ht'
        rw [← Option.some.inj ht', Graph.nesting_join hg' hjoined.2.1,
          e.nesting_eq hg hg' hvalid.node, e.nesting_eq hg hg' htable]
        refine ⟨Nat.max_le.mpr ⟨hsource, hdepth⟩, ?_⟩
        show (g.nesting t.node).rankings + (g.nesting table).rankings ≤ rankings
        omega
      · exact List.forall_mem_cons.mpr ⟨hvalid.node, List.forall_mem_cons.mpr
          ⟨htable, List.forall_mem_singleton.mpr hpredicate⟩⟩

/-- The values of a column that rank first settle above a block over the FROM clause. -/
theorem settles_rankedBy (hQ : Q.Persistent) (hcompile : Q.Meets compile)
    (h : Agrees depth compile compile') (hlt : Nesting.block content rankings + 2 < depth)
    (hg : g.WellFounded) (hb : b.Valid Q g) (hover : b.Over g content rankings)
    {arg metric : NodeId} (harg : g.Has arg) (hmetric : g.Has metric)
    (hreach : (g.nesting arg).reach ≤ content) (k : Nat) (name : String) :
  SettlesTo (fun g' b' => b'.Over g' (Nesting.block content rankings + 2) rankings)
    (do
      let (argLifted, groups) ← b.ranked arg metric
      let key ← Analysis.build fun g => g.column groups metricName
      let sorted ← Analysis.push (.sort groups [⟨key, false⟩])
      let first ← Analysis.push (.limit sorted k 0)
      let value ← Analysis.build fun g => g.column first name
      let predicate ← Analysis.push (.binary .eq argLifted value)
      let b ← b.leaf compile first
      b.semiJoin first predicate)
    (do
      let (argLifted, groups) ← b.ranked arg metric
      let key ← Analysis.build fun g => g.column groups metricName
      let sorted ← Analysis.push (.sort groups [⟨key, false⟩])
      let first ← Analysis.push (.limit sorted k 0)
      let value ← Analysis.build fun g => g.column first name
      let predicate ← Analysis.push (.binary .eq argLifted value)
      let b ← b.leaf compile' first
      b.semiJoin first predicate) g
  := by
  apply settlesTo_bind ((shallow_ranked b _ _).settlesTo (grows_ranked hg hb.clauses harg hmetric))
  rintro ⟨argLifted, groups⟩ g₁ hg₁ e₁ ⟨hargLifted, hhas, hgroups⟩
  dsimp only at hargLifted hhas hgroups
  have hdepth₁ : (g₁.nesting groups).depth ≤ Nesting.block content rankings := by
    apply hgroups.depth_le hg₁ (hover.mono e₁ hg hg₁ hb.clauses)
    rw [e₁.nesting_eq hg hg₁ harg]
    exact hreach
  apply settlesTo_bind ((shallow_build _).settlesTo (grows_column hg₁ hhas))
  intro key g₂ hg₂ e₂ hkey
  apply settlesTo_bind ((shallow_push _).settlesTo
    (grows_push hg₂ (n := .sort groups [⟨key, false⟩]) (List.forall_mem_cons.mpr
      ⟨hhas.mono e₂, List.forall_mem_singleton.mpr hkey.1⟩)))
  intro sorted g₃ hg₃ e₃ hsorted
  apply settlesTo_bind ((shallow_push _).settlesTo (grows_push hg₃ (n := .limit sorted k 0)
    (List.forall_mem_singleton.mpr hsorted.1)))
  intro first g₄ hg₄ e₄ hfirst
  apply settlesTo_bind ((shallow_build _).settlesTo (grows_column hg₄ hfirst.1))
  intro value g₅ hg₅ e₅ hvalue
  have harg₅ := (((hargLifted.mono e₂).mono e₃).mono e₄).mono e₅
  apply settlesTo_bind ((shallow_push _).settlesTo (grows_push hg₅
    (n := .binary .eq argLifted value) (List.forall_mem_cons.mpr
      ⟨harg₅, List.forall_mem_singleton.mpr hvalue.1⟩)))
  intro predicate g₆ hg₆ e₆ hpredicate
  -- the groups, sorted and limited, are two queries deeper
  have hlimit := Graph.nesting_of_node hg₄ hfirst.2.1
  have hsort := Graph.nesting_of_node hg₃ hsorted.2.1
  have hdepth₄ : (g₄.nesting first).depth ≤ Nesting.block content rankings + 2 := by
    have hlimited : (g₄.nesting first).depth = 1 + (g₄.nesting sorted).depth := by
      rw [hlimit]
      rfl
    have hordered : (g₃.nesting sorted).depth = 1 + (g₃.nesting groups).depth := by
      rw [hsort]
      rfl
    rw [e₄.nesting_eq hg₃ hg₄ hsorted.1] at hlimited
    rw [(e₂.trans e₃).nesting_eq hg₁ hg₃ hhas] at hordered
    omega
  have hrankings₄ : (g₄.nesting first).rankings = 0 := by
    rw [hlimit]
    rfl
  have e₅₆ := e₅.trans e₆
  have hsame := e₅₆.nesting_eq hg₄ hg₆ hfirst.1
  rw [← hsame] at hdepth₄ hrankings₄
  have hfirst₆ := hfirst.1.mono e₅₆
  have e := ((((e₁.trans e₂).trans e₃).trans e₄).trans e₅).trans e₆
  have hvalid := hb.mono hQ hg hg₆ e
  apply settlesTo_bind ⟨settles_leaf h hg₆ b hfirst₆ (Graph.derives_of_depth_le hg₆ hdepth₄) hlt,
    grows_leaf hQ hcompile hg₆ hvalid.nested hfirst₆⟩
  intro b' g₇ hg₇ e₇ hfeed
  apply (shallow_semiJoin b' first predicate).settlesTo
  have hsame₇ := e₇.nesting_eq hg₆ hg₇ hfirst₆
  rw [← hsame₇] at hdepth₄ hrankings₄
  have hover₇ : b'.Over g₇ (Nesting.block content rankings + 2) rankings := by
    intro t ht
    rw [hfeed.clauses] at ht
    obtain ⟨hsource, hranked⟩ := hover.mono (e.trans e₇) hg hg₇ hb.clauses t ht
    have := lt_block content rankings
    exact ⟨by omega, hranked⟩
  apply grows_semiJoin_over hg₇ _ hover₇ (hfirst₆.mono e₇) (hpredicate.1.mono e₇) hdepth₄ hrankings₄
  rw [hfeed.clauses]
  exact (hvalid.clauses).mono e₇

/-- A ranking settles above a block over the FROM clause. -/
theorem settles_rank (hQ : Q.Persistent) (hcompile : Q.Meets compile)
    (h : Agrees depth compile compile') (hlt : Nesting.block content rankings + 2 < depth)
    (hg : g.WellFounded) (hb : b.Valid Q g) (hover : b.Over g content rankings)
    {id : NodeId} (hid : g.Has id) (hreach : (g.nesting id).reach ≤ content) :
  SettlesTo (fun g' b' => b'.Over g' (Nesting.block content rankings + 2) rankings)
    (rank compile b id) (rank compile' b id) g
  := by
  have hblock := lt_block content rankings
  rw [rank, rank]
  apply settlesTo_get
  split
  case h_2 =>
      apply (shallow_pure b).settlesTo (grows_pure hg _)
      intro t ht
      obtain ⟨hsource, hranked⟩ := hover t ht
      exact ⟨by omega, hranked⟩
  case h_1 arg k metric? hn =>
      have hchild : ∀ c ∈ arg :: metric?.toList, g.Has c := by
        intro c hc
        apply hg.has_child hid
        rw [hn]
        exact hc
      have harg := hchild arg List.mem_cons_self
      have hreach : (g.nesting arg).reach ≤ content := by
        apply Nat.le_trans _ hreach
        apply Nesting.Within.reach
        exact Graph.within_of_child hg (by rw [Graph.isRelation, hn]; rfl)
          (by rw [hn]; exact List.mem_cons_self)
      apply settlesTo_get
      split
      case h_2 => exact (shallow_fail (e := .rankingOverValue) (by simp)).settlesTo (grows_fail hg _)
      case h_1 _ name _ =>
          cases metric? with
          | some m =>
              simp only [pure_bind]
              exact settles_rankedBy hQ hcompile h hlt hg hb hover harg (hchild m (by simp)) hreach
                k name
          | none =>
              apply settlesTo_bind ((shallow_push _).settlesTo (grows_push hg
                (n := .reduction .count arg) (List.forall_mem_singleton.mpr harg)))
              intro m g₁ hg₁ e hm
              rw [← e.nesting_eq hg hg₁ harg] at hreach
              exact settles_rankedBy hQ hcompile h hlt hg₁ (hb.mono hQ hg hg₁ e)
                (hover.mono e hg hg₁ hb.clauses) (harg.mono e) hm.1 hreach k name

/-- Rankings settle above as many blocks. -/
theorem settles_rankAll (hQ : Q.Persistent) (hcompile : Q.Meets compile)
    (h : Agrees depth compile compile') {old : Graph} {t : TableSet} {b₀ : Block}
    (ids : List NodeId) :
    ∀ {g : Graph} {b : Block} {content : Nat},
      content + ids.length * (3 + 3 * 2 ^ rankings) < depth → g.WellFounded → old.Extends g →
      Ranks Q old t b₀ g b → b.Over g content rankings →
      (∀ id ∈ ids, g.Has id ∧ (g.nesting id).reach ≤ content) →
      Settles (ids.foldlM (rank compile) b) (ids.foldlM (rank compile') b) g := by
  induction ids with
  | nil => exact fun _ _ _ _ _ _ => (shallow_pure _).settles _
  | cons id rest ih =>
      intro g b content hlt hg eold hranks hover hids
      obtain ⟨⟨hid, hreach⟩, hrest⟩ := List.forall_mem_cons.mp hids
      have hstep : Nesting.block content rankings + 2 = content + (3 + 3 * 2 ^ rankings) := by
        rw [Nesting.block, Number.twoPow, Nat.pow_eq]
        omega
      rw [List.length_cons, Nat.succ_mul] at hlt
      have hrank := settles_rank hQ hcompile h (by omega) hg hranks.valid hover hid hreach
      rw [List.foldlM_cons, List.foldlM_cons]
      apply settles_bind hrank.toSettles
        (hrank.grows.and (grows_rank hQ hcompile hg eold hranks hid))
      rintro b' g' hg' e ⟨hover', hranks'⟩
      apply ih _ hg' (eold.trans e) hranks' hover'
      · intro i hi
        obtain ⟨hhas, hle⟩ := hrest i hi
        rw [e.nesting_eq hg hg' hhas]
        exact ⟨hhas.mono e, by omega⟩
      · omega

/-- Blocks for some rankings fit below a block with all of them. -/
theorem mul_le_pow (m k : Nat) :
  m * (3 + 3 * 2 ^ k) ≤ 3 * 2 ^ (m + k)
  := by
  have hpow := Nat.one_le_two_pow (n := k)
  induction m with
  | zero => omega
  | succ m ih =>
      rw [Nat.succ_mul, Nat.add_right_comm, Nat.pow_succ]
      cases m with
      | zero =>
          rw [Nat.zero_add]
          omega
      | succ m =>
          have hle : 2 ^ (k + 1) ≤ 2 ^ (m + 1 + k) := Nat.pow_le_pow_right (by omega) (by omega)
          rw [Nat.pow_succ] at hle
          omega

/-- There are no more rankings than are counted among predicates. -/
theorem length_rankings_le (hg : g.WellFounded) (predicates : List NodeId) :
  (predicates.filter (isRanking g)).length ≤ g.rankingsAmong predicates
  := by
  induction predicates with
  | nil => exact Nat.le_refl _
  | cons p rest ih =>
      rw [Graph.rankingsAmong, List.map_cons, List.sum_cons, ← Graph.rankingsAmong,
        List.filter_cons]
      split
      case isTrue hranking =>
          have hone : (g.nesting p).rankings = 1 := by
            rw [isRanking] at hranking
            split at hranking
            case h_1 hn =>
                rw [Graph.nesting_of_node hg hn]
                rfl
            · cases hranking
          rw [List.length_cons]
          omega
      · omega

/-- The rankings of a block settle to a depth that the block fits into. -/
theorem settles_joinRankings (hQ : Q.Persistent) (hcompile : Q.Meets compile)
    (h : Agrees depth compile compile') (hg : g.WellFounded) (hb : b.Valid Q g) {t : TableSet}
    (ht : b.clauses.from? = some t) {bound : Nat} (hjoined : g.Chained bound t.first t.joins t.node)
    (hfits : g.FitsWithin depth t b.clauses.predicates) :
  Settles (b.joinRankings compile) (b.joinRankings compile') g
  := by
  rw [joinRankings, joinRankings]
  apply settles_get
  simp only [List.partition_eq_filter_filter]
  cases hfits with
  | bare hnests hnone _ =>
      rw [hnone]
      exact (shallow_pure _).settles g
  | @block content rankings hnests hdepth =>
      obtain ⟨hsource, hrankings⟩ := hjoined.nesting hg hnests.first hnests.joins
      have hcount := length_rankings_le hg b.clauses.predicates
      have hmul := mul_le_pow (b.clauses.predicates.filter (isRanking g)).length
        (g.nesting t.node).rankings
      have hpow := Nat.pow_le_pow_right (n := 2) (by omega) (show
        (b.clauses.predicates.filter (isRanking g)).length + (g.nesting t.node).rankings
          ≤ rankings by
        have := hnests.ranked
        rw [Graph.rankingsOf] at this
        omega)
      rw [Nesting.block, Number.twoPow, Nat.pow_eq] at hdepth
      have hlt : content + (b.clauses.predicates.filter (isRanking g)).length
          * (3 + 3 * 2 ^ (g.nesting t.node).rankings) < depth := by omega
      apply settles_rankAll hQ hcompile h _ hlt hg (.refl g)
        (ranks_filtering hb ht fun p => !isRanking g p)
      · intro t' ht'
        cases ht.symm.trans ht'
        exact ⟨hsource, Nat.le_refl _⟩
      · intro id hid
        have hmem := List.mem_of_mem_filter hid
        exact ⟨hb.clauses.predicates id hmem, hnests.reaches id hmem⟩

end RelSql.Block
