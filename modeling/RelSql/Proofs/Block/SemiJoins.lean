import RelSql.Proofs.Block.Table
import RelSql.Proofs.Graph.Opened

/-!
# Rankings and semi joins

Each ranking of a block becomes one semi join, and the semi joins stand in the order of the
rankings behind the other joins.  A semi join is with a table of the values that rank first, which
is added to the graph, and compares them with the lifted ranked value.  These are the first ones of
groups that are sorted by their metric: groups of the rows of one table, if the value and the metric
read the same one, and otherwise of the rows that have been joined so far.
-/

namespace RelSql

open Analysis

variable {Q : QuerySpec} {g g' : Graph} {compile : NodeId → Analysis Query}

/-- A semi join with a table of the first `k` values, which a lifted value is one of. -/
inductive JoinClause.JoinsFirst (s : Folding) (g : Graph) (arg : NodeId) (k : Nat) :
    JoinClause → Prop where
  | intro {lifted sorted first value predicate : NodeId} {name : String}
      (hlifted : s.Lifts .substitute g arg lifted) (hfirst : g.node first = .limit sorted k 0)
      (hvalue : g.node value = .column first name)
      (hpredicate : g.node predicate = .binary .eq lifted value) :
    JoinsFirst s g arg k ⟨.semi, first, [predicate]⟩

/-- A semi join stands for a ranking: the ranked value is one of the values that rank first. -/
inductive JoinClause.Ranks (s : Folding) (g : Graph) (p : NodeId) (c : JoinClause) : Prop where
  | intro {arg : NodeId} {k : Nat} {metric? : Option NodeId}
      (hranking : g.node p = .topK arg k metric?) (hjoin : c.JoinsFirst s g arg k) : Ranks s g p c

/-- The groups that rank the values of `arg`, by the values, with their metric.  They are groups of
the table that both read first below projections, if it is the same one, and otherwise of the
joined rows. -/
inductive Folding.GroupsBy (s : Folding) (g : Graph) (joined arg metric groups : NodeId) :
    Prop where
  | below {table key value named : NodeId} (hkey : s.Lifts .projections g arg key)
      (hvalue : s.Lifts .projections g metric value) (htable : (g.tables key).head? = some table)
      (hsame : (g.tables value).head?.getD table = table)
      (hnamed : g.node named = .named value Block.metricName)
      (hgroups : g.node groups = .aggregation table [key] [named] []) :
    GroupsBy s g joined arg metric groups
  | joined {table argBelow metricBelow key value named : NodeId}
      (hargBelow : s.Lifts .projections g arg argBelow)
      (hmetricBelow : s.Lifts .projections g metric metricBelow)
      (htable : (g.tables argBelow).head? = some table)
      (hother : (g.tables metricBelow).head?.getD table ≠ table)
      (hkey : s.Lifts .substitute g arg key) (hvalue : s.Lifts .substitute g metric value)
      (hnamed : g.node named = .named value Block.metricName)
      (hgroups : g.node groups = .aggregation joined [key] [named] []) :
    GroupsBy s g joined arg metric groups

/-- A semi join of the table `joined` stands for a ranking: it is with the first `k` groups of the
ranked values in the order of their metric, the count if none is given, and the lifted value is one
of them. -/
inductive JoinClause.RanksOver (s : Folding) (g : Graph) (joined p : NodeId) :
    JoinClause → Prop where
  | intro {arg metric groups key sorted first value lifted predicate : NodeId} {k : Nat}
      {metric? : Option NodeId} {name : String} (hranking : g.node p = .topK arg k metric?)
      (hmetric : metric? = some metric ∨ metric? = none ∧ g.node metric = .reduction .count arg)
      (hgroups : s.GroupsBy g joined arg metric groups)
      (hkey : g.node key = .column groups Block.metricName)
      (hsorted : g.node sorted = .sort groups [⟨key, false⟩])
      (hfirst : g.node first = .limit sorted k 0) (hvalue : g.node value = .column first name)
      (hlifted : s.Lifts .substitute g arg lifted)
      (hpredicate : g.node predicate = .binary .eq lifted value) :
    RanksOver s g joined p ⟨.semi, first, [predicate]⟩

/-- The semi joins `clauses` stand for the rankings, each of them with the rows that have been
joined before it, from `joined` on to `last`.  None of their tables comes before `bound`. -/
inductive Folding.Ranked (s : Folding) (g : Graph) (bound : Nat) :
    NodeId → List NodeId → List JoinClause → NodeId → Prop where
  | nil (joined : NodeId) : Ranked s g bound joined [] [] joined
  | cons {joined next last p : NodeId} {rankings : List NodeId} {c : JoinClause}
      {clauses : List JoinClause} (hc : c.RanksOver s g joined p) (htable : bound ≤ c.table.index)
      (hn : g.node next = .join .semi joined c.table c.predicates)
      (h : Ranked s g bound next rankings clauses last) :
    Ranked s g bound joined (p :: rankings) (c :: clauses) last

namespace Folding

variable {s s' : Folding} {joined arg metric groups : NodeId}

theorem GroupsBy.mono (hg : g.WellFounded) (hg' : g'.WellFounded) (e : g.Extends g')
    (h : s.GroupsBy g joined arg metric groups) :
  s.GroupsBy g' joined arg metric groups
  := by
  have hlifts : ∀ {mode : LiftMode} {v l : NodeId}, s.Lifts mode g v l → s.Lifts mode g' v l :=
    fun {_ v _} h => Lifts.persistent v hg hg' e h
  cases h with
  | below hkey hvalue htable hsame hnamed hgroups =>
      rw [← e.tables_eq hg hg' hkey.target] at htable
      rw [← e.tables_eq hg hg' hvalue.target] at hsame
      exact .below (hlifts hkey) (hlifts hvalue) htable hsame (e.node_eq_of hnamed nofun)
        (e.node_eq_of hgroups nofun)
  | joined hargBelow hmetricBelow htable hother hkey hvalue hnamed hgroups =>
      rw [← e.tables_eq hg hg' hargBelow.target] at htable
      rw [← e.tables_eq hg hg' hmetricBelow.target] at hother
      exact .joined (hlifts hargBelow) (hlifts hmetricBelow) htable hother (hlifts hkey)
        (hlifts hvalue) (e.node_eq_of hnamed nofun) (e.node_eq_of hgroups nofun)

theorem GroupsBy.congr (hfused : s'.fused = s.fused) (h : s.GroupsBy g joined arg metric groups) :
  s'.GroupsBy g joined arg metric groups
  := by
  cases h with
  | below hkey hvalue htable hsame hnamed hgroups =>
      exact .below (hkey.congr_mode (by decide) hfused) (hvalue.congr_mode (by decide) hfused)
        htable hsame hnamed hgroups
  | joined hargBelow hmetricBelow htable hother hkey hvalue hnamed hgroups =>
      exact .joined (hargBelow.congr_mode (by decide) hfused)
        (hmetricBelow.congr_mode (by decide) hfused) htable hother (hkey.congr hfused)
        (hvalue.congr hfused) hnamed hgroups

end Folding

namespace JoinClause.RanksOver

variable {s s' : Folding} {joined p : NodeId} {c : JoinClause}

theorem mono (hg : g.WellFounded) (hg' : g'.WellFounded) (e : g.Extends g')
    (h : c.RanksOver s g joined p) :
  c.RanksOver s g' joined p
  := by
  obtain ⟨hranking, hmetric, hgroups, hkey, hsorted, hfirst, hvalue, hlifted, hpredicate⟩ := h
  refine .intro (e.node_eq_of hranking nofun) ?_ (hgroups.mono hg hg' e)
    (e.node_eq_of hkey nofun) (e.node_eq_of hsorted nofun) (e.node_eq_of hfirst nofun)
    (e.node_eq_of hvalue nofun) (Folding.Lifts.persistent _ hg hg' e hlifted)
    (e.node_eq_of hpredicate nofun)
  exact hmetric.imp id fun h => ⟨h.1, e.node_eq_of h.2 nofun⟩

theorem congr (hfused : s'.fused = s.fused) (h : c.RanksOver s g joined p) :
  c.RanksOver s' g joined p
  := by
  obtain ⟨hranking, hmetric, hgroups, hkey, hsorted, hfirst, hvalue, hlifted, hpredicate⟩ := h
  exact .intro hranking hmetric (hgroups.congr hfused) hkey hsorted hfirst hvalue
    (hlifted.congr hfused) hpredicate

/-- The ranked value is one of the values that rank first. -/
theorem ranks (h : c.RanksOver s g joined p) :
  c.Ranks s g p
  := by
  obtain ⟨hranking, _, _, _, _, hfirst, hvalue, hlifted, hpredicate⟩ := h
  exact .intro hranking (.intro hlifted hfirst hvalue hpredicate)

end JoinClause.RanksOver

namespace Folding

variable {s s' : Folding} {bound bound' : Nat} {joined next last p : NodeId}
  {rankings : List NodeId} {c : JoinClause} {clauses : List JoinClause}

theorem Ranked.mono (hg : g.WellFounded) (hg' : g'.WellFounded) (e : g.Extends g')
    (h : s.Ranked g bound joined rankings clauses last) :
  s.Ranked g' bound joined rankings clauses last
  := by
  induction h with
  | nil joined => exact .nil joined
  | cons hc htable hn _ ih => exact .cons (hc.mono hg hg' e) htable (e.node_eq_of hn nofun) ih

/-- What comes after a bound comes after every lower one. -/
theorem Ranked.weaken (hle : bound' ≤ bound) (h : s.Ranked g bound joined rankings clauses last) :
  s.Ranked g bound' joined rankings clauses last
  := by
  induction h with
  | nil joined => exact .nil joined
  | cons hc htable hn _ ih => exact .cons hc (Nat.le_trans hle htable) hn ih

/-- One more ranking. -/
theorem Ranked.snoc (h : s.Ranked g bound joined rankings clauses last)
    (hc : c.RanksOver s g last p) (htable : bound ≤ c.table.index)
    (hn : g.node next = .join .semi last c.table c.predicates) :
  s.Ranked g bound joined (rankings ++ [p]) (clauses ++ [c]) next
  := by
  induction h with
  | nil joined => exact .cons hc htable hn (.nil next)
  | cons hc' htable' hn' _ ih => exact .cons hc' htable' hn' (ih hc hn)

theorem Ranked.congr (hfused : s'.fused = s.fused)
    (h : s.Ranked g bound joined rankings clauses last) :
  s'.Ranked g bound joined rankings clauses last
  := by
  induction h with
  | nil joined => exact .nil joined
  | cons hc htable hn _ ih => exact .cons (hc.congr hfused) htable hn ih

/-- Each semi join stands for one ranking, in order, and its table does not come before the
bound. -/
theorem Ranked.ranks (h : s.Ranked g bound joined rankings clauses last) :
  List.Forall₂ (fun p c => c.Ranks s g p ∧ bound ≤ c.table.index) rankings clauses
  := by
  induction h with
  | nil => exact .nil
  | cons hc htable _ _ ih => exact .cons ⟨hc.ranks, htable⟩ ih

end Folding

namespace Block

variable {b : Block} {t : TableSet}

theorem eq_topK {p : NodeId} (h : isRanking g p = true) :
  ∃ arg k metric?, g.node p = .topK arg k metric?
  := by
  rw [isRanking] at h
  split at h
  case h_1 arg k metric? hn => exact ⟨arg, k, metric?, hn⟩
  · cases h

/-- Adding groups of a table. -/
theorem grows_pushGroups (hg : g.WellFounded) {table key value lifted : NodeId}
    (htable : g.Has table) (hkey : g.Has key) (hvalue : g.Has value) :
  Grows (fun g' r => r.1 = lifted ∧ ∃ named, g'.node named = .named value metricName
      ∧ g'.node r.2 = .aggregation table [key] [named] [])
    (do
      let metric ← Analysis.push (.named value metricName)
      return (lifted, ← Analysis.push (.aggregation table [key] [metric] []))) g
  := by
  apply grows_bind (grows_push hg (n := .named value metricName)
    (List.forall_mem_singleton.mpr hvalue))
  intro named g₁ hg₁ e₁ hnamed
  have hchildren : ∀ c ∈ (Node.aggregation table [key] [named] []).children, g₁.Has c :=
    List.forall_mem_cons.mpr ⟨htable.mono e₁, List.forall_mem_cons.mpr ⟨hkey.mono e₁,
      List.forall_mem_singleton.mpr hnamed.1⟩⟩
  apply grows_bind (grows_push hg₁ hchildren)
  intro groups g₂ hg₂ e₂ hgroups
  exact grows_pure hg₂ ⟨rfl, named, e₂.node_eq_of hnamed.2.1 (by simp), hgroups.2.1⟩

/-- The value that is ranked is lifted, and its values are grouped. -/
theorem grows_ranked_groups (hg : g.WellFounded) (hb : b.clauses.Valid g)
    (ht : b.clauses.from? = some t) {arg metric : NodeId} (harg : g.Has arg)
    (hmetric : g.Has metric) :
  Grows (fun g' r => b.folding.Lifts .substitute g' arg r.1
      ∧ b.folding.GroupsBy g' t.node arg metric r.2)
    (b.ranked arg metric) g
  := by
  rw [ranked]
  apply grows_bind (grows_both hg b.folding .projections harg hmetric)
  rintro ⟨argBelow, metricBelow⟩ g₁ hg₁ e₁ ⟨hargBelow, hmetricBelow⟩
  apply grows_bind (grows_both hg₁ b.folding .substitute (harg.mono e₁) (hmetric.mono e₁))
  rintro ⟨argLifted, metricLifted⟩ g₂ hg₂ e₂ ⟨hargLifted, hmetricLifted⟩
  have hargBelow₂ := Folding.Lifts.persistent arg hg₁ hg₂ e₂ hargBelow
  have hmetricBelow₂ := Folding.Lifts.persistent metric hg₁ hg₂ e₂ hmetricBelow
  apply grows_get
  split
  · exact grows_fail hg₂ _
  case h_2 table rest htables =>
      have hhead : (g₂.tables argBelow).head? = some table := by
        rw [htables]
        rfl
      have hread := hg₂.has_tables hargBelow₂.target table (List.mem_of_head? hhead)
      have hlifts : ∀ {g₃ : Graph} {mode : LiftMode} {v l : NodeId}, g₃.WellFounded →
          g₂.Extends g₃ → b.folding.Lifts mode g₂ v l → b.folding.Lifts mode g₃ v l :=
        fun {_ _ v _} hg₃ e₃ h => Folding.Lifts.persistent v hg₂ hg₃ e₃ h
      have htables₃ : ∀ {g₃ : Graph} {mode : LiftMode} {v l : NodeId}, g₃.WellFounded →
          g₂.Extends g₃ → b.folding.Lifts mode g₂ v l → g₃.tables l = g₂.tables l :=
        fun hg₃ e₃ h => e₃.tables_eq hg₂ hg₃ h.target
      split
      case isTrue hsame =>
          apply (grows_pushGroups hg₂ hread hargBelow₂.target hmetricBelow₂.target).imp
          rintro r g₃ hg₃ e₃ ⟨hlifted, named, hnamed, hgroups⟩
          rw [hlifted]
          refine ⟨hlifts hg₃ e₃ hargLifted, .below (hlifts hg₃ e₃ hargBelow₂)
            (hlifts hg₃ e₃ hmetricBelow₂) ?_ ?_ hnamed hgroups⟩
          · rw [htables₃ hg₃ e₃ hargBelow₂]
            exact hhead
          · rw [htables₃ hg₃ e₃ hmetricBelow₂]
            exact hsame
      case isFalse hother =>
          simp only [ht]
          have hnode := ((hb.source t ht).node.mono e₁).mono e₂
          apply (grows_pushGroups hg₂ hnode hargLifted.target hmetricLifted.target).imp
          rintro r g₃ hg₃ e₃ ⟨hlifted, named, hnamed, hgroups⟩
          rw [hlifted]
          rw [← htables₃ hg₃ e₃ hargBelow₂] at hhead
          rw [← htables₃ hg₃ e₃ hmetricBelow₂] at hother
          exact ⟨hlifts hg₃ e₃ hargLifted, .joined (hlifts hg₃ e₃ hargBelow₂)
            (hlifts hg₃ e₃ hmetricBelow₂) hhead hother (hlifts hg₃ e₃ hargLifted)
            (hlifts hg₃ e₃ hmetricLifted) hnamed hgroups⟩

/-- A block has the joins of another one, and one semi join more, with a table that is added. -/
def JoinsOne (b : Block) (old : Graph) (t : TableSet) (R : Graph → JoinClause → Prop) (g : Graph)
    (b' : Block) : Prop :=
  b'.folding.fused = b.folding.fused
    ∧ ∃ node c, b'.clauses.from? = some ⟨node, t.first, t.joins ++ [c]⟩
      ∧ old.size ≤ c.table.index
      ∧ g.node node = .join .semi t.node c.table c.predicates ∧ R g c

/-- The values of a column that rank first are joined by one semi join. -/
theorem grows_rankedBy_joins (hQ : Q.Persistent) (hcompile : Q.Meets compile)
    (hg : g.WellFounded) (hb : b.Valid Q g) (ht : b.clauses.from? = some t) {p arg metric : NodeId}
    {k : Nat} {metric? : Option NodeId} (hranking : g.node p = .topK arg k metric?)
    (harg : g.Has arg) (hmetric : g.Has metric)
    (hgiven : metric? = some metric ∨ metric? = none ∧ g.node metric = .reduction .count arg)
    (name : String) :
  Grows (b.JoinsOne g t fun g' c => c.RanksOver b.folding g' t.node p)
    (do
      let (argLifted, groups) ← b.ranked arg metric
      let key ← Analysis.build fun g => g.column groups metricName
      let sorted ← Analysis.push (.sort groups [⟨key, false⟩])
      let first ← Analysis.push (.limit sorted k 0)
      let value ← Analysis.build fun g => g.column first name
      let predicate ← Analysis.push (.binary .eq argLifted value)
      let b ← b.leaf compile first
      b.semiJoin first predicate) g
  := by
  have hsource := hb.clauses.source t ht
  apply grows_bind ((grows_ranked hg hb.clauses harg hmetric).and
    (grows_ranked_groups hg hb.clauses ht harg hmetric))
  rintro ⟨lifted, groups⟩ g₁ hg₁ e₁ ⟨⟨_, hgroups, _⟩, hlifted, hgrouped⟩
  apply grows_bind (grows_column hg₁ hgroups)
  intro key g₂ hg₂ e₂ hkey
  apply grows_bind (grows_push hg₂ (n := .sort groups [⟨key, false⟩])
    (List.forall_mem_cons.mpr ⟨hgroups.mono e₂, List.forall_mem_singleton.mpr hkey.1⟩))
  intro sorted g₃ hg₃ e₃ hsorted
  apply grows_bind (grows_push hg₃ (n := .limit sorted k 0)
    (List.forall_mem_singleton.mpr hsorted.1))
  intro first g₄ hg₄ e₄ hfirst
  apply grows_bind (grows_column hg₄ hfirst.1)
  intro value g₅ hg₅ e₅ hvalue
  have e₁₅ := ((e₂.trans e₃).trans e₄).trans e₅
  have hlifted₅ := Folding.Lifts.persistent arg hg₁ hg₅ e₁₅ hlifted
  apply grows_bind (grows_push hg₅ (n := .binary .eq lifted value)
    (List.forall_mem_cons.mpr ⟨hlifted₅.target, List.forall_mem_singleton.mpr hvalue.1⟩))
  intro predicate g₆ hg₆ e₆ hpredicate
  have e := (e₁.trans e₁₅).trans e₆
  have hfirst₆ := (hfirst.1.mono e₅).mono e₆
  apply grows_bind (grows_leaf hQ hcompile hg₆ (hb.mono hQ hg hg₆ e).nested hfirst₆)
  intro b' g₇ hg₇ e₇ hfeed
  have ht' : b'.clauses.from? = some t := by rw [hfeed.clauses, ht]
  rw [semiJoin, ht']
  apply grows_bind (grows_push hg₇ (n := .join .semi t.node first [predicate])
    (List.forall_mem_cons.mpr ⟨hsource.node.mono (e.trans e₇), List.forall_mem_cons.mpr
      ⟨hfirst₆.mono e₇, List.forall_mem_singleton.mpr (hpredicate.1.mono e₇)⟩⟩))
  intro joined g₈ hg₈ e₈ hjoined
  have e₅₈ := (e₆.trans e₇).trans e₈
  have e₁₈ := e₁₅.trans e₅₈
  have e₀₈ := e₁.trans e₁₈
  refine grows_pure hg₈ ⟨?_, joined, ⟨.semi, first, [predicate]⟩, rfl, ?_, hjoined.2.1, ?_⟩
  · simp only [hfeed.folding, List.append_nil]
  · exact Nat.le_trans ((e₁.trans e₂).trans e₃).size_le hfirst.2.2
  · refine .intro (e₀₈.node_eq_of hranking (by simp)) ?_ (hgrouped.mono hg₁ hg₈ e₁₈)
      ((((e₃.trans e₄).trans e₅).trans e₅₈).node_eq_of hkey.2 (by simp))
      (((e₄.trans e₅).trans e₅₈).node_eq_of hsorted.2.1 (by simp))
      ((e₅.trans e₅₈).node_eq_of hfirst.2.1 (by simp)) (e₅₈.node_eq_of hvalue.2 (by simp))
      (Folding.Lifts.persistent arg hg₅ hg₈ e₅₈ hlifted₅)
      ((e₇.trans e₈).node_eq_of hpredicate.2.1 (by simp))
    exact hgiven.imp id fun h => ⟨h.1, e₀₈.node_eq_of h.2 (by simp)⟩

/-- A ranking becomes one semi join. -/
theorem grows_rank_joins (hQ : Q.Persistent) (hcompile : Q.Meets compile) (hg : g.WellFounded)
    (hb : b.Valid Q g) (ht : b.clauses.from? = some t) {p : NodeId}
    (hranking : isRanking g p = true) :
  Grows (b.JoinsOne g t fun g' c => c.RanksOver b.folding g' t.node p) (rank compile b p) g
  := by
  obtain ⟨arg, k, metric?, hn⟩ := eq_topK hranking
  have hchild : ∀ c ∈ arg :: metric?.toList, g.Has c := by
    intro c hc
    apply hg.has_child (Graph.has_of_node hn (by simp))
    rw [hn]
    exact hc
  have harg := hchild arg List.mem_cons_self
  rw [rank]
  apply grows_get
  simp only [hn]
  apply grows_get
  split
  case h_2 => exact grows_fail hg _
  case h_1 _ name _ =>
      cases metric? with
      | some m =>
          simp only [pure_bind]
          exact grows_rankedBy_joins hQ hcompile hg hb ht hn harg (hchild m (by simp)) (.inl rfl)
            name
      | none =>
          apply grows_bind (grows_push hg (n := .reduction .count arg)
            (List.forall_mem_singleton.mpr harg))
          intro m g₁ hg₁ e₁ hm
          apply (grows_rankedBy_joins hQ hcompile hg₁ (hb.mono hQ hg hg₁ e₁) ht
            (e₁.node_eq_of hn (by simp)) (harg.mono e₁) hm.1 (.inr ⟨rfl, hm.2.1⟩) name).imp
          rintro b' g' _ e ⟨hfused, node, c, hfrom, hnew, h⟩
          exact ⟨hfused, node, c, hfrom, Nat.le_trans e₁.size_le hnew, h⟩

/-- A block has the joins of a FROM clause and one semi join for each ranking, with tables that
are added. -/
def JoinsRankings (s : Folding) (old : Graph) (t : TableSet) (rankings : List NodeId) (g : Graph)
    (b : Block) : Prop :=
  b.folding.fused = s.fused
    ∧ ∃ node more, b.clauses.from? = some ⟨node, t.first, t.joins ++ more⟩
      ∧ s.Ranked g old.size t.node rankings more node

/-- One more ranking is joined. -/
theorem JoinsRankings.joinsOne {s : Folding} {old : Graph} {rankings : List NodeId} {p : NodeId}
    (hg : g.WellFounded) (hg' : g'.WellFounded) (e : g.Extends g') (eold : old.Extends g)
    {b b' : Block} (h : b.JoinsRankings s old t rankings g) {t' : TableSet}
    (ht' : b.clauses.from? = some t')
    (hone : b.JoinsOne g t' (fun g' c => c.RanksOver b.folding g' t'.node p) g' b') :
  b'.JoinsRankings s old t (rankings ++ [p]) g'
  := by
  obtain ⟨hfused, node, more, hfrom, hranked⟩ := h
  obtain ⟨hfused', node', c, hfrom', hnew, hn, hc⟩ := hone
  obtain rfl := Option.some.inj (ht'.symm.trans hfrom)
  refine ⟨hfused'.trans hfused, node', more ++ [c], ?_, ?_⟩
  · rw [hfrom', List.append_assoc]
  · exact (hranked.mono hg hg' e).snoc (hc.congr hfused.symm)
      (Nat.le_trans eold.size_le hnew) hn

/-- Each ranking becomes one semi join. -/
theorem grows_rankAll_joins (hQ : Q.Persistent) (hcompile : Q.Meets compile)
    (rankings : List NodeId) (hg : g.WellFounded) (ht : b.clauses.from? = some t)
    (h : Ranks Q g t b g b) (hrankings : ∀ p ∈ rankings, g.Has p ∧ isRanking g p = true) :
  Grows (JoinsRankings b.folding g t rankings) (rankings.foldlM (rank compile) b) g
  := by
  have hstart : b.JoinsRankings b.folding g t [] g := by
    refine ⟨rfl, t.node, [], ?_, .nil _⟩
    rw [List.append_nil]
    exact ht
  apply (grows_foldlM (R := fun g' rest b' => Ranks Q g t b g' b' ∧ g.Extends g'
    ∧ (∀ p ∈ rest, g'.Has p ∧ isRanking g' p = true)
    ∧ ∃ done, done ++ rest = rankings ∧ b'.JoinsRankings b.folding g t done g') rankings hg
      ⟨h, .refl g, hrankings, [], rfl, hstart⟩ ?_).imp
  · rintro b' g' _ _ ⟨_, _, _, done, hdone, hjoined⟩
    rw [← hdone, List.append_nil]
    exact hjoined
  · rintro p rest b₁ g₁ hg₁ _ ⟨hranks, e, hids, done, hdone, hjoined⟩
    obtain ⟨⟨hp, hranking⟩, hrest⟩ := List.forall_mem_cons.mp hids
    obtain ⟨node, more, hfrom, _⟩ := hranks.source
    apply ((grows_rank hQ hcompile hg₁ e hranks hp).and
      (grows_rank_joins hQ hcompile hg₁ hranks.valid hfrom hranking)).imp
    rintro b₂ g₂ hg₂ e₂ ⟨hranks₂, hone⟩
    refine ⟨hranks₂, e.trans e₂, ?_, done ++ [p], ?_, hjoined.joinsOne hg₁ hg₂ e₂ e hfrom hone⟩
    · intro q hq
      obtain ⟨hhas, hkept⟩ := hrest q hq
      exact ⟨hhas.mono e₂, (e₂.isRanking_eq hhas).trans hkept⟩
    · rw [List.append_assoc]
      exact hdone

/-- The rankings of a block become semi joins. -/
theorem grows_joinRankings_joins (hQ : Q.Persistent) (hcompile : Q.Meets compile)
    (hg : g.WellFounded) (hb : b.Valid Q g) (ht : b.clauses.from? = some t) :
  Grows (JoinsRankings b.folding g t (b.clauses.predicates.filter (isRanking g)))
    (b.joinRankings compile) g
  := by
  rw [joinRankings]
  apply grows_get
  simp only [List.partition_eq_filter_filter]
  apply grows_rankAll_joins hQ hcompile _ hg (b := b.filtering fun p => !isRanking g p) ht
    (ranks_filtering hb ht _)
  intro p hp
  obtain ⟨hmem, hranking⟩ := List.mem_filter.mp hp
  exact ⟨hb.clauses.predicates p hmem, hranking⟩

/-- The FROM clause of the second block has the tables `t`, and then the table of one semi join
for each ranking of the first block. -/
def CompletesJoins (old : Graph) (b : Block) (t : TableSet) (g : Graph) (b' : Block) : Prop :=
  ∃ node joins more, b'.clauses.from? = some ⟨node, t.first, joins ++ more⟩
    ∧ joins.map JoinClause.table = t.joins.map JoinClause.table
    ∧ List.Forall₂ (fun p c => JoinClause.Ranks b'.folding g p c ∧ ¬ old.Has c.table)
      (b.clauses.predicates.filter (isRanking g)) more

/-- The FROM clause of the second block is put together from the tables `t` of the first one: the
predicates of its joins are lifted and read these tables only, and behind them stands one semi join
for each ranking of the first block.  The joins, and the tables of the semi joins, are added after
the tables and the predicates of the first block. -/
inductive Assembles (old : Graph) (b : Block) (t : TableSet) (g : Graph) (b' : Block) : Prop where
  | intro {bound : Nat} {joined node : NodeId} {joins more : List JoinClause}
      (hbound : old.size ≤ bound) (htables : ∀ u ∈ t.leaves, u.index < bound)
      (hpredicates : ∀ p ∈ b.clauses.predicates, p.index < bound)
      (hfrom : b'.clauses.from? = some ⟨node, t.first, joins ++ more⟩)
      (hlifts : List.Forall₂ (JoinClause.Lifts b'.folding g) t.joins joins)
      (hchained : g.Chained bound t.first joins joined)
      (hown : ∀ c ∈ joins, ∀ p ∈ c.predicates, ∀ u ∈ g.tables p, u ∈ t.leaves)
      (hranked : b'.folding.Ranked g bound joined (b.clauses.predicates.filter (isRanking g)) more
        node) : Assembles old b t g b'

theorem Assembles.completesJoins {old : Graph} {b b' : Block} (h : Assembles old b t g b') :
  CompletesJoins old b t g b'
  := by
  obtain @⟨bound, joined, node, joins, more, hbound, _, _, hfrom, hlifts, _, _, hranked⟩ := h
  refine ⟨node, joins, more, hfrom, JoinClause.tables_of_lifts hlifts, ?_⟩
  exact hranked.ranks.imp fun _ _ h => ⟨h.1, Nat.not_lt.mpr (Nat.le_trans hbound h.2)⟩

theorem Assembles.of_extends {old old' : Graph} (e : old.Extends old') {b b' : Block}
    (h : Assembles old' b t g b') :
  Assembles old b t g b'
  := by
  obtain ⟨hbound, htables, hpredicates, hfrom, hlifts, hchained, hown, hranked⟩ := h
  exact .intro (Nat.le_trans e.size_le hbound) htables hpredicates hfrom hlifts hchained hown
    hranked

/-- Completing a block puts its FROM clause together. -/
theorem grows_complete_assembles (hQ : Q.Persistent) (hforce : Q.Qualifies)
    {compile : List (List NodeId) → NodeId → Analysis Query}
    (hcompile : ∀ enclosing, Q.Meets (compile enclosing)) (enclosing : List (List NodeId))
    (hg : g.WellFounded) (hb : b.Valid Q g) (ht : b.clauses.from? = some t) :
  Grows (Assembles g b t) (b.complete compile enclosing) g
  := by
  rw [complete]
  apply grows_bind (grows_rebuildJoins hg hb ht)
  rintro b₁ g₁ hg₁ e₁ ⟨t', join, hrebuilt, hjoin, _, hb₁⟩
  have hvalid₁ : b₁.Valid Q g₁ := hb₁ ▸ hrebuilt.valid hQ hg hg₁ e₁ hb ht hjoin
  have ht₁ : b₁.clauses.from? = some t' := by rw [hb₁]
  have hsame : b₁.clauses.predicates = b.clauses.predicates := by rw [hb₁]
  apply grows_bind ((grows_joinRankings hQ (hcompile enclosing) hg₁ hvalid₁ ht₁).and
    (grows_joinRankings_joins hQ (hcompile enclosing) hg₁ hvalid₁ ht₁))
  rintro b₂ g₂ hg₂ e₂ ⟨⟨hranks, _⟩, hfused, node, more, hfrom, hranked⟩
  have hvalid₂ := hranks.valid
  apply grows_bind (grows_liftValues hg₂ hvalid₂.clauses
    fun j hj => Graph.has_of_isJoin (hvalid₂.join j hj))
  intro b₃ g₃ hg₃ e₃ hvalues
  have hvalid₃ := hvalues.valid (hvalid₂.mono hQ hg₂ hg₃ e₃)
  apply grows_bind (grows_liftOrder hg₃ hvalid₃.clauses)
  intro b₄ g₄ hg₄ e₄ horder
  have hvalid₄ := horder.valid (hvalid₃.mono hQ hg₃ hg₄ e₄)
  apply grows_bind (grows_extractSubqueries hQ hforce hcompile enclosing hg₄ hvalid₄)
  rintro b₅ g₅ hg₅ e₅ ⟨hsubqueried, _⟩
  apply grows_pure hg₅
  have e₂₅ := (e₃.trans e₄).trans e₅
  obtain ⟨force, hforced, _⟩ := b₅.qualifyFiltered_eq
  obtain ⟨force', hclauses⟩ := hsubqueried.clauses
  rw [hforced]
  have hfolding : b₅.folding.fused = b₁.folding.fused := by
    rw [hsubqueried.folding, horder.rest, hvalues.rest]
    exact hfused
  have hbefore : b₁.folding.fused = b.folding.fused := by rw [hb₁]
  have e₁₅ := e₂.trans e₂₅
  refine @Assembles.intro _ _ _ _ _ _ t'.node node t'.joins more (Nat.le_refl _)
    (hb.clauses.source t ht).leaves hb.clauses.predicates ?_ ?_ ?_ ?_ ?_
  · simp only [hclauses, ← hrebuilt.first]
    rw [horder.rest, hvalues.rest]
    exact hfrom
  · refine hrebuilt.joins.imp fun c c' hc => ?_
    obtain ⟨hkind, htable, hpredicates⟩ := JoinClause.Lifts.persistent _ c hg₁ hg₅ e₁₅ hc
    exact ⟨hkind, htable, hpredicates.imp fun _ _ hl => hl.congr (hfolding.trans hbefore)⟩
  · rw [← hrebuilt.first]
    exact hrebuilt.joined.mono e₁₅
  · intro c hc p hp u hu
    have hhas := forall₂_right hrebuilt.joins
      (fun c c' hc => forall₂_right hc.predicates fun _ _ hl => hl.target) c hc p hp
    rw [e₁₅.mem_tables_iff hg₁ hg₅ hhas] at hu
    exact hrebuilt.own c hc p hp u hu
  · have hfilter : b.clauses.predicates.filter (isRanking g₅)
        = b₁.clauses.predicates.filter (isRanking g₁) := by
      rw [hsame]
      apply List.filter_congr
      exact fun p hp => e₁₅.isRanking_eq ((hb.clauses.predicates p hp).mono e₁)
    rw [hfilter]
    exact ((hranked.weaken e₁.size_le).mono hg₂ hg₅ e₂₅).congr hfolding

end Block

end RelSql
