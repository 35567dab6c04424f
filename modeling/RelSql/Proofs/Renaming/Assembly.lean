import RelSql.Proofs.Renaming.Sources
import RelSql.Proofs.Renaming.Subqueries
import RelSql.Statement.Analysis

/-!
# Assembled blocks and queries over similar graphs

The blocks of related tables are completed in parallel, and so the queries of related handles are
similar, and are nested as deeply: a handle unfolds to as many nodes as a related one.
-/

namespace RelSql

open List Relator Analysis

variable [Comparison]

namespace Block

variable {R : Matching} {g g' : Graph} {b b' : Block} {i j : NodeId}

/-- Lifting the predicates of related joins and joining their tables. -/
theorem joinClauses_agree {T : Matching} {s s' : Folding} {st st' : LiftState}
    {leaves leaves' : List NodeId} {cs cs' : List JoinClause} (hTR : T ≤ R)
    (hs : s.Similar R s') (hst : st.Similar R st') (hl : Forall₂ R leaves leaves')
    (hc : Forall₂ (JoinClause.Similar T) cs cs') (hij : R i j) :
  Agree Failure.kind (fun x y => ∃ S, R ≤ S ∧ Forall₂ (JoinClause.Similar S) x.1 y.1
      ∧ S x.2.1 y.2.1 ∧ x.2.2.Similar S y.2.2)
    (joinClauses s leaves cs i st) (joinClauses s' leaves' cs' j st')
  := by
  induction hc generalizing R st st' i j with
  | nil => exact .ok ⟨R, le_refl R, .nil, hij, hst⟩
  | @cons c c' cs cs' hcc _ ih =>
      obtain ⟨S, hRS, hS, hps⟩ := Lift.parallel_values .substitute hs hst (hcc.predicates.imp hTR)
      rw [joinClauses, joinClauses]
      dsimp only
      have hrun : ∀ (t : LiftState) (m : LiftM (List NodeId)), Id.run (m.run t) = m.run t :=
        fun _ _ => rfl
      rw [hrun, hrun]
      revert hS hps
      generalize StateT.run (mapM (Lift.value s .substitute) c.predicates) st = r
      generalize StateT.run (mapM (Lift.value s' .substitute) c'.predicates) st' = r'
      obtain ⟨ps, t⟩ := r
      obtain ⟨ps', t'⟩ := r'
      intro hS hps
      have hfind := find?_related (fun p => (t.graph.tables p).any fun u => !leaves.contains u)
        (fun p => (t'.graph.tables p).any fun u => !leaves'.contains u) hps fun p p' hp =>
          any_related _ _ (hS.graph.tables hp) fun u u' hu => by
            rw [contains_eq_of_related hS.graph.biUnique (hl.imp hRS) hu]
      dsimp only at hfind ⊢
      generalize find? _ ps = x at hfind ⊢
      generalize find? _ ps' = y at hfind ⊢
      cases hfind with
      | some _ => exact .error rfl
      | none =>
          have hnn : Node.Similar S (.join c.kind i c.table ps) (.join c'.kind j c'.table ps') := by
            rw [hcc.kind]
            exact .join _ (hRS _ _ hij) (hRS _ _ (hTR _ _ hcc.table)) hps
          have hpush := hS.graph.push hnn nofun
          have hle := S.le_insert (t.graph.push (.join c.kind i c.table ps)).1
            (t'.graph.push (.join c'.kind j c'.table ps')).1
          have hstate : LiftState.Similar _
              { t with graph := (t.graph.push (.join c.kind i c.table ps)).2 }
              { t' with graph := (t'.graph.push (.join c'.kind j c'.table ps')).2 } :=
            ⟨hpush, hS.memo.imp fun _ _ h => ⟨hle _ _ h.1, hle _ _ h.2⟩⟩
          have hRU := hRS.trans hle
          apply (ih (hTR.trans hRU) (hs.mono hRU) hstate (hl.imp hRU) (.inr ⟨rfl, rfl⟩)).bind
          rintro ⟨ds, k, u⟩ ⟨ds', k', u'⟩ ⟨V, hUV, hds, hk, hu⟩
          refine .ok ⟨V, hRU.trans hUV, .cons ?_ hds, hk, hu⟩
          exact ⟨hcc.kind, (hRU.trans hUV) _ _ (hTR _ _ hcc.table), hps.imp (hle.trans hUV)⟩

theorem parallel_rebuildJoins (hg : g.Similar R g') (hb : b.Similar R b') :
  Parallel R (fun S => Block.Similar S) b.rebuildJoins b'.rebuildJoins g g'
  := by
  change Outcomes _ (b.rebuildJoins g) (b'.rebuildJoins g')
  rw [rebuildJoins, rebuildJoins]
  have hfrom := hb.clauses.from?
  generalize b.clauses.from? = x at hfrom
  generalize b'.clauses.from? = y at hfrom
  cases hfrom with
  | none => exact .ok ⟨R, le_refl R, hg, hb⟩
  | @some t t' ht =>
      apply (Outcomes.of_agree (joinClauses_agree (le_refl R) hb.folding ⟨hg, .nil⟩ ht.leaves
        ht.joins ht.first)).bind
      rintro ⟨joins, node, st⟩ ⟨joins', node', st'⟩ ⟨S, hRS, hjoins, hnode, hst⟩
      have hbS := hb.mono hRS
      have hjoin : Option.Rel S (if joins = [] then b.folding.join else some node)
          (if joins' = [] then b'.folding.join else some node') := by
        simp only [eq_nil_iff_of_related hjoins]
        split
        · exact hbS.folding.join
        · exact .some hnode
      have htable : TableSet.Similar S { t with node, joins }
          { t' with node := node', joins := joins' } := ⟨hnode, hRS _ _ ht.first, hjoins⟩
      exact .ok ⟨S, hRS, hst.graph, { hbS with
        folding := { hbS.folding with join := hjoin }
        clauses := { hbS.clauses with from? := .some htable } }⟩

theorem isRanking_eq (hg : g.Similar R g') (hij : R i j) :
  isRanking g i = isRanking g' j
  := by
  obtain ⟨n, n', hn, hn', hnn⟩ := hg.nodes hij
  rw [isRanking, isRanking, hn, hn']
  cases hnn <;> rfl

theorem parallel_joinRankings {compile compile' : NodeId → Analysis Query}
    (hc : Compiles R compile compile') (hg : g.Similar R g') (hb : b.Similar R b') :
  Parallel R (fun S => Block.Similar S) (b.joinRankings compile) (b'.joinRankings compile') g g'
  := by
  rw [joinRankings, joinRankings]
  apply parallel_get
  simp only [partition_eq_filter_filter]
  have hrankings : Forall₂ R (b.clauses.predicates.filter (isRanking g))
      (b'.clauses.predicates.filter (isRanking g')) := by
    apply rel_filter _ hb.clauses.predicates
    intro p p' hp
    beta_reduce
    rw [isRanking_eq hg hp]
  have hothers : Forall₂ R (b.clauses.predicates.filter (not ∘ isRanking g))
      (b'.clauses.predicates.filter (not ∘ isRanking g')) := by
    apply rel_filter _ hb.clauses.predicates
    intro p p' hp
    simp only [Function.comp_apply, isRanking_eq hg hp]
  apply parallel_foldlM (P := fun S => Block.Similar S) hrankings hg
  · exact { hb with clauses := { hb.clauses with predicates := hothers } }
  · intro p p' hp S c c' h h' hRS hh hcc
    exact parallel_rank (hc.mono hRS) hh hcc (hRS _ _ hp)

/-! ### Lifting the values of a block -/

section

open LiftM

variable {st st' : LiftState}

theorem parallel_liftItem {s s' : Folding} (hs : s.Similar R s') (hst : st.Similar R st')
    (hij : R i j) :
  LiftM.Parallel R (fun S => S) (liftItem s i) (liftItem s' j) st st'
  := by
  rw [liftItem, liftItem]
  apply LiftM.parallel_get
  dsimp only
  rw [hst.graph.isRelation_eq hij]
  split
  · exact LiftM.parallel_pure hst (hs.star hst.graph hij)
  · exact Lift.parallel_named .substitute hs hst hij

theorem parallel_liftValues (hb : b.Similar R b') (hst : st.Similar R st') :
  LiftM.Parallel R (fun S => Block.Similar S) b.liftValues b'.liftValues st st'
  := by
  rw [liftValues, liftValues]
  apply LiftM.parallel_bind (LiftM.parallel_mapM (P := fun S => S) (fun _ _ _ _ hST => hST _ _)
    hb.clauses.select hst fun c d hcd S t t' hRS ht =>
      parallel_liftItem (hb.folding.mono hRS) ht (hRS _ _ hcd))
  intro S select select' t t' hRS ht hselect
  apply LiftM.parallel_bind (Lift.parallel_values .substitute (hb.folding.mono hRS) ht
    (hb.clauses.predicates.imp hRS))
  intro T ps ps' u u' hST hu hps
  have hRT := hRS.trans hST
  apply LiftM.parallel_bind (Lift.parallel_values .substitute (hb.folding.mono hRT) hu
    (hb.clauses.having.imp hRT))
  intro U hs hs' v v' hTU hv hhaving
  apply LiftM.parallel_pure hv
  have hbU := hb.mono (hRT.trans hTU)
  exact { hbU with clauses := { hbU.clauses with
    select := hselect.imp (hST.trans hTU)
    predicates := hps.imp hTU
    having := hhaving } }

theorem parallel_liftOrder (hb : b.Similar R b') (hst : st.Similar R st') :
  LiftM.Parallel R (fun S => Block.Similar S) b.liftOrder b'.liftOrder st st'
  := by
  rw [liftOrder, liftOrder]
  apply LiftM.parallel_bind (LiftM.parallel_mapM (P := fun S => SortKey.Similar S)
    (fun _ _ _ _ hST h => ⟨hST _ _ h.1, h.2⟩) hb.clauses.orderBy hst _)
  · intro S ks ks' t t' hRS ht hks
    have hbS := hb.mono hRS
    exact LiftM.parallel_pure ht { hbS with clauses := { hbS.clauses with orderBy := hks } }
  · intro k k' hk S t t' hRS ht
    apply LiftM.parallel_bind (Lift.parallel_value .output (hb.folding.mono hRS) ht
      (hRS _ _ hk.1))
    intro T e e' u u' _ hu he
    exact LiftM.parallel_pure hu ⟨he, hk.2⟩

end

/-! ### Completed blocks -/

theorem qualifyFiltered_related (hg : g.Similar R g') (hb : b.Similar R b') :
  b.qualifyFiltered.Similar R b'.qualifyFiltered
  := by
  rw [qualifyFiltered, qualifyFiltered]
  have hfrom := hb.clauses.from?
  generalize b.clauses.from? = x at hfrom
  generalize b'.clauses.from? = y at hfrom
  cases hfrom with
  | none => exact hb
  | some ht =>
      simp only [ne_eq, hb.aggregate, eq_nil_iff_of_related hb.clauses.predicates,
        eq_nil_iff_of_related ht.joins,
        isSome_eq_of_related (derivedFor?_related hg.biUnique hb.nested ht.first)]
      split
      · exact { hb with aggregate := rfl, clauses := { hb.clauses with forceAliases := rfl } }
      · exact hb

variable {compile compile' : List (List NodeId) → NodeId → Analysis Query}
  {e e' : List (List NodeId)}

theorem parallel_complete (hc : CompilesInside R compile compile') (he : Enclosing R e e')
    (hg : g.Similar R g') (hb : b.Similar R b') :
  Parallel R (fun S => Block.Similar S) (b.complete compile e) (b'.complete compile' e') g g'
  := by
  rw [complete, complete]
  apply parallel_bind (parallel_rebuildJoins hg hb)
  intro S b b' h h' hRS hh hb
  apply parallel_bind (parallel_joinRankings (hc hRS (he.mono hRS)) hh hb)
  intro T b b' t t' hST ht hb
  apply parallel_bind (parallel_lifted (parallel_liftValues hb ⟨ht, .nil⟩))
  intro U b b' u u' hTU hu hb
  apply parallel_bind (parallel_lifted (parallel_liftOrder hb ⟨hu, .nil⟩))
  intro V b b' v v' hUV hv hb
  have hRV := (hRS.trans hST).trans (hTU.trans hUV)
  apply parallel_bind (parallel_extractSubqueries (hc.mono hRV) (he.mono hRV) hv hb)
  intro W b b' w w' _ hw hb
  exact parallel_pure hw (qualifyFiltered_related hw hb)

/-- The blocks of related tables. -/
theorem parallel_ofTable (hc : CompilesInside R compile compile') (he : Enclosing R e e')
    (hg : g.Similar R g') (hij : R i j) :
  Parallel R (fun S => Block.Similar S) (ofTable compile e i) (ofTable compile' e' j) g g'
  := by
  rw [ofTable, ofTable]
  apply parallel_bind (parallel_foldLimits hg (.ofNode hij) hij)
  rintro S ⟨b, i⟩ ⟨b', j⟩ h h' hRS hh ⟨hb, hij⟩
  apply parallel_bind (parallel_foldTopSorts hh hb hij)
  rintro T ⟨b, i⟩ ⟨b', j⟩ t t' hST ht ⟨hb, hij⟩
  apply parallel_bind (parallel_foldDistinct ht hb hij)
  rintro U ⟨b, i⟩ ⟨b', j⟩ u u' hTU hu ⟨hb, hij⟩
  have hRU := (hRS.trans hST).trans hTU
  apply parallel_bind (parallel_core (hc hRU (he.mono hRU)) hu hb hij)
  intro V b b' v v' hUV hv hb
  have hRV := hRU.trans hUV
  exact parallel_complete (hc.mono hRV) (he.mono hRV) hv hb

end Block

/-! ### Queries -/

section

variable {R : Matching} {g g' : Graph} {i j : NodeId}

/-- The queries of related tables, to one depth if all is compared. -/
theorem parallel_queryWithin (n : Nat) :
    ∀ {n' : Nat} {R : Matching}, (Comparison.entire → n = n') →
      CompilesInside R (queryWithin n) (queryWithin n') := by
  induction n with
  | zero =>
      intro n' R hn S e e' _ _ T g g' i j _ _ _
      cases n' with
      | zero => exact parallel_fail rfl
      | succ n' => exact parallel_fails fun hentire => absurd (hn hentire) (Nat.succ_ne_zero n').symm
  | succ n ih =>
      intro n' R hn S e e' _ he T g g' i j hST hg hij
      obtain _ | n' := n'
      · exact parallel_failed fun hentire => absurd (hn hentire) (Nat.succ_ne_zero n)
      replace ih : ∀ {R : Matching}, CompilesInside R (queryWithin n) (queryWithin n') :=
        ih fun hentire => Nat.succ.inj (hn hentire)
      rw [queryWithin, queryWithin]
      apply parallel_get
      have hblock : Parallel T (fun S => Query.Similar S)
          (do return (← Block.ofTable (queryWithin n) e i).query)
          (do return (← Block.ofTable (queryWithin n') e' j).query) g g' := by
        apply parallel_bind (Block.parallel_ofTable ih (he.mono hST) hg hij)
        intro U b b' u u' _ hu hb
        exact parallel_pure hu (.select hb.clauses hb.nested)
      obtain ⟨m, m', hm, hm', hmm⟩ := hg.nodes hij
      rw [hm, hm']
      cases hmm with
      | union distinct hl hr =>
          apply parallel_bind (ih hST (he.mono hST) (le_refl T) hg hl)
          intro U q q' u u' hTU hu hq
          apply parallel_bind (ih (hST.trans hTU) (he.mono (hST.trans hTU)) (le_refl U) hu
            (hTU _ _ hr))
          intro V p p' v v' hUV hv hp
          exact parallel_pure hv (.union distinct (hq.mono hUV) hp)
      | _ => exact hblock

omit [Comparison] in
/-- The bounds for similar nodes are the same when those for their children are. -/
theorem Node.Similar.nesting_eq {below below' : NodeId → Nesting} {n n' : Node}
    (h : n.Similar (fun c d => below c = below' d) n') :
  n.nesting below = n'.nesting below'
  := by
  have hmap : ∀ {l l' : List NodeId}, Forall₂ (fun c d => below c = below' d) l l' →
      l.map below = l'.map below' := by
    intro l l' hl
    rw [← forall₂_eq_eq_eq, forall₂_map_left_iff, forall₂_map_right_iff]
    exact hl
  have hchildren := hmap h.children
  cases h with
  | selection ht hl => rw [Node.nesting, Node.nesting, ht, hmap hl]
  | projection ht hl => rw [Node.nesting, Node.nesting, ht, hmap hl]
  | aggregation ht hk hm _ =>
      rw [Node.nesting, Node.nesting, ht, map_append, map_append, hmap hk, hmap hm]
  | table => rfl
  | view ht | sort ht _ | limit _ _ ht | distinct ht => rw [Node.nesting, Node.nesting, ht]
  | join _ hl hr _ | union _ hl hr => rw [Node.nesting, Node.nesting, hl, hr]
  | _ => rw [Node.nesting, Node.nesting, hchildren] <;> first | rfl | nofun

/-- Queries over related handles are nested to the same depth at most. -/
theorem Graph.Similar.nestingBound_eq (h : g.Similar R g') (hij : R i j) :
  g.nestingBound i = g'.nestingBound j
  := by
  rw [Graph.nestingBound, Graph.nestingBound]
  congr 1
  apply h.recurse (P := fun _ _ => Eq) _ hij
  intro below below' i j _ hnn
  exact (hnn.imp fun _ _ _ _ hcd => hcd.2).nesting_eq

theorem parallel_queryOf (hg : g.Similar R g') (hij : R i j) :
  Parallel R (fun S => Query.Similar S) (queryOf i) (queryOf j) g g'
  := by
  rw [queryOf, queryOf]
  apply parallel_get
  rw [hg.nestingBound_eq hij]
  exact parallel_queryWithin _ (fun _ => rfl) (le_refl R) (fun _ => .nil) (le_refl R) hg hij

/-- A query, and how its result is read. -/
abbrev Handled (R : Matching) (p p' : Query × Handler) : Prop :=
  p.1.Similar R p'.1 ∧ p.2 = p'.2

theorem parallel_constantQuery {vs vs' : List NodeId} (hg : g.Similar R g')
    (hv : Forall₂ R vs vs') :
  Parallel R (fun S => Query.Similar S) (constantQuery vs) (constantQuery vs') g g'
  := by
  have hquery : ∀ {S c c'}, R ≤ S → S c c' → (Query.select
      { Clauses.ofNode c with select := vs } []).Similar S
      (.select { Clauses.ofNode c' with select := vs' } []) := by
    intro S c c' hRS hcc
    have hclauses := (Block.Similar.ofNode hcc).clauses
    exact .select { hclauses with select := hv.imp hRS } .nil
  rw [constantQuery.eq_def, constantQuery.eq_def]
  cases hv with
  | nil =>
      apply parallel_bind (parallel_push hg (.literal .null) nofun)
      intro S c c' h h' hRS hh hcc
      exact parallel_pure hh (hquery hRS hcc)
  | cons hcd _ => exact parallel_pure hg (hquery (le_refl R) hcd)

theorem parallel_withName (hg : g.Similar R g') (hij : R i j) :
  Parallel R (fun S => S) (withName i) (withName j) g g'
  := by
  rw [withName, withName]
  apply parallel_get
  rw [hg.name?_eq hij]
  split
  · exact parallel_pure hg hij
  · exact parallel_push hg (.named Graph.defaultName hij) nofun

theorem parallel_valueQuery (hg : g.Similar R g') (hij : R i j) :
  Parallel R Handled (valueQuery i) (valueQuery j) g g'
  := by
  rw [valueQuery, valueQuery]
  apply parallel_bind (parallel_withName hg hij)
  intro S v v' h h' hRS hh hv
  have hijS := hRS _ _ hij
  apply parallel_get
  have hbase := hh.baseTable hijS
  generalize h.baseTable i = x at hbase
  generalize h'.baseTable j = y at hbase
  cases hbase with
  | none =>
      apply parallel_bind (parallel_constantQuery hh (.cons hv .nil))
      intro T q q' t t' _ ht hq
      exact parallel_pure ht ⟨hq, rfl⟩
  | some ht =>
      dsimp only
      rw [hh.hasReduction_eq hijS, hh.name?_eq hv]
      split
      · apply parallel_bind (parallel_push hh (.aggregation ht .nil (.cons hv .nil) .nil) nofun)
        intro T t t' k k' _ hk ht
        apply parallel_bind (parallel_queryOf hk ht)
        intro U q q' u u' _ hu hq
        exact parallel_pure hu ⟨hq, rfl⟩
      · apply parallel_bind (parallel_push hh (.projection ht (.cons hv .nil)) nofun)
        intro T t t' k k' _ hk ht
        apply parallel_bind (parallel_queryOf hk ht)
        intro U q q' u u' _ hu hq
        exact parallel_pure hu ⟨hq, rfl⟩

theorem parallel_listQuery {l l' : List NodeId} (hg : g.Similar R g') (hij : R i j)
    (hl : Forall₂ R l l') :
  Parallel R (fun S => Query.Similar S) (listQuery i l) (listQuery j l') g g'
  := by
  rw [listQuery, listQuery]
  apply parallel_bind (parallel_mapM (P := fun S => S) (fun _ _ _ _ hST => hST _ _) hl hg
    fun c d hcd S h h' hRS hh => parallel_withName hh (hRS _ _ hcd))
  intro S vs vs' h h' hRS hh hvs
  apply parallel_get
  have hbase := hh.baseTable (hRS _ _ hij)
  generalize h.baseTable i = x at hbase
  generalize h'.baseTable j = y at hbase
  cases hbase with
  | none => exact parallel_constantQuery hh hvs
  | some ht =>
      apply parallel_bind (parallel_push hh (.projection ht hvs) nofun)
      intro T t t' k k' _ hk ht
      exact parallel_queryOf hk ht

/-- The queries of related handles, and how their results are read. -/
theorem parallel_rootQuery (hg : g.Similar R g') (hij : R i j) :
  Parallel R Handled (rootQuery i) (rootQuery j) g g'
  := by
  rw [rootQuery, rootQuery]
  apply parallel_get
  have hvalue := parallel_valueQuery hg hij
  have htable : Parallel R Handled (do return (← queryOf i, Handler.table))
      (do return (← queryOf j, Handler.table)) g g' := by
    apply parallel_bind (parallel_queryOf hg hij)
    intro S q q' h h' _ hh hq
    exact parallel_pure hh ⟨hq, rfl⟩
  obtain ⟨n, n', hn, hn', hnn⟩ := hg.nodes hij
  simp only [hn, hn']
  cases hnn with
  | column name ht =>
      obtain ⟨m, m', hm, hm', hmm⟩ := hg.nodes ht
      simp only [hm, hm']
      cases hmm with
      | aggregation =>
          apply parallel_bind (parallel_queryOf hg ht)
          intro S q q' h h' _ hh hq
          exact parallel_pure hh ⟨hq, rfl⟩
      | _ => exact hvalue
  | exprList hl =>
      apply parallel_bind (parallel_listQuery hg hij hl)
      intro S q q' h h' _ hh hq
      exact parallel_pure hh ⟨hq, rfl⟩
  | topK | any | interval => exact parallel_fail rfl
  | table | view | projection | selection | aggregation | join | sort | limit | distinct
  | union => exact htable
  | _ => exact hvalue

end

end RelSql
