import RelSql.Block.Ranking
import RelSql.Block.Subquery
import RelSql.Proofs.Renaming.Sources

/-!
# Rankings and subqueries over similar graphs

Replacing related rankings by joins goes in parallel: the groups that are ranked are read from
related tables.

Extracting the subqueries of related values goes in parallel: the values that are extracted are
related, and so are the tables that their subqueries read and the tables of the blocks around
them.
-/

/-! ## Rankings over similar graphs -/

namespace RelSql

open List Relator Analysis

variable [Comparison]

omit [Comparison] in
/-- Faults of graphs of one kind are compilation faults of one kind. -/
theorem CompileError.kind_graph {e e' : GraphError} (h : e.kind = e'.kind) :
  (CompileError.graph e).kind = (CompileError.graph e').kind
  := by
  simp only [CompileError.kind, CompileError.kindOfGraph, h]

namespace Block

variable {R : Matching} {g g' : Graph} {b b' : Block} {i j k l : NodeId}
  {compile compile' : NodeId → Analysis Query}

/-- Adding the same column of related tables. -/
theorem parallel_column (hg : g.Similar R g') (hij : R i j) (name : String) :
  Parallel R (fun S => S) (build fun g => g.column i name) (build fun g => g.column j name) g g'
  := by
  have hcolumn : Agree GraphError.kind (fun x y => ∃ S, R ≤ S ∧ x.2.Similar S y.2 ∧ S x.1 y.1)
      (g.column i name) (g'.column j name) := by
    rw [Graph.column, Graph.column, hg.isRelation_eq hij, hg.isAmbiguous_eq hij]
    split
    · exact .error rfl
    · apply (hg.schema hij).bind
      rintro schema _ rfl
      apply Agree.bind (P := Eq)
      · cases schema.field name with
        | ok f => exact .ok rfl
        | error e => exact .error rfl
      · rintro _ _ _
        split
        · exact .error rfl
        · exact .ok ⟨_, R.le_insert _ _, hg.push (.column name hij) nofun, .inr ⟨rfl, rfl⟩⟩
  rw [Parallel]
  change Outcomes _ (build (fun g => g.column i name) g) (build (fun g => g.column j name) g')
  rw [build, build]
  generalize g.column i name = x at hcolumn
  generalize g'.column j name = y at hcolumn
  cases hcolumn with
  | ok h => exact .ok h
  | error h => exact .error fun _ => CompileError.kind_graph h

theorem parallel_semiJoin (hg : g.Similar R g') (hb : b.Similar R b') (hij : R i j)
    (hkl : R k l) :
  Parallel R (fun S => Block.Similar S) (b.semiJoin i k) (b'.semiJoin j l) g g'
  := by
  rw [semiJoin, semiJoin]
  have hfrom := hb.clauses.from?
  generalize b.clauses.from? = x at hfrom
  generalize b'.clauses.from? = y at hfrom
  cases hfrom with
  | none => exact parallel_fail rfl
  | @some t t' ht =>
      apply parallel_bind (parallel_push hg (.join .semi ht.node hij (.cons hkl .nil)) nofun)
      intro S node node' h h' hRS hh hnode
      have hbS := hb.mono hRS
      have hclause : JoinClause.Similar S ⟨.semi, i, [k]⟩ ⟨.semi, j, [l]⟩ :=
        ⟨rfl, hRS _ _ hij, .cons (hRS _ _ hkl) .nil⟩
      have htable : TableSet.Similar S
          { t with node, joins := t.joins ++ [⟨.semi, i, [k]⟩] }
          { t' with node := node', joins := t'.joins ++ [⟨.semi, j, [l]⟩] } :=
        ⟨hnode, hRS _ _ ht.first, rel_append (ht.mono hRS).joins (.cons hclause .nil)⟩
      apply parallel_pure hh
      exact { hbS with
        folding := { hbS.folding with join := .some hnode }
        clauses := { hbS.clauses with from? := .some htable } }

/-- Lifting a value and its metric. -/
theorem parallel_both (mode : LiftMode) (hg : g.Similar R g') {s s' : Folding}
    (hs : s.Similar R s') (hij : R i j) (hkl : R k l) :
  Parallel R (fun S p p' => S p.1 p'.1 ∧ S p.2 p'.2)
    (lifted do return (← Lift.value s mode i, ← Lift.value s mode k))
    (lifted do return (← Lift.value s' mode j, ← Lift.value s' mode l)) g g'
  := by
  apply parallel_lifted
  apply LiftM.parallel_bind (Lift.parallel_value mode hs ⟨hg, .nil⟩ hij)
  intro S c d t t' hRS ht hcd
  apply LiftM.parallel_bind (Lift.parallel_value mode (hs.mono hRS) ht (hRS _ _ hkl))
  intro U c' d' u u' hSU hu hcd'
  exact LiftM.parallel_pure hu ⟨hSU _ _ hcd, hcd'⟩

/-- The ranked values, and their groups, are related. -/
theorem parallel_ranked (hg : g.Similar R g') (hb : b.Similar R b') (hij : R i j)
    (hkl : R k l) :
  Parallel R (fun S p p' => S p.1 p'.1 ∧ S p.2 p'.2) (b.ranked i k) (b'.ranked j l) g g'
  := by
  rw [ranked, ranked]
  dsimp only
  apply parallel_bind (parallel_both .projections hg hb.folding hij hkl)
  rintro S ⟨argBelow, metricBelow⟩ ⟨argBelow', metricBelow'⟩ h h' hRS hh ⟨hargBelow, hmetricBelow⟩
  apply parallel_bind (parallel_both .substitute hh (hb.folding.mono hRS) (hRS _ _ hij)
    (hRS _ _ hkl))
  rintro T ⟨arg, metric⟩ ⟨arg', metric'⟩ m m' hST hm ⟨harg, hmetric⟩
  replace hargBelow := hST _ _ hargBelow
  replace hmetricBelow := hST _ _ hmetricBelow
  have hRT := hRS.trans hST
  apply parallel_get
  have htables := hm.tables hargBelow
  have hmetrics := hm.tables hmetricBelow
  dsimp only
  generalize m.tables argBelow = tables at htables
  generalize m'.tables argBelow' = tables' at htables
  cases htables with
  | nil => exact parallel_fail rfl
  | @cons table table' _ _ htable _ =>
      have hsame : (m.tables metricBelow).head?.getD table = table
          ↔ (m'.tables metricBelow').head?.getD table' = table' := by
        generalize m.tables metricBelow = ts at hmetrics
        generalize m'.tables metricBelow' = ts' at hmetrics
        cases hmetrics with
        | nil => simp
        | cons ht _ => exact hm.eq_iff ht htable
      simp only [hsame]
      split
      · apply parallel_bind (parallel_push hm (.named metricName hmetricBelow) nofun)
        intro U c c' u u' hTU hu hcc
        apply parallel_bind (parallel_push hu (.aggregation (hTU _ _ htable)
          (.cons (hTU _ _ hargBelow) .nil) (.cons hcc .nil) .nil) nofun)
        intro V d d' v v' hUV hv hdd
        exact parallel_pure hv ⟨hUV _ _ (hTU _ _ harg), hdd⟩
      · have hfrom := hb.clauses.from?
        generalize b.clauses.from? = x at hfrom
        generalize b'.clauses.from? = y at hfrom
        cases hfrom with
        | none => exact parallel_fail rfl
        | some ht =>
            apply parallel_bind (parallel_push hm (.named metricName hmetric) nofun)
            intro U c c' u u' hTU hu hcc
            apply parallel_bind (parallel_push hu (.aggregation ((hRT.trans hTU) _ _ ht.node)
              (.cons (hTU _ _ harg) .nil) (.cons hcc .nil) .nil) nofun)
            intro V d d' v v' hUV hv hdd
            exact parallel_pure hv ⟨hUV _ _ (hTU _ _ harg), hdd⟩

/-- Joining the values of a column that rank first by a metric. -/
theorem parallel_rankedBy (hc : Compiles R compile compile') (hg : g.Similar R g')
    (hb : b.Similar R b') (hij : R i j) (hkl : R k l) (n : Nat) (name : String) :
  Parallel R (fun S => Block.Similar S)
    (do
      let (argLifted, groups) ← b.ranked i k
      let key ← build fun g => g.column groups metricName
      let sorted ← push (.sort groups [⟨key, false⟩])
      let first ← push (.limit sorted n 0)
      let value ← build fun g => g.column first name
      let predicate ← push (.binary .eq argLifted value)
      let b ← b.leaf compile first
      b.semiJoin first predicate)
    (do
      let (argLifted, groups) ← b'.ranked j l
      let key ← build fun g => g.column groups metricName
      let sorted ← push (.sort groups [⟨key, false⟩])
      let first ← push (.limit sorted n 0)
      let value ← build fun g => g.column first name
      let predicate ← push (.binary .eq argLifted value)
      let b ← b'.leaf compile' first
      b.semiJoin first predicate) g g'
  := by
  apply parallel_bind (parallel_ranked hg hb hij hkl)
  rintro S ⟨a, groups⟩ ⟨a', groups'⟩ h h' hRS hh ⟨ha, hgroups⟩
  apply parallel_bind (parallel_column hh hgroups metricName)
  intro T key key' t t' hST ht hkey
  have hkeys : Forall₂ (SortKey.Similar T) [⟨key, false⟩] [⟨key', false⟩] :=
    .cons ⟨hkey, rfl⟩ .nil
  apply parallel_bind (parallel_push ht (.sort (hST _ _ hgroups) hkeys) nofun)
  intro U sorted sorted' u u' hTU hu hsorted
  apply parallel_bind (parallel_push hu (.limit n 0 hsorted) nofun)
  intro V first first' v v' hUV hv hfirst
  apply parallel_bind (parallel_column hv hfirst name)
  intro W value value' w w' hVW hw hvalue
  have haW := (hST.trans (hTU.trans (hUV.trans hVW))) _ _ ha
  apply parallel_bind (parallel_push hw (.binary .eq haW hvalue) nofun)
  intro X predicate predicate' x x' hWX hx hpredicate
  have hRX := hRS.trans (hST.trans (hTU.trans (hUV.trans (hVW.trans hWX))))
  have hfirstX := (hVW.trans hWX) _ _ hfirst
  apply parallel_bind (parallel_leaf (hc.mono hRX) hx (hb.mono hRX) hfirstX)
  intro Y c c' y y' hXY hy hcc
  exact parallel_semiJoin hy hcc (hXY _ _ hfirstX) (hXY _ _ hpredicate)

theorem parallel_rank (hc : Compiles R compile compile') (hg : g.Similar R g')
    (hb : b.Similar R b') (hij : R i j) :
  Parallel R (fun S => Block.Similar S) (b.rank compile i) (b'.rank compile' j) g g'
  := by
  rw [rank, rank]
  apply parallel_get
  obtain ⟨n, n', hn, hn', hnn⟩ := hg.nodes hij
  rw [hn, hn']
  cases hnn with
  | topK k harg hmetric =>
      apply parallel_get
      obtain ⟨n, n', hn, hn', hnn⟩ := hg.nodes harg
      simp only [hn, hn']
      cases hnn with
      | column name _ =>
          cases hmetric with
          | some hm =>
              dsimp only
              apply parallel_bind (parallel_pure (P := fun S => S) hg hm)
              intro S m m' h h' hRS hh hm
              exact parallel_rankedBy (hc.mono hRS) hh (hb.mono hRS) (hRS _ _ harg) hm k name
          | none =>
              dsimp only
              apply parallel_bind (parallel_push hg (.reduction .count harg) nofun)
              intro S m m' h h' hRS hh hm
              exact parallel_rankedBy (hc.mono hRS) hh (hb.mono hRS) (hRS _ _ harg) hm k name
      | _ => exact parallel_fail rfl
  | _ => exact parallel_pure hg hb

end Block

end RelSql

/-! ## Subqueries over similar graphs -/

namespace RelSql

open List Relator Analysis

variable [Comparison]

/-- Related lists of tables, one for each block around, if these are compared. -/
def Enclosing (R : Matching) (e e' : List (List NodeId)) : Prop :=
  Comparison.entire → Forall₂ (Forall₂ R) e e'

theorem Enclosing.mono {R S : Matching} {e e' : List (List NodeId)} (h : Enclosing R e e')
    (hRS : R ≤ S) :
  Enclosing S e e'
  := fun hentire => (h hentire).imp fun _ _ hl => hl.imp hRS

/-- Compiling related tables inside related blocks goes in parallel. -/
def CompilesInside (R : Matching) (compile compile' : List (List NodeId) → NodeId → Analysis Query) :
    Prop :=
  ∀ {S e e'}, R ≤ S → Enclosing S e e' → Compiles S (compile e) (compile' e')

theorem CompilesInside.mono {R S : Matching}
    {compile compile' : List (List NodeId) → NodeId → Analysis Query}
    (h : CompilesInside R compile compile') (hRS : R ≤ S) :
  CompilesInside S compile compile'
  := fun hST => h (hRS.trans hST)

namespace Block

variable {R : Matching} {g g' : Graph} {b b' : Block} {i j : NodeId}
  {compile compile' : NodeId → Analysis Query} {nested nested' : List (Nested Query)}

/-- Nested queries, one by one. -/
abbrev SimilarNested (R : Matching) : List (Nested Query) → List (Nested Query) → Prop :=
  Forall₂ (Nested.Similar R (Query.Similar R))

omit [Comparison] in
theorem SimilarNested.mono {S : Matching} (h : SimilarNested R nested nested') (hRS : R ≤ S) :
  SimilarNested S nested nested'
  := h.imp fun _ _ hs => hs.imp hRS fun hq => hq.mono hRS

theorem isScalar_eq (hg : g.Similar R g') (hij : R i j) :
  isScalar g i = isScalar g' j
  := by
  rw [isScalar, isScalar, hg.hasReduction_eq hij, hg.readsOutsideReductions_eq hij]

theorem conjuncts_related (hg : g.Similar R g') (hij : R i j) :
  Forall₂ R (conjuncts g i) (conjuncts g' j)
  := by
  apply hg.recurse (P := fun _ _ => Forall₂ R) _ hij
  intro below below' i j hij hnn
  revert hnn
  generalize g.node i = n
  generalize g'.node j = n'
  intro hnn
  cases hnn with
  | binary op hl hr =>
      cases op with
      | and => exact rel_append hl.2 hr.2
      | _ => exact .cons hij .nil
  | _ => exact .cons hij .nil

/-- The rows for which related predicates hold. -/
theorem parallel_witnesses {e e' : List (List NodeId)} (he : Forall₂ (Forall₂ R) e e')
    (hg : g.Similar R g') (hij : R i j) :
  Parallel R (fun S => S) (witnesses e i) (witnesses e' j) g g'
  := by
  rw [witnesses, witnesses]
  apply parallel_get
  have hown : Forall₂ R ((g.tables i).filter fun t => !e.any (·.contains t))
      ((g'.tables j).filter fun t => !e'.any (·.contains t)) := by
    apply rel_filter _ (hg.tables hij)
    intro t t' ht
    beta_reduce
    rw [any_related _ _ he fun l l' hl => contains_eq_of_related hg.biUnique hl ht]
  generalize (g.tables i).filter _ = ts at hown
  generalize (g'.tables j).filter _ = ts' at hown
  cases hown with
  | nil => exact parallel_fail rfl
  | @cons first first' _ _ hfirst hrest =>
      apply parallel_bind (parallel_foldlM (P := fun S => S) hrest hg hfirst _)
      · intro S table table' h h' hRS hh htable
        apply parallel_get
        apply parallel_bind
          (parallel_push hh (.selection htable (conjuncts_related hh (hRS _ _ hij))) nofun)
        intro T filtered filtered' t t' hST ht hfiltered
        apply parallel_bind (parallel_push ht (.literal (.integer 1)) nofun)
        intro U one one' u u' hTU hu hone
        exact parallel_push hu (.projection (hTU _ _ hfiltered) (.cons hone .nil)) nofun
      · intro c d hcd S l l' h h' hRS hh hl
        exact parallel_push hh (.join .cross hl (hRS _ _ hcd) .nil) nofun

theorem parallel_nestQuery (hc : Compiles R compile compile') (hg : g.Similar R g')
    (hn : SimilarNested R nested nested') (hij : R i j) (kind : SubqueryKind)
    {table table' : NodeId} (ht : R table table') :
  Parallel R SimilarNested (nestQuery compile nested i kind table)
    (nestQuery compile' nested' j kind table') g g'
  := by
  rw [nestQuery, nestQuery]
  apply parallel_bind (hc (le_refl R) hg ht)
  intro S q q' h h' hRS hh hq
  exact parallel_pure hh (rel_append (hn.mono hRS) (.cons ⟨hRS _ _ hij, rfl, rfl, hq⟩ .nil))

/-- Extracting a reduction as a query of its own, or the subqueries of what it consists of. -/
theorem parallel_scalar (hc : Compiles R compile compile') (hg : g.Similar R g')
    (hn : SimilarNested R nested nested') (hij : R i j)
    {inside inside' : Analysis (List (Nested Query))}
    (hinside : Parallel R SimilarNested inside inside' g g') :
  Parallel R SimilarNested
    (if isScalar g i then
      match g.baseTable i with
      | none => Analysis.fail .reductionWithoutTable
      | some t => do
        let value ← push (.named i Graph.defaultName)
        let table ← push (.aggregation t [] [value] [])
        nestQuery compile nested i .scalar table
    else inside)
    (if isScalar g' j then
      match g'.baseTable j with
      | none => Analysis.fail .reductionWithoutTable
      | some t => do
        let value ← push (.named j Graph.defaultName)
        let table ← push (.aggregation t [] [value] [])
        nestQuery compile' nested' j .scalar table
    else inside') g g'
  := by
  rw [isScalar_eq hg hij]
  split
  · have hbase := hg.baseTable hij
    generalize g.baseTable i = x at hbase
    generalize g'.baseTable j = y at hbase
    cases hbase with
    | none => exact parallel_fail rfl
    | some ht =>
        apply parallel_bind (parallel_push hg (.named Graph.defaultName hij) nofun)
        intro S v v' h h' hRS hh hv
        apply parallel_bind (parallel_push hh
          (.aggregation (hRS _ _ ht) .nil (.cons hv .nil) .nil) nofun)
        intro T t t' k k' hST hk ht
        have hRT := hRS.trans hST
        exact parallel_nestQuery (hc.mono hRT) hk (hn.mono hRT) (hRT _ _ hij) .scalar ht
  · exact hinside

/-- Extracting the subqueries of related values, to any two depths that suffice for them. -/
theorem parallel_extract (n n' : Nat) {e e' : List (List NodeId)}
    (hc : Compiles R compile compile') (he : Enclosing R e e') (hg : g.Similar R g')
    (hn : SimilarNested R nested nested') (hij : R i j) (hi : i.index < n) (hj : j.index < n') :
  Parallel R SimilarNested (extract compile e n nested i) (extract compile' e' n' nested' j) g g'
  := by
  induction n generalizing n' R g g' nested nested' i j with
  | zero => exact absurd hi (Nat.not_lt_zero _)
  | succ n ih =>
      cases n' with
      | zero => exact absurd hj (Nat.not_lt_zero _)
      | succ n' =>
          have hchildren : Forall₂ (fun c d => R c d ∧ c.index < n ∧ d.index < n')
              (g.node i).children (g'.node j).children := by
            apply forall₂_mem (hg.node hij).children
            intro c hc d hd hcd
            have hlt := hg.wellFounded.child_lt hc
            have hlt' := hg.wellFounded'.child_lt hd
            exact ⟨hcd, by omega, by omega⟩
          have hall : ∀ {l l' : List NodeId},
              Forall₂ (fun c d => R c d ∧ c.index < n ∧ d.index < n') l l' →
              Parallel R SimilarNested (l.foldlM (extract compile e n) nested)
                (l'.foldlM (extract compile' e' n') nested') g g' := by
            intro l l' hl
            apply parallel_foldlM hl hg hn
            rintro c d ⟨hcd, hlt, hlt'⟩ S ns ns' h h' hRS hh hns
            exact ih n' (hc.mono hRS) (he.mono hRS) hh hns (hRS _ _ hcd) hlt hlt'
          have hoperands := parallel_scalar hc hg hn hij (hall hchildren)
          have hkeep : Parallel R SimilarNested (pure nested) (pure nested') g g' :=
            parallel_pure hg hn
          rw [extract, extract]
          rw [isSome_eq_of_related (nestedFor?_related hg.biUnique hn hij)]
          split
          · exact hkeep
          · apply parallel_get
            obtain ⟨m, m', hm, hm', hmm⟩ := hg.nodes hij
            rw [hm] at hchildren hoperands ⊢
            rw [hm'] at hchildren hoperands ⊢
            cases hmm with
            | any hp =>
                apply parallel_bind (parallel_witnesses (he (hg.tests hij hm)) hg hp)
                intro S t t' h h' hRS hh ht
                exact parallel_nestQuery (hc.mono hRS) hh (hn.mono hRS) (hRS _ _ hij) .exists ht
            | membership negated ha hcolumn =>
                obtain ⟨k, k', hk, hk', hkk⟩ := hg.nodes hcolumn
                simp only [hk, hk']
                cases hkk with
                | column name ht =>
                    apply parallel_bind (parallel_push hg
                      (.projection ht (.cons hcolumn .nil)) nofun)
                    intro S t t' h h' hRS hh ht
                    apply parallel_bind (parallel_nestQuery (hc.mono hRS) hh (hn.mono hRS)
                      (hRS _ _ hij) .membership ht)
                    intro T ns ns' v v' hST hv hns
                    have hRT := hRS.trans hST
                    cases hchildren with
                    | cons harg _ =>
                        exact ih n' (hc.mono hRT) (he.mono hRT) hv hns (hRT _ _ ha) harg.2.1
                          harg.2.2
                | _ => exact parallel_fail rfl
            | list => exact hall hchildren
            | column | countStar | table | view | projection | selection | aggregation | join
            | sort | limit | distinct | union => exact hkeep
            | _ => exact hoperands

/-! ### Correlation -/

/-- The tables that related values read outside of their own subqueries are related. -/
theorem outerTables_related (hg : g.Similar R g') (hn : SimilarNested R nested nested')
    (hij : R i j) :
  Forall₂ R (outerTables g nested i) (outerTables g' nested' j)
  := by
  apply hg.recurse (P := fun _ _ => Forall₂ R) _ hij
  intro below below' i j hij hnn
  rw [isSome_eq_of_related (nestedFor?_related hg.biUnique hn hij)]
  split
  · exact .nil
  · have hchildren : Forall₂ R ((g.node i).children.flatMap below)
        ((g'.node j).children.flatMap below') := rel_flatMap hnn.children fun _ _ hcd => hcd.2
    dsimp only
    revert hnn hchildren
    generalize g.node i = n
    generalize g'.node j = n'
    intro hnn hchildren
    cases hnn with
    | column _ ht => exact .cons ht.1 .nil
    | table | view | projection | selection | aggregation | join | sort | limit | distinct
    | union => exact .nil
    | _ => exact hchildren

/-- Similar queries read tables that are not theirs together. -/
theorem isCorrelated_eq (hg : g.Similar R g') {q q' : Query} (hq : q.Similar R q') :
  isCorrelated g q = isCorrelated g' q'
  := by
  cases q with
  | union l r distinct =>
      obtain ⟨l', r', rfl, _⟩ := Query.similar_union.mp hq
      rfl
  | select c nested =>
      obtain ⟨c', nested', rfl, hc, hn⟩ := Query.similar_select.mp hq
      rw [isCorrelated, isCorrelated]
      have hvalues : Forall₂ R
          ((c.select ++ c.predicates ++ c.having).filter fun id => !g.isRelation id)
          ((c'.select ++ c'.predicates ++ c'.having).filter fun id => !g'.isRelation id) := by
        apply rel_filter _ (rel_append (rel_append hc.select hc.predicates) hc.having)
        intro v v' hv
        beta_reduce
        rw [hg.isRelation_eq hv]
      apply any_related _ _ (rel_flatMap hvalues fun _ _ hv => outerTables_related hg hn hv)
      intro t t' ht
      rw [contains_eq_of_related hg.biUnique hc.leaves ht,
        contains_eq_of_related hg.biUnique hc.outputs ht]

omit [Comparison] in
theorem forceAliases_related {q q' : Query} (hq : q.Similar R q') :
  (forceAliases q).Similar R (forceAliases q')
  := by
  cases q with
  | union l r distinct =>
      obtain ⟨l', r', rfl, _⟩ := Query.similar_union.mp hq
      exact hq
  | select c nested =>
      obtain ⟨c', nested', rfl, hc, hn⟩ := Query.similar_select.mp hq
      exact .select { hc with forceAliases := rfl } hn

theorem qualifyCorrelated_related (hg : g.Similar R g') (hb : b.Similar R b') :
  (qualifyCorrelated g b).Similar R (qualifyCorrelated g' b')
  := by
  have hcorrelated : ∀ s s', Nested.Similar R (Query.Similar R) s s' →
      isCorrelatedSubquery g s = isCorrelatedSubquery g' s' := by
    intro s s' hs
    rw [isCorrelatedSubquery, isCorrelatedSubquery, hs.kind, isCorrelated_eq hg hs.query]
  rw [qualifyCorrelated, qualifyCorrelated, any_related _ _ hb.nested hcorrelated]
  split
  · have hnested : SimilarNested R
        (b.nested.map fun s => if isCorrelatedSubquery g s then s.map forceAliases else s)
        (b'.nested.map fun s => if isCorrelatedSubquery g' s then s.map forceAliases else s) := by
      apply rel_map _ hb.nested
      intro s s' hs
      beta_reduce
      rw [hcorrelated s s' hs]
      split
      · exact ⟨hs.node, hs.kind, hs.shared, forceAliases_related hs.query⟩
      · exact hs
    exact { hb with clauses := { hb.clauses with forceAliases := rfl }, nested := hnested }
  · exact hb

/-- Extracting the subqueries of related WHERE clauses. -/
theorem parallel_extractSubqueries {compile compile' : List (List NodeId) → NodeId → Analysis Query}
    {e e' : List (List NodeId)} (hc : CompilesInside R compile compile') (he : Enclosing R e e')
    (hg : g.Similar R g') (hb : b.Similar R b') :
  Parallel R (fun S => Block.Similar S) (b.extractSubqueries compile e)
    (b'.extractSubqueries compile' e') g g'
  := by
  rw [extractSubqueries, extractSubqueries]
  simp only [eq_nil_iff_of_related hb.clauses.predicates]
  split
  · exact parallel_pure hg hb
  · have hinside : Enclosing R (e ++ [b.clauses.leaves]) (e' ++ [b'.clauses.leaves]) :=
      fun hentire => rel_append (he hentire) (.cons hb.clauses.leaves .nil)
    apply parallel_bind
      (parallel_foldlM (P := SimilarNested) hb.clauses.predicates hg hb.nested _)
    · intro S nested nested' h h' hRS hh hn
      apply parallel_get
      apply parallel_pure hh
      exact qualifyCorrelated_related hh { hb.mono hRS with nested := hn }
    · intro p p' hp S ns ns' h h' hRS hh hns
      exact parallel_extract _ _ (hc hRS (hinside.mono hRS)) (hinside.mono hRS) hh hns
        (hRS _ _ hp) (Nat.lt_succ_self _) (Nat.lt_succ_self _)

end Block

end RelSql
