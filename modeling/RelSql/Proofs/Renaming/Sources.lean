import RelSql.Block.Core
import RelSql.Proofs.Renaming.Blocks

/-!
# Sources and cores over similar graphs

Folding related tables into similar blocks goes in parallel, as long as compiling related tables
does.

Folding what stands at the top of related tables, and the projections, aggregations and other
tables below, goes in parallel.
-/

/-! ## The FROM clause over similar graphs -/

namespace RelSql

open List Relator Analysis

variable [Comparison]

/-- Compiling related tables goes in parallel, from all graphs that are similar along a relation
with all pairs of `R`. -/
def Compiles (R : Matching) (compile compile' : NodeId → Analysis Query) : Prop :=
  ∀ {S g g' i j}, R ≤ S → g.Similar S g' → S i j →
    Parallel S (fun S => Query.Similar S) (compile i) (compile' j) g g'

theorem Compiles.mono {R S : Matching} {compile compile' : NodeId → Analysis Query}
    (h : Compiles R compile compile') (hRS : R ≤ S) :
  Compiles S compile compile'
  := fun hST => h (hRS.trans hST)

namespace Block

variable {R : Matching} {g g' : Graph} {b b' : Block} {i j : NodeId}
  {compile compile' : NodeId → Analysis Query}

theorem parallel_leaf (hc : Compiles R compile compile') (hg : g.Similar R g')
    (hb : b.Similar R b') (hij : R i j) :
  Parallel R (fun S => Block.Similar S) (b.leaf compile i) (b'.leaf compile' j) g g'
  := by
  rw [leaf, leaf]
  apply parallel_get
  have hbody := hg.body hij
  have hfail : Parallel R (fun S => Block.Similar S)
      (fail (.sourceNotATable (g.display (g.body i))))
      (fail (.sourceNotATable (g'.display (g'.body j)))) g g' := parallel_fail rfl
  have hcompile : Parallel R (fun S => Block.Similar S)
      (if (derivedFor? b.nested i).isSome then return b
      else do
        let query ← compile (g.body i)
        return b.nest ⟨i, .table, none, query⟩)
      (if (derivedFor? b'.nested j).isSome then return b'
      else do
        let query ← compile' (g'.body j)
        return b'.nest ⟨j, .table, none, query⟩) g g' := by
    rw [isSome_eq_of_related (derivedFor?_related hg.biUnique hb.nested hij)]
    split
    · exact parallel_pure hg hb
    · apply parallel_bind (hc (le_refl R) hg hbody)
      intro S q q' h h' hRS hh hq
      exact parallel_pure hh ((hb.mono hRS).nest ⟨hRS _ _ hij, rfl, rfl, hq⟩)
  obtain ⟨n, n', hn, hn', hnn⟩ := hg.nodes hbody
  simp only [hn, hn']
  cases hnn with
  | table t =>
      simp only
      split
      · exact parallel_fail rfl
      · exact parallel_pure hg hb
  | view | projection | selection | aggregation | join | sort | limit | distinct | union =>
      exact hcompile
  | _ => exact hfail

/-- Whether predicates can be evaluated below a projection. -/
theorem parallel_keeps {p p' : Peeled} (hg : g.Similar R g') (hp : p.Similar R p') :
  Parallel R (fun _ => Eq)
    (if g.isProjection p.table then pushable (p.chain ++ [p.table]) p.predicates
      else return false)
    (if g'.isProjection p'.table then pushable (p'.chain ++ [p'.table]) p'.predicates
      else return false) g g'
  := by
  rw [hg.isProjection_eq hp.table]
  split
  · exact parallel_pushable hg (rel_append hp.chain (.cons hp.table .nil)) hp.predicates
  · exact parallel_pure hg rfl

/-- An operand is what it was, or the table below its selections. -/
theorem parallel_operand (hoist left : Bool) (hg : g.Similar R g') (hb : b.Similar R b')
    (hij : R i j) :
  Parallel R (fun S p p' => p.1.Similar S p'.1 ∧ S p.2.1 p'.2.1 ∧ Forall₂ S p.2.2 p'.2.2
      ∧ p.2.1.index ≤ i.index ∧ p'.2.1.index ≤ j.index)
    (b.operand i hoist left) (b'.operand j hoist left) g g'
  := by
  rw [operand, operand]
  apply parallel_get
  dsimp only
  have hpeel := hg.peel hij
  rw [isEmpty_related hpeel.chain]
  split
  · exact parallel_pure hg ⟨hb, hij, .nil, Nat.le_refl _, Nat.le_refl _⟩
  · apply parallel_bind (parallel_keeps hg hpeel)
    rintro S pushes _ h h' hRS hh rfl
    split
    · exact parallel_pure hh ⟨hb.mono hRS, hRS _ _ hij, .nil, Nat.le_refl _, Nat.le_refl _⟩
    · rw [hg.isJoin_eq hpeel.table]
      split
      · exact parallel_pure hh ⟨hb.mono hRS, hRS _ _ hij, .nil, Nat.le_refl _, Nat.le_refl _⟩
      · apply parallel_pure hh
        exact ⟨(hb.mono hRS).foldAll (hpeel.chain.imp hRS), hRS _ _ hpeel.table,
          hpeel.predicates.imp hRS, hg.wellFounded.peel_le i, hg.wellFounded'.peel_le j⟩

/-- The tables of related joins, to any two depths that suffice for them. -/
theorem parallel_joinedTables (n n' : Nat) (hc : Compiles R compile compile')
    (hg : g.Similar R g') (hb : b.Similar R b') (hij : R i j) (hn : i.index < n)
    (hn' : j.index < n') :
  Parallel R (fun S p p' => p.1.Similar S p'.1 ∧ p.2.1.Similar S p'.2.1
      ∧ Forall₂ S p.2.2 p'.2.2)
    (joinedTables compile n b i) (joinedTables compile' n' b' j) g g'
  := by
  induction n generalizing n' R g g' b b' i j with
  | zero => exact absurd hn (Nat.not_lt_zero _)
  | succ n ih =>
      cases n' with
      | zero => exact absurd hn' (Nat.not_lt_zero _)
      | succ n' =>
          have hleaf : Parallel R (fun S p p' => p.1.Similar S p'.1 ∧ p.2.1.Similar S p'.2.1
              ∧ Forall₂ S p.2.2 p'.2.2)
              (do
                let b ← b.leaf compile i
                return (b, TableSet.leaf i, []))
              (do
                let b ← b'.leaf compile' j
                return (b, TableSet.leaf j, [])) g g' := by
            apply parallel_bind (parallel_leaf hc hg hb hij)
            intro S c c' h h' hRS hh hcc
            exact parallel_pure hh ⟨hcc, ⟨hRS _ _ hij, hRS _ _ hij, .nil⟩, .nil⟩
          rw [joinedTables, joinedTables]
          apply parallel_get
          have hlt : ∀ c ∈ (g.node i).children, c.index < n := by
            intro c hc
            have hlt := hg.wellFounded.child_lt hc
            omega
          have hlt' : ∀ c ∈ (g'.node j).children, c.index < n' := by
            intro c hc
            have hlt := hg.wellFounded'.child_lt hc
            omega
          obtain ⟨m, m', hm, hm', hmm⟩ := hg.nodes hij
          rw [hm] at hlt ⊢
          rw [hm'] at hlt' ⊢
          cases hmm with
          | @join kind _ _ _ _ ps ps' hl hr hp =>
              apply parallel_bind (parallel_operand _ true hg (hb.fold hij) hl)
              rintro S ⟨c, l, hoisted⟩ ⟨c', l', hoisted'⟩ h h' hRS hh ⟨hcc, hll, hhoisted, hle, hle'⟩
              have hl := hlt _ mem_cons_self
              have hl' := hlt' _ mem_cons_self
              apply parallel_bind (ih n' (hc.mono hRS) hh hcc hll (Nat.lt_of_le_of_lt hle hl)
                (Nat.lt_of_le_of_lt hle' hl'))
              rintro T ⟨d, tables, inner⟩ ⟨d', tables', inner'⟩ k k' hST hk ⟨hdd, htables, hinner⟩
              apply parallel_bind
                (parallel_operand _ false hk hdd ((hRS.trans hST) _ _ hr))
              rintro U ⟨e, r, filters⟩ ⟨e', r', filters'⟩ v v' hTU hv ⟨hee, hrr, hfilters, _⟩
              have hRU := (hRS.trans hST).trans hTU
              apply parallel_bind (parallel_leaf (hc.mono hRU) hv hee hrr)
              intro V f f' w w' hUV hw hff
              apply parallel_pure hw
              refine ⟨hff, ?_, ?_⟩
              · have ht := (htables.mono hTU).mono hUV
                have hclause : JoinClause.Similar V ⟨if ps = [] then .cross else kind, r, ps⟩
                    ⟨if ps' = [] then .cross else kind, r', ps'⟩ :=
                  ⟨by simp only [eq_nil_iff_of_related hp], hUV _ _ hrr, hp.imp (hRU.trans hUV)⟩
                exact { ht with joins := rel_append ht.joins (.cons hclause .nil) }
              · exact rel_append (rel_append (hinner.imp (hTU.trans hUV))
                  (hhoisted.imp (hST.trans (hTU.trans hUV)))) (hfilters.imp hUV)
          | _ => exact hleaf

/-- The FROM clause of a related table, and the predicates taken over. -/
theorem parallel_fromTables (hc : Compiles R compile compile') (hg : g.Similar R g')
    (hb : b.Similar R b') (hij : R i j) :
  Parallel R (fun S p p' => p.1.Similar S p'.1 ∧ Forall₂ S p.2 p'.2)
    (b.fromTables compile i) (b'.fromTables compile' j) g g'
  := by
  rw [fromTables, fromTables]
  apply parallel_bind (parallel_joinedTables _ _ hc hg hb hij (Nat.lt_succ_self _)
    (Nat.lt_succ_self _))
  rintro S ⟨c, tables, hoisted⟩ ⟨c', tables', hoisted'⟩ h h' hRS hh ⟨hcc, htables, hhoisted⟩
  apply parallel_pure hh
  exact ⟨{ hcc with clauses := { hcc.clauses with from? := .some htables } }, hhoisted⟩

theorem parallel_fromSource (hc : Compiles R compile compile') (hg : g.Similar R g')
    (hb : b.Similar R b') (hij : R i j) :
  Parallel R (fun S p p' => p.1.Similar S p'.1 ∧ Forall₂ S p.2 p'.2)
    (b.fromSource compile i) (b'.fromSource compile' j) g g'
  := by
  rw [fromSource, fromSource]
  apply parallel_get
  dsimp only
  have hpeel := hg.peel hij
  rw [isEmpty_related hpeel.chain]
  split
  · exact parallel_fromTables hc hg hb hij
  · apply parallel_bind (parallel_keeps hg hpeel)
    rintro S pushes _ h h' hRS hh rfl
    split
    · apply parallel_bind (parallel_leaf (hc.mono hRS) hh (hb.mono hRS) (hRS _ _ hij))
      intro T c c' k k' hST hk hcc
      have hleaf : TableSet.Similar T (.leaf i) (.leaf j) :=
        ⟨(hRS.trans hST) _ _ hij, (hRS.trans hST) _ _ hij, .nil⟩
      exact parallel_pure hk
        ⟨{ hcc with clauses := { hcc.clauses with from? := .some hleaf } }, .nil⟩
    · apply parallel_bind (parallel_fromTables (hc.mono hRS) hh
        ((hb.mono hRS).foldAll (hpeel.chain.imp hRS)) (hRS _ _ hpeel.table))
      rintro T ⟨c, filters⟩ ⟨c', filters'⟩ k k' hST hk ⟨hcc, hfilters⟩
      exact parallel_pure hk ⟨hcc, rel_append hfilters (hpeel.predicates.imp (hRS.trans hST))⟩

end Block

end RelSql

/-! ## The core of a block over similar graphs -/

namespace RelSql.Block

open List Relator Analysis

variable [Comparison]

variable {R : Matching} {g g' : Graph} {b b' : Block} {i j : NodeId}
  {compile compile' : NodeId → Analysis Query}

/-- A block, and the table that is still to be folded into it. -/
abbrev Remains (R : Matching) (p p' : Block × NodeId) : Prop :=
  p.1.Similar R p'.1 ∧ R p.2 p'.2

omit [Comparison] in
theorem Similar.selecting (h : b.Similar R b') {select select' ps ps' : List NodeId}
    (hselect : Forall₂ R select select') (hp : Forall₂ R ps ps') :
  (b.selecting select ps).Similar R (b'.selecting select' ps')
  := { h with clauses := { h.clauses with select := hselect, predicates := hp } }

/-- Related limits cut alike. -/
theorem limit_eq (hg : g.Similar R g') {l l' : List NodeId} (h : Forall₂ R l l') :
  (match l.head?.map g.node with
    | some (.limit _ n offset) => some (LimitClause.mk n offset)
    | _ => none)
  = match l'.head?.map g'.node with
    | some (.limit _ n offset) => some (LimitClause.mk n offset)
    | _ => none
  := by
  cases h with
  | nil => rfl
  | cons hcd _ =>
      obtain ⟨n, n', hn, hn', hnn⟩ := hg.nodes hcd
      simp only [head?_cons, Option.map_some, hn, hn']
      cases hnn <;> rfl

theorem parallel_foldLimits (hg : g.Similar R g') (hb : b.Similar R b') (hij : R i j) :
  Parallel R Remains (b.foldLimits i) (b'.foldLimits j) g g'
  := by
  rw [foldLimits, foldLimits]
  apply parallel_get
  dsimp only
  obtain ⟨hlimits, htable⟩ := hg.chain Graph.Similar.steps_limit hij
  have hfold := hb.foldAll hlimits
  exact parallel_pure hg
    ⟨{ hfold with clauses := { hfold.clauses with limit := limit_eq hg hlimits } }, htable⟩

theorem parallel_foldSortsBy {choose : Graph → List NodeId → List SortKey}
    (hchoose : ∀ l l', Forall₂ R l l' →
      Forall₂ (SortKey.Similar R) (choose g l) (choose g' l'))
    (hg : g.Similar R g') (hb : b.Similar R b') (hij : R i j) :
  Parallel R Remains (foldSortsBy choose b i) (foldSortsBy choose b' j) g g'
  := by
  rw [foldSortsBy, foldSortsBy]
  apply parallel_get
  dsimp only
  obtain ⟨hsorts, htable⟩ := hg.chain Graph.Similar.steps_sort hij
  have hfold := hb.foldAll hsorts
  have horder : Forall₂ (SortKey.Similar R)
      (if b.clauses.orderBy = [] then choose g (g.chain Graph.sortInput? i).1
        else b.clauses.orderBy)
      (if b'.clauses.orderBy = [] then choose g' (g'.chain Graph.sortInput? j).1
        else b'.clauses.orderBy) := by
    simp only [eq_nil_iff_of_related hb.clauses.orderBy]
    split
    · exact hchoose _ _ hsorts
    · exact hb.clauses.orderBy
  exact parallel_pure hg
    ⟨{ hfold with clauses := { hfold.clauses with orderBy := horder } }, htable⟩

/-- The keys of the outermost sort are related. -/
theorem parallel_foldTopSorts (hg : g.Similar R g') (hb : b.Similar R b') (hij : R i j) :
  Parallel R Remains (foldTopSorts b i) (foldTopSorts b' j) g g'
  := by
  apply parallel_foldSortsBy _ hg hb hij
  intro l l' hl
  cases hl with
  | nil => exact .nil
  | cons hcd _ => exact hg.sortKeysOf hcd

/-- The keys of the outermost sort with keys are related. -/
theorem parallel_foldInnerSorts (hg : g.Similar R g') (hb : b.Similar R b') (hij : R i j) :
  Parallel R Remains (foldInnerSorts b i) (foldInnerSorts b' j) g g'
  := by
  apply parallel_foldSortsBy _ hg hb hij
  intro l l' hl
  have hkeys : Forall₂ (Forall₂ (SortKey.Similar R)) (l.map g.sortKeysOf)
      (l'.map g'.sortKeysOf) := rel_map (fun _ _ hcd => hg.sortKeysOf hcd) hl
  have hfind := find?_related (· ≠ []) (· ≠ []) hkeys fun ks ks' hks => by
    simp only [ne_eq, eq_nil_iff_of_related hks]
  generalize find? _ (l.map g.sortKeysOf) = x at hfind ⊢
  generalize find? _ (l'.map g'.sortKeysOf) = y at hfind ⊢
  cases hfind with
  | some hks => exact hks
  | none => exact .nil

theorem parallel_foldDistinct (hg : g.Similar R g') (hb : b.Similar R b') (hij : R i j) :
  Parallel R Remains (b.foldDistinct i) (b'.foldDistinct j) g g'
  := by
  rw [foldDistinct, foldDistinct]
  apply parallel_get
  obtain ⟨n, n', hn, hn', hnn⟩ := hg.nodes hij
  rw [hn, hn']
  cases hnn with
  | distinct ht =>
      have hfold := hb.fold hij
      exact parallel_pure hg ⟨{ hfold with clauses := { hfold.clauses with distinct := rfl } }, ht⟩
  | _ => exact parallel_pure hg ⟨hb, hij⟩

theorem parallel_projection (hc : Compiles R compile compile') (hg : g.Similar R g')
    (hb : b.Similar R b') (hij : R i j) {ps ps' : List NodeId} (hp : Forall₂ R ps ps') :
  Parallel R (fun S => Block.Similar S) (b.projection compile i ps)
    (b'.projection compile' j ps') g g'
  := by
  rw [projection, projection]
  apply parallel_bind (parallel_fuseAll _ _ hg (hb.output hij) hij
    (Nat.lt_succ_of_le (hg.wellFounded.fusionDepth_le i))
    (Nat.lt_succ_of_le (hg.wellFounded'.fusionDepth_le j)))
  rintro S ⟨c, core⟩ ⟨c', core'⟩ h h' hRS hh ⟨hcc, hcore⟩
  apply parallel_get
  obtain ⟨n, n', hn, hn', hnn⟩ := hh.nodes hcore
  simp only [hn, hn']
  cases hnn with
  | projection hinput hselections =>
      apply parallel_bind (parallel_foldInnerSorts hh hcc hinput)
      rintro T ⟨d, source⟩ ⟨d', source'⟩ k k' hST hk ⟨hdd, hsource⟩
      apply parallel_bind (parallel_fromSource (hc.mono (hRS.trans hST)) hk hdd hsource)
      rintro U ⟨e, filters⟩ ⟨e', filters'⟩ v v' hTU hv ⟨hee, hfilters⟩
      apply parallel_pure hv
      exact hee.selecting (hselections.imp (hST.trans hTU))
        (rel_append hfilters (hp.imp (hRS.trans (hST.trans hTU))))
  | _ => exact parallel_pure hh hcc

theorem parallel_aggregation (hc : Compiles R compile compile') (hg : g.Similar R g')
    (hb : b.Similar R b') (hij : R i j) {ps ps' : List NodeId} (hp : Forall₂ R ps ps') :
  Parallel R (fun S => Block.Similar S) (b.aggregation compile i ps)
    (b'.aggregation compile' j ps') g g'
  := by
  rw [aggregation, aggregation]
  apply parallel_get
  obtain ⟨n, n', hn, hn', hnn⟩ := hg.nodes hij
  rw [hn, hn']
  cases hnn with
  | aggregation hinput hkeys hmetrics hhaving =>
      apply parallel_bind (parallel_fromSource hc hg (hb.output hij) hinput)
      rintro S ⟨c, filters⟩ ⟨c', filters'⟩ h h' hRS hh ⟨hcc, hfilters⟩
      apply parallel_pure hh
      have hselecting := hcc.selecting ((rel_append hkeys hmetrics).imp hRS) hfilters
      exact { hselecting with
        aggregate := rfl
        clauses := { hselecting.clauses with
          groupBy := by rw [hkeys.length_eq]
          having := (rel_append hhaving hp).imp hRS } }
  | _ => exact parallel_pure hg hb

/-- The blocks of related tables that are no aggregations. -/
theorem parallel_unaggregated (hc : Compiles R compile compile') (hg : g.Similar R g')
    (hb : b.Similar R b') (hij : R i j) :
  Parallel R (fun S => Block.Similar S)
    (do
      if ← (if g.isProjection (g.peel i).table
          then pushable ((g.peel i).chain ++ [(g.peel i).table]) (g.peel i).predicates
          else return false) then
        (b.foldAll (g.peel i).chain).projection compile (g.peel i).table (g.peel i).predicates
      else
        let (b, filters) ← (b.foldAll (g.peel i).chain).fromTables compile (g.peel i).table
        return b.selecting [(g.peel i).table] (filters ++ (g.peel i).predicates))
    (do
      if ← (if g'.isProjection (g'.peel j).table
          then pushable ((g'.peel j).chain ++ [(g'.peel j).table]) (g'.peel j).predicates
          else return false) then
        (b'.foldAll (g'.peel j).chain).projection compile' (g'.peel j).table (g'.peel j).predicates
      else
        let (b, filters) ← (b'.foldAll (g'.peel j).chain).fromTables compile' (g'.peel j).table
        return b.selecting [(g'.peel j).table] (filters ++ (g'.peel j).predicates))
    g g'
  := by
  have hpeel := hg.peel hij
  have hfold := hb.foldAll hpeel.chain
  apply parallel_bind (parallel_keeps hg hpeel)
  rintro S pushes _ h h' hRS hh rfl
  split
  · exact parallel_projection (hc.mono hRS) hh (hfold.mono hRS) (hRS _ _ hpeel.table)
      (hpeel.predicates.imp hRS)
  · apply parallel_bind (parallel_fromTables (hc.mono hRS) hh (hfold.mono hRS)
      (hRS _ _ hpeel.table))
    rintro T ⟨c, filters⟩ ⟨c', filters'⟩ k k' hST hk ⟨hcc, hfilters⟩
    apply parallel_pure hk
    exact hcc.selecting (.cons (hST _ _ (hRS _ _ hpeel.table)) .nil)
      (rel_append hfilters (hpeel.predicates.imp (hRS.trans hST)))

/-- The blocks of related tables. -/
theorem parallel_core (hc : Compiles R compile compile') (hg : g.Similar R g')
    (hb : b.Similar R b') (hij : R i j) :
  Parallel R (fun S => Block.Similar S) (b.core compile i) (b'.core compile' j) g g'
  := by
  rw [core, core]
  apply parallel_get
  rw [hg.isRelation_eq hij]
  split
  · exact parallel_fail rfl
  · have hpeel := hg.peel hij
    dsimp only
    obtain ⟨n, n', hn, hn', hnn⟩ := hg.nodes hpeel.table
    rw [hn, hn']
    cases hnn with
    | aggregation =>
        exact parallel_aggregation hc hg (hb.foldAll hpeel.chain) hpeel.table hpeel.predicates
    | _ => exact parallel_unaggregated hc hg hb hij

end RelSql.Block
