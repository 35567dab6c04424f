import RelSql.Proofs.Block.Fusion
import RelSql.Proofs.Renaming.Typing
import RelSql.Proofs.Renaming.Queries

/-!
# Blocks over similar graphs

Two analyses go in parallel from similar graphs when both fail, with faults of one kind, or both
succeed: what they give is related then, and so are the graphs they lead to, along a relation
that has all pairs of the given one.
-/

namespace RelSql

open List Relator

variable [Comparison]

/-- Testing related predicates. -/
theorem Graph.Similar.pushable {R : Matching} {g g' : Graph} (h : g.Similar R g') {fused fused' ps ps' : List NodeId}
    (hf : Forall₂ R fused fused') (hp : Forall₂ R ps ps') :
  ∃ S, R ≤ S ∧ (Lift.pushable (.of fused) ps g).2.Similar S (Lift.pushable (.of fused') ps' g').2
    ∧ (Lift.pushable (.of fused) ps g).1 = (Lift.pushable (.of fused') ps' g').1
  := Lift.run_related (Lift.parallel_pushableM (le_refl R) (.of hf) ⟨h, .nil⟩ hp)

/-! ### Analyses in parallel -/

namespace Analysis

variable {α β γ δ : Type} {R : Matching} {g g' : Graph}

/-- The kind of the fault that an analysis fails with. -/
def Failure.kind (f : Failure) : CompileError.Kind := f.error.kind

/-- Both analyses give results, which are related, or both fail.  If all is compared, their faults
are of one kind, and otherwise one of them may fail alone. -/
inductive Outcomes (P : α → β → Prop) : Except Failure α → Except Failure β → Prop where
  | ok {a b} (h : P a b) : Outcomes P (.ok a) (.ok b)
  | error {e e'} (h : Comparison.entire → Failure.kind e = Failure.kind e') :
    Outcomes P (.error e) (.error e')
  | left {e b} (h : ¬ Comparison.entire) : Outcomes P (.error e) (.ok b)
  | right {a e'} (h : ¬ Comparison.entire) : Outcomes P (.ok a) (.error e')

namespace Outcomes

variable {P : α → β → Prop} {Q : γ → δ → Prop} {x : Except Failure α} {y : Except Failure β}

theorem of_agree (h : Agree Failure.kind P x y) :
  Outcomes P x y
  := by
  cases h with
  | ok hab => exact .ok hab
  | error he => exact .error fun _ => he

theorem agree (h : Outcomes P x y) (hentire : Comparison.entire) :
  Agree Failure.kind P x y
  := by
  cases h with
  | ok hab => exact .ok hab
  | error he => exact .error (he hentire)
  | left hnot | right hnot => exact absurd hentire hnot

theorem bind {f : α → Except Failure γ} {f' : β → Except Failure δ} (h : Outcomes P x y)
    (hf : ∀ a b, P a b → Outcomes Q (f a) (f' b)) :
  Outcomes Q (x >>= f) (y >>= f')
  := by
  cases h with
  | ok hab => exact hf _ _ hab
  | error he => exact .error he
  | @left e b hnot =>
      change Outcomes Q (.error e) (f' b)
      cases f' b with
      | ok _ => exact .left hnot
      | error _ => exact .error fun hentire => absurd hentire hnot
  | @right a e' hnot =>
      change Outcomes Q (f a) (.error e')
      cases f a with
      | ok _ => exact .right hnot
      | error _ => exact .error fun hentire => absurd hentire hnot

theorem imp {P' : α → β → Prop} (h : Outcomes P x y) (hP : ∀ a b, P a b → P' a b) :
  Outcomes P' x y
  := by
  cases h with
  | ok hab => exact .ok (hP _ _ hab)
  | error he => exact .error he
  | left hnot => exact .left hnot
  | right hnot => exact .right hnot

end Outcomes

/-- From the two graphs the analyses fail alike, or lead to graphs that are similar along a relation
with all pairs of `R`, and what they give is related by `P` along it. -/
def Parallel (R : Matching) (P : Matching → α → β → Prop) (m : Analysis α) (m' : Analysis β)
    (g g' : Graph) : Prop :=
  Outcomes (fun x y => ∃ S, R ≤ S ∧ x.2.Similar S y.2 ∧ P S x.1 y.1) (m.run g) (m'.run g')

variable {P : Matching → α → β → Prop} {Q : Matching → γ → δ → Prop}

theorem parallel_pure {a : α} {b : β} (hg : g.Similar R g') (h : P R a b) :
  Parallel R P (pure a) (pure b) g g'
  := .ok ⟨R, le_refl R, hg, h⟩

theorem parallel_fail {e e' : CompileError} (h : e.kind = e'.kind) :
  Parallel R P (fail e) (fail e') g g'
  := .error fun _ => h

/-- An analysis that fails is not compared with others, if not all is. -/
theorem parallel_fails {e : CompileError} {m : Analysis β} (h : ¬ Comparison.entire) :
  Parallel R P (fail e) m g g'
  := by
  rw [Parallel]
  change Outcomes _ (.error ⟨e, g⟩) (m.run g')
  cases m.run g' with
  | ok _ => exact .left h
  | error _ => exact .error fun hentire => absurd hentire h

theorem parallel_failed {e : CompileError} {m : Analysis α} (h : ¬ Comparison.entire) :
  Parallel R P m (fail e) g g'
  := by
  rw [Parallel]
  change Outcomes _ (m.run g) (.error ⟨e, g'⟩)
  cases m.run g with
  | ok _ => exact .right h
  | error _ => exact .error fun hentire => absurd hentire h

theorem parallel_bind {m : Analysis α} {m' : Analysis β} {f : α → Analysis γ}
    {f' : β → Analysis δ} (hm : Parallel R P m m' g g')
    (hf : ∀ S a b h h', R ≤ S → h.Similar S h' → P S a b → Parallel S Q (f a) (f' b) h h') :
  Parallel R Q (m >>= f) (m' >>= f') g g'
  := by
  rw [Parallel, StateT.run_bind, StateT.run_bind]
  apply Outcomes.bind hm
  rintro ⟨a, h⟩ ⟨b, h'⟩ ⟨S, hRS, hh, hab⟩
  apply (hf S a b h h' hRS hh hab).imp
  rintro ⟨c, k⟩ ⟨d, k'⟩ ⟨T, hST, hk, hcd⟩
  exact ⟨T, hRS.trans hST, hk, hcd⟩

/-- Looking at the graphs changes nothing. -/
theorem parallel_get {f : Graph → Analysis α} {f' : Graph → Analysis β}
    (h : Parallel R P (f g) (f' g') g g') :
  Parallel R P (get >>= f) (get >>= f') g g'
  := h

theorem parallel_push {n n' : Node} (hg : g.Similar R g') (hnn : n.Similar R n')
    (htest : ∀ p, n = .any p → Comparison.entire) :
  Parallel R (fun S => S) (push n) (push n') g g'
  := .ok ⟨_, R.le_insert _ _, hg.push hnn htest, .inr ⟨rfl, rfl⟩⟩

/-- Changing the graphs in parallel. -/
theorem parallel_modifyGet {f : Graph → α × Graph} {f' : Graph → β × Graph}
    (h : ∃ S, R ≤ S ∧ (f g).2.Similar S (f' g').2 ∧ P S (f g).1 (f' g').1) :
  Parallel R P (modifyGet f) (modifyGet f') g g'
  := .ok h

/-- Going on in parallel after the graphs have been changed. -/
theorem parallel_modifyGet_bind {S : Matching} {f : Graph → α × Graph} {f' : Graph → β × Graph}
    {k : α → Analysis γ} {k' : β → Analysis δ} (hRS : R ≤ S)
    (h : Parallel S Q (k (f g).1) (k' (f' g').1) (f g).2 (f' g').2) :
  Parallel R Q (modifyGet f >>= k) (modifyGet f' >>= k') g g'
  := by
  apply Outcomes.imp h
  rintro ⟨a, k⟩ ⟨b, k'⟩ ⟨T, hST, hk, hab⟩
  exact ⟨T, hRS.trans hST, hk, hab⟩

/-- Lifting from states in which nothing has been lifted. -/
theorem parallel_lifted {m : LiftM α} {m' : LiftM β}
    (h : LiftM.Parallel R P m m' ⟨g, []⟩ ⟨g', []⟩) :
  Parallel R P (lifted m) (lifted m') g g'
  := parallel_modifyGet (Lift.run_related h)

theorem parallel_pushable {fused fused' ps ps' : List NodeId} (hg : g.Similar R g')
    (hf : Forall₂ R fused fused') (hp : Forall₂ R ps ps') :
  Parallel R (fun _ => Eq) (pushable fused ps) (pushable fused' ps') g g'
  := parallel_modifyGet (hg.pushable hf hp)

/-- One computation for each element of related lists. -/
theorem parallel_mapM {T : α → γ → Prop} {P : Matching → β → δ → Prop}
    (hP : ∀ b d, Monotone fun S => P S b d) {f : α → Analysis β} {f' : γ → Analysis δ}
    {l : List α} {l' : List γ} (hl : Forall₂ T l l') (hg : g.Similar R g')
    (hf : ∀ a c, T a c → ∀ S h h', R ≤ S → h.Similar S h' → Parallel S P (f a) (f' c) h h') :
  Parallel R (fun S => Forall₂ (P S)) (l.mapM f) (l'.mapM f') g g'
  := by
  induction hl generalizing R g g' with
  | nil =>
      rw [mapM_nil, mapM_nil]
      exact parallel_pure hg .nil
  | cons hac _ ih =>
      rw [mapM_cons, mapM_cons]
      apply parallel_bind (hf _ _ hac R g g' (le_refl R) hg)
      intro S b d h h' hRS hh hbd
      apply parallel_bind (ih hh fun a c hac U k k' hSU => hf a c hac U k k' (hRS.trans hSU))
      intro U bs ds k k' hSU hk hbds
      exact parallel_pure hk (.cons (hP b d hSU hbd) hbds)

/-- One computation for each element of related lists, each from what the ones before have
made. -/
theorem parallel_foldlM {T : α → γ → Prop} {P : Matching → β → δ → Prop}
    {f : β → α → Analysis β} {f' : δ → γ → Analysis δ} {l : List α} {l' : List γ}
    (hl : Forall₂ T l l') {b : β} {d : δ} (hg : g.Similar R g') (hb : P R b d)
    (hf : ∀ a c, T a c → ∀ S b d h h', R ≤ S → h.Similar S h' → P S b d →
      Parallel S P (f b a) (f' d c) h h') :
  Parallel R P (l.foldlM f b) (l'.foldlM f' d) g g'
  := by
  induction hl generalizing R g g' b d with
  | nil => exact parallel_pure hg hb
  | cons hac _ ih =>
      rw [foldlM_cons, foldlM_cons]
      apply parallel_bind (hf _ _ hac R b d g g' (le_refl R) hg hb)
      intro S b d h h' hRS hh hbd
      exact ih hh hbd fun a c hac U b d k k' hSU => hf a c hac U b d k k' (hRS.trans hSU)

end Analysis

/-! ### Similar blocks -/

/-- The same clauses, nested queries and folded operators, on related values and tables. -/
structure Block.Similar (R : Matching) (b b' : Block) : Prop where
  clauses : b.clauses.Similar R b'.clauses
  nested : Forall₂ (Nested.Similar R (Query.Similar R)) b.nested b'.nested
  folding : b.folding.Similar R b'.folding
  aggregate : b.aggregate = b'.aggregate

namespace Block.Similar

omit [Comparison]

variable {R S : Matching} {b b' : Block} {i j : NodeId}

theorem mono (h : b.Similar R b') (hRS : R ≤ S) :
  b.Similar S b'
  := ⟨h.clauses.mono hRS, h.nested.imp fun _ _ hs => hs.imp hRS fun hq => hq.mono hRS,
    h.folding.mono hRS, h.aggregate⟩

theorem ofNode (hij : R i j) :
  (Block.ofNode i).Similar R (.ofNode j)
  := ⟨⟨hij, .nil, .nil, .none, .nil, rfl, .nil, .nil, rfl, rfl, rfl,
    ⟨⟨.nil, rfl, rfl, rfl⟩, .nil⟩⟩, .nil, ⟨.nil, .nil, .none⟩, rfl⟩

theorem foldAll (h : b.Similar R b') {l l' : List NodeId} (hl : Forall₂ R l l') :
  (b.foldAll l).Similar R (b'.foldAll l')
  := { h with folding := { h.folding with fused := rel_append h.folding.fused hl } }

theorem fold (h : b.Similar R b') (hij : R i j) :
  (b.fold i).Similar R (b'.fold j)
  := h.foldAll (.cons hij .nil)

theorem output (h : b.Similar R b') (hij : R i j) :
  (b.output i).Similar R (b'.output j)
  := { h with
    folding := { h.folding with
      fused := rel_append h.folding.fused (.cons hij .nil)
      outputs := rel_append h.folding.outputs (.cons hij .nil) }
    clauses := { h.clauses with
      outputs := rel_append h.clauses.outputs (.cons hij .nil) } }

theorem nest (h : b.Similar R b') {s s' : Nested Query} (hs : s.Similar R (Query.Similar R) s') :
  (b.nest s).Similar R (b'.nest s')
  := { h with nested := rel_append h.nested (.cons hs .nil) }

end Block.Similar

/-! ### Fusion -/

/-- Related projections that replace related ones. -/
structure Fused.Similar (R : Matching) (f f' : Fused) : Prop where
  node : R f.node f'.node
  absorbed : Forall₂ R f.absorbed f'.absorbed

namespace Fused

open LiftM

variable {R : Matching} {s s' : Folding} {st st' : LiftState} {i j : NodeId}

theorem parallel_items (hs : s.Similar R s') (hst : st.Similar R st') {l l' : List NodeId}
    (hl : Forall₂ R l l') (hij : R i j) :
  Parallel R (fun S => Forall₂ S) (items s l i) (items s' l' j) st st'
  := by
  rw [items, items, hs.contains_eq hst.graph.biUnique hij]
  split
  · exact parallel_pure hst hl
  · apply parallel_get
    rw [hst.graph.isRelation_eq hij]
    split
    · exact parallel_pure hst (.cons hij .nil)
    · apply parallel_bind (Lift.parallel_named .substitute hs hst hij)
      intro S a b t t' _ ht hab
      exact parallel_pure ht (.cons hab .nil)

theorem parallel_input (hs : s.Similar R s') (hst : st.Similar R st') {ps ps' : List NodeId}
    (hij : R i j) (hp : Forall₂ R ps ps') :
  Parallel R (fun S => S) (input s i ps) (input s' j ps') st st'
  := by
  rw [input, input]
  simp only [eq_nil_iff_of_related hp]
  split
  · exact parallel_pure hst hij
  · apply parallel_bind (Lift.parallel_values .substitute hs hst hp)
    intro S l l' t t' hRS ht hl
    exact parallel_push ht (.selection (hRS _ _ hij) hl) (by rintro _ ⟨⟩)

theorem parallel_rebuild (hs : s.Similar R s') (hst : st.Similar R st') (hij : R i j)
    {outer outer' inner inner' ps ps' : List NodeId} (houter : Forall₂ R outer outer')
    (hinner : Forall₂ R inner inner') (hp : Forall₂ R ps ps') :
  Parallel R (fun S => S) (rebuild s i outer inner ps) (rebuild s' j outer' inner' ps') st st'
  := by
  rw [rebuild, rebuild]
  apply parallel_bind (parallel_mapM (P := fun S => Forall₂ S)
    (fun _ _ _ _ hST hl => hl.imp hST) houter hst _)
  · intro S l l' t t' hRS ht hl
    apply parallel_bind (parallel_input (hs.mono hRS) ht (hRS _ _ hij) (hp.imp hRS))
    intro U a b u u' hSU hu hab
    have hitems := rel_flatten (hl.imp fun _ _ h => h.imp hSU)
    exact parallel_push hu (.projection hab hitems) (by rintro _ ⟨⟩)
  · intro c d hcd S t t' hRS ht
    exact parallel_items (hs.mono hRS) ht (hinner.imp hRS) (hRS _ _ hcd)

end Fused

namespace Graph

variable {R : Matching} {g g' : Graph} {i j : NodeId}

/-- Fusing related projections: neither is fused, or both become related ones. -/
theorem Similar.fuse (h : g.Similar R g') (hij : R i j) :
  ∃ S, R ≤ S ∧ (g.fuse i).2.Similar S (g'.fuse j).2
    ∧ Option.Rel (Fused.Similar S) (g.fuse i).1 (g'.fuse j).1
  := by
  have hnone : ∃ S, R ≤ S ∧ g.Similar S g' ∧ Option.Rel (Fused.Similar S) none none :=
    ⟨R, le_refl R, h, .none⟩
  rw [Graph.fuse, Graph.fuse]
  obtain ⟨n, n', hn, hn', hnn⟩ := h.nodes hij
  rw [hn, hn']
  cases hnn with
  | @projection input input' outer outer' hinput houter =>
      have hpeel := h.peel hinput
      obtain ⟨m, m', hm, hm', hmm⟩ := h.nodes hpeel.table
      simp only [hm, hm']
      cases hmm with
      | @projection table table' inner inner' htable hinner =>
          have habsorbed : Forall₂ R ((g.peel input).chain ++ [(g.peel input).table])
              ((g'.peel input').chain ++ [(g'.peel input').table]) :=
            rel_append hpeel.chain (.cons hpeel.table .nil)
          have hwhole := any_related _ _ houter
            fun _ _ hcd => contains_eq_of_related h.biUnique habsorbed hcd
          have hpushable := h.pushable habsorbed hpeel.predicates
          simp only [hwhole]
          split
          · revert hpushable
            generalize Lift.pushable _ (g.peel input).predicates g = r
            generalize Lift.pushable _ (g'.peel input').predicates g' = r'
            obtain ⟨pushable, k⟩ := r
            obtain ⟨pushable', k'⟩ := r'
            rintro ⟨S, hRS, hS, rfl⟩
            cases pushable with
            | true =>
                have hstates : LiftState.Similar S ⟨k, []⟩ ⟨k', []⟩ := ⟨hS, .nil⟩
                obtain ⟨U, hSU, hU, hnode⟩ := Lift.run_related (Fused.parallel_rebuild
                  (.of (habsorbed.imp hRS)) hstates (hRS _ _ htable) (houter.imp hRS)
                  (hinner.imp hRS) (hpeel.predicates.imp hRS))
                exact ⟨U, hRS.trans hSU, hU, .some ⟨hnode, habsorbed.imp (hRS.trans hSU)⟩⟩
            | false => exact ⟨S, hRS, hS, .none⟩
          · exact hnone
      | _ => exact hnone
  | _ => exact hnone

end Graph

namespace Block

open Analysis

variable {R : Matching} {g g' : Graph} {b b' : Block} {i j : NodeId}

/-- Fusing related projections goes in parallel, in any two numbers of steps that suffice for
the tables below them. -/
theorem parallel_fuseAll (n n' : Nat) (hg : g.Similar R g') (hb : b.Similar R b') (hij : R i j)
    (hn : g.fusionDepth i < n) (hn' : g'.fusionDepth j < n') :
  Parallel R (fun S p p' => p.1.Similar S p'.1 ∧ S p.2 p'.2) (fuseAll n b i) (fuseAll n' b' j)
    g g'
  := by
  induction n generalizing n' R g g' b b' i j with
  | zero => exact absurd hn (Nat.not_lt_zero _)
  | succ n ih =>
      cases n' with
      | zero => exact absurd hn' (Nat.not_lt_zero _)
      | succ n' =>
          have hbelow : ∀ {h : Graph} {i : NodeId} {n : Nat}, h.WellFounded → h.Has i →
              h.fusionDepth i < n + 1 →
              ∀ f ∈ (h.fuse i).1, (h.fuse i).2.fusionDepth f.node < n := by
            intro h i n hh hi hn f hf
            obtain ⟨hwf, e, hfuses⟩ := h.fuse_spec hh
            have hlt := (hfuses f hf).fusionDepth_lt hwf
            rw [e.fusionDepth_eq hh hwf hi] at hlt
            omega
          have hf := hbelow hg.wellFounded (hg.has hij) hn
          have hf' := hbelow hg.wellFounded' (hg.has' hij) hn'
          obtain ⟨S, hRS, hS, hrel⟩ := hg.fuse hij
          rw [fuseAll, fuseAll]
          apply parallel_modifyGet_bind hRS
          generalize (g.fuse i).2 = k at hS hf
          generalize (g'.fuse j).2 = k' at hS hf'
          generalize (g.fuse i).1 = x at hrel hf
          generalize (g'.fuse j).1 = y at hrel hf'
          cases hrel with
          | none => exact parallel_pure hS ⟨hb.mono hRS, hRS _ _ hij⟩
          | some hff =>
              apply ih n' hS (((hb.mono hRS).foldAll hff.absorbed).output hff.node) hff.node
              · exact hf _ rfl
              · exact hf' _ rfl

end Block

end RelSql
