import Mathlib.Data.List.Forall2
import RelSql.Error
import RelSql.Proofs.Graph.Chain
import RelSql.Proofs.Renaming.Similar

/-!
# Outcomes, names and types in similar graphs

Two computations agree when both succeed with related results, or both fail with faults of one
kind.

What is read off the operators of two similar graphs: names, values without aliases, the
operators above a table, schemas and types.  Handles that are found are related, and all else
is the same; where one graph has a fault, so has the other, of the same kind.
-/

/-! ## Agreement of outcomes -/

namespace RelSql

open List

variable {ε κ : Type} {kind : ε → κ} {α β γ δ : Type}

/-- Both outcomes are results, which are related, or both are faults of one kind. -/
inductive Agree (kind : ε → κ) (P : α → β → Prop) : Except ε α → Except ε β → Prop where
  | ok {a b} : P a b → Agree kind P (.ok a) (.ok b)
  | error {e e'} : kind e = kind e' → Agree kind P (.error e) (.error e')

namespace Agree

variable {P : α → β → Prop} {Q : γ → δ → Prop} {x : Except ε α} {y : Except ε β}

theorem bind {f : α → Except ε γ} {f' : β → Except ε δ} (h : Agree kind P x y)
    (hf : ∀ a b, P a b → Agree kind Q (f a) (f' b)) :
  Agree kind Q (x >>= f) (y >>= f')
  := by
  cases h with
  | ok hab => exact hf _ _ hab
  | error he => exact .error he

theorem imp {P' : α → β → Prop} (h : Agree kind P x y) (hP : ∀ a b, P a b → P' a b) :
  Agree kind P' x y
  := by
  cases h with
  | ok hab => exact .ok (hP _ _ hab)
  | error he => exact .error he

/-- Outcomes agree when they do with their faults replaced. -/
theorem mapError {ε' : Type} {f : ε → ε'} {kind : ε' → κ} (h : Agree (kind ∘ f) P x y) :
  Agree kind P (x.mapError f) (y.mapError f)
  := by
  cases h with
  | ok hab => exact .ok hab
  | error he => exact .error he

/-- One computation for each element of a list. -/
theorem mapM {R : γ → δ → Prop} {f : γ → Except ε α} {f' : δ → Except ε β} {l : List γ}
    {l' : List δ} (hl : Forall₂ R l l') (hf : ∀ c d, R c d → Agree kind P (f c) (f' d)) :
  Agree kind (Forall₂ P) (l.mapM f) (l'.mapM f')
  := by
  induction hl with
  | nil =>
      rw [List.mapM_nil, List.mapM_nil]
      exact .ok .nil
  | cons hcd _ ih =>
      rw [List.mapM_cons, List.mapM_cons]
      apply (hf _ _ hcd).bind
      intro a b hab
      apply ih.bind
      intro as bs hs
      exact .ok (.cons hab hs)

/-- Outcomes that agree on equal results have the same results, and faults of the same
kinds. -/
theorem iff_eq {x y : Except ε α} :
  Agree kind Eq x y ↔ (∀ a, x = .ok a ↔ y = .ok a)
    ∧ ∀ k, (∃ e, x = .error e ∧ kind e = k) ↔ ∃ e, y = .error e ∧ kind e = k
  := by
  constructor
  · intro h
    cases h with
    | ok hab =>
        subst hab
        simp
    | error he => simp [he]
  · rintro ⟨hok, herror⟩
    cases x with
    | ok a =>
        rw [(hok a).mp rfl]
        exact .ok rfl
    | error e =>
        obtain ⟨e', rfl, he⟩ := (herror (kind e)).mp ⟨e, rfl, rfl⟩
        exact .error he.symm

end Agree

end RelSql

/-! ## Names, chains and types in similar graphs -/

namespace RelSql

open List

/-- Selections that are taken off a table, and what is below, are related. -/
structure Peeled.Similar (R : Matching) (p p' : Peeled) : Prop where
  table : R p.table p'.table
  chain : Forall₂ R p.chain p'.chain
  predicates : Forall₂ R p.predicates p'.predicates

/-- The schemas agree, and so do the types. -/
structure Typing.Agrees (t t' : Typing) : Prop where
  schema : Agree GraphError.kind Eq t.schema t'.schema
  dataType : Agree GraphError.kind Eq t.dataType t'.dataType

/-- Related handles have one name, are tables together and are durations together: what the types
of related operators depend on, the types of their children apart. -/
structure Graph.Labelled (R : Matching) (g g' : Graph) : Prop where
  name?_eq : ∀ {i j}, R i j → g.name? i = g'.name? j
  isRelation_eq : ∀ {i j}, R i j → g.isRelation i = g'.isRelation j
  interval_iff : ∀ {i j}, R i j → ((∃ unit count, g.node i = .interval unit count)
    ↔ ∃ unit count, g'.node j = .interval unit count)

namespace Graph

namespace Similar

variable [Comparison] {R : Matching} {g g' : Graph} {i j : NodeId}

theorem isRelation_eq (h : Similar R g g') (hij : R i j) :
  g.isRelation i = g'.isRelation j
  := (h.node hij).isRelation_eq

theorem name?_eq (h : Similar R g g') (hij : R i j) :
  g.name? i = g'.name? j
  := by
  obtain ⟨n, n', hn, hn', hnn⟩ := h.nodes hij
  rw [name?, name?, hn, hn']
  cases hnn <;> rfl

theorem isProjection_eq (h : Similar R g g') (hij : R i j) :
  g.isProjection i = g'.isProjection j
  := by
  obtain ⟨n, n', hn, hn', hnn⟩ := h.nodes hij
  rw [isProjection, isProjection, hn, hn']
  cases hnn <;> rfl

theorem isJoin_eq (h : Similar R g g') (hij : R i j) :
  g.isJoin i = g'.isJoin j
  := by
  obtain ⟨n, n', hn, hn', hnn⟩ := h.nodes hij
  rw [isJoin, isJoin, hn, hn']
  cases hnn <;> rfl

theorem body (h : Similar R g g') (hij : R i j) :
  R (g.body i) (g'.body j)
  := by
  obtain ⟨n, n', hn, hn', hnn⟩ := h.nodes hij
  rw [Graph.body, Graph.body, hn, hn']
  cases hnn <;> assumption

theorem predicatesOf (h : Similar R g g') (hij : R i j) :
  Forall₂ R (g.predicatesOf i) (g'.predicatesOf j)
  := by
  obtain ⟨n, n', hn, hn', hnn⟩ := h.nodes hij
  rw [Graph.predicatesOf, Graph.predicatesOf, hn, hn']
  cases hnn <;> first | assumption | exact .nil

/-- The keys of a sort are related. -/
theorem sortKeysOf (h : Similar R g g') (hij : R i j) :
  Forall₂ (fun k k' => R k.expr k'.expr ∧ k.ascending = k'.ascending) (g.sortKeysOf i)
    (g'.sortKeysOf j)
  := by
  obtain ⟨n, n', hn, hn', hnn⟩ := h.nodes hij
  rw [Graph.sortKeysOf, Graph.sortKeysOf, hn, hn']
  cases hnn <;> first | assumption | exact .nil

theorem unaliased (h : Similar R g g') (hij : R i j) :
  R (g.unaliased i) (g'.unaliased j)
  := by
  apply h.recurse (P := fun _ _ => R) _ hij
  intro below below' i j hij hnn
  revert hnn
  generalize g.node i = n
  generalize g'.node j = n'
  intro hnn
  cases hnn with
  | named _ h => exact h.2
  | _ => exact hij

/-! ### Chains -/

/-- The next nodes of similar nodes are related. -/
def Steps (R : Matching) (next? : Node → Option NodeId) : Prop :=
  ∀ (S : Matching) (n n' : Node), (∀ c d, S c d → R c d) → Node.Similar S n n' →
    Option.Rel S (next? n) (next? n')

omit [Comparison] in
theorem steps_selection :
  Steps R selectionInput?
  := by
  intro S n n' _ hnn
  cases hnn with
  | selection ht _ => exact .some ht
  | _ => exact .none

omit [Comparison] in
theorem steps_sort :
  Steps R sortInput?
  := by
  intro S n n' _ hnn
  cases hnn with
  | sort ht _ => exact .some ht
  | _ => exact .none

omit [Comparison] in
theorem steps_limit :
  Steps R limitInput?
  := by
  intro S n n' _ hnn
  cases hnn with
  | limit _ _ ht => exact .some ht
  | _ => exact .none

/-- The operators of a chain, and the tables below, are related. -/
theorem chain (h : Similar R g g') {next? : Node → Option NodeId} (hnext : Steps R next?)
    (hij : R i j) :
  Forall₂ R (g.chain next? i).1 (g'.chain next? j).1
    ∧ R (g.chain next? i).2 (g'.chain next? j).2
  := by
  let P (c c' : List NodeId × NodeId) : Prop := Forall₂ R c.1 c'.1 ∧ R c.2 c'.2
  suffices hP : P (g.chain next? i) (g'.chain next? j) from hP
  apply h.recurse (P := fun _ _ => P) _ hij
  intro below below' i j hij hnn
  have hstep := hnext _ _ _ (fun _ _ hcd => hcd.1) hnn
  revert hstep
  generalize next? (g.node i) = t
  generalize next? (g'.node j) = t'
  intro hstep
  cases hstep with
  | some ht => exact ⟨.cons hij ht.2.1, ht.2.2⟩
  | none => exact ⟨.nil, hij⟩

theorem peel (h : Similar R g g') (hij : R i j) :
  Peeled.Similar R (g.peel i) (g'.peel j)
  := by
  obtain ⟨hchain, htable⟩ := h.chain steps_selection hij
  exact ⟨htable, hchain, rel_flatMap (rel_reverse hchain) fun _ _ => h.predicatesOf⟩

/-! ### Types -/

end Similar

namespace Labelled

variable {R : Matching} {g g' : Graph} {i j : NodeId}

/-- Handles are labelled alike when their operators are similar, or both are constants. -/
theorem of_nodes (h : ∀ {i j}, R i j → (∃ v w, g.node i = .literal v ∧ g'.node j = .literal w)
    ∨ ∃ S, Node.Similar S (g.node i) (g'.node j)) :
  Labelled R g g'
  := by
  have hsame : ∀ {n n' : Node}, (∃ v w, n = .literal v ∧ n' = .literal w)
      ∨ (∃ S, Node.Similar S n n') → n.isRelation = n'.isRelation
        ∧ ((∃ unit count, n = .interval unit count) ↔ ∃ unit count, n' = .interval unit count) := by
    rintro n n' (⟨v, w, rfl, rfl⟩ | ⟨S, hnn⟩)
    · simp [Node.isRelation]
    · cases hnn <;> simp [Node.isRelation]
  refine ⟨?_, fun hij => (hsame (h hij)).1, fun hij => (hsame (h hij)).2⟩
  intro i j hij
  rw [name?, name?]
  obtain ⟨v, w, hi, hj⟩ | ⟨S, hnn⟩ := h hij
  · rw [hi, hj]
  · revert hnn
    generalize g.node i = n
    generalize g'.node j = n'
    intro hnn
    cases hnn <;> rfl

/-- The fields of a value agree. -/
theorem outputField {typing typing' : NodeId → Typing} (h : Labelled R g g') (hij : R i j)
    (ht : (typing i).Agrees (typing' j)) :
  Agree GraphError.kind Eq (g.outputField typing i) (g'.outputField typing' j)
  := by
  rw [Graph.outputField, Graph.outputField, h.name?_eq hij]
  apply ht.dataType.bind
  rintro type _ rfl
  exact .ok rfl

theorem itemFields {typing typing' : NodeId → Typing} (h : Labelled R g g') (hij : R i j)
    (ht : (typing i).Agrees (typing' j)) :
  Agree GraphError.kind Eq (g.itemFields typing i) (g'.itemFields typing' j)
  := by
  rw [Graph.itemFields, Graph.itemFields, h.isRelation_eq hij]
  cases g'.isRelation j with
  | true =>
      apply ht.schema.bind
      rintro schema _ rfl
      exact .ok rfl
  | false =>
      apply (h.outputField hij ht).bind
      rintro field _ rfl
      exact .ok rfl

/-- Typed children that are related. -/
abbrev Typed (R : Matching) (typing typing' : NodeId → Typing) : Matching :=
  fun c d => R c d ∧ (typing c).Agrees (typing' d)

section

variable {typing typing' : NodeId → Typing}

theorem schemaStep (h : Labelled R g g')
    (hnn : Node.Similar (Typed R typing typing') (g.node i) (g'.node j)) :
  Agree GraphError.kind Eq (g.schemaStep typing i) (g'.schemaStep typing' j)
  := by
  rw [Graph.schemaStep, Graph.schemaStep]
  revert hnn
  generalize g.node i = n
  generalize g'.node j = n'
  intro hnn
  cases hnn with
  | table t => exact .ok rfl
  | view ht | selection ht _ | sort ht _ | limit _ _ ht | distinct ht | union _ ht _ =>
      exact ht.2.schema
  | projection _ hl =>
      apply (Agree.mapM hl fun _ _ hcd => h.itemFields hcd.1 hcd.2).bind
      rintro fields fields' hf
      rw [forall₂_eq_eq_eq] at hf
      exact .ok (by rw [hf])
  | aggregation _ hk hm _ =>
      apply (Agree.mapM (rel_append hk hm) fun _ _ hcd => h.outputField hcd.1 hcd.2).bind
      rintro fields fields' hf
      rw [forall₂_eq_eq_eq] at hf
      exact .ok (by rw [hf])
  | join kind hl hr _ =>
      apply hl.2.schema.bind
      rintro left _ rfl
      cases hk : kind.leftOnly with
      | true => exact .ok rfl
      | false =>
          apply hr.2.schema.bind
          rintro right _ rfl
          exact .ok rfl
  | _ => exact .error rfl

theorem callType (function : Function) {l l' : List NodeId}
    (hl : Forall₂ (Typed R typing typing') l l') :
  Agree GraphError.kind Eq (Graph.callType typing function l)
    (Graph.callType typing' function l')
  := by
  cases function <;> first
    | exact .ok rfl
    | (cases hl with
      | nil => exact .ok rfl
      | cons h _ => exact h.2.dataType)

/-- An operation whose right operand is no duration. -/
theorem binaryType_other {l r : NodeId} (op : BinaryOp)
    (h : ¬ ∃ unit count, g.node r = .interval unit count) :
  g.binaryType typing op l r
    = if op.isComparison || op.isLogical then .ok .boolean
      else if op = .div ∨ op = .pow then .ok .double
      else do return (← (typing l).dataType).promote (← (typing r).dataType)
  := by
  rw [Graph.binaryType]
  cases hn : g.node r
  case interval unit count => exact absurd ⟨unit, count, hn⟩ h
  all_goals rfl

/-- The types of operations agree when those of their operands do, and the right operands of
arithmetic are durations together. -/
theorem binaryType {l l' r r' : NodeId} (op : BinaryOp) (hl : Typed R typing typing' l l')
    (hr : Typed R typing typing' r r')
    (h : (op.isComparison || op.isLogical) = false → ((∃ unit count, g.node r = .interval unit count)
      ↔ ∃ unit count, g'.node r' = .interval unit count)) :
  Agree GraphError.kind Eq (g.binaryType typing op l r) (g'.binaryType typing' op l' r')
  := by
  cases hop : op.isComparison || op.isLogical with
  | true =>
      rw [Graph.binaryType, Graph.binaryType, hop]
      exact .ok rfl
  | false =>
      by_cases hn : ∃ unit count, g.node r = .interval unit count
      · obtain ⟨_, _, hn'⟩ := (h hop).mp hn
        obtain ⟨_, _, hn⟩ := hn
        rw [Graph.binaryType, Graph.binaryType, hn, hn', hop]
        exact hl.2.dataType
      · rw [binaryType_other op hn, binaryType_other op (mt (h hop).mpr hn), hop]
        split
        · exact .ok rfl
        · split
          · exact .ok rfl
          · apply hl.2.dataType.bind
            rintro left _ rfl
            apply hr.2.dataType.bind
            rintro right _ rfl
            exact .ok rfl

theorem reductionType (aggregate : Aggregate) {x y : Except GraphError DataType}
    (h : Agree GraphError.kind Eq x y) :
  Agree GraphError.kind Eq (Graph.reductionType aggregate x)
    (Graph.reductionType aggregate y)
  := by
  cases aggregate with
  | count | countDistinct | mean => exact .ok rfl
  | min | max => exact h
  | sum =>
      apply h.bind
      rintro t _ rfl
      exact .ok rfl

/-- The types of one operator on children of one type agree, if the right operands of arithmetic are
durations together. -/
theorem dataTypeStep_of_durations
    (hnn : Node.Similar (Typed R typing typing') (g.node i) (g'.node j))
    (h : ∀ op l r l' r', g.node i = .binary op l r → g'.node j = .binary op l' r' →
      (op.isComparison || op.isLogical) = false → ((∃ unit count, g.node r = .interval unit count)
        ↔ ∃ unit count, g'.node r' = .interval unit count)) :
  Agree GraphError.kind Eq (g.dataTypeStep typing i) (g'.dataTypeStep typing' j)
  := by
  rw [Graph.dataTypeStep, Graph.dataTypeStep]
  revert hnn h
  generalize g.node i = n
  generalize g'.node j = n'
  intro hnn h
  cases hnn with
  | literal | interval | cast | extract | between | list | membership | topK | any | countStar =>
      exact .ok rfl
  | column name ht =>
      apply ht.2.schema.bind
      rintro schema _ rfl
      apply Agree.bind (P := Eq)
      · cases schema.field name with
        | ok f => exact .ok rfl
        | error e => exact .error rfl
      · rintro field _ rfl
        exact .ok rfl
  | named _ ha => exact ha.2.dataType
  | unary op ha =>
      cases op with
      | negate => exact ha.2.dataType
      | _ => exact .ok rfl
  | binary op hl hr => exact binaryType op hl hr (h op _ _ _ _ rfl rfl)
  | call function hl => exact callType function hl
  | case hb hw hd =>
      apply Agree.bind (P := Forall₂ Eq)
      · apply Agree.mapM (R := Typed R typing typing') _ fun _ _ hcd => hcd.2.dataType
        apply rel_append (rel_map (fun _ _ hw => hw.2) hw)
        cases hd with
        | none => exact .nil
        | some hd => exact .cons hd .nil
      · rintro types types' htypes
        rw [forall₂_eq_eq_eq] at htypes
        exact .ok (by rw [htypes])
  | reduction aggregate ha => exact reductionType aggregate ha.2.dataType
  | _ => exact .error rfl

theorem dataTypeStep (h : Labelled R g g')
    (hnn : Node.Similar (Typed R typing typing') (g.node i) (g'.node j)) :
  Agree GraphError.kind Eq (g.dataTypeStep typing i) (g'.dataTypeStep typing' j)
  := by
  apply dataTypeStep_of_durations hnn
  intro op l r l' r' hi hj _
  rw [hi, hj] at hnn
  cases hnn with
  | binary _ _ hr => exact h.interval_iff hr.1

end

end Labelled

namespace Similar

variable [Comparison] {R : Matching} {g g' : Graph} {i j : NodeId}

theorem labelled (h : Similar R g g') :
  Labelled R g g'
  := .of_nodes fun hij => .inr ⟨R, h.node hij⟩

/-- The typings of related handles agree. -/
theorem typing (h : Similar R g g') (hij : R i j) :
  (g.typing i).Agrees (g'.typing j)
  := by
  apply h.recurse (P := fun _ _ => Typing.Agrees) _ hij
  intro below below' i j hij hnn
  exact ⟨h.labelled.schemaStep hnn, h.labelled.dataTypeStep hnn⟩

theorem schema (h : Similar R g g') (hij : R i j) :
  Agree GraphError.kind Eq (g.schema i) (g'.schema j)
  := (h.typing hij).schema

/-- Related tables have the same fields. -/
theorem hasField_eq (h : Similar R g g') (hij : R i j) (name : String) :
  g.hasField i name = g'.hasField j name
  := by
  have hschema := h.schema hij
  rw [hasField, hasField]
  generalize g.schema i = x at hschema ⊢
  generalize g'.schema j = y at hschema ⊢
  cases hschema with
  | ok heq => rw [heq]
  | error _ => rfl

theorem provides_eq (h : Similar R g g') (hij : R i j) (name : String) :
  g.provides name i = g'.provides name j
  := by
  rw [provides, provides, h.isRelation_eq hij, h.hasField_eq hij, h.name?_eq hij]

theorem isAmbiguous_eq (h : Similar R g g') (hij : R i j) (name : String) :
  g.isAmbiguous i name = g'.isAmbiguous j name
  := by
  apply h.recurse (P := fun _ _ => Eq) _ hij
  intro below below' i j hij hnn
  revert hnn
  generalize g.node i = n
  generalize g'.node j = n'
  intro hnn
  cases hnn with
  | selection ht _ | sort ht _ | limit _ _ ht | distinct ht => exact ht.2
  | projection _ hl =>
      have hfind := find?_related (g.provides name) (g'.provides name) hl
        fun c d hcd => h.provides_eq hcd.1 name
      simp only
      generalize find? (g.provides name) _ = x at hfind ⊢
      generalize find? (g'.provides name) _ = y at hfind ⊢
      cases hfind with
      | none => rfl
      | some hcd => simp only [h.isRelation_eq hcd.1, hcd.2]
  | join kind hl hr _ =>
      simp only [h.hasField_eq hl.1, h.hasField_eq hr.1, hl.2, hr.2]
  | _ => rfl

end Similar

end Graph

end RelSql
