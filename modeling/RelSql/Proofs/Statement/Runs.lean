import Mathlib.Data.List.Induction
import RelSql.Proofs.Statement.Nesting

/-!
# Runs of alias scopes

Scopes are made inside copies of other scopes, and each of them goes on naming tables.
However this is done, no scope gives one alias to two tables, a table has one alias in a scope
and in all scopes around it, and what is done with a scope changes no other one and nothing
around it.
-/

namespace RelSql

namespace AliasScope

/-- What can be done with the scopes of a list, each of which is given by its position. -/
inductive Operation where
  /-- Keeps a copy of a scope, while the scope goes on. -/
  | snapshot (i : Nat)
  /-- Makes a scope inside a copy of another one. -/
  | child (i : Nat)
  | assign (i : Nat) (table : NodeId)
  | nameShared (i : Nat) (occurrence : Option NodeId)
  | qualify (i : Nat)

namespace Operation

/-- The position of the scope that changes. -/
def target? : Operation → Option Nat
  | .snapshot _ | .child _ => none
  | .assign i _ | .nameShared i _ | .qualify i => some i

/-- What becomes of the scope that changes. -/
def change : Operation → AliasScope → AliasScope
  | .snapshot _, s | .child _, s => s
  | .assign _ table, s => (s.assign table).2
  | .nameShared _ occurrence, s => (s.nameShared occurrence).2
  | .qualify _, s => s.qualify

/-- The scope that is added. -/
def added? (scopes : List AliasScope) : Operation → Option AliasScope
  | .snapshot i => scopes[i]?
  | .child i => scopes[i]?.map AliasScope.child
  | _ => none

/-- Changes a scope of the list, or adds one at its end. -/
def apply (scopes : List AliasScope) (op : Operation) : List AliasScope :=
  (match op.target? with
  | some i => scopes.modify i op.change
  | none => scopes) ++ (op.added? scopes).toList

end Operation

/-- The scopes after a run that starts with the outermost scope only. -/
def run (ops : List Operation) : List AliasScope :=
  ops.foldl Operation.apply [root]

/-! ### What holds of every scope -/

/-- The labels of a scope tell its tables apart, a table has one label, and no scope around has
handed out more labels. -/
structure Coherent (s : AliasScope) : Prop where
  proper : s.Proper
  functional : s.Functional
  nodup : s.frame.tables.Nodup
  counters : ∀ f ∈ s.outer, f.counter ≤ s.frame.counter

theorem coherent_root :
  root.Coherent
  := ⟨proper_root, functional_root, List.nodup_nil, nofun⟩

theorem Coherent.child {s : AliasScope} (h : s.Coherent) :
  s.child.Coherent
  := by
  refine ⟨h.proper.child, h.functional.child, List.nodup_nil, ?_⟩
  exact List.forall_mem_cons.mpr ⟨Nat.le_refl _, h.counters⟩

/-- What the operations on a scope keep: what is around it, and the aliases and numbers that it
has handed out. -/
structure Continues (s s' : AliasScope) : Prop where
  outer : s'.outer = s.outer
  counter : s.frame.counter ≤ s'.frame.counter
  aliases : s.frame.aliases <+: s'.frame.aliases

theorem Continues.refl (s : AliasScope) :
  s.Continues s
  := ⟨rfl, Nat.le_refl _, List.prefix_refl _⟩

theorem Continues.trans {s s' s'' : AliasScope} (h : s.Continues s') (h' : s'.Continues s'') :
  s.Continues s''
  := ⟨h'.outer.trans h.outer, Nat.le_trans h.counter h'.counter, h.aliases.trans h'.aliases⟩

/-- A table that has an alias keeps it. -/
theorem Continues.localAlias? {s s' : AliasScope} (h : s.Continues s') {table : NodeId}
    {label : String} (hlabel : s.localAlias? table = some label) :
  s'.localAlias? table = some label
  := by
  obtain ⟨more, haliases⟩ := h.aliases
  rw [AliasScope.localAlias?, Frame.alias?] at hlabel ⊢
  rw [← haliases, List.lookup_append, hlabel]
  rfl

theorem continues_assign (s : AliasScope) (table : NodeId) :
  s.Continues (s.assign table).2
  := by
  rw [assign]
  split
  · exact .refl s
  · cases aliasIn? table s.outer with
    | some label => exact ⟨rfl, Nat.le_refl _, List.prefix_append _ _⟩
    | none => exact ⟨rfl, Nat.le_succ _, List.prefix_append _ _⟩

theorem continues_nameShared (s : AliasScope) (occurrence : Option NodeId) :
  s.Continues (s.nameShared occurrence).2
  := by
  rw [nameShared]
  cases occurrence.bind s.localAlias? with
  | some label => exact ⟨rfl, Nat.le_refl _, List.prefix_refl _⟩
  | none => exact ⟨rfl, Nat.le_succ _, List.prefix_refl _⟩

theorem Operation.continues_change (op : Operation) (s : AliasScope) :
  s.Continues (op.change s)
  := by
  cases op with
  | snapshot i | child i | qualify i => exact ⟨rfl, Nat.le_refl _, List.prefix_refl _⟩
  | assign i table => exact s.continues_assign table
  | nameShared i occurrence => exact s.continues_nameShared occurrence

/-- Numbers grow only. -/
theorem Coherent.of_continues {s s' : AliasScope} (h : s.Coherent) (hs : s.Continues s')
    (hproper : s'.Proper) (hfunctional : s'.Functional) (hnodup : s'.frame.tables.Nodup) :
  s'.Coherent
  := by
  refine ⟨hproper, hfunctional, hnodup, ?_⟩
  intro f hf
  rw [hs.outer] at hf
  exact Nat.le_trans (h.counters f hf) hs.counter

theorem nameShared_tables (s : AliasScope) (occurrence : Option NodeId) :
  (s.nameShared occurrence).2.frame.tables = s.frame.tables
  := by
  rw [nameShared]
  cases occurrence.bind s.localAlias? <;> rfl

/-- Every operation keeps a scope coherent. -/
theorem Coherent.change {s : AliasScope} (h : s.Coherent) (op : Operation) :
  (op.change s).Coherent
  := by
  cases op with
  | snapshot i | child i => exact h
  | qualify i =>
      have hproper : s.qualify.Proper := h.proper.of_subset (fun e he => he) (Nat.le_refl _)
      exact ⟨hproper, h.functional, h.nodup, h.counters⟩
  | assign i table =>
      obtain ⟨hproper, hnodup, _, _⟩ := assign_spec h.proper h.nodup table
      exact h.of_continues (s.continues_assign table) hproper (h.functional.assign table) hnodup
  | nameShared i occurrence =>
      apply h.of_continues (s.continues_nameShared occurrence) (h.proper.nameShared occurrence)
        (h.functional.nameShared occurrence)
      rw [nameShared_tables]
      exact h.nodup

/-! ### One operation -/

/-- A scope that is there before an operation is there after it, at its position. -/
theorem Operation.getElem?_apply (op : Operation) {scopes : List AliasScope} {i : Nat}
    {s : AliasScope} (h : scopes[i]? = some s) :
  (op.apply scopes)[i]? = some (if op.target? = some i then op.change s else s)
  := by
  obtain ⟨hi, rfl⟩ := List.getElem?_eq_some_iff.mp h
  rw [apply]
  cases htarget : op.target? with
  | none => rw [List.getElem?_append_left hi, if_neg nofun, h]
  | some j =>
      have hlength : i < (scopes.modify j op.change).length := by
        rw [List.length_modify]
        exact hi
      rw [List.getElem?_append_left hlength, List.getElem?_modify, h]
      simp only [Option.some.injEq, eq_comm]
      split <;> rfl

/-- Nothing changes when a scope names a table that it does not change for. -/
theorem Operation.apply_assign_self {scopes : List AliasScope} {i : Nat} {s : AliasScope}
    (hi : scopes[i]? = some s) {table : NodeId} (h : (s.assign table).2 = s) :
  (Operation.assign i table).apply scopes = scopes
  := by
  apply List.ext_getElem?
  intro j
  cases hj : scopes[j]? with
  | none =>
      rw [List.getElem?_eq_none_iff] at hj ⊢
      rw [apply, List.length_append]
      simpa [added?, target?] using hj
  | some s' =>
      rw [getElem?_apply _ hj]
      split
      case isTrue htarget =>
          obtain rfl := Option.some.inj htarget
          obtain rfl := Option.some.inj (hi.symm.trans hj)
          exact congrArg some h
      case isFalse => rfl

/-- The scopes after an operation are those before it, the one that it changes and the one that
it adds. -/
theorem Operation.mem_apply {op : Operation} {scopes : List AliasScope} {s : AliasScope}
    (h : s ∈ op.apply scopes) :
  ∃ s' ∈ scopes, s = s' ∨ s = op.change s' ∨ s = s'.child
  := by
  rcases List.mem_append.mp h with h | h
  · split at h
    case h_1 i hi =>
        obtain ⟨j, hj⟩ := List.mem_iff_getElem?.mp h
        rw [List.getElem?_modify] at hj
        obtain ⟨s', hs', hsame⟩ := Option.map_eq_some_iff.mp hj
        refine ⟨s', List.mem_of_getElem? hs', ?_⟩
        split at hsame
        · exact .inr (.inl hsame.symm)
        · exact .inl hsame.symm
    case h_2 => exact ⟨s, h, .inl rfl⟩
  · have hadded := Option.mem_toList.mp h
    cases op with
    | snapshot i => exact ⟨s, List.mem_of_getElem? hadded, .inl rfl⟩
    | child i =>
        obtain ⟨s', hs', rfl⟩ := Option.map_eq_some_iff.mp hadded
        exact ⟨s', List.mem_of_getElem? hs', .inr (.inr rfl)⟩
    | assign _ _ | nameShared _ _ | qualify _ => cases hadded

/-! ### Runs -/

/-- All scopes of a run are coherent, by induction on its operations. -/
theorem coherent_of_mem_run (ops : List Operation) :
    ∀ s ∈ run ops, s.Coherent := by
  induction ops using List.reverseRecOn with
  | nil => exact List.forall_mem_singleton.mpr coherent_root
  | append_singleton ops op ih =>
      intro s hs
      rw [run, List.foldl_append, List.foldl_cons, List.foldl_nil] at hs
      obtain ⟨s', hs', rfl | rfl | rfl⟩ := Operation.mem_apply hs
      · exact ih s hs'
      · exact (ih s' hs').change op
      · exact (ih s' hs').child

/-- In the course of a run a scope continues, and does not change unless it is operated on. -/
theorem getElem?_foldl_apply (more : List Operation) :
    ∀ {scopes : List AliasScope} {i : Nat} {s : AliasScope}, scopes[i]? = some s →
      ∃ s', (more.foldl Operation.apply scopes)[i]? = some s' ∧ s.Continues s'
        ∧ ((∀ op ∈ more, op.target? ≠ some i) → s' = s) := by
  induction more with
  | nil => exact fun h => ⟨_, h, .refl _, fun _ => rfl⟩
  | cons op more ih =>
      intro scopes i s h
      obtain ⟨s', hs', hcontinues, hsame⟩ := ih (op.getElem?_apply h)
      refine ⟨s', hs', ?_, ?_⟩
      · split at hcontinues
        · exact (op.continues_change s).trans hcontinues
        · exact hcontinues
      · intro hnone
        obtain ⟨hfirst, hmore⟩ := List.forall_mem_cons.mp hnone
        rw [hsame hmore, if_neg hfirst]

/-- A table that has an alias is given it again, and nothing changes. -/
theorem assign_eq_self {s : AliasScope} {table : NodeId} {label : String}
    (h : s.localAlias? table = some label) :
  s.assign table = (label, s)
  := by
  rw [assign, h]

/-- A table has the alias that it is given. -/
theorem localAlias?_assign (s : AliasScope) (table : NodeId) :
  (s.assign table).2.localAlias? table = some (s.assign table).1
  := by
  rw [assign]
  split
  case h_1 label hlabel => exact hlabel
  case h_2 hnone =>
      have hadded : ∀ label : String,
          (s.frame.aliases ++ [(table, label)]).lookup table = some label := by
        intro label
        rw [List.lookup_append, show s.frame.aliases.lookup table = none from hnone]
        exact List.lookup_cons_self
      cases aliasIn? table s.outer with
      | some label => exact hadded label
      | none => exact hadded _

/-- A table that a frame names has an alias in every scope inside it. -/
theorem aliasIn?_isSome {table : NodeId} {frames : List Frame} {f : Frame} (hf : f ∈ frames)
    (h : (f.alias? table).isSome = true) :
  (aliasIn? table frames).isSome = true
  := by
  induction frames with
  | nil => exact absurd hf List.not_mem_nil
  | cons first rest ih =>
      rw [aliasIn?]
      split
      · rfl
      case h_2 hnone =>
          rcases List.mem_cons.mp hf with rfl | hf
          · rw [hnone] at h
            cases h
          · exact ih hf

/-- The alias of a table is the one that it has in each frame that names it. -/
theorem Functional.alias?_of_frame {s : AliasScope} (h : s.Functional) {f : Frame}
    (hf : f ∈ s.frame :: s.outer) {table : NodeId} {label : String}
    (hlabel : f.alias? table = some label) :
  s.alias? table = some label
  := by
  obtain ⟨label', hlabel'⟩ := Option.isSome_iff_exists.mp
    (aliasIn?_isSome hf (Option.isSome_of_eq_some hlabel))
  rw [alias?, hlabel', h.alias?_eq hlabel' hf hlabel]

/-- In every scope of a run, different tables have different aliases, aliases are numbered
below the counter of the scope, a table has the same alias in all scopes around that name it,
and the counters around are no greater.  A child is a scope of its own.  As a run goes on, a
scope stays where it is, with the same scopes around it and a counter that does not decrease,
and stays as it is unless it is operated on.  A table that a scope names again, at any time, is
given the same alias, and nothing changes. -/
theorem run_coherent (ops : List Operation) :
  (∀ s ∈ run ops,
      (∀ t t' label, s.alias? t = some label → s.alias? t' = some label → t = t')
      ∧ (∀ t label, s.alias? t = some label → ∃ n < s.frame.counter, label = aliasText n)
      ∧ (∀ f ∈ s.frame :: s.outer, ∀ t label, f.alias? t = some label → s.alias? t = some label)
      ∧ ∀ f ∈ s.outer, f.counter ≤ s.frame.counter)
    ∧ ∀ i s, (run ops)[i]? = some s →
      run (ops ++ [.child i]) = run ops ++ [s.child]
      ∧ (∀ more, ∃ s', (run (ops ++ more))[i]? = some s'
        ∧ s'.outer = s.outer ∧ s.frame.counter ≤ s'.frame.counter
        ∧ ((∀ op ∈ more, op.target? ≠ some i) → s' = s))
      ∧ ∀ t more, ∃ s', (run (ops ++ .assign i t :: more))[i]? = some s'
        ∧ s'.assign t = ((s.assign t).1, s')
        ∧ run (ops ++ .assign i t :: more ++ [.assign i t]) = run (ops ++ .assign i t :: more)
  := by
  have happend : ∀ ops' : List Operation,
      run (ops ++ ops') = ops'.foldl Operation.apply (run ops) := fun ops' => List.foldl_append
  constructor
  · intro s hs
    have hcoherent := coherent_of_mem_run ops s hs
    refine ⟨?_, ?_, ?_, hcoherent.counters⟩
    · intro t t' label h h'
      exact hcoherent.proper.distinct _ (mem_of_aliasIn? _ h) _ (mem_of_aliasIn? _ h') rfl
    · intro t label h
      exact hcoherent.proper.numbered _ (mem_of_aliasIn? _ h)
    · intro f hf t label hlabel
      exact hcoherent.functional.alias?_of_frame hf hlabel
  · intro i s hi
    refine ⟨?_, ?_, ?_⟩
    · rw [happend, List.foldl_cons, List.foldl_nil, Operation.apply, Operation.added?, hi]
      rfl
    · intro more
      obtain ⟨s', hs', hcontinues, hsame⟩ := getElem?_foldl_apply more hi
      rw [happend]
      exact ⟨s', hs', hcontinues.outer, hcontinues.counter, hsame⟩
    · intro t more
      have hassigned := (Operation.assign i t).getElem?_apply hi
      rw [if_pos (show (Operation.assign i t).target? = some i from rfl)] at hassigned
      obtain ⟨s', hs', hcontinues, _⟩ := getElem?_foldl_apply more hassigned
      have hagain := assign_eq_self (hcontinues.localAlias? (s.localAlias?_assign t))
      refine ⟨s', ?_, hagain, ?_⟩
      · rw [happend, List.foldl_cons]
        exact hs'
      · rw [List.append_assoc, happend, happend, List.foldl_append, List.foldl_cons,
          List.foldl_nil, List.foldl_cons]
        exact Operation.apply_assign_self hs' (congrArg Prod.snd hagain)

/-- The outermost scope and a scope inside it name tables in turn. -/
def inTurn : List Operation :=
  [.assign 0 ⟨7⟩, .nameShared 0 none, .child 0, .assign 0 ⟨8⟩, .assign 1 ⟨9⟩, .assign 1 ⟨7⟩]

/-- Both scopes go on from the number of the common table expression, the inner one uses the
alias around it again, for that table only, and naming tables in it does not change the
outermost scope. -/
theorem run_coherent_inTurn :
  (run inTurn).map (fun s => s.frame.aliases)
      = [[(⟨7⟩, "t0"), (⟨8⟩, "t2")], [(⟨9⟩, "t2"), (⟨7⟩, "t0")]]
    ∧ (∃ s ∈ run inTurn, s.outer ≠ [] ∧ s.alias? ⟨7⟩ = some "t0"
      ∧ ∀ t, s.alias? t = some "t0" → t = ⟨7⟩)
    ∧ ∃ s, (run inTurn)[0]? = some s ∧ (run (inTurn ++ [.assign 1 ⟨5⟩, .qualify 1]))[0]? = some s
  := by
  obtain ⟨hscopes, hgoes⟩ := run_coherent inTurn
  refine ⟨by decide, ?_, ?_⟩
  · have hinner : (run inTurn)[1]?.map (fun s => (s.outer.length, s.alias? ⟨7⟩))
        = some (1, some "t0") := by decide
    obtain ⟨s, hs, hparts⟩ := Option.map_eq_some_iff.mp hinner
    obtain ⟨hlength, hlabel⟩ := Prod.mk.inj hparts
    have hmem := List.mem_of_getElem? hs
    refine ⟨s, hmem, List.ne_nil_of_length_eq_add_one hlength, hlabel, ?_⟩
    exact fun t ht => (hscopes s hmem).1 t ⟨7⟩ "t0" ht hlabel
  · have hfirst : (run inTurn)[0]?.isSome = true := by decide
    obtain ⟨s, hs⟩ := Option.isSome_iff_exists.mp hfirst
    obtain ⟨s', hs', _, _, hsame⟩ := (hgoes 0 s hs).2.1 [.assign 1 ⟨5⟩, .qualify 1]
    rw [hsame (by decide)] at hs'
    exact ⟨s, hs, hs'⟩

end AliasScope

end RelSql
