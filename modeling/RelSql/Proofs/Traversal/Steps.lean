import Mathlib.Algebra.GroupWithZero.Nat
import Mathlib.Algebra.Order.BigOperators.Group.List
import Mathlib.Data.List.Nodup
import RelSql.Traversal

/-!
# Steps of traversals

A step enters a pending node, leaves an entered one whose dependencies have all been left, or
passes over a node that has been left.  Whatever the dependencies are, every step takes one
off what remains, so a traversal of finitely many nodes ends.
-/

namespace RelSql.Traversal

variable {α β : Type} [DecidableEq α] {marks : List (α × Mark β)}

/-! ### Marks -/

/-- Looking up what has been put in front. -/
theorem lookup_cons_eq (a n : α) (m : Mark β) :
  ((a, m) :: marks).lookup n = if n = a then some m else marks.lookup n
  := by
  rw [List.lookup_cons]
  by_cases h : n = a
  · rw [if_pos h, h, BEq.rfl]
  · rw [if_neg h, beq_eq_false_iff_ne.mpr h]

/-- Only the root is marked at the start. -/
theorem lookup_start (root n : α) :
  (State.start root : State α β).marks.lookup n = if n = root then some .pending else none
  := by
  rw [State.start, lookup_cons_eq]
  rfl

/-- Dependencies none of which is entered can be marked: those without a mark are pending
then, and the marks of all other nodes are kept. -/
theorem markPending_eq (deps : List α) :
    ∀ (marks : List (α × Mark β)), (∀ d ∈ deps, marks.lookup d ≠ some .entered) →
      ∃ marks', markPending marks deps = some marks' ∧
        ∀ n, marks'.lookup n
          = if n ∈ deps ∧ marks.lookup n = none then some .pending else marks.lookup n := by
  induction deps with
  | nil =>
      intro marks _
      exact ⟨marks, rfl, by simp⟩
  | cons d rest ih =>
      intro marks h
      have hrest : ∀ e ∈ rest, marks.lookup e ≠ some .entered :=
        fun e he => h e (List.mem_cons_of_mem d he)
      cases hd : marks.lookup d with
      | none =>
          have hpending : ∀ e ∈ rest, ((d, Mark.pending) :: marks).lookup e ≠ some .entered := by
            intro e he
            rw [lookup_cons_eq]
            split
            · exact nofun
            · exact hrest e he
          obtain ⟨marks', hmarks, hlookup⟩ := ih _ hpending
          refine ⟨marks', ?_, ?_⟩
          · rw [markPending, hd]
            exact hmarks
          · intro n
            rw [hlookup, lookup_cons_eq]
            by_cases hn : n = d
            · simp [hn, hd]
            · simp only [hn, if_false, List.mem_cons, false_or]
      | some m =>
          obtain ⟨marks', hmarks, hlookup⟩ := ih marks hrest
          refine ⟨marks', ?_, ?_⟩
          · rw [markPending, hd]
            cases m with
            | entered => exact absurd hd (h d List.mem_cons_self)
            | pending => exact hmarks
            | left output => exact hmarks
          · intro n
            rw [hlookup]
            by_cases hn : n = d
            · simp [hn, hd]
            · simp only [hn, List.mem_cons, false_or]

/-- Dependencies that are marked are none of the entered nodes. -/
theorem not_entered_of_markPending (deps : List α) :
    ∀ {marks marks' : List (α × Mark β)}, markPending marks deps = some marks' →
      ∀ d ∈ deps, marks.lookup d ≠ some .entered := by
  induction deps with
  | nil => exact fun _ d hd => absurd hd List.not_mem_nil
  | cons d rest ih =>
      intro marks marks' h
      rw [markPending] at h
      cases hd : marks.lookup d with
      | none =>
          rw [hd] at h
          rw [List.forall_mem_cons]
          constructor
          · rw [hd]
            exact nofun
          · intro e he hentered
            apply ih h e he
            rw [lookup_cons_eq, if_neg, hentered]
            rintro rfl
            rw [hd] at hentered
            cases hentered
      | some m =>
          rw [hd] at h
          cases m with
          | entered => cases h
          | pending | left _ =>
              rw [List.forall_mem_cons]
              exact ⟨by rw [hd]; exact nofun, ih h⟩

/-- The outputs of dependencies that have been left. -/
theorem outputs_eq {f : α → β} {deps : List α}
    (h : ∀ d ∈ deps, marks.lookup d = some (.left (f d))) :
  outputs marks deps = some (deps.map fun d => (d, f d))
  := by
  induction deps with
  | nil => rfl
  | cons d rest ih =>
      have hrest := ih fun e he => h e (List.mem_cons_of_mem d he)
      rw [outputs, h d List.mem_cons_self]
      simp only [hrest, Option.map_some, List.map_cons]

/-- What a node is visited with: its dependencies in order, each with the output it has been
left with. -/
theorem outputs_eq_some {deps : List α} :
    ∀ {visited : List (α × β)}, outputs marks deps = some visited →
      visited.map Prod.fst = deps
        ∧ ∀ p ∈ visited, marks.lookup p.1 = some (.left p.2) := by
  induction deps with
  | nil =>
      intro visited h
      cases h
      exact ⟨rfl, fun p hp => absurd hp List.not_mem_nil⟩
  | cons d rest ih =>
      intro visited h
      rw [outputs] at h
      split at h
      case h_1 output hd =>
          obtain ⟨others, hothers, rfl⟩ := Option.map_eq_some_iff.mp h
          obtain ⟨hnames, hleft⟩ := ih hothers
          rw [List.map_cons, hnames, List.forall_mem_cons]
          exact ⟨rfl, hd, hleft⟩
      case h_2 => cases h

/-! ### One step -/

/-- What a step does to a state: all that a traversal can do. -/
inductive State.Steps (v : Visitor α β) (s : State α β) : Event α β → State α β → Prop where
  | enter {x : α} {rest : List α} {marks : List (α × Mark β)} (hstack : s.stack = x :: rest)
      (hx : s.marks.lookup x = some .pending)
      (hdeps : ∀ d ∈ v.dependencies x, d ≠ x ∧ s.marks.lookup d ≠ some .entered)
      (hmarks : ∀ n, marks.lookup n =
        if n = x then some .entered
        else if n ∈ v.dependencies x ∧ s.marks.lookup n = none then some .pending
        else s.marks.lookup n) :
    Steps v s (.enter x) ⟨(v.dependencies x).reverse ++ x :: rest, marks⟩
  | leave {x : α} {rest : List α} {visited : List (α × β)} (hstack : s.stack = x :: rest)
      (hx : s.marks.lookup x = some .entered)
      (hvisited : outputs s.marks (v.dependencies x) = some visited) :
    Steps v s (.leave x (v.visit x visited)) ⟨rest, (x, .left (v.visit x visited)) :: s.marks⟩
  | pass {x : α} {rest : List α} {output : β} (hstack : s.stack = x :: rest)
      (hx : s.marks.lookup x = some (.left output)) :
    Steps v s (.pass x) ⟨rest, s.marks⟩

variable {v : Visitor α β} {nodes : List α} {s s' : State α β} {e : Event α β}

/-- The marks after a pending node has been entered. -/
theorem lookup_enter {x : α} {marks' : List (α × Mark β)}
    (h : markPending ((x, .entered) :: marks) (v.dependencies x) = some marks') (n : α) :
  marks'.lookup n =
    if n = x then some .entered
    else if n ∈ v.dependencies x ∧ marks.lookup n = none then some .pending
    else marks.lookup n
  := by
  obtain ⟨marks'', hmarks, hlookup⟩ := markPending_eq _ _ (not_entered_of_markPending _ h)
  obtain rfl := Option.some.inj (h.symm.trans hmarks)
  rw [hlookup, lookup_cons_eq]
  by_cases hn : n = x
  · rw [if_pos hn, if_pos hn]
    exact if_neg fun h => nomatch h.2
  · rw [if_neg hn, if_neg hn]

theorem State.steps_of_step (h : s.step v = some (e, s')) :
  s.Steps v e s'
  := by
  rw [step] at h
  split at h
  case h_1 => cases h
  case h_2 x rest hstack =>
      split at h
      case h_1 => cases h
      case h_2 hx =>
          obtain ⟨marks', hmarks, hstep⟩ := Option.map_eq_some_iff.mp h
          cases hstep
          apply Steps.enter hstack hx _ (lookup_enter hmarks)
          intro d hd
          have hentered := not_entered_of_markPending _ hmarks d hd
          rw [lookup_cons_eq] at hentered
          split at hentered
          case isTrue => exact absurd rfl hentered
          case isFalse hne => exact ⟨hne, hentered⟩
      case h_3 hx =>
          obtain ⟨visited, hvisited, hstep⟩ := Option.map_eq_some_iff.mp h
          cases hstep
          exact .leave hstack hx hvisited
      case h_4 output hx =>
          cases h
          exact .pass hstack hx

/-- A step only stacks dependencies of what is stacked. -/
theorem State.Steps.mem_stack (h : s.Steps v e s') {n : α} (hn : n ∈ s'.stack) :
  n ∈ s.stack ∨ ∃ x ∈ s.stack, n ∈ v.dependencies x
  := by
  cases h with
  | enter hstack =>
      rw [hstack]
      rcases List.mem_append.mp hn with hn | hn
      · exact .inr ⟨_, List.mem_cons_self, List.mem_reverse.mp hn⟩
      · exact .inl hn
  | leave hstack | pass hstack =>
      rw [hstack]
      exact .inl (List.mem_cons_of_mem _ hn)

/-! ### Progress -/

/-- Whether a node has not been entered yet. -/
def isUnentered (marks : List (α × Mark β)) (n : α) : Bool :=
  match marks.lookup n with
  | none | some .pending => true
  | _ => false

/-- What the nodes that have not been entered add to the stack. -/
def unenteredWeight (v : Visitor α β) (nodes : List α) (marks : List (α × Mark β)) : Nat :=
  (nodes.map fun n => if isUnentered marks n then 1 + (v.dependencies n).length else 0).sum

/-- The number of steps that are left. -/
def State.remaining (v : Visitor α β) (nodes : List α) (s : State α β) : Nat :=
  s.stack.length + unenteredWeight v nodes s.marks

/-- Entering a node takes what it adds to the stack off the weight. -/
theorem unenteredWeight_enter (v : Visitor α β) {nodes : List α} (hnodup : nodes.Nodup)
    (marks marks' : List (α × Mark β)) {x : α} (hx : x ∈ nodes)
    (hold : isUnentered marks x = true) (hnew : isUnentered marks' x = false)
    (hkeep : ∀ n, n ≠ x → isUnentered marks' n = isUnentered marks n) :
  unenteredWeight v nodes marks
    = unenteredWeight v nodes marks' + (1 + (v.dependencies x).length)
  := by
  induction nodes with
  | nil => exact absurd hx List.not_mem_nil
  | cons n rest ih =>
      obtain ⟨hn, hrest⟩ := List.nodup_cons.mp hnodup
      simp only [unenteredWeight, List.map_cons, List.sum_cons]
      by_cases hnx : n = x
      · subst hnx
        have hsame : rest.map (fun m => if isUnentered marks m then 1 + (v.dependencies m).length else 0)
            = rest.map fun m => if isUnentered marks' m then 1 + (v.dependencies m).length else 0 := by
          apply List.map_congr_left
          intro m hm
          rw [hkeep m (fun h => hn (h ▸ hm))]
        rw [hold, hnew, hsame, if_pos rfl]
        simp only [Bool.false_eq_true, if_false]
        omega
      · have hmem : x ∈ rest := (List.mem_cons.mp hx).resolve_left (Ne.symm hnx)
        have := ih hrest hmem
        rw [unenteredWeight, unenteredWeight] at this
        rw [hkeep n hnx, this]
        omega

/-- Leaving an entered node keeps the weight. -/
theorem unenteredWeight_leave (v : Visitor α β) (nodes : List α) {x : α}
    (hx : marks.lookup x = some .entered) (output : β) :
  unenteredWeight v nodes ((x, .left output) :: marks) = unenteredWeight v nodes marks
  := by
  rw [unenteredWeight, unenteredWeight]
  congr 1
  apply List.map_congr_left
  intro n _
  rw [isUnentered, isUnentered, lookup_cons_eq]
  by_cases hn : n = x
  · rw [if_pos hn, hn, hx]
  · rw [if_neg hn]

/-- Every step among the nodes of a list takes one off what remains. -/
theorem State.Steps.remaining (h : s.Steps v e s') (hnodup : nodes.Nodup)
    (hmem : ∀ n ∈ s.stack, n ∈ nodes) :
  s'.remaining v nodes + 1 = s.remaining v nodes
  := by
  cases h with
  | @enter x rest marks hstack hx _ hmarks =>
      have hweight := unenteredWeight_enter v hnodup s.marks marks
        (hmem x (hstack ▸ List.mem_cons_self)) (by rw [isUnentered, hx])
        (by rw [isUnentered, hmarks, if_pos rfl]) (by
          intro n hn
          rw [isUnentered, isUnentered, hmarks, if_neg hn]
          by_cases h : n ∈ v.dependencies x ∧ s.marks.lookup n = none
          · rw [if_pos h, h.2]
          · rw [if_neg h])
      simp only [State.remaining, hstack, hweight, List.length_append, List.length_reverse,
        List.length_cons]
      omega
  | leave hstack hx =>
      simp only [State.remaining, hstack, unenteredWeight_leave v nodes hx, List.length_cons]
      omega
  | pass hstack =>
      simp only [State.remaining, hstack, List.length_cons]
      omega

/-- At the start, the steps that remain are those of the bound. -/
theorem remaining_start (v : Visitor α β) (nodes : List α) (root : α) :
  (State.start root : State α β).remaining v nodes = v.stepBound nodes
  := by
  have hun : ∀ n, isUnentered (State.start root : State α β).marks n = true := by
    intro n
    rw [isUnentered, lookup_start]
    by_cases h : n = root
    · rw [if_pos h]
    · rw [if_neg h]
  have hsum : ∀ l : List α, (l.map fun n => 1 + (v.dependencies n).length).sum
      = l.foldr (fun n total => 1 + (v.dependencies n).length + total) 0 := by
    intro l
    rw [List.sum, List.foldr_map]
  simp only [State.remaining, unenteredWeight, hun, if_true, hsum, Visitor.stepBound]
  rfl

end RelSql.Traversal
