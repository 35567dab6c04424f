import Mathlib.Data.Finset.Dedup
import Mathlib.Data.Finset.Card
import Mathlib.Logic.Relation
import RelSql.Proofs.Traversal.Completion

/-!
# The order of traversals

A traversal leaves every node at most once, after all the dependencies of the node, and calls
the visitor once for each node that it leaves.  It leaves the root just when no node that the
root leads to depends on itself; then it leaves all nodes that the root leads to, the root
last, and the output of the root is that of the recursion on dependencies.
-/

namespace RelSql

open Traversal Relation

/-! ### Dependencies -/

namespace Visitor

variable {α β : Type}

/-- A node depends on another one directly. -/
def Depends (v : Visitor α β) (n d : α) : Prop :=
  d ∈ v.dependencies n

/-- A node leads to itself, and to what the nodes that it leads to depend on. -/
def Reaches (v : Visitor α β) : α → α → Prop :=
  ReflTransGen v.Depends

/-- No node that the root leads to depends on itself, directly or not. -/
def AcyclicFrom (v : Visitor α β) (root : α) : Prop :=
  ∀ n, v.Reaches root n → ¬ TransGen v.Depends n n

/-- The function that gives every node that the root leads to the output for the outputs of
its dependencies, in their order. -/
def Folds (v : Visitor α β) (root : α) (out : α → β) : Prop :=
  ∀ n, v.Reaches root n → out n = v.visit n ((v.dependencies n).map fun d => (d, out d))

/-- Each output is that of a visit with outputs of all dependencies of the node, in their
order, which stand before it. -/
def Computed (v : Visitor α β) (done : List (α × β)) : Prop :=
  ∀ before n output after, done = before ++ (n, output) :: after →
    ∃ visited : List (α × β), visited.map Prod.fst = v.dependencies n
      ∧ (∀ p ∈ visited, p ∈ before) ∧ output = v.visit n visited

variable {v : Visitor α β} {done : List (α × β)}

theorem computed_nil :
  v.Computed []
  := by
  intro before n output after h
  cases before <;> cases h

/-- One more node is visited with outputs that are there. -/
theorem Computed.snoc (h : v.Computed done) {x : α} {visited : List (α × β)}
    (hnames : visited.map Prod.fst = v.dependencies x) (hdone : ∀ p ∈ visited, p ∈ done) :
  v.Computed (done ++ [(x, v.visit x visited)])
  := by
  intro before n output after hsplit
  rcases List.eq_nil_or_concat after with rfl | ⟨after, last, rfl⟩
  · obtain ⟨rfl, hlast⟩ := List.append_inj' hsplit rfl
    cases hlast
    exact ⟨visited, hnames, hdone, rfl⟩
  · rw [List.concat_eq_append, ← List.cons_append, ← List.append_assoc] at hsplit
    obtain ⟨hdone, _⟩ := List.append_inj' hsplit rfl
    exact h before n output after hdone

/-- A node stands after its dependencies. -/
theorem Computed.dependencies (h : v.Computed done) {before after : List α} {n : α}
    (hsplit : done.map Prod.fst = before ++ n :: after) :
  ∀ d ∈ v.dependencies n, d ∈ before
  := by
  obtain ⟨pre, rest, hdone, hpre, hrest⟩ := List.map_eq_append_iff.mp hsplit
  obtain ⟨⟨m, output⟩, post, rfl, hm, _⟩ := List.map_eq_cons_iff.mp hrest
  obtain rfl : m = n := hm
  obtain ⟨visited, hnames, hmem, _⟩ := h pre m output post hdone
  intro d hd
  rw [← hnames] at hd
  obtain ⟨p, hp, rfl⟩ := List.mem_map.mp hd
  rw [← hpre]
  exact List.mem_map_of_mem (hmem p hp)

/-- A node stands after all that it depends on, directly or not. -/
theorem Computed.transGen (h : v.Computed done) {n m : α} (hnm : TransGen v.Depends n m) :
    ∀ {before after : List α}, done.map Prod.fst = before ++ n :: after → m ∈ before := by
  induction hnm using TransGen.head_induction_on with
  | single hdep =>
      intro before after hsplit
      exact h.dependencies hsplit _ hdep
  | @head n d hdep _ ih =>
      intro before after hsplit
      obtain ⟨pre, post, rfl⟩ := List.append_of_mem (h.dependencies hsplit d hdep)
      rw [List.append_assoc, List.cons_append] at hsplit
      exact List.mem_append_left _ (ih hsplit)

/-- What is computed leads to computed nodes only. -/
theorem Computed.mem_of_reaches (h : v.Computed done) {n m : α} (hn : n ∈ done.map Prod.fst)
    (hnm : v.Reaches n m) :
  m ∈ done.map Prod.fst
  := by
  rcases reflTransGen_iff_eq_or_transGen.mp hnm with rfl | hnm
  · exact hn
  · obtain ⟨before, after, hsplit⟩ := List.append_of_mem hn
    rw [hsplit]
    exact List.mem_append_left _ (h.transGen hnm hsplit)

/-- What is computed once does not lead to itself. -/
theorem Computed.acyclicFrom (h : v.Computed done) (hnodup : (done.map Prod.fst).Nodup) {root : α}
    (hroot : root ∈ done.map Prod.fst) :
  v.AcyclicFrom root
  := by
  intro n hn hcycle
  obtain ⟨before, after, hsplit⟩ := List.append_of_mem (h.mem_of_reaches hroot hn)
  rw [hsplit] at hnodup
  exact (List.nodup_append.mp hnodup).2.2 n (h.transGen hcycle hsplit) n List.mem_cons_self rfl

/-- A node that leads to all that is computed is the last one. -/
theorem Computed.getLast? (h : v.Computed done) (hnodup : (done.map Prod.fst).Nodup) {root : α}
    (hroot : root ∈ done.map Prod.fst) (hall : ∀ n ∈ done.map Prod.fst, v.Reaches root n) :
  (done.map Prod.fst).getLast? = some root
  := by
  obtain ⟨before, after, hsplit⟩ := List.append_of_mem hroot
  cases after with
  | nil => rw [hsplit, List.getLast?_concat]
  | cons n after =>
      have hn : n ∈ done.map Prod.fst := by simp [hsplit]
      rw [hsplit] at hnodup
      obtain ⟨_, hlast, hapart⟩ := List.nodup_append.mp hnodup
      rcases reflTransGen_iff_eq_or_transGen.mp (hall n hn) with rfl | hreach
      · exact absurd List.mem_cons_self (List.nodup_cons.mp hlast).1
      · exact absurd rfl (hapart n (h.transGen hreach hsplit) n (by simp))

end Visitor

/-! ### What a run leaves -/

namespace Traversal

variable {α β : Type} [DecidableEq α] {v : Visitor α β} {root : α} {done : List (α × β)}
  {s s' : State α β} {e : Event α β}

/-- What holds of a state when the nodes of `done` have been left, whether or not nodes depend
on themselves. -/
structure State.Tracks (v : Visitor α β) (root : α) (done : List (α × β)) (s : State α β) :
    Prop where
  left : ∀ n output, s.marks.lookup n = some (.left output) ↔ (n, output) ∈ done
  nodup : (done.map Prod.fst).Nodup
  computed : v.Computed done
  stacked : ∀ n ∈ s.stack, v.Reaches root n
  reached : ∀ n ∈ done.map Prod.fst, v.Reaches root n

omit [DecidableEq α] in
theorem filterMap_output_cons (e : Event α β) (events : List (Event α β)) :
  (e :: events).filterMap Event.output? = e.output?.toList ++ events.filterMap Event.output?
  := by
  cases e <;> rfl

theorem tracks_start (v : Visitor α β) (root : α) :
  (State.start root : State α β).Tracks v root []
  := by
  refine ⟨?_, List.nodup_nil, Visitor.computed_nil, ?_, nofun⟩
  · intro n output
    rw [lookup_start]
    split <;> simp
  · intro n hn
    rw [List.mem_singleton.mp hn]
    exact .refl

/-- A step leaves a node that has not been left, after its dependencies, or none. -/
theorem State.Tracks.steps (h : s.Tracks v root done) (hstep : s.Steps v e s') :
  s'.Tracks v root (done ++ e.output?.toList)
  := by
  have hstacked : ∀ n ∈ s'.stack, v.Reaches root n := by
    intro n hn
    rcases hstep.mem_stack hn with hn | ⟨x, hx, hdep⟩
    · exact h.stacked n hn
    · exact (h.stacked x hx).tail hdep
  cases hstep with
  | @enter x rest marks hstack hx hdeps hmarks =>
      rw [show (Event.enter x : Event α β).output?.toList = [] from rfl, List.append_nil]
      refine ⟨?_, h.nodup, h.computed, hstacked, h.reached⟩
      intro n output
      rw [← h.left, hmarks]
      by_cases hn : n = x
      · simp [hn, hx]
      · rw [if_neg hn]
        by_cases hnew : n ∈ v.dependencies x ∧ s.marks.lookup n = none
        · simp [hnew]
        · rw [if_neg hnew]
  | @leave x rest visited hstack hx hvisited =>
      rw [show (Event.leave x (v.visit x visited)).output?.toList = [(x, v.visit x visited)]
        from rfl]
      obtain ⟨hnames, houtputs⟩ := outputs_eq_some hvisited
      have hfresh : x ∉ done.map Prod.fst := by
        intro hmem
        obtain ⟨⟨_, output⟩, hp, rfl⟩ := List.mem_map.mp hmem
        rw [(h.left _ output).mpr hp] at hx
        cases hx
      refine ⟨?_, ?_, ?_, hstacked, ?_⟩
      · intro n output
        rw [lookup_cons_eq, List.mem_append, List.mem_singleton, ← h.left, Prod.mk.injEq]
        by_cases hn : n = x
        · simp [hn, hx, eq_comm]
        · simp [hn]
      · rw [List.map_append]
        apply h.nodup.append (List.nodup_singleton x)
        intro n hn hnx
        rw [List.mem_singleton.mp hnx] at hn
        exact hfresh hn
      · exact h.computed.snoc hnames fun p hp => (h.left p.1 p.2).mp (houtputs p hp)
      · rw [List.map_append, List.forall_mem_append, List.forall_mem_map, List.forall_mem_map,
          List.forall_mem_singleton]
        refine ⟨List.forall_mem_map.mp h.reached, h.stacked x ?_⟩
        rw [hstack]
        exact List.mem_cons_self
  | pass hstack hx =>
      rw [show (Event.pass _ : Event α β).output?.toList = [] from rfl, List.append_nil]
      exact ⟨h.left, h.nodup, h.computed, hstacked, h.reached⟩

/-- What a run leaves, by induction on its steps. -/
theorem State.Tracks.events (bound : Nat) :
    ∀ {s : State α β} {done : List (α × β)}, s.Tracks v root done →
      ∃ s' : State α β,
        s'.Tracks v root (done ++ (s.events v bound).filterMap Event.output?) := by
  induction bound with
  | zero =>
      intro s done h
      rw [State.events, List.filterMap_nil, List.append_nil]
      exact ⟨s, h⟩
  | succ bound ih =>
      intro s done h
      rw [State.events]
      cases hstep : s.step v with
      | none =>
          rw [List.filterMap_nil, List.append_nil]
          exact ⟨s, h⟩
      | some next =>
          obtain ⟨e, s'⟩ := next
          obtain ⟨final, hfinal⟩ := ih (h.steps (State.steps_of_step hstep))
          rw [List.append_assoc, ← filterMap_output_cons] at hfinal
          exact ⟨final, hfinal⟩

/-- A run among the nodes of a list that dependencies do not leave has no more steps than
remain. -/
theorem length_events_le {nodes : List α} (hnodup : nodes.Nodup)
    (hclosed : ∀ n ∈ nodes, ∀ d ∈ v.dependencies n, d ∈ nodes) (bound : Nat) :
    ∀ {s : State α β}, (∀ n ∈ s.stack, n ∈ nodes) →
      (s.events v bound).length ≤ s.remaining v nodes := by
  induction bound with
  | zero => exact fun _ => Nat.zero_le _
  | succ bound ih =>
      intro s hs
      rw [State.events]
      cases hstep : s.step v with
      | none => exact Nat.zero_le _
      | some next =>
          obtain ⟨e, s'⟩ := next
          have hsteps := State.steps_of_step hstep
          have hs' : ∀ n ∈ s'.stack, n ∈ nodes := by
            intro n hn
            rcases hsteps.mem_stack hn with hn | ⟨x, hx, hdep⟩
            · exact hs n hn
            · exact hclosed x (hs x hx) n hdep
          have hremaining := hsteps.remaining hnodup hs
          have hrest := ih hs'
          rw [List.length_cons]
          omega

end Traversal

/-! ### Calls of the visitor -/

namespace Traversal

variable {α β : Type} [DecidableEq α] {m : Type → Type} [Monad m]

/-- Takes the next node from the stack, the visits having effects. -/
def State.stepM (dependencies : α → List α) (visit : α → List (α × β) → m β)
    (s : State α β) : m (Option (Event α β × State α β)) :=
  match s.stack with
  | [] => return none
  | node :: rest =>
    match s.marks.lookup node with
    | none => return none
    | some .pending =>
      return (markPending ((node, .entered) :: s.marks) (dependencies node)).map fun marks =>
        (.enter node, ⟨(dependencies node).reverse ++ node :: rest, marks⟩)
    | some .entered =>
      match Traversal.outputs s.marks (dependencies node) with
      | none => return none
      | some visited => do
        let output ← visit node visited
        return some (.leave node output, ⟨rest, (node, .left output) :: s.marks⟩)
    | some (.left _) => return some (.pass node, ⟨rest, s.marks⟩)

/-- The events of at most `n` steps, the visits having effects. -/
def State.eventsM (dependencies : α → List α) (visit : α → List (α × β) → m β) :
    Nat → State α β → m (List (Event α β))
  | 0, _ => return []
  | n + 1, s => do
    match ← s.stepM dependencies visit with
    | none => return []
    | some (e, s) => return e :: (← State.eventsM dependencies visit n s)

/-- Writes the node down, and visits it. -/
def logged (v : Visitor α β) (n : α) (visited : List (α × β)) : StateM (List α) β := do
  modify (· ++ [n])
  return v.visit n visited

variable {v : Visitor α β}

/-- A step visits the node that it leaves, and no other one. -/
theorem run_stepM (s : State α β) (log : List α) :
  (s.stepM v.dependencies (logged v)).run log
    = (s.step v, log ++ ((s.step v).bind fun next => next.1.output?).toList.map Prod.fst)
  := by
  have hpure : ∀ r : Option (Event α β × State α β),
      (∀ next ∈ r, next.1.output? = none) →
      (pure r : StateM (List α) _).run log
        = (r, log ++ (r.bind fun next => next.1.output?).toList.map Prod.fst) := by
    intro r hr
    cases r with
    | none => exact congrArg (Prod.mk none) (List.append_nil log).symm
    | some next =>
        rw [Option.bind_some, hr next rfl]
        exact congrArg (Prod.mk _) (List.append_nil log).symm
  rw [State.stepM, State.step]
  cases s.stack with
  | nil => exact hpure none (by simp)
  | cons node rest =>
      dsimp only
      cases s.marks.lookup node with
      | none => exact hpure none (by simp)
      | some mark =>
          cases mark with
          | pending =>
              apply hpure
              intro next hnext
              obtain ⟨marks, _, rfl⟩ := Option.map_eq_some_iff.mp hnext
              rfl
          | entered =>
              dsimp only
              cases Traversal.outputs s.marks (v.dependencies node) with
              | none => exact hpure none (by simp)
              | some visited => rfl
          | left output => exact hpure _ (by rintro _ ⟨⟩; rfl)

/-- A traversal visits the nodes that it leaves, in order, and no others. -/
theorem run_eventsM (bound : Nat) :
    ∀ (s : State α β) (log : List α),
      (s.eventsM v.dependencies (logged v) bound).run log
        = (s.events v bound,
          log ++ ((s.events v bound).filterMap Event.output?).map Prod.fst) := by
  induction bound with
  | zero =>
      intro s log
      exact congrArg (Prod.mk []) (List.append_nil log).symm
  | succ bound ih =>
      intro s log
      rw [State.eventsM, StateT.run_bind, run_stepM, State.events]
      cases s.step v with
      | none => rfl
      | some next =>
          obtain ⟨e, s'⟩ := next
          have hrest := ih s' (log ++ e.output?.toList.map Prod.fst)
          rw [List.append_assoc, ← List.map_append, ← filterMap_output_cons] at hrest
          change StateT.run (do return e :: (← s'.eventsM v.dependencies (logged v) bound))
            (log ++ e.output?.toList.map Prod.fst) = _
          rw [StateT.run_bind, hrest]
          rfl

end Traversal

/-! ### Reachable nodes -/

namespace Visitor

variable {α β : Type} [DecidableEq α] {v : Visitor α β} {nodes : List α} {root : α}

/-- The nodes whose visitor is called on the way, in order, in a traversal of at most `bound`
steps. -/
def calls (v : Visitor α β) (bound : Nat) (root : α) : List α :=
  ((State.eventsM v.dependencies (logged v) bound (.start root)).run []).2

theorem calls_eq (v : Visitor α β) (bound : Nat) (root : α) :
  v.calls bound root = (v.outputs bound root).map Prod.fst
  := by
  rw [calls, run_eventsM, List.nil_append, outputs, events]

omit [DecidableEq α] in
theorem stepBound_le_of_sublist (v : Visitor α β) {nodes nodes' : List α}
    (h : nodes.Sublist nodes') :
  v.stepBound nodes ≤ v.stepBound nodes'
  := by
  rw [stepBound, stepBound]
  apply Nat.add_le_add_left
  induction h with
  | slnil => exact Nat.le_refl _
  | cons n _ ih => exact Nat.le_trans ih (Nat.le_add_left _ _)
  | cons_cons n _ ih => exact Nat.add_le_add_left ih _

omit [DecidableEq α] in
/-- A list that dependencies do not leave has all that its nodes lead to. -/
theorem mem_of_reaches (hclosed : ∀ n ∈ nodes, ∀ d ∈ v.dependencies n, d ∈ nodes) {n : α}
    (hn : n ∈ nodes) {m : α} (h : v.Reaches n m) :
  m ∈ nodes
  := by
  induction h with
  | refl => exact hn
  | tail _ hdep ih => exact hclosed _ ih _ hdep

open Classical in
/-- The number of nodes that a node depends on, directly or not. -/
noncomputable def rank (v : Visitor α β) (nodes : List α) (n : α) : Nat :=
  (nodes.toFinset.filter fun m => TransGen v.Depends n m).card

/-- The dependencies of a node that does not lead back to them have a smaller rank. -/
theorem rank_lt {n d : α} (hd : d ∈ nodes) (hdep : v.Depends n d)
    (hacyclic : ¬ TransGen v.Depends d d) :
  v.rank nodes d < v.rank nodes n
  := by
  classical
  apply Finset.card_lt_card
  rw [Finset.ssubset_iff_of_subset]
  · use d
    simp only [Finset.mem_filter, List.mem_toFinset]
    exact ⟨⟨hd, .single hdep⟩, fun h => hacyclic h.2⟩
  · intro m hm
    simp only [Finset.mem_filter] at hm ⊢
    exact ⟨hm.1, .head hdep hm.2⟩

open Classical in
/-- The nodes of a list that the root leads to. -/
noncomputable def reachable (v : Visitor α β) (nodes : List α) (root : α) : List α :=
  (nodes.filter fun n => v.Reaches root n).dedup

theorem mem_reachable_iff {n : α} :
  n ∈ v.reachable nodes root ↔ n ∈ nodes ∧ v.Reaches root n
  := by
  simp only [reachable, List.mem_dedup, List.mem_filter, decide_eq_true_eq]

theorem stepBound_reachable_le (v : Visitor α β) (nodes : List α) (root : α) :
  v.stepBound (v.reachable nodes root) ≤ v.stepBound nodes
  := v.stepBound_le_of_sublist ((List.dedup_sublist _).trans List.filter_sublist)

omit [DecidableEq α] in
/-- There is a function on all nodes that satisfies the equation of the recursion wherever
dependencies have a smaller rank. -/
theorem exists_recursion (v : Visitor α β) (rank : α → Nat) :
  ∃ out : α → β, ∀ n, (∀ d ∈ v.dependencies n, rank d < rank n) →
    out n = v.visit n ((v.dependencies n).map fun d => (d, out d))
  := by
  let step (n : α) (below : ∀ d, rank d < rank n → β) : β :=
    v.visit n ((v.dependencies n).map fun d =>
      (d, if h : rank d < rank n then below d h else v.visit d []))
  use (measure rank).wf.fix step
  intro n hn
  rw [WellFounded.fix_eq]
  apply congrArg (v.visit n)
  apply List.map_congr_left
  intro d hd
  rw [dif_pos (hn d hd)]

theorem exists_folds (hclosed : ∀ n ∈ nodes, ∀ d ∈ v.dependencies n, d ∈ nodes)
    (hroot : root ∈ nodes) (hacyclic : v.AcyclicFrom root) :
  ∃ out, v.Folds root out
  := by
  obtain ⟨out, hout⟩ := v.exists_recursion (v.rank nodes)
  use out
  intro n hn
  apply hout
  intro d hdep
  have hd : v.Reaches root d := hn.tail hdep
  exact rank_lt (mem_of_reaches hclosed hroot hd) hdep (hacyclic d hd)

/-- The recursion on dependencies is computed on what an acyclic root leads to. -/
theorem Folds.computes {out : α → β} (hout : v.Folds root out)
    (hclosed : ∀ n ∈ nodes, ∀ d ∈ v.dependencies n, d ∈ nodes) (hacyclic : v.AcyclicFrom root) :
  v.Computes (v.rank nodes) out (v.reachable nodes root)
  := by
  refine ⟨List.nodup_dedup _, ?_, ?_⟩
  · intro n hn d hdep
    obtain ⟨hmem, hreach⟩ := mem_reachable_iff.mp hn
    have hd : v.Reaches root d := hreach.tail hdep
    exact ⟨rank_lt (hclosed n hmem d hdep) hdep (hacyclic d hd),
      mem_reachable_iff.mpr ⟨hclosed n hmem d hdep, hd⟩⟩
  · intro n hn
    exact (hout n (mem_reachable_iff.mp hn).2).symm

/-! ### Complete traversals -/

/-- What the outputs of a traversal are, whether or not nodes depend on themselves. -/
theorem exists_tracks (v : Visitor α β) (bound : Nat) (root : α) :
  ∃ s : State α β, s.Tracks v root (v.outputs bound root)
  := (tracks_start v root).events bound

/-- A traversal has no more events than the bound for the nodes. -/
theorem length_events_root (hclosed : ∀ n ∈ nodes, ∀ d ∈ v.dependencies n, d ∈ nodes)
    (hroot : root ∈ nodes) (bound : Nat) :
  (v.events bound root).length ≤ v.stepBound nodes
  := by
  have hlength := length_events_le (v := v) nodes.nodup_dedup (by simpa using hclosed) bound
    (s := .start root) (by simpa [State.start] using hroot)
  rw [remaining_start] at hlength
  exact Nat.le_trans hlength (v.stepBound_le_of_sublist nodes.dedup_sublist)

/-- A traversal with enough steps leaves a root from which nothing depends on itself. -/
theorem Folds.mem_outputs {out : α → β} (hout : v.Folds root out)
    (hclosed : ∀ n ∈ nodes, ∀ d ∈ v.dependencies n, d ∈ nodes) (hroot : root ∈ nodes)
    (hacyclic : v.AcyclicFrom root) {bound : Nat} (hbound : v.stepBound nodes ≤ bound) :
  (root, out root) ∈ v.outputs bound root
  := by
  apply (hout.computes hclosed hacyclic).mem_outputs (mem_reachable_iff.mpr ⟨hroot, .refl⟩)
  exact Nat.le_trans (v.stepBound_reachable_le nodes root) hbound

/-- The root is left by a traversal with enough steps just when nothing that it leads to
depends on itself. -/
theorem root_mem_outputs_iff (hclosed : ∀ n ∈ nodes, ∀ d ∈ v.dependencies n, d ∈ nodes)
    (hroot : root ∈ nodes) {bound : Nat} (hbound : v.stepBound nodes ≤ bound) :
  root ∈ (v.outputs bound root).map Prod.fst ↔ v.AcyclicFrom root
  := by
  constructor
  · obtain ⟨s, hs⟩ := v.exists_tracks bound root
    exact hs.computed.acyclicFrom hs.nodup
  · intro hacyclic
    obtain ⟨out, hout⟩ := exists_folds hclosed hroot hacyclic
    exact List.mem_map_of_mem (f := Prod.fst) (hout.mem_outputs hclosed hroot hacyclic hbound)

/-- A traversal among the nodes of a list ends.  It leaves each node at most once, after all
dependencies of the node, and with the output of a visit with their outputs; it calls the
visitor on the nodes that it leaves, in their order, and on no others.  It leaves the root
just when nothing that the root leads to depends on itself; then it leaves just the nodes
that the root leads to, the root last. -/
theorem outputs_enumerate (hclosed : ∀ n ∈ nodes, ∀ d ∈ v.dependencies n, d ∈ nodes)
    (hroot : root ∈ nodes) :
  (∀ bound, (v.events bound root).length ≤ v.stepBound nodes
      ∧ ((v.outputs bound root).map Prod.fst).Nodup
      ∧ v.Computed (v.outputs bound root)
      ∧ v.calls bound root = (v.outputs bound root).map Prod.fst)
    ∧ ∀ bound, v.stepBound nodes ≤ bound →
      (root ∈ (v.outputs bound root).map Prod.fst ↔ v.AcyclicFrom root)
      ∧ (root ∈ (v.outputs bound root).map Prod.fst →
        (∀ n, n ∈ (v.outputs bound root).map Prod.fst ↔ v.Reaches root n)
        ∧ ((v.outputs bound root).map Prod.fst).getLast? = some root)
  := by
  constructor
  · intro bound
    obtain ⟨s, hs⟩ := v.exists_tracks bound root
    exact ⟨length_events_root hclosed hroot bound, hs.nodup, hs.computed, v.calls_eq bound root⟩
  · intro bound hbound
    refine ⟨root_mem_outputs_iff hclosed hroot hbound, ?_⟩
    intro hmem
    obtain ⟨s, hs⟩ := v.exists_tracks bound root
    constructor
    · intro n
      exact ⟨hs.reached n, hs.computed.mem_of_reaches hmem⟩
    · exact hs.computed.getLast? hs.nodup hmem hs.reached

/-- Node 4 depends twice on 3, which shares its dependencies with 1, and node 5 depends on 4
and, through 6, on itself.  The output of a node counts the paths that start there. -/
def looped : Visitor Nat Nat where
  dependencies
    | 1 => [0]
    | 3 => [1, 0]
    | 4 => [3, 1, 3]
    | 5 => [6, 4]
    | 6 => [5]
    | _ => []
  visit _ visited := 1 + (visited.map Prod.snd).sum

/-- The nodes below 4 are left in order, and 5 is not left. -/
theorem outputs_enumerate_looped :
  looped.calls 30 5 = [0, 1, 3, 4] ∧ ¬ looped.AcyclicFrom 5 ∧ looped.Computed (looped.outputs 30 5)
    ∧ (∀ n, n ∈ [0, 1, 3, 4] ↔ looped.Reaches 4 n)
  := by
  have hclosed : ∀ n ∈ [0, 1, 3, 4, 5, 6], ∀ d ∈ looped.dependencies n, d ∈ [0, 1, 3, 4, 5, 6] := by
    decide
  have hleft : (looped.outputs 30 5).map Prod.fst = [0, 1, 3, 4] := by decide
  have hbelow : (looped.outputs 30 4).map Prod.fst = [0, 1, 3, 4] := by decide
  have hfour : 4 ∈ [0, 1, 3, 4, 5, 6] := by decide
  have hfive : 5 ∈ [0, 1, 3, 4, 5, 6] := by decide
  obtain ⟨hruns, hends⟩ := outputs_enumerate hclosed hfive
  obtain ⟨_, _, hcomputed, hcalls⟩ := hruns 30
  obtain ⟨_, hwhole⟩ := (outputs_enumerate hclosed hfour).2 30 (by decide)
  refine ⟨hcalls.trans hleft, ?_, hcomputed, ?_⟩
  · rw [← (hends 30 (by decide)).1, hleft]
    decide
  · rw [← hbelow]
    exact (hwhole (by decide)).1

/-- A traversal ends.  If nothing that the root leads to depends on itself, it gives the
output of the recursion on dependencies, which there is, and no output otherwise. -/
theorem accept?_folds (hclosed : ∀ n ∈ nodes, ∀ d ∈ v.dependencies n, d ∈ nodes)
    (hroot : root ∈ nodes) :
  (∀ bound, (v.events bound root).length ≤ v.stepBound nodes)
    ∧ (v.AcyclicFrom root → (∃ out, v.Folds root out)
      ∧ ∀ out, v.Folds root out → ∀ bound, v.stepBound nodes ≤ bound →
        v.accept? bound root = some (out root))
    ∧ (¬ v.AcyclicFrom root → ∀ bound, v.accept? bound root = none)
  := by
  refine ⟨length_events_root hclosed hroot, ?_, ?_⟩
  · intro hacyclic
    refine ⟨exists_folds hclosed hroot hacyclic, ?_⟩
    intro out hout bound hbound
    apply accept?_eq (hout.computes hclosed hacyclic) (mem_reachable_iff.mpr ⟨hroot, .refl⟩)
    exact Nat.le_trans (v.stepBound_reachable_le nodes root) hbound
  · intro hcyclic bound
    obtain ⟨s, hs⟩ := v.exists_tracks bound root
    rw [accept?, Option.map_eq_none_iff, List.find?_eq_none]
    intro o ho hname
    have hmem := List.mem_map_of_mem (f := Prod.fst) (List.mem_reverse.mp ho)
    rw [of_decide_eq_true hname] at hmem
    exact hcyclic (hs.computed.acyclicFrom hs.nodup hmem)

/-- There are 11 paths from 4, and no output for 5. -/
theorem accept?_folds_looped :
  (∃ out, looped.Folds 4 out ∧ out 4 = 11) ∧ looped.accept? 30 4 = some 11
    ∧ ¬ looped.AcyclicFrom 5 ∧ looped.accept? 30 5 = none
  := by
  have hclosed : ∀ n ∈ [0, 1, 3, 4, 5, 6], ∀ d ∈ looped.dependencies n, d ∈ [0, 1, 3, 4, 5, 6] := by
    decide
  have hfour : 4 ∈ [0, 1, 3, 4, 5, 6] := by decide
  have hfive : 5 ∈ [0, 1, 3, 4, 5, 6] := by decide
  obtain ⟨_, hfolds, _⟩ := accept?_folds hclosed hfour
  obtain ⟨_, _, hnone⟩ := accept?_folds hclosed hfive
  have hacyclic : looped.AcyclicFrom 4 := by
    rw [← root_mem_outputs_iff hclosed hfour (Nat.le_refl _)]
    decide
  have hcyclic : ¬ looped.AcyclicFrom 5 := by
    intro h
    apply h 5 .refl
    have hthere : 6 ∈ looped.dependencies 5 := by decide
    have hback : 5 ∈ looped.dependencies 6 := by decide
    exact .head hthere (.single hback)
  have hrun : looped.accept? 30 4 = some 11 := by decide
  obtain ⟨⟨out, hout⟩, haccept⟩ := hfolds hacyclic
  refine ⟨⟨out, hout, ?_⟩, hrun, hcyclic, hnone hcyclic 30⟩
  rw [haccept out hout 30 (by decide)] at hrun
  exact Option.some.inj hrun

end Visitor

end RelSql
