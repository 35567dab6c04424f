import RelSql.Proofs.Traversal.Steps

/-!
# Completion of traversals

When the dependencies of a node have a smaller rank, no node depends on itself.  The
traversal then ends, within the number of its nodes and of their dependencies, and the
output of a node is that of a recursion on its dependencies.
-/

namespace RelSql.Traversal

variable {α β : Type} [DecidableEq α]

/-! ### The invariant -/

/-- What holds of every state of a traversal of `nodes`: an entered node is on the stack,
below dependencies of smaller rank that have not been left, and outputs are right. -/
structure State.Sound (v : Visitor α β) (rank : α → Nat) (f : α → β) (nodes : List α)
    (s : State α β) : Prop where
  marked : ∀ n ∈ s.stack, n ∈ nodes ∧ s.marks.lookup n ≠ none
  entered : ∀ n, s.marks.lookup n = some .entered →
    ∃ above below, s.stack = above ++ n :: below ∧ (∀ a ∈ above, rank a < rank n) ∧
      ∀ d ∈ v.dependencies n, s.marks.lookup d = some (.left (f d)) ∨ d ∈ above
  left : ∀ n output, s.marks.lookup n = some (.left output) → output = f n

section

variable {v : Visitor α β} {rank : α → Nat} {f : α → β} {nodes : List α} {s : State α β}
  {x : α} {rest : List α}

theorem sound_start {root : α} (h : root ∈ nodes) :
  State.Sound v rank f nodes (.start root)
  := by
  have hlookup : ∀ n, (State.start root : State α β).marks.lookup n
      = if n = root then some .pending else none := by
    intro n
    rw [State.start, lookup_cons_eq]
    rfl
  constructor
  · intro n hn
    rw [List.mem_singleton.mp hn, hlookup, if_pos rfl]
    exact ⟨h, by simp⟩
  · intro n hn
    rw [hlookup] at hn
    split at hn <;> cases hn
  · intro n output hn
    rw [hlookup] at hn
    split at hn <;> cases hn

/-- A node that has been left is on top of no entered one. -/
theorem State.Sound.tail (hs : s.Sound v rank f nodes) (hstack : s.stack = x :: rest)
    {marks : List (α × Mark β)} (hx : marks.lookup x = some (.left (f x)))
    (hkeep : ∀ n, n ≠ x → marks.lookup n = s.marks.lookup n) :
  State.Sound v rank f nodes ⟨rest, marks⟩
  := by
  have hleft : ∀ n, s.marks.lookup n = some (.left (f n)) →
      marks.lookup n = some (.left (f n)) := by
    intro n hn
    by_cases h : n = x
    · rw [h]
      exact hx
    · rw [hkeep n h, hn]
  constructor
  · intro n hn
    have hold := hs.marked n (hstack ▸ List.mem_cons_of_mem x hn)
    refine ⟨hold.1, ?_⟩
    by_cases h : n = x
    · rw [h, hx]
      exact nofun
    · rw [hkeep n h]
      exact hold.2
  · intro n hn
    have hnx : n ≠ x := by
      intro h
      rw [h, hx] at hn
      cases hn
    rw [hkeep n hnx] at hn
    obtain ⟨above, below, hsplit, hrank, hdeps⟩ := hs.entered n hn
    rw [hstack] at hsplit
    cases above with
    | nil => exact absurd (List.cons.inj hsplit).1.symm hnx
    | cons a above =>
        obtain ⟨rfl, hrest⟩ := List.cons.inj hsplit
        refine ⟨above, below, hrest, ?_, ?_⟩
        · intro b hb
          exact hrank b (List.mem_cons_of_mem x hb)
        · intro d hd
          rcases hdeps d hd with h | h
          · exact .inl (hleft d h)
          · rcases List.mem_cons.mp h with rfl | h
            · exact .inl hx
            · exact .inr h
  · intro n output hn
    by_cases h : n = x
    · rw [h, hx] at hn
      cases hn
      rw [h]
    · rw [hkeep n h] at hn
      exact hs.left n output hn

/-- All entered nodes have a greater rank than a pending one on top of them. -/
theorem State.Sound.rank_lt (hs : s.Sound v rank f nodes) (hstack : s.stack = x :: rest)
    (hx : s.marks.lookup x = some .pending) {n : α}
    (hn : s.marks.lookup n = some .entered) :
  rank x < rank n
  := by
  obtain ⟨above, below, hsplit, hrank, _⟩ := hs.entered n hn
  rw [hstack] at hsplit
  cases above with
  | nil =>
      rw [(List.cons.inj hsplit).1, hn] at hx
      cases hx
  | cons a above =>
      rw [(List.cons.inj hsplit).1]
      exact hrank a List.mem_cons_self

/-- Entering a pending node. -/
theorem State.Sound.enter (hs : s.Sound v rank f nodes) (hstack : s.stack = x :: rest)
    (hrank : ∀ d ∈ v.dependencies x, rank d < rank x ∧ d ∈ nodes)
    (hx : s.marks.lookup x = some .pending) {marks : List (α × Mark β)}
    (hmarks : ∀ n, marks.lookup n =
      if n = x then some .entered
      else if n ∈ v.dependencies x ∧ s.marks.lookup n = none then some .pending
      else s.marks.lookup n) :
  State.Sound v rank f nodes ⟨(v.dependencies x).reverse ++ x :: rest, marks⟩
  := by
  have hleft : ∀ n output, s.marks.lookup n = some (.left output) →
      marks.lookup n = some (.left output) := by
    intro n output hn
    have hnx : n ≠ x := by
      intro h
      rw [h, hx] at hn
      cases hn
    rw [hmarks, if_neg hnx, hn, if_neg (by simp)]
  constructor
  · intro n hn
    rcases List.mem_append.mp hn with h | h
    · have hd := List.mem_reverse.mp h
      refine ⟨(hrank n hd).2, ?_⟩
      rw [hmarks]
      split
      · exact nofun
      · split
        · exact nofun
        case isFalse hnone => exact fun h => hnone ⟨hd, h⟩
    · rw [← hstack] at h
      have hold := hs.marked n h
      refine ⟨hold.1, ?_⟩
      rw [hmarks]
      split
      · exact nofun
      · split
        · exact nofun
        · exact hold.2
  · intro n hn
    rw [hmarks] at hn
    split at hn
    case isTrue h =>
        subst h
        refine ⟨_, rest, rfl, ?_, ?_⟩
        · intro a ha
          exact (hrank a (List.mem_reverse.mp ha)).1
        · intro d hd
          exact .inr (List.mem_reverse.mpr hd)
    case isFalse h =>
        split at hn
        · cases hn
        · have hlt := hs.rank_lt hstack hx hn
          obtain ⟨above, below, hsplit, habove, hdeps⟩ := hs.entered n hn
          refine ⟨(v.dependencies x).reverse ++ above, below, ?_, ?_, ?_⟩
          · rw [← hstack, hsplit, List.append_assoc]
          · intro a ha
            rcases List.mem_append.mp ha with ha | ha
            · exact Nat.lt_trans (hrank a (List.mem_reverse.mp ha)).1 hlt
            · exact habove a ha
          · intro d hd
            rcases hdeps d hd with h | h
            · exact .inl (hleft d _ h)
            · exact .inr (List.mem_append_right _ h)
  · intro n output hn
    rw [hmarks] at hn
    split at hn
    · cases hn
    · split at hn
      · cases hn
      · exact hs.left n output hn

end

end RelSql.Traversal

/-! ### The run -/

namespace RelSql

open Traversal

variable {α β : Type} [DecidableEq α]

/-- On the nodes of a list, dependencies have a smaller rank and are in the list, and the
output of a node is that of `f` when the outputs of its dependencies are. -/
structure Visitor.Computes (v : Visitor α β) (rank : α → Nat) (f : α → β)
    (nodes : List α) : Prop where
  nodup : nodes.Nodup
  dependencies : ∀ n ∈ nodes, ∀ d ∈ v.dependencies n, rank d < rank n ∧ d ∈ nodes
  visit : ∀ n ∈ nodes, v.visit n ((v.dependencies n).map fun d => (d, f d)) = f n

namespace Traversal

variable {v : Visitor α β} {rank : α → Nat} {f : α → β} {nodes : List α} {s s' : State α β}
  {e : Event α β}

/-- The dependencies of an entered node on top of the stack have been left. -/
theorem State.Sound.dependencies (hs : s.Sound v rank f nodes) {x : α} {rest : List α}
    (hstack : s.stack = x :: rest) (hx : s.marks.lookup x = some .entered) :
  ∀ d ∈ v.dependencies x, s.marks.lookup d = some (.left (f d))
  := by
  obtain ⟨above, below, hsplit, hrank, hdeps⟩ := hs.entered x hx
  rw [hstack] at hsplit
  cases above with
  | nil =>
      intro d hd
      exact (hdeps d hd).resolve_right List.not_mem_nil
  | cons a above =>
      have hlt := hrank a List.mem_cons_self
      rw [(List.cons.inj hsplit).1] at hlt
      exact absurd hlt (Nat.lt_irrefl _)

/-- Every state with a node on its stack has a step. -/
theorem exists_step (hv : v.Computes rank f nodes) (hs : s.Sound v rank f nodes)
    (hstack : s.stack ≠ []) :
  ∃ e s', s.step v = some (e, s')
  := by
  obtain ⟨x, rest, hsplit⟩ := List.exists_cons_of_ne_nil hstack
  have hx := hs.marked x (hsplit ▸ List.mem_cons_self)
  simp only [State.step, hsplit]
  cases hmark : s.marks.lookup x with
  | none => exact absurd hmark hx.2
  | some m =>
      cases m with
      | pending =>
          have hentered : ∀ d ∈ v.dependencies x,
              ((x, Mark.entered) :: s.marks).lookup d ≠ some .entered := by
            intro d hd hlookup
            have hlt := (hv.dependencies x hx.1 d hd).1
            rw [lookup_cons_eq, if_neg (fun h => absurd (h ▸ hlt) (Nat.lt_irrefl _))] at hlookup
            exact absurd (hs.rank_lt hsplit hmark hlookup) (Nat.lt_asymm hlt)
          obtain ⟨marks, hmarks, _⟩ := markPending_eq _ _ hentered
          simp only [hmarks, Option.map_some]
          exact ⟨_, _, rfl⟩
      | entered =>
          simp only [outputs_eq (hs.dependencies hsplit hmark), Option.map_some]
          exact ⟨_, _, rfl⟩
      | left output => exact ⟨_, _, rfl⟩

/-- A node waits when it is on the stack and has not been left. -/
def State.Waits (s : State α β) (n : α) : Prop :=
  n ∈ s.stack ∧ ∀ output, s.marks.lookup n ≠ some (.left output)

/-- What a step does: an output is right, and a node that waits is left or goes on waiting. -/
structure Advances (v : Visitor α β) (rank : α → Nat) (f : α → β) (nodes : List α)
    (s : State α β) (e : Event α β) (s' : State α β) : Prop where
  sound : s'.Sound v rank f nodes
  output : ∀ n output, e.output? = some (n, output) → output = f n
  waits : ∀ n, s.Waits n → e.output? = some (n, f n) ∨ s'.Waits n

theorem State.Steps.advances (h : s.Steps v e s') (hv : v.Computes rank f nodes)
    (hs : s.Sound v rank f nodes) :
  Advances v rank f nodes s e s'
  := by
  cases h with
  | @enter x rest marks hstack hx _ hmarks =>
      have hmem := (hs.marked x (hstack ▸ List.mem_cons_self)).1
      refine ⟨hs.enter hstack (hv.dependencies x hmem) hx hmarks, nofun, ?_⟩
      intro n hn
      refine .inr ⟨?_, ?_⟩
      · apply List.mem_append_right
        rw [← hstack]
        exact hn.1
      · intro output
        rw [hmarks]
        split
        · exact nofun
        · split
          · exact nofun
          · exact hn.2 output
  | @leave x rest visited hstack hx hvisited =>
      have hmem := (hs.marked x (hstack ▸ List.mem_cons_self)).1
      have hout : v.visit x visited = f x := by
        rw [outputs_eq (hs.dependencies hstack hx)] at hvisited
        rw [← Option.some.inj hvisited]
        exact hv.visit x hmem
      rw [hout]
      refine ⟨hs.tail hstack ?_ ?_, ?_, ?_⟩
      · rw [lookup_cons_eq, if_pos rfl]
      · intro n hn
        rw [lookup_cons_eq, if_neg hn]
      · intro n output h
        cases h
        rfl
      · intro n hn
        by_cases h : n = x
        · exact .inl (h ▸ rfl)
        · refine .inr ⟨?_, ?_⟩
          · have := hn.1
            rw [hstack] at this
            exact (List.mem_cons.mp this).resolve_left h
          · intro output
            rw [lookup_cons_eq, if_neg h]
            exact hn.2 output
  | @pass x rest output hstack hx =>
      refine ⟨hs.tail hstack ?_ fun _ _ => rfl, nofun, ?_⟩
      · rw [hx, hs.left x output hx]
      · intro n hn
        refine .inr ⟨?_, hn.2⟩
        have hmem := hn.1
        rw [hstack] at hmem
        apply (List.mem_cons.mp hmem).resolve_left
        intro h
        exact hn.2 output (h ▸ hx)

/-- All outputs of a run are right, and a run of as many steps as remain leaves every node
that waits. -/
theorem outputs_events (hv : v.Computes rank f nodes) (bound : Nat) :
    ∀ {s : State α β}, s.Sound v rank f nodes →
      (∀ n output, (n, output) ∈ (s.events v bound).filterMap Event.output? → output = f n) ∧
      (s.remaining v nodes ≤ bound → ∀ n, s.Waits n →
        (n, f n) ∈ (s.events v bound).filterMap Event.output?) := by
  induction bound with
  | zero =>
      intro s _
      refine ⟨fun n output h => absurd h List.not_mem_nil, ?_⟩
      intro hle n hn
      have hlen : s.stack.length = 0 := by
        rw [State.remaining] at hle
        omega
      have hmem := hn.1
      rw [List.length_eq_zero_iff.mp hlen] at hmem
      exact absurd hmem List.not_mem_nil
  | succ bound ih =>
      intro s hs
      rw [State.events]
      by_cases hstack : s.stack = []
      · have hstep : s.step v = none := by rw [State.step, hstack]
        rw [hstep]
        refine ⟨fun n output h => absurd h List.not_mem_nil, ?_⟩
        intro _ n hn
        have hmem := hn.1
        rw [hstack] at hmem
        exact absurd hmem List.not_mem_nil
      · obtain ⟨e, s', hstep⟩ := exists_step hv hs hstack
        have hsteps := State.steps_of_step hstep
        have hadv := hsteps.advances hv hs
        obtain ⟨hright, hall⟩ := ih hadv.sound
        rw [hstep]
        simp only [List.filterMap_cons]
        constructor
        · intro n output h
          split at h
          · exact hright n output h
          case h_2 o ho =>
              rcases List.mem_cons.mp h with h | h
              · exact hadv.output n output (h ▸ ho)
              · exact hright n output h
        · intro hle n hn
          have hremaining := hsteps.remaining hv.nodup fun n hn => (hs.marked n hn).1
          have hwaits := hadv.waits n hn
          split
          case h_1 ho =>
              rw [ho] at hwaits
              exact hall (by omega) n (hwaits.resolve_left (by simp))
          case h_2 o ho =>
              rw [ho] at hwaits
              rcases hwaits with h | h
              · rw [Option.some.inj h]
                exact List.mem_cons_self
              · exact List.mem_cons_of_mem _ (hall (by omega) n h)

end Traversal

/-- A traversal with enough steps leaves its root. -/
theorem Visitor.Computes.mem_outputs {v : Visitor α β} {rank : α → Nat} {f : α → β} {nodes : List α}
    (hv : v.Computes rank f nodes) {root : α} (hroot : root ∈ nodes) {bound : Nat}
    (hbound : v.stepBound nodes ≤ bound) :
  (root, f root) ∈ v.outputs bound root
  := by
  have hwaits : (State.start root : State α β).Waits root := by
    refine ⟨List.mem_singleton_self root, ?_⟩
    intro output
    rw [lookup_start, if_pos rfl]
    exact nofun
  have hall := (outputs_events hv bound (sound_start hroot)).2
  rw [remaining_start] at hall
  exact hall hbound root hwaits

/-- A traversal with enough steps computes the output of its root. -/
theorem Visitor.accept?_eq {v : Visitor α β} {rank : α → Nat} {f : α → β} {nodes : List α}
    (hv : v.Computes rank f nodes) {root : α} (hroot : root ∈ nodes) {bound : Nat}
    (hbound : v.stepBound nodes ≤ bound) :
  v.accept? bound root = some (f root)
  := by
  have hright := (outputs_events hv bound (sound_start hroot)).1
  have hmem := hv.mem_outputs hroot hbound
  rw [Visitor.accept?]
  cases hfind : (v.outputs bound root).reverse.find? fun o => decide (o.1 = root) with
  | none =>
      have hnone := List.find?_eq_none.mp hfind (root, f root) (List.mem_reverse.mpr hmem)
      simp at hnone
  | some o =>
      have hname : o.1 = root := by simpa using List.find?_some hfind
      have ho := hright o.1 o.2 (List.mem_reverse.mp (List.mem_of_find?_eq_some hfind))
      rw [Option.map_some, ho, hname]

end RelSql
