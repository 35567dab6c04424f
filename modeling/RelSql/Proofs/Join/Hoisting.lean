import RelSql.Proofs.Join.Rows
import RelSql.Proofs.Join.Tree

/-!
# Hoisted filters

Predicates that are taken off the operands of a join filter the joined rows instead.  The join
right above an operand preserves its filters, but a join further up need not.  When no join
that drops filters of its left side has a left side with hoisted predicates, filtering
the joined rows gives the same rows as filtering the operands.
-/

namespace RelSql

/-- Predicates that are taken off an operand: which parts of a joined row the operand has, and
the joins above the operand, each with whether the operand is on its left side. -/
structure Hoist where
  predicates : List NodeId
  start : Nat
  width : Nat
  above : List (JoinKind × Bool)

/-- A predicate is hoisted soundly when every join above its operand preserves the filters of
the side that has the operand. -/
def Hoist.Preserved (h : Hoist) : Prop :=
  ∀ p ∈ h.predicates, ∀ j ∈ h.above, j.1.preservesFilters j.2 = true

/-- The rows of tables, and which rows predicates hold for. -/
structure Contents (R : Type) where
  rows : NodeId → List R
  holds : NodeId → JoinedRow R → Bool

variable {R : Type}

/-- Whether all predicates hold for a row. -/
def Contents.holdAll (D : Contents R) (predicates : List NodeId) (row : JoinedRow R) : Bool :=
  predicates.all fun p => D.holds p row

namespace JoinTree

/-- The number of tables that are joined. -/
def width : JoinTree → Nat
  | .table _ => 1
  | .join _ _ _ left _ _ => left.width + 1

/-- The predicates that are taken off the operands of the tree. -/
def hoists : JoinTree → List Hoist
  | .table _ => []
  | .join _ kind _ left l r =>
    (left.hoists.map fun h => { h with above := h.above ++ [(kind, true)] })
      ++ [⟨l.predicates, 0, left.width, [(kind, true)]⟩,
        ⟨r.predicates, left.width, 1, [(kind, false)]⟩]

/-- The hoisted predicates are those of the hoists. -/
theorem hoisted_eq (tree : JoinTree) :
  tree.hoisted = tree.hoists.flatMap Hoist.predicates
  := by
  induction tree with
  | table t => rfl
  | join node kind predicates left l r ih =>
      rw [hoisted, hoists, ih, List.flatMap_append, List.flatMap_map, List.append_assoc]
      simp

/-- Every join has a predicate. -/
def Conditioned : JoinTree → Prop
  | .table _ => True
  | .join _ _ predicates left _ _ => predicates ≠ [] ∧ left.Conditioned

/-- Every join is written as what it is: one without a predicate, which is written as a cross join,
is an inner join or a cross join. -/
def Written : JoinTree → Prop
  | .table _ => True
  | .join _ kind predicates left _ _ =>
    (predicates = [] → kind = .inner ∨ kind = .cross) ∧ left.Written

theorem Conditioned.written {tree : JoinTree} (h : tree.Conditioned) :
  tree.Written
  := by
  induction tree with
  | table t => trivial
  | join node kind predicates left l r ih => exact ⟨fun hnil => absurd hnil h.1, ih h.2⟩

/-- What is taken off an operand may as well filter the rows of the join right above. -/
def Offered : JoinTree → Prop
  | .table _ => True
  | .join _ kind _ left l r =>
    left.Offered ∧ (l.predicates = [] ∨ kind.preservesFilters true = true)
      ∧ (r.predicates = [] ∨ kind.preservesFilters false = true)

/-- No join that drops filters of its left side has a left side with hoisted predicates. -/
def Safe : JoinTree → Prop
  | .table _ => True
  | .join _ kind _ left _ _ =>
    left.Safe ∧ (left.hoisted = [] ∨ kind.preservesFilters true = true)

/-- The joined rows when the operands are filtered before the joins. -/
def filteredRows (D : Contents R) : JoinTree → List (JoinedRow R)
  | .table t => (D.rows t).map fun r => [some r]
  | .join _ kind predicates left l r =>
    kind.rows (fun row r => D.holdAll predicates (row ++ [some r])) left.width
      ((left.filteredRows D).filter (D.holdAll l.predicates))
      ((D.rows r.table).filter fun row => D.holdAll r.predicates [some row])

/-- The rows of the FROM clause, in which no operand is filtered. -/
def joinedRows (D : Contents R) : JoinTree → List (JoinedRow R)
  | .table t => (D.rows t).map fun r => [some r]
  | .join _ kind predicates left _ r =>
    (if predicates = [] then JoinKind.cross else kind).rows
      (fun row r => D.holdAll predicates (row ++ [some r])) left.width
      (left.joinedRows D) (D.rows r.table)

/-- Whether the hoisted predicates hold for a joined row, each for the parts of its operand. -/
def passes (D : Contents R) (tree : JoinTree) (row : JoinedRow R) : Bool :=
  tree.hoists.all fun h => D.holdAll h.predicates ((row.drop h.start).take h.width)

/-- What is known of every hoist of a join. -/
theorem forall_hoists_join {P : Hoist → Prop} {node : NodeId} {kind : JoinKind}
    {predicates : List NodeId} {left : JoinTree} {l r : Peeled} :
  (∀ h ∈ (JoinTree.join node kind predicates left l r).hoists, P h) ↔
    (∀ h ∈ left.hoists, P { h with above := h.above ++ [(kind, true)] })
      ∧ P ⟨l.predicates, 0, left.width, [(kind, true)]⟩
      ∧ P ⟨r.predicates, left.width, 1, [(kind, false)]⟩
  := by
  rw [hoists, List.forall_mem_append, List.forall_mem_map, List.forall_mem_cons,
    List.forall_mem_singleton]

/-- The predicates of an operand are hoisted soundly through one join. -/
theorem preserved_singleton {predicates : List NodeId} (start width : Nat) {kind : JoinKind}
    {left : Bool} :
  (Hoist.mk predicates start width [(kind, left)]).Preserved ↔
    (predicates = [] ∨ kind.preservesFilters left = true)
  := by
  rw [Hoist.Preserved, List.eq_nil_iff_forall_not_mem]
  simp only [List.forall_mem_singleton]
  by_cases h : kind.preservesFilters left = true <;> simp [h]

/-- Predicates are hoisted soundly through a join on top when they are below it, and it
preserves them. -/
theorem preserved_append {h : Hoist} {kind : JoinKind} :
  Hoist.Preserved { h with above := h.above ++ [(kind, true)] } ↔
    h.Preserved ∧ (h.predicates = [] ∨ kind.preservesFilters true = true)
  := by
  rw [← preserved_singleton h.start h.width]
  simp only [Hoist.Preserved, List.forall_mem_append]
  exact ⟨fun H => ⟨fun p hp => (H p hp).1, fun p hp => (H p hp).2⟩,
    fun H p hp => ⟨H.1 p hp, H.2 p hp⟩⟩

/-- Every hoist of a tree is sound just when the tree is safe. -/
theorem preserved_iff_safe (tree : JoinTree) (h : tree.Offered) :
  (∀ x ∈ tree.hoists, x.Preserved) ↔ tree.Safe
  := by
  induction tree with
  | table t => exact ⟨fun _ => trivial, fun _ => nofun⟩
  | join node kind predicates left l r ih =>
      obtain ⟨hleft, hl, hr⟩ := h
      rw [forall_hoists_join, Safe, ← ih hleft, preserved_singleton, preserved_singleton]
      simp only [preserved_append, hoisted_eq, List.flatMap_eq_nil_iff]
      constructor
      · rintro ⟨h, _, _⟩
        refine ⟨fun x hx => (h x hx).1, ?_⟩
        by_cases hkind : kind.preservesFilters true = true
        · exact .inr hkind
        · exact .inl fun x hx => (h x hx).2.resolve_right hkind
      · rintro ⟨h, hkind⟩
        exact ⟨fun x hx => ⟨h x hx, hkind.imp (fun h => h x hx) id⟩, hl, hr⟩

/-- A joined row has a part for every table. -/
theorem length_of_mem_joinedRows (D : Contents R) (tree : JoinTree) :
  ∀ row ∈ tree.joinedRows D, row.length = tree.width
  := by
  induction tree with
  | table t =>
      intro row hrow
      obtain ⟨r, _, rfl⟩ := List.mem_map.mp hrow
      rfl
  | join node kind predicates left l r ih =>
      intro row hrow
      exact JoinKind.length_of_mem_rows ih hrow

/-- The hoists of a tree look at the parts of its tables only. -/
theorem hoists_within (tree : JoinTree) :
  ∀ h ∈ tree.hoists, h.start + h.width ≤ tree.width
  := by
  induction tree with
  | table t => nofun
  | join node kind predicates left l r ih =>
      rw [forall_hoists_join]
      refine ⟨?_, ?_, ?_⟩
      · exact fun h hh => Nat.le_succ_of_le (ih h hh)
      · simp [width]
      · simp [width]

/-- The hoisted predicates of a join hold when those of its left side hold for the parts on the
left, and those of its operands for the parts of the operands. -/
theorem passes_join (D : Contents R) {node : NodeId} {kind : JoinKind}
    {predicates : List NodeId} {left : JoinTree} {l r : Peeled} {row : JoinedRow R}
    (hrow : row.length = left.width + 1) :
  (JoinTree.join node kind predicates left l r).passes D row
    = (left.passes D (row.take left.width) && D.holdAll l.predicates (row.take left.width)
      && D.holdAll r.predicates (row.drop left.width))
  := by
  have hpart : ∀ h ∈ left.hoists, (row.drop h.start).take h.width
      = ((row.take left.width).drop h.start).take h.width := by
    intro h hh
    have hwithin := hoists_within left h hh
    rw [List.drop_take, List.take_take, Nat.min_eq_left (by omega)]
  have hlast : (row.drop left.width).take 1 = row.drop left.width := by
    rw [List.take_of_length_le]
    rw [List.length_drop, hrow]
    omega
  have hleft : left.hoists.all (fun h => D.holdAll h.predicates ((row.drop h.start).take h.width))
      = left.passes D (row.take left.width) := by
    rw [Bool.eq_iff_iff, passes, List.all_eq_true, List.all_eq_true]
    exact forall₂_congr fun h hh => by rw [hpart h hh]
  rw [passes, hoists, List.all_append, List.all_map, ← hleft]
  simp only [List.all_cons, List.all_nil, Bool.and_true, List.drop_zero, hlast, Bool.and_assoc]
  rfl

/-- A row passes when nothing is hoisted. -/
theorem passes_of_hoisted (D : Contents R) {tree : JoinTree} (h : tree.hoisted = [])
    (row : JoinedRow R) :
  tree.passes D row = true
  := by
  rw [hoisted_eq, List.flatMap_eq_nil_iff] at h
  rw [passes, List.all_eq_true]
  intro x hx
  rw [Contents.holdAll, h x hx]
  rfl

/-- Filtering the left rows of a join by what is hoisted from them is filtering the joined
rows. -/
theorem rows_filter_left (D : Contents R) {kind : JoinKind} {left : JoinTree}
    {predicates : List NodeId} (on : JoinedRow R → R → Bool) (rs : List R)
    (hsafe : left.hoisted = [] ∨ kind.preservesFilters true = true)
    (hl : predicates = [] ∨ kind.preservesFilters true = true) :
  kind.rows on left.width
      (((left.joinedRows D).filter (left.passes D)).filter (D.holdAll predicates)) rs
    = (kind.rows on left.width (left.joinedRows D) rs).filter fun row =>
      left.passes D (row.take left.width) && D.holdAll predicates (row.take left.width)
  := by
  by_cases hkind : kind.preservesFilters true = true
  · rw [List.filter_filter, JoinKind.rows_filter_left hkind _ (length_of_mem_joinedRows D left)]
    exact List.filter_congr fun row _ => Bool.and_comm _ _
  · have hpasses := passes_of_hoisted D (hsafe.resolve_right hkind)
    rw [hl.resolve_right hkind, List.filter_filter, List.filter_eq_self.mpr,
      List.filter_eq_self.mpr]
    · exact fun row _ => by rw [hpasses]; rfl
    · exact fun row _ => by rw [hpasses]; rfl

/-- Filtering the right rows of a join by what is hoisted from them is filtering the joined
rows. -/
theorem rows_filter_right (D : Contents R) {kind : JoinKind} {left : JoinTree}
    {predicates : List NodeId} (on : JoinedRow R → R → Bool) (rs : List R)
    (hr : predicates = [] ∨ kind.preservesFilters false = true) :
  kind.rows on left.width (left.joinedRows D)
      (rs.filter fun row => D.holdAll predicates [some row])
    = (kind.rows on left.width (left.joinedRows D) rs).filter fun row =>
      D.holdAll predicates (row.drop left.width)
  := by
  rcases hr with rfl | hkind
  · rw [List.filter_eq_self.mpr, List.filter_eq_self.mpr]
    · exact fun _ _ => rfl
    · exact fun _ _ => rfl
  · exact JoinKind.rows_filter_right hkind _ (length_of_mem_joinedRows D left)

/-- A join that is written as what it is has the rows of what is written. -/
theorem rows_written {kind : JoinKind} {predicates : List NodeId}
    (h : predicates = [] → kind = .inner ∨ kind = .cross) (on : JoinedRow R → R → Bool)
    (width : Nat) (ls : List (JoinedRow R)) (rs : List R) :
  (if predicates = [] then JoinKind.cross else kind).rows on width ls rs = kind.rows on width ls rs
  := by
  split
  case isFalse => rfl
  case isTrue hnil =>
      rcases h hnil with rfl | rfl
      · rfl
      · rfl

/-- Filtering the operands of a safe tree that is written as what it is gives the same rows as
filtering the joined rows. -/
theorem filteredRows_eq_of_written (D : Contents R) (tree : JoinTree) (hwritten : tree.Written)
    (hoffered : tree.Offered) (hsafe : tree.Safe) :
  tree.filteredRows D = (tree.joinedRows D).filter (tree.passes D)
  := by
  induction tree with
  | table t =>
      rw [filteredRows, joinedRows, List.filter_eq_self.mpr]
      exact fun _ _ => rfl
  | join node kind predicates left l r ih =>
      obtain ⟨hkinds, hwritten⟩ := hwritten
      obtain ⟨hoffered, hl, hr⟩ := hoffered
      obtain ⟨hsafe, hkind⟩ := hsafe
      have hjoined : (JoinTree.join node kind predicates left l r).joinedRows D
          = kind.rows (fun row r => D.holdAll predicates (row ++ [some r])) left.width
            (left.joinedRows D) (D.rows r.table) := by
        rw [joinedRows, rows_written hkinds]
      have hlength := length_of_mem_joinedRows D (.join node kind predicates left l r)
      rw [hjoined] at hlength ⊢
      rw [filteredRows, ih hwritten hoffered hsafe, rows_filter_left D _ _ hkind hl,
        rows_filter_right D _ _ hr, List.filter_filter]
      apply List.filter_congr
      intro row hrow
      rw [passes_join D (hlength row hrow)]

/-- Filtering the operands of a safe tree gives the same rows as filtering the joined rows. -/
theorem filteredRows_eq (D : Contents R) (tree : JoinTree) (hconditioned : tree.Conditioned)
    (hoffered : tree.Offered) (hsafe : tree.Safe) :
  tree.filteredRows D = (tree.joinedRows D).filter (tree.passes D)
  := filteredRows_eq_of_written D tree hconditioned.written hoffered hsafe

end JoinTree

namespace Graph

variable {g : Graph}

/-- Selections are taken off an operand only where the join right above preserves filters. -/
theorem operand_predicates (g : Graph) (node : NodeId) (hoist left : Bool) :
  (g.operand node hoist left).predicates = [] ∨ hoist = true
  := by
  rw [operand, takesOff]
  cases hoist with
  | true => exact .inr rfl
  | false => exact .inl rfl

theorem joinTree_offered (hg : g.WellFounded) (node : NodeId) :
  (g.joinTree node).Offered
  := by
  apply joinTree_induction hg (P := fun id => (g.joinTree id).Offered)
  · intro id hn
    rw [joinTree_other hg hn]
    trivial
  · intro id kind l r predicates hn ih
    rw [joinTree_join hg hn]
    exact ⟨ih, operand_predicates g l _ _, operand_predicates g r _ _⟩

end Graph

end RelSql
