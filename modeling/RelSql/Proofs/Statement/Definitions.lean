import RelSql.Proofs.Graph.Equality
import RelSql.Proofs.Statement.Search

/-!
# Definitions of common table expressions

The common table expressions are numbered in the order in which the search meets them.  Each
is defined before the others that are written in it just when the query writes these names
first, and the query of no table is written twice.
-/

namespace RelSql

namespace Query

namespace Visits

variable {defs : Nat → Written} {place : NodeId → Option Nat}
  {n m n' m' : Nat} {w : Written}

theorem le (h : Visits defs place n m w n' m') :
  n ≤ n' ∧ m ≤ m'
  := by
  induction h with
  | nil => exact ⟨Nat.le_refl _, Nat.le_refl _⟩
  | inline _ _ ih => omega
  | known _ _ ih => exact ih
  | first _ _ ihbody ih => omega

/-- No common table expression is met when all names are old ones. -/
theorem eq_of_names_lt (h : Visits defs place n m w n' m') (hlt : ∀ j ∈ names w, j < n) :
  n' = n
  := by
  induction h with
  | nil => rfl
  | inline _ _ ih => exact ih hlt
  | known _ _ ih => exact ih (List.forall_mem_cons.mp hlt).2
  | first => exact absurd (List.forall_mem_cons.mp hlt).1 (Nat.lt_irrefl _)

/-- When no common table expression is used before it is defined, none is met inside another
one, so their names come in order. -/
theorem mem_takeWhile_of_lt (h : Visits defs place n m w n' m')
    (horder : ∀ i, n ≤ i → i < n' → ∀ j ∈ names (defs i), j < i) :
  ∀ i, n ≤ i → i < n' → ∀ j, n ≤ j → j < i → j ∈ (names w).takeWhile (· ≠ i)
  := by
  induction h with
  | nil => exact fun i hi hi' => absurd hi' (Nat.not_lt.mpr hi)
  | inline _ _ ih => exact ih horder
  | @known n _ k n' _ _ w hk h ih =>
      intro i hi hi' j hj hji
      change j ∈ (k :: names w).takeWhile (· ≠ i)
      rw [List.takeWhile_cons_of_pos (by simp; omega)]
      exact List.mem_cons_of_mem _ (ih horder i hi hi' j hj hji)
  | @first n _ n₁ _ n' _ _ w hbody h ihbody ih =>
      have hle := h.le.1
      have hmet : n₁ = n + 1 := by
        have hle' := hbody.le.1
        apply hbody.eq_of_names_lt
        intro j hj
        exact Nat.lt_succ_of_lt (horder n (Nat.le_refl _) (by omega) j hj)
      subst hmet
      intro i hi hi' j hj hji
      change j ∈ (n :: names w).takeWhile (· ≠ i)
      rw [List.takeWhile_cons_of_pos (by simp; omega)]
      rcases Nat.eq_or_lt_of_le hj with rfl | hlt
      · exact List.mem_cons_self
      · apply List.mem_cons_of_mem
        exact ih (fun i hi => horder i (Nat.le_of_succ_le hi)) i (by omega) hi' j hlt hji

/-- When the names in a common table expression come before its own one, they are met before
it. -/
theorem lt_of_mem_takeWhile (h : Visits defs place n m w n' m')
    (hbefore : ∀ i, n ≤ i → i < n' →
      ∀ j ∈ names (defs i), j < n ∨ j ∈ (names w).takeWhile (· ≠ i)) :
  ∀ i, n ≤ i → i < n' → ∀ j ∈ names (defs i), j < i
  := by
  induction h with
  | nil => exact fun i hi hi' => absurd hi' (Nat.not_lt.mpr hi)
  | inline _ _ ih => exact ih hbefore
  | @known n _ k n' _ _ w hk h ih =>
      apply ih
      intro i hi hi' j hj
      have hmem := hbefore i hi hi' j hj
      change _ ∨ j ∈ (k :: names w).takeWhile (· ≠ i) at hmem
      rw [List.takeWhile_cons_of_pos (by simp; omega), List.mem_cons] at hmem
      rcases hmem with hlt | rfl | hmem
      · exact .inl hlt
      · exact .inl hk
      · exact .inr hmem
  | @first n _ n₁ _ n' _ _ w hbody h ihbody ih =>
      have hle := h.le.1
      have hle' := hbody.le.1
      have hself : ∀ j ∈ names (defs n), j < n := by
        intro j hj
        have hmem := hbefore n (Nat.le_refl _) (by omega) j hj
        change _ ∨ j ∈ (n :: names w).takeWhile (· ≠ n) at hmem
        rw [List.takeWhile_cons_of_neg (by simp)] at hmem
        exact hmem.resolve_right List.not_mem_nil
      have hmet : n₁ = n + 1 :=
        hbody.eq_of_names_lt fun j hj => Nat.lt_succ_of_lt (hself j hj)
      subst hmet
      intro i hi hi'
      rcases Nat.eq_or_lt_of_le hi with rfl | hlt
      · exact hself
      · apply ih ?_ i hlt hi'
        intro i hi hi' j hj
        have hmem := hbefore i (Nat.le_of_succ_le hi) hi' j hj
        change _ ∨ j ∈ (n :: names w).takeWhile (· ≠ i) at hmem
        rw [List.takeWhile_cons_of_pos (by simp; omega), List.mem_cons] at hmem
        rcases hmem with hlt | rfl | hmem
        · exact .inl (Nat.lt_succ_of_lt hlt)
        · exact .inl (Nat.lt_succ_self _)
        · exact .inr hmem

/-- Every common table expression is defined before it is used just when the names in each of
them come before its own one. -/
theorem ordered_iff (h : Visits defs place 0 m w n' m') :
  (∀ i < n', ∀ j ∈ names (defs i), j < i)
    ↔ ∀ i < n', ∀ j ∈ names (defs i), j ∈ (names w).takeWhile (· ≠ i)
  := by
  constructor
  · intro horder i hi j hj
    exact h.mem_takeWhile_of_lt (fun i _ => horder i) i (Nat.zero_le _) hi j (Nat.zero_le _)
      (horder i hi j hj)
  · intro hbefore i hi
    exact h.lt_of_mem_takeWhile (fun i _ hi j hj => .inr (hbefore i hi j hj)) i (Nat.zero_le _) hi

end Visits

/-- What holds for the names in each common table expression holds for those that are written where
it is met first. -/
theorem forall_mentions_iff {g : Graph} {met : List Written} {tables : List SharedTable}
    (h : List.Forall₂ (fun w (t : SharedTable) => WrittenAlike g w t.query.written) met tables)
    {P : Nat → List Nat → Prop} :
  (∀ (i : Nat) (t : SharedTable), tables[i]? = some t → P i t.query.mentions)
    ↔ ∀ i < met.length, P i (names (definitions met i))
  := by
  constructor
  · intro hall i hi
    have hw := List.getElem?_eq_getElem hi
    obtain ⟨t, ht, (halike : WrittenAlike g _ _)⟩ := forall₂_getElem? h hw
    rw [definitions_eq hw, halike.names_eq]
    exact hall i t ht
  · intro hall i t ht
    obtain ⟨w, hw, (halike : WrittenAlike g _ _)⟩ := forall₂_getElem? h.flip ht
    have hnames := hall i (List.getElem?_eq_some_iff.mp hw).1
    rwa [definitions_eq hw, halike.names_eq] at hnames

/-! ### Tables that are written in place -/

/-- Tables have different places, from `m` up to `m'`. -/
structure Apart (place : NodeId → Option Nat) (m m' : Nat) (tables : List NodeId) : Prop where
  placed : ∀ t ∈ tables, ∃ i, place t = some i ∧ m ≤ i ∧ i < m'
  nodup : (tables.map place).Nodup

section Apart

variable {place : NodeId → Option Nat} {m m₁ m' : Nat} {tables tables' : List NodeId}

theorem Apart.perm (h : Apart place m m' tables) (hperm : tables.Perm tables') :
  Apart place m m' tables'
  := ⟨fun t ht => h.placed t (hperm.mem_iff.mpr ht), (hperm.map place).nodup_iff.mp h.nodup⟩

theorem Apart.append (h : Apart place m m₁ tables) (h' : Apart place m₁ m' tables')
    (hle : m ≤ m₁) (hle' : m₁ ≤ m') :
  Apart place m m' (tables ++ tables')
  := by
  constructor
  · intro t ht
    rcases List.mem_append.mp ht with ht | ht
    · obtain ⟨i, hi, hlo, hhi⟩ := h.placed t ht
      exact ⟨i, hi, hlo, Nat.lt_of_lt_of_le hhi hle'⟩
    · obtain ⟨i, hi, hlo, hhi⟩ := h'.placed t ht
      exact ⟨i, hi, Nat.le_trans hle hlo, hhi⟩
  · rw [List.map_append]
    apply List.Nodup.append h.nodup h'.nodup
    intro p hp hp'
    obtain ⟨t, ht, rfl⟩ := List.mem_map.mp hp
    obtain ⟨t', ht', hsame⟩ := List.mem_map.mp hp'
    obtain ⟨i, hi, _, hlt⟩ := h.placed t ht
    obtain ⟨i', hi', hle, _⟩ := h'.placed t' ht'
    rw [hi, hi', Option.some.injEq] at hsame
    omega

end Apart

/-- The tables whose queries are written in the common table expressions from `n` up to `n'`. -/
def bodiesIn (defs : Nat → Written) (n n' : Nat) : List NodeId :=
  (List.range' n (n' - n)).flatMap fun i => bodies (defs i)

theorem bodiesIn_self (defs : Nat → Written) (n : Nat) :
  bodiesIn defs n n = []
  := by rw [bodiesIn, Nat.sub_self]; rfl

theorem bodiesIn_cons (defs : Nat → Written) {n n₁ n' : Nat}
    (h : n + 1 ≤ n₁) (h' : n₁ ≤ n') :
  bodiesIn defs n n' = bodies (defs n) ++ bodiesIn defs (n + 1) n₁ ++ bodiesIn defs n₁ n'
  := by
  have hrange : List.range' n (n' - n)
      = n :: List.range' (n + 1) (n₁ - (n + 1)) ++ List.range' n₁ (n' - n₁) := by
    have hmiddle := List.range'_append_1 (s := n + 1) (m := n₁ - (n + 1)) (n := n' - n₁)
    rw [Nat.add_sub_cancel' h] at hmiddle
    rw [List.cons_append, hmiddle, ← List.range'_succ]
    congr 1
    omega
  rw [bodiesIn, hrange, List.flatMap_append, List.flatMap_cons]
  rfl

/-- The tables whose queries are written in all common table expressions. -/
theorem bodiesIn_definitions (met : List Written) :
  bodiesIn (definitions met) 0 met.length = met.flatMap bodies
  := by
  rw [bodiesIn, List.flatMap_def, List.flatMap_def]
  congr 1
  apply List.ext_getElem
  · rw [List.length_map, List.length_map, List.length_range', Nat.sub_zero]
  · intro i hi hi'
    rw [List.length_map] at hi'
    simp only [List.getElem_map, List.getElem_range', Nat.one_mul, Nat.zero_add]
    rw [definitions_eq (List.getElem?_eq_getElem hi')]

/-- The tables that are written in place in common table expressions are equal to those that are
written where these are met first. -/
theorem inlined_equal {g : Graph} {met : List Written} {tables : List SharedTable}
    (h : List.Forall₂ (fun w (t : SharedTable) => WrittenAlike g w t.query.written) met tables) :
  List.Forall₂ (fun a b => g.equals (g.body a) (g.body b) = true) (met.flatMap bodies)
    (tables.flatMap fun t => t.query.inlined)
  := by
  rw [List.flatMap_def, List.flatMap_def]
  apply List.rel_flatten
  rw [List.forall₂_map_left_iff, List.forall₂_map_right_iff]
  exact h.imp fun _ _ halike => halike.bodies

/-- The tables that the search meets once have different places. -/
theorem Visits.apart {defs : Nat → Written} {place : NodeId → Option Nat}
    {n m n' m' : Nat} {w : Written} (h : Visits defs place n m w n' m') :
  Apart place m m' (bodies w ++ bodiesIn defs n n')
  := by
  induction h with
  | nil =>
      rw [bodiesIn_self]
      exact ⟨nofun, .nil⟩
  | @inline n m n' m' leaf w hplace h ih =>
      have hhead : Apart place m (m + 1) [leaf] := by
        refine ⟨List.forall_mem_singleton.mpr ⟨m, hplace, Nat.le_refl _, Nat.lt_succ_self _⟩, ?_⟩
        exact List.nodup_singleton _
      exact hhead.append ih (Nat.le_succ _) h.le.2
  | known _ _ ih => exact ih
  | @first n m n₁ m₁ n' m' leaf w hbody h ihbody ih =>
      have hlower : Apart place m m₁ (bodies (defs n) ++ bodiesIn defs (n + 1) n₁) := by
        refine ⟨fun t ht => ?_, ihbody.nodup⟩
        obtain ⟨i, hi, hlo, hhi⟩ := ihbody.placed t ht
        exact ⟨i, hi, Nat.le_of_succ_le hlo, hhi⟩
      have hboth := hlower.append ih (Nat.le_of_succ_le hbody.le.2) h.le.2
      apply hboth.perm
      rw [bodiesIn_cons defs hbody.le.1 h.le.1]
      exact List.perm_append_comm_assoc _ _ _

end Query

/-- Tables that are found in different places are different. -/
theorem Occurrences.Grouped.equals_eq_false {g : Graph} (hg : g.WellFounded)
    {all : List Occurrences} (hall : Grouped g all) {a b : NodeId} {i j : Nat}
    (ha : place all a = some i) (hb : place all b = some j) (hne : i ≠ j) :
  g.equals (g.body a) (g.body b) = false
  := by
  obtain ⟨hi, hmem, _⟩ := List.findIdx?_eq_some_iff_getElem.mp ha
  obtain ⟨hj, hmem', _⟩ := List.findIdx?_eq_some_iff_getElem.mp hb
  have hfirst := hall.equal _ (List.getElem_mem hi) a (List.contains_iff_mem.mp hmem)
  have hsecond := hall.equal _ (List.getElem_mem hj) b (List.contains_iff_mem.mp hmem')
  have hpairs := List.pairwise_iff_getElem.mp hall.first
  apply Bool.eq_false_iff.mpr
  intro hequal
  rcases Nat.lt_or_gt_of_ne hne with hlt | hlt
  · have hno := hpairs i j hi hj hlt b (List.contains_iff_mem.mp hmem')
    rw [Graph.equals_trans hg hfirst hequal] at hno
    cases hno
  · have hno := hpairs j i hj hi hlt a (List.contains_iff_mem.mp hmem)
    rw [Graph.equals_trans hg hsecond (Graph.equals_symm hg hequal)] at hno
    cases hno

/-- Tables that are equal to ones no two of which are equal are no more equal. -/
theorem Graph.pairwise_equals {g : Graph} (hg : g.WellFounded) {l l' : List NodeId}
    (h : List.Forall₂ (fun a b => g.equals (g.body a) (g.body b) = true) l l')
    (hl : l.Pairwise fun a b => g.equals (g.body a) (g.body b) = false) :
  l'.Pairwise fun a b => g.equals (g.body a) (g.body b) = false
  := by
  induction h with
  | nil => exact .nil
  | @cons a b l l' hab hrest ih =>
      obtain ⟨hhead, hl⟩ := List.pairwise_cons.mp hl
      refine List.pairwise_cons.mpr ⟨fun d hd => ?_, ih hl⟩
      obtain ⟨c, hc, hcd⟩ := forall₂_exists hrest.flip d hd
      apply Bool.eq_false_iff.mpr
      intro hequal
      have hchain := equals_trans hg (equals_trans hg hab hequal) (equals_symm hg hcd)
      rw [hhead c hc] at hchain
      cases hchain

/-- A name that is written with a query is that of a table which a nested query refers to. -/
theorem Query.exists_of_mem_written (q : Query) :
    ∀ e ∈ q.written, ∀ i, e.2 = some i → ∃ s ∈ q.allNested, s.shared = some i := by
  induction q using Query.induction with
  | select c nested ih =>
      have hinner : ∀ s ∈ nested, ∀ e ∈ s.query.written, ∀ i, e.2 = some i →
          ∃ s ∈ (Query.select c nested).allNested, s.shared = some i := by
        intro s hs e he i hi
        obtain ⟨s', hs', hshared⟩ := ih s hs e he i hi
        rw [allNested, allNestedOf_eq]
        exact ⟨s', List.mem_flatMap.mpr ⟨s, hs, List.mem_cons_of_mem _ hs'⟩, hshared⟩
      intro e he i hi
      rw [written_select] at he
      rcases List.mem_append.mp he with he | he
      · obtain ⟨leaf, _, he⟩ := List.mem_flatMap.mp he
        rw [writtenLeaf] at he
        cases hderived : derivedFor? nested leaf with
        | none =>
            rw [hderived] at he
            exact absurd he List.not_mem_nil
        | some s =>
            obtain ⟨hs, _, _⟩ := mem_of_derivedFor? hderived
            rw [hderived] at he
            rcases List.mem_cons.mp he with rfl | he
            · rw [allNested, allNestedOf_eq]
              exact ⟨s, List.mem_flatMap.mpr ⟨s, hs, List.mem_cons_self⟩, hi⟩
            · split at he
              · exact hinner s hs e he i hi
              · exact absurd he List.not_mem_nil
      · obtain ⟨s, hs, he⟩ := List.mem_flatMap.mp he
        exact hinner s (List.mem_of_mem_filter hs) e he i hi
  | union l r distinct hl hr =>
      intro e he i hi
      rcases List.mem_append.mp he with he | he
      · obtain ⟨s, hs, hshared⟩ := hl e he i hi
        exact ⟨s, List.mem_append_left _ hs, hshared⟩
      · obtain ⟨s, hs, hshared⟩ := hr e he i hi
        exact ⟨s, List.mem_append_right _ hs, hshared⟩

namespace Graph

variable {g : Graph}

/-- The names that are written with a query of a statement are those of its common table
expressions. -/
theorem mentions_lt (hg : g.WellFounded) {root : NodeId} (hroot : g.Has root) {st : Statement}
    (h : g.analyze root = .ok st) {q : Query}
    (hq : ∀ outer b, q.Holds outer b → st.Holds outer b) :
  ∀ j ∈ q.mentions, j < st.shared.length
  := by
  intro j hj
  obtain ⟨e, he, hname⟩ := List.mem_filterMap.mp hj
  obtain ⟨s, hs, hshared⟩ := q.exists_of_mem_written e he j hname
  obtain ⟨outer, b, hb, hs⟩ := Query.exists_holds_of_mem_allNested hs
  obtain ⟨_, t, ht, _⟩ := exists_shared_of_reference hg hroot h (hq outer b hb) hs hshared
  exact (List.getElem?_eq_some_iff.mp ht).1

/-- Every name that is written is that of a common table expression.  If each common table
expression is that of a steady table, or is written as where it is met first, then each is defined
before it is used in another one just when the names in each of them are written by the query before
its own one. -/
theorem analyze_defines (hg : g.WellFounded) {root : NodeId} (hroot : g.Has root) {st : Statement}
    (h : g.analyze root = .ok st) :
  (∀ j ∈ st.query.mentions ++ st.shared.flatMap (fun t => t.query.mentions), j < st.shared.length)
    ∧ (st.Faithful →
      ((∀ (i : Nat) (t : SharedTable), st.shared[i]? = some t → ∀ j ∈ t.query.mentions, j < i)
        ↔ ∀ (i : Nat) (t : SharedTable), st.shared[i]? = some t →
          ∀ j ∈ t.query.mentions, j ∈ st.query.mentions.takeWhile (· ≠ i)))
  := by
  constructor
  · rw [List.forall_mem_append]
    refine ⟨mentions_lt hg hroot h fun _ _ => .inl, ?_⟩
    intro j hj
    obtain ⟨t, ht, hj⟩ := List.mem_flatMap.mp hj
    exact mentions_lt hg hroot h (fun _ _ hb => .inr ⟨t, ht, hb⟩) j hj
  · intro hfaithful
    obtain ⟨all, _, hvisits⟩ := analyze_visits hg hroot h
    have halike := analyze_firsts hg hroot h hfaithful
    rw [Query.forall_mentions_iff halike (P := fun i l => ∀ j ∈ l, j < i),
      Query.forall_mentions_iff halike
        (P := fun i l => ∀ j ∈ l, j ∈ st.query.mentions.takeWhile (· ≠ i))]
    exact hvisits.ordered_iff

/-- The join of the first rows of a table with themselves, and with those that they are taken
from. -/
def filteredAndWhole : Graph := ⟨#[
  .table ⟨some "t", none, ⟨[⟨"x", .int32⟩]⟩⟩,
  .limit ⟨0⟩ 10 0,
  .column ⟨1⟩ "x",
  .literal (.integer 0),
  .binary .gt ⟨2⟩ ⟨3⟩,
  .selection ⟨1⟩ [⟨4⟩],
  .limit ⟨5⟩ 3 0,
  .view ⟨6⟩,
  .join .cross ⟨6⟩ ⟨7⟩ [],
  .join .cross ⟨8⟩ ⟨1⟩ []]⟩

/-- The second common table expression is used in the first one, as the query writes its name
last. -/
theorem analyze_defines_filteredAndWhole :
  ∃ st, filteredAndWhole.analyze ⟨9⟩ = .ok st ∧ st.Faithful
    ∧ ∃ (i : Nat) (t : SharedTable), st.shared[i]? = some t ∧ ∃ j ∈ t.query.mentions, ¬ j < i
  := by
  have hrun : (filteredAndWhole.analyze ⟨9⟩).toOption.map (fun st =>
      (st.isSteady, st.query.mentions, st.shared.map fun t => t.query.mentions))
      = some (true, [0, 0, 1], [[1], []]) := by
    decide +kernel
  obtain ⟨st, hst, hparts⟩ := Option.map_eq_some_iff.mp hrun
  simp only [Prod.mk.injEq] at hparts
  obtain ⟨hsteady, hnames, htables⟩ := hparts
  have hok := eq_ok_of_toOption hst
  have hg : filteredAndWhole.WellFounded := by decide
  have hroot : filteredAndWhole.Has ⟨9⟩ := by decide
  have hfaithful := analyze_faithful hg hroot hok hsteady
  have hiff := (analyze_defines hg hroot hok).2 hfaithful
  have hfirst : st.shared[0]?.map (fun t => t.query.mentions) = some [1] := by
    rw [← List.getElem?_map, htables]
    rfl
  obtain ⟨t, ht, hmentions⟩ := Option.map_eq_some_iff.mp hfirst
  refine ⟨st, hok, hfaithful, ?_⟩
  have hnot : ¬ ∀ (i : Nat) (t : SharedTable), st.shared[i]? = some t →
      ∀ j ∈ t.query.mentions, j < i := by
    rw [hiff]
    intro hbefore
    have hmem := hbefore 0 t ht 1 (by rw [hmentions]; exact List.mem_cons_self)
    rw [hnames] at hmem
    simp at hmem
  simpa using hnot

/-- If each common table expression is that of a steady table, or is written as where it is met
first, then no two tables whose queries are written in place, in the query or in its common table
expressions, are equal. -/
theorem analyze_inlined (hg : g.WellFounded) {root : NodeId} (hroot : g.Has root) {st : Statement}
    (h : g.analyze root = .ok st) (hfaithful : st.Faithful) :
  (st.query.inlined ++ st.shared.flatMap fun t => t.query.inlined).Pairwise
    fun a b => st.graph.equals (st.graph.body a) (st.graph.body b) = false
  := by
  obtain ⟨_, hg', _⟩ := analyze_spec QuerySpec.hereditary_unshared hg hroot h
  obtain ⟨all, hall, hvisits⟩ := analyze_visits hg hroot h
  have hapart := hvisits.apart
  rw [Query.bodiesIn_definitions] at hapart
  -- the tables that are searched are different, and those that are written are equal to them
  have hsearched : (st.query.inlined ++ (st.query.firsts []).flatMap Query.bodies).Pairwise
      fun a b => st.graph.equals (st.graph.body a) (st.graph.body b) = false := by
    apply (List.pairwise_map.mp hapart.nodup).imp_of_mem
    intro a b ha hb hne
    obtain ⟨i, hi, _⟩ := hapart.placed a ha
    obtain ⟨j, hj, _⟩ := hapart.placed b hb
    apply hall.equals_eq_false hg' hi hj
    rintro rfl
    exact hne (hi.trans hj.symm)
  apply pairwise_equals hg' _ hsearched
  apply List.rel_append
  · exact List.forall₂_same.mpr fun a _ => st.graph.equals_self _
  · exact Query.inlined_equal (analyze_firsts hg hroot h hfaithful)

/-- The join of the first rows of a table, taken in two ways, one of them twice. -/
def takenTwice : Graph := ⟨#[
  .table ⟨some "t", none, ⟨[⟨"x", .int32⟩]⟩⟩,
  .limit ⟨0⟩ 10 0,
  .column ⟨1⟩ "x",
  .literal (.integer 0),
  .binary .gt ⟨2⟩ ⟨3⟩,
  .selection ⟨1⟩ [⟨4⟩],
  .limit ⟨5⟩ 3 0,
  .view ⟨6⟩,
  .join .cross ⟨6⟩ ⟨7⟩ [],
  .limit ⟨0⟩ 5 0,
  .join .cross ⟨8⟩ ⟨9⟩ []]⟩

/-- A table is written in place in the query, and another one in the common table expression. -/
theorem analyze_inlined_takenTwice :
  ∃ st, takenTwice.analyze ⟨10⟩ = .ok st ∧ st.Faithful
    ∧ ∃ a ∈ st.query.inlined, ∃ t ∈ st.shared, ∃ b ∈ t.query.inlined,
      st.graph.equals (st.graph.body a) (st.graph.body b) = false
  := by
  have hrun : (takenTwice.analyze ⟨10⟩).toOption.map (fun st =>
      (st.isSteady, st.query.inlined, st.shared.map fun t => t.query.inlined))
      = some (true, [⟨9⟩], [[⟨1⟩]]) := by
    decide +kernel
  obtain ⟨st, hst, hparts⟩ := Option.map_eq_some_iff.mp hrun
  simp only [Prod.mk.injEq] at hparts
  obtain ⟨hsteady, hquery, htables⟩ := hparts
  have hok := eq_ok_of_toOption hst
  have hg : takenTwice.WellFounded := by decide
  have hroot : takenTwice.Has ⟨10⟩ := by decide
  have hfaithful := analyze_faithful hg hroot hok hsteady
  have hpairs := analyze_inlined hg hroot hok hfaithful
  have ha : ⟨9⟩ ∈ st.query.inlined := by
    rw [hquery]
    exact List.mem_cons_self
  have hb : [⟨1⟩] ∈ st.shared.map fun t => t.query.inlined := by
    rw [htables]
    exact List.mem_cons_self
  obtain ⟨t, ht, hbodies⟩ := List.mem_map.mp hb
  have hmem : ⟨1⟩ ∈ t.query.inlined := by
    rw [hbodies]
    exact List.mem_cons_self
  refine ⟨st, hok, hfaithful, _, ha, t, ht, _, hmem, ?_⟩
  exact (List.pairwise_append.mp hpairs).2.2 _ ha _ (List.mem_flatMap.mpr ⟨t, ht, hmem⟩)

end Graph

end RelSql
