import Mathlib.Data.Fintype.Pi
import Mathlib.Data.Multiset.Filter
import RelSql.Graph.Operator

/-!
# Joined rows

A joined row has one part for each joined table: a row of the table, or nothing where an outer
join has found no match, or where the join keeps no fields of the table.  A join that preserves
the filters of a side may as well be filtered afterwards, and one that does not may not.
-/

namespace RelSql

/-- The parts of a joined row. -/
abbrev JoinedRow (R : Type) := List (Option R)

namespace JoinKind

variable {R : Type} (on : JoinedRow R → R → Bool)

/-- The rows of a table that match a joined row. -/
def matching (rs : List R) (l : JoinedRow R) : List R :=
  rs.filter (on l)

/-- The pairs of a joined row and of a row that matches. -/
def pairs (ls : List (JoinedRow R)) (rs : List R) : List (JoinedRow R) :=
  ls.flatMap fun l => (matching on rs l).map fun r => l ++ [some r]

/-- The joined rows, each with its matches or with nothing. -/
def kept (ls : List (JoinedRow R)) (rs : List R) : List (JoinedRow R) :=
  ls.flatMap fun l => match matching on rs l with
    | [] => [l ++ [none]]
    | ms => ms.map fun r => l ++ [some r]

/-- The rows that match no joined row, after `width` parts of nothing. -/
def unmatched (width : Nat) (ls : List (JoinedRow R)) (rs : List R) : List (JoinedRow R) :=
  (rs.filter fun r => !ls.any fun l => on l r).map fun r =>
    List.replicate width none ++ [some r]

/-- The join of joined rows of `width` parts with the rows of one more table. -/
def rows (kind : JoinKind) (width : Nat) (ls : List (JoinedRow R)) (rs : List R) :
    List (JoinedRow R) :=
  match kind with
  | .inner | .cross => pairs on ls rs
  | .left => kept on ls rs
  | .right => pairs on ls rs ++ unmatched on width ls rs
  | .outer => kept on ls rs ++ unmatched on width ls rs
  | .semi => (ls.filter fun l => !(matching on rs l).isEmpty).map fun l => l ++ [none]
  | .anti => (ls.filter fun l => (matching on rs l).isEmpty).map fun l => l ++ [none]

variable {on} {width : Nat} {ls : List (JoinedRow R)} {rs : List R}

/-- A joined row has the parts of the left row and one more. -/
theorem eq_append_of_mem_pairs {row : JoinedRow R} (h : row ∈ pairs on ls rs) :
  ∃ l ∈ ls, ∃ r, row = l ++ [some r]
  := by
  obtain ⟨l, hl, hrow⟩ := List.mem_flatMap.mp h
  obtain ⟨r, _, rfl⟩ := List.mem_map.mp hrow
  exact ⟨l, hl, r, rfl⟩

theorem eq_append_of_mem_kept {row : JoinedRow R} (h : row ∈ kept on ls rs) :
  ∃ l ∈ ls, ∃ part, row = l ++ [part]
  := by
  obtain ⟨l, hl, hrow⟩ := List.mem_flatMap.mp h
  split at hrow
  · exact ⟨l, hl, none, List.mem_singleton.mp hrow⟩
  · obtain ⟨r, _, rfl⟩ := List.mem_map.mp hrow
    exact ⟨l, hl, some r, rfl⟩

/-- A join of joined rows of some width is one part wider. -/
theorem length_of_mem_rows {kind : JoinKind} (hls : ∀ l ∈ ls, l.length = width)
    {row : JoinedRow R} (h : row ∈ kind.rows on width ls rs) :
  row.length = width + 1
  := by
  have hpairs : row ∈ pairs on ls rs → row.length = width + 1 := by
    intro h
    obtain ⟨l, hl, r, rfl⟩ := eq_append_of_mem_pairs h
    rw [List.length_append, hls l hl, List.length_singleton]
  have hkept : row ∈ kept on ls rs → row.length = width + 1 := by
    intro h
    obtain ⟨l, hl, part, rfl⟩ := eq_append_of_mem_kept h
    rw [List.length_append, hls l hl, List.length_singleton]
  have hunmatched : row ∈ unmatched on width ls rs → row.length = width + 1 := by
    intro h
    obtain ⟨r, _, rfl⟩ := List.mem_map.mp h
    rw [List.length_append, List.length_replicate, List.length_singleton]
  have hfiltered : ∀ P : JoinedRow R → Bool,
      row ∈ (ls.filter P).map (fun l => l ++ [none]) → row.length = width + 1 := by
    intro P h
    obtain ⟨l, hl, rfl⟩ := List.mem_map.mp h
    rw [List.length_append, hls l (List.mem_filter.mp hl).1, List.length_singleton]
  cases kind with
  | inner | cross => exact hpairs h
  | left => exact hkept h
  | right => exact (List.mem_append.mp h).elim hpairs hunmatched
  | outer => exact (List.mem_append.mp h).elim hkept hunmatched
  | semi | anti => exact hfiltered _ h

/-- Filtering the left rows of what each of them is mapped to. -/
theorem flatMap_filter_left {f : JoinedRow R → List (JoinedRow R)} (P : JoinedRow R → Bool)
    (hls : ∀ l ∈ ls, l.length = width)
    (hf : ∀ l, ∀ row ∈ f l, ∃ part, row = l ++ [part]) :
  (ls.filter P).flatMap f = (ls.flatMap f).filter fun row => P (row.take width)
  := by
  induction ls with
  | nil => rfl
  | cons l rest ih =>
      obtain ⟨hl, hrest⟩ := List.forall_mem_cons.mp hls
      have htake : ∀ row ∈ f l, P (row.take width) = P l := by
        intro row hrow
        obtain ⟨part, rfl⟩ := hf l row hrow
        rw [List.take_left' hl]
      rw [List.flatMap_cons, List.filter_append, ← ih hrest]
      cases hP : P l with
      | true =>
          have hall : (f l).filter (fun row => P (row.take width)) = f l := by
            rw [List.filter_eq_self]
            exact fun row hrow => (htake row hrow).trans hP
          rw [List.filter_cons_of_pos hP, List.flatMap_cons, hall]
      | false =>
          have hnone : (f l).filter (fun row => P (row.take width)) = [] := by
            rw [List.filter_eq_nil_iff]
            intro row hrow
            rw [htake row hrow, hP]
            exact Bool.false_ne_true
          rw [List.filter_cons_of_neg (by rw [hP]; exact Bool.false_ne_true), hnone,
            List.nil_append]

/-- Filtering the left rows that are kept or dropped as they are. -/
theorem map_filter_left (P keep : JoinedRow R → Bool) (hls : ∀ l ∈ ls, l.length = width) :
  ((ls.filter P).filter keep).map (fun l => l ++ [(none : Option R)])
    = ((ls.filter keep).map fun l => l ++ [none]).filter fun row => P (row.take width)
  := by
  rw [List.filter_map, List.filter_filter, List.filter_filter]
  congr 1
  apply List.filter_congr
  intro l hl
  rw [Function.comp_apply, List.take_left' (hls l hl), Bool.and_comm]

/-- Filtering the left rows before a join that preserves the filters of its left side is
filtering the joined rows. -/
theorem rows_filter_left {kind : JoinKind} (hkind : kind.preservesFilters true = true)
    (P : JoinedRow R → Bool) (hls : ∀ l ∈ ls, l.length = width) :
  kind.rows on width (ls.filter P) rs
    = (kind.rows on width ls rs).filter fun row => P (row.take width)
  := by
  cases kind with
  | inner | cross =>
      apply flatMap_filter_left P hls
      intro l row hrow
      obtain ⟨r, _, rfl⟩ := List.mem_map.mp hrow
      exact ⟨some r, rfl⟩
  | left =>
      apply flatMap_filter_left P hls
      intro l row hrow
      have hmem : row ∈ kept on [l] rs := by
        rw [kept, List.flatMap_singleton]
        exact hrow
      obtain ⟨l', hl', part, rfl⟩ := eq_append_of_mem_kept hmem
      exact ⟨part, by rw [List.mem_singleton.mp hl']⟩
  | semi => exact map_filter_left P _ hls
  | anti => exact map_filter_left P _ hls
  | right => cases hkind
  | outer => cases hkind

/-- Filtering the rows that match before pairing them is filtering the pairs. -/
theorem pairs_filter_right (P : JoinedRow R → Bool) (hls : ∀ l ∈ ls, l.length = width) :
  pairs on ls (rs.filter fun r => P [some r])
    = (pairs on ls rs).filter fun row => P (row.drop width)
  := by
  rw [pairs, pairs, List.filter_flatMap]
  rw [List.flatMap_def, List.flatMap_def, List.map_congr_left]
  intro l hl
  rw [matching, matching, List.filter_map, List.filter_filter, List.filter_filter]
  congr 1
  apply List.filter_congr
  intro r _
  rw [Function.comp_apply, List.drop_left' (hls l hl), Bool.and_comm]

/-- Filtering the right rows before a join that preserves the filters of its right side is
filtering the joined rows. -/
theorem rows_filter_right {kind : JoinKind} (hkind : kind.preservesFilters false = true)
    (P : JoinedRow R → Bool) (hls : ∀ l ∈ ls, l.length = width) :
  kind.rows on width ls (rs.filter fun r => P [some r])
    = (kind.rows on width ls rs).filter fun row => P (row.drop width)
  := by
  cases kind with
  | inner | cross => exact pairs_filter_right P hls
  | right =>
      rw [rows, rows, List.filter_append, pairs_filter_right P hls]
      congr 1
      rw [unmatched, unmatched, List.filter_map, List.filter_filter, List.filter_filter]
      congr 1
      apply List.filter_congr
      intro r _
      rw [Function.comp_apply, List.drop_left' (List.length_replicate), Bool.and_comm]
  | left => cases hkind
  | outer => cases hkind
  | semi => cases hkind
  | anti => cases hkind

end JoinKind

/-! ### Rows of columns

Predicates and join conditions are those of three-valued logic: they are true, false or unknown, and
keep a row where they are true.  A row reads as NULLs where an outer join has found no match.
-/

/-- A row with the columns `C`; a column without a value is NULL. -/
abbrev Tuple (C V : Type) := C → Option V

namespace Tuple

variable {C V : Type}

/-- The row of NULLs. -/
def null : Tuple C V := fun _ => none

/-- The rows for which a predicate is true. -/
def filter (p : Tuple C V → Option Bool) (rows : List (Tuple C V)) : List (Tuple C V) :=
  rows.filter fun r => p r = some true

/-- What a part of a joined row reads as. -/
def ofPart (part : Option (Tuple C V)) : Tuple C V := part.getD null

/-- The rows that are joined with those of a table. -/
def joined (rows : List (Tuple C V)) : List (JoinedRow (Tuple C V)) :=
  rows.map fun r => [some r]

/-- A side of a row that is joined of two. -/
def side (left : Bool) (row : Tuple C V × Tuple C V) : Tuple C V :=
  if left then row.1 else row.2

/-- What a joined row of two parts reads as. -/
def ofJoined (row : JoinedRow (Tuple C V)) : Tuple C V × Tuple C V :=
  (ofPart (row.take 1).headI, ofPart (row.drop 1).headI)

theorem length_of_mem_joined {rows : List (Tuple C V)} :
  ∀ row ∈ joined rows, row.length = 1
  := by
  intro row hrow
  obtain ⟨r, _, rfl⟩ := List.mem_map.mp hrow
  rfl

/-- Filtering a table is filtering the rows that are joined with others. -/
theorem joined_filter (p : Tuple C V → Option Bool) (rows : List (Tuple C V)) :
  joined (filter p rows)
    = (joined rows).filter fun row => p (ofPart row.headI) = some true
  := by
  rw [joined, joined, filter, List.filter_map]
  rfl

end Tuple

namespace JoinKind

variable {C V : Type} (on : Tuple C V → Tuple C V → Option Bool)

/-- Whether a row of the right table matches the row on the left. -/
def meets (l : JoinedRow (Tuple C V)) (r : Tuple C V) : Bool :=
  on (Tuple.ofPart l.headI) r = some true

/-- The rows of the join of two tables: each has a row of either, or NULLs in its place. -/
def tableRows (kind : JoinKind) (ls rs : List (Tuple C V)) : Multiset (Tuple C V × Tuple C V) :=
  (kind.rows (meets on) 1 (Tuple.joined ls) rs).map Tuple.ofJoined

variable {on} {kind : JoinKind} {ls rs : List (Tuple C V)}

/-- Filtering the left table of a join that preserves the filters of its left side is filtering the
joined rows. -/
theorem tableRows_filter_left (hkind : kind.preservesFilters true = true)
    (p : Tuple C V → Option Bool) :
  kind.tableRows on (Tuple.filter p ls) rs
    = (kind.tableRows on ls rs).filter fun row => p row.1 = some true
  := by
  rw [tableRows, tableRows, Tuple.joined_filter, Multiset.filter_coe, List.filter_map]
  rw [rows_filter_left hkind (fun row => p (Tuple.ofPart row.headI) = some true)
    Tuple.length_of_mem_joined]
  rfl

/-- Filtering the right table of a join that preserves the filters of its right side is filtering
the joined rows. -/
theorem tableRows_filter_right (hkind : kind.preservesFilters false = true)
    (p : Tuple C V → Option Bool) :
  kind.tableRows on ls (Tuple.filter p rs)
    = (kind.tableRows on ls rs).filter fun row => p row.2 = some true
  := by
  have hrows : kind.rows (meets on) 1 (Tuple.joined ls) (Tuple.filter p rs)
      = (kind.rows (meets on) 1 (Tuple.joined ls) rs).filter fun row =>
        p (Tuple.ofPart (row.drop 1).headI) = some true :=
    rows_filter_right hkind (fun row => p (Tuple.ofPart row.headI) = some true)
      Tuple.length_of_mem_joined
  rw [tableRows, tableRows, Multiset.filter_coe, List.filter_map]
  exact congrArg Multiset.ofList (congrArg (List.map Tuple.ofJoined) hrows)

/-- A join that does not preserve the filters of a side has a row for the only row of the other side
also when nothing is left of this side, and no row of it passes a filter that nothing passes. -/
theorem tableRows_filter_ne {left : Bool} (hexposed : left = true ∨ kind.leftOnly = false)
    (hkind : kind.preservesFilters left = false) :
  ∃ (on : Tuple C V → Tuple C V → Option Bool) (p : Tuple C V → Option Bool)
    (ls rs : List (Tuple C V)),
    kind.tableRows on (if left then Tuple.filter p ls else ls)
        (if left then rs else Tuple.filter p rs)
      ≠ (kind.tableRows on ls rs).filter fun row => p (Tuple.side left row) = some true
  := by
  let row : Tuple C V := Tuple.null
  refine ⟨fun _ _ => some true, fun _ => some false, [row], [row], fun hsame => ?_⟩
  have hafter : ((kind.tableRows (fun _ _ => some true) [row] [row]).filter
      fun _ => some false = some true) = 0 :=
    Multiset.filter_eq_nil.mpr fun _ _ => by decide
  have hcard := congrArg Multiset.card (hsame.trans hafter)
  cases kind with
  | left =>
      cases left with
      | true => cases hkind
      | false => exact Nat.one_ne_zero hcard
  | right =>
      cases left with
      | true => exact Nat.one_ne_zero hcard
      | false => cases hkind
  | outer => cases left <;> exact Nat.one_ne_zero hcard
  | inner | cross => cases hkind
  | semi | anti =>
      cases left with
      | true => cases hkind
      | false => cases hexposed <;> contradiction

/-- A join preserves the filters of a side that it has the fields of just when filtering the table
of this side before the join leaves the same rows, with the same multiplicities, as filtering the
joined rows: for all tables, all join conditions and all predicates on the columns of the side. -/
theorem preservesFilters_iff (C V : Type) (kind : JoinKind) (left : Bool)
    (hexposed : left = true ∨ kind.leftOnly = false) :
  kind.preservesFilters left = true
    ↔ ∀ (on : Tuple C V → Tuple C V → Option Bool) (p : Tuple C V → Option Bool)
      (ls rs : List (Tuple C V)),
      kind.tableRows on (if left then Tuple.filter p ls else ls)
          (if left then rs else Tuple.filter p rs)
        = (kind.tableRows on ls rs).filter fun row => p (Tuple.side left row) = some true
  := by
  constructor
  · intro hkind on p ls rs
    cases left with
    | true => exact tableRows_filter_left hkind p
    | false => exact tableRows_filter_right hkind p
  · intro hall
    by_contra hkind
    obtain ⟨on, p, ls, rs, hne⟩ :=
      tableRows_filter_ne (C := C) (V := V) hexposed (Bool.eq_false_of_not_eq_true hkind)
    exact hne (hall on p ls rs)

/-- Equality of the only column of two rows, which is unknown when one of them is NULL. -/
def sameValue (l r : Tuple Unit Int) : Option Bool := do
  return (← l ()) = (← r ())

/-- The predicate that tests the only column of a row for NULL. -/
def isNull (r : Tuple Unit Int) : Option Bool := (r ()).isNone

/-- A row matches itself in a left join.  Filtered by its match being NULL, it is dropped after the
join, and is kept without a match when the right table is filtered before. -/
theorem preservesFilters_iff_isNull :
  JoinKind.left.leftOnly = false
    ∧ (JoinKind.left.tableRows sameValue [fun _ => some 1] [fun _ => some 1]).filter
      (fun row => isNull row.2 = some true) = 0
    ∧ JoinKind.left.tableRows sameValue [fun _ => some 1] (Tuple.filter isNull [fun _ => some 1])
      = {(fun _ => some 1, Tuple.null)}
    ∧ ¬ ∀ (on : Tuple Unit Int → Tuple Unit Int → Option Bool) (p : Tuple Unit Int → Option Bool)
      (ls rs : List (Tuple Unit Int)), JoinKind.left.tableRows on ls (Tuple.filter p rs)
        = (JoinKind.left.tableRows on ls rs).filter fun row => p row.2 = some true
  := by
  refine ⟨rfl, by decide, by decide, fun hall => ?_⟩
  cases (preservesFilters_iff Unit Int .left false (.inr rfl)).mpr hall

end JoinKind

end RelSql
