import Mathlib.Data.Multiset.Dedup
import RelSql.Proofs.Lexical.Queries

/-!
# Set operations

The text of a query is read from left to right: each `UNION` joins what stands in front of it with
the next branch and keeps one copy of each row, each `UNION ALL` keeps all copies, and an ORDER BY
or LIMIT clause stands behind the last branch and cuts the rows of all of them.  The tree of a
query joins its branches as it is nested, and cuts each one by its own clauses.

Both have the same rows for all contents of the branches just when the query is a single block, or
no branch has such a clause and the tree is nested in a way that makes no difference.
-/

namespace RelSql

open Text Render

namespace Sql

/-- The tokens in front of the ORDER BY and LIMIT clauses. -/
def coreOf (ts : List Token) : List Token :=
  ts.takeWhile fun t => !t.isClosing

/-- The tokens of the ORDER BY and LIMIT clauses. -/
def closingOf (ts : List Token) : List Token :=
  ts.dropWhile fun t => !t.isClosing

/-- The tokens of the first branch; and behind each `UNION`, whether it keeps one copy of each row,
and the tokens of the next branch. -/
def splitUnions : List Token → List Token × List (Bool × List Token)
  | [] => ([], [])
  | .keyword .UNION :: .keyword .ALL :: ts =>
    ([], (false, (splitUnions ts).1) :: (splitUnions ts).2)
  | .keyword .UNION :: ts => ([], (true, (splitUnions ts).1) :: (splitUnions ts).2)
  | t :: ts => (t :: (splitUnions ts).1, (splitUnions ts).2)

/-- The rows of each branch, by its place and by its tokens in front of the last clauses. -/
abbrev CoreRows (ρ : Type) :=
  Nat → List Token → Multiset ρ

/-- The rows of the branches behind the first `n` ones. -/
def CoreRows.skip {ρ : Type} (c : CoreRows ρ) (n : Nat) : CoreRows ρ :=
  fun i => c (n + i)

variable {ρ : Type} [DecidableEq ρ] (cut : List Token → Multiset ρ → Multiset ρ)

/-- The rows of two branches, or one copy of each of them. -/
def unite (distinct : Bool) (rows more : Multiset ρ) : Multiset ρ :=
  if distinct then (rows + more).dedup else rows + more

/-- The rows that the last clauses leave, if there are any. -/
def close : List Token → Multiset ρ → Multiset ρ
  | [], rows => rows
  | ts, rows => cut ts rows

/-- Joins rows with those of branches, the last of which may have last clauses. -/
def joinRest (c : CoreRows ρ) (rows : Multiset ρ) :
    List Token → List (Bool × List Token) → Option (Multiset ρ)
  | closing, [] => some (close cut closing rows)
  | [], (distinct, ts) :: rest =>
    joinRest (c.skip 1) (unite distinct rows (c 0 (coreOf ts))) (closingOf ts) rest
  | _ :: _, _ :: _ => none

/-- The rows that the text of a query denotes. -/
def readRows (c : CoreRows ρ) (ts : List Token) : Option (Multiset ρ) :=
  let branches := splitUnions ts
  joinRest cut (c.skip 1) (c 0 (coreOf branches.1)) (closingOf branches.1) branches.2

end Sql

open Sql

namespace Query

/-- The blocks that are joined in a query. -/
def branches : Query → List Select
  | .select c nested => [⟨c, nested⟩]
  | .union l r _ => l.branches ++ r.branches

/-- How many blocks are joined in a query. -/
def size : Query → Nat
  | .select _ _ => 1
  | .union l r _ => l.size + r.size

/-- Whether a query is a single block. -/
def IsBlock : Query → Prop
  | .select _ _ => True
  | .union _ _ _ => False

/-- Whether a query keeps all copies of the rows of its branches. -/
def keepsAll : Query → Bool
  | .select _ _ => true
  | .union l r distinct => !distinct && l.keepsAll && r.keepsAll

/-- Whether one copy of each row is kept where the last branch is joined, `distinct` telling it for
the whole query. -/
def endsDistinct (distinct : Bool) : Query → Bool
  | .select _ _ => distinct
  | .union _ r distinct => r.endsDistinct distinct

/-- A query joins as if it were nested on the left only: a `UNION ALL` may be followed by others on
its right, and a `UNION` by anything that ends with one. -/
def Associates : Query → Prop
  | .select _ _ => True
  | .union l r false => l.Associates ∧ r.keepsAll
  | .union _ r true => r.endsDistinct true

/-- No branch has an ORDER BY or LIMIT clause. -/
def Bare (q : Query) : Prop :=
  ∀ b ∈ q.branches, b.clauses.orderBy = [] ∧ b.clauses.limit = none

variable {ρ : Type} [DecidableEq ρ] (tokens : Select → List Token)
  (cut : List Token → Multiset ρ → Multiset ρ)

/-- The rows that the tree of a query denotes, each block being read by itself. -/
def rows : Query → CoreRows ρ → Multiset ρ
  | .select b nested, c =>
    close cut (closingOf (tokens ⟨b, nested⟩)) (c 0 (coreOf (tokens ⟨b, nested⟩)))
  | .union l r distinct, c => unite distinct (l.rows c) (r.rows (c.skip l.size))

/-! ### Reading the branches -/

/-- The tokens of a query. -/
def allTokens : Query → List Token
  | .select b nested => tokens ⟨b, nested⟩
  | .union l r distinct => l.allTokens ++ unionTokens distinct ++ r.allTokens

/-- The tokens of the branches behind the first one, and how they are joined. -/
def restTokens : Query → List (Bool × List Token)
  | .select _ _ => []
  | .union l r distinct => l.restTokens ++ (distinct, tokens r.first) :: r.restTokens

/-- Rows joined with those of the branches of a query, from left to right. -/
def joined : Query → Bool → CoreRows ρ → Multiset ρ → Multiset ρ
  | .select b nested, distinct, c, rows => unite distinct rows (c 0 (coreOf (tokens ⟨b, nested⟩)))
  | .union l r distinct', distinct, c, rows =>
    r.joined distinct' (c.skip l.size) (l.joined distinct c rows)

/-- The rows of the branches of a query, joined from left to right. -/
def flat : Query → CoreRows ρ → Multiset ρ
  | .select b nested, c => c 0 (coreOf (tokens ⟨b, nested⟩))
  | .union l r distinct, c => r.joined tokens distinct (c.skip l.size) (l.flat c)

variable {tokens cut} {q : Query}

theorem splitUnions_append {ts : List Token} (h : ∀ t ∈ ts, t ≠ .keyword .UNION) (us : List Token) :
  splitUnions (ts ++ us) = (ts ++ (splitUnions us).1, (splitUnions us).2)
  := by
  induction ts with
  | nil => rfl
  | cons t ts ih =>
      obtain ⟨ht, hts⟩ := List.forall_mem_cons.mp h
      rw [List.cons_append, splitUnions, ih hts]
      · rfl
      · rintro _ rfl
        exact absurd rfl ht
      · rintro rfl
        exact absurd rfl ht

/-- The tokens of a block: they start with `SELECT`, and no `UNION` is among them. -/
def IsBranch (ts : List Token) : Prop :=
  ts.head? = some (.keyword .SELECT) ∧ ∀ t ∈ ts, t ≠ .keyword .UNION

theorem splitUnions_unionTokens (distinct : Bool) {ts : List Token}
    (h : ts.head? = some (.keyword .SELECT)) :
  splitUnions (unionTokens distinct ++ ts)
    = ([], (distinct, (splitUnions ts).1) :: (splitUnions ts).2)
  := by
  cases ts with
  | nil => cases h
  | cons t ts =>
      cases h
      cases distinct <;> rfl

theorem head?_allTokens (h : ∀ b ∈ q.branches, IsBranch (tokens b)) (us : List Token) :
  (q.allTokens tokens ++ us).head? = some (.keyword .SELECT)
  := by
  induction q using Query.induction generalizing us with
  | select b nested _ =>
      rw [List.head?_append, allTokens, (h _ List.mem_cons_self).1]
      rfl
  | union l r distinct hl _ =>
      rw [allTokens, List.append_assoc, List.append_assoc]
      exact hl (fun b hb => h b (List.mem_append_left _ hb)) _

/-- The text of a query is read as its branches. -/
theorem splitUnions_allTokens (h : ∀ b ∈ q.branches, IsBranch (tokens b)) {us : List Token}
    (hus : (splitUnions us).1 = []) :
  splitUnions (q.allTokens tokens ++ us)
    = (tokens q.first, q.restTokens tokens ++ (splitUnions us).2)
  := by
  induction q using Query.induction generalizing us with
  | select b nested _ =>
      rw [allTokens, splitUnions_append (h _ List.mem_cons_self).2, hus, List.append_nil]
      rfl
  | union l r distinct hl hr =>
      have hleft : ∀ b ∈ l.branches, IsBranch (tokens b) := fun b hb =>
        h b (List.mem_append_left _ hb)
      have hright : ∀ b ∈ r.branches, IsBranch (tokens b) := fun b hb =>
        h b (List.mem_append_right _ hb)
      have hsplit : splitUnions (unionTokens distinct ++ (r.allTokens tokens ++ us))
          = ([], (distinct, tokens r.first) :: (r.restTokens tokens ++ (splitUnions us).2)) := by
        rw [splitUnions_unionTokens distinct (head?_allTokens hright us), hr hright hus]
      rw [allTokens, List.append_assoc, List.append_assoc, hl hleft (by rw [hsplit]), hsplit,
        restTokens, List.append_assoc]
      rfl

omit [DecidableEq ρ] in
theorem skip_skip (c : CoreRows ρ) (m n : Nat) :
  (c.skip m).skip n = c.skip (m + n)
  := by
  funext i
  rw [CoreRows.skip, CoreRows.skip, CoreRows.skip, Nat.add_assoc]

/-- No branch has last clauses. -/
def Open (tokens : Select → List Token) (q : Query) : Prop :=
  ∀ b ∈ q.branches, closingOf (tokens b) = []

theorem Open.left {l r : Query} {distinct : Bool} (h : (union l r distinct).Open tokens) :
  l.Open tokens
  := fun b hb => h b (List.mem_append_left _ hb)

theorem Open.right {l r : Query} {distinct : Bool} (h : (union l r distinct).Open tokens) :
  r.Open tokens
  := fun b hb => h b (List.mem_append_right _ hb)

/-- The branches of a query are joined with the rows in front of them. -/
theorem joinRest_joined (h : q.Open tokens) (c : CoreRows ρ) (rows : Multiset ρ) (distinct : Bool)
    (rest : List (Bool × List Token)) :
  joinRest cut c rows [] ((distinct, tokens q.first) :: (q.restTokens tokens ++ rest))
    = joinRest cut (c.skip q.size) (q.joined tokens distinct c rows) [] rest
  := by
  induction q using Query.induction generalizing c rows distinct rest with
  | select b nested _ =>
      have hb : closingOf (tokens (Query.select b nested).first) = [] := h _ List.mem_cons_self
      rw [restTokens, List.nil_append, joinRest, hb]
      rfl
  | union l r distinct' hl hr =>
      rw [restTokens, List.append_assoc, List.cons_append,
        show (union l r distinct').first = l.first from rfl, hl h.left, hr h.right, skip_skip]
      rfl

theorem joinRest_flat (h : q.Open tokens) (c : CoreRows ρ) (rest : List (Bool × List Token)) :
  joinRest cut (c.skip 1) (c 0 (coreOf (tokens q.first))) [] (q.restTokens tokens ++ rest)
    = joinRest cut (c.skip q.size) (q.flat tokens c) [] rest
  := by
  induction q using Query.induction generalizing rest with
  | select b nested _ => rfl
  | union l r distinct hl hr =>
      rw [restTokens, List.append_assoc, List.cons_append,
        show (union l r distinct).first = l.first from rfl, hl h.left, joinRest_joined h.right,
        skip_skip]
      rfl

theorem first_mem_branches (q : Query) :
  q.first ∈ q.branches
  := by
  induction q using Query.induction with
  | select b nested _ => exact List.mem_cons_self
  | union l r distinct hl _ => exact List.mem_append_left _ hl

theorem splitUnions_eq (hbranch : ∀ b ∈ q.branches, IsBranch (tokens b)) :
  splitUnions (q.allTokens tokens) = (tokens q.first, q.restTokens tokens)
  := by
  have hnone : (splitUnions []).1 = [] := rfl
  have hsplit := splitUnions_allTokens hbranch hnone
  rwa [List.append_nil, splitUnions, List.append_nil] at hsplit

/-- The text of a query whose branches have no last clauses denotes the rows of its branches, joined
from left to right. -/
theorem readRows_eq_flat (hbranch : ∀ b ∈ q.branches, IsBranch (tokens b)) (h : q.Open tokens)
    (c : CoreRows ρ) :
  readRows cut c (q.allTokens tokens) = some (q.flat tokens c)
  := by
  rw [readRows, splitUnions_eq hbranch, h _ q.first_mem_branches, ← List.append_nil (q.restTokens _)]
  exact joinRest_flat h c []

/-! ### Trees that read as they are nested -/

/-- All copies of the rows of the branches of a query. -/
def total (tokens : Select → List Token) : Query → CoreRows ρ → Multiset ρ
  | .select b nested, c => c 0 (coreOf (tokens ⟨b, nested⟩))
  | .union l r _, c => l.total tokens c + r.total tokens (c.skip l.size)

theorem mem_unite {distinct : Bool} {rows more : Multiset ρ} {a : ρ} :
  a ∈ unite distinct rows more ↔ a ∈ rows ∨ a ∈ more
  := by
  cases distinct <;> simp [unite]

theorem mem_joined {distinct : Bool} {c : CoreRows ρ} {rows : Multiset ρ} {a : ρ} :
  a ∈ q.joined tokens distinct c rows ↔ a ∈ rows ∨ a ∈ q.total tokens c
  := by
  induction q using Query.induction generalizing c rows distinct with
  | select b nested _ => exact mem_unite
  | union l r distinct' hl hr => rw [joined, hr, hl, total, Multiset.mem_add, or_assoc]

theorem mem_flat {c : CoreRows ρ} {a : ρ} :
  a ∈ q.flat tokens c ↔ a ∈ q.total tokens c
  := by
  induction q using Query.induction generalizing c with
  | select b nested _ => exact Iff.rfl
  | union l r distinct hl _ => rw [flat, mem_joined, hl, total, Multiset.mem_add]

theorem rows_select {b : Clauses} {nested : List (Nested Query)}
    (h : (select b nested).Open tokens) (c : CoreRows ρ) :
  (select b nested).rows tokens cut c = c 0 (coreOf (tokens ⟨b, nested⟩))
  := by
  rw [rows, h _ List.mem_cons_self, close]

theorem mem_rows (h : q.Open tokens) {c : CoreRows ρ} {a : ρ} :
  a ∈ q.rows tokens cut c ↔ a ∈ q.total tokens c
  := by
  induction q using Query.induction generalizing c with
  | select b nested _ => rw [rows_select h, total]
  | union l r distinct hl hr =>
      rw [rows, mem_unite, hl h.left, hr h.right, total, Multiset.mem_add]

theorem rows_of_keepsAll (h : q.Open tokens) (hkeeps : q.keepsAll) (c : CoreRows ρ) :
  q.rows tokens cut c = q.total tokens c
  := by
  induction q using Query.induction generalizing c with
  | select b nested _ => exact rows_select h c
  | union l r distinct hl hr =>
      simp only [keepsAll, Bool.and_eq_true, Bool.not_eq_true'] at hkeeps
      obtain ⟨⟨rfl, hleft⟩, hright⟩ := hkeeps
      rw [rows, hl h.left hleft, hr h.right hright]
      rfl

theorem joined_of_keepsAll (hkeeps : q.keepsAll) (c : CoreRows ρ) (rows : Multiset ρ) :
  q.joined tokens false c rows = rows + q.total tokens c
  := by
  induction q using Query.induction generalizing c rows with
  | select b nested _ => rfl
  | union l r distinct hl hr =>
      simp only [keepsAll, Bool.and_eq_true, Bool.not_eq_true'] at hkeeps
      obtain ⟨⟨rfl, hleft⟩, hright⟩ := hkeeps
      rw [joined, hl hleft, hr hright, total, Multiset.add_assoc]

theorem dedup_joined {distinct : Bool} (h : q.endsDistinct distinct) (c : CoreRows ρ)
    (rows : Multiset ρ) :
  (q.joined tokens distinct c rows).dedup = q.joined tokens distinct c rows
  := by
  induction q using Query.induction generalizing c rows distinct with
  | select b nested _ =>
      rw [show distinct = true from h, joined, unite, if_pos rfl, Multiset.dedup_idem]
  | union l r distinct' _ hr => exact hr h _ _

/-- A query that joins as if it were nested on the left has the rows of its branches, joined from
left to right. -/
theorem flat_eq_rows (h : q.Open tokens) (hq : q.Associates) (c : CoreRows ρ) :
  q.flat tokens c = q.rows tokens cut c
  := by
  induction q using Query.induction generalizing c with
  | select b nested _ => exact (rows_select h c).symm
  | union l r distinct hl _ =>
      cases distinct with
      | false =>
          rw [flat, hl h.left hq.1, joined_of_keepsAll hq.2, ← rows_of_keepsAll h.right hq.2]
          rfl
      | true =>
          rw [flat, ← dedup_joined hq, rows, unite, if_pos rfl, Multiset.dedup_ext]
          intro a
          rw [mem_joined, mem_flat, Multiset.mem_add, mem_rows h.left, mem_rows h.right]

/-! ### Trees that do not -/

/-- Branches without rows add none, but may leave one copy of each row in front of them. -/
theorem joined_of_zero {c : CoreRows ρ} (hc : ∀ i < q.size, ∀ ts, c i ts = 0) (distinct : Bool)
    (rows : Multiset ρ) :
  q.joined tokens distinct c rows = if distinct || !q.keepsAll then rows.dedup else rows
  := by
  induction q using Query.induction generalizing c rows distinct with
  | select b nested _ =>
      rw [joined, hc 0 Nat.one_pos, unite, Multiset.add_zero]
      cases distinct <;> rfl
  | union l r distinct' hl hr =>
      have hleft : ∀ i < l.size, ∀ ts, c i ts = 0 := fun i hi =>
        hc i (Nat.lt_add_right _ hi)
      have hright : ∀ i < r.size, ∀ ts, c.skip l.size i ts = 0 := fun i hi =>
        hc _ (Nat.add_lt_add_left hi _)
      rw [joined, hr hright, hl hleft, keepsAll]
      cases distinct <;> cases distinct' <;> cases l.keepsAll <;> cases r.keepsAll <;>
        simp [Multiset.dedup_idem]

/-- The rows of the first branch only. -/
structure FirstOnly (q : Query) (c : CoreRows ρ) (x : Multiset ρ) : Prop where
  first : ∀ ts, c 0 ts = x
  rest : ∀ i, 0 < i → i < q.size → ∀ ts, c i ts = 0

omit [DecidableEq ρ] in
theorem size_pos (q : Query) :
  0 < q.size
  := by
  induction q using Query.induction with
  | select b nested _ => exact Nat.one_pos
  | union l r distinct hl _ => exact Nat.add_pos_left hl _

omit [DecidableEq ρ] in
theorem FirstOnly.left {l r : Query} {distinct : Bool} {c : CoreRows ρ} {x : Multiset ρ}
    (h : FirstOnly (union l r distinct) c x) :
  FirstOnly l c x
  := ⟨h.first, fun i hpos hi => h.rest i hpos (Nat.lt_add_right _ hi)⟩

omit [DecidableEq ρ] in
theorem FirstOnly.right {l r : Query} {distinct : Bool} {c : CoreRows ρ} {x : Multiset ρ}
    (h : FirstOnly (union l r distinct) c x) :
  ∀ i < r.size, ∀ ts, c.skip l.size i ts = 0
  := fun i hi => h.rest _ (Nat.add_pos_left l.size_pos i) (Nat.add_lt_add_left hi _)

theorem joined_of_firstOnly {c : CoreRows ρ} {x : Multiset ρ} (h : q.FirstOnly c x)
    (distinct : Bool) (rows : Multiset ρ) :
  q.joined tokens distinct c rows
    = if q.keepsAll then unite distinct rows x else (unite distinct rows x).dedup
  := by
  induction q using Query.induction generalizing c rows distinct with
  | select b nested _ =>
      rw [joined, h.first]
      rfl
  | union l r distinct' hl _ =>
      rw [joined, joined_of_zero h.right, hl h.left, keepsAll]
      cases distinct' <;> cases l.keepsAll <;> cases r.keepsAll <;> simp [Multiset.dedup_idem]

/-- A single row stays single however branches without rows are joined with it. -/
theorem flat_of_firstOnly {c : CoreRows ρ} {x : Multiset ρ} (h : q.FirstOnly c x)
    (hx : x.dedup = x) :
  q.flat tokens c = x
  := by
  induction q using Query.induction generalizing c with
  | select b nested _ => exact h.first _
  | union l r distinct hl _ =>
      rw [flat, joined_of_zero h.right, hl h.left]
      split
      · exact hx
      · rfl

omit [DecidableEq ρ] in
theorem total_of_zero {c : CoreRows ρ} (hc : ∀ i < q.size, ∀ ts, c i ts = 0) :
  q.total tokens c = 0
  := by
  induction q using Query.induction generalizing c with
  | select b nested _ => exact hc 0 Nat.one_pos _
  | union l r distinct hl hr =>
      have hright : r.total tokens (c.skip l.size) = 0 := hr fun i hi =>
        hc _ (Nat.add_lt_add_left hi _)
      rw [total, hl fun i hi => hc i (Nat.lt_add_right _ hi), hright]
      rfl

theorem rows_of_firstOnly (hopen : q.Open tokens) {c : CoreRows ρ} {x : Multiset ρ}
    (h : q.FirstOnly c x) (hx : x.dedup = x) :
  q.rows tokens cut c = x
  := by
  induction q using Query.induction generalizing c with
  | select b nested _ => rw [rows_select hopen, h.first]
  | union l r distinct hl _ =>
      have hnone : r.rows tokens cut (c.skip l.size) = 0 := by
        rw [Multiset.eq_zero_iff_forall_notMem]
        intro a ha
        rw [mem_rows hopen.right, total_of_zero h.right] at ha
        exact Multiset.notMem_zero a ha
      rw [rows, hnone, hl hopen.left h.left, unite, Multiset.add_zero, hx, ite_self]

/-- Where the last branch is joined with all copies of its rows, they are there. -/
theorem le_joined {distinct : Bool} (h : q.endsDistinct distinct = false) {c : CoreRows ρ}
    {x : Multiset ρ} (hc : ∀ i ts, c i ts = x) (rows : Multiset ρ) :
  x ≤ q.joined tokens distinct c rows
  := by
  induction q using Query.induction generalizing c rows distinct with
  | select b nested _ =>
      rw [show distinct = false from h, joined, hc]
      exact Multiset.le_add_left _ _
  | union l r distinct' _ hr => exact hr h (fun i => hc _) _

/-- For other trees some contents tell the tree from its branches joined from left to right. -/
theorem exists_flat_ne_rows (hopen : q.Open tokens) (h : ¬q.Associates)
    (cut : List Token → Multiset Unit → Multiset Unit) :
  ∃ c : CoreRows Unit, q.flat tokens c ≠ q.rows tokens cut c
  := by
  induction q using Query.induction with
  | select b nested _ => exact absurd trivial h
  | union l r distinct hl _ =>
      cases distinct with
      | true =>
          -- two copies of a row in the last branch
          refine ⟨fun _ _ => {(), ()}, fun heq => ?_⟩
          have htwo : {(), ()} ≤ (union l r true).flat tokens fun _ _ => {(), ()} :=
            le_joined (Bool.not_eq_true _ ▸ h) (fun _ _ => rfl) _
          rw [heq, rows, unite, if_pos rfl] at htwo
          have hnodup := Multiset.nodup_of_le htwo (Multiset.nodup_dedup _)
          exact absurd hnodup (by decide)
      | false =>
          by_cases hkeeps : r.keepsAll
          case pos =>
              obtain ⟨c, hc⟩ := hl hopen.left fun hassoc => h ⟨hassoc, hkeeps⟩
              refine ⟨c, fun heq => hc ?_⟩
              rw [flat, joined_of_keepsAll hkeeps, rows, rows_of_keepsAll hopen.right hkeeps] at heq
              exact Multiset.add_left_inj.mp heq
          case neg =>
              -- a row in the first branches of both sides
              let c : CoreRows Unit := fun i _ => if i = 0 ∨ i = l.size then {()} else 0
              have hleft : FirstOnly l c {()} := by
                refine ⟨fun _ => if_pos (.inl rfl), fun i hpos hi _ => if_neg ?_⟩
                rintro (rfl | rfl)
                · exact Nat.lt_irrefl 0 hpos
                · exact Nat.lt_irrefl _ hi
              have hright : FirstOnly r (c.skip l.size) {()} := by
                refine ⟨fun _ => if_pos (.inr rfl), fun i hpos hi _ => if_neg ?_⟩
                rintro (h | h) <;> omega
              refine ⟨c, fun heq => ?_⟩
              rw [flat, joined_of_firstOnly hright, if_neg hkeeps,
                flat_of_firstOnly hleft (by decide), rows,
                rows_of_firstOnly hopen.left hleft (by decide),
                rows_of_firstOnly hopen.right hright (by decide)] at heq
              exact absurd heq (by decide)

/-! ### Last clauses of branches -/

/-- When last clauses leave no row, branches that have some have none when they are read. -/
theorem joinRest_eq_zero {c : CoreRows ρ} {rows s : Multiset ρ} {closing : List Token}
    {rest : List (Bool × List Token)}
    (hclosing : closing ≠ [] ∨ ∃ branch ∈ rest, closingOf branch.2 ≠ [])
    (h : joinRest (fun _ _ => 0) c rows closing rest = some s) :
  s = 0
  := by
  fun_induction joinRest (fun _ _ => 0) c rows closing rest with
  | case1 c rows closing =>
      obtain hclosing | ⟨branch, hmem, _⟩ := hclosing
      · cases closing with
        | nil => exact absurd rfl hclosing
        | cons t ts => exact (Option.some.inj h).symm
      · exact absurd hmem List.not_mem_nil
  | case2 c rows distinct ts rest ih =>
      refine ih ?_ h
      obtain hclosing | ⟨branch, hmem, hbranch⟩ := hclosing
      · exact absurd rfl hclosing
      · rcases List.mem_cons.mp hmem with rfl | hmem
        · exact .inl hbranch
        · exact .inr ⟨branch, hmem, hbranch⟩
  | case3 => cases h

/-- A branch that is not the last one must have no last clauses. -/
theorem joinRest_eq_none {c : CoreRows ρ} {rows : Multiset ρ} {closing : List Token}
    {rest : List (Bool × List Token)} (hclosing : closing ≠ []) (hrest : rest ≠ []) :
  joinRest cut c rows closing rest = none
  := by
  cases closing with
  | nil => exact absurd rfl hclosing
  | cons t ts =>
      cases rest with
      | nil => exact absurd rfl hrest
      | cons branch rest => rfl

theorem tokens_mem_restTokens (tokens : Select → List Token) {b : Select} (hb : b ∈ q.branches) :
  b = q.first ∨ ∃ branch ∈ q.restTokens tokens, branch.2 = tokens b
  := by
  induction q using Query.induction with
  | select c nested _ => exact .inl (List.mem_singleton.mp hb)
  | union l r distinct hl hr =>
      rcases List.mem_append.mp hb with hb | hb
      · refine (hl hb).imp_right ?_
        rintro ⟨branch, hmem, hbranch⟩
        exact ⟨branch, List.mem_append_left _ hmem, hbranch⟩
      · right
        rcases hr hb with rfl | ⟨branch, hmem, hbranch⟩
        · exact ⟨_, List.mem_append_right _ List.mem_cons_self, rfl⟩
        · exact ⟨branch, List.mem_append_right _ (List.mem_cons_of_mem _ hmem), hbranch⟩

/-- The rows of the first branch are there, if it has no last clauses. -/
theorem mem_rows_of_first (h : closingOf (tokens q.first) = []) {c : CoreRows ρ} {a : ρ}
    (ha : a ∈ c 0 (coreOf (tokens q.first))) :
  a ∈ q.rows tokens cut c
  := by
  induction q using Query.induction with
  | select b nested _ =>
      rw [rows, show closingOf (tokens ⟨b, nested⟩) = [] from h]
      exact ha
  | union l r distinct hl _ =>
      rw [rows, mem_unite]
      exact .inl (hl h ha)

/-- Last clauses of a branch that is joined with others are not read as the clauses of it. -/
theorem readRows_ne_rows (hbranch : ∀ b ∈ q.branches, IsBranch (tokens b)) (hblock : ¬q.IsBlock)
    (hopen : ¬q.Open tokens) :
  readRows (fun _ _ => 0) (fun _ _ => {()}) (q.allTokens tokens)
    ≠ some (q.rows tokens (fun _ _ => 0) (fun _ _ => ({()} : Multiset Unit)))
  := by
  intro h
  simp only [Open, not_forall] at hopen
  obtain ⟨b, hb, hclosing⟩ := hopen
  have hrest : closingOf (tokens q.first) ≠ []
      ∨ ∃ branch ∈ q.restTokens tokens, closingOf branch.2 ≠ [] := by
    rcases tokens_mem_restTokens tokens hb with rfl | ⟨branch, hmem, htokens⟩
    · exact .inl hclosing
    · exact .inr ⟨branch, hmem, htokens ▸ hclosing⟩
  rw [readRows, splitUnions_eq hbranch] at h
  by_cases hfirst : closingOf (tokens q.first) = []
  case pos =>
      have hmem : () ∈ q.rows tokens (fun _ _ => 0) (fun _ _ => ({()} : Multiset Unit)) :=
        mem_rows_of_first hfirst (Multiset.mem_singleton_self _)
      rw [joinRest_eq_zero hrest h] at hmem
      exact Multiset.notMem_zero _ hmem
  case neg =>
      cases q with
      | select c nested => exact hblock trivial
      | union l r distinct =>
          rw [joinRest_eq_none hfirst] at h
          · cases h
          · exact List.append_ne_nil_of_right_ne_nil _ (List.cons_ne_nil _ _)

/-- The text of a query denotes the rows of its tree, for all contents of its branches and whatever
the last clauses do, just when the query is a single block, or no branch has last clauses and the
tree joins as if it were nested on the left. -/
theorem readRows_allTokens_iff (hbranch : ∀ b ∈ q.branches, IsBranch (tokens b)) :
  (∀ (ρ : Type) [DecidableEq ρ] (cut : List Token → Multiset ρ → Multiset ρ) (c : CoreRows ρ),
      readRows cut c (q.allTokens tokens) = some (q.rows tokens cut c))
    ↔ q.IsBlock ∨ q.Open tokens ∧ q.Associates
  := by
  constructor
  · intro h
    by_cases hblock : q.IsBlock
    case pos => exact .inl hblock
    case neg =>
        by_cases hopen : q.Open tokens
        case pos =>
            refine .inr ⟨hopen, by_contra fun hassoc => ?_⟩
            obtain ⟨c, hc⟩ := exists_flat_ne_rows hopen hassoc fun _ rows => rows
            have hrows := h Unit (fun _ rows => rows) c
            rw [readRows_eq_flat hbranch hopen] at hrows
            exact hc (Option.some.inj hrows)
        case neg => exact absurd (h Unit _ _) (readRows_ne_rows hbranch hblock hopen)
  · rintro (hblock | ⟨hopen, hassoc⟩) ρ _ cut c
    · cases q with
      | select b nested =>
          rw [readRows, splitUnions_eq hbranch]
          rfl
      | union l r distinct => exact hblock.elim
    · rw [readRows_eq_flat hbranch hopen, flat_eq_rows hopen hassoc]

/-! ### Texts of queries -/

variable {g : Graph} {options : Render.Options} {text : String}

/-- The tokens of the text of a block, none if it has no text. -/
def blockTokens (g : Graph) (options : Render.Options) (b : Select) : List Token :=
  ((view g options b).text.toOption.bind tokens?).getD []

/-- The tokens of a block are those of a branch, and its last clauses are found among them. -/
structure Separable (tokens : Select → List Token) (b : Select) : Prop where
  branch : IsBranch (tokens b)
  closing : closingOf (tokens b) = [] ↔ b.clauses.orderBy = [] ∧ b.clauses.limit = none

theorem closingOf_append {t : Token} {ts us : List Token} (ht : t.isClosing = false)
    (hts : Inner ts) (hus : Closing us) :
  closingOf (t :: (ts ++ us)) = us
  := by
  have hinner : ∀ u ∈ t :: ts, !u.isClosing := by
    refine List.forall_mem_cons.mpr ⟨by rw [ht]; rfl, fun u hu => ?_⟩
    have hmem := hts u hu
    cases u with
    | keyword k => cases k <;> first | rfl | cases hmem
    | _ => rfl
  rw [closingOf, ← List.cons_append, List.dropWhile_append_of_pos hinner]
  cases us with
  | nil => rfl
  | cons u us => rw [List.dropWhile_cons, if_neg (by simp [hus.first u rfl])]

theorem separable {b : Clauses} {nested : List (Nested Query)} (hg : g.WellFounded)
    (hplaced : (Query.select b nested).Everywhere (Select.Placed g))
    (hlegible : (Query.select b nested).Everywhere (Select.Legible g options))
    (h : (view g options ⟨b, nested⟩).text = .ok text) :
  Spells text (blockTokens g options ⟨b, nested⟩)
    ∧ Separable (blockTokens g options) ⟨b, nested⟩
  := by
  obtain ⟨ts, us, hspells, hinner, hclosing, hnil⟩ :=
    View.spells_clauses hg (readable_select hg hplaced hlegible h) h
  have htokens : blockTokens g options ⟨b, nested⟩ = .keyword .SELECT :: (ts ++ us) := by
    rw [blockTokens, h, Except.toOption, Option.bind_some, tokens?_eq_some.mpr hspells,
      Option.getD_some]
  refine ⟨htokens ▸ hspells, ⟨?_, ?_⟩⟩
  · rw [htokens]
    refine ⟨rfl, List.forall_mem_cons.mpr ⟨nofun, List.forall_mem_append.mpr ⟨?_, ?_⟩⟩⟩
    · rintro t ht rfl
      exact absurd (hinner _ ht) (by decide)
    · rintro t ht rfl
      exact absurd (hclosing.inner _ ht) (by decide)
  · rw [htokens, closingOf_append rfl hinner hclosing]
    exact hnil

/-- The text of a query is read as the tokens of its blocks. -/
theorem spells_allTokens (hg : g.WellFounded) (hplaced : q.Everywhere (Select.Placed g))
    (hlegible : q.Everywhere (Select.Legible g options)) (h : query g options q () = .ok text) :
  Spells text (q.allTokens (blockTokens g options))
    ∧ ∀ b ∈ q.branches, Separable (blockTokens g options) b
  := by
  induction q using Query.induction generalizing text with
  | select b nested _ =>
      rw [text_select] at h
      obtain ⟨hspells, hseparable⟩ := separable hg hplaced hlegible h
      exact ⟨hspells, List.forall_mem_singleton.mpr hseparable⟩
  | union l r distinct hl hr =>
      obtain ⟨hleft, hright⟩ := everywhere_union.mp hplaced
      obtain ⟨hleft', hright'⟩ := everywhere_union.mp hlegible
      rw [text_union] at h
      obtain ⟨left, hlefttext, h⟩ := exists_of_bind_eq_ok h
      obtain ⟨right, hrighttext, h⟩ := exists_of_bind_eq_ok h
      cases h
      obtain ⟨hspells, hbranches⟩ := hl hleft hleft' hlefttext
      obtain ⟨hspells', hbranches'⟩ := hr hright hright' hrighttext
      exact ⟨spells_union hspells hspells' distinct,
        List.forall_mem_append.mpr ⟨hbranches, hbranches'⟩⟩

/-- The text of a query denotes the rows of its tree, for all contents of its branches, just when
the query is a single block, or no branch has an ORDER BY or LIMIT clause and the tree joins as if
it were nested on the left. -/
theorem text_denotes_rows_iff (hg : g.WellFounded) (hplaced : q.Everywhere (Select.Placed g))
    (hlegible : q.Everywhere (Select.Legible g options)) (h : query g options q () = .ok text) :
  (∀ (ρ : Type) [DecidableEq ρ] (cut : List Token → Multiset ρ → Multiset ρ) (c : CoreRows ρ),
      (tokens? text).bind (readRows cut c) = some (q.rows (blockTokens g options) cut c))
    ↔ q.IsBlock ∨ q.Bare ∧ q.Associates
  := by
  obtain ⟨hspells, hseparable⟩ := spells_allTokens hg hplaced hlegible h
  rw [tokens?_eq_some.mpr hspells]
  have hbare : q.Open (blockTokens g options) ↔ q.Bare :=
    forall₂_congr fun b hb => (hseparable b hb).closing
  exact (readRows_allTokens_iff fun b hb => (hseparable b hb).branch).trans
    (or_congr_right (and_congr_left' hbare))

/-- A union of two tables, joined with all copies of the rows of another one. -/
def rightNested : Graph := ⟨#[
  .table ⟨some "t", none, ⟨[⟨"x", .int32⟩]⟩⟩,
  .table ⟨some "u", none, ⟨[⟨"x", .int32⟩]⟩⟩,
  .table ⟨some "w", none, ⟨[⟨"x", .int32⟩]⟩⟩,
  .union ⟨1⟩ ⟨2⟩ true,
  .union ⟨0⟩ ⟨3⟩ false]⟩

/-- Its text also leaves single copies of the rows of the first table. -/
theorem text_denotes_rows_rightNested :
  ∃ st text, rightNested.analyze ⟨4⟩ = .ok st
    ∧ query st.graph .default st.query () = .ok text
    ∧ ¬∀ (ρ : Type) [DecidableEq ρ] (cut : List Token → Multiset ρ → Multiset ρ) (c : CoreRows ρ),
      (tokens? text).bind (readRows cut c)
        = some (st.query.rows (blockTokens st.graph .default) cut c)
  := by
  have hrun : ((rightNested.analyze ⟨4⟩).toOption.bind fun st =>
      match st.query with
      | .union _ r distinct =>
        some ((query st.graph .default st.query ()).toOption.isSome,
          decide st.graph.WellFounded, st.graph.isLegible, distinct, r.keepsAll)
      | _ => none) = some (true, true, true, false, false) := by
    decide +kernel
  obtain ⟨st, hst, hrun⟩ := Option.bind_eq_some_iff.mp hrun
  have hok := eq_ok_of_toOption hst
  split at hrun
  case h_2 => cases hrun
  case h_1 l r distinct hquery =>
      simp only [Option.some.injEq, Prod.mk.injEq, decide_eq_true_eq] at hrun
      obtain ⟨htext, hg, hlegible, rfl, hkeeps⟩ := hrun
      obtain ⟨text, htext⟩ := Option.isSome_iff_exists.mp htext
      refine ⟨st, text, hok, eq_ok_of_toOption htext, ?_⟩
      rw [text_denotes_rows_iff hg
        (fun outer b hb => Graph.analyze_placed (by decide) (by decide) hok outer b (.inl hb))
        (fun outer b _ => Graph.legible_of_isLegible hlegible _ b) (eq_ok_of_toOption htext), hquery]
      rintro (hblock | ⟨_, _, hright⟩)
      · exact hblock
      · rw [hkeeps] at hright
        cases hright

end Query

end RelSql
