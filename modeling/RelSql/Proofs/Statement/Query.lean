import RelSql.Statement.Binding

/-!
# Nested queries

The recursion on queries, and the queries that are nested in them.
-/

namespace RelSql.Query

mutual

/-- Induction on queries, with the nested queries of a block. -/
theorem induction {P : Query → Prop}
    (select : ∀ c nested, (∀ s ∈ nested, P s.query) → P (.select c nested))
    (union : ∀ l r distinct, P l → P r → P (.union l r distinct)) :
    ∀ q, P q
  | .select c nested => select c nested (inductionNested select union nested)
  | .union l r distinct =>
    union l r distinct (induction select union l) (induction select union r)

theorem inductionNested {P : Query → Prop}
    (select : ∀ c nested, (∀ s ∈ nested, P s.query) → P (.select c nested))
    (union : ∀ l r distinct, P l → P r → P (.union l r distinct)) :
    ∀ nested : List (Nested Query), ∀ s ∈ nested, P s.query
  | [] => fun _ hs => absurd hs List.not_mem_nil
  | ⟨_, _, _, q⟩ :: rest => List.forall_mem_cons.mpr
    ⟨induction select union q, inductionNested select union rest⟩

end

mutual

/-- Whether two queries are the same. -/
def decEq : (q q' : Query) → Decidable (q = q')
  | .select c nested, .select c' nested' =>
    have := decEqNested nested nested'
    decidable_of_decidable_of_iff (p := c = c' ∧ nested = nested') (by rw [Query.select.injEq])
  | .union l r distinct, .union l' r' distinct' =>
    have := decEq l l'
    have := decEq r r'
    decidable_of_decidable_of_iff (p := l = l' ∧ r = r' ∧ distinct = distinct')
      (by rw [Query.union.injEq])
  | .select _ _, .union _ _ _ => .isFalse nofun
  | .union _ _ _, .select _ _ => .isFalse nofun

/-- Whether two lists of nested queries are the same. -/
def decEqNested : (l l' : List (Nested Query)) → Decidable (l = l')
  | [], [] => .isTrue rfl
  | ⟨node, kind, shared, q⟩ :: rest, ⟨node', kind', shared', q'⟩ :: rest' =>
    have := decEq q q'
    have := decEqNested rest rest'
    decidable_of_decidable_of_iff
      (p := (node = node' ∧ kind = kind' ∧ shared = shared' ∧ q = q') ∧ rest = rest')
      (by rw [List.cons.injEq, Nested.mk.injEq])
  | [], _ :: _ => .isFalse nofun
  | _ :: _, [] => .isFalse nofun

end

instance : DecidableEq Query := decEq

variable {α : Type} (select : Clauses → List (Nested α) → α) (union : α → α → Bool → α)

theorem foldNested_eq (nested : List (Nested Query)) :
  foldNested select union nested = nested.map (Nested.map (Query.fold select union))
  := by
  induction nested with
  | nil => rfl
  | cons s rest ih =>
      rw [foldNested, ih]
      rfl

/-- The recursion on a block. -/
theorem fold_select (c : Clauses) (nested : List (Nested Query)) :
  (Query.select c nested).fold select union
    = select c (nested.map (Nested.map (Query.fold select union)))
  := by
  rw [Query.fold, foldNested_eq]

/-- The nested queries of a block are those of its own, and those nested in these. -/
theorem allNestedOf_eq (nested : List (Nested Query)) :
  allNestedOf nested = nested.flatMap fun s => s :: s.query.allNested
  := by
  induction nested with
  | nil => rfl
  | cons s rest ih => rw [allNestedOf, ih, List.flatMap_cons, List.cons_append]

end RelSql.Query
