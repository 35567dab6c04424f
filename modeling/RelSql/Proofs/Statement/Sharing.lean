import Mathlib.Data.List.Count
import Mathlib.Data.List.Flatten
import Mathlib.Data.List.Forall2
import Mathlib.Data.List.Perm.Basic
import Mathlib.Data.List.Perm.Subperm
import RelSql.Proofs.Statement.Compilation
import RelSql.Proofs.Statement.Nesting

/-!
# Common table expressions

The derived tables of a query are collected in groups of equal ones, and each group of several
occurrences becomes a common table expression.  No occurrence is collected twice, and no
group is lost, so a reference is the position of the table that it stands for.
-/

namespace RelSql

/-- Every table is equal to itself. -/
theorem Graph.equals_self (g : Graph) (id : NodeId) :
  g.equals id id = true
  := by
  rw [equals, equalsWith, compareWithin, if_pos rfl]
  rfl

namespace Occurrences

variable {g : Graph}

/-- Adds an occurrence to those of the first table equal to it, or as the first occurrence of
another table. -/
def insert (g : Graph) (leaf : NodeId) : List Occurrences → List Occurrences
  | [] => [⟨g.body leaf, [leaf]⟩]
  | o :: rest =>
    if g.equals o.body (g.body leaf) then { o with leaves := o.leaves ++ [leaf] } :: rest
    else o :: insert g leaf rest

/-- Whether a table equal to that of a leaf has occurred. -/
def knows (g : Graph) (found : List Occurrences) (leaf : NodeId) : Bool :=
  found.any fun o => g.equals o.body (g.body leaf)

/-- All occurrences of all tables. -/
def allLeaves (found : List Occurrences) : List NodeId :=
  found.flatMap Occurrences.leaves

attribute [local simp] insert

/-- Adding an occurrence succeeds when an equal table has occurred. -/
theorem add?_eq (leaf : NodeId) (found : List Occurrences) :
  add? g (g.body leaf) leaf found
    = if knows g found leaf then some (insert g leaf found) else none
  := by
  induction found with
  | nil => rfl
  | cons o rest ih =>
      rw [add?, insert, knows, List.any_cons, ← knows]
      cases g.equals o.body (g.body leaf) with
      | true => rfl
      | false =>
          rw [if_neg Bool.false_ne_true, if_neg Bool.false_ne_true, Bool.false_or, ih]
          split <;> rfl

theorem insert_of_unknown {leaf : NodeId} {found : List Occurrences}
    (h : knows g found leaf = false) :
  insert g leaf found = found ++ [⟨g.body leaf, [leaf]⟩]
  := by
  induction found with
  | nil => rfl
  | cons o rest ih =>
      rw [knows, List.any_cons, Bool.or_eq_false_iff, ← knows] at h
      simp [h.1, ih h.2]

/-- Adding an occurrence adds one leaf. -/
theorem allLeaves_insert (leaf : NodeId) (found : List Occurrences) :
  (allLeaves (insert g leaf found)).Perm (leaf :: allLeaves found)
  := by
  induction found with
  | nil => exact .refl _
  | cons o rest ih =>
      rw [insert, allLeaves, allLeaves, List.flatMap_cons]
      split
      · rw [List.flatMap_cons, List.append_assoc]
        exact List.perm_middle
      · rw [List.flatMap_cons]
        exact (ih.append_left o.leaves).trans List.perm_middle

/-- A table that has occurred is known ever after. -/
theorem knows_insert (leaf leaf' : NodeId) (found : List Occurrences)
    (h : knows g found leaf' = true ∨ leaf' = leaf) :
  knows g (insert g leaf found) leaf' = true
  := by
  induction found with
  | nil =>
      rcases h with h | rfl
      · cases h
      · rw [insert, knows, List.any_cons, g.equals_self]
        rfl
  | cons o rest ih =>
      rw [insert]
      split
      case isTrue heq =>
          rw [knows, List.any_cons]
          rcases h with h | rfl
          · exact h
          · rw [heq]
            rfl
      case isFalse =>
          rw [knows, List.any_cons, ← knows]
          cases ho : g.equals o.body (g.body leaf') with
          | true => rfl
          | false =>
              rw [Bool.false_or]
              apply ih
              rcases h with h | rfl
              · rw [knows, List.any_cons, ho, Bool.false_or] at h
                exact .inl h
              · exact .inr rfl

/-- Occurrences are grouped when each leaf is with the first table equal to its body. -/
structure Grouped (g : Graph) (found : List Occurrences) : Prop where
  equal : ∀ o ∈ found, ∀ leaf ∈ o.leaves, g.equals o.body (g.body leaf) = true
  first : found.Pairwise fun o o' => ∀ leaf ∈ o'.leaves, g.equals o.body (g.body leaf) = false

theorem grouped_insert (leaf : NodeId) {found : List Occurrences} (h : Grouped g found) :
  Grouped g (insert g leaf found)
  := by
  induction found with
  | nil =>
      refine ⟨?_, List.pairwise_singleton _ _⟩
      intro o ho leaf' hleaf
      rw [List.mem_singleton.mp ho] at hleaf ⊢
      rw [List.mem_singleton.mp hleaf]
      exact g.equals_self _
  | cons o rest ih =>
      obtain ⟨hhead, hrest⟩ := List.pairwise_cons.mp h.first
      obtain ⟨hequal, hequals⟩ := List.forall_mem_cons.mp h.equal
      rw [insert]
      split
      case isTrue heq =>
          refine ⟨List.forall_mem_cons.mpr ⟨?_, hequals⟩, List.pairwise_cons.mpr ⟨hhead, hrest⟩⟩
          intro leaf' hleaf
          rcases List.mem_append.mp hleaf with hleaf | hleaf
          · exact hequal leaf' hleaf
          · rw [List.mem_singleton.mp hleaf]
            exact heq
      case isFalse hne =>
          have hinsert := ih ⟨hequals, hrest⟩
          refine ⟨List.forall_mem_cons.mpr ⟨hequal, hinsert.equal⟩,
            List.pairwise_cons.mpr ⟨?_, hinsert.first⟩⟩
          intro o' ho' leaf' hleaf
          have hmem : leaf' ∈ allLeaves (insert g leaf rest) :=
            List.mem_flatMap.mpr ⟨o', ho', hleaf⟩
          rcases List.mem_cons.mp ((allLeaves_insert leaf rest).mem_iff.mp hmem) with rfl | hold
          · exact Bool.eq_false_iff.mpr hne
          · obtain ⟨o'', ho'', hold⟩ := List.mem_flatMap.mp hold
            exact hhead o'' ho'' leaf' hold

/-- Adding several occurrences, one after the other. -/
def insertAll (g : Graph) (leaves : List NodeId) (found : List Occurrences) : List Occurrences :=
  leaves.foldl (fun found leaf => insert g leaf found) found

theorem insertAll_append (leaves leaves' : List NodeId) (found : List Occurrences) :
  insertAll g (leaves ++ leaves') found = insertAll g leaves' (insertAll g leaves found)
  := List.foldl_append

theorem grouped_insertAll (leaves : List NodeId) :
    ∀ {found : List Occurrences}, Grouped g found → Grouped g (insertAll g leaves found) := by
  induction leaves with
  | nil => exact fun h => h
  | cons leaf rest ih => exact fun h => ih (grouped_insert leaf h)

theorem allLeaves_insertAll (leaves : List NodeId) :
    ∀ found, (allLeaves (insertAll g leaves found)).Perm (leaves ++ allLeaves found) := by
  induction leaves with
  | nil => exact fun found => .refl _
  | cons leaf rest ih =>
      intro found
      refine (ih _).trans ?_
      exact ((allLeaves_insert leaf found).append_left rest).trans List.perm_middle

theorem knows_insertAll (leaves : List NodeId) {leaf : NodeId} :
    ∀ {found : List Occurrences}, knows g found leaf = true →
      knows g (insertAll g leaves found) leaf = true := by
  induction leaves with
  | nil => exact fun h => h
  | cons leaf' rest ih => exact fun h => ih (knows_insert leaf' leaf _ (.inl h))

/-- Leaving out tables keeps the groups. -/
theorem Grouped.filter {found : List Occurrences} (h : Grouped g found)
    (p : Occurrences → Bool) :
  Grouped g (found.filter p)
  := ⟨fun o ho => h.equal o (List.mem_of_mem_filter ho), h.first.filter p⟩

/-- A leaf is an occurrence of one table only. -/
theorem Grouped.findIdx?_eq {found : List Occurrences} (h : Grouped g found) {i : Nat}
    (hi : i < found.length) {leaf : NodeId} (hleaf : leaf ∈ found[i].leaves) :
  (found.findIdx? fun o => o.leaves.contains leaf) = some i
  := by
  rw [List.findIdx?_eq_some_iff_getElem]
  refine ⟨hi, List.contains_iff_mem.mpr hleaf, ?_⟩
  intro j hj hcontains
  have hmem := List.contains_iff_mem.mp hcontains
  have hequal := h.equal _ (List.getElem_mem (Nat.lt_trans hj hi)) leaf hmem
  rw [List.pairwise_iff_getElem.mp h.first j i (Nat.lt_trans hj hi) hi hj leaf hleaf] at hequal
  cases hequal

end Occurrences

namespace Query

/-- The tables of FROM clauses, here and in nested queries, that derived tables stand for. -/
def derivedLeaves : Query → List NodeId :=
  Query.fold
    (fun c nested => c.leaves.filter (fun leaf => (derivedFor? nested leaf).isSome)
      ++ nested.flatMap Nested.query)
    fun l r _ => l ++ r

/-- The common table expressions that the tables of FROM clauses, here and in nested queries,
refer to. -/
def references : Query → List Nat :=
  Query.fold
    (fun c nested => c.leaves.filterMap (fun leaf => (derivedFor? nested leaf).bind Nested.shared)
      ++ nested.flatMap Nested.query)
    fun l r _ => l ++ r

end Query

section Map

variable {Q R : Type}

/-- Nested queries are found by what they stand for. -/
theorem derivedFor?_map {f : Nested Q → Nested R}
    (hf : ∀ s, (f s).node = s.node ∧ (f s).kind = s.kind) (nested : List (Nested Q))
    (leaf : NodeId) :
  derivedFor? (nested.map f) leaf = (derivedFor? nested leaf).map f
  := by
  rw [derivedFor?, derivedFor?, List.find?_map]
  congr 1
  apply congrArg (List.find? · nested)
  funext s
  rw [Function.comp_apply, (hf s).1, (hf s).2]

theorem derivedFor?_mapQuery (f : Q → R) (nested : List (Nested Q)) (leaf : NodeId) :
  derivedFor? (nested.map (Nested.map f)) leaf = (derivedFor? nested leaf).map (Nested.map f)
  := derivedFor?_map (f := Nested.map f) (fun _ => ⟨rfl, rfl⟩) nested leaf

/-- A derived table is one of the nested queries. -/
theorem mem_of_derivedFor? {nested : List (Nested Q)} {leaf : NodeId} {s : Nested Q}
    (h : derivedFor? nested leaf = some s) :
  s ∈ nested ∧ s.node = leaf ∧ s.kind = .table
  := by
  refine ⟨List.mem_of_find?_eq_some h, ?_⟩
  simpa using List.find?_some h

end Map

namespace Query

theorem derivedLeaves_select (c : Clauses) (nested : List (Nested Query)) :
  (Query.select c nested).derivedLeaves
    = c.leaves.filter (fun leaf => (derivedFor? nested leaf).isSome)
      ++ nested.flatMap fun s => s.query.derivedLeaves
  := by
  rw [derivedLeaves, fold_select, List.flatMap_map]
  simp only [derivedFor?_mapQuery, Option.isSome_map]
  rfl

theorem references_select (c : Clauses) (nested : List (Nested Query)) :
  (Query.select c nested).references
    = c.leaves.filterMap (fun leaf => (derivedFor? nested leaf).bind Nested.shared)
      ++ nested.flatMap fun s => s.query.references
  := by
  rw [references, fold_select, List.flatMap_map]
  simp only [derivedFor?_mapQuery, Option.bind_map]
  rfl

end Query

namespace Occurrences

/-- Collects the derived table of a leaf, if it is one, and what is nested in it when it occurs
for the first time. -/
def collectLeaf (g : Graph) (nested : List (Nested Query)) (found : List Occurrences)
    (leaf : NodeId) : List Occurrences :=
  match derivedFor? nested leaf with
  | none => found
  | some derived =>
    if knows g found leaf then insert g leaf found
    else collect g derived.query (insert g leaf found)

/-- The derived tables of a block are those of its FROM clause, and those of the nested queries
that are no tables. -/
theorem collect_select (c : Clauses) (nested : List (Nested Query)) (found : List Occurrences) :
  collect g (.select c nested) found
    = (nested.filter fun s => s.kind ≠ .table).foldl (fun found s => collect g s.query found)
      (c.leaves.foldl (collectLeaf g nested) found)
  := by
  rw [collect, Query.fold_select, collectBlock, List.foldl_map, List.foldl_filter]
  congr 1
  case e_f =>
      funext found s
      simp only [decide_eq_true_eq]
      rfl
  case e_init =>
      congr 1
      funext found leaf
      rw [derivedFor?_mapQuery, collectLeaf]
      cases derivedFor? nested leaf with
      | none => rfl
      | some derived =>
          simp only [Option.map_some, add?_eq]
          cases hknown : knows g found leaf with
          | true => rfl
          | false => rw [insert_of_unknown hknown]; rfl

/-- The derived tables of a query are collected by adding occurrences one after the other, none
of them more often than it occurs. -/
def Collects (g : Graph) (leaves : List NodeId) (collect : List Occurrences → List Occurrences) :
    Prop :=
  ∀ found, ∃ visited, collect found = insertAll g visited found ∧ visited.Subperm leaves

/-- The nested queries that stand for tables not known yet. -/
def unknownTables (g : Graph) (nested : List (Nested Query)) (found : List Occurrences) :
    List (Nested Query) :=
  nested.filter fun s => s.kind = .table ∧ knows g found s.node = false

/-- What is not known later has not been known before. -/
theorem unknownTables_sublist (nested : List (Nested Query)) {found found' : List Occurrences}
    (h : ∀ leaf, knows g found leaf = true → knows g found' leaf = true) :
  (unknownTables g nested found').Sublist (unknownTables g nested found)
  := by
  apply List.monotone_filter_right
  intro s hs
  simp only [decide_eq_true_eq] at hs ⊢
  refine ⟨hs.1, ?_⟩
  rw [← Bool.not_eq_true] at hs ⊢
  exact fun hknown => hs.2 (h _ hknown)

/-- A table is searched at its first occurrence, after which it is known. -/
theorem cons_unknownTables_subperm {nested : List (Nested Query)} {s : Nested Query}
    {found found' : List Occurrences} (hs : s ∈ unknownTables g nested found)
    (hknown : knows g found' s.node = true)
    (h : ∀ leaf, knows g found leaf = true → knows g found' leaf = true) :
  (s :: unknownTables g nested found').Subperm (unknownTables g nested found)
  := by
  apply List.cons_subperm_of_not_mem_of_mem ?_ hs (unknownTables_sublist nested h).subperm
  intro hmem
  have hunknown := List.of_mem_filter hmem
  simp [hknown] at hunknown

theorem subperm_flatMap {α β : Type} {l l' : List α} (h : l.Subperm l') (f : α → List β) :
  (l.flatMap f).Subperm (l'.flatMap f)
  := by
  obtain ⟨m, hperm, hsub⟩ := h
  exact ⟨m.flatMap f, hperm.flatMap_right f, hsub.flatMap f⟩

/-- The tables of a FROM clause are collected, and what is nested in the first occurrences. -/
theorem collects_leaves {nested : List (Nested Query)}
    (ih : ∀ s ∈ nested, Collects g s.query.derivedLeaves (collect g s.query))
    (leaves : List NodeId) :
    ∀ found, ∃ visited,
      leaves.foldl (collectLeaf g nested) found = insertAll g visited found
      ∧ visited.Subperm (leaves.filter (fun leaf => (derivedFor? nested leaf).isSome)
        ++ (unknownTables g nested found).flatMap fun s => s.query.derivedLeaves) := by
  induction leaves with
  | nil => exact fun found => ⟨[], rfl, List.nil_subperm⟩
  | cons leaf rest hrest =>
      intro found
      rw [List.foldl_cons, collectLeaf]
      cases hderived : derivedFor? nested leaf with
      | none =>
          rw [List.filter_cons_of_neg (by rw [hderived]; exact Bool.false_ne_true)]
          exact hrest found
      | some derived =>
          obtain ⟨hmem, hnode, hkind⟩ := mem_of_derivedFor? hderived
          rw [List.filter_cons_of_pos (by rw [hderived]; rfl), List.cons_append]
          dsimp only
          have hlater : ∀ leaf', knows g found leaf' = true →
              knows g (insert g leaf found) leaf' = true :=
            fun leaf' h => knows_insert leaf leaf' found (.inl h)
          split
          case isTrue hknown =>
              obtain ⟨visited, heq, hvisited⟩ := hrest (insert g leaf found)
              refine ⟨leaf :: visited, heq, (List.subperm_cons leaf).mpr (hvisited.trans ?_)⟩
              have hsub := (unknownTables_sublist nested hlater).subperm
              exact (List.Subperm.refl _).append (subperm_flatMap hsub _)
          case isFalse hunknown =>
              obtain ⟨inner, hinner, hsub⟩ := ih derived hmem (insert g leaf found)
              rw [hinner]
              obtain ⟨visited, heq, hvisited⟩ := hrest (insertAll g inner (insert g leaf found))
              refine ⟨leaf :: (inner ++ visited), ?_, (List.subperm_cons leaf).mpr ?_⟩
              · rw [heq, ← insertAll_append]
                rfl
              · have hlast : ∀ leaf', knows g found leaf' = true →
                    knows g (insertAll g inner (insert g leaf found)) leaf' = true :=
                  fun leaf' h => knows_insertAll inner (hlater leaf' h)
                have hself : knows g (insertAll g inner (insert g leaf found)) derived.node = true :=
                  knows_insertAll inner (knows_insert leaf _ found (.inr hnode))
                have hderived : derived ∈ unknownTables g nested found := by
                  rw [unknownTables, List.mem_filter, hnode]
                  exact ⟨hmem, by simpa [hkind] using hunknown⟩
                have hcons := subperm_flatMap (cons_unknownTables_subperm hderived hself hlast)
                  fun s => s.query.derivedLeaves
                refine (hsub.append hvisited).trans ?_
                refine (List.perm_append_comm_assoc _ _ _).subperm.trans ?_
                exact (List.Subperm.refl _).append hcons

/-- Nested queries are collected one after the other. -/
theorem collects_nested {nested : List (Nested Query)}
    (ih : ∀ s ∈ nested, Collects g s.query.derivedLeaves (collect g s.query)) :
  Collects g (nested.flatMap fun s => s.query.derivedLeaves)
    fun found => nested.foldl (fun found s => collect g s.query found) found
  := by
  induction nested with
  | nil => exact fun found => ⟨[], rfl, List.nil_subperm⟩
  | cons s rest hrest =>
      intro found
      obtain ⟨first, heq, hfirst⟩ := ih s List.mem_cons_self found
      obtain ⟨others, heq', hothers⟩ :=
        hrest (fun s hs => ih s (List.mem_cons_of_mem _ hs)) (insertAll g first found)
      refine ⟨first ++ others, ?_, hfirst.append hothers⟩
      rw [insertAll_append, ← heq', ← heq]
      rfl

/-- Collecting the derived tables of a query adds occurrences, none more often than it is one. -/
theorem collects (q : Query) :
  Collects g q.derivedLeaves (collect g q)
  := by
  induction q using Query.induction with
  | select c nested ih =>
      intro found
      obtain ⟨tables, htables, hsub⟩ := collects_leaves ih c.leaves found
      obtain ⟨others, hothers, hsub'⟩ :=
        collects_nested (fun s (hs : s ∈ nested.filter fun s => s.kind ≠ .table) =>
          ih s (List.mem_of_mem_filter hs)) (insertAll g tables found)
      refine ⟨tables ++ others, ?_, (hsub.append hsub').trans ?_⟩
      · rw [collect_select, htables, insertAll_append]
        exact hothers
      · rw [Query.derivedLeaves_select, List.append_assoc]
        refine (List.Subperm.refl _).append ?_
        rw [← List.flatMap_append]
        apply subperm_flatMap
        -- a nested query is searched as a table or as a subquery, not as both
        refine List.Subperm.trans ?_ (List.filter_append_perm (fun s => s.kind = .table) nested).subperm
        refine (List.Sublist.append ?_ ?_).subperm
        · apply List.monotone_filter_right
          intro s hs
          simp only [decide_eq_true_eq] at hs ⊢
          exact hs.1
        · simp
  | union l r distinct hl hr =>
      intro found
      obtain ⟨first, heq, hfirst⟩ := hl found
      obtain ⟨others, heq', hothers⟩ := hr (insertAll g first found)
      refine ⟨first ++ others, ?_, hfirst.append hothers⟩
      rw [insertAll_append, ← heq', ← heq]
      rfl

end Occurrences

namespace Query

/-- Sharing tables refers nested queries to them. -/
theorem allNested_refer (shared : List Occurrences) (q : Query) :
  (q.refer shared).allNested = q.allNested.map (referNested shared)
  := by
  induction q using Query.induction with
  | select c nested ih =>
      rw [refer_select, allNested, allNested, allNestedOf_eq, allNestedOf_eq, List.flatMap_map,
        List.map_flatMap]
      apply List.flatMap_congr
      intro s hs
      rw [List.map_cons, ← ih s hs]
      rfl
  | union l r distinct hl hr =>
      rw [refer_union, allNested, allNested, List.map_append, hl, hr]

section Profile

variable {R : Type} (f : Query → R)

/-- The nested queries of a query, with what `f` says of each. -/
def profile (q : Query) : List (Nested R) :=
  q.allNested.map (Nested.map f)

theorem profile_select (c : Clauses) (nested : List (Nested Query)) :
  (Query.select c nested).profile f = nested.flatMap fun s => s.map f :: s.query.profile f
  := by
  rw [profile, allNested, allNestedOf_eq, List.map_flatMap]
  rfl

theorem profile_union (l r : Query) (distinct : Bool) :
  (Query.union l r distinct).profile f = l.profile f ++ r.profile f
  := List.map_append

/-- Binding changes no nested query but for its blocks. -/
theorem profile_bindIn (hf : ∀ q s, f (bindIn q s) = f q) (q : Query) :
    ∀ s : AliasScope, (q.bindIn s).profile f = q.profile f := by
  induction q using Query.induction with
  | select c nested ih =>
      intro s
      rw [bindIn_select, profile_select, profile_select, List.flatMap_map]
      apply List.flatMap_congr
      intro n hn
      rw [← ih n hn (s.child.bindBlock c), Nested.map, Nested.map, Nested.map, hf]
  | union l r distinct hl hr =>
      intro s
      rw [bindIn_union, profile_union, profile_union, hl, hr]

theorem profile_bind (hf : ∀ q s, f (bindIn q s) = f q) (q : Query) (groups : List SharedGroup) :
  (q.bind groups).1.profile f = q.profile f
  := by
  cases q with
  | select c nested =>
      rw [bind, profile_select, profile_select, List.flatMap_map]
      apply List.flatMap_congr
      intro n _
      rw [← profile_bindIn f hf n.query, Nested.map, Nested.map, Nested.map, hf]
  | union l r distinct =>
      rw [bind, profile_union, profile_union, profile_bindIn f hf, profile_bindIn f hf]

theorem profile_refer (shared : List Occurrences) (hf : ∀ q, f (refer shared q) = f q)
    (q : Query) :
  (q.refer shared).profile f = (q.profile f).map fun s => { s with shared := reference shared s }
  := by
  rw [profile, allNested_refer, profile, List.map_map, List.map_map]
  apply List.map_congr_left
  intro s _
  rw [Function.comp_apply, Nested.map, referNested, hf]
  rfl

end Profile

/-- The nested queries of a query, without what is nested in them. -/
def marks (q : Query) : List (Nested Unit) :=
  q.allNested.map (Nested.map fun _ => ())

theorem marks_select (c : Clauses) (nested : List (Nested Query)) :
  (Query.select c nested).marks
    = nested.flatMap fun s => s.map (fun _ => ()) :: s.query.marks
  := profile_select _ c nested

theorem marks_union (l r : Query) (distinct : Bool) :
  (Query.union l r distinct).marks = l.marks ++ r.marks
  := profile_union _ l r distinct

theorem marks_bindIn (q : Query) (s : AliasScope) :
  (q.bindIn s).marks = q.marks
  := profile_bindIn _ (fun _ _ => rfl) q s

theorem marks_bind (q : Query) (groups : List SharedGroup) :
  (q.bind groups).1.marks = q.marks
  := profile_bind _ (fun _ _ => rfl) q groups

theorem marks_refer (shared : List Occurrences) (q : Query) :
  (q.refer shared).marks
    = q.marks.map fun s => { s with shared := reference shared s }
  := profile_refer _ shared (fun _ => rfl) q

/-- Binding changes no reference. -/
theorem references_bindIn (q : Query) :
    ∀ s : AliasScope, (q.bindIn s).references = q.references := by
  induction q using Query.induction with
  | select c nested ih =>
      intro s
      rw [bindIn_select, references_select, references_select, List.flatMap_map]
      congr 1
      · simp only [derivedFor?_mapQuery, Option.bind_map]
        rfl
      · exact List.flatMap_congr fun n hn => ih n hn _
  | union l r distinct hl hr =>
      intro s
      have hunion : ∀ l r : Query, (Query.union l r distinct).references
          = l.references ++ r.references := fun _ _ => rfl
      rw [bindIn_union, hunion, hunion, hl, hr]

/-- Once tables are shared, the references are those of the derived tables that are among
them. -/
theorem references_refer (shared : List Occurrences) (q : Query) :
  (q.refer shared).references
    = q.derivedLeaves.filterMap fun leaf => shared.findIdx? fun o => o.leaves.contains leaf
  := by
  induction q using Query.induction with
  | select c nested ih =>
      rw [refer_select, references_select, derivedLeaves_select, List.filterMap_append,
        List.filterMap_filter, List.flatMap_map, List.filterMap_flatMap]
      congr 1
      · apply List.filterMap_congr
        intro leaf _
        rw [derivedFor?_map (f := referNested shared) fun _ => ⟨rfl, rfl⟩]
        cases hderived : derivedFor? nested leaf with
        | none => rfl
        | some s =>
            obtain ⟨_, hnode, hkind⟩ := mem_of_derivedFor? hderived
            simp only [Option.map_some, Option.bind_some, referNested, reference, hkind, hnode]
            rfl
      · exact List.flatMap_congr fun s hs => ih s hs
  | union l r distinct hl hr =>
      have hunion : (Query.union l r distinct).derivedLeaves
          = l.derivedLeaves ++ r.derivedLeaves := rfl
      rw [hunion, List.filterMap_append, ← hl, ← hr]
      rfl

/-- A table that a derived table stands for is found. -/
theorem exists_of_mem_derivedLeaves {leaf : NodeId} (q : Query) :
  leaf ∈ q.derivedLeaves → ∃ s ∈ q.marks, s.kind = .table ∧ s.node = leaf
  := by
  induction q using Query.induction with
  | select c nested ih =>
      intro h
      rw [marks_select]
      rw [derivedLeaves_select] at h
      rcases List.mem_append.mp h with h | h
      · obtain ⟨s, hs⟩ := Option.isSome_iff_exists.mp (List.mem_filter.mp h).2
        obtain ⟨hmem, hnode, hkind⟩ := mem_of_derivedFor? hs
        exact ⟨_, List.mem_flatMap.mpr ⟨s, hmem, List.mem_cons_self⟩, hkind, hnode⟩
      · obtain ⟨s, hs, h⟩ := List.mem_flatMap.mp h
        obtain ⟨n, hn, hkind, hnode⟩ := ih s hs h
        exact ⟨n, List.mem_flatMap.mpr ⟨s, hs, List.mem_cons_of_mem _ hn⟩, hkind, hnode⟩
  | union l r distinct hl hr =>
      intro h
      rw [marks_union]
      rcases List.mem_append.mp h with h | h
      · obtain ⟨n, hn, hnode⟩ := hl h
        exact ⟨n, List.mem_append_left _ hn, hnode⟩
      · obtain ⟨n, hn, hnode⟩ := hr h
        exact ⟨n, List.mem_append_right _ hn, hnode⟩

/-- The query of a derived table is found by its mark. -/
theorem derived?_isSome {q : Query} {leaf : NodeId}
    (h : ∃ s ∈ q.marks, s.kind = .table ∧ s.node = leaf) :
  (q.derived? leaf).isSome = true
  := by
  obtain ⟨mark, hmark, hkind, hnode⟩ := h
  obtain ⟨s, hs, rfl⟩ := List.mem_map.mp hmark
  rw [derived?, Option.isSome_map, List.find?_isSome]
  exact ⟨s, hs, by simpa using ⟨hkind, hnode⟩⟩

theorem grouped_collect (g : Graph) (q : Query) :
  Occurrences.Grouped g (Occurrences.collect g q [])
  := by
  obtain ⟨visited, heq, _⟩ := Occurrences.collects (g := g) q []
  rw [heq]
  apply Occurrences.grouped_insertAll
  exact ⟨fun o ho => absurd ho List.not_mem_nil, .nil⟩

/-- The tables that occur more than once. -/
def repeated (g : Graph) (q : Query) : List Occurrences :=
  (Occurrences.collect g q []).filter fun o => o.leaves.length > 1

theorem grouped_repeated (g : Graph) (q : Query) :
  Occurrences.Grouped g (q.repeated g)
  := (q.grouped_collect g).filter _

/-- The occurrences of a table that occurs more than once are derived tables of the query. -/
theorem repeated_subperm (g : Graph) (q : Query) {o : Occurrences} (ho : o ∈ q.repeated g) :
  o.leaves.Subperm q.derivedLeaves
  := by
  obtain ⟨visited, heq, hsub⟩ := Occurrences.collects (g := g) q []
  rw [repeated, heq] at ho
  obtain ⟨before, after, hsplit⟩ := List.append_of_mem (List.mem_of_mem_filter ho)
  have hperm := Occurrences.allLeaves_insertAll (g := g) visited []
  rw [Occurrences.allLeaves, hsplit, List.flatMap_append, List.flatMap_cons] at hperm
  have hleaves : o.leaves.Sublist
      (before.flatMap Occurrences.leaves ++ (o.leaves ++ after.flatMap Occurrences.leaves)) :=
    (List.sublist_append_left _ _).trans (List.sublist_append_right _ _)
  refine hleaves.subperm.trans (hperm.subperm.trans ?_)
  rw [Occurrences.allLeaves, List.flatMap_nil, List.append_nil]
  exact hsub

/-- No table that occurs more than once is lost, and its query is that of its first
occurrence. -/
theorem shareTables_groups (g : Graph) (q : Query) :
  List.Forall₂ (fun (o : Occurrences) (group : SharedGroup) => group.body = o.body
      ∧ group.leaves = o.leaves ∧ ∃ leaf, o.leaves.head? = some leaf
        ∧ (q.refer (q.repeated g)).derived? leaf = some group.query)
    (q.repeated g) (q.shareTables g).2
  := by
  have hfound : ∀ o ∈ q.repeated g, ∃ leaf query, o.leaves.head? = some leaf
      ∧ (q.refer (q.repeated g)).derived? leaf = some query := by
    intro o ho
    have hlength : o.leaves.length > 1 := by simpa using List.of_mem_filter ho
    obtain ⟨leaf, rest, hleaves⟩ := List.exists_cons_of_length_pos (Nat.lt_of_succ_lt hlength)
    have hderived : leaf ∈ q.derivedLeaves :=
      (q.repeated_subperm g ho).subset (by rw [hleaves]; exact List.mem_cons_self)
    obtain ⟨s, hs, hkind, hnode⟩ := exists_of_mem_derivedLeaves q hderived
    have hsome : ((q.refer (q.repeated g)).derived? leaf).isSome = true := by
      apply derived?_isSome
      rw [marks_refer]
      exact ⟨_, List.mem_map_of_mem hs, hkind, hnode⟩
    obtain ⟨query, hquery⟩ := Option.isSome_iff_exists.mp hsome
    exact ⟨leaf, query, by rw [hleaves]; rfl, hquery⟩
  rw [shareTables, ← repeated]
  dsimp only
  generalize q.refer (q.repeated g) = referred at hfound ⊢
  generalize q.repeated g = shared at hfound ⊢
  induction shared with
  | nil => exact .nil
  | cons o rest ih =>
      obtain ⟨⟨leaf, query, hleaf, hquery⟩, hrest⟩ := List.forall_mem_cons.mp hfound
      rw [List.filterMap_cons_some
        (by simp only [hleaf, Option.bind_eq_bind, Option.bind_some, hquery]; rfl)]
      exact .cons ⟨rfl, rfl, leaf, hleaf, hquery⟩ (ih hrest)

theorem shareTables_bodies (g : Graph) (q : Query) :
  (q.shareTables g).2.map SharedGroup.body = (q.repeated g).map Occurrences.body
  := by
  rw [← List.forall₂_eq_eq_eq, List.forall₂_map_left_iff, List.forall₂_map_right_iff]
  exact (q.shareTables_groups g).flip.imp fun _ _ h => h.1

theorem shareTables_leaves (g : Graph) (q : Query) :
  (q.shareTables g).2.map SharedGroup.leaves = (q.repeated g).map Occurrences.leaves
  := by
  rw [← List.forall₂_eq_eq_eq, List.forall₂_map_left_iff, List.forall₂_map_right_iff]
  exact (q.shareTables_groups g).flip.imp fun _ _ h => h.2.1

end Query

end RelSql
