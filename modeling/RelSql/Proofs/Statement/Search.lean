import RelSql.Proofs.Statement.Steady

/-!
# The search for shared tables

A derived table of a FROM clause is written as the name of a common table expression, or its
query is written in place.  The query of a common table expression is written once, where it is
defined.

The search goes through a query in the order in which its tables are written.  A table that is
met for the first time is searched before the search goes on, so the common table expressions
are numbered in the order in which they are met, those that are nested in another one right after
it.
-/

namespace RelSql

namespace Query

/-- Derived tables that are written, each with the common table expression whose name is written
for it, if there is one. -/
abbrev Written := List (NodeId × Option Nat)

/-- The derived tables that are written with a query; what is nested in those written in place is
written with them. -/
def written : Query → Written :=
  Query.fold
    (fun c nested =>
      c.leaves.flatMap (fun leaf =>
        match derivedFor? nested leaf with
        | none => []
        | some d => (leaf, d.shared) :: if d.shared = none then d.query else [])
      ++ (nested.filter fun s => s.kind ≠ .table).flatMap Nested.query)
    fun l r _ => l ++ r

/-- The names among written tables. -/
def names (w : Written) : List Nat :=
  w.filterMap Prod.snd

/-- The tables whose queries are among written tables. -/
def bodies (w : Written) : List NodeId :=
  (w.filter fun e => e.2 = none).map Prod.fst

/-- The common table expressions whose names are written with a query, in order. -/
def mentions (q : Query) : List Nat :=
  names q.written

/-- The tables whose queries are written in place in a query. -/
def inlined (q : Query) : List NodeId :=
  bodies q.written

/-- The derived tables that are written with a table of a FROM clause. -/
def writtenLeaf (nested : List (Nested Query)) (leaf : NodeId) : Written :=
  match derivedFor? nested leaf with
  | none => []
  | some d => (leaf, d.shared) :: if d.shared = none then d.query.written else []

theorem written_select (c : Clauses) (nested : List (Nested Query)) :
  (Query.select c nested).written
    = c.leaves.flatMap (writtenLeaf nested)
      ++ (nested.filter fun s => s.kind ≠ .table).flatMap fun s => s.query.written
  := by
  conv_lhs => rw [written, fold_select, List.filter_map, List.flatMap_map]
  congr 1
  apply List.flatMap_congr
  intro leaf _
  rw [derivedFor?_mapQuery, writtenLeaf]
  cases derivedFor? nested leaf <;> rfl

theorem written_union (l r : Query) (distinct : Bool) :
  (Query.union l r distinct).written = l.written ++ r.written
  := rfl

/-- Nested queries over other queries are written alike when these are. -/
theorem written_congr {c c' : Clauses} {nested : List (Nested Query)}
    {f k : Nested Query → Nested Query} (hleaves : c'.leaves = c.leaves)
    (hf : ∀ s, (f s).node = s.node ∧ (f s).kind = s.kind)
    (hk : ∀ s, (k s).node = s.node ∧ (k s).kind = s.kind)
    (hshared : ∀ s ∈ nested, s.kind = .table → (k s).shared = (f s).shared)
    (h : ∀ s ∈ nested, (k s).query.written = (f s).query.written) :
  (Query.select c' (nested.map k)).written = (Query.select c (nested.map f)).written
  := by
  rw [written_select, written_select, hleaves]
  congr 1
  · apply List.flatMap_congr
    intro leaf _
    rw [writtenLeaf, writtenLeaf, derivedFor?_map hf, derivedFor?_map hk]
    cases hderived : derivedFor? nested leaf with
    | none => rfl
    | some s =>
        obtain ⟨hs, _, hkind⟩ := mem_of_derivedFor? hderived
        simp only [Option.map_some, hshared s hs hkind, h s hs]
  · rw [List.filter_map, List.filter_map, List.flatMap_map, List.flatMap_map]
    have hkinds : ∀ f : Nested Query → Nested Query, (∀ s, (f s).kind = s.kind) →
        (fun s : Nested Query => decide (s.kind ≠ .table)) ∘ f
          = fun s : Nested Query => decide (s.kind ≠ .table) := by
      intro f hf
      funext s
      rw [Function.comp_apply, hf s]
    rw [hkinds f fun s => (hf s).2, hkinds k fun s => (hk s).2]
    exact List.flatMap_congr fun s hs => h s (List.mem_of_mem_filter hs)

/-- Binding changes nothing in how tables are written. -/
theorem written_bindIn (q : Query) :
    ∀ s : AliasScope, (q.bindIn s).written = q.written := by
  induction q using Query.induction with
  | select c nested ih =>
      intro s
      rw [bindIn_select]
      conv_rhs => rw [← List.map_id nested]
      exact written_congr rfl (fun _ => ⟨rfl, rfl⟩) (fun _ => ⟨rfl, rfl⟩) (fun _ _ _ => rfl)
        fun n hn => ih n hn _
  | union l r distinct hl hr =>
      intro s
      rw [bindIn_union, written_union, written_union, hl, hr]

theorem written_bind (q : Query) (groups : List SharedGroup) :
  (q.bind groups).1.written = q.written
  := by
  cases q with
  | select c nested =>
      rw [bind]
      conv_rhs => rw [← List.map_id nested]
      exact written_congr rfl (fun _ => ⟨rfl, rfl⟩) (fun _ => ⟨rfl, rfl⟩) (fun _ _ _ => rfl)
        fun n _ => written_bindIn n.query _
  | union l r distinct =>
      rw [bind, written_union, written_union, written_bindIn, written_bindIn]

/-! ### Common table expressions that are met -/

mutual

/-- What is written for the common table expressions that are met in a query, after those that have
been met before it.  Each is met where its name is written first, and so is what is written with
it. -/
def firsts : Query → List Written → List Written
  | .select c nested, met =>
    firstsOfOthers nested (c.leaves.foldl (fun met leaf => firstsOfLeaf leaf nested met) met)
  | .union l r _, met => r.firsts (l.firsts met)

/-- What is met with a table of a FROM clause: a derived table is searched if it is written in
place, or if it stands for the next common table expression. -/
def firstsOfLeaf (leaf : NodeId) : List (Nested Query) → List Written → List Written
  | [], met => met
  | ⟨node, kind, shared, query⟩ :: rest, met =>
    if node = leaf ∧ kind = .table then
      if shared = none then query.firsts met
      else if shared = some met.length then query.firsts (met ++ [query.written])
      else met
    else firstsOfLeaf leaf rest met

/-- What is met with the nested queries that are no tables. -/
def firstsOfOthers : List (Nested Query) → List Written → List Written
  | [], met => met
  | ⟨_, kind, _, query⟩ :: rest, met =>
    firstsOfOthers rest (if kind ≠ .table then query.firsts met else met)

end

/-- What is met with a derived table. -/
def firstsOfTable (met : List Written) (d : Nested Query) : List Written :=
  if d.shared = none then d.query.firsts met
  else if d.shared = some met.length then d.query.firsts (met ++ [d.query.written])
  else met

theorem firstsOfLeaf_eq (leaf : NodeId) (nested : List (Nested Query)) (met : List Written) :
  firstsOfLeaf leaf nested met = (derivedFor? nested leaf).elim met (firstsOfTable met)
  := by
  induction nested with
  | nil => rfl
  | cons s rest ih =>
      obtain ⟨node, kind, shared, query⟩ := s
      rw [firstsOfLeaf, derivedFor?, List.find?_cons, ← derivedFor?]
      dsimp only
      by_cases h : node = leaf ∧ kind = .table
      · rw [if_pos h, decide_eq_true h]
        rfl
      · rw [if_neg h, ih, decide_eq_false h]

theorem firstsOfOthers_eq (nested : List (Nested Query)) :
    ∀ met, firstsOfOthers nested met
      = (nested.filter fun s => s.kind ≠ .table).foldl (fun met s => s.query.firsts met) met := by
  induction nested with
  | nil => exact fun _ => rfl
  | cons s rest ih =>
      intro met
      rw [firstsOfOthers, ih, List.foldl_filter, List.foldl_filter, List.foldl_cons]
      simp only [decide_eq_true_eq]

theorem firsts_select (c : Clauses) (nested : List (Nested Query)) (met : List Written) :
  (Query.select c nested).firsts met
    = (nested.filter fun s => s.kind ≠ .table).foldl (fun met s => s.query.firsts met)
      (c.leaves.foldl (fun met leaf => firstsOfLeaf leaf nested met) met)
  := by rw [firsts, firstsOfOthers_eq]

/-- Binding changes nothing in what is met. -/
theorem firsts_map {c c' : Clauses} {nested : List (Nested Query)} {f : Query → Query}
    (hleaves : c'.leaves = c.leaves) (hwritten : ∀ s ∈ nested, (f s.query).written = s.query.written)
    (h : ∀ s ∈ nested, ∀ met, (f s.query).firsts met = s.query.firsts met) (met : List Written) :
  (Query.select c' (nested.map (Nested.map f))).firsts met = (Query.select c nested).firsts met
  := by
  have htable : ∀ leaf met,
      firstsOfLeaf leaf (nested.map (Nested.map f)) met = firstsOfLeaf leaf nested met := by
    intro leaf met
    rw [firstsOfLeaf_eq, firstsOfLeaf_eq, derivedFor?_mapQuery]
    cases hderived : derivedFor? nested leaf with
    | none => rfl
    | some s =>
        have hs := (mem_of_derivedFor? hderived).1
        simp only [Option.map_some, Option.elim_some, firstsOfTable, Nested.map, h s hs,
          hwritten s hs]
  rw [firsts_select, firsts_select, hleaves]
  simp only [htable]
  rw [List.filter_map, List.foldl_map]
  exact List.foldl_ext _ _ _ fun met s hs => h s (List.mem_of_mem_filter hs) met

theorem firsts_bindIn (q : Query) :
    ∀ (s : AliasScope) (met : List Written), (q.bindIn s).firsts met = q.firsts met := by
  induction q using Query.induction with
  | select c nested ih =>
      intro s met
      rw [bindIn_select]
      exact firsts_map rfl (fun n _ => written_bindIn n.query _) (fun n hn => ih n hn _) met
  | union l r distinct hl hr =>
      intro s met
      rw [bindIn_union, firsts, firsts, hl, hr]

theorem firsts_bind (q : Query) (groups : List SharedGroup) (met : List Written) :
  (q.bind groups).1.firsts met = q.firsts met
  := by
  cases q with
  | select c nested =>
      rw [bind]
      exact firsts_map rfl (fun n _ => written_bindIn n.query _)
        (fun n _ => firsts_bindIn n.query _) met
  | union l r distinct =>
      rw [bind, firsts, firsts, firsts_bindIn, firsts_bindIn]

/-! ### Tables that are written alike -/

variable {g : Graph} {root : NodeId}

/-- Qualifying columns changes nothing in how tables are written. -/
theorem written_forceAliases (shared : List Occurrences) (q : Query) :
  ((Block.forceAliases q).refer shared).written = (q.refer shared).written
  := by
  cases q with
  | select c nested =>
      rw [Block.forceAliases, refer_select, refer_select, written_select, written_select]
      rfl
  | union l r distinct => rfl

/-- Nested queries that are written alike, one by one. -/
theorem written_nested {nested nested' : List (Nested Query)}
    (h : List.Forall₂ (fun s s' : Nested Query => s.kind = s'.kind
      ∧ (s.kind ≠ .table → s.query.written = s'.query.written)) nested nested') :
  (nested.filter fun s => s.kind ≠ .table).flatMap (fun s => s.query.written)
    = (nested'.filter fun s => s.kind ≠ .table).flatMap fun s => s.query.written
  := by
  induction h with
  | nil => rfl
  | @cons s s' _ _ hs _ ih =>
      obtain ⟨hkind, hwritten⟩ := hs
      rw [List.filter_cons, List.filter_cons, ← hkind]
      split
      case isTrue hother =>
          rw [List.flatMap_cons, List.flatMap_cons, ih, hwritten (of_decide_eq_true hother)]
      case isFalse => exact ih

/-- A derived table of a FROM clause is written alike when its query is. -/
theorem writtenLeaf_congr {nested nested' : List (Nested Query)} {leaf : NodeId}
    (h : Option.Rel (fun s s' : Nested Query => s.shared = s'.shared
      ∧ s.query.written = s'.query.written) (derivedFor? nested leaf) (derivedFor? nested' leaf)) :
  writtenLeaf nested leaf = writtenLeaf nested' leaf
  := by
  rw [writtenLeaf, writtenLeaf]
  generalize derivedFor? nested leaf = x at h
  generalize derivedFor? nested' leaf = y at h
  cases h with
  | none => rfl
  | some h => simp only [h.1, h.2]

/-- Similar queries over tables that a steady handle reaches are written alike, if each of these
tables is related to itself. -/
theorem written_similar (hg : g.WellFounded) (hs : g.Steady root) {S : Matching}
    (hS : Relator.BiUnique S) (hself : ∀ i, g.Reaches root i → S i i) (shared : List Occurrences)
    (q : Query) :
    ∀ {q' : Query} {id : NodeId}, q.Similar S q' → QuerySpec.compilation g id q →
      g.Rests root id → (q.refer shared).written = (q'.refer shared).written := by
  induction q using Query.induction with
  | select c nested ih =>
      intro q' id h hq hid
      obtain ⟨c', nested', rfl, hc, hnested⟩ := similar_select.mp h
      obtain ⟨hleaves, hcompiled⟩ := QuerySpec.reached_of_compilation hg hs hq hid
      have hsame : c.leaves = c'.leaves := by
        rw [← List.forall₂_eq_eq_eq]
        exact forall₂_mem hc.leaves fun i hi j _ hij => hS.2 (hself i (hleaves i hi)) hij
      rw [refer_select, refer_select, written_select, written_select, ← hsame]
      congr 1
      · apply List.flatMap_congr
        intro leaf hleaf
        apply writtenLeaf_congr
        rw [derivedFor?_map (f := referNested shared) fun _ => ⟨rfl, rfl⟩,
          derivedFor?_map (f := referNested shared) fun _ => ⟨rfl, rfl⟩]
        have hreached := hleaves leaf hleaf
        have hderived := derivedFor?_related hS hnested (hself leaf hreached)
        generalize hleft : derivedFor? nested leaf = x at hderived
        generalize hright : derivedFor? nested' leaf = y at hderived
        cases hderived with
        | none => exact .none
        | @some s s' hss =>
            obtain ⟨hmem, hnode, hkind⟩ := mem_of_derivedFor? hleft
            obtain ⟨_, hnode', hkind'⟩ := mem_of_derivedFor? hright
            obtain ⟨table, htable, hs'⟩ := hcompiled s hmem fun _ => hnode ▸ hreached
            refine .some ⟨?_, ih s hmem hss.query hs' htable⟩
            rw [referNested, referNested, reference, reference, if_pos hkind, if_pos hkind', hnode,
              hnode']
      · apply written_nested
        rw [List.forall₂_map_left_iff, List.forall₂_map_right_iff]
        apply forall₂_mem hnested
        intro s hmem s' _ hss
        refine ⟨hss.kind, fun hkind => ?_⟩
        obtain ⟨table, htable, hs'⟩ := hcompiled s hmem fun h => absurd h hkind
        exact ih s hmem hss.query hs' htable
  | union l r distinct hl hr =>
      intro q' id h hq hid
      obtain ⟨l', r', rfl, hl', hr'⟩ := similar_union.mp h
      obtain ⟨⟨left, hleft, hql⟩, ⟨right, hright, hqr⟩⟩ := QuerySpec.rests_of_union hg hq hid
      rw [refer_union, refer_union, written_union, written_union, hl hl' hql hleft,
        hr hr' hqr hright]

end Query

/-! ### Occurrences that are added -/

namespace Occurrences

variable {g : Graph} {found found' all : List Occurrences} {leaf : NodeId}

/-- Occurrences have been added: the tables found before keep their positions and their first
occurrences. -/
def Grows (found found' : List Occurrences) : Prop :=
  ∀ (i : Nat) (o : Occurrences), found[i]? = some o →
    ∃ o' : Occurrences, found'[i]? = some o' ∧ o.leaves <+: o'.leaves

theorem Grows.refl (found : List Occurrences) :
  Grows found found
  := fun _ o h => ⟨o, h, List.prefix_refl _⟩

theorem Grows.trans {found'' : List Occurrences} (h : Grows found found')
    (h' : Grows found' found'') :
  Grows found found''
  := by
  intro i o ho
  obtain ⟨o', ho', hprefix⟩ := h i o ho
  obtain ⟨o'', ho'', hprefix'⟩ := h' i o' ho'
  exact ⟨o'', ho'', hprefix.trans hprefix'⟩

/-- Another occurrence of a known table is added to the others. -/
theorem insert_of_known (h : knows g found leaf = true) :
  ∃ i o, found[i]? = some o
    ∧ insert g leaf found = found.set i { o with leaves := o.leaves ++ [leaf] }
  := by
  induction found with
  | nil => cases h
  | cons o rest ih =>
      rw [insert]
      cases heq : g.equals o.body (g.body leaf) with
      | true => exact ⟨0, o, rfl, rfl⟩
      | false =>
          rw [knows, List.any_cons, heq, Bool.false_or] at h
          obtain ⟨i, o', ho', hinsert⟩ := ih h
          exact ⟨i + 1, o', ho', congrArg (o :: ·) hinsert⟩

theorem grows_insert (leaf : NodeId) (found : List Occurrences) :
  Grows found (insert g leaf found)
  := by
  intro j o hj
  cases hknown : knows g found leaf with
  | false =>
      rw [insert_of_unknown hknown]
      have hlt := (List.getElem?_eq_some_iff.mp hj).1
      exact ⟨o, by rw [List.getElem?_append_left hlt, hj], List.prefix_refl _⟩
  | true =>
      obtain ⟨i, o', hi, hinsert⟩ := insert_of_known hknown
      rw [hinsert, List.getElem?_set]
      split
      case isTrue hsame =>
          subst hsame
          cases Option.some.inj (hj.symm.trans hi)
          have hlt := (List.getElem?_eq_some_iff.mp hj).1
          exact ⟨_, if_pos hlt, List.prefix_append _ _⟩
      case isFalse => exact ⟨o, hj, List.prefix_refl _⟩

theorem grows_insertAll (leaves : List NodeId) :
    ∀ found, Grows found (insertAll g leaves found) := by
  induction leaves with
  | nil => exact Grows.refl
  | cons leaf rest ih => exact fun found => (grows_insert leaf found).trans (ih _)

/-- Every table has occurred, and is that of its first occurrence. -/
def Occurred (g : Graph) (found : List Occurrences) : Prop :=
  ∀ o ∈ found, o.leaves.head?.map g.body = some o.body

theorem occurred_insert (leaf : NodeId) (h : Occurred g found) :
  Occurred g (insert g leaf found)
  := by
  induction found with
  | nil => exact List.forall_mem_singleton.mpr rfl
  | cons o rest ih =>
      obtain ⟨hhead, hrest⟩ := List.forall_mem_cons.mp h
      rw [insert]
      split
      · refine List.forall_mem_cons.mpr ⟨?_, hrest⟩
        obtain ⟨first, hfirst, hbody⟩ := Option.map_eq_some_iff.mp hhead
        rw [List.head?_append, hfirst]
        exact congrArg some hbody
      · exact List.forall_mem_cons.mpr ⟨hhead, ih hrest⟩

theorem occurred_insertAll (leaves : List NodeId) :
    ∀ {found : List Occurrences}, Occurred g found → Occurred g (insertAll g leaves found) := by
  induction leaves with
  | nil => exact fun h => h
  | cons leaf rest ih => exact fun h => ih (occurred_insert leaf h)

/-- The table of a leaf, among all that have been found. -/
def place (all : List Occurrences) (leaf : NodeId) : Option Nat :=
  all.findIdx? fun o => o.leaves.contains leaf

/-- The tables that occur more than once. -/
def shared (all : List Occurrences) : List Occurrences :=
  all.filter fun o => o.leaves.length > 1

/-- The number of tables that occur more than once, among the first `m`. -/
def rank (all : List Occurrences) (m : Nat) : Nat :=
  (shared (all.take m)).length

theorem rank_mono (all : List Occurrences) {m m' : Nat} (h : m ≤ m') :
  rank all m ≤ rank all m'
  := by
  apply List.Sublist.length_le
  exact (List.take_sublist_take_left h).filter _

theorem rank_length (all : List Occurrences) :
  rank all all.length = (shared all).length
  := by rw [rank, List.take_length]

theorem rank_succ {m : Nat} {o : Occurrences} (h : all[m]? = some o) :
  rank all (m + 1) = rank all m + if o.leaves.length > 1 then 1 else 0
  := by
  rw [rank, List.take_add_one, h, shared, List.filter_append, List.length_append]
  congr 1
  rw [Option.toList_some, List.filter_singleton]
  by_cases hlength : o.leaves.length > 1
  · rw [decide_eq_true hlength, if_pos hlength]
    rfl
  · rw [decide_eq_false hlength, if_neg hlength]
    rfl

/-- A table that occurs more than once has the position of its rank among those that do. -/
theorem getElem?_shared {m : Nat} {o : Occurrences} (h : all[m]? = some o)
    (hlength : o.leaves.length > 1) :
  (shared all)[rank all m]? = some o
  := by
  obtain ⟨hlt, rfl⟩ := List.getElem?_eq_some_iff.mp h
  have hsplit : shared all = shared (all.take m) ++ all[m] :: shared (all.drop (m + 1)) := by
    conv_lhs => rw [← List.take_append_drop m all, List.drop_eq_getElem_cons hlt]
    rw [shared, List.filter_append]
    congr 1
    exact List.filter_cons_of_pos (decide_eq_true hlength)
  rw [hsplit, rank, List.getElem?_append_right (Nat.le_refl _), Nat.sub_self]
  rfl

/-- A leaf is found with its table. -/
theorem Grouped.place_eq (hall : Grouped g all) {m : Nat} {o : Occurrences}
    (h : all[m]? = some o) (hleaf : leaf ∈ o.leaves) :
  place all leaf = some m
  := by
  obtain ⟨hlt, rfl⟩ := List.getElem?_eq_some_iff.mp h
  exact hall.findIdx?_eq hlt hleaf

/-- A leaf refers to its table, if it occurs more than once. -/
theorem Grouped.place_shared (hall : Grouped g all) {m : Nat} {o : Occurrences}
    (h : all[m]? = some o) (hleaf : leaf ∈ o.leaves) :
  place (shared all) leaf = if o.leaves.length > 1 then some (rank all m) else none
  := by
  split
  case isTrue hlength =>
      exact (hall.filter _).place_eq (getElem?_shared h hlength) hleaf
  case isFalse hlength =>
      apply List.findIdx?_eq_none_iff.mpr
      intro o' ho'
      apply Bool.eq_false_iff.mpr
      intro hcontains
      -- the leaf has one table, which occurs once
      obtain ⟨hmem, hlength'⟩ := List.mem_filter.mp ho'
      obtain ⟨m', hm'⟩ := List.getElem?_of_mem hmem
      have hsame := (hall.place_eq hm' (List.contains_iff_mem.mp hcontains)).symm.trans
        (hall.place_eq h hleaf)
      rw [Option.some.inj hsame, h] at hm'
      rw [← Option.some.inj hm'] at hlength'
      exact hlength (of_decide_eq_true hlength')

/-- A table that is found again is shared, with one of those found before. -/
theorem Grouped.place_of_known (hall : Grouped g all) (hfound : Occurred g found)
    (hknown : knows g found leaf = true) (hgrows : Grows (insert g leaf found) all) :
  ∃ i < rank all found.length, place (shared all) leaf = some i
  := by
  obtain ⟨i, o, hi, hinsert⟩ := insert_of_known hknown
  have hlt := (List.getElem?_eq_some_iff.mp hi).1
  obtain ⟨o', ho', hprefix⟩ := hgrows i { o with leaves := o.leaves ++ [leaf] }
    (by rw [hinsert, List.getElem?_set_self hlt])
  have hmem : leaf ∈ o'.leaves := by
    apply hprefix.subset
    exact List.mem_append_right _ List.mem_cons_self
  have hlength : o'.leaves.length > 1 := by
    obtain ⟨first, hfirst, _⟩ := Option.map_eq_some_iff.mp (hfound o (List.mem_of_getElem? hi))
    have hpos := List.length_pos_of_mem (List.mem_of_head? hfirst)
    have hle := hprefix.length_le
    rw [List.length_append, List.length_singleton] at hle
    omega
  refine ⟨rank all i, ?_, (hall.place_shared ho' hmem).trans (if_pos hlength)⟩
  have hsucc := rank_succ ho'
  rw [if_pos hlength] at hsucc
  have hmono : rank all (i + 1) ≤ rank all found.length := rank_mono all hlt
  omega

/-- A table that is found for the first time comes next, and this is its first occurrence. -/
theorem exists_of_unknown (hknown : knows g found leaf = false)
    (hgrows : Grows (insert g leaf found) all) :
  ∃ o : Occurrences, all[found.length]? = some o ∧ o.leaves.head? = some leaf
  := by
  obtain ⟨o, ho, others, hleaves⟩ := hgrows found.length ⟨g.body leaf, [leaf]⟩ (by
    rw [insert_of_unknown hknown, List.getElem?_append_right (Nat.le_refl _), Nat.sub_self]
    rfl)
  exact ⟨o, ho, by rw [← hleaves]; rfl⟩

/-- Occurrences of some leaves have been added. -/
def Adds (g : Graph) (found found' : List Occurrences) : Prop :=
  ∃ leaves, found' = insertAll g leaves found

theorem Adds.grows (h : Adds g found found') :
  Grows found found'
  := by
  obtain ⟨leaves, rfl⟩ := h
  exact grows_insertAll leaves found

theorem Adds.occurred (h : Adds g found found') (hfound : Occurred g found) :
  Occurred g found'
  := by
  obtain ⟨leaves, rfl⟩ := h
  exact occurred_insertAll leaves hfound

end Occurrences

namespace Query

/-- The search meets written tables one after the other.  `defs` lists the tables that are
written in each common table expression, and `place` the positions of all tables that occur.
Before the search, `n` common table expressions and `m` tables have been met, and `n'` and `m'`
after it: a name stands for a common table expression met before, or for the next one, which is
searched at once. -/
inductive Visits (defs : Nat → Written) (place : NodeId → Option Nat) :
    Nat → Nat → Written → Nat → Nat → Prop where
  | nil {n m : Nat} : Visits defs place n m [] n m
  | inline {n m n' m' : Nat} {leaf : NodeId} {w : Written}
    (hplace : place leaf = some m) (h : Visits defs place n (m + 1) w n' m') :
    Visits defs place n m ((leaf, none) :: w) n' m'
  | known {n m i n' m' : Nat} {leaf : NodeId} {w : Written} (hi : i < n)
    (h : Visits defs place n m w n' m') : Visits defs place n m ((leaf, some i) :: w) n' m'
  | first {n m n₁ m₁ n' m' : Nat} {leaf : NodeId} {w : Written}
    (hbody : Visits defs place (n + 1) (m + 1) (defs n) n₁ m₁)
    (h : Visits defs place n₁ m₁ w n' m') : Visits defs place n m ((leaf, some n) :: w) n' m'

section Visits

variable {defs : Nat → Written} {place : NodeId → Option Nat}
  {n m n₁ m₁ n' m' : Nat} {w w' : Written}

theorem Visits.append (h : Visits defs place n m w n₁ m₁)
    (h' : Visits defs place n₁ m₁ w' n' m') :
  Visits defs place n m (w ++ w') n' m'
  := by
  induction h with
  | nil => exact h'
  | inline hplace _ ih => exact .inline hplace (ih h')
  | known hi _ ih => exact .known hi (ih h')
  | first hbody _ _ ih => exact .first hbody (ih h')

end Visits

section Search

open Occurrences

variable {g : Graph} {all found found' found'' : List Occurrences} {whole : List (Nested Query)}
  {met met' met'' : List Written} {w w' : Written}

/-- What is written in each of the common table expressions that are met. -/
def definitions (met : List Written) (i : Nat) : Written :=
  met.getD i []

theorem definitions_eq {i : Nat} (h : met[i]? = some w) :
  definitions met i = w
  := by rw [definitions, List.getD_eq_getElem?_getD, h]; rfl

/-- The common table expressions that have been met are written as nested queries among `whole`,
each of which is the first occurrence of its table. -/
def Met (all : List Occurrences) (whole : List (Nested Query)) (met : List Written) : Prop :=
  ∀ (i : Nat) (w : Written), met[i]? = some w → ∃ s ∈ whole, s.kind = .table
    ∧ w = (s.query.refer (shared all)).written
    ∧ ∃ o : Occurrences, (shared all)[i]? = some o ∧ o.leaves.head? = some s.node

/-- The next common table expression is met. -/
theorem Met.next (h : Met all whole met) {s : Nested Query} (hs : s ∈ whole)
    (hkind : s.kind = .table) {o : Occurrences} (ho : (shared all)[met.length]? = some o)
    (hhead : o.leaves.head? = some s.node) :
  Met all whole (met ++ [(s.query.refer (shared all)).written])
  := by
  intro i w hi
  have hlt := (List.getElem?_eq_some_iff.mp hi).1
  rw [List.length_append, List.length_singleton] at hlt
  rcases Nat.lt_succ_iff_lt_or_eq.mp hlt with hlt | rfl
  · rw [List.getElem?_append_left hlt] at hi
    exact h i w hi
  · rw [List.getElem?_concat_length] at hi
    exact ⟨s, hs, hkind, (Option.some.inj hi).symm, o, ho, hhead⟩

/-- The search from some tables that have been found to others, and from the common table
expressions that have been met to those that are met with what is written. -/
structure Searches (all : List Occurrences) (whole : List (Nested Query))
    (found found' : List Occurrences) (met met' : List Written) (w : Written) : Prop where
  length : met'.length = rank all found'.length
  grows : met <+: met'
  meets : Met all whole met → Met all whole met'
  visits : ∀ last, met' <+: last → Visits (definitions last) (place all) met.length found.length w
    met'.length found'.length

/-- Nothing is searched. -/
theorem Searches.refl (h : met.length = rank all found.length) :
  Searches all whole found found met met []
  := ⟨h, List.prefix_refl _, id, fun _ _ => .nil⟩

theorem Searches.append (h : Searches all whole found found' met met' w)
    (h' : Searches all whole found' found'' met' met'' w') :
  Searches all whole found found'' met met'' (w ++ w')
  where
    length := h'.length
    grows := h.grows.trans h'.grows
    meets := h'.meets ∘ h.meets
    visits last hlast := (h.visits last (h'.grows.trans hlast)).append (h'.visits last hlast)

/-- What is written for a query is searched with it, once all tables have been found. -/
def Searched (g : Graph) (all : List Occurrences) (whole : List (Nested Query)) (q : Query) :
    Prop :=
  (∀ s ∈ q.allNested, s ∈ whole) → ∀ found met, Occurred g found →
    met.length = rank all found.length → Grows (collect g q found) all →
    Searches all whole found (collect g q found) met ((q.refer (shared all)).firsts met)
      (q.refer (shared all)).written

theorem adds_collect (q : Query) (found : List Occurrences) :
  Adds g found (collect g q found)
  := by
  obtain ⟨visited, heq, _⟩ := collects (g := g) q found
  exact ⟨visited, heq⟩

theorem adds_leaves (nested : List (Nested Query)) (leaves : List NodeId)
    (found : List Occurrences) :
  Adds g found (leaves.foldl (collectLeaf g nested) found)
  := by
  obtain ⟨visited, heq, _⟩ := collects_leaves (fun s _ => collects (g := g) s.query) leaves found
  exact ⟨visited, heq⟩

theorem adds_nested (nested : List (Nested Query)) (found : List Occurrences) :
  Adds g found (nested.foldl (fun found s => collect g s.query found) found)
  := by
  obtain ⟨visited, heq, _⟩ :=
    collects_nested (fun s (_ : s ∈ nested) => collects (g := g) s.query) found
  exact ⟨visited, heq⟩

/-- A leaf of a FROM clause is searched. -/
theorem searches_collectLeaf (hall : Grouped g all) {nested : List (Nested Query)}
    (ih : ∀ s ∈ nested, Searched g all whole s.query)
    (hwhole : ∀ s ∈ allNestedOf nested, s ∈ whole) (hfound : Occurred g found)
    (hmet : met.length = rank all found.length) (leaf : NodeId)
    (hgrows : Grows (collectLeaf g nested found leaf) all) :
  Searches all whole found (collectLeaf g nested found leaf) met
    (firstsOfLeaf leaf (nested.map (referNested (shared all))) met)
    (writtenLeaf (nested.map (referNested (shared all))) leaf)
  := by
  rw [collectLeaf] at hgrows ⊢
  rw [firstsOfLeaf_eq, writtenLeaf, derivedFor?_map (f := referNested (shared all)) fun _ =>
    ⟨rfl, rfl⟩]
  cases hderived : derivedFor? nested leaf with
  | none => exact .refl hmet
  | some s =>
      obtain ⟨hs, hnode, hkind⟩ := mem_of_derivedFor? hderived
      have hshared : (referNested (shared all) s).shared = place (shared all) leaf := by
        rw [← hnode]
        exact if_pos hkind
      simp only [hderived, Option.map_some, Option.elim_some, firstsOfTable, hshared] at hgrows ⊢
      cases hknown : knows g found leaf with
      | true =>
          simp only [hknown, if_true] at hgrows ⊢
          obtain ⟨i, hi, hplace⟩ := hall.place_of_known hfound hknown hgrows
          obtain ⟨j, o, _, hinsert⟩ := insert_of_known hknown
          have hlength : (insert g leaf found).length = found.length := by
            rw [hinsert, List.length_set]
          have hold : i ≠ met.length := by omega
          rw [hplace, if_neg (Option.some_ne_none _), if_neg (Option.some_ne_none _),
            if_neg (hold ∘ Option.some.inj)]
          refine ⟨hmet.trans (by rw [hlength]), List.prefix_refl _, id, fun last _ => ?_⟩
          rw [hlength]
          exact .known (hmet ▸ hi) .nil
      | false =>
          simp only [hknown, Bool.false_eq_true, if_false] at hgrows ⊢
          obtain ⟨o, ho, hhead⟩ :=
            exists_of_unknown hknown ((adds_collect s.query _).grows.trans hgrows)
          have hmem := List.mem_of_head? hhead
          have hnested : ∀ s' ∈ s :: s.query.allNested, s' ∈ whole := by
            intro s' hs'
            apply hwhole
            rw [allNestedOf_eq]
            exact List.mem_flatMap.mpr ⟨s, hs, hs'⟩
          have hlength : (insert g leaf found).length = found.length + 1 := by
            rw [insert_of_unknown hknown, List.length_append, List.length_singleton]
          have hrank := rank_succ ho
          rw [← hlength] at hrank
          have hbody := fun met' hmet' => ih s hs
            (fun s' hs' => hnested s' (List.mem_cons_of_mem _ hs')) (insert g leaf found) met'
            (occurred_insert leaf hfound) hmet' hgrows
          rw [hall.place_shared ho hmem]
          by_cases hrepeated : o.leaves.length > 1
          · -- the first of several occurrences
            rw [if_pos hrepeated] at hrank ⊢
            have hsearches := hbody (met ++ [(s.query.refer (shared all)).written])
              (by rw [hrank, ← hmet, List.length_append, List.length_singleton])
            rw [if_neg (Option.some_ne_none _), if_neg (Option.some_ne_none _),
              if_pos (congrArg some hmet.symm), ← hmet]
            refine ⟨hsearches.length, (List.prefix_append _ _).trans hsearches.grows, ?_, ?_⟩
            · intro h
              apply hsearches.meets
              apply h.next (hnested s List.mem_cons_self) hkind (o := o)
              · rw [hmet]
                exact getElem?_shared ho hrepeated
              · rw [hnode]
                exact hhead
            · intro last hlast
              have hvisits := hsearches.visits last hlast
              have hdefinition : definitions last met.length
                  = (s.query.refer (shared all)).written := by
                obtain ⟨rest, rfl⟩ := hsearches.grows.trans hlast
                apply definitions_eq
                rw [List.append_assoc, List.getElem?_append_right (Nat.le_refl _), Nat.sub_self]
                rfl
              rw [List.length_append, List.length_singleton, hlength] at hvisits
              refine .first ?_ .nil
              rw [hdefinition]
              exact hvisits
          · rw [if_neg hrepeated, Nat.add_zero] at hrank
            rw [if_neg hrepeated, if_pos rfl, if_pos rfl]
            have hsearches := hbody met (hmet.trans hrank.symm)
            refine ⟨hsearches.length, hsearches.grows, hsearches.meets, fun last hlast => ?_⟩
            have hvisits := hsearches.visits last hlast
            rw [hlength] at hvisits
            exact .inline (hall.place_eq ho hmem) hvisits

/-- The leaves of a FROM clause are searched one after the other. -/
theorem searches_leaves (hall : Grouped g all) {nested : List (Nested Query)}
    (ih : ∀ s ∈ nested, Searched g all whole s.query)
    (hwhole : ∀ s ∈ allNestedOf nested, s ∈ whole) (leaves : List NodeId) :
    ∀ found met, Occurred g found → met.length = rank all found.length →
      Grows (leaves.foldl (collectLeaf g nested) found) all →
      Searches all whole found (leaves.foldl (collectLeaf g nested) found) met
        (leaves.foldl (fun met leaf =>
          firstsOfLeaf leaf (nested.map (referNested (shared all))) met) met)
        (leaves.flatMap (writtenLeaf (nested.map (referNested (shared all))))) := by
  induction leaves with
  | nil => exact fun found met _ hmet _ => .refl hmet
  | cons leaf rest hrest =>
      intro found met hfound hmet hgrows
      rw [List.foldl_cons] at hgrows ⊢
      have hstep := (adds_leaves nested rest (collectLeaf g nested found leaf)).grows.trans hgrows
      have hleaf := searches_collectLeaf hall ih hwhole hfound hmet leaf hstep
      apply hleaf.append
      exact hrest _ _ ((adds_leaves nested [leaf] found).occurred hfound) hleaf.length hgrows

/-- Nested queries are searched one after the other. -/
theorem searches_nested {nested : List (Nested Query)}
    (ih : ∀ s ∈ nested, Searched g all whole s.query)
    (hwhole : ∀ s ∈ allNestedOf nested, s ∈ whole) :
    ∀ found met, Occurred g found → met.length = rank all found.length →
      Grows (nested.foldl (fun found s => collect g s.query found) found) all →
      Searches all whole found (nested.foldl (fun found s => collect g s.query found) found) met
        (nested.foldl (fun met s => (s.query.refer (shared all)).firsts met) met)
        (nested.flatMap fun s => (s.query.refer (shared all)).written) := by
  induction nested with
  | nil => exact fun found met _ hmet _ => .refl hmet
  | cons s rest hrest =>
      intro found met hfound hmet hgrows
      rw [allNestedOf_eq, List.flatMap_cons, ← allNestedOf_eq, List.forall_mem_append] at hwhole
      obtain ⟨hself, hothers⟩ := hwhole
      obtain ⟨ihself, ihothers⟩ := List.forall_mem_cons.mp ih
      rw [List.foldl_cons] at hgrows ⊢
      have hstep := (adds_nested rest (collect g s.query found)).grows.trans hgrows
      have hfirst := ihself (fun s' hs' => hself s' (List.mem_cons_of_mem _ hs')) found met hfound
        hmet hstep
      apply hfirst.append
      exact hrest ihothers hothers _ _ ((adds_collect s.query found).occurred hfound)
        hfirst.length hgrows

/-- The search meets the tables of a query in the order in which they are written. -/
theorem searched (hall : Grouped g all) (q : Query) :
  Searched g all whole q
  := by
  induction q using Query.induction with
  | select c nested ih =>
      intro hwhole found met hfound hmet hgrows
      rw [allNested] at hwhole
      rw [collect_select] at hgrows ⊢
      rw [refer_select, written_select, firsts_select, List.filter_map, List.flatMap_map,
        List.foldl_map]
      have hsub : ∀ s ∈ nested.filter (fun s => s.kind ≠ .table), s ∈ nested :=
        fun s hs => List.mem_of_mem_filter hs
      have hkinds : (fun s : Nested Query => decide (s.kind ≠ .table)) ∘ referNested (shared all)
          = fun s : Nested Query => decide (s.kind ≠ .table) := rfl
      rw [hkinds]
      have hstep := (adds_nested (nested.filter fun s => s.kind ≠ .table) _).grows.trans hgrows
      have hleaves := searches_leaves hall ih hwhole c.leaves found met hfound hmet hstep
      apply hleaves.append
      apply searches_nested (fun s hs => ih s (hsub s hs)) ?_ _ _
        ((adds_leaves nested c.leaves found).occurred hfound) hleaves.length hgrows
      intro s hs
      rw [allNestedOf_eq] at hs
      obtain ⟨t, ht, hs⟩ := List.mem_flatMap.mp hs
      apply hwhole s
      rw [allNestedOf_eq]
      exact List.mem_flatMap.mpr ⟨t, hsub t ht, hs⟩
  | union l r distinct hl hr =>
      intro hwhole found met hfound hmet hgrows
      obtain ⟨hleft, hright⟩ := List.forall_mem_append.mp hwhole
      have hstep := (adds_collect r (collect g l found)).grows.trans hgrows
      have hfirst := hl hleft found met hfound hmet hstep
      apply hfirst.append
      exact hr hright _ _ ((adds_collect l found).occurred hfound) hfirst.length hgrows

/-- Everything that is found has occurred. -/
theorem occurred_collect (g : Graph) (q : Query) :
  Occurred g (collect g q [])
  := (adds_collect q []).occurred fun _ ho => absurd ho List.not_mem_nil

/-- The search finds all tables of a query, and meets all of its common table expressions. -/
theorem searches_all (g : Graph) (q : Query) :
  Searches (collect g q []) q.allNested [] (collect g q []) [] ((q.refer (q.repeated g)).firsts [])
    (q.refer (q.repeated g)).written
  := searched (q.grouped_collect g) q (fun _ hs => hs) [] []
    (fun _ ho => absurd ho List.not_mem_nil) rfl (Grows.refl _)

end Search

/-- A steady table that is compiled at two places is written alike. -/
theorem written_steady {g : Graph} (hg : g.WellFounded) {root : NodeId} (hs : g.Steady root)
    (shared : List Occurrences) {q q' : Query} (h : QuerySpec.compilation g root q)
    (h' : QuerySpec.compilation g root q') :
  (q.refer shared).written = (q'.refer shared).written
  := by
  obtain ⟨S, p, p', hS, hself, hsimilar, hp, hq, hq'⟩ :=
    QuerySpec.similar_of_compilation hg hs h h'
  have hforced : ∀ {q p : Query}, q = p ∨ q = Block.forceAliases p →
      (q.refer shared).written = (p.refer shared).written := by
    rintro q p (rfl | rfl)
    · rfl
    · exact written_forceAliases shared p
  rw [hforced hq, hforced hq']
  exact written_similar hg hs hS hself shared p hsimilar hp (.reached .root)

/-- The query that is found for a steady table is written as the query of each derived table that
stands for it. -/
theorem written_derived {g : Graph} (hg : g.WellFounded) {q : Query}
    (hcompiled : ∀ s ∈ q.allNested, s.Compiled .compilation g) {shared : List Occurrences}
    {s : Nested Query} (hs : s ∈ q.allNested) (hkind : s.kind = .table) {found : Query}
    (hfound : (q.refer shared).derived? s.node = some found)
    (hsteady : g.Steady (g.body s.node)) :
  found.written = (s.query.refer shared).written
  := by
  have hbody : ∀ n ∈ q.allNested, n.kind = .table →
      QuerySpec.compilation g (g.body n.node) n.query := by
    intro n hn hkind
    obtain ⟨table, _, hsource, hq⟩ := (hcompiled n hn).source
    rw [hkind] at hsource
    cases hsource
    exact hq
  obtain ⟨r, hfirst, rfl⟩ := Option.map_eq_some_iff.mp hfound
  have hr := List.mem_of_find?_eq_some hfirst
  have hmatches := List.find?_some hfirst
  obtain ⟨hrkind, hrnode⟩ : r.kind = .table ∧ r.node = s.node := by simpa using hmatches
  rw [allNested_refer] at hr
  obtain ⟨n, hn, rfl⟩ := List.mem_map.mp hr
  have hquery := hbody n hn hrkind
  rw [show n.node = s.node from hrnode] at hquery
  exact written_steady hg hsteady shared hquery (hbody s hs hkind)

/-- Tables are written alike when the same names are written, and equal tables in place. -/
def WrittenAlike (g : Graph) (w w' : Written) : Prop :=
  List.Forall₂ (fun e e' => e.2 = e'.2
    ∧ (e.2 = none → g.equals (g.body e.1) (g.body e'.1) = true)) w w'

namespace WrittenAlike

variable {g : Graph} {w w' : Written}

theorem refl (g : Graph) (w : Written) :
  WrittenAlike g w w
  := List.forall₂_same.mpr fun _ _ => ⟨rfl, fun _ => g.equals_self _⟩

theorem names_eq (h : WrittenAlike g w w') :
  names w = names w'
  := by
  induction h with
  | nil => rfl
  | cons he _ ih => rw [names, names, List.filterMap_cons, List.filterMap_cons, he.1, ← names, ih]; rfl

/-- The tables that are written in place are equal. -/
theorem bodies (h : WrittenAlike g w w') :
  List.Forall₂ (fun a b => g.equals (g.body a) (g.body b) = true) (bodies w) (bodies w')
  := by
  induction h with
  | nil => exact .nil
  | @cons e e' _ _ he _ ih =>
      rw [Query.bodies, Query.bodies, List.filter_cons, List.filter_cons, ← he.1]
      split
      case isTrue hnone => exact .cons (he.2 (of_decide_eq_true hnone)) ih
      case isFalse => exact ih

end WrittenAlike

end Query

/-- The query of each common table expression is that of a steady table, or it is written as where
the common table expression is met first. -/
def Statement.Faithful (st : Statement) : Prop :=
  ∀ (i : Nat) (t : SharedTable) (w : Query.Written), st.shared[i]? = some t →
    (st.query.firsts [])[i]? = some w →
    st.graph.Steady t.node ∨ Query.WrittenAlike st.graph w t.query.written

/-- Whether no common table expression comes after a handle whose compilation makes tables. -/
def Statement.isSteady (st : Statement) : Bool :=
  st.shared.all fun t => (List.range (t.node.index + 1)).all fun i => !st.graph.renews ⟨i⟩

/-- Common table expressions that come after nothing whose compilation makes tables are steady. -/
theorem Statement.faithful_of_isSteady {st : Statement} (hg : st.graph.WellFounded)
    (h : st.isSteady = true) :
  st.Faithful
  := by
  intro i t w ht _
  refine .inl (Graph.steady_of_le hg ?_)
  simp only [isSteady, List.all_eq_true, List.mem_range, Bool.not_eq_true'] at h
  exact h t (List.mem_of_getElem? ht)

namespace Graph

variable {g : Graph} {root : NodeId} {st : Statement}

/-- The common table expressions of a statement that come after nothing whose compilation makes
tables are steady. -/
theorem analyze_faithful (hg : g.WellFounded) (hroot : g.Has root) (h : g.analyze root = .ok st)
    (hsteady : st.isSteady = true) :
  st.Faithful
  := by
  obtain ⟨_, hg', _⟩ := analyze_spec QuerySpec.hereditary_unshared hg hroot h
  exact Statement.faithful_of_isSteady hg' hsteady

/-- The search for the shared tables of a statement meets its tables in the order in which they are
written. -/
theorem analyze_visits (hg : g.WellFounded) (hroot : g.Has root) (h : g.analyze root = .ok st) :
  ∃ all, Occurrences.Grouped st.graph all
    ∧ Query.Visits (Query.definitions (st.query.firsts [])) (Occurrences.place all) 0 0
      st.query.written (st.query.firsts []).length all.length
  := by
  obtain ⟨_, _, q, _, hbind⟩ := analyze_rooted QuerySpec.compilation_meets_queryOf hg hroot h
  have hquery := congrArg Prod.fst hbind
  dsimp only at hquery
  refine ⟨_, q.grouped_collect st.graph, ?_⟩
  rw [hquery, Query.written_bind, Query.firsts_bind]
  exact (q.searches_all st.graph).visits _ (List.prefix_refl _)

/-- All common table expressions of a statement are met. -/
theorem length_firsts (hg : g.WellFounded) (hroot : g.Has root) (h : g.analyze root = .ok st) :
  (st.query.firsts []).length = st.shared.length
  := by
  obtain ⟨_, _, q, _, hbind⟩ := analyze_rooted QuerySpec.compilation_meets_queryOf hg hroot h
  obtain ⟨scope, hroots⟩ := (q.shareTables st.graph).1.exists_roots (q.shareTables st.graph).2
  have hquery := congrArg Prod.fst hbind
  have htables := congrArg Prod.snd hbind
  dsimp only at hquery htables
  rw [hquery, Query.firsts_bind, htables, ← hroots.tables.length_eq,
    ← (q.shareTables_groups st.graph).length_eq]
  exact (q.searches_all st.graph).length.trans (Occurrences.rank_length _)

/-- The common table expression of a steady table is written as where it is met first. -/
theorem first_eq_of_steady (hg : g.WellFounded) (hroot : g.Has root)
    (h : g.analyze root = .ok st) {i : Nat} {t : SharedTable} {w : Query.Written}
    (ht : st.shared[i]? = some t) (hw : (st.query.firsts [])[i]? = some w)
    (hsteady : st.graph.Steady t.node) :
  w = t.query.written
  := by
  obtain ⟨_, hg', q, hq, hbind⟩ := analyze_rooted QuerySpec.compilation_meets_queryOf hg hroot h
  obtain ⟨scope, hroots⟩ := (q.shareTables st.graph).1.exists_roots (q.shareTables st.graph).2
  have hquery := congrArg Prod.fst hbind
  have htables := congrArg Prod.snd hbind
  dsimp only at hquery htables
  rw [hquery, Query.firsts_bind] at hw
  rw [htables] at ht
  -- the derived table that is searched, and the group that the common table expression is made of
  obtain ⟨s, hs, hkind, rfl, o, ho, hhead⟩ := (q.searches_all st.graph).meets
    (fun _ _ hnone => absurd hnone (Option.some_ne_none _).symm) i w hw
  obtain ⟨group, hgroup, hbody, _, leaf, hleaf, hderived⟩ :=
    forall₂_getElem? (q.shareTables_groups st.graph) ho
  obtain ⟨t', ht', hnode, hbound⟩ := forall₂_getElem? hroots.tables hgroup
  obtain rfl := Option.some.inj (ht'.symm.trans ht)
  obtain rfl : leaf = s.node := Option.some.inj (hleaf.symm.trans hhead)
  have hfirst := q.occurred_collect st.graph o (List.mem_of_mem_filter (List.mem_of_getElem? ho))
  rw [hhead] at hfirst
  rw [hnode, hbody, ← Option.some.inj hfirst] at hsteady
  rw [hbound, Query.written_bindIn]
  exact (Query.written_derived hg' (QuerySpec.compiled_of_rooted hg' hq) hs hkind hderived
    hsteady).symm

/-- The common table expressions of a faithful statement are written as where they are met first. -/
theorem analyze_firsts (hg : g.WellFounded) (hroot : g.Has root) (h : g.analyze root = .ok st)
    (hfaithful : st.Faithful) :
  List.Forall₂ (fun w (t : SharedTable) => Query.WrittenAlike st.graph w t.query.written)
    (st.query.firsts []) st.shared
  := by
  rw [List.forall₂_iff_get]
  refine ⟨length_firsts hg hroot h, fun i hi hi' => ?_⟩
  have hw := List.getElem?_eq_getElem hi
  have ht := List.getElem?_eq_getElem hi'
  rcases hfaithful i _ _ ht hw with hsteady | halike
  · rw [List.get_eq_getElem, List.get_eq_getElem, first_eq_of_steady hg hroot h ht hw hsteady]
    exact .refl _ _
  · exact halike

end Graph

end RelSql
