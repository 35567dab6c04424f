import RelSql.Proofs.Statement.Selects

/-!
# Names of common table expressions

A common table expression is named after one of its occurrences, or with a label that no table
has.  The blocks inside the outermost one number their tables past all these names.
-/

namespace RelSql

namespace AliasScope

/-- The labels of the second scope are those of the first one, or numbered past its counter. -/
structure Above (r s : AliasScope) : Prop where
  counter : r.frame.counter ≤ s.frame.counter
  labels : ∀ e ∈ s.entries, e ∈ r.entries ∨ ∃ n, r.frame.counter ≤ n ∧ e.2 = aliasText n

theorem Above.refl (s : AliasScope) :
  s.Above s
  := ⟨Nat.le_refl _, fun _ he => .inl he⟩

/-- Giving a table an alias uses the label that it has around, or a fresh one. -/
theorem entries_assign (s : AliasScope) (table : NodeId) :
  (∀ e ∈ (s.assign table).2.entries, e ∈ s.entries ∨ e = (table, aliasText s.frame.counter))
    ∧ s.frame.counter ≤ (s.assign table).2.frame.counter
  := by
  have hadded : ∀ (label : String) (counter : Nat), ∀ e ∈ entries ⟨{ s.frame with
      aliases := s.frame.aliases ++ [(table, label)], counter }, s.outer⟩,
      e ∈ s.entries ∨ e = (table, label) := by
    intro label counter e he
    simp only [entries, List.flatMap_cons, List.mem_append, List.mem_singleton] at he ⊢
    rcases he with (he | he) | he
    · exact .inl (.inl he)
    · exact .inr he
    · exact .inl (.inr he)
  cases hlocal : s.localAlias? table with
  | some label =>
      simp only [assign, hlocal]
      exact ⟨fun e he => .inl he, Nat.le_refl _⟩
  | none =>
      simp only [assign, hlocal]
      cases houter : aliasIn? table s.outer with
      | some label =>
          refine ⟨?_, Nat.le_refl _⟩
          intro e he
          rcases hadded label s.frame.counter e he with hold | rfl
          · exact .inl hold
          · exact .inl (List.mem_append_right _ (mem_of_aliasIn? s.outer houter))
      | none => exact ⟨hadded _ (s.frame.counter + 1), Nat.le_succ _⟩

theorem Above.assign {r s : AliasScope} (h : r.Above s) (table : NodeId) :
  r.Above (s.assign table).2
  := by
  obtain ⟨hentries, hcounter⟩ := s.entries_assign table
  refine ⟨Nat.le_trans h.counter hcounter, ?_⟩
  intro e he
  rcases hentries e he with hold | rfl
  · exact h.labels e hold
  · exact .inr ⟨_, h.counter, rfl⟩

theorem Above.assignAll {r : AliasScope} (tables : List NodeId) :
    ∀ {s : AliasScope}, r.Above s → r.Above (s.assignAll tables) := by
  induction tables with
  | nil => exact fun h => h
  | cons t rest ih => exact fun h => ih (h.assign t)

/-- A block inside a scope numbers its tables past those of the scope. -/
theorem Above.bindBlock {r s : AliasScope} (h : r.Above s) (c : Clauses) :
  r.Above (s.child.bindBlock c)
  := by
  have hchild : r.Above s.child := ⟨h.counter, h.labels⟩
  have hassigned := hchild.assignAll c.leaves
  rw [AliasScope.bindBlock]
  split
  · exact ⟨hassigned.counter, hassigned.labels⟩
  · exact hassigned

/-- The labels of a scope are numbered below its counter. -/
theorem Proper.ne_aliasText {s : AliasScope} (hs : s.Proper) {e : NodeId × String}
    (he : e ∈ s.entries) {n : Nat} (hn : s.frame.counter ≤ n) :
  e.2 ≠ aliasText n
  := by
  intro htext
  obtain ⟨k, hk, htext'⟩ := hs.numbered e he
  have hsame := aliasText_injective (htext'.symm.trans htext)
  omega

/-- A name of a common table expression: the label that one of its occurrences has in a scope, or
a label numbered past those of the scope. -/
inductive Names (s : AliasScope) (bound : Nat) (group : SharedGroup) (name : String) : Prop where
  | occurrence {leaf : NodeId} (hleaf : leaf ∈ group.leaves) (hlabel : (leaf, name) ∈ s.entries)
  | fresh {n : Nat} (hlo : s.frame.counter ≤ n) (hhi : n < bound) (hname : name = aliasText n)

/-- A table whose label is the name of a common table expression is one of its occurrences: the
labels inside the scope `r`, in which the names are given, are numbered past them. -/
theorem Names.mem_leaves {r₀ r s : AliasScope} {group : SharedGroup} {e : NodeId × String}
    (h : Names r₀ r.frame.counter group e.2) (hproper : r₀.Proper)
    (hentries : r.entries = r₀.entries) (hcounter : r₀.frame.counter ≤ r.frame.counter)
    (habove : r.Above s) (he : e ∈ s.entries) :
  e.1 ∈ group.leaves ∧ e ∈ r₀.entries
  := by
  rcases habove.labels e he with hold | ⟨n, hn, htext⟩
  · rw [hentries] at hold
    cases h with
    | occurrence hleaf hlabel =>
        obtain rfl := hproper.distinct _ hlabel _ hold rfl
        exact ⟨hleaf, hold⟩
    | fresh hlo _ htext => exact absurd htext (hproper.ne_aliasText hold hlo)
  · cases h with
    | occurrence _ hlabel =>
        exact absurd htext (hproper.ne_aliasText hlabel (Nat.le_trans hcounter hn))
    | fresh _ hhi htext' =>
        have hsame := aliasText_injective (htext'.symm.trans htext)
        omega

/-- A common table expression is given the label of an occurrence, or a fresh one. -/
theorem nameShared_cases (s : AliasScope) (occurrence : Option NodeId) :
  (s.nameShared occurrence).2.entries = s.entries
    ∧ ((∃ leaf ∈ occurrence, (leaf, (s.nameShared occurrence).1) ∈ s.entries
        ∧ (s.nameShared occurrence).2.frame.counter = s.frame.counter)
      ∨ ((s.nameShared occurrence).1 = aliasText s.frame.counter
        ∧ (s.nameShared occurrence).2.frame.counter = s.frame.counter + 1))
  := by
  rw [nameShared]
  cases hlabel : occurrence.bind s.localAlias? with
  | some label =>
      obtain ⟨leaf, hleaf, halias⟩ := Option.bind_eq_some_iff.mp hlabel
      exact ⟨rfl, .inl ⟨leaf, hleaf, List.mem_append_left _ (mem_of_lookup halias), rfl⟩⟩
  | none => exact ⟨rfl, .inr ⟨rfl, rfl⟩⟩

/-- The name of one common table expression is not given to the next ones. -/
theorem Proper.nameShared_ne {s : AliasScope} (hs : s.Proper) {occurrence : Option NodeId}
    {group : SharedGroup} (hother : ∀ leaf ∈ occurrence, leaf ∉ group.leaves) {bound : Nat}
    {name : String} (h : Names (s.nameShared occurrence).2 bound group name) :
  (s.nameShared occurrence).1 ≠ name
  := by
  rintro rfl
  obtain ⟨hentries, hname⟩ := s.nameShared_cases occurrence
  rcases hname with ⟨leaf, hleaf, hlabel, hsame⟩ | ⟨htext, hnext⟩
  · cases h with
    | occurrence hleaf' hlabel' =>
        rw [hentries] at hlabel'
        obtain rfl := hs.distinct _ hlabel _ hlabel' rfl
        exact hother _ hleaf hleaf'
    | fresh hlo _ htext => exact hs.ne_aliasText hlabel (hsame ▸ hlo) htext
  · cases h with
    | occurrence _ hlabel =>
        exact hs.ne_aliasText (hentries ▸ hlabel) (Nat.le_refl _) htext
    | fresh hlo _ htext' =>
        have hsame := aliasText_injective (htext.symm.trans htext')
        omega

end AliasScope

namespace Query

open AliasScope

/-- Common table expressions are named after occurrences or afresh, with different names. -/
structure Named (leaves : List NodeId) (groups : List SharedGroup) (s : AliasScope) : Prop where
  entries : (nameGroups leaves groups s).2.entries = s.entries
  counter : s.frame.counter ≤ (nameGroups leaves groups s).2.frame.counter
  names : List.Forall₂ (Names s (nameGroups leaves groups s).2.frame.counter) groups
    (nameGroups leaves groups s).1
  nodup : (nameGroups leaves groups s).1.Nodup

/-- Groups without a common leaf are given different names. -/
theorem named (leaves : List NodeId) {groups : List SharedGroup}
    (hgroups : groups.Pairwise fun group group' => ∀ leaf ∈ group.leaves, leaf ∉ group'.leaves) :
    ∀ {s : AliasScope}, s.Proper → Named leaves groups s := by
  induction groups with
  | nil => exact fun _ => ⟨rfl, Nat.le_refl _, .nil, .nil⟩
  | cons group rest ih =>
      intro s hs
      obtain ⟨hhead, hrest⟩ := List.pairwise_cons.mp hgroups
      have hother : ∀ group' ∈ rest, ∀ leaf ∈ group.leaves.find? leaves.contains,
          leaf ∉ group'.leaves :=
        fun group' hmem leaf hleaf => hhead group' hmem leaf (List.mem_of_find?_eq_some hleaf)
      have hne {group' name bound} (hmem : group' ∈ rest)
          (h : Names _ bound group' name) := hs.nameShared_ne (hother group' hmem) h
      obtain ⟨hentries, hname⟩ := s.nameShared_cases (group.leaves.find? leaves.contains)
      have hnamed := ih hrest (hs.nameShared (group.leaves.find? leaves.contains))
      generalize hshared : s.nameShared (group.leaves.find? leaves.contains) = r
        at hentries hname hnamed hne
      have hnames : nameGroups leaves (group :: rest) s
          = (r.1 :: (nameGroups leaves rest r.2).1, (nameGroups leaves rest r.2).2) := by
        rw [nameGroups, hshared]
      have hcounter : s.frame.counter ≤ r.2.frame.counter := by
        rcases hname with ⟨_, _, _, hsame⟩ | ⟨_, hnext⟩ <;> omega
      have hhi := hnamed.counter
      constructor
      · rw [hnames, hnamed.entries, hentries]
      · rw [hnames]
        exact Nat.le_trans hcounter hhi
      · rw [hnames]
        refine .cons ?_ (hnamed.names.imp ?_)
        · rcases hname with ⟨leaf, hleaf, hlabel, _⟩ | ⟨htext, hnext⟩
          · exact .occurrence (List.mem_of_find?_eq_some hleaf) hlabel
          · exact .fresh (Nat.le_refl _) (by dsimp only; omega) htext
        · intro group' name h
          cases h with
          | occurrence hleaf hlabel => exact .occurrence hleaf (hentries ▸ hlabel)
          | fresh hlo hhi hname => exact .fresh (Nat.le_trans hcounter hlo) hhi hname
      · rw [hnames, List.nodup_cons]
        refine ⟨?_, hnamed.nodup⟩
        intro hmem
        obtain ⟨group', hgroup', h⟩ := forall₂_exists hnamed.names.flip _ hmem
        exact hne hgroup' h rfl

/-- The blocks of a query that is bound inside a scope number their tables past it. -/
theorem Holds.above (q : Query) :
    ∀ {r s : AliasScope} {outer : List Select} {b : Select}, r.Above s →
      (q.bindIn s).Holds outer b → r.Above b.clauses.scope := by
  induction q using Query.induction with
  | select c nested ih =>
      intro r s outer b hs h
      rw [bindIn_select] at h
      cases h with
      | block => exact hs.bindBlock c
      | nested hmem h =>
          obtain ⟨n, hn, rfl⟩ := List.mem_map.mp hmem
          exact ih n hn (hs.bindBlock c) h
  | union l r distinct hl hr =>
      intro r s outer b hs h
      rw [bindIn_union] at h
      cases h with
      | left h => exact hl hs h
      | right h => exact hr hs h

variable {q : Query} {groups : List SharedGroup}

/-- The blocks of a query number their tables past the outermost scope, unless they are the
first block, to which this scope belongs. -/
theorem Holds.above_rootScope {outer : List Select} {b : Select}
    (h : (q.bind groups).1.Holds outer b) :
  (q.rootScope groups).Above b.clauses.scope
  := by
  cases q with
  | select c nested =>
      rw [bind] at h
      cases h with
      | block => exact .refl _
      | nested hmem h =>
          obtain ⟨n, hn, rfl⟩ := List.mem_map.mp hmem
          exact Holds.above n.query (.refl _) h
  | union l r distinct =>
      rw [bind] at h
      cases h with
      | left h => exact Holds.above l (.refl _) h
      | right h => exact Holds.above r (.refl _) h

theorem proper_frontScope (q : Query) :
  q.frontScope.Proper
  := by
  cases q with
  | select c nested => exact (binds_bindBlock proper_root rfl rfl c).proper
  | union l r distinct => exact proper_root

theorem frontLeaves_first {t : NodeId} (h : t ∈ q.frontLeaves) :
  t ∈ q.first.clauses.leaves
  := by
  cases q with
  | select c nested => exact h
  | union l r distinct => exact absurd h List.not_mem_nil

theorem rootScope_shared (q : Query) (groups : List SharedGroup) :
  (q.rootScope groups).frame.shared = (nameGroups q.frontLeaves groups q.frontScope).1
  := by
  have hnone : q.frontScope.frame.shared = [] := by
    cases q with
    | select c nested => exact (root.bindBlock_keeps c).2
    | union l r distinct => rfl
  rw [rootScope, (nameGroups_keeps q.frontLeaves groups q.frontScope).2.2, hnone, List.nil_append]

/-- No leaf is an occurrence of two common table expressions. -/
theorem shareTables_disjoint (g : Graph) (q : Query) :
  (q.shareTables g).2.Pairwise fun group group' => ∀ leaf ∈ group.leaves, leaf ∉ group'.leaves
  := by
  have hgrouped := q.grouped_repeated g
  have hpairs : (q.repeated g).Pairwise fun o o' => ∀ leaf ∈ o.leaves, leaf ∉ o'.leaves := by
    apply hgrouped.first.imp_of_mem
    intro o o' ho _ hdiffer leaf hleaf hleaf'
    have hequal := hgrouped.equal o ho leaf hleaf
    rw [hdiffer leaf hleaf'] at hequal
    cases hequal
  rw [← List.pairwise_map (f := Occurrences.leaves)
    (R := fun l l' : List NodeId => ∀ leaf ∈ l, leaf ∉ l')] at hpairs
  rw [← q.shareTables_leaves] at hpairs
  exact List.pairwise_map.mp hpairs

end Query

namespace Select

/-- The tables of a block are there, and each of them is either physical or a derived one. -/
structure Sourced (g : Graph) (b : Select) : Prop where
  leaves : ∀ leaf ∈ b.clauses.leaves, g.Has leaf ∧ g.Sourced b.nested leaf
  derived : ∀ s ∈ b.nested, s.kind = .table →
    g.Has s.node ∧ ∀ t, g.node (g.body s.node) ≠ .table t

theorem sourced_persistent :
  Graph.Persistent Sourced
  := by
  intro g g' b hg hg' e h
  constructor
  · intro leaf hleaf
    obtain ⟨hhas, hsourced⟩ := h.leaves leaf hleaf
    exact ⟨hhas.mono e, hsourced.mono e hg hhas (List.prefix_refl _)⟩
  · intro s hs hkind
    obtain ⟨hhas, htable⟩ := h.derived s hs hkind
    refine ⟨hhas.mono e, ?_⟩
    rw [e.body_eq hhas, e.node_eq (hg.has_body hhas)]
    exact htable

theorem sourced_unbound (g : Graph) (b : Select) :
  Sourced g b.unbound ↔ Sourced g b
  := by
  have hsourced : ∀ leaf, g.Has leaf ∧ g.Sourced (b.nested.map Nested.unbound) leaf
      ↔ g.Has leaf ∧ g.Sourced b.nested leaf := by
    intro leaf
    rw [Graph.Sourced, Graph.Sourced, derivedFor?_map (f := Nested.unbound) fun _ => ⟨rfl, rfl⟩,
      Option.isSome_map]
  constructor
  · intro h
    refine ⟨fun leaf hleaf => (hsourced leaf).mp (h.leaves leaf hleaf), ?_⟩
    exact fun s hs => h.derived s.unbound (List.mem_map_of_mem (f := Nested.unbound) hs)
  · intro h
    refine ⟨fun leaf hleaf => (hsourced leaf).mpr (h.leaves leaf hleaf), ?_⟩
    exact List.forall_mem_map.mpr h.derived

theorem hereditary_sourced :
  (QuerySpec.ofSelects Sourced).Hereditary
  := by
  refine QuerySpec.hereditary_ofSelects sourced_persistent ?_ ?_
  · exact fun _ _ h => ⟨h.leaves, h.derived⟩
  · intro g node b _ _ hb
    obtain ⟨_, _, _, _, hcompleted⟩ := hb
    constructor
    · intro leaf hleaf
      exact ⟨hcompleted.valid.has_leaves leaf hleaf, hcompleted.sourced leaf hleaf⟩
    · intro s hs hkind
      have hcompiled := hcompleted.nested s hs
      obtain ⟨table, _, hsource, _⟩ := hcompiled.source
      rw [hkind] at hsource
      cases hsource with
      | table _ htable => exact ⟨hcompiled.has, htable⟩

end Select

/-- A table of FROM clauses is an occurrence of the common table expression `i`: wherever it
stands, it refers to that. -/
def Statement.Occurs (st : Statement) (i : Nat) (leaf : NodeId) : Prop :=
  (∃ outer b, st.Holds outer b ∧ leaf ∈ b.clauses.leaves)
    ∧ ∀ outer b, st.Holds outer b → leaf ∈ b.clauses.leaves →
      ∃ s, derivedFor? b.nested leaf = some s ∧ s.shared = some i

/-- The blocks of a statement number their tables past its outermost scope. -/
theorem Statement.Holds.above {st : Statement} {outer : List Select} {b : Select}
    (hb : st.Holds outer b) {q : Query} {groups : List SharedGroup}
    (hroots : q.Roots groups (q.rootScope groups)) (hbind : (st.query, st.shared) = q.bind groups) :
  (q.rootScope groups).Above b.clauses.scope
  := by
  rcases hb with hb | ⟨t, ht, hb⟩
  · rw [show st.query = _ from congrArg Prod.fst hbind] at hb
    exact hb.above_rootScope
  · rw [show st.shared = _ from congrArg Prod.snd hbind] at ht
    obtain ⟨group, _, _, hbody⟩ := forall₂_exists hroots.tables.flip t ht
    rw [hbody] at hb
    exact Query.Holds.above group.query (.refl _) hb

namespace Graph

variable {g : Graph}

/-- The tables of every block are either physical or derived ones. -/
theorem analyze_sourced (hg : g.WellFounded) {root : NodeId} (hroot : g.Has root)
    {st : Statement} (h : g.analyze root = .ok st) :
  ∀ outer b, st.Holds outer b → b.Sourced st.graph
  := by
  apply Graph.analyze_selects Select.hereditary_sourced ?_ Select.sourced_unbound hg hroot h
  intro g node values _ _
  exact ⟨fun leaf hleaf => absurd hleaf List.not_mem_nil, fun s hs => absurd hs List.not_mem_nil⟩

/-- The occurrences of a table that is shared refer to its common table expression. -/
theorem occurs_of_mem (hg : g.WellFounded) {root : NodeId} (hroot : g.Has root) {st : Statement}
    (hst : g.analyze root = .ok st) {q : Query} {scope : AliasScope}
    (hroots : (q.shareTables st.graph).1.Roots (q.shareTables st.graph).2 scope)
    (hbind : (st.query, st.shared) = (q.shareTables st.graph).1.bind (q.shareTables st.graph).2)
    {i : Nat} {o : Occurrences} (ho : (q.repeated st.graph)[i]? = some o) {leaf : NodeId}
    (hleaf : leaf ∈ o.leaves) {outer : List Select} {b : Select} (hb : st.Holds outer b)
    (hmem : leaf ∈ b.clauses.leaves) :
  ∃ s, derivedFor? b.nested leaf = some s ∧ s.shared = some i
  := by
  obtain ⟨hi, rfl⟩ := List.getElem?_eq_some_iff.mp ho
  -- the leaf is a derived table somewhere, so it is not a physical one
  obtain ⟨m, hm, hkind, hnode⟩ := Query.exists_of_mem_derivedLeaves q
    ((q.repeated_subperm st.graph (List.getElem_mem hi)).subset hleaf)
  have hmark : { m with shared := Query.reference (q.repeated st.graph) m } ∈ st.query.marks := by
    rw [show st.query = _ from congrArg Prod.fst hbind, hroots.marks,
      show (q.shareTables st.graph).1 = q.refer (q.repeated st.graph) from rfl, Query.marks_refer]
    exact List.mem_map_of_mem hm
  obtain ⟨n, hn, hsame⟩ := List.mem_map.mp hmark
  obtain ⟨hnode', hkind', _⟩ := Nested.mk.inj hsame
  obtain ⟨outer', b', hb', hn⟩ := Query.exists_holds_of_mem_allNested hn
  have hderived := (analyze_sourced hg hroot hst outer' b' (.inl hb')).derived n hn
    (hkind'.trans hkind)
  rw [hnode', hnode] at hderived
  rcases ((analyze_sourced hg hroot hst outer b hb).leaves leaf hmem).2 with ⟨t, ht, _⟩ | hsome
  · exact absurd ht (hderived.2 t)
  · obtain ⟨s, hs⟩ := Option.isSome_iff_exists.mp hsome
    obtain ⟨hs', hsnode, hskind⟩ := mem_of_derivedFor? hs
    refine ⟨s, hs, ?_⟩
    have hreferred := (hroots.mem_marks hbind hb).2 s hs'
    rw [Query.marks_refer] at hreferred
    obtain ⟨m', _, hsame'⟩ := List.mem_map.mp hreferred
    obtain ⟨hmnode, hmkind, hreference, _⟩ := Nested.mk.inj hsame'
    rw [← hreference, Query.reference, if_pos (hmkind.trans hskind), hmnode, hsnode]
    exact (q.grouped_repeated st.graph).findIdx?_eq hi hleaf

/-- Two different tables never have one label in a block and around it, the names of common
table expressions are pairwise distinct, and a table whose label is such a name is an occurrence
of the common table expression. -/
theorem analyze_names (hg : g.WellFounded) {root : NodeId} (hroot : g.Has root) {st : Statement}
    (h : g.analyze root = .ok st) :
  (∀ outer b, st.Holds outer b →
      (∀ d ∈ b :: outer, ∀ leaf ∈ d.clauses.leaves,
        ∃ label, (leaf, label) ∈ b.clauses.scope.entries)
      ∧ (∀ e ∈ b.clauses.scope.entries, ∀ e' ∈ b.clauses.scope.entries, e.1 ≠ e'.1 → e.2 ≠ e'.2)
      ∧ ∀ e ∈ b.clauses.scope.entries, ∀ (i : Nat) (t : SharedTable), st.shared[i]? = some t →
        e.2 = t.name → st.Occurs i e.1)
    ∧ (st.shared.map SharedTable.name).Nodup
  := by
  obtain ⟨_, _, q, _, hbind⟩ := analyze_spec QuerySpec.hereditary_unshared hg hroot h
  have hroots := (q.shareTables st.graph).1.roots (q.shareTables st.graph).2
  have hquery := congrArg Prod.fst hbind
  have htables := congrArg Prod.snd hbind
  dsimp only at hquery htables
  have hnamed := Query.named (q.shareTables st.graph).1.frontLeaves
    (q.shareTables_disjoint st.graph) (q.shareTables st.graph).1.proper_frontScope
  have hnames : st.shared.map SharedTable.name
      = (Query.nameGroups (q.shareTables st.graph).1.frontLeaves (q.shareTables st.graph).2
        (q.shareTables st.graph).1.frontScope).1 := by
    rw [htables, hroots.names, Query.rootScope_shared]
  refine ⟨?_, hnames ▸ hnamed.nodup⟩
  intro outer b hb
  obtain ⟨hbinds, _, around, hframes, _⟩ := analyze_scopes hg hroot h hb
  refine ⟨?_, fun e he e' he' hne hsame => hne (hbinds.proper.distinct e he e' he' hsame), ?_⟩
  · intro d hd leaf hleaf
    obtain ⟨outer', hd'⟩ := hb.around d hd
    have hmem := ((analyze_scopes hg hroot h hd').1.tables leaf).mpr hleaf
    obtain ⟨e, he, rfl⟩ := List.mem_map.mp hmem
    refine ⟨e.2, List.mem_flatMap.mpr ⟨d.frame, ?_, he⟩⟩
    rw [hframes]
    rcases List.mem_cons.mp hd with rfl | hd
    · exact List.mem_cons_self
    · exact List.mem_cons_of_mem _ (List.mem_append_left _ (List.mem_map_of_mem hd))
  · intro e he i t ht hname
    have habove := hb.above hroots hbind
    have hposition : (Query.nameGroups (q.shareTables st.graph).1.frontLeaves
        (q.shareTables st.graph).2 (q.shareTables st.graph).1.frontScope).1[i]? = some e.2 := by
      rw [← hnames, List.getElem?_map, ht, hname]
      rfl
    obtain ⟨group, hgroup, hgiven⟩ := forall₂_getElem? hnamed.names.flip hposition
    obtain ⟨hleaf, hfront⟩ := AliasScope.Names.mem_leaves hgiven
      (q.shareTables st.graph).1.proper_frontScope hnamed.entries hnamed.counter habove he
    obtain ⟨o, ho, _, hleaves, _⟩ := forall₂_getElem? (q.shareTables_groups st.graph).flip hgroup
    rw [hleaves] at hleaf
    refine ⟨⟨[], st.query.first, .inl st.query.holds_first, ?_⟩, ?_⟩
    · apply Query.frontLeaves_first
      rw [hquery, Query.frontLeaves_bind, ← Query.mem_tables_rootScope _ (q.shareTables st.graph).2]
      rw [← hnamed.entries, ← Query.rootScope, AliasScope.entries, hroots.outermost,
        List.flatMap_singleton] at hfront
      exact List.mem_map_of_mem (f := Prod.fst) hfront
    · exact fun outer' b' hb' => occurs_of_mem hg hroot h hroots hbind ho hleaf hb'

/-- The join of the first rows of a filtered table, taken in two ways, one of them twice. -/
def filteredThrice : Graph := ⟨#[
  .table ⟨some "t", none, ⟨[⟨"x", .int32⟩]⟩⟩,
  .limit ⟨0⟩ 10 0,
  .column ⟨1⟩ "x",
  .literal (.integer 0),
  .binary .gt ⟨2⟩ ⟨3⟩,
  .selection ⟨1⟩ [⟨4⟩],
  .limit ⟨5⟩ 3 0,
  .view ⟨6⟩,
  .join .cross ⟨6⟩ ⟨7⟩ [],
  .limit ⟨5⟩ 4 0,
  .join .cross ⟨8⟩ ⟨9⟩ []]⟩

/-- The first common table expression has the label of its first occurrence, and the second one
has no table of the query among its occurrences. -/
theorem analyze_names_filteredThrice :
  ∃ st, filteredThrice.analyze ⟨10⟩ = .ok st ∧ st.shared.map SharedTable.name = ["t0", "t3"]
    ∧ (st.shared.map SharedTable.name).Nodup
    ∧ (⟨6⟩, "t0") ∈ st.query.first.clauses.scope.entries ∧ st.Occurs 0 ⟨6⟩
  := by
  have hrun : (filteredThrice.analyze ⟨10⟩).toOption.map (fun st =>
      (st.shared.map SharedTable.name, st.query.first.clauses.scope.entries))
      = some (["t0", "t3"], [(⟨6⟩, "t0"), (⟨7⟩, "t1"), (⟨9⟩, "t2")]) := by
    decide +kernel
  obtain ⟨st, hst, hparts⟩ := Option.map_eq_some_iff.mp hrun
  obtain ⟨hnames, hentries⟩ := Prod.mk.inj hparts
  have hok := eq_ok_of_toOption hst
  obtain ⟨hblocks, hnodup⟩ := analyze_names (g := filteredThrice) (by decide) (by decide) hok
  have he : (⟨6⟩, "t0") ∈ st.query.first.clauses.scope.entries := by
    rw [hentries]
    exact List.mem_cons_self
  have hfirst : st.shared[0]?.map SharedTable.name = some "t0" := by
    rw [← List.getElem?_map, hnames]
    rfl
  obtain ⟨t, ht, hname⟩ := Option.map_eq_some_iff.mp hfirst
  obtain ⟨_, _, hoccurs⟩ := hblocks [] _ (.inl st.query.holds_first)
  exact ⟨st, hok, hnames, hnodup, he, hoccurs _ he 0 t ht hname.symm⟩

end Graph

end RelSql
