import RelSql.Proofs.Statement.Sharing

/-!
# References to common table expressions

Sharing, naming and binding number the common table expressions alike: a reference is the
position of the table in the statement, and of its name in the outermost scope.
-/

namespace RelSql

namespace AliasScope

theorem rootFrame_of_outer {s : AliasScope} (h : s.outer = []) :
  s.rootFrame = s.frame
  := by
  rw [rootFrame, h]
  rfl

/-- Naming a common table expression adds its name, and changes nothing around. -/
theorem nameShared_keeps (s : AliasScope) (occurrence : Option NodeId) :
  (s.nameShared occurrence).2.outer = s.outer
    ∧ (s.nameShared occurrence).2.frame.shared
      = s.frame.shared ++ [(s.nameShared occurrence).1]
  := by
  rw [nameShared]
  cases occurrence.bind s.localAlias? <;> exact ⟨rfl, rfl⟩

end AliasScope

namespace Query

open AliasScope

/-- Each common table expression is given a name. -/
theorem nameGroups_keeps (leaves : List NodeId) (groups : List SharedGroup) :
    ∀ s : AliasScope, (nameGroups leaves groups s).1.length = groups.length
      ∧ (nameGroups leaves groups s).2.outer = s.outer
      ∧ (nameGroups leaves groups s).2.frame.shared
        = s.frame.shared ++ (nameGroups leaves groups s).1 := by
  induction groups with
  | nil => exact fun s => ⟨rfl, rfl, (List.append_nil _).symm⟩
  | cons group rest ih =>
      intro s
      obtain ⟨houter, hshared⟩ := s.nameShared_keeps (group.leaves.find? leaves.contains)
      obtain ⟨hlength, houter', hshared'⟩ :=
        ih (s.nameShared (group.leaves.find? leaves.contains)).2
      refine ⟨congrArg Nat.succ hlength, houter'.trans houter, ?_⟩
      rw [nameGroups]
      dsimp only
      rw [hshared', hshared, List.append_assoc, List.singleton_append]

/-- Naming common table expressions changes no alias. -/
theorem nameGroups_aliases (leaves : List NodeId) (groups : List SharedGroup) (s : AliasScope) :
  (nameGroups leaves groups s).2.frame.aliases = s.frame.aliases
  := by
  apply nameGroups_induction (P := fun s' => s'.frame.aliases = s.frame.aliases) ?_ _ _ rfl
  intro s' o hs
  rw [nameShared]
  cases o.bind s'.localAlias? <;> exact hs

/-- The tables that common table expressions can be named after. -/
def frontLeaves : Query → List NodeId
  | .select c _ => c.leaves
  | .union _ _ _ => []

/-- The scope of the first block, or one without aliases around the branches of a union. -/
def frontScope : Query → AliasScope
  | .select c _ => root.bindBlock c
  | .union _ _ _ => root

/-- The outermost scope of a query, in which its common table expressions are named. -/
def rootScope (q : Query) (groups : List SharedGroup) : AliasScope :=
  (nameGroups q.frontLeaves groups q.frontScope).2

/-- The outermost scope has labels for the tables of the first block. -/
theorem mem_tables_rootScope (q : Query) (groups : List SharedGroup) (t : NodeId) :
  t ∈ (q.rootScope groups).frame.tables ↔ t ∈ q.frontLeaves
  := by
  rw [rootScope, Frame.tables, nameGroups_aliases]
  cases q with
  | select c nested => exact (binds_bindBlock proper_root rfl rfl c).tables t
  | union l r distinct => exact Iff.rfl

theorem frontLeaves_bind (q : Query) (groups : List SharedGroup) :
  (q.bind groups).1.frontLeaves = q.frontLeaves
  := by
  cases q <;> rfl

/-- The outermost scope is that of the first block, unless the query is a union. -/
theorem scope_first {q : Query} {t : NodeId} (h : t ∈ q.frontLeaves)
    (groups : List SharedGroup) :
  (q.bind groups).1.first.clauses.scope = q.rootScope groups
  := by
  cases q with
  | select c nested => rfl
  | union l r distinct => exact absurd h List.not_mem_nil

/-- The scope that the blocks of a query and of its common table expressions are bound in: the
scope of the first block, or one without aliases around the branches of a union. -/
structure Roots (q : Query) (groups : List SharedGroup) (scope : AliasScope) : Prop where
  proper : scope.Proper
  functional : scope.Functional
  outermost : scope.outer = []
  named : scope.frame.shared.length = groups.length
  shared : (q.bind groups).2 = (groups.zip scope.frame.shared).map fun p =>
    ⟨p.2, p.1.body, p.1.query.bindIn scope⟩
  marks : (q.bind groups).1.marks = q.marks
  references : (q.bind groups).1.references = q.references
  blocks : ∀ {outer : List Select} {b : Select}, (q.bind groups).1.Holds outer b →
    b.clauses.scope.Binds b.clauses ∧ b.clauses.scope.Functional
      ∧ b.clauses.scope.rootFrame = scope.frame
      ∧ ∃ around : List Frame, b.clauses.scope.outer = outer.map Select.frame ++ around
        ∧ around.flatMap Frame.aliases = []

/-- Each common table expression has the table and the query of its group. -/
theorem Roots.tables {q : Query} {groups : List SharedGroup} {scope : AliasScope}
    (h : q.Roots groups scope) :
  List.Forall₂ (fun (group : SharedGroup) (t : SharedTable) => t.node = group.body
      ∧ t.query = group.query.bindIn scope) groups (q.bind groups).2
  := by
  rw [h.shared, List.forall₂_iff_get]
  constructor
  · rw [List.length_map, List.length_zip, h.named, Nat.min_self]
  · intro i _ _
    simp only [List.get_eq_getElem, List.getElem_map, List.getElem_zip, and_self]

/-- The names of the common table expressions are those in the outermost scope. -/
theorem Roots.names {q : Query} {groups : List SharedGroup} {scope : AliasScope}
    (h : q.Roots groups scope) :
  (q.bind groups).2.map SharedTable.name = scope.frame.shared
  := by
  rw [h.shared, List.map_map]
  exact List.map_snd_zip (Nat.le_of_eq h.named)

/-- A query is bound in a scope that names the common table expressions. -/
theorem roots (q : Query) (groups : List SharedGroup) :
  q.Roots groups (q.rootScope groups)
  := by
  cases q with
  | select c nested =>
      have hbinds : (nameGroups c.leaves groups (root.bindBlock c)).2.Binds c :=
        nameGroups_induction (P := fun s => s.Binds c) (fun _ o h => h.nameShared o) _ _
          (binds_bindBlock proper_root rfl rfl c)
      have hlabels : (nameGroups c.leaves groups (root.bindBlock c)).2.Functional :=
        nameGroups_induction (P := Functional) (fun _ o h => h.nameShared o) _ _
          (functional_root.bindBlock c)
      obtain ⟨hlength, houter, hshared⟩ := nameGroups_keeps c.leaves groups (root.bindBlock c)
      obtain ⟨hroot, hnone⟩ := root.bindBlock_keeps c
      rw [hnone, show root.frame.shared = [] from rfl, List.nil_append] at hshared
      have hframe := rootFrame_of_outer (houter.trans hroot)
      refine ⟨hbinds.proper, hlabels, houter.trans hroot, ?_, ?_, ?_, ?_, ?_⟩
      · rw [← hlength, ← hshared]
        rfl
      · rw [rootScope, frontLeaves, frontScope, hshared]
        rfl
      · exact marks_bind _ groups
      · rw [bind, references_select, references_select, List.flatMap_map]
        congr 1
        · simp only [derivedFor?_mapQuery, Option.bind_map]
          rfl
        · exact List.flatMap_congr fun n _ => references_bindIn n.query _
      · intro outer b h
        rw [bind] at h
        cases h with
        | block =>
            refine ⟨⟨hbinds.proper, hbinds.nodup, hbinds.tables, hbinds.forced⟩, hlabels, ?_, [],
              ?_, rfl⟩
            · exact hframe
            · exact houter.trans hroot
        | nested hmem h =>
            obtain ⟨n, hn, rfl⟩ := List.mem_map.mp hmem
            obtain ⟨hscope, hfunctional, hframes⟩ :=
              Query.Holds.scope n.query hbinds.proper hlabels h
            refine ⟨hscope, hfunctional, (rootFrame_eq _ hframes).trans hframe, [], ?_, rfl⟩
            rw [hframes, houter, hroot, List.map_append, List.append_nil]
            rfl
  | union l r distinct =>
      have hproper : (nameGroups [] groups root).2.Proper :=
        nameGroups_induction (P := Proper) (fun _ o h => h.nameShared o) _ _ proper_root
      have hlabels : (nameGroups [] groups root).2.Functional :=
        nameGroups_induction (P := Functional) (fun _ o h => h.nameShared o) _ _ functional_root
      have haliases := nameGroups_aliases [] groups root
      obtain ⟨hlength, houter, hshared⟩ := nameGroups_keeps [] groups root
      rw [show root.frame.shared = [] from rfl, List.nil_append] at hshared
      refine ⟨hproper, hlabels, houter, ?_, ?_, ?_, ?_, ?_⟩
      · rw [← hlength, ← hshared]
        rfl
      · rw [rootScope, frontLeaves, frontScope, hshared]
        rfl
      · exact marks_bind _ groups
      · have hunion : ∀ l r : Query, (Query.union l r distinct).references
            = l.references ++ r.references := fun _ _ => rfl
        rw [bind, hunion, hunion, references_bindIn, references_bindIn]
      · intro outer b h
        have hbranch : ∀ q : Query, (q.bindIn (nameGroups [] groups root).2).Holds outer b →
            b.clauses.scope.Binds b.clauses ∧ b.clauses.scope.Functional
              ∧ b.clauses.scope.rootFrame = (nameGroups [] groups root).2.frame
              ∧ ∃ around : List Frame, b.clauses.scope.outer = outer.map Select.frame ++ around
                ∧ around.flatMap Frame.aliases = [] := by
          intro q h
          obtain ⟨hscope, hfunctional, hframes⟩ := Query.Holds.scope q hproper hlabels h
          refine ⟨hscope, hfunctional, (rootFrame_eq _ hframes).trans (rootFrame_of_outer houter),
            _, hframes, ?_⟩
          rw [houter, List.flatMap_cons, haliases]
          rfl
        rw [bind] at h
        cases h with
        | left h => exact hbranch l h
        | right h => exact hbranch r h

theorem exists_roots (q : Query) (groups : List SharedGroup) :
  ∃ scope, q.Roots groups scope
  := ⟨_, q.roots groups⟩

/-- The nested queries of a nested query are among those of the query. -/
theorem marks_subset {q : Query} {s : Nested Query} (h : s ∈ q.allNested) :
  ∀ m ∈ s.query.marks, m ∈ q.marks
  := by
  induction q using Query.induction with
  | select c nested ih =>
      intro m hm
      rw [allNested, allNestedOf_eq] at h
      obtain ⟨t, ht, hs⟩ := List.mem_flatMap.mp h
      rw [marks_select]
      refine List.mem_flatMap.mpr ⟨t, ht, List.mem_cons_of_mem _ ?_⟩
      rcases List.mem_cons.mp hs with rfl | hs
      · exact hm
      · exact ih t ht hs m hm
  | union l r distinct hl hr =>
      intro m hm
      rw [marks_union]
      rcases List.mem_append.mp h with h | h
      · exact List.mem_append_left _ (hl h m hm)
      · exact List.mem_append_right _ (hr h m hm)

/-- A common table expression is a nested query of the query that refers to it. -/
theorem exists_nested_of_group (g : Graph) (q : Query) {group : SharedGroup}
    (h : group ∈ (q.shareTables g).2) :
  ∃ s ∈ (q.refer (q.repeated g)).allNested, s.query = group.query
  := by
  rw [shareTables, List.mem_filterMap] at h
  obtain ⟨o, _, ho⟩ := h
  simp only [Option.bind_eq_bind, Option.bind_eq_some_iff] at ho
  obtain ⟨first, _, derived, hderived, hret⟩ := ho
  cases hret
  obtain ⟨s, hs, rfl⟩ := Option.map_eq_some_iff.mp hderived
  exact ⟨s, List.mem_of_find?_eq_some hs, rfl⟩

end Query

/-- Every nested query of a statement, also of a common table expression, has a mark in the
query. -/
theorem Query.Roots.mem_marks {g : Graph} {q : Query} {scope : AliasScope}
    (h : (q.shareTables g).1.Roots (q.shareTables g).2 scope) {st : Statement}
    (hbind : (st.query, st.shared) = (q.shareTables g).1.bind (q.shareTables g).2)
    {outer : List Select} {b : Select} (hb : st.Holds outer b) :
  b.clauses.scope.rootFrame = scope.frame
    ∧ ∀ s ∈ b.nested, s.map (fun _ => ()) ∈ (q.refer (q.repeated g)).marks
  := by
  have hst := congrArg Prod.fst hbind
  have hlist := (congrArg Prod.snd hbind).trans h.shared
  dsimp only at hst hlist
  rcases hb with hb | ⟨t, ht, hb⟩
  · rw [hst] at hb
    refine ⟨(h.blocks hb).2.2.1, ?_⟩
    intro s hs
    rw [show q.refer (q.repeated g) = (q.shareTables g).1 from rfl, ← h.marks]
    exact List.mem_map_of_mem (hb.mem_allNested s hs)
  · rw [hlist] at ht
    obtain ⟨⟨group, name⟩, hmem, rfl⟩ := List.mem_map.mp ht
    obtain ⟨_, _, hframes⟩ := Query.Holds.scope group.query h.proper h.functional hb
    refine ⟨(AliasScope.rootFrame_eq _ hframes).trans
      (AliasScope.rootFrame_of_outer h.outermost), ?_⟩
    intro s hs
    have hmark := List.mem_map_of_mem (f := Nested.map fun _ => ()) (hb.mem_allNested s hs)
    rw [← Query.marks, Query.marks_bindIn] at hmark
    obtain ⟨n, hn, hquery⟩ := Query.exists_nested_of_group g q (List.of_mem_zip hmem).1
    exact Query.marks_subset hn _ (hquery ▸ hmark)

/-- The query of a table, which refers to no common table expressions. -/
def QuerySpec.unshared : QuerySpec :=
  fun _ _ q => ∀ m ∈ q.marks, m.shared = none

theorem QuerySpec.hereditary_unshared :
  unshared.Hereditary
  := by
  refine ⟨fun _ _ _ _ _ _ _ h => h, ?_, ?_, ?_⟩
  · intro g node q h
    cases q with
    | select c nested =>
        rw [unshared, Query.marks_select] at h
        rw [unshared, Block.forceAliases, Query.marks_select]
        exact h
    | union l r distinct => exact h
  · intro g node l r distinct left right _ _ hleft hright m hm
    rw [Query.marks_union] at hm
    rcases List.mem_append.mp hm with hm | hm
    · exact hleft m hm
    · exact hright m hm
  · intro g node b _ _ _ hb m hm
    obtain ⟨_, _, _, _, hcompleted⟩ := hb
    rw [Block.query, Query.marks_select] at hm
    obtain ⟨s, hs, hm⟩ := List.mem_flatMap.mp hm
    have hcompiled := hcompleted.nested s hs
    rcases List.mem_cons.mp hm with rfl | hm
    · exact hcompiled.shared
    · obtain ⟨table, _, _, hq⟩ := hcompiled.source
      exact hq m hm

namespace Graph

variable {g : Graph}

/-- The reference of a nested query is the position of the table it refers to. -/
theorem reference_repeated (g : Graph) (q : Query) {m : Nested Unit} (hnone : m.shared = none)
    {i : Nat} (h : Query.reference (q.repeated g) m = some i) :
  m.kind = .table
    ∧ ∃ hi : i < (q.repeated g).length,
      g.equals ((q.repeated g)[i]).body (g.body m.node) = true
  := by
  rw [Query.reference] at h
  split at h
  case isTrue hkind =>
      obtain ⟨hi, hcontains, _⟩ := List.findIdx?_eq_some_iff_getElem.mp h
      refine ⟨hkind, hi, ?_⟩
      exact (q.grouped_repeated g).equal _ (List.getElem_mem hi) _
        (List.contains_iff_mem.mp hcontains)
  case isFalse =>
      rw [hnone] at h
      cases h

/-- A table that is shared is referred to more than once. -/
theorem le_count_references (g : Graph) (q : Query) {i : Nat} (hi : i < (q.repeated g).length) :
  2 ≤ ((q.refer (q.repeated g)).references).count i
  := by
  have hrepeated := List.of_mem_filter (p := fun o : Occurrences => o.leaves.length > 1)
    (List.getElem_mem hi)
  have hlength : 2 ≤ ((q.repeated g)[i]).leaves.length := of_decide_eq_true hrepeated
  rw [Query.references_refer, List.count_filterMap]
  refine Nat.le_trans hlength ?_
  refine Nat.le_trans (Nat.le_of_eq (List.countP_eq_length.mpr ?_).symm)
    ((q.repeated_subperm g (List.getElem_mem hi)).countP_le _)
  intro leaf hleaf
  rw [(q.grouped_repeated g).findIdx?_eq hi hleaf]
  exact beq_self_eq_true _

/-- The queries of tables refer to no common table expressions before they are shared. -/
theorem exists_unshared (hg : g.WellFounded) {root : NodeId} (hroot : g.Has root) {st : Statement}
    (h : g.analyze root = .ok st) :
  ∃ q : Query, (∀ m ∈ q.marks, m.shared = none)
    ∧ (st.query, st.shared) = (q.shareTables st.graph).1.bind (q.shareTables st.graph).2
  := by
  obtain ⟨_, _, q, hq, hbind⟩ := analyze_spec QuerySpec.hereditary_unshared hg hroot h
  refine ⟨q, ?_, hbind⟩
  cases hq with
  | table _ hq => exact hq
  | constant _ _ => exact fun m hm => absurd hm List.not_mem_nil

/-- There is a common table expression for every table that occurs more than once. -/
theorem length_shared {q : Query} {st : Statement}
    (hbind : (st.query, st.shared) = (q.shareTables st.graph).1.bind (q.shareTables st.graph).2) :
  st.shared.length = (q.repeated st.graph).length
  := by
  obtain ⟨scope, hroots⟩ := (q.shareTables st.graph).1.exists_roots (q.shareTables st.graph).2
  rw [show st.shared = _ from (congrArg Prod.snd hbind).trans hroots.shared, List.length_map,
    List.length_zip, hroots.named, Nat.min_self, (q.shareTables_groups st.graph).length_eq]

/-- A nested query that refers to a common table expression stands for a table of a FROM clause,
which is equal to that of the common table expression, and the scope of its block has the name
of the common table expression. -/
theorem exists_shared_of_reference (hg : g.WellFounded) {root : NodeId} (hroot : g.Has root)
    {st : Statement} (h : g.analyze root = .ok st) {outer : List Select} {b : Select}
    (hb : st.Holds outer b) {s : Nested Query} (hs : s ∈ b.nested) {i : Nat}
    (hi : s.shared = some i) :
  s.kind = .table
    ∧ ∃ t, st.shared[i]? = some t ∧ st.graph.equals t.node (st.graph.body s.node) = true
      ∧ b.clauses.scope.sharedName? i = some t.name
  := by
  obtain ⟨q, hunshared, hbind⟩ := exists_unshared hg hroot h
  have hbodies := q.shareTables_bodies st.graph
  obtain ⟨scope, hroots⟩ := (q.shareTables st.graph).1.exists_roots (q.shareTables st.graph).2
  have hlist := (congrArg Prod.snd hbind).trans hroots.shared
  dsimp only at hlist
  obtain ⟨hframe, hmark⟩ := hroots.mem_marks hbind hb
  have hmem := hmark s hs
  rw [Query.marks_refer] at hmem
  obtain ⟨m, hm, hsame⟩ := List.mem_map.mp hmem
  obtain ⟨hnode, hkind, hreference⟩ := Nested.mk.inj hsame
  rw [hi] at hreference
  obtain ⟨htable, hlt, hequal⟩ := reference_repeated st.graph q (hunshared m hm) hreference.1
  have hlt' : i < (q.shareTables st.graph).2.length := (q.shareTables_groups st.graph).length_eq ▸ hlt
  have hname : i < scope.frame.shared.length := hroots.named ▸ hlt'
  have hzip : ((q.shareTables st.graph).2.zip scope.frame.shared)[i]?
      = some ((q.shareTables st.graph).2[i], scope.frame.shared[i]) :=
    List.getElem?_zip_eq_some.mpr
      ⟨List.getElem?_eq_getElem hlt', List.getElem?_eq_getElem hname⟩
  have hbody : ((q.shareTables st.graph).2[i]).body = ((q.repeated st.graph)[i]).body := by
    have hsame := congrArg (fun bodies => bodies[i]?) hbodies
    simpa [List.getElem?_eq_getElem hlt', List.getElem?_eq_getElem hlt] using hsame
  refine ⟨hkind ▸ htable, _, by rw [hlist, List.getElem?_map, hzip]; rfl, ?_, ?_⟩
  · dsimp only
    rw [hbody, ← hnode]
    exact hequal
  · rw [AliasScope.sharedName?, hframe]
    exact List.getElem?_eq_getElem hname

/-- A nested query that refers to a common table expression stands for a table of a FROM
clause, the table of the common table expression is equal to its body, and its block writes
the name of the common table expression.  Every common table expression is referred to more
than once. -/
theorem analyze_shared (hg : g.WellFounded) {root : NodeId} (hroot : g.Has root) {st : Statement}
    (h : g.analyze root = .ok st) :
  (∀ outer b, st.Holds outer b → ∀ s ∈ b.nested, ∀ i, s.shared = some i → s.kind = .table
      ∧ ∃ t, st.shared[i]? = some t ∧ st.graph.equals t.node (st.graph.body s.node) = true
        ∧ b.clauses.scope.sharedName? i = some t.name)
    ∧ ∀ i < st.shared.length, 2 ≤ st.query.references.count i
  := by
  refine ⟨fun _ _ hb _ hs _ hi => exists_shared_of_reference hg hroot h hb hs hi, ?_⟩
  obtain ⟨q, _, hbind⟩ := exists_unshared hg hroot h
  obtain ⟨scope, hroots⟩ := (q.shareTables st.graph).1.exists_roots (q.shareTables st.graph).2
  intro i hi
  rw [show st.query = _ from congrArg Prod.fst hbind, hroots.references,
    show (q.shareTables st.graph).1 = q.refer (q.repeated st.graph) from rfl]
  exact le_count_references st.graph q (length_shared hbind ▸ hi)

/-- The join of the first rows of a table with themselves, through two views. -/
def viewedTwice : Graph := ⟨#[
  .table ⟨some "t", none, ⟨[⟨"k", .double⟩]⟩⟩,
  .limit ⟨0⟩ 3 0,
  .view ⟨1⟩,
  .view ⟨1⟩,
  .column ⟨2⟩ "k",
  .column ⟨3⟩ "k",
  .binary .eq ⟨4⟩ ⟨5⟩,
  .join .inner ⟨2⟩ ⟨3⟩ [⟨6⟩]]⟩

/-- Both views refer to one common table expression, whose name the block writes. -/
theorem analyze_shared_viewedTwice :
  ∃ st, viewedTwice.analyze ⟨7⟩ = .ok st ∧ 2 ≤ st.query.references.count 0
    ∧ ∃ b, st.Holds [] b ∧ ∃ s ∈ b.nested, s.shared = some 0 ∧ s.kind = .table
      ∧ ∃ t, st.shared[0]? = some t ∧ b.clauses.scope.sharedName? 0 = some t.name
  := by
  have hrun : (viewedTwice.analyze ⟨7⟩).toOption.map (fun st =>
      (st.shared.length, st.query.first.nested.map Nested.shared)) = some (1, [some 0, some 0]) := by
    decide
  obtain ⟨st, hst, hparts⟩ := Option.map_eq_some_iff.mp hrun
  obtain ⟨hlength, hshared⟩ := Prod.mk.inj hparts
  have hok := eq_ok_of_toOption hst
  obtain ⟨hrefers, hcount⟩ := analyze_shared (g := viewedTwice) (by decide) (by decide) hok
  have hfirst : some 0 ∈ st.query.first.nested.map Nested.shared := by
    rw [hshared]
    exact List.mem_cons_self
  obtain ⟨s, hs, hreference⟩ := List.mem_map.mp hfirst
  have hblock : st.Holds [] st.query.first := .inl st.query.holds_first
  obtain ⟨hkind, t, ht, _, hname⟩ := hrefers [] _ hblock s hs 0 hreference
  exact ⟨st, hok, hcount 0 (by rw [hlength]; exact Nat.one_pos), _, hblock, s, hs, hreference,
    hkind, t, ht, hname⟩

end Graph

end RelSql
