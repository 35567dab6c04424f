import RelSql.Proofs.Renaming.Assembly

/-!
# Statements over similar graphs

Similar queries share the same derived tables, which are named alike, and the tables of their
blocks are given the same aliases.  The analyses of related handles therefore fail together, or
give similar statements.
-/

namespace RelSql

open List Relator

variable {R : Matching} {g g' : Graph} {i j : NodeId}

/-! ### Shared tables -/

structure Occurrences.Similar (R : Matching) (o o' : Occurrences) : Prop where
  body : R o.body o'.body
  leaves : Forall₂ R o.leaves o'.leaves

structure SharedGroup.Similar (R : Matching) (s s' : SharedGroup) : Prop where
  body : R s.body s'.body
  leaves : Forall₂ R s.leaves s'.leaves
  query : s.query.Similar R s'.query

namespace Occurrences

theorem add?_related [Comparison] (hg : g.Similar R g') {body body' leaf leaf' : NodeId}
    (hbody : R body body') (hleaf : R leaf leaf') {found found' : List Occurrences}
    (hf : Forall₂ (Occurrences.Similar R) found found') :
  Option.Rel (Forall₂ (Occurrences.Similar R)) (add? g body leaf found)
    (add? g' body' leaf' found')
  := by
  induction hf with
  | nil => exact .none
  | @cons o o' rest rest' ho hrest ih =>
      rw [add?, add?, hg.equals_eq ho.body hbody]
      split
      · exact .some (.cons ⟨ho.body, rel_append ho.leaves (.cons hleaf .nil)⟩ hrest)
      · generalize add? g body leaf rest = x at ih
        generalize add? g' body' leaf' rest' = y at ih
        cases ih with
        | none => exact .none
        | some h => exact .some (.cons ho h)

/-- Similar queries have related occurrences of related tables. -/
theorem collect_related [Comparison] (hg : g.Similar R g') {q q' : Query} (hq : q.Similar R q')
    {found found' : List Occurrences} (hf : Forall₂ (Occurrences.Similar R) found found') :
  Forall₂ (Occurrences.Similar R) (collect g q found) (collect g' q' found')
  := by
  let P (f f' : List Occurrences → List Occurrences) : Prop :=
    ∀ found found', Forall₂ (Occurrences.Similar R) found found' →
      Forall₂ (Occurrences.Similar R) (f found) (f' found')
  suffices hP : P (collect g q) (collect g' q') from hP found found' hf
  apply hq.fold (P := P)
  · intro c c' nested nested' hc hn found found' hf
    rw [collectBlock, collectBlock]
    dsimp only
    apply rel_foldl (P := Forall₂ (Occurrences.Similar R)) (R := Nested.Similar R P) _ _ hn
    · intro found found' hf s s' hs
      simp only [hs.kind]
      split
      · exact hs.query _ _ hf
      · exact hf
    · apply rel_foldl (P := Forall₂ (Occurrences.Similar R)) (R := R) _ hf hc.leaves
      intro found found' hf leaf leaf' hleaf
      have hderived := derivedFor?_related hg.biUnique hn hleaf
      dsimp only
      generalize derivedFor? nested leaf = x at hderived
      generalize derivedFor? nested' leaf' = y at hderived
      cases hderived with
      | none => exact hf
      | some hs =>
          have hbody := hg.body hleaf
          have hadd := add?_related hg hbody hleaf hf
          dsimp only
          generalize add? g (g.body leaf) leaf found = x at hadd
          generalize add? g' (g'.body leaf') leaf' found' = y at hadd
          cases hadd with
          | some h => exact h
          | none => exact hs.query _ _ (rel_append hf (.cons ⟨hbody, .cons hleaf .nil⟩ .nil))
  · intro l l' r r' _ hl hr found found' hf
    exact hr _ _ (hl _ _ hf)

end Occurrences

namespace Query

/-- The positions of the first ones of related elements that satisfy a test are the same. -/
theorem findIdx?_related {α β : Type} {S : α → β → Prop} (p : α → Bool) (p' : β → Bool)
    {l : List α} {l' : List β} (hl : Forall₂ S l l') (hp : ∀ a b, S a b → p a = p' b) :
  l.findIdx? p = l'.findIdx? p'
  := by
  induction hl with
  | nil => rfl
  | cons hab _ ih => rw [findIdx?_cons, findIdx?_cons, hp _ _ hab, ih]

theorem refer_related (hR : BiUnique R) {q q' : Query} (hq : q.Similar R q')
    {shared shared' : List Occurrences} (hs : Forall₂ (Occurrences.Similar R) shared shared') :
  (q.refer shared).Similar R (q'.refer shared')
  := by
  apply hq.fold (P := Query.Similar R)
  · intro c c' nested nested' hc hn
    apply Similar.select hc
    apply rel_map _ hn
    intro s s' hs'
    have hposition : shared.findIdx? (fun o => o.leaves.contains s.node)
        = shared'.findIdx? fun o => o.leaves.contains s'.node :=
      findIdx?_related _ _ hs fun o o' ho => contains_eq_of_related hR ho.leaves hs'.node
    simp only [hs'.kind, hposition]
    split
    · exact ⟨hs'.node, rfl, rfl, hs'.query⟩
    · exact hs'
  · intro l l' r r' distinct hl hr
    exact .union distinct hl hr

theorem allNested_related {q q' : Query} (hq : q.Similar R q') :
  Forall₂ (Nested.Similar R (Query.Similar R)) q.allNested q'.allNested
  := by
  apply hq.induct (P := fun q q' =>
    Forall₂ (Nested.Similar R (Query.Similar R)) q.allNested q'.allNested)
  · intro c c' nested nested' _ hn
    rw [allNested, allNested, allNestedOf_eq, allNestedOf_eq]
    apply rel_flatMap hn
    intro s s' hs
    exact .cons ⟨hs.node, hs.kind, hs.shared, hs.query.1⟩ hs.query.2
  · intro l l' r r' _ _ _ hl hr
    exact rel_append hl hr

theorem derived?_related (hR : BiUnique R) {q q' : Query} (hq : q.Similar R q') (hij : R i j) :
  Option.Rel (Query.Similar R) (q.derived? i) (q'.derived? j)
  := by
  have hfind := find?_related (fun s => decide (s.kind = .table ∧ s.node = i))
    (fun s => decide (s.kind = .table ∧ s.node = j)) (allNested_related hq) fun s s' hs => by
      have hiff : s.node = i ↔ s'.node = j := rel_eq hR hs.node hij
      simp only [hs.kind, hiff]
  rw [derived?, derived?]
  generalize find? _ q.allNested = x at hfind
  generalize find? _ q'.allNested = y at hfind
  cases hfind with
  | none => exact .none
  | some hs => exact .some hs.query

/-- Similar queries share related tables. -/
theorem shareTables_related [Comparison] (hg : g.Similar R g') {q q' : Query} (hq : q.Similar R q') :
  (q.shareTables g).1.Similar R (q'.shareTables g').1
    ∧ Forall₂ (SharedGroup.Similar R) (q.shareTables g).2 (q'.shareTables g').2
  := by
  have hshared : Forall₂ (Occurrences.Similar R)
      ((Occurrences.collect g q []).filter fun o => o.leaves.length > 1)
      ((Occurrences.collect g' q' []).filter fun o => o.leaves.length > 1) := by
    apply rel_filter _ (Occurrences.collect_related hg hq .nil)
    intro o o' ho
    simp only [ho.leaves.length_eq]
  have hrefer := refer_related hg.biUnique hq hshared
  refine ⟨hrefer, ?_⟩
  rw [shareTables, shareTables]
  apply rel_filterMap _ hshared
  rintro ⟨body, leaves⟩ ⟨body', leaves'⟩ ho
  have hleaves := ho.leaves
  cases hleaves with
  | nil => exact .none
  | cons hfirst hrest =>
      have hderived := derived?_related hg.biUnique hrefer hfirst
      simp only [head?_cons, Option.bind_eq_bind, Option.bind_some]
      generalize derived? _ _ = x at hderived ⊢
      generalize derived? (q'.refer _) _ = y at hderived ⊢
      cases hderived with
      | none => exact .none
      | some hq => exact .some ⟨ho.body, .cons hfirst hrest, hq⟩

end Query

/-! ### Aliases -/

namespace AliasScope

variable {s s' : AliasScope}

/-- Related tables have the same alias in a frame. -/
theorem frameAlias?_eq (hR : BiUnique R) {f f' : Frame} (hf : f.Similar R f') (hij : R i j) :
  f.alias? i = f'.alias? j
  := by
  rw [Frame.alias?, Frame.alias?]
  have haliases := hf.aliases
  generalize f.aliases = l at haliases
  generalize f'.aliases = l' at haliases
  induction haliases with
  | nil => rfl
  | @cons p q _ _ hpq _ ih =>
      have hiff : i = p.1 ↔ j = q.1 := rel_eq hR hij hpq.1
      rw [lookup_cons, lookup_cons]
      by_cases hi : i = p.1
      · rw [beq_iff_eq.mpr hi, beq_iff_eq.mpr (hiff.mp hi), hpq.2]
      · rw [beq_eq_false_iff_ne.mpr hi, beq_eq_false_iff_ne.mpr fun hj => hi (hiff.mpr hj)]
        exact ih

theorem aliasIn?_eq (hR : BiUnique R) {fs fs' : List Frame} (hf : Forall₂ (Frame.Similar R) fs fs')
    (hij : R i j) :
  aliasIn? i fs = aliasIn? j fs'
  := by
  induction hf with
  | nil => rfl
  | cons h _ ih => rw [aliasIn?, aliasIn?, frameAlias?_eq hR h hij, ih]

theorem alias?_eq (hR : BiUnique R) (h : s.Similar R s') (hij : R i j) :
  s.alias? i = s'.alias? j
  := aliasIn?_eq hR (.cons h.frame h.outer) hij

/-- The names of common table expressions are those of the outermost frame. -/
theorem sharedName?_eq (h : s.Similar R s') (index : Nat) :
  s.sharedName? index = s'.sharedName? index
  := by
  have hlast := rel_reverse h.outer
  have hroot : s.rootFrame.Similar R s'.rootFrame := by
    rw [rootFrame, rootFrame, getLast?_eq_head?_reverse, getLast?_eq_head?_reverse]
    generalize s.outer.reverse = l at hlast
    generalize s'.outer.reverse = l' at hlast
    cases hlast with
    | nil => exact h.frame
    | cons hf _ => exact hf
  rw [sharedName?, sharedName?, hroot.shared]

theorem child_related (h : s.Similar R s') :
  s.child.Similar R s'.child
  := ⟨⟨.nil, h.frame.counter, rfl, rfl⟩, .cons h.frame h.outer⟩

theorem root_related :
  AliasScope.root.Similar R .root
  := ⟨⟨.nil, rfl, rfl, rfl⟩, .nil⟩

theorem fresh_related (h : s.Similar R s') :
  s.fresh.1 = s'.fresh.1 ∧ s.fresh.2.Similar R s'.fresh.2
  := by
  have hcounter := h.frame.counter
  refine ⟨congrArg aliasText hcounter, { h with frame := { h.frame with counter := ?_ } }⟩
  exact congrArg (· + 1) hcounter

theorem assign_related (hR : BiUnique R) (h : s.Similar R s') (hij : R i j) :
  (s.assign i).1 = (s'.assign j).1 ∧ (s.assign i).2.Similar R (s'.assign j).2
  := by
  have hadd : ∀ {t t' : AliasScope} (label : String), t.Similar R t' →
      AliasScope.Similar R
        { t with frame := { t.frame with aliases := t.frame.aliases ++ [(i, label)] } }
        { t' with frame := { t'.frame with aliases := t'.frame.aliases ++ [(j, label)] } } := by
    intro t t' label ht
    have hpair : Forall₂ (fun p q => R p.1 q.1 ∧ p.2 = q.2) [(i, label)] [(j, label)] :=
      .cons ⟨hij, rfl⟩ .nil
    exact { ht with frame := { ht.frame with aliases := rel_append ht.frame.aliases hpair } }
  rw [assign, assign, localAlias?, localAlias?, frameAlias?_eq hR h.frame hij]
  split
  · exact ⟨rfl, h⟩
  · rw [aliasIn?_eq hR h.outer hij]
    cases aliasIn? j s'.outer with
    | some label => exact ⟨rfl, hadd label h⟩
    | none =>
        obtain ⟨hlabel, hfresh⟩ := fresh_related h
        refine ⟨hlabel, ?_⟩
        dsimp only
        rw [← hlabel]
        exact hadd s.fresh.1 hfresh

theorem assignAll_related (hR : BiUnique R) (h : s.Similar R s') {l l' : List NodeId}
    (hl : Forall₂ R l l') :
  (s.assignAll l).Similar R (s'.assignAll l')
  := rel_foldl (P := AliasScope.Similar R) (R := R)
    (fun _ _ h _ _ hij => (assign_related hR h hij).2) h hl

/-- The tables of similar blocks are given the same aliases. -/
theorem bindBlock_related (hR : BiUnique R) (h : s.Similar R s') {c c' : Clauses}
    (hc : c.Similar R c') :
  (s.bindBlock c).Similar R (s'.bindBlock c')
  := by
  have hassign := assignAll_related hR h hc.leaves
  rw [bindBlock, bindBlock, hc.forceAliases]
  split
  · exact { hassign with frame := { hassign.frame with alwaysAlias := rfl } }
  · exact hassign

theorem nameShared_related (hR : BiUnique R) (h : s.Similar R s') {o o' : Option NodeId}
    (ho : Option.Rel R o o') :
  (s.nameShared o).1 = (s'.nameShared o').1 ∧ (s.nameShared o).2.Similar R (s'.nameShared o').2
  := by
  have hname : ∀ {t t' : AliasScope} (name : String), t.Similar R t' →
      AliasScope.Similar R
        { t with frame := { t.frame with shared := t.frame.shared ++ [name] } }
        { t' with frame := { t'.frame with shared := t'.frame.shared ++ [name] } } := by
    intro t t' name ht
    exact { ht with frame := { ht.frame with
      shared := congrArg (· ++ [name]) ht.frame.shared } }
  have hlocal : o.bind s.localAlias? = o'.bind s'.localAlias? := by
    cases ho with
    | none => rfl
    | some hij => exact frameAlias?_eq hR h.frame hij
  rw [nameShared, nameShared, hlocal]
  cases o'.bind s'.localAlias? with
  | some label => exact ⟨rfl, hname label h⟩
  | none =>
      obtain ⟨hlabel, hfresh⟩ := fresh_related h
      refine ⟨hlabel, ?_⟩
      dsimp only
      rw [← hlabel]
      exact hname s.fresh.1 hfresh

end AliasScope

/-! ### Bound queries -/

structure SharedTable.Similar (R : Matching) (t t' : SharedTable) : Prop where
  name : t.name = t'.name
  node : R t.node t'.node
  query : t.query.Similar R t'.query

/-- Similar clauses stay similar in similar scopes. -/
theorem Clauses.Similar.within {c c' : Clauses} (hc : c.Similar R c') {s s' : AliasScope}
    (hs : s.Similar R s') :
  Clauses.Similar R { c with scope := s } { c' with scope := s' }
  := { hc with scope := hs }

namespace Query

/-- Binding similar queries inside similar scopes. -/
theorem bindIn_related (hR : BiUnique R) {q q' : Query} (hq : q.Similar R q') {s s' : AliasScope}
    (hs : s.Similar R s') :
  (q.bindIn s).Similar R (q'.bindIn s')
  := by
  let P (f f' : AliasScope → Query) : Prop :=
    ∀ s s', AliasScope.Similar R s s' → (f s).Similar R (f' s')
  suffices hP : P q.bindIn q'.bindIn from hP s s' hs
  apply hq.fold (P := P)
  · intro c c' nested nested' hc hn s s' hs
    have hscope := AliasScope.bindBlock_related hR (AliasScope.child_related hs) hc
    apply Similar.select (hc.within hscope)
    apply rel_map _ hn
    exact fun _ _ h => ⟨h.node, h.kind, h.shared, h.query _ _ hscope⟩
  · intro l l' r r' distinct hl hr s s' hs
    exact .union distinct (hl s s' hs) (hr s s' hs)

theorem nameGroups_related (hR : BiUnique R) {leaves leaves' : List NodeId}
    (hl : Forall₂ R leaves leaves') {groups groups' : List SharedGroup}
    (hgroups : Forall₂ (SharedGroup.Similar R) groups groups') {s s' : AliasScope}
    (hs : s.Similar R s') :
  (nameGroups leaves groups s).1 = (nameGroups leaves' groups' s').1
    ∧ (nameGroups leaves groups s).2.Similar R (nameGroups leaves' groups' s').2
  := by
  induction hgroups generalizing s s' with
  | nil => exact ⟨rfl, hs⟩
  | cons hgroup _ ih =>
      have hfind := find?_related leaves.contains leaves'.contains hgroup.leaves
        fun _ _ hij => contains_eq_of_related hR hl hij
      obtain ⟨hname, hs⟩ := AliasScope.nameShared_related hR hs hfind
      obtain ⟨hnames, hs⟩ := ih hs
      exact ⟨congrArg₂ List.cons hname hnames, hs⟩

/-- Related groups with the same names. -/
theorem zip_names {groups groups' : List SharedGroup} (names : List String)
    (hgroups : Forall₂ (SharedGroup.Similar R) groups groups') :
  Forall₂ (fun p p' => SharedGroup.Similar R p.1 p'.1 ∧ p.2 = p'.2) (groups.zip names)
    (groups'.zip names)
  := by
  induction hgroups generalizing names with
  | nil => exact .nil
  | cons h _ ih =>
      cases names with
      | nil => exact .nil
      | cons name names => exact .cons ⟨h, rfl⟩ (ih names)

theorem bind_related (hR : BiUnique R) {q q' : Query} (hq : q.Similar R q')
    {groups groups' : List SharedGroup} (hgroups : Forall₂ (SharedGroup.Similar R) groups groups') :
  (q.bind groups).1.Similar R (q'.bind groups').1
    ∧ Forall₂ (SharedTable.Similar R) (q.bind groups).2 (q'.bind groups').2
  := by
  have htables : ∀ {names names' : List String} {s s' : AliasScope}, names = names' →
      s.Similar R s' → Forall₂ (SharedTable.Similar R)
        ((groups.zip names).map fun p => ⟨p.2, p.1.body, p.1.query.bindIn s⟩)
        ((groups'.zip names').map fun p => ⟨p.2, p.1.body, p.1.query.bindIn s'⟩) := by
    rintro names _ s s' rfl hs
    apply rel_map _ (zip_names names hgroups)
    exact fun _ _ h => ⟨h.2, h.1.body, bindIn_related hR h.1.query hs⟩
  cases q with
  | union l r distinct =>
      obtain ⟨l', r', rfl, hl, hr⟩ := similar_union.mp hq
      have hleaves : Forall₂ R [] [] := .nil
      obtain ⟨hnames, hs⟩ := nameGroups_related hR hleaves hgroups AliasScope.root_related
      exact ⟨.union distinct (bindIn_related hR hl hs) (bindIn_related hR hr hs),
        htables hnames hs⟩
  | select c nested =>
      obtain ⟨c', nested', rfl, hc, hn⟩ := similar_select.mp hq
      obtain ⟨hnames, hs⟩ := nameGroups_related hR hc.leaves hgroups
        (AliasScope.bindBlock_related hR AliasScope.root_related hc)
      refine ⟨.select (hc.within hs) ?_, htables hnames hs⟩
      apply rel_map _ hn
      exact fun _ _ h => ⟨h.node, h.kind, h.shared, bindIn_related hR h.query hs⟩

end Query

/-! ### Statements -/

variable [Comparison]

/-- Similar queries over similar graphs, whose results are read in the same way. -/
structure Statement.Similar (R : Matching) (s s' : Statement) : Prop where
  graph : s.graph.Similar R s'.graph
  query : s.query.Similar R s'.query
  shared : Forall₂ (SharedTable.Similar R) s.shared s'.shared
  handler : s.handler = s'.handler

/-- The analyses of related handles fail together, or give similar statements. -/
theorem Graph.Similar.analyze (hentire : Comparison.entire) (hg : g.Similar R g') (hij : R i j) :
  Agree CompileError.kind (fun s s' => ∃ S, Statement.Similar S s s') (g.analyze i)
    (g'.analyze j)
  := by
  apply ((parallel_rootQuery hg hij).agree hentire).mapError.bind
  rintro ⟨⟨q, handler⟩, h⟩ ⟨⟨q', handler'⟩, h'⟩ ⟨S, _, hh, hq, hhandler⟩
  obtain ⟨hshared, hgroups⟩ := Query.shareTables_related hh hq
  obtain ⟨hbound, htables⟩ := Query.bind_related hh.biUnique hshared hgroups
  exact .ok ⟨S, hh, hbound, htables, hhandler⟩

end RelSql
