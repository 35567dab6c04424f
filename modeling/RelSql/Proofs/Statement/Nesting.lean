import RelSql.Proofs.Statement.Aliases

/-!
# Blocks inside blocks

A block of a query stands inside the blocks that it is nested in.  Sharing and binding keep the
nesting; the scope of a bound block has the frames of the blocks around it.
-/

namespace RelSql

namespace Query

/-- The block `b` is one of the blocks of a query, and `outer` lists the blocks it is nested in,
the innermost first. -/
inductive Holds : Query → List Select → Select → Prop where
  | block {c : Clauses} {nested : List (Nested Query)} : Holds (.select c nested) [] ⟨c, nested⟩
  | nested {c : Clauses} {nested : List (Nested Query)} {s : Nested Query} {outer : List Select}
      {b : Select} (hs : s ∈ nested) (h : Holds s.query outer b) :
    Holds (.select c nested) (outer ++ [⟨c, nested⟩]) b
  | left {l r : Query} {distinct : Bool} {outer : List Select} {b : Select}
      (h : Holds l outer b) : Holds (.union l r distinct) outer b
  | right {l r : Query} {distinct : Bool} {outer : List Select} {b : Select}
      (h : Holds r outer b) : Holds (.union l r distinct) outer b

variable {q : Query} {outer : List Select} {b : Select}

/-- The nested queries of a block of a query are nested in the query. -/
theorem Holds.mem_allNested (h : q.Holds outer b) :
  ∀ s ∈ b.nested, s ∈ q.allNested
  := by
  intro s hs
  induction h with
  | block =>
      rw [allNested, allNestedOf_eq]
      exact List.mem_flatMap.mpr ⟨s, hs, List.mem_cons_self⟩
  | nested ht _ ih =>
      rw [allNested, allNestedOf_eq]
      exact List.mem_flatMap.mpr ⟨_, ht, List.mem_cons_of_mem _ (ih hs)⟩
  | left _ ih => exact List.mem_append_left _ (ih hs)
  | right _ ih => exact List.mem_append_right _ (ih hs)

/-- Every nested query of a query is one of a block of it. -/
theorem exists_holds_of_mem_allNested {q : Query} {s : Nested Query} (h : s ∈ q.allNested) :
  ∃ outer b, q.Holds outer b ∧ s ∈ b.nested
  := by
  induction q using Query.induction with
  | select c nested ih =>
      rw [allNested, allNestedOf_eq] at h
      obtain ⟨t, ht, hs⟩ := List.mem_flatMap.mp h
      rcases List.mem_cons.mp hs with rfl | hs
      · exact ⟨[], _, .block, ht⟩
      · obtain ⟨outer, b, hb, hs⟩ := ih t ht hs
        exact ⟨_, b, .nested ht hb, hs⟩
  | union l r distinct hl hr =>
      rcases List.mem_append.mp h with h | h
      · obtain ⟨outer, b, hb, hs⟩ := hl h
        exact ⟨outer, b, .left hb, hs⟩
      · obtain ⟨outer, b, hb, hs⟩ := hr h
        exact ⟨outer, b, .right hb, hs⟩

/-- The blocks that a block is nested in are blocks of the query, nested in the same ones. -/
theorem Holds.enclosing (h : q.Holds outer b) :
  ∀ d ∈ outer, ∃ outer', q.Holds outer' d
  := by
  intro d hd
  induction h with
  | block => exact absurd hd List.not_mem_nil
  | nested hs h ih =>
      rcases List.mem_append.mp hd with hd | hd
      · obtain ⟨outer', h'⟩ := ih hd
        exact ⟨_, .nested hs h'⟩
      · rw [List.mem_singleton.mp hd]
        exact ⟨[], .block⟩
  | left _ ih =>
      obtain ⟨outer', h'⟩ := ih hd
      exact ⟨outer', .left h'⟩
  | right _ ih =>
      obtain ⟨outer', h'⟩ := ih hd
      exact ⟨outer', .right h'⟩

/-- The blocks of a nested query are nested in its block, and in those around it. -/
theorem Holds.inside (h : q.Holds outer b) {s : Nested Query} (hs : s ∈ b.nested)
    {inner : List Select} {d : Select} (hd : s.query.Holds inner d) :
  q.Holds (inner ++ b :: outer) d
  := by
  induction h with
  | block => exact .nested hs hd
  | nested hmem _ ih =>
      rw [← List.cons_append, ← List.append_assoc]
      exact .nested hmem (ih hs)
  | left _ ih => exact .left (ih hs)
  | right _ ih => exact .right (ih hs)

/-- The first block of a query is nested in no other one. -/
theorem holds_first (q : Query) :
  q.Holds [] q.first
  := by
  induction q using Query.induction with
  | select c nested => exact .block
  | union l r distinct hl => exact .left hl

/-- The blocks of a query that is nested in the first block of another one. -/
theorem holds_nested {s : Nested Query} {outer : List Select} {b : Select} (q : Query)
    (hs : s ∈ q.first.nested) (h : s.query.Holds outer b) :
  q.Holds (outer ++ [q.first]) b
  := by
  induction q using Query.induction with
  | select c nested => exact .nested hs h
  | union l r distinct hl => exact .left (hl hs)

/-- The common table expression that a nested query refers to, once the tables `shared` are
shared. -/
def reference {Q : Type} (shared : List Occurrences) (s : Nested Q) : Option Nat :=
  if s.kind = .table then shared.findIdx? fun o => o.leaves.contains s.node else s.shared

/-- Refers a nested query, and what is nested in it, to the tables `shared`. -/
def referNested (shared : List Occurrences) (s : Nested Query) : Nested Query :=
  ⟨s.node, s.kind, reference shared s, s.query.refer shared⟩

theorem refer_select (shared : List Occurrences) (c : Clauses) (nested : List (Nested Query)) :
  (Query.select c nested).refer shared = .select c (nested.map (referNested shared))
  := by
  conv_lhs => rw [refer, fold_select, List.map_map]
  congr 1
  apply List.map_congr_left
  rintro ⟨node, kind, i, q⟩ _
  rw [Function.comp_apply, referNested, reference]
  cases kind <;> rfl

theorem refer_union (shared : List Occurrences) (l r : Query) (distinct : Bool) :
  (Query.union l r distinct).refer shared = .union (l.refer shared) (r.refer shared) distinct
  := rfl

theorem bindIn_select (c : Clauses) (nested : List (Nested Query)) (s : AliasScope) :
  (Query.select c nested).bindIn s
    = .select { c with scope := s.child.bindBlock c }
      (nested.map (Nested.map fun q => q.bindIn (s.child.bindBlock c)))
  := by
  conv_lhs => rw [bindIn, fold_select]
  simp only [List.map_map]
  rfl

theorem bindIn_union (l r : Query) (distinct : Bool) (s : AliasScope) :
  (Query.union l r distinct).bindIn s = .union (l.bindIn s) (r.bindIn s) distinct
  := rfl

end Query

/-- The frame of the scope that a block is bound to. -/
def Select.frame (b : Select) : Frame := b.clauses.scope.frame

namespace AliasScope

theorem assign_keeps (s : AliasScope) (table : NodeId) :
  (s.assign table).2.outer = s.outer
    ∧ (s.assign table).2.frame.shared = s.frame.shared
  := by
  rw [assign]
  split
  · exact ⟨rfl, rfl⟩
  · cases aliasIn? table s.outer <;> exact ⟨rfl, rfl⟩

theorem assignAll_keeps (tables : List NodeId) :
    ∀ s : AliasScope, (s.assignAll tables).outer = s.outer
      ∧ (s.assignAll tables).frame.shared = s.frame.shared := by
  induction tables with
  | nil => exact fun s => ⟨rfl, rfl⟩
  | cons t rest ih =>
      intro s
      obtain ⟨houter, hshared⟩ := ih (s.assign t).2
      obtain ⟨houter', hshared'⟩ := s.assign_keeps t
      exact ⟨houter.trans houter', hshared.trans hshared'⟩

/-- Binding a block changes neither the frames around it nor the names of common table
expressions. -/
theorem bindBlock_keeps (s : AliasScope) (c : Clauses) :
  (s.bindBlock c).outer = s.outer ∧ (s.bindBlock c).frame.shared = s.frame.shared
  := by
  obtain ⟨houter, hshared⟩ := assignAll_keeps c.leaves s
  rw [bindBlock]
  split
  · exact ⟨houter, hshared⟩
  · exact ⟨houter, hshared⟩

/-- A scope around others is the outermost one for all of them. -/
theorem rootFrame_eq {s s' : AliasScope} (frames : List Frame)
    (h : s.outer = frames ++ s'.frame :: s'.outer) :
  s.rootFrame = s'.rootFrame
  := by
  rw [rootFrame, rootFrame, h, List.getLast?_append, List.getLast?_cons]
  rfl

end AliasScope

/-- A block that is bound inside a scope is bound to a scope of its own, with the frames of the
blocks around it and of that scope. -/
theorem Query.Holds.scope (q : Query) :
    ∀ {s : AliasScope} {outer : List Select} {b : Select}, s.Proper → s.Functional →
      (q.bindIn s).Holds outer b → b.clauses.scope.Binds b.clauses
        ∧ b.clauses.scope.Functional
        ∧ b.clauses.scope.outer = outer.map Select.frame ++ s.frame :: s.outer := by
  induction q using Query.induction with
  | select c nested ih =>
      intro s outer b hs hf h
      have hscope := AliasScope.binds_bindBlock hs.child rfl rfl c
      have hlabels := hf.child.bindBlock c
      have houter := (s.child.bindBlock_keeps c).1
      rw [bindIn_select] at h
      cases h with
      | block =>
          exact ⟨⟨hscope.proper, hscope.nodup, hscope.tables, hscope.forced⟩, hlabels, houter⟩
      | nested hmem h =>
          obtain ⟨n, hn, rfl⟩ := List.mem_map.mp hmem
          obtain ⟨hbinds, hfunctional, hframes⟩ := ih n hn hscope.proper hlabels h
          refine ⟨hbinds, hfunctional, ?_⟩
          rw [hframes, houter, List.map_append, List.append_assoc]
          rfl
  | union l r distinct hl hr =>
      intro s outer b hs hf h
      rw [bindIn_union] at h
      cases h with
      | left h => exact hl hs hf h
      | right h => exact hr hs hf h

/-- A block of the query of a statement, or of one of its common table expressions, and the
blocks it is nested in there. -/
def Statement.Holds (st : Statement) (outer : List Select) (b : Select) : Prop :=
  st.query.Holds outer b ∨ ∃ t ∈ st.shared, t.query.Holds outer b

/-- The blocks that a block is nested in are blocks of the statement. -/
theorem Statement.Holds.enclosing {st : Statement} {outer : List Select} {b : Select}
    (h : st.Holds outer b) :
  ∀ d ∈ outer, ∃ outer', st.Holds outer' d
  := by
  intro d hd
  rcases h with h | ⟨t, ht, h⟩
  · obtain ⟨outer', h'⟩ := h.enclosing d hd
    exact ⟨outer', .inl h'⟩
  · obtain ⟨outer', h'⟩ := h.enclosing d hd
    exact ⟨outer', .inr ⟨t, ht, h'⟩⟩

/-- The blocks of a nested query are nested in its block, and in those around it. -/
theorem Statement.Holds.inside {st : Statement} {outer : List Select} {b : Select}
    (h : st.Holds outer b) {s : Nested Query} (hs : s ∈ b.nested) {inner : List Select}
    {d : Select} (hd : s.query.Holds inner d) :
  st.Holds (inner ++ b :: outer) d
  := by
  rcases h with h | ⟨t, ht, h⟩
  · exact .inl (h.inside hs hd)
  · exact .inr ⟨t, ht, h.inside hs hd⟩

/-- A block and those that it is nested in are blocks of the statement. -/
theorem Statement.Holds.around {st : Statement} {outer : List Select} {b : Select}
    (h : st.Holds outer b) :
  ∀ d ∈ b :: outer, ∃ outer', st.Holds outer' d
  := List.forall_mem_cons.mpr ⟨⟨outer, h⟩, h.enclosing⟩

end RelSql
