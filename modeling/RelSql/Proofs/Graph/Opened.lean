import RelSql.Proofs.Lift.Soundness
import RelSql.Proofs.Lift.Terms

/-!
# Aggregated columns and open tables

A value aggregates a table when a column of the table stands under one of its reductions.  Whether
it aggregates only tables of some kind is its meaning in an algebra that takes an alias for its
value.

A value reads a table openly when it reads it for the rows around it: outside of reductions, of
existence tests, and of the columns that membership is tested in.  These read their tables for
rows of their own.
-/

/-! ## Aggregated columns -/

namespace RelSql

/-- Whether all columns that are read, and whether those under reductions, are of tables for which
`P` holds. -/
def Algebra.within (P : NodeId → Prop) : Algebra (Prop × Prop) where
  column t _ := (P t, True)
  count _ := (True, True)
  table _ := (True, True)
  operator n parts :=
    (∀ part ∈ parts, part.1,
      if n.isReduction then ∀ part ∈ parts, part.1 else ∀ part ∈ parts, part.2)

namespace Graph

variable {g : Graph} {P : NodeId → Prop} {v t : NodeId}

/-- The operands of an operator read what it reads. -/
theorem mem_tables_operator (hg : g.WellFounded) (hv : g.Has v)
    (ho : (g.node v).isOperator = true) :
  t ∈ g.tables v ↔ ∃ c ∈ (g.node v).children, t ∈ g.tables c
  := by
  have hchild : ∀ c ∈ (g.node v).children, t ∈ g.tables c ↔
      ∃ name, (t, name) ∈ g.denote .reads c :=
    fun c hc => mem_tables_iff hg (hg.has_child hv hc) t
  rw [mem_tables_iff hg hv, denote_operator hg _ ho]
  simp only [Algebra.reads, List.mem_flatten, List.mem_map]
  constructor
  · rintro ⟨name, _, ⟨c, hc, rfl⟩, hmem⟩
    exact ⟨c, hc, (hchild c hc).mpr ⟨name, hmem⟩⟩
  · rintro ⟨c, hc, ht⟩
    obtain ⟨name, hmem⟩ := (hchild c hc).mp ht
    exact ⟨name, _, ⟨c, hc, rfl⟩, hmem⟩

/-- What occurs in a value reads what the value reads. -/
theorem Occurs.tables (hg : g.WellFounded) (hv : g.Has v) {r : NodeId} (h : g.Occurs v r) :
  ∀ t ∈ g.tables r, t ∈ g.tables v
  := by
  induction h with
  | refl => exact fun t ht => ht
  | operand ho hc _ ih =>
      intro t ht
      rw [mem_tables_operator hg hv ho]
      exact ⟨_, hc, ih (hg.has_child hv hc) t ht⟩

/-- Only an operator has parts. -/
theorem Occurs.eq_of_leaf {r : NodeId} (h : g.Occurs v r)
    (ho : (g.node v).isOperator = false) :
  r = v
  := by
  cases h with
  | refl => rfl
  | operand hop _ _ =>
      rw [ho] at hop
      cases hop

end Graph

end RelSql

/-! ## Tables that are read openly -/

namespace RelSql

namespace Node

/-- The operands that an operator takes for the rows around it, and those that it takes for rows
of its own. -/
def split {α : Type} (n : Node) (parts : List α) : List α × List α :=
  match n with
  | .reduction _ _ | .any _ => ([], parts)
  | .contains _ (.column _) _ => (parts.take 1, parts.drop 1)
  | _ => (parts, [])

variable {α β : Type}

theorem split_shape (n : Node) (parts : List α) :
  n.shape.split parts = n.split parts
  := by
  cases n
  case contains a options negated => cases options <;> rfl
  all_goals rfl

theorem split_map (n : Node) (f : α → β) (parts : List α) :
  n.split (parts.map f) = ((n.split parts).1.map f, (n.split parts).2.map f)
  := by
  rw [split.eq_def, split.eq_def]
  split
  · rfl
  · rfl
  · rw [List.map_take, List.map_drop]
  · rfl

/-- Every operand is taken in one of the two ways. -/
theorem split_append (n : Node) (parts : List α) :
  (n.split parts).1 ++ (n.split parts).2 = parts
  := by
  rw [split.eq_def]
  split
  · rfl
  · rfl
  · exact List.take_append_drop 1 parts
  · exact List.append_nil parts

theorem mem_split {n : Node} {parts : List α} {part : α} :
  part ∈ parts ↔ part ∈ (n.split parts).1 ∨ part ∈ (n.split parts).2
  := by
  rw [← List.mem_append, split_append]

end Node

/-- The tables that are read openly, and those that are read for other rows. -/
def Algebra.scoped : Algebra (List NodeId × List NodeId) where
  column t _ := ([t], [])
  count _ := ([], [])
  table _ := ([], [])
  operator n parts :=
    ((n.split parts).1.flatMap Prod.fst,
      (n.split parts).1.flatMap Prod.snd ++ (n.split parts).2.flatMap fun part =>
        part.1 ++ part.2)

namespace Graph

variable {α : Type} {g g' : Graph} {v t : NodeId}

/-- The tables that a value reads openly. -/
def opened (g : Graph) (v : NodeId) : List NodeId := (g.denote .scoped v).1

/-- The tables that a value reads in its reductions and its subqueries. -/
def enclosed (g : Graph) (v : NodeId) : List NodeId := (g.denote .scoped v).2

/-- The operands of a node that it takes for the rows around it, and the others. -/
def parts (g : Graph) (v : NodeId) : List NodeId × List NodeId :=
  (g.node v).split (g.node v).children

theorem mem_children_iff {c : NodeId} :
  c ∈ (g.node v).children ↔ c ∈ (g.parts v).1 ∨ c ∈ (g.parts v).2
  := Node.mem_split

theorem denote_scoped (hg : g.WellFounded) (ho : (g.node v).isOperator = true) :
  g.denote .scoped v = ((g.parts v).1.flatMap g.opened,
    (g.parts v).1.flatMap g.enclosed ++ (g.parts v).2.flatMap fun c => g.opened c ++ g.enclosed c)
  := by
  rw [denote_operator hg _ ho]
  simp only [Algebra.scoped, Node.split_shape, Node.split_map, List.flatMap_map]
  rfl

theorem mem_opened_operator (hg : g.WellFounded) (ho : (g.node v).isOperator = true) :
  t ∈ g.opened v ↔ ∃ c ∈ (g.parts v).1, t ∈ g.opened c
  := by
  rw [opened, denote_scoped hg ho, List.mem_flatMap]

theorem mem_enclosed_operator (hg : g.WellFounded) (ho : (g.node v).isOperator = true) :
  t ∈ g.enclosed v ↔ (∃ c ∈ (g.parts v).1, t ∈ g.enclosed c)
    ∨ ∃ c ∈ (g.parts v).2, t ∈ g.opened c ∨ t ∈ g.enclosed c
  := by
  rw [enclosed, denote_scoped hg ho]
  simp only [List.mem_append, List.mem_flatMap]

/-- A value keeps the tables that it reads openly. -/
theorem Extends.opened_eq (e : g.Extends g') (hg : g.WellFounded) (hg' : g'.WellFounded)
    (hv : g.Has v) :
  g'.opened v = g.opened v
  := by
  rw [opened, opened, e.denote_eq hg hg' hv]

/-- A value means the same in two algebras in which the columns that it reads do. -/
theorem denote_congr_scoped (hg : g.WellFounded) {A A' : Algebra α} (hcount : A.count = A'.count)
    (htable : A.table = A'.table) (hoperator : A.operator = A'.operator) (v : NodeId)
    (hcolumn : ∀ t, t ∈ g.opened v ∨ t ∈ g.enclosed v →
      ∀ name, A.column t name = A'.column t name) :
  g.denote A v = g.denote A' v
  := by
  obtain ⟨i⟩ := v
  induction i using Nat.strongRecOn with
  | ind i ih =>
      rcases (g.node ⟨i⟩).kinds with ⟨t, name, hn⟩ | ⟨t, hn⟩ | hn | hn
      · rw [denote_column hg _ hn, denote_column hg _ hn]
        apply hcolumn
        rw [opened, denote_column hg _ hn]
        exact .inl (List.mem_singleton_self t)
      · rw [denote_countStar hg _ hn, denote_countStar hg _ hn, hcount]
      · rw [denote_relation hg _ hn, denote_relation hg _ hn, htable]
      · rw [denote_operator hg _ hn, denote_operator hg _ hn, hoperator]
        congr 1
        apply List.map_congr_left
        intro c hc
        apply ih c.index (hg.child_lt hc)
        intro t ht
        apply hcolumn
        rw [mem_opened_operator hg hn, mem_enclosed_operator hg hn]
        rcases mem_children_iff.mp hc with hc | hc
        · exact ht.imp (fun h => ⟨c, hc, h⟩) fun h => .inl ⟨c, hc, h⟩
        · exact .inr (.inr ⟨c, hc, ht⟩)

/-- A value reads tables before it. -/
theorem lt_of_mem_scoped (hg : g.WellFounded) (h : t ∈ g.opened v ∨ t ∈ g.enclosed v) :
  t.index < v.index
  := by
  obtain ⟨i⟩ := v
  induction i using Nat.strongRecOn with
  | ind i ih =>
      rcases (g.node ⟨i⟩).kinds with ⟨u, name, hn⟩ | ⟨u, hn⟩ | hn | hn
      · rw [opened, enclosed, denote_column hg _ hn] at h
        have hsame : t = u := by simpa [Algebra.scoped] using h
        apply hg.child_lt
        rw [hn, hsame]
        exact List.mem_singleton_self u
      · rw [opened, enclosed, denote_countStar hg _ hn] at h
        simp [Algebra.scoped] at h
      · rw [opened, enclosed, denote_relation hg _ hn] at h
        simp [Algebra.scoped] at h
      · have hchild : ∀ c ∈ (g.node ⟨i⟩).children, t ∈ g.opened c ∨ t ∈ g.enclosed c →
            t.index < i :=
          fun c hc ht => Nat.lt_trans (ih c.index (hg.child_lt hc) ht) (hg.child_lt hc)
        rw [mem_opened_operator hg hn, mem_enclosed_operator hg hn] at h
        rcases h with ⟨c, hc, ht⟩ | ⟨c, hc, ht⟩ | ⟨c, hc, ht⟩
        · exact hchild c (mem_children_iff.mpr (.inl hc)) (.inl ht)
        · exact hchild c (mem_children_iff.mpr (.inl hc)) (.inr ht)
        · exact hchild c (mem_children_iff.mpr (.inr hc)) ht

/-- What reads a column reads it openly or for other rows. -/
theorem mem_tables_iff_opened (hg : g.WellFounded) (hv : g.Has v) :
  t ∈ g.tables v ↔ t ∈ g.opened v ∨ t ∈ g.enclosed v
  := by
  obtain ⟨i⟩ := v
  induction i using Nat.strongRecOn with
  | ind i ih =>
      rcases (g.node ⟨i⟩).kinds with ⟨u, name, hn⟩ | ⟨u, hn⟩ | hn | hn
      · simp [mem_tables_iff hg hv, opened, enclosed, denote_column hg _ hn, Algebra.reads,
          Algebra.scoped]
      · simp [mem_tables_iff hg hv, opened, enclosed, denote_countStar hg _ hn, Algebra.reads,
          Algebra.scoped]
      · simp [mem_tables_iff hg hv, opened, enclosed, denote_relation hg _ hn, Algebra.reads,
          Algebra.scoped]
      · have hchild : ∀ c ∈ (g.node ⟨i⟩).children,
            (t ∈ g.tables c ↔ t ∈ g.opened c ∨ t ∈ g.enclosed c) :=
          fun c hc => ih c.index (hg.child_lt hc) (hg.has_child hv hc)
        rw [mem_tables_operator hg hv hn, mem_opened_operator hg hn, mem_enclosed_operator hg hn]
        constructor
        · rintro ⟨c, hc, ht⟩
          have ht := (hchild c hc).mp ht
          rcases mem_children_iff.mp hc with hc | hc
          · exact ht.imp (fun h => ⟨c, hc, h⟩) fun h => .inl ⟨c, hc, h⟩
          · exact .inr (.inr ⟨c, hc, ht⟩)
        · rintro (⟨c, hc, ht⟩ | ⟨c, hc, ht⟩ | ⟨c, hc, ht⟩)
          · have hc := mem_children_iff.mpr (.inl hc)
            exact ⟨c, hc, (hchild c hc).mpr (.inl ht)⟩
          · have hc := mem_children_iff.mpr (.inl hc)
            exact ⟨c, hc, (hchild c hc).mpr (.inr ht)⟩
          · have hc := mem_children_iff.mpr (.inr hc)
            exact ⟨c, hc, (hchild c hc).mpr ht⟩

/-- A value reads the same columns when the graph grows. -/
theorem Extends.columns_eq (e : g.Extends g') (hg : g.WellFounded) (hg' : g'.WellFounded)
    (hv : g.Has v) :
  g'.columns v = g.columns v
  := by
  obtain ⟨i⟩ := v
  induction i using Nat.strongRecOn with
  | ind i ih =>
      have hchildren : g'.valueChildren ⟨i⟩ = g.valueChildren ⟨i⟩ := by
        rw [valueChildren, valueChildren, e.node_eq hv]
      rw [Graph.columns_eq hg' (hv.mono e), Graph.columns_eq hg hv, columnsStep, columnsStep,
        e.node_eq hv, hchildren]
      split
      · rfl
      · congr 1
        apply List.flatMap_congr
        intro c hc
        rcases g.valueChildren_cases ⟨i⟩ with hn | hn
        · rw [hn] at hc
          exact absurd hc List.not_mem_nil
        · rw [hn] at hc
          exact ih c.index (hg.child_lt hc) (hg.has_child hv hc)

/-- A value reads the same tables, in the same order, when the graph grows. -/
theorem Extends.tables_eq (e : g.Extends g') (hg : g.WellFounded) (hg' : g'.WellFounded)
    (hv : g.Has v) :
  g'.tables v = g.tables v
  := by
  rw [tables, tables, e.columns_eq hg hg' hv]
  congr 1
  apply List.filterMap_congr
  intro c hc
  obtain ⟨u, name, hn⟩ := node_of_mem_columns hg hv hc
  rw [columnTable?, columnTable?, hn, e.node_eq_of hn (by simp)]

end Graph

end RelSql
