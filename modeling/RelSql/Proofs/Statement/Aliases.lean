import Mathlib.Data.List.Nodup
import RelSql.Proofs.Number.Digits
import RelSql.Proofs.Statement.Query
import RelSql.Statement.Binding

/-!
# Aliases

The aliases of a scope, and of the scopes around it, never give one label to two tables.  A
bound block therefore writes its tables with pairwise distinct labels just when the tables
are pairwise distinct.  A table has one label in a scope and in all scopes around it, so a
column of it is written with the label that it has where it is declared.
-/

namespace RelSql

/-- The tables that a frame has aliases for. -/
def Frame.tables (f : Frame) : List NodeId :=
  f.aliases.map Prod.fst

namespace AliasScope

/-- The aliases handed out in a scope and around it. -/
def entries (s : AliasScope) : List (NodeId × String) :=
  (s.frame :: s.outer).flatMap Frame.aliases

/-- Different numbers have different labels. -/
theorem aliasText_injective {m n : Nat} (h : aliasText m = aliasText n) :
  m = n
  := Number.digits_injective (List.cons.inj (String.ofList_injective h)).2

/-- The labels of a scope are numbered below its counter, and no two tables share one. -/
structure Proper (s : AliasScope) : Prop where
  numbered : ∀ e ∈ s.entries, ∃ n < s.frame.counter, e.2 = aliasText n
  distinct : ∀ e ∈ s.entries, ∀ e' ∈ s.entries, e.2 = e'.2 → e.1 = e'.1

theorem proper_root :
  root.Proper
  := ⟨nofun, nofun⟩

theorem Proper.child {s : AliasScope} (h : s.Proper) :
  s.child.Proper
  := ⟨h.numbered, h.distinct⟩

/-- A scope stays proper when its counter grows and it is given no more aliases. -/
theorem Proper.of_subset {s s' : AliasScope} (h : s.Proper)
    (hentries : ∀ e ∈ s'.entries, e ∈ s.entries) (hcounter : s.frame.counter ≤ s'.frame.counter) :
  s'.Proper
  := by
  refine ⟨?_, fun e he e' he' => h.distinct e (hentries e he) e' (hentries e' he')⟩
  intro e he
  obtain ⟨n, hn, htext⟩ := h.numbered e (hentries e he)
  exact ⟨n, Nat.lt_of_lt_of_le hn hcounter, htext⟩

/-- A scope stays proper when a table is given a fresh label. -/
theorem Proper.of_fresh {s s' : AliasScope} (h : s.Proper) (table : NodeId)
    (hentries : ∀ e ∈ s'.entries, e ∈ s.entries ∨ e = (table, aliasText s.frame.counter))
    (hcounter : s'.frame.counter = s.frame.counter + 1) :
  s'.Proper
  := by
  have hfresh : ∀ e ∈ s.entries, e.2 ≠ aliasText s.frame.counter := by
    intro e he htext
    obtain ⟨n, hn, htext'⟩ := h.numbered e he
    exact absurd (aliasText_injective (htext'.symm.trans htext)) (Nat.ne_of_lt hn)
  refine ⟨?_, ?_⟩
  · intro e he
    rw [hcounter]
    rcases hentries e he with hold | rfl
    · obtain ⟨n, hn, htext⟩ := h.numbered e hold
      exact ⟨n, Nat.lt_succ_of_lt hn, htext⟩
    · exact ⟨_, Nat.lt_succ_self _, rfl⟩
  · intro e he e' he' hsame
    rcases hentries e he with hold | rfl <;> rcases hentries e' he' with hold' | rfl
    · exact h.distinct e hold e' hold' hsame
    · exact absurd hsame (hfresh e hold)
    · exact absurd hsame.symm (hfresh e' hold')
    · rfl

theorem mem_of_lookup {aliases : List (NodeId × String)} {table : NodeId} {label : String}
    (h : aliases.lookup table = some label) :
  (table, label) ∈ aliases
  := by
  obtain ⟨l₁, l₂, rfl, _⟩ := List.lookup_eq_some_iff.mp h
  exact List.mem_append_right _ List.mem_cons_self

/-- The alias that is found in frames has been handed out in one of them. -/
theorem mem_of_aliasIn? {table : NodeId} {label : String} (frames : List Frame)
    (h : aliasIn? table frames = some label) :
  (table, label) ∈ frames.flatMap Frame.aliases
  := by
  induction frames with
  | nil => cases h
  | cons f rest ih =>
      rw [aliasIn?] at h
      rw [List.flatMap_cons]
      split at h
      case h_1 label' hlabel =>
          cases h
          exact List.mem_append_left _ (mem_of_lookup hlabel)
      · exact List.mem_append_right _ (ih h)

/-- The tables that a frame has an alias for. -/
theorem mem_tables_iff {f : Frame} {table : NodeId} :
  table ∈ f.tables ↔ (f.alias? table).isSome = true
  := by
  rw [Frame.tables, Frame.alias?, List.lookup_isSome_iff, List.mem_map]
  constructor
  · rintro ⟨e, he, rfl⟩
    exact ⟨e, he, beq_self_eq_true e.1⟩
  · rintro ⟨e, he, htable⟩
    exact ⟨e, he, (eq_of_beq htable).symm⟩

/-- Giving a table an alias. -/
theorem assign_spec {s : AliasScope} (h : s.Proper) (hnodup : s.frame.tables.Nodup)
    (table : NodeId) :
  (s.assign table).2.Proper ∧ (s.assign table).2.frame.tables.Nodup
    ∧ (∀ t, t ∈ (s.assign table).2.frame.tables ↔ t ∈ s.frame.tables ∨ t = table)
    ∧ (s.assign table).2.frame.alwaysAlias = s.frame.alwaysAlias
  := by
  cases hlocal : s.localAlias? table with
  | some label =>
      have hmem : table ∈ s.frame.tables := by
        rw [mem_tables_iff, ← localAlias?, hlocal]
        rfl
      simp only [assign, hlocal]
      refine ⟨h, hnodup, ?_, trivial⟩
      intro t
      constructor
      · exact .inl
      · rintro (ht | rfl)
        · exact ht
        · exact hmem
  | none =>
      have hmem : table ∉ s.frame.tables := by
        rw [mem_tables_iff, ← localAlias?, hlocal]
        exact Bool.false_ne_true
      have hadded : ∀ label : String,
          ((s.frame.aliases ++ [(table, label)]).map Prod.fst).Nodup ∧
            ∀ t, t ∈ (s.frame.aliases ++ [(table, label)]).map Prod.fst ↔
              t ∈ s.frame.tables ∨ t = table := by
        intro label
        rw [List.map_append, ← Frame.tables]
        refine ⟨hnodup.append (List.nodup_singleton _) ?_, ?_⟩
        · intro t ht ht'
          rw [List.mem_singleton.mp ht'] at ht
          exact hmem ht
        · intro t
          rw [List.mem_append, List.map_cons, List.map_nil, List.mem_singleton]
      simp only [assign, hlocal]
      cases houter : aliasIn? table s.outer with
      | some label =>
          have hold : (table, label) ∈ s.entries := by
            rw [entries, List.flatMap_cons]
            exact List.mem_append_right _ (mem_of_aliasIn? s.outer houter)
          refine ⟨h.of_subset ?_ (Nat.le_refl _), (hadded label).1, (hadded label).2, rfl⟩
          intro e he
          simp only [entries, List.flatMap_cons, List.mem_append, List.mem_singleton] at he
          rcases he with (he | rfl) | he
          · rw [entries, List.flatMap_cons]
            exact List.mem_append_left _ he
          · exact hold
          · rw [entries, List.flatMap_cons]
            exact List.mem_append_right _ he
      | none =>
          refine ⟨h.of_fresh table ?_ rfl, (hadded _).1, (hadded _).2, rfl⟩
          intro e he
          simp only [fresh, entries, List.flatMap_cons, List.mem_append,
            List.mem_singleton] at he
          rw [entries, List.flatMap_cons, List.mem_append]
          rcases he with (he | rfl) | he
          · exact .inl (.inl he)
          · exact .inr rfl
          · exact .inl (.inr he)

/-- Giving each table of a list an alias. -/
theorem assignAll_spec (tables : List NodeId) :
    ∀ {s : AliasScope}, s.Proper → s.frame.tables.Nodup →
      (s.assignAll tables).Proper ∧ (s.assignAll tables).frame.tables.Nodup
        ∧ (∀ t, t ∈ (s.assignAll tables).frame.tables ↔ t ∈ s.frame.tables ∨ t ∈ tables)
        ∧ (s.assignAll tables).frame.alwaysAlias = s.frame.alwaysAlias := by
  induction tables with
  | nil =>
      intro s h hnodup
      refine ⟨h, hnodup, ?_, rfl⟩
      intro t
      simp [assignAll]
  | cons table rest ih =>
      intro s h hnodup
      obtain ⟨h₁, hnodup₁, hmem₁, halways₁⟩ := assign_spec h hnodup table
      obtain ⟨h₂, hnodup₂, hmem₂, halways₂⟩ := ih h₁ hnodup₁
      refine ⟨h₂, hnodup₂, ?_, halways₂.trans halways₁⟩
      intro t
      rw [assignAll, List.foldl_cons, ← assignAll, hmem₂, hmem₁, List.mem_cons, or_assoc]

/-- A scope names the tables of a block, and qualifies its columns when it is forced to. -/
structure Binds (s : AliasScope) (c : Clauses) : Prop where
  proper : s.Proper
  nodup : s.frame.tables.Nodup
  tables : ∀ t, t ∈ s.frame.tables ↔ t ∈ c.leaves
  forced : s.frame.alwaysAlias = c.forceAliases

/-- A block is bound to a scope in which no alias has been handed out. -/
theorem binds_bindBlock {s : AliasScope} (h : s.Proper) (hempty : s.frame.aliases = [])
    (halways : s.frame.alwaysAlias = false) (c : Clauses) :
  (s.bindBlock c).Binds c
  := by
  have htables : s.frame.tables = [] := by rw [Frame.tables, hempty, List.map_nil]
  obtain ⟨hproper, hnodup, hmem, hforced⟩ := assignAll_spec c.leaves h
    (by rw [htables]; exact List.nodup_nil)
  have hmem' : ∀ t, t ∈ (s.assignAll c.leaves).frame.tables ↔ t ∈ c.leaves := by
    intro t
    rw [hmem, htables]
    simp
  rw [bindBlock]
  split
  case isTrue hforce =>
      exact ⟨hproper.of_subset (fun e he => he) (Nat.le_refl _), hnodup, hmem', hforce.symm⟩
  case isFalse hforce =>
      refine ⟨hproper, hnodup, hmem', ?_⟩
      rw [hforced, halways, Bool.eq_false_iff.mpr hforce]

/-- Naming a common table expression keeps a scope proper. -/
theorem Proper.nameShared {s : AliasScope} (h : s.Proper) (occurrence : Option NodeId) :
  (s.nameShared occurrence).2.Proper
  := by
  rw [AliasScope.nameShared]
  cases occurrence.bind s.localAlias? with
  | some label => exact ⟨h.numbered, h.distinct⟩
  | none => exact h.of_subset (fun e he => he) (Nat.le_succ _)

/-- Naming a common table expression changes no alias. -/
theorem Binds.nameShared {s : AliasScope} {c : Clauses} (h : s.Binds c)
    (occurrence : Option NodeId) :
  (s.nameShared occurrence).2.Binds c
  := by
  have hproper := h.proper.nameShared occurrence
  rw [AliasScope.nameShared] at hproper ⊢
  cases hlabel : occurrence.bind s.localAlias? with
  | some label => exact ⟨⟨h.proper.numbered, h.proper.distinct⟩, h.nodup, h.tables, h.forced⟩
  | none =>
      rw [hlabel] at hproper
      exact ⟨hproper, h.nodup, h.tables, h.forced⟩

/-- A table of a block has an alias, which has been handed out in its scope. -/
theorem Binds.exists_alias {s : AliasScope} {c : Clauses} (h : s.Binds c) {t : NodeId}
    (ht : t ∈ c.leaves) :
  ∃ label, s.alias? t = some label ∧ (t, label) ∈ s.entries
  := by
  have hsome := mem_tables_iff.mp ((h.tables t).mpr ht)
  obtain ⟨label, hlabel⟩ := Option.isSome_iff_exists.mp hsome
  refine ⟨label, ?_, ?_⟩
  · rw [alias?, aliasIn?, hlabel]
  · rw [entries, List.flatMap_cons]
    exact List.mem_append_left _ (mem_of_lookup hlabel)

/-- The tables of a block have pairwise distinct labels just when they are pairwise
distinct. -/
theorem Binds.labels_nodup_iff {s : AliasScope} {c : Clauses} (h : s.Binds c) :
  (c.leaves.map s.alias?).Nodup ↔ c.leaves.Nodup
  := by
  constructor
  · exact List.Nodup.of_map s.alias?
  · apply List.Nodup.map_on
    intro t ht t' ht' hsame
    obtain ⟨label, hlabel, hmem⟩ := h.exists_alias ht
    obtain ⟨label', hlabel', hmem'⟩ := h.exists_alias ht'
    rw [hlabel, hlabel', Option.some.injEq] at hsame
    exact h.proper.distinct _ hmem _ hmem' hsame

/-- The columns of a block are qualified just when it is forced to, or has two different
tables. -/
theorem Binds.needsAliases_iff {s : AliasScope} {c : Clauses} (h : s.Binds c) :
  s.needsAliases = true ↔
    c.forceAliases = true ∨ ∃ t ∈ c.leaves, ∃ t' ∈ c.leaves, t ≠ t'
  := by
  have hlength : s.frame.aliases.length = s.frame.tables.length := (List.length_map _).symm
  have hnodup := h.nodup
  rw [needsAliases, Bool.or_eq_true, h.forced, decide_eq_true_iff, hlength]
  simp only [← h.tables]
  apply or_congr_right
  cases htables : s.frame.tables with
  | nil => simp
  | cons t rest =>
      cases rest with
      | nil => simp
      | cons t' rest =>
          rw [htables] at hnodup
          have hne : t ≠ t' := by
            rintro rfl
            exact (List.nodup_cons.mp hnodup).1 List.mem_cons_self
          simp only [List.length_cons]
          constructor
          · exact fun _ => ⟨t, List.mem_cons_self, t', by simp, hne⟩
          · intro _
            omega

end AliasScope

namespace Query

open AliasScope

/-- Naming common table expressions keeps what holds of every scope on the way. -/
theorem nameGroups_induction {P : AliasScope → Prop}
    (hP : ∀ s occurrence, P s → P (s.nameShared occurrence).2) (leaves : List NodeId)
    (groups : List SharedGroup) :
    ∀ {s : AliasScope}, P s → P (nameGroups leaves groups s).2 := by
  induction groups with
  | nil => exact fun h => h
  | cons group rest ih => exact fun h => ih (hP _ _ h)

end Query

/-! ### Labels of tables -/

namespace AliasScope

/-- No table has two labels in a scope and around it. -/
def Functional (s : AliasScope) : Prop :=
  ∀ e ∈ s.entries, ∀ e' ∈ s.entries, e.1 = e'.1 → e.2 = e'.2

theorem functional_root :
  root.Functional
  := nofun

theorem Functional.child {s : AliasScope} (h : s.Functional) :
  s.child.Functional
  := h

/-- A scope that has the same aliases. -/
theorem Functional.of_subset {s s' : AliasScope} (h : s.Functional)
    (hentries : ∀ e ∈ s'.entries, e ∈ s.entries) :
  s'.Functional
  := fun e he e' he' => h e (hentries e he) e' (hentries e' he')

/-- A table without an alias is given a label. -/
theorem Functional.of_unnamed {s s' : AliasScope} (h : s.Functional) {table : NodeId}
    {label : String} (hunnamed : ∀ e ∈ s.entries, e.1 ≠ table)
    (hentries : ∀ e ∈ s'.entries, e ∈ s.entries ∨ e = (table, label)) :
  s'.Functional
  := by
  intro e he e' he' hsame
  rcases hentries e he with hold | rfl <;> rcases hentries e' he' with hold' | rfl
  · exact h e hold e' hold' hsame
  · exact absurd hsame (hunnamed e hold)
  · exact absurd hsame.symm (hunnamed e' hold')
  · rfl

theorem not_mem_of_lookup {aliases : List (NodeId × String)} {table : NodeId}
    (h : aliases.lookup table = none) :
  ∀ e ∈ aliases, e.1 ≠ table
  := by
  intro e he hsame
  rw [List.lookup_eq_none_iff] at h
  exact absurd hsame.symm (by simpa using h e he)

theorem not_mem_of_aliasIn? {table : NodeId} (frames : List Frame)
    (h : aliasIn? table frames = none) :
  ∀ e ∈ frames.flatMap Frame.aliases, e.1 ≠ table
  := by
  induction frames with
  | nil => exact fun e he => absurd he List.not_mem_nil
  | cons f rest ih =>
      rw [aliasIn?] at h
      split at h
      · cases h
      case h_2 hlocal =>
          intro e he
          rcases List.mem_append.mp he with he | he
          · exact not_mem_of_lookup hlocal e he
          · exact ih h e he

/-- Giving a table an alias gives it the one it has around, if there is one. -/
theorem Functional.assign {s : AliasScope} (h : s.Functional) (table : NodeId) :
  (s.assign table).2.Functional
  := by
  have hadded : ∀ (label : String) (counter : Nat), ∀ e ∈ entries ⟨{ s.frame with
      aliases := s.frame.aliases ++ [(table, label)], counter }, s.outer⟩,
      e ∈ s.entries ∨ e = (table, label) := by
    intro label counter e he
    simp only [entries, List.flatMap_cons, List.mem_append, List.mem_singleton] at he ⊢
    rcases he with (he | he) | he
    · exact .inl (.inl he)
    · exact .inr he
    · exact .inl (.inr he)
  cases hlocal : s.localAlias? table with
  | some label =>
      simp only [AliasScope.assign, hlocal]
      exact h
  | none =>
      simp only [AliasScope.assign, hlocal]
      cases houter : aliasIn? table s.outer with
      | some label =>
          apply h.of_subset
          intro e he
          rcases hadded label s.frame.counter e he with hold | rfl
          · exact hold
          · exact List.mem_append_right _ (mem_of_aliasIn? s.outer houter)
      | none =>
          apply h.of_unnamed ?_ (hadded _ (s.frame.counter + 1))
          intro e he
          rcases List.mem_append.mp he with he | he
          · exact not_mem_of_lookup hlocal e he
          · exact not_mem_of_aliasIn? s.outer houter e he

theorem Functional.assignAll (tables : List NodeId) :
    ∀ {s : AliasScope}, s.Functional → (s.assignAll tables).Functional := by
  induction tables with
  | nil => exact fun h => h
  | cons t rest ih => exact fun h => ih (h.assign t)

theorem Functional.bindBlock {s : AliasScope} (h : s.Functional) (c : Clauses) :
  (s.bindBlock c).Functional
  := by
  have hassigned := h.assignAll c.leaves
  rw [AliasScope.bindBlock]
  split
  · exact hassigned
  · exact hassigned

theorem Functional.nameShared {s : AliasScope} (h : s.Functional) (occurrence : Option NodeId) :
  (s.nameShared occurrence).2.Functional
  := by
  rw [AliasScope.nameShared]
  cases occurrence.bind s.localAlias? <;> exact h

/-- The alias that is found is the label of the table in every frame that names it. -/
theorem Functional.alias?_eq {s : AliasScope} (h : s.Functional) {table : NodeId}
    {label : String} (hlabel : s.alias? table = some label) {f : Frame} (hf : f ∈ s.frame :: s.outer)
    {label' : String} (hlabel' : f.alias? table = some label') :
  label' = label
  := h (table, label') (List.mem_flatMap.mpr ⟨f, hf, mem_of_lookup hlabel'⟩) (table, label)
    (mem_of_aliasIn? _ hlabel) rfl

end AliasScope

end RelSql
