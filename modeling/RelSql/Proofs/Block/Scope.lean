import RelSql.Proofs.Block.Range
import RelSql.Proofs.Meaning.Choices

/-!
# Blocks inside blocks

A block is compiled inside other blocks.  The derived tables of its FROM clause are compiled inside
the same blocks, and the subqueries of its WHERE clause inside the block as well.  An existence test
asks for rows of the tables that its predicate reads and that none of these blocks has.
-/

namespace RelSql

open Analysis

variable {g g' : Graph} {enclosing : List (List NodeId)} {leaves : List NodeId}

namespace QuerySpec

/-- The values of the first block of a query are there. -/
def valid : QuerySpec := fun g _ q => q.first.clauses.Valid g

theorem hereditary_valid :
  valid.Hereditary
  := by
  refine ⟨fun _ _ _ _ _ _ e h => Clauses.Valid.mono h e, ?_, fun _ _ hl _ => hl, ?_⟩
  · intro g node q h
    cases q with
    | select c nested => exact ⟨h.select, h.source, h.predicates, h.having, h.orderBy⟩
    | union l r distinct => exact h
  · intro g node b _ _ _ hb
    obtain ⟨_, _, _, _, hcompleted⟩ := hb
    exact hcompleted.valid

end QuerySpec

namespace Nested

/-- An existence test inside blocks has been compiled from the rows of the tables that its predicate
`q` reads and that none of the blocks has. -/
structure Asks (scope : List (List NodeId)) (g : Graph) (s : Nested Query) (q first : NodeId)
    (rest : List NodeId) : Prop where
  kind : s.kind = .exists
  has : g.Has s.node
  any : g.node s.node = .any q
  tables : g.unbound scope q = first :: rest
  compiled : ∃ rows, g.Witnesses q first rest rows ∧ QuerySpec.compiledIn scope g rows s.query

/-- A nested query of a block with the tables `leaves` has been compiled inside blocks. -/
inductive Placed (enclosing : List (List NodeId)) (leaves : List NodeId) (g : Graph)
    (s : Nested Query) : Prop where
  | table {table : NodeId} (hkind : s.kind = .table)
      (h : QuerySpec.compiledIn enclosing g table s.query) : Placed enclosing leaves g s
  | other {table : NodeId} (hkind : s.kind = .scalar ∨ s.kind = .membership)
      (h : QuerySpec.compiledIn (enclosing ++ [leaves]) g table s.query) :
    Placed enclosing leaves g s
  | test {q first : NodeId} {rest : List NodeId}
      (h : s.Asks (enclosing ++ [leaves]) g q first rest) : Placed enclosing leaves g s

/-- The predicate of an existence test is there. -/
theorem Asks.has_predicate (hg : g.WellFounded) {scope : List (List NodeId)} {s : Nested Query}
    {q first : NodeId} {rest : List NodeId} (h : s.Asks scope g q first rest) :
  g.Has q
  := by
  apply hg.has_child h.has
  rw [h.any]
  exact List.mem_singleton_self q

theorem Asks.mono (e : g.Extends g') (hg : g.WellFounded) (hg' : g'.WellFounded)
    {scope : List (List NodeId)} {s : Nested Query} {q first : NodeId} {rest : List NodeId}
    (h : s.Asks scope g q first rest) :
  s.Asks scope g' q first rest
  := by
  have hq := h.has_predicate hg
  obtain ⟨rows, hrows, hcompiled⟩ := h.compiled
  refine ⟨h.kind, h.has.mono e, e.node_eq_of h.any nofun, ?_, rows, hrows.mono e hg hg' hq,
    QuerySpec.compiledIn_persistent scope rows hg hg' e hcompiled⟩
  rw [Graph.unbound, e.tables_eq hg hg' hq]
  exact h.tables

theorem Asks.qualify {scope : List (List NodeId)} {s : Nested Query} {q first : NodeId}
    {rest : List NodeId} (h : s.Asks scope g q first rest) :
  (s.map Block.forceAliases).Asks scope g q first rest
  := by
  obtain ⟨rows, hrows, hcompiled⟩ := h.compiled
  exact ⟨h.kind, h.has, h.any, h.tables, rows, hrows,
    QuerySpec.compiledIn_qualifies scope g rows _ hcompiled⟩

theorem placed_persistent (enclosing : List (List NodeId)) (leaves : List NodeId) :
  Graph.Persistent fun g s => Placed enclosing leaves g s
  := by
  intro g g' s hg hg' e h
  cases h with
  | table hkind h =>
      exact .table hkind (QuerySpec.compiledIn_persistent enclosing _ hg hg' e h)
  | other hkind h =>
      exact .other hkind (QuerySpec.compiledIn_persistent _ _ hg hg' e h)
  | test h => exact .test (h.mono e hg hg')

theorem Placed.qualify {s : Nested Query} (h : s.Placed enclosing leaves g) :
  (s.map Block.forceAliases).Placed enclosing leaves g
  := by
  cases h with
  | table hkind h => exact .table hkind (QuerySpec.compiledIn_qualifies enclosing g _ _ h)
  | other hkind h => exact .other hkind (QuerySpec.compiledIn_qualifies _ g _ _ h)
  | test h =>
      exact .test h.qualify

end Nested

namespace Block

variable {nested : List (Nested Query)} {id : NodeId}

/-- Extraction adds queries that are compiled inside the block and the blocks around it. -/
def Placing (enclosing : List (List NodeId)) (leaves : List NodeId)
    (extract : List (Nested Query) → NodeId → Analysis (List (Nested Query))) : Prop :=
  ∀ {g : Graph} {nested : List (Nested Query)} {id : NodeId}, g.WellFounded → g.Has id →
    (∀ s ∈ nested, s.Placed enclosing leaves g) →
    Grows (fun g' nested' => ∀ s ∈ nested', s.Placed enclosing leaves g') (extract nested id) g

/-- One extraction for each of some values. -/
theorem Placing.all {extract : List (Nested Query) → NodeId → Analysis (List (Nested Query))}
    (hextract : Placing enclosing leaves extract) (ids : List NodeId) (hg : g.WellFounded)
    (hids : ∀ id ∈ ids, g.Has id) (hnested : ∀ s ∈ nested, s.Placed enclosing leaves g) :
  Grows (fun g' nested' => ∀ s ∈ nested', s.Placed enclosing leaves g')
    (ids.foldlM extract nested) g
  := by
  apply (grows_foldlM (R := fun g l nested' => (∀ c ∈ l, g.Has c)
    ∧ ∀ s ∈ nested', s.Placed enclosing leaves g) ids hg ⟨hids, hnested⟩ _).imp
  · exact fun nested' g' _ _ h => h.2
  · rintro c rest nested' g' hg' _ ⟨hrest, hnested'⟩
    obtain ⟨hc, hrest⟩ := List.forall_mem_cons.mp hrest
    apply (hextract hg' hc hnested').imp
    exact fun nested'' g'' _ e h => ⟨fun c hc => (hrest c hc).mono e, h⟩

/-- A nested query is added after others. -/
theorem placed_nestQuery (n : Nat) {scope : List (List NodeId)} (hg : g.WellFounded)
    (hnested : ∀ s ∈ nested, s.Placed enclosing leaves g) {kind : SubqueryKind} {table : NodeId}
    (htable : g.Has table)
    (hnew : ∀ g' q, g'.WellFounded → g.Extends g' → QuerySpec.compiledIn scope g' table q →
      Nested.Placed enclosing leaves g' ⟨id, kind, none, q⟩) :
  Grows (fun g' nested' => ∀ s ∈ nested', s.Placed enclosing leaves g')
    (nestQuery (queryWithin n scope) nested id kind table) g
  := by
  apply grows_bind (QuerySpec.compiledIn_meets n scope table g hg htable)
  intro q g' hg' e hq
  apply grows_pure hg'
  refine List.forall_mem_append.mpr ⟨fun s hs => ?_, List.forall_mem_singleton.mpr ?_⟩
  · exact Nested.placed_persistent enclosing leaves hg hg' e (hnested s hs)
  · exact hnew g' q hg' e hq

/-- An existence test is compiled from the rows that it asks for. -/
theorem placed_any (n : Nat) (hg : g.WellFounded) (hid : g.Has id) {q : NodeId}
    (hn : g.node id = .any q) (hnested : ∀ s ∈ nested, s.Placed enclosing leaves g) :
  Grows (fun g' nested' => ∀ s ∈ nested', s.Placed enclosing leaves g')
    (do
      let table ← witnesses (enclosing ++ [leaves]) q
      nestQuery (queryWithin n (enclosing ++ [leaves])) nested id .exists table) g
  := by
  have hq : g.Has q := by
    apply hg.has_child hid
    rw [hn]
    exact List.mem_singleton_self q
  apply grows_bind (grows_witnesses hg (enclosing ++ [leaves]) hq)
  rintro rows g₁ hg₁ e₁ ⟨hrows, first, rest, htables, hwitnesses⟩
  apply placed_nestQuery n hg₁
  · exact fun s hs => Nested.placed_persistent enclosing leaves hg hg₁ e₁ (hnested s hs)
  · exact hrows
  · intro g' query hg' e hcompiled
    have hsame : g'.unbound (enclosing ++ [leaves]) q = first :: rest := by
      rw [Graph.unbound, (e₁.trans e).tables_eq hg hg' hq]
      exact htables
    have hasks : Nested.Asks (enclosing ++ [leaves]) g' ⟨id, .exists, none, query⟩ q first rest :=
      ⟨rfl, (hid.mono e₁).mono e, (e₁.trans e).node_eq_of hn (by simp), hsame, rows,
        hwitnesses.mono e hg₁ hg' (hq.mono e₁), hcompiled⟩
    exact .test hasks

/-- A membership is compiled from the values of its column. -/
theorem placed_column (n : Nat) {extract : List (Nested Query) → NodeId →
      Analysis (List (Nested Query))} (hextract : Placing enclosing leaves extract)
    (hg : g.WellFounded) (hid : g.Has id) {arg c t : NodeId} {negated : Bool} {name : String}
    (hn : g.node id = .contains arg (.column c) negated) (hc : g.node c = .column t name)
    (hnested : ∀ s ∈ nested, s.Placed enclosing leaves g) :
  Grows (fun g' nested' => ∀ s ∈ nested', s.Placed enclosing leaves g')
    (do
      let table ← Analysis.push (.projection t [c])
      let nested ← nestQuery (queryWithin n (enclosing ++ [leaves])) nested id .membership table
      extract nested arg) g
  := by
  have hchild : ∀ d ∈ [arg, c], g.Has d := by
    intro d hd
    apply hg.has_child hid
    rw [hn]
    exact hd
  have harg := hchild arg List.mem_cons_self
  have hcolumn := hchild c (List.mem_cons_of_mem arg (List.mem_singleton_self c))
  have ht : g.Has t := by
    apply hg.has_child hcolumn
    rw [hc]
    exact List.mem_singleton_self t
  apply grows_bind (grows_push hg (n := .projection t [c])
    (List.forall_mem_cons.mpr ⟨ht, List.forall_mem_singleton.mpr hcolumn⟩))
  intro table g₁ hg₁ e₁ htable
  apply grows_bind (placed_nestQuery n hg₁
    (fun s hs => Nested.placed_persistent enclosing leaves hg hg₁ e₁ (hnested s hs)) htable.1
    fun _ _ _ _ h => .other (.inr rfl) h)
  intro nested₂ g₂ hg₂ e₂ hnested₂
  exact hextract hg₂ ((harg.mono e₁).mono e₂) hnested₂

/-- A scalar value is compiled from an aggregation of the table that it reads first. -/
theorem placed_scalar (n : Nat) (hg : g.WellFounded) (hid : g.Has id) {t : NodeId}
    (hbase : g.baseTable id = some t) (hnested : ∀ s ∈ nested, s.Placed enclosing leaves g) :
  Grows (fun g' nested' => ∀ s ∈ nested', s.Placed enclosing leaves g')
    (do
      let value ← Analysis.push (.named id Graph.defaultName)
      let table ← Analysis.push (.aggregation t [] [value] [])
      nestQuery (queryWithin n (enclosing ++ [leaves])) nested id .scalar table) g
  := by
  have ht := has_of_baseTable hg hid hbase
  apply grows_bind (grows_push hg (n := .named id Graph.defaultName)
    (List.forall_mem_singleton.mpr hid))
  intro value g₁ hg₁ e₁ hvalue
  apply grows_bind (grows_push hg₁ (n := .aggregation t [] [value] [])
    (List.forall_mem_cons.mpr ⟨ht.mono e₁, List.forall_mem_singleton.mpr hvalue.1⟩))
  intro table g₂ hg₂ e₂ htable
  apply placed_nestQuery n hg₂
  · intro s hs
    exact Nested.placed_persistent enclosing leaves hg hg₂ (e₁.trans e₂) (hnested s hs)
  · exact htable.1
  · exact fun _ _ _ _ h => .other (.inl rfl) h

/-- What is extracted of a value is compiled inside the block and the blocks around it. -/
theorem placing_extract (enclosing : List (List NodeId)) (leaves : List NodeId) (n depth : Nat) :
  Placing enclosing leaves
    (extract (queryWithin n (enclosing ++ [leaves])) (enclosing ++ [leaves]) depth)
  := by
  induction depth with
  | zero => exact fun hg _ hnested => grows_pure hg hnested
  | succ depth ih =>
      intro g nested id hg hid hnested
      rw [extract]
      split
      · exact grows_pure hg hnested
      case isFalse =>
          apply grows_get
          split
          case h_1 q hn => exact placed_any n hg hid hn hnested
          case h_2 arg c negated hn =>
              split
              case h_1 t name hc => exact placed_column n ih hg hid hn hc hnested
              · exact grows_fail hg _
          case h_3 arg values negated hn =>
              apply ih.all _ hg _ hnested
              intro c hc
              apply hg.has_child hid
              rw [hn]
              exact hc
          · exact grows_pure hg hnested
          · exact grows_pure hg hnested
          · split
            · exact grows_pure hg hnested
            · split
              · split
                · exact grows_fail hg _
                case h_2 t hbase => exact placed_scalar n hg hid hbase hnested
              · exact ih.all _ hg (fun c hc => hg.has_child hid hc) hnested

/-- The subqueries of a block are compiled inside the block and the blocks around it. -/
theorem placed_extractSubqueries (n : Nat) (hg : g.WellFounded) {b : Block}
    (hb : b.Valid (QuerySpec.compiledIn enclosing) g) :
  Grows (fun g' b' => ∀ s ∈ b'.nested, s.Placed enclosing b'.clauses.leaves g')
    (b.extractSubqueries (queryWithin n) enclosing) g
  := by
  have hnested : ∀ s ∈ b.nested, s.Placed enclosing b.clauses.leaves g := by
    intro s hs
    obtain ⟨table, _, _, hcompiled⟩ := (hb.nested s hs).compiled.source
    exact .table (hb.nested s hs).kind hcompiled
  rw [extractSubqueries]
  split
  · exact grows_pure hg hnested
  · have hvisit : Placing enclosing b.clauses.leaves fun nested p =>
        extract (queryWithin n (enclosing ++ [b.clauses.leaves])) (enclosing ++ [b.clauses.leaves])
          (p.index + 1) nested p :=
      fun hg hid hnested => placing_extract enclosing b.clauses.leaves n _ hg hid hnested
    apply grows_bind (hvisit.all _ hg hb.clauses.predicates hnested)
    intro nested g' hg' _ hplaced
    apply grows_get
    apply grows_pure hg'
    rw [qualifyCorrelated]
    split
    · refine List.forall_mem_map.mpr fun s hs => ?_
      split
      · exact (hplaced s hs).qualify
      · exact hplaced s hs
    · exact hplaced

/-- Completing a block compiles its nested queries inside the blocks around it. -/
theorem placed_complete (n : Nat) (hg : g.WellFounded) {b : Block}
    (hb : b.Valid (QuerySpec.compiledIn enclosing) g) {t : TableSet}
    (ht : b.clauses.from? = some t) :
  Grows (fun g' b' => ∀ s ∈ b'.nested, s.Placed enclosing b'.clauses.leaves g')
    (b.complete (queryWithin n) enclosing) g
  := by
  have hQ := QuerySpec.compiledIn_persistent enclosing
  rw [complete]
  apply grows_bind (grows_rebuildJoins hg hb ht)
  rintro b₁ g₁ hg₁ e₁ ⟨t', join, hrebuilt, hjoin, _, hb₁⟩
  have hvalid₁ : b₁.Valid (QuerySpec.compiledIn enclosing) g₁ :=
    hb₁ ▸ hrebuilt.valid hQ hg hg₁ e₁ hb ht hjoin
  have ht₁ : b₁.clauses.from? = some t' := by rw [hb₁]
  apply grows_bind
    (grows_joinRankings hQ (QuerySpec.compiledIn_meets n enclosing) hg₁ hvalid₁ ht₁)
  rintro b₂ g₂ hg₂ e₂ ⟨hranks, _⟩
  have hvalid₂ := hranks.valid
  apply grows_bind (grows_liftValues hg₂ hvalid₂.clauses
    fun j hj => Graph.has_of_isJoin (hvalid₂.join j hj))
  intro b₃ g₃ hg₃ e₃ hvalues
  have hvalid₃ := hvalues.valid (hvalid₂.mono hQ hg₂ hg₃ e₃)
  apply grows_bind (grows_liftOrder hg₃ hvalid₃.clauses)
  intro b₄ g₄ hg₄ e₄ horder
  have hvalid₄ := horder.valid (hvalid₃.mono hQ hg₃ hg₄ e₄)
  apply grows_bind (placed_extractSubqueries n hg₄ hvalid₄)
  intro b₅ g₅ hg₅ _ hplaced
  apply grows_pure hg₅
  obtain ⟨_, hforced, _⟩ := b₅.qualifyFiltered_eq
  rw [hforced]
  exact hplaced

/-- The nested queries of the block of a table are compiled inside the blocks around it. -/
theorem placed_ofTable (n : Nat) (hg : g.WellFounded) {node : NodeId} (hnode : g.Has node) :
  Grows (fun g' b => ∀ s ∈ b.nested, s.Placed enclosing b.clauses.leaves g')
    (ofTable (queryWithin n) enclosing node) g
  := by
  have hQ := QuerySpec.compiledIn_persistent enclosing
  have hvalid := top_valid (Q := QuerySpec.compiledIn enclosing) hg hnode
  have htop := has_top hg hnode
  rw [ofTable]
  apply grows_run (run_foldLimits _ node g)
  apply grows_run (run_foldTopSorts _ _ g)
  apply grows_run (run_foldDistinct _ _ g)
  apply grows_bind
    (grows_core hQ (QuerySpec.compiledIn_meets n enclosing) hg htop hvalid.nested)
  intro built g₁ hg₁ e₁ hbuilt
  obtain ⟨hvalid₁, source, _, _, hfrom, _⟩ :=
    hbuilt.valid hg₁ (htop.mono e₁) (hvalid.mono hQ hg hg₁ e₁)
  exact placed_complete n hg₁ hvalid₁ hfrom

/-- A block is that of a table, and its nested queries have been compiled inside it and the blocks
around it. -/
structure Inside (enclosing : List (List NodeId)) (g : Graph) (node : NodeId) (b : Block) :
    Prop where
  has : g.Has node
  table : OfTable .valid g node b
  placed : ∀ s ∈ b.nested, s.Placed enclosing b.clauses.leaves g

theorem inside_persistent (enclosing : List (List NodeId)) (node : NodeId) :
  Graph.Persistent fun g b => Inside enclosing g node b
  := by
  intro g g' b hg hg' e h
  refine ⟨h.has.mono e, ?_, fun s hs => Nested.placed_persistent _ _ hg hg' e (h.placed s hs)⟩
  apply h.table.mono QuerySpec.hereditary_valid.persistent e hg hg' h.has
  intro s hs
  obtain ⟨_, _, _, _, hcompleted⟩ := h.table
  obtain ⟨_, _, _, hvalid⟩ := (hcompleted.nested s hs).source
  exact hvalid

/-- The block of a table is compiled inside the blocks around it. -/
theorem grows_inside (n : Nat) (hg : g.WellFounded) {node : NodeId} (hnode : g.Has node) :
  Grows (fun g' b => b.Inside enclosing g' node) (ofTable (queryWithin n) enclosing node) g
  := by
  have hvalid := QuerySpec.hereditary_valid
  apply ((grows_ofTable hvalid.persistent hvalid.qualifies (hvalid.meets n) enclosing hg hnode).and
    (placed_ofTable n hg hnode)).imp
  exact fun b g' _ e h => ⟨hnode.mono e, h.1, h.2⟩

end Block

namespace QuerySpec

/-- What a table is compiled to inside blocks: a block, or the union of what its operands are
compiled to. -/
inductive Builds (enclosing : List (List NodeId)) (g : Graph) (node : NodeId) : Query → Prop where
  | block {b : Block} (h : b.Inside enclosing g node) : Builds enclosing g node b.query
  | union {l r : NodeId} {distinct : Bool} {left right : Query}
      (hn : g.node node = .union l r distinct) (hl : compiledIn enclosing g l left)
      (hr : compiledIn enclosing g r right) :
    Builds enclosing g node (.union left right distinct)

theorem builds_persistent (enclosing : List (List NodeId)) (node : NodeId) :
  Graph.Persistent fun g q => Builds enclosing g node q
  := by
  intro g g' q hg hg' e h
  cases h with
  | block h => exact .block (Block.inside_persistent enclosing node hg hg' e h)
  | union hn hl hr =>
      exact .union (e.node_eq_of hn nofun) (compiledIn_persistent enclosing _ hg hg' e hl)
        (compiledIn_persistent enclosing _ hg hg' e hr)

theorem grows_builds (n : Nat) (hg : g.WellFounded) {node : NodeId} (hnode : g.Has node) :
  Grows (fun g' q => Builds enclosing g' node q) (queryWithin n enclosing node) g
  := by
  cases n with
  | zero => exact grows_fail hg _
  | succ n =>
      rw [queryWithin]
      apply grows_get
      split
      case h_1 l r distinct hn =>
          have hchild : ∀ c ∈ [l, r], g.Has c := by
            intro c hc
            apply hg.has_child hnode
            rw [hn]
            exact hc
          have hr := hchild r (List.mem_cons_of_mem l List.mem_cons_self)
          apply grows_bind (compiledIn_meets n enclosing l g hg (hchild l List.mem_cons_self))
          intro left g₁ hg₁ e₁ hleft
          apply grows_bind (compiledIn_meets n enclosing r g₁ hg₁ (hr.mono e₁))
          intro right g₂ hg₂ e₂ hright
          apply grows_pure hg₂
          exact .union ((e₁.trans e₂).node_eq_of hn (by simp))
            (compiledIn_persistent enclosing l hg₁ hg₂ e₂ hleft) hright
      · apply grows_bind (Block.grows_inside n hg hnode)
        intro b g₁ hg₁ _ hb
        exact grows_pure hg₁ (.block hb)

/-- A compiled query is what the table is compiled to in the graph, its columns being qualified
perhaps. -/
theorem exists_builds (hg : g.WellFounded) {node : NodeId} {q : Query}
    (h : compiledIn enclosing g node q) :
  ∃ q₀, Builds enclosing g node q₀ ∧ (q = q₀ ∨ q = Block.forceAliases q₀)
  := by
  obtain ⟨n, g₀, g₁, q₀, hg₀, hnode, hrun, e, hq⟩ := h
  obtain ⟨hg₁, _, hbuilds⟩ := (grows_builds n hg₀ hnode).result q₀ g₁ hrun
  exact ⟨q₀, builds_persistent enclosing node hg₁ hg e hbuilds, hq⟩

end QuerySpec

end RelSql
