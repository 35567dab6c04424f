import RelSql.Proofs.Lift.Fates
import RelSql.Proofs.Output.Folding
import RelSql.Proofs.Renaming.Rendering
import RelSql.Proofs.Statement.Origins

/-!
# Tables that are compiled again

A table may be compiled at several places of a statement, each time to a query over handles of its
own.  Most of these are values only.  Groups for a ranking, the rows that an existence test asks
for, and filtered rows below a projection that is fused are tables, and so may be written in place
of those that were searched for when the table was met first.

A table that reaches nothing of the kind is compiled to queries over the tables that it reaches, and
they are written in the same way at all places.
-/

namespace RelSql

namespace Graph

variable {g g' : Graph} {root id t v : NodeId} {next? : Node → Option NodeId}

/-! ### Reached handles -/

/-- What a handle reaches does not come after it. -/
theorem Reaches.le (hg : g.WellFounded) (h : g.Reaches root id) :
  id.index ≤ root.index
  := by
  induction h with
  | root => exact Nat.le_refl _
  | child _ hc ih => exact Nat.le_trans (Nat.le_of_lt (hg.child_lt hc)) ih

/-- What is reached in an extended graph is reached before. -/
theorem Reaches.restrict (hg : g.WellFounded) (e : g.Extends g') (hroot : g.Has root)
    (h : g'.Reaches root id) :
  g.Reaches root id
  := by
  induction h with
  | root => exact .root
  | child _ hc ih =>
      rw [e.node_eq (ih.has hg hroot)] at hc
      exact ih.child hc

/-- What is reached in a graph is reached when it grows. -/
theorem Reaches.mono (hg : g.WellFounded) (e : g.Extends g') (hroot : g.Has root)
    (h : g.Reaches root id) :
  g'.Reaches root id
  := by
  induction h with
  | root => exact .root
  | child h hc ih =>
      rw [← e.node_eq (h.has hg hroot)] at hc
      exact ih.child hc

/-- The handles of a chain are reached. -/
theorem Reaches.chain (hnext : Follows next?) (hg : g.WellFounded) (h : g.Reaches root id) :
  (∀ n ∈ (g.chain next? id).1, g.Reaches root n) ∧ g.Reaches root (g.chain next? id).2
  := by
  revert h
  apply chain_induction hnext hg (P := fun id => g.Reaches root id →
    (∀ n ∈ (g.chain next? id).1, g.Reaches root n) ∧ g.Reaches root (g.chain next? id).2)
  · intro id ht h
    rw [chain_end hnext hg ht]
    exact ⟨nofun, h⟩
  · intro id t ht ih h
    rw [chain_next hnext hg ht]
    obtain ⟨hrest, hend⟩ := ih (h.child (hnext _ _ ht))
    exact ⟨List.forall_mem_cons.mpr ⟨h, hrest⟩, hend⟩

/-- The table below selections is reached, and so are their predicates. -/
theorem Reaches.peel (hg : g.WellFounded) (h : g.Reaches root id) :
  g.Reaches root (g.peel id).table ∧ ∀ p ∈ (g.peel id).predicates, g.Reaches root p
  := by
  obtain ⟨hchain, hend⟩ := h.chain follows_selection hg
  refine ⟨hend, ?_⟩
  intro p hp
  obtain ⟨n, hn, hp⟩ := List.mem_flatMap.mp hp
  apply (hchain n (List.mem_reverse.mp hn)).child
  rw [predicatesOf] at hp
  split at hp
  case h_1 t predicates hnode =>
      rw [hnode]
      exact List.mem_cons_of_mem t hp
  · exact absurd hp List.not_mem_nil

theorem Reaches.operand (hg : g.WellFounded) (h : g.Reaches root id) (hoist left : Bool) :
  g.Reaches root (g.operand id hoist left).table
    ∧ ∀ p ∈ (g.operand id hoist left).predicates, g.Reaches root p
  := by
  rw [Graph.operand]
  split
  · exact h.peel hg
  · exact ⟨h, fun _ hp => absurd hp List.not_mem_nil⟩

/-- The tables of a join tree are reached, and so are the predicates that are hoisted. -/
theorem Reaches.joinTree (hg : g.WellFounded) (h : g.Reaches root id) :
  (∀ t ∈ (g.joinTree id).leaves, g.Reaches root t)
    ∧ ∀ p ∈ (g.joinTree id).hoisted, g.Reaches root p
  := by
  revert h
  apply joinTree_induction hg (P := fun id => g.Reaches root id →
    (∀ t ∈ (g.joinTree id).leaves, g.Reaches root t)
      ∧ ∀ p ∈ (g.joinTree id).hoisted, g.Reaches root p)
  · intro id hn h
    rw [joinTree_other hg hn]
    exact ⟨List.forall_mem_singleton.mpr h, nofun⟩
  · intro id kind l r predicates hn ih h
    have hl : g.Reaches root l := by
      apply h.child
      rw [hn]
      exact List.mem_cons_self
    have hr : g.Reaches root r := by
      apply h.child
      rw [hn]
      exact List.mem_cons_of_mem l List.mem_cons_self
    obtain ⟨hleft, hleftPredicates⟩ := hl.operand hg (kind.preservesFilters true) true
    obtain ⟨hright, hrightPredicates⟩ := hr.operand hg (kind.preservesFilters false) false
    obtain ⟨hleaves, hhoisted⟩ := ih hleft
    rw [joinTree_join hg hn, JoinTree.leaves, JoinTree.hoisted]
    refine ⟨List.forall_mem_append.mpr ⟨hleaves, List.forall_mem_singleton.mpr hright⟩, ?_⟩
    exact List.forall_mem_append.mpr
      ⟨List.forall_mem_append.mpr ⟨hhoisted, hleftPredicates⟩, hrightPredicates⟩

/-- The table below a view is reached. -/
theorem Reaches.body (h : g.Reaches root id) :
  g.Reaches root (g.body id)
  := by
  rw [Graph.body]
  split
  case h_1 t hn =>
      apply h.child
      rw [hn]
      exact List.mem_singleton_self t
  · exact h

/-- A value is reached without its aliases. -/
theorem Reaches.unaliased (hg : g.WellFounded) (h : g.Reaches root id) :
  g.Reaches root (g.unaliased id)
  := by
  obtain ⟨i⟩ := id
  induction i using Nat.strongRecOn with
  | ind i ih =>
      rw [Graph.unaliased_eq hg]
      split
      case h_1 arg name hn =>
          have harg : arg ∈ (g.node ⟨i⟩).children := by
            rw [hn]
            exact List.mem_singleton_self arg
          exact ih arg.index (hg.child_lt harg) (h.child harg)
      · exact h

/-! ### Steady tables -/

/-- Whether compiling the handle makes tables: it is a ranking or an existence test, or a projection
of the whole of another one that is filtered, or that is none of those that it is fused with. -/
def renews (g : Graph) (id : NodeId) : Bool :=
  match g.node id with
  | .topK _ _ _ | .any _ => true
  | .projection t items =>
    let below := g.peel t
    g.isProjection below.table && items.any fun item => g.isRelation item
      && (below.predicates ≠ [] || !(below.chain ++ [below.table]).contains item)
  | _ => false

/-- Nothing that the handle reaches makes tables when it is compiled. -/
def Steady (g : Graph) (root : NodeId) : Prop :=
  ∀ id, g.Reaches root id → g.renews id = false

/-- A handle is steady when no handle up to it makes tables. -/
theorem steady_of_le (hg : g.WellFounded)
    (h : ∀ i < root.index + 1, g.renews ⟨i⟩ = false) :
  g.Steady root
  := fun id hid => h id.index (Nat.lt_succ_of_le (hid.le hg))

/-- The tables that a projection selects as a whole are those that it is fused with. -/
theorem renews_projection {items : List NodeId} (hn : g.node id = .projection t items) :
  g.renews id = false ↔ (g.isProjection (g.peel t).table = true →
    ∀ item ∈ items, g.isRelation item = true →
      (g.peel t).predicates = [] ∧ item ∈ (g.peel t).chain ++ [(g.peel t).table])
  := by
  simp [renews, hn, or_iff_not_imp_left]

end Graph

/-! ### Values over reached tables -/

/-- Whether all tables that are read are among `P`, and no rows are tested for. -/
def Algebra.confined (P : NodeId → Prop) : Algebra Prop where
  column t _ := P t
  count t := P t
  table t := P t
  operator n parts := (∀ p, n ≠ .any p) ∧ ∀ part ∈ parts, part

/-- An operator without its handles tests for rows when it does. -/
theorem Algebra.confined_operator (P : NodeId → Prop) (n : Node) (l : List NodeId)
    (f : NodeId → Prop) :
  (Algebra.confined P).operator n.shape (l.map f) ↔ (∀ p, n ≠ .any p) ∧ ∀ c ∈ l, f c
  := by
  have hshape : n.shape.shape = n.shape := n.shape_mapChildren _
  have hany : (∀ p, n.shape ≠ .any p) ↔ ∀ p, n ≠ .any p := by
    constructor
    · intro h p hp
      obtain ⟨q, hq⟩ := Node.any_of_shape hshape.symm hp
      exact h q hq
    · intro h p hp
      obtain ⟨q, hq⟩ := Node.any_of_shape hshape hp
      exact h q hq
  simp only [confined, hany, List.forall_mem_map]

namespace Graph

variable {g : Graph} {root id t v w : NodeId}

/-- A value reads reached tables only, and tests for no rows. -/
def Confined (g : Graph) (root v : NodeId) : Prop :=
  g.denote (.confined (g.Reaches root)) v

theorem confined_column (hg : g.WellFounded) {name : String} (hn : g.node v = .column t name) :
  g.Confined root v ↔ g.Reaches root t
  := by
  rw [Confined, denote_column hg _ hn]
  exact Iff.rfl

/-- An operator reads what its operands read. -/
theorem confined_operator (hg : g.WellFounded) (ho : (g.node v).isOperator = true) :
  g.Confined root v
    ↔ (∀ p, g.node v ≠ .any p) ∧ ∀ c ∈ (g.node v).children, g.Confined root c
  := by
  rw [Confined, denote_operator hg _ ho]
  exact Algebra.confined_operator _ _ _ _

/-- What occurs in a value reads no more than the value. -/
theorem Occurs.confined (hg : g.WellFounded) (h : g.Occurs v w) (hv : g.Confined root v) :
  g.Confined root w
  := by
  induction h with
  | refl => exact hv
  | operand ho hc _ ih => exact ih (((confined_operator hg ho).mp hv).2 _ hc)

/-- The table that a value reads first is reached. -/
theorem Confined.base (hg : g.WellFounded) (h : g.Confined root v)
    (hbase : g.denote .base v = some t) :
  g.Reaches root t
  := by
  obtain ⟨i⟩ := v
  induction i using Nat.strongRecOn with
  | ind i ih =>
      rcases (g.node ⟨i⟩).kinds with ⟨u, name, hn⟩ | ⟨u, hn⟩ | hn | hn
      · rw [denote_column hg _ hn] at hbase
        rw [confined_column hg hn] at h
        exact Option.some.inj hbase ▸ h
      · rw [denote_countStar hg _ hn] at hbase
        rw [Confined, denote_countStar hg _ hn] at h
        exact Option.some.inj hbase ▸ h
      · rw [denote_relation hg _ hn] at hbase
        cases hbase
      · rw [denote_operator hg _ hn] at hbase
        obtain ⟨part, hpart, hfound⟩ := List.exists_of_findSome?_eq_some hbase
        obtain ⟨c, hc, rfl⟩ := List.mem_map.mp hpart
        exact ih c.index (hg.child_lt hc) (((confined_operator hg hn).mp h).2 c hc) hfound

/-- What a steady handle reaches is no existence test. -/
theorem Steady.ne_any (hs : g.Steady root) (h : g.Reaches root id) (p : NodeId) :
  g.node id ≠ .any p
  := by
  intro hn
  have hsteady := hs id h
  rw [renews, hn] at hsteady
  cases hsteady

theorem Steady.isRanking (hs : g.Steady root) (h : g.Reaches root id) :
  Block.isRanking g id = false
  := by
  have hsteady := hs id h
  rw [renews] at hsteady
  rw [Block.isRanking]
  cases hn : g.node id with
  | topK a k m =>
      rw [hn] at hsteady
      cases hsteady
  | _ => rfl

end Graph

namespace Folding

open RelSql.Graph

variable {s : Folding} {mode : LiftMode} {g : Graph} {root id t v l : NodeId}

/-- The columns and the value of what is reached resolve to what reads reached tables only. -/
theorem resolve_reached (hg : g.WellFounded) (hs : g.Steady root) (h : g.Reaches root id) :
  (∀ name, (s.resolve mode (.confined (g.Reaches root)) g id).column name)
    ∧ (s.resolve mode (.confined (g.Reaches root)) g id).value
  := by
  obtain ⟨i⟩ := id
  induction i using Nat.strongRecOn with
  | ind i ih =>
      have hchild : ∀ c ∈ (g.node ⟨i⟩).children, _ := fun c hc =>
        ih c.index (hg.child_lt hc) (h.child hc)
      constructor
      · intro name
        obtain ⟨hcolumn, hvalue⟩ := fate_children s mode g ⟨i⟩ name
        rw [resolve_fate hg]
        cases hfate : s.fate mode g ⟨i⟩ name with
        | kept => exact h
        | column u => exact (hchild u (hcolumn u hfate)).1 name
        | value v =>
            obtain ⟨c, hc, rfl⟩ := hvalue v hfate
            have hlt := Nat.lt_of_le_of_lt (hg.unaliased_le c) (hg.child_lt hc)
            exact (ih _ hlt ((h.child hc).unaliased hg)).2
      · rw [Lift.resolve_value_eq hg]
        rcases (g.node ⟨i⟩).kinds with ⟨t, name, hn⟩ | ⟨t, hn⟩ | hn | hn
        · have ht : t ∈ (g.node ⟨i⟩).children := by
            rw [hn]
            exact List.mem_singleton_self t
          rw [resolveValue, hn]
          exact (hchild t ht).1 name
        · have ht : t ∈ (g.node ⟨i⟩).children := by
            rw [hn]
            exact List.mem_singleton_self t
          rw [resolveValue, hn]
          exact h.child ht
        · rw [resolveValue_relation _ _ hn]
          exact h
        · rw [resolveValue_operator _ _ hn, Algebra.confined_operator]
          exact ⟨hs.ne_any h, fun c hc => (hchild c hc).2⟩

/-- A reached value is lifted to one that reads reached tables only. -/
theorem Lifts.confined (hg : g.WellFounded) (hs : g.Steady root) (h : g.Reaches root id)
    (hl : s.Lifts mode g id l) :
  g.Confined root l
  := by
  rw [Confined, hl.denote]
  exact (resolve_reached hg hs h).2

end Folding

/-- Graphs that grow to one in which a handle is steady are similar along the identity of what it
reaches. -/
theorem Graph.Steady.similar [Comparison] {old old' g : Graph} {root : NodeId} (hs : g.Steady root)
    (hold : old.WellFounded) (hold' : old'.WellFounded) (e : old.Extends g) (e' : old'.Extends g)
    (hroot : old.Has root) (hroot' : old'.Has root) :
  old.Similar (fun i j => old.Reaches root i ∧ j = i) old'
  := by
  apply similar_of_map hold hold' hroot id (fun _ _ _ _ h => h)
  · intro i hi
    have hhas : old'.Has i := Nat.lt_of_le_of_lt (hi.le hold) hroot'
    rw [id, hhas.node?_eq, ← e'.node_eq hhas, e.node_eq (hi.has hold hroot)]
    exact congrArg some (Node.mapChildren_id _).symm
  · intro i p hi hn
    apply absurd _ (hs.ne_any (hi.mono hold e hroot) p)
    rw [e.node_eq (hi.has hold hroot), hn]

/-! ### Blocks over reached tables -/

namespace Graph

variable {g : Graph} {root id t : NodeId}

/-- A table is reached, or it has been made over one that is: an aggregation, or a projection that
makes no tables when it is compiled. -/
inductive Rests (g : Graph) (root id : NodeId) : Prop where
  | reached (h : g.Reaches root id) : Rests g root id
  | aggregation {t : NodeId} {keys metrics having : List NodeId}
      (hn : g.node id = .aggregation t keys metrics having) (ht : g.Reaches root t) :
    Rests g root id
  | projection {t : NodeId} {items : List NodeId} (hn : g.node id = .projection t items)
      (ht : g.Reaches root t) (hsteady : g.renews id = false) : Rests g root id

/-- The input of an aggregation is reached. -/
theorem Rests.of_aggregation {keys metrics having : List NodeId} (h : g.Rests root id)
    (hn : g.node id = .aggregation t keys metrics having) :
  g.Reaches root t
  := by
  cases h with
  | reached h =>
      apply h.child
      rw [hn]
      exact List.mem_cons_self
  | aggregation hn' ht =>
      cases hn.symm.trans hn'
      exact ht
  | projection hn' => cases hn.symm.trans hn'

/-- The input of a projection is reached. -/
theorem Rests.of_projection {items : List NodeId} (hs : g.Steady root) (h : g.Rests root id)
    (hn : g.node id = .projection t items) :
  g.Reaches root t ∧ g.renews id = false
  := by
  cases h with
  | reached h =>
      refine ⟨h.child ?_, hs id h⟩
      rw [hn]
      exact List.mem_cons_self
  | aggregation hn' => cases hn.symm.trans hn'
  | projection hn' ht hsteady =>
      cases hn.symm.trans hn'
      exact ⟨ht, hsteady⟩

/-- Any other table is reached. -/
theorem Rests.reaches (h : g.Rests root id)
    (haggregation : ∀ t keys metrics having, g.node id ≠ .aggregation t keys metrics having)
    (hprojection : ∀ t items, g.node id ≠ .projection t items) :
  g.Reaches root id
  := by
  cases h with
  | reached h => exact h
  | aggregation hn => exact absurd hn (haggregation _ _ _ _)
  | projection hn => exact absurd hn (hprojection _ _)

/-- The table below selections rests on what is reached, and their predicates are reached. -/
theorem Rests.peel (hg : g.WellFounded) (h : g.Rests root id) :
  g.Rests root (g.peel id).table ∧ ∀ p ∈ (g.peel id).predicates, g.Reaches root p
  := by
  have hplain : selectionInput? (g.node id) = none →
      g.Rests root (g.peel id).table ∧ ∀ p ∈ (g.peel id).predicates, g.Reaches root p := by
    intro hn
    rw [peel_other hg hn]
    exact ⟨h, nofun⟩
  cases h with
  | reached h => exact ⟨.reached (h.peel hg).1, (h.peel hg).2⟩
  | aggregation hn => exact hplain (by rw [hn]; rfl)
  | projection hn => exact hplain (by rw [hn]; rfl)

/-- What is folded with the selections above a projection is a table. -/
theorem isRelation_of_absorbed (hg : g.WellFounded) {input table : NodeId} {inner : List NodeId}
    (hn : g.node (g.peel input).table = .projection table inner) :
  ∀ item ∈ (g.peel input).chain ++ [(g.peel input).table], g.isRelation item = true
  := by
  intro item hitem
  rcases List.mem_append.mp hitem with hmem | hmem
  · exact hg.isRelation_of_mem_peel hmem
  · rw [List.mem_singleton.mp hmem, isRelation, hn]
    rfl

/-- A projection that makes no tables is fused to one that makes none, over a reached table. -/
theorem Fuses.rests (hg : g.WellFounded) (hs : g.Steady root) {f : Fused} (h : g.Fuses id f)
    (hid : g.Rests root id) :
  g.Rests root f.node
  := by
  obtain @⟨input, table, source, outer, inner, parts, hn, hinner, habsorbed, hwhole, _, hnode,
    hparts, hsource⟩ := h
  obtain ⟨hinput, hsteady⟩ := hid.of_projection hs hn
  have hprojection : g.isProjection (g.peel input).table = true := by rw [isProjection, hinner]
  have hwholes := (renews_projection hn).mp hsteady hprojection
  have hpeel := (hinput.peel hg).1
  have htable : g.Reaches root table := by
    apply hpeel.child
    rw [hinner]
    exact List.mem_cons_self
  -- what is fused is selected as a whole, so nothing is filtered in between
  have hpredicates : (g.peel input).predicates = [] := by
    obtain ⟨item, hitem, hmem⟩ := List.any_eq_true.mp hwhole
    rw [habsorbed] at hmem
    have hr := isRelation_of_absorbed hg hinner item (List.contains_iff_mem.mp hmem)
    exact (hwholes item hitem hr).1
  have hbelow : source = table := by
    cases hsource with
    | all => rfl
    | filtered hne => exact absurd hpredicates hne
  rw [hbelow] at hnode
  refine .projection hnode htable ((renews_projection hnode).mpr ?_)
  intro hprojection' item hitem hr
  obtain ⟨part, hpart, hitem⟩ := List.mem_flatten.mp hitem
  -- the tables among the parts are those that the inner projection selects
  have hmem : item ∈ inner := by
    obtain ⟨o, ho, hlifts⟩ := forall₂_exists hparts.flip part hpart
    cases hlifts with
    | absorbed => exact hitem
    | table hout hro =>
        have hin := (hwholes o ho hro).2
        rw [← habsorbed] at hin
        rw [Folding.contains, Folding.of, List.contains_iff_mem.mpr hin] at hout
        cases hout
    | value _ hro hl =>
        rw [List.mem_singleton.mp hitem, hl.isRelation hg hro] at hr
        cases hr
  exact (renews_projection hinner).mp (hs _ hpeel) hprojection' item hmem hr

theorem FusesTo.rests (hg : g.WellFounded) (hs : g.Steady root) {core : NodeId} {fs : List Fused}
    (h : g.FusesTo id fs core) (hid : g.Rests root id) :
  g.Rests root core
  := by
  induction h with
  | nil => exact hid
  | cons h _ ih => exact ih (h.rests hg hs hid)

end Graph

/-- The table that is compiled for a value over reached tables rests on them. -/
theorem Nested.Source.rests {g : Graph} {root node table : NodeId} (hg : g.WellFounded)
    {kind : SubqueryKind} (h : Nested.Source g kind node table) (hkind : kind ≠ .table)
    (hnode : g.Confined root node) :
  g.Rests root table
  := by
  cases h with
  | table => exact absurd rfl hkind
  | scalar _ hbase _ htable => exact .aggregation htable (hnode.base hg hbase)
  | @membership _ arg c t _ name negated hn hc htable =>
      have hcolumn : g.Confined root c := by
        have hoperands := ((Graph.confined_operator hg (by rw [hn]; rfl)).mp hnode).2
        apply hoperands
        rw [hn]
        exact List.mem_cons_of_mem arg List.mem_cons_self
      refine .projection htable ((Graph.confined_column hg hc).mp hcolumn) ?_
      rw [Graph.renews_projection htable]
      intro _ item hitem hr
      rw [List.mem_singleton.mp hitem, Graph.isRelation, hc] at hr
      cases hr
  | «exists» hn =>
      exact absurd hn (((Graph.confined_operator hg (by rw [hn]; rfl)).mp hnode).1 _)

namespace Block

variable {Q : QuerySpec} {old g : Graph} {root id : NodeId}

/-- What is below the top of a table rests on what is reached. -/
theorem rests_top (hg : g.WellFounded) (h : g.Rests root id) :
  g.Rests root (top g id).2
  := by
  cases h with
  | reached h =>
      apply Graph.Rests.reached
      have hsorts := ((h.chain Graph.follows_limit hg).2.chain Graph.follows_sort hg).2
      obtain ⟨_, _, ⟨_, htop⟩ | ⟨n, _, rfl, hn⟩⟩ := top_operators g id
      · rw [htop]
        exact hsorts
      · apply hsorts.child
        rw [hn]
        exact List.mem_singleton_self _
  | aggregation hn ht =>
      rw [top_of_plain hg (by rw [hn]; rfl) (by rw [hn]; rfl) (by rw [hn]; rintro _ ⟨⟩)]
      exact .aggregation hn ht
  | projection hn ht hsteady =>
      rw [top_of_plain hg (by rw [hn]; rfl) (by rw [hn]; rfl) (by rw [hn]; rintro _ ⟨⟩)]
      exact .projection hn ht hsteady

/-- A block of a table that rests on what is reached is drawn from a reached table, and takes over
reached predicates. -/
theorem Built.reached (hg : g.WellFounded) (hs : g.Steady root) {b built : Block}
    (h : Built Q b id g built) (hid : g.Rests root id) :
  ∃ source, g.Reaches root source ∧ built.clauses.from? = some (g.joinTree source).tables
    ∧ ∀ p ∈ built.clauses.predicates, g.Reaches root p
  := by
  obtain ⟨htable, hpeeled⟩ := hid.peel hg
  cases h with
  | @aggregation input keys metrics having b' hn hdraws =>
      obtain ⟨hsource, hpredicates⟩ := (htable.of_aggregation hn).operand hg true true
      refine ⟨_, hsource, by rw [hdraws.clauses], ?_⟩
      exact List.forall_mem_append.mpr ⟨(hsource.joinTree hg).2, hpredicates⟩
  | @projection fs core input selections b' _ _ hfuses hcore hdraws =>
      obtain ⟨hinput, _⟩ := (hfuses.rests hg hs htable).of_projection hs hcore
      have hsorts := (hinput.chain Graph.follows_sort hg).2
      obtain ⟨hsource, hpredicates⟩ := hsorts.operand hg true true
      refine ⟨_, hsource, by simp [selecting, hdraws.clauses], ?_⟩
      exact List.forall_mem_append.mpr
        ⟨List.forall_mem_append.mpr ⟨(hsource.joinTree hg).2, hpredicates⟩, hpeeled⟩
  | @other b' haggregation hpushes hdraws =>
      -- what has been made over a reached table is an aggregation, or has no filters
      have hsource : g.Reaches root (g.peel id).table := by
        cases hid with
        | reached h => exact (h.peel hg).1
        | aggregation hn =>
            rw [Graph.peel_other hg (by rw [hn]; rfl)] at haggregation
            exact absurd hn (haggregation _ _ _ _)
        | projection hn =>
            rw [Graph.peel_other hg (by rw [hn]; rfl), Graph.isProjection, hn] at hpushes
            cases hpushes
      refine ⟨_, hsource, by simp [selecting, hdraws.clauses], ?_⟩
      exact List.forall_mem_append.mpr ⟨(hsource.joinTree hg).2, hpeeled⟩

/-- The tables of a block over reached tables are reached, and what is nested in it for them, or for
values, has been compiled from tables that rest on what is reached. -/
theorem Origin.reached (hg : g.WellFounded) (hs : g.Steady root) {b : Block}
    (h : Origin old g id b) (hid : g.Rests root id) :
  (∀ leaf ∈ b.clauses.leaves, g.Reaches root leaf)
    ∧ ∀ s ∈ b.nested, (s.kind = .table → g.Reaches root s.node) →
      ∃ table, g.Rests root table ∧ QuerySpec.compilation g table s.query
  := by
  obtain @⟨built, _, _, _, _, _, hbuilt, _, _, hfrom, hcompleted, _⟩ := h
  obtain ⟨source, hsource, hfrom', hpredicates⟩ := hbuilt.reached hg hs (rests_top hg hid)
  obtain rfl := Option.some.inj (hfrom.symm.trans hfrom')
  constructor
  · -- there are no rankings, and so no groups that are joined
    obtain ⟨node, joins, more, hclauses, hjoins, _, _, _, hmore⟩ := hcompleted.source
    have hranked : built.clauses.predicates.filter (isRanking g) = [] := by
      rw [List.filter_eq_nil_iff]
      intro p hp
      rw [hs.isRanking (hpredicates p hp)]
      exact Bool.false_ne_true
    rw [hmore hranked, List.append_nil] at hclauses
    have hleaves : b.clauses.leaves = (g.joinTree source).leaves := by
      rw [Clauses.leaves, hclauses, ← JoinTree.leaves_tables]
      exact congrArg _ (JoinClause.tables_of_lifts hjoins)
    rw [hleaves]
    exact (hsource.joinTree hg).1
  · intro s hnested hreached
    obtain ⟨table, _, hcompiled, hq⟩ := (hcompleted.nested s hnested).source
    refine ⟨table, ?_, hq⟩
    by_cases hkind : s.kind = .table
    · rw [hkind] at hcompiled
      cases hcompiled with
      | table => exact .reached (hreached hkind).body
    · obtain ⟨p, hp, hextracts⟩ := hcompleted.held s hnested hkind
      have hconfined : g.Confined root p := by
        obtain ⟨p₀, hp₀, hlifts⟩ := forall₂_exists hcompleted.predicates.flip p hp
        exact hlifts.confined hg hs (hpredicates p₀ (List.mem_of_mem_filter hp₀))
      have hvalue := hextracts.occurs.confined hg hconfined
      exact hcompiled.rests hg hkind hvalue

end Block

namespace QuerySpec

variable {g : Graph} {root id : NodeId}

/-- The tables of a block that has been compiled from a table over reached ones are reached, and
what is nested in it has been compiled from such tables. -/
theorem reached_of_compilation (hg : g.WellFounded) (hs : g.Steady root) {c : Clauses}
    {nested : List (Nested Query)} (h : compilation g id (.select c nested))
    (hid : g.Rests root id) :
  (∀ leaf ∈ c.leaves, g.Reaches root leaf)
    ∧ ∀ s ∈ nested, (s.kind = .table → g.Reaches root s.node) →
      ∃ table, g.Rests root table ∧ compilation g table s.query
  := by
  obtain ⟨_, _, _, _, _, _, _, _, hq⟩ | ⟨old, b, force, horigin, hq⟩ := origin_of_compilation hg h
  · cases hq
  · cases hq
    exact horigin.reached hg hs hid

/-- The operands of a union that has been compiled from a table over reached ones have been compiled
from such tables. -/
theorem rests_of_union (hg : g.WellFounded) {l r : Query} {distinct : Bool}
    (h : compilation g id (.union l r distinct)) (hid : g.Rests root id) :
  (∃ table, g.Rests root table ∧ compilation g table l)
    ∧ ∃ table, g.Rests root table ∧ compilation g table r
  := by
  obtain ⟨left, right, _, _, _, hn, hl, hr, hq⟩ | ⟨_, _, _, _, hq⟩ := origin_of_compilation hg h
  · cases hq
    have hreached := hid.reaches (fun _ _ _ _ h => by rw [hn] at h; cases h)
      (fun _ _ h => by rw [hn] at h; cases h)
    refine ⟨⟨left, .reached (hreached.child ?_), hl⟩, ⟨right, .reached (hreached.child ?_), hr⟩⟩
    · rw [hn]
      exact List.mem_cons_self
    · rw [hn]
      exact List.mem_cons_of_mem left List.mem_cons_self
  · cases hq

/-- A steady table is compiled to similar queries wherever it stands, along a relation in which each
handle that it reaches is related to itself. -/
theorem similar_of_compilation (hg : g.WellFounded) (hs : g.Steady root) {q q' : Query}
    (h : compilation g root q) (h' : compilation g root q') :
  ∃ (S : Matching) (p p' : Query), Relator.BiUnique S ∧ (∀ i, g.Reaches root i → S i i)
    ∧ p.Similar S p' ∧ compilation g root p ∧ (q = p ∨ q = Block.forceAliases p)
    ∧ (q' = p' ∨ q' = Block.forceAliases p')
  := by
  obtain ⟨n, enclosing, g₀, g₁, p, hg₀, hroot, hrun, e, hq⟩ := h
  obtain ⟨n', enclosing', g₀', g₁', p', hg₀', hroot', hrun', e', hq'⟩ := h'
  obtain ⟨hg₁, e₁, hp⟩ := (compilation_meets n enclosing root g₀ hg₀ hroot).result p g₁ hrun
  obtain ⟨_, e₁', _⟩ := (compilation_meets n' enclosing' root g₀' hg₀' hroot').result p' g₁' hrun'
  -- only successes are compared, as there are no existence tests
  let _ : Comparison := ⟨False⟩
  have hnone : ¬ Comparison.entire := id
  let R : Matching := fun i j => g₀.Reaches root i ∧ j = i
  have hsimilar : g₀.Similar R g₀' :=
    hs.similar hg₀ hg₀' (e₁.trans e) (e₁'.trans e') hroot hroot'
  have hinside : CompilesInside R (queryWithin n) (queryWithin n') :=
    parallel_queryWithin n fun hentire => absurd hentire hnone
  have henclosing : Enclosing R enclosing enclosing' := fun hentire => absurd hentire hnone
  have hparallel := hinside (le_refl R) henclosing (le_refl R) hsimilar ⟨.root, rfl⟩
  rw [Analysis.Parallel, hrun, hrun'] at hparallel
  cases hparallel with
  | ok h =>
      obtain ⟨S, hle, hgraphs, hqueries⟩ := h
      refine ⟨S, p, p', hgraphs.biUnique, ?_, hqueries, ?_, hq, hq'⟩
      · exact fun i hi => hle _ _ ⟨hi.restrict hg₀ (e₁.trans e) hroot, rfl⟩
      · exact compilation_persistent root hg₁ hg e hp

/-- Every nested query of a compiled query has been compiled from the table that it stands for. -/
theorem compiled_of_compilation (hg : g.WellFounded) {q : Query} (h : compilation g id q) :
  ∀ s ∈ q.allNested, s.Compiled compilation g
  := by
  have heverywhere : q.Everywhere fun b => ∀ s ∈ b.nested, s.Compiled compilation g := by
    refine everywhere_of_compilation hg ?_ q id h
    rintro old node b force ⟨_, _, _, _, _, _, _, hcompleted, _⟩
    exact hcompleted.nested
  intro s hs
  obtain ⟨outer, b, hb, hs⟩ := Query.exists_holds_of_mem_allNested hs
  exact heverywhere outer b hb s hs

/-- Every nested query of the query of an expression has been compiled. -/
theorem compiled_of_rooted (hg : g.WellFounded) {q : Query} (h : Rooted compilation g q) :
  ∀ s ∈ q.allNested, s.Compiled compilation g
  := by
  cases h with
  | table _ hq => exact compiled_of_compilation hg hq
  | constant _ _ => exact nofun

end QuerySpec

end RelSql
