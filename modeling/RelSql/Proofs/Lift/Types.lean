import RelSql.Proofs.Graph.Comparison
import RelSql.Proofs.Lift.Fates
import RelSql.Proofs.Renaming.Typing

/-!
# Types of lifted values

A column is lifted to a column of its field, or to a value of the type of its field, so a lifted
value reads fields of tables, and has the type of the value that is lifted.  The type of an
operation with a duration is that of the other operand, though, and for this the duration has to
be written as the right operand.  A column that stands for a duration is an integer there, until it
is lifted.
-/

namespace RelSql

open List

/-- Whether a node is a duration. -/
def Node.isInterval : Node → Bool
  | .interval _ _ => true
  | _ => false

theorem Node.isInterval_iff {n : Node} :
  n.isInterval = true ↔ ∃ unit count, n = .interval unit count
  := by
  cases n <;> simp [isInterval]

@[simp]
theorem Node.isInterval_shape (n : Node) :
  n.shape.isInterval = n.isInterval
  := by
  cases n
  case contains a options negated => cases options <;> rfl
  all_goals rfl

/-- Whether a value is a duration. -/
def Algebra.durations : Algebra Bool where
  column _ _ := false
  count _ := false
  table _ := false
  operator n _ := n.isInterval

namespace Graph

variable {g : Graph} {id : NodeId}

theorem denote_durations (hg : g.WellFounded) (id : NodeId) :
  g.denote .durations id = (g.node id).isInterval
  := by
  rcases (g.node id).kinds with ⟨t, name, hn⟩ | ⟨t, hn⟩ | hn | hn
  · rw [denote_column hg _ hn, hn]
    rfl
  · rw [denote_countStar hg _ hn, hn]
    rfl
  · rw [denote_relation hg _ hn]
    cases hnode : g.node id <;> rw [hnode] at hn <;> first | rfl | cases hn
  · rw [denote_operator hg _ hn]
    exact Node.isInterval_shape _

/-- A value has no schema. -/
theorem schema_value (hg : g.WellFounded) (hr : g.isRelation id = false) :
  g.schema id = .error (.notATable id)
  := by
  rw [isRelation] at hr
  rw [Graph.schema_eq hg, schemaStep]
  cases hn : g.node id <;> rw [hn] at hr <;> first | rfl | cases hr

end Graph

namespace Folding

variable {s : Folding} {mode : LiftMode} {g g' : Graph} {id l : NodeId}

/-- Lifting a value involves the value itself, its operands, and what its columns stand for. -/
inductive Involves (s : Folding) (mode : LiftMode) (g : Graph) : NodeId → NodeId → Prop where
  | refl (v : NodeId) : Involves s mode g v v
  | operand {v c o : NodeId} (hv : (g.node v).isOperator = true) (hc : c ∈ (g.node v).children)
      (h : Involves s mode g c o) :
    Involves s mode g v o
  | column {v t w o : NodeId} {name : String} (hn : g.node v = .column t name)
      (hs : StandsFor s mode g t name w) (h : Involves s mode g w o) :
    Involves s mode g v o

/-- Of the arithmetic that lifting a value involves, the right operands that become durations are
durations already. -/
def ShowsDurations (s : Folding) (mode : LiftMode) (g : Graph) (v : NodeId) : Prop :=
  ∀ o op left right, s.Involves mode g v o → g.node o = .binary op left right →
    (op.isComparison || op.isLogical) = false → (s.resolve mode .durations g right).value = true →
    (g.node right).isInterval = true

/-- What lifting a value involves shows its durations, too. -/
theorem ShowsDurations.mono {v w : NodeId} (h : s.ShowsDurations mode g v)
    (hw : ∀ o, s.Involves mode g w o → s.Involves mode g v o) :
  s.ShowsDurations mode g w
  := fun o op left right ho => h o op left right (hw o ho)

/-- A duration is lifted to itself. -/
theorem resolve_durations (hg : g.WellFounded) (h : (g.node id).isInterval = true) :
  (s.resolve mode .durations g id).value = true
  := by
  have hoperator : (g.node id).isOperator = true := by
    obtain ⟨unit, count, hn⟩ := Node.isInterval_iff.mp h
    rw [hn]
    rfl
  rw [Lift.resolve_value_eq hg, resolveValue_operator _ _ hoperator]
  exact (Node.isInterval_shape _).trans h

/-- A lifted operator has the type of the operator when its operands have those of its operands. -/
theorem Lifts.operator_agrees (e : g.Extends g') (hg : g.WellFounded) (hg' : g'.WellFounded)
    (hid : g.Has id) (ho : (g.node id).isOperator = true) (h : s.Lifts mode g' id l)
    (hshows : s.ShowsDurations mode g id)
    (hoperands : ∀ c ∈ (g.node id).children, ∀ l, s.Lifts mode g' c l →
      (g.typing c).Agrees (g'.typing l)) :
  (g.typing id).Agrees (g'.typing l)
  := by
  have hnode := e.node_eq hid
  obtain ⟨ho', hshape, hchildren⟩ := h.operands hg' (by rwa [hnode])
  rw [hnode] at hshape hchildren
  have hsimilar : Node.Similar (s.Lifts mode g') (g.node id) (g'.node l) :=
    Node.similar_of_shape hshape.symm hchildren
  constructor
  · show Agree _ _ (g.schema id) (g'.schema l)
    rw [Graph.schema_value hg (Node.isRelation_of_isOperator ho),
      Graph.schema_value hg' (Node.isRelation_of_isOperator ho')]
    exact .error rfl
  · show Agree _ _ (g.dataType id) (g'.dataType l)
    rw [Graph.dataType_eq hg, Graph.dataType_eq hg']
    apply Graph.Labelled.dataTypeStep_of_durations (R := s.Lifts mode g')
    · exact hsimilar.imp fun c hc d _ hcd => ⟨hcd, hoperands c hc d hcd⟩
    · intro op left right left' right' hn hn' hop
      rw [← Node.isInterval_iff, ← Node.isInterval_iff]
      have hright : s.Lifts mode g' right right' := by
        rw [hn, hn'] at hsimilar
        cases hsimilar with
        | binary _ _ hright => exact hright
      have hhas : g.Has right := by
        apply hg.has_child hid
        rw [hn]
        simp [Node.children]
      have hlifted : (g'.node right').isInterval = (s.resolve mode .durations g right).value := by
        rw [← Graph.denote_durations hg', hright.denote, resolve_extends e hg hg' hhas]
      rw [hlifted]
      exact ⟨resolve_durations hg, hshows id op left right (.refl id) hn hop⟩

/-- What a column is lifted to has the type of its field, and what a value is lifted to has its
type or is wrong in the same way. -/
theorem lifts_agree (e : g.Extends g') (hg : g.WellFounded) (hg' : g'.WellFounded)
    (hreads : g.ReadsFields) (hnames : g.NamesItems s.fused) (hid : g.Has id) :
  (∀ name f l, g.field? id name = some f → s.LiftsColumn mode g' id name l →
      (∀ v, s.StandsFor mode g id name v → s.ShowsDurations mode g v) →
      g'.dataType l = .ok f.type)
    ∧ ∀ l, s.Lifts mode g' id l → s.ShowsDurations mode g id →
      (g.typing id).Agrees (g'.typing l)
  := by
  obtain ⟨i⟩ := id
  induction i using Nat.strongRecOn with
  | ind i ih =>
      have hbelow : ∀ {c : NodeId}, c.index < i → g.Has c := fun hc => Nat.lt_trans hc hid
      constructor
      · intro name f l hf hl hshows
        have hlt := fate_lt hg s mode ⟨i⟩ name
        have hfields := field?_fate hg hnames mode hf
        have hfate := hl.fate e hg hg' hid
        split at hfate
        case h_1 =>
            rw [← e.field?_eq hg hg' hid] at hf
            exact Graph.dataType_column hg' hfate hf
        case h_2 u hu =>
            apply (ih u.index (hlt.1 u hu) (hbelow (hlt.1 u hu))).1 name f l (hfields.1 u hu) hfate
            exact fun v hv => hshows v (.column hu hv)
        case h_3 v hv =>
            have htype := ((ih v.index (hlt.2 v hv) (hbelow (hlt.2 v hv))).2 l hfate
              (hshows v (.value hv))).dataType
            exact ((Agree.iff_eq.mp htype).1 _).mp (hfields.2 v hv)
      · intro l hl hshows
        have hchild : ∀ {c : NodeId}, c ∈ (g.node ⟨i⟩).children → c.index < i :=
          fun hc => hg.child_lt hc
        have hnode := e.node_eq hid
        rcases (g.node ⟨i⟩).kinds with ⟨t, name, hn⟩ | ⟨t, hn⟩ | hn | hn
        · rw [hn] at hchild
          have ht := hchild List.mem_cons_self
          obtain ⟨f, hf⟩ := Graph.exists_field? (hreads.hasField hn)
          have htype : g'.dataType l = .ok f.type := by
            apply (ih t.index ht (hbelow ht)).1 name f l hf (hl.column hg' (hnode.trans hn))
            exact fun v hv => hshows.mono fun o ho => .column hn hv ho
          constructor
          · show Agree _ _ (g.schema ⟨i⟩) (g'.schema l)
            rw [Graph.schema_value hg (by rw [Graph.isRelation, hn]; rfl),
              Graph.schema_value hg' (Graph.isRelation_of_dataType hg' htype)]
            exact .error rfl
          · show Agree _ _ (g.dataType ⟨i⟩) (g'.dataType l)
            rw [Graph.dataType_column hg hn hf, htype]
            exact .ok rfl
        · have hn' := hl.countStar hg' (hnode.trans hn)
          constructor
          · show Agree _ _ (g.schema ⟨i⟩) (g'.schema l)
            rw [Graph.schema_value hg (by rw [Graph.isRelation, hn]; rfl),
              Graph.schema_value hg' (by rw [Graph.isRelation, hn']; rfl)]
            exact .error rfl
          · show Agree _ _ (g.dataType ⟨i⟩) (g'.dataType l)
            rw [Graph.dataType_eq hg, Graph.dataType_eq hg', Graph.dataTypeStep,
              Graph.dataTypeStep, hn, hn']
            exact .ok rfl
        · have hrelation : g'.isRelation ⟨i⟩ = true := (e.isRelation_eq hid).trans hn
          rw [hl.relation hg' hrelation, e.typing_eq hg hg' hid]
          exact ⟨Agree.iff_eq.mpr ⟨fun _ => .rfl, fun _ => .rfl⟩,
            Agree.iff_eq.mpr ⟨fun _ => .rfl, fun _ => .rfl⟩⟩
        · apply Lifts.operator_agrees e hg hg' hid hn hl hshows
          intro c hc l' hl'
          apply (ih c.index (hchild hc) (hbelow (hchild hc))).2 l' hl'
          exact hshows.mono fun o ho => .operand hn hc ho

/-- A lifted value has the type of the value. -/
theorem Lifts.dataType_iff (e : g.Extends g') (hg : g.WellFounded) (hg' : g'.WellFounded)
    (hreads : g.ReadsFields) (hnames : g.NamesItems s.fused) (hid : g.Has id) (h : s.Lifts mode g' id l)
    (hshows : s.ShowsDurations mode g id) (type : DataType) :
  g.dataType id = .ok type ↔ g'.dataType l = .ok type
  := (Agree.iff_eq.mp ((lifts_agree e hg hg' hreads hnames hid).2 l h hshows).dataType).1 type

/-! ### What lifted values read -/

/-- What a column of a field resolves to reads fields, and so does what a value resolves to. -/
theorem reads_fields (hg : g.WellFounded) (hreads : g.ReadsFields) (hnames : g.NamesItems s.fused)
    (id : NodeId) :
  (∀ name, g.hasField id name = true →
      ∀ c ∈ (s.resolve mode .reads g id).column name, g.hasField c.1 c.2 = true)
    ∧ ∀ c ∈ (s.resolve mode .reads g id).value, g.hasField c.1 c.2 = true
  := by
  obtain ⟨i⟩ := id
  induction i using Nat.strongRecOn with
  | ind i ih =>
      constructor
      · intro name hfield
        obtain ⟨f, hf⟩ := Graph.exists_field? hfield
        have hlt := fate_lt hg s mode ⟨i⟩ name
        have hfields := field?_fate hg hnames mode hf
        rw [resolve_fate hg]
        cases hfate : s.fate mode g ⟨i⟩ name with
        | kept => exact List.forall_mem_singleton.mpr hfield
        | column u =>
            apply (ih u.index (hlt.1 u hfate)).1 name
            exact Graph.hasField_of_field? (hfields.1 u hfate)
        | value v => exact (ih v.index (hlt.2 v hfate)).2
      · rw [Lift.resolve_value_eq hg]
        rcases (g.node ⟨i⟩).kinds with ⟨t, name, hn⟩ | ⟨t, hn⟩ | hn | hn
        · rw [resolveValue, hn]
          apply (ih t.index _).1 name (hreads.hasField hn)
          apply hg.child_lt
          rw [hn]
          exact List.mem_singleton_self t
        · rw [resolveValue, hn]
          exact fun c hc => absurd hc List.not_mem_nil
        · rw [resolveValue_relation _ _ hn]
          exact fun c hc => absurd hc List.not_mem_nil
        · rw [resolveValue_operator _ _ hn]
          intro c hc
          obtain ⟨_, hpart, hmem⟩ := List.mem_flatten.mp hc
          obtain ⟨d, hd, rfl⟩ := List.mem_map.mp hpart
          exact (ih d.index (hg.child_lt hd)).2 c hmem

/-- A lifted value reads fields of tables. -/
theorem Lifts.reads_fields (e : g.Extends g') (hg : g.WellFounded) (hg' : g'.WellFounded)
    (hreads : g.ReadsFields) (hnames : g.NamesItems s.fused) (hid : g.Has id)
    (h : s.Lifts mode g' id l) :
  ∀ c ∈ g'.denote .reads l, g'.hasField c.1 c.2 = true
  := by
  intro c hc
  rw [h.denote, resolve_extends e hg hg' hid] at hc
  have hfield := (Folding.reads_fields hg hreads hnames id).2 c hc
  rwa [e.hasField_eq hg hg' (Graph.has_of_hasField hg hfield)]

end Folding

namespace Lift

variable {s : Folding} {mode : LiftMode} {g g' : Graph} {v l : NodeId}

/-- Lifting preserves types, in a graph whose columns name fields of their tables, through
projections and aggregations that select tables and values with names.  The columns of a lifted value
name fields of their tables.  It has the type of the value if the arithmetic that lifting the value
involves shows its durations. -/
theorem value_typed (hg : g.WellFounded) (hreads : g.ReadsFields) (hnames : g.NamesItems s.fused)
    (hv : g.Has v) (hl : run (value s mode v) g = (l, g')) :
  (∀ c ∈ g'.columns l, ∃ t name, g'.node c = .column t name ∧ g'.hasField t name = true)
    ∧ (s.ShowsDurations mode g v → ∀ type, g.dataType v = .ok type ↔ g'.dataType l = .ok type)
  := by
  obtain ⟨hg', e, hlifts⟩ := run_spec (keeps_value (sound_empty hg s mode) hv)
  rw [hl] at hg' e hlifts
  constructor
  · intro c hc
    obtain ⟨t, name, hn⟩ := Graph.node_of_mem_columns hg' hlifts.target hc
    refine ⟨t, name, hn, ?_⟩
    apply hlifts.reads_fields e hg hg' hreads hnames hv (t, name)
    exact (Graph.mem_reads_iff hg' hlifts.target t name).mpr ⟨c, hc, hn⟩
  · exact hlifts.dataType_iff e hg hg' hreads hnames hv

/-- The last day of a period that begins on the date of a row, after a filter and a join, and the
day after it. -/
def periodEnds : Graph := ⟨#[
  .table ⟨some "t", none, ⟨[⟨"x", .date⟩]⟩⟩,
  .table ⟨some "u", none, ⟨[⟨"x", .int32⟩, ⟨"z", .int32⟩]⟩⟩,
  .column ⟨0⟩ "x",
  .unary .notNull ⟨2⟩,
  .selection ⟨0⟩ [⟨3⟩],
  .join .left ⟨4⟩ ⟨1⟩ [],
  .column ⟨5⟩ "x",
  .interval .month 1,
  .binary .add ⟨6⟩ ⟨7⟩,
  .named ⟨8⟩ "end",
  .projection ⟨5⟩ [⟨9⟩, ⟨5⟩],
  .column ⟨10⟩ "end",
  .interval .day 1,
  .binary .add ⟨11⟩ ⟨12⟩]⟩

/-- The day is the date of the row, a month and a day later, and a date like the one that is given
as a day after the end of the period. -/
theorem value_typed_periodEnds :
  ∃ l g', run (value (.of [⟨4⟩, ⟨5⟩, ⟨10⟩]) .substitute ⟨13⟩) periodEnds = (l, g')
    ∧ periodEnds.dataType ⟨13⟩ = .ok .date ∧ g'.dataType l = .ok .date
    ∧ g'.denote .reads l = [(⟨0⟩, "x")]
  := by
  obtain ⟨l, g', hl⟩ : ∃ l g', run (value (.of [⟨4⟩, ⟨5⟩, ⟨10⟩]) .substitute ⟨13⟩) periodEnds
      = (l, g') := ⟨_, _, rfl⟩
  have htype : periodEnds.dataType ⟨13⟩ = .ok .date := by decide
  have hread : g'.denote .reads l = [(⟨0⟩, "x")] := by
    have h : (run (value (.of [⟨4⟩, ⟨5⟩, ⟨10⟩]) .substitute ⟨13⟩) periodEnds).2.denote .reads
        (run (value (.of [⟨4⟩, ⟨5⟩, ⟨10⟩]) .substitute ⟨13⟩) periodEnds).1 = [(⟨0⟩, "x")] := by
      decide
    rwa [hl] at h
  have hshows : (Folding.of [⟨4⟩, ⟨5⟩, ⟨10⟩]).ShowsDurations .substitute periodEnds ⟨13⟩ := by
    intro o op left right _ hn _ _
    have hright : ∀ n ∈ periodEnds.nodes.toList, ∀ op left right, n = .binary op left right →
        right = ⟨7⟩ ∨ right = ⟨12⟩ := by
      simp [periodEnds]
    have hmem : periodEnds.node o ∈ periodEnds.nodes.toList := by
      rw [Graph.nodes_eq]
      exact List.mem_map_of_mem (Graph.mem_handles.mpr (Graph.has_of_node hn nofun))
    rcases hright _ hmem op left right hn with rfl | rfl
    · rfl
    · rfl
  obtain ⟨_, htyped⟩ := value_typed (by decide) (by decide) (by decide)
    (by decide) hl
  exact ⟨l, g', hl, htype, (htyped hshows .date).mp htype, hread⟩

/-- A date and a period that has a name, and their sum. -/
def namedPeriod : Graph := ⟨#[
  .table ⟨some "t", none, ⟨[⟨"x", .date⟩]⟩⟩,
  .column ⟨0⟩ "x",
  .interval .month 1,
  .named ⟨2⟩ "period",
  .projection ⟨0⟩ [⟨1⟩, ⟨3⟩],
  .column ⟨4⟩ "x",
  .column ⟨4⟩ "period",
  .binary .add ⟨5⟩ ⟨6⟩]⟩

/-- The column of a period is an integer, and so is a date to which it is added, until the column is
lifted. -/
theorem dataType_of_namedPeriod :
  namedPeriod.WellFounded ∧ namedPeriod.ReadsFields ∧ namedPeriod.NamesItems namedPeriod.handles
    ∧ namedPeriod.dataType ⟨7⟩ = .ok .int64
    ∧ (run (value (.of [⟨4⟩]) .substitute ⟨7⟩) namedPeriod).2.dataType
        (run (value (.of [⟨4⟩]) .substitute ⟨7⟩) namedPeriod).1 = .ok .date
  := by
  decide

end Lift

end RelSql
