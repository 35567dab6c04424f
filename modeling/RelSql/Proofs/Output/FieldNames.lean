import RelSql.Proofs.Block.Table
import RelSql.Proofs.Output.Firsts

/-!
# Names of fields

The names of the fields of a table can be read off the graph, whatever the types of its values
are.  Where a table has a schema, they are those of the schema.  Operators that take rows away
or order them keep the names.
-/

namespace RelSql

namespace Schema

/-- The names of the fields. -/
def names (s : Schema) : List String :=
  s.fields.map Field.name

/-- The names of the first field of each name are the names that are not among `seen`. -/
theorem names_firsts (seen : List String) (fields : List Field) :
  (firsts seen fields).map Field.name
    = (fields.map Field.name).eraseDups.filter fun name => !seen.contains name
  := by
  induction fields generalizing seen with
  | nil => rfl
  | cons f rest ih =>
      rw [firsts, List.map_cons, eraseDups_cons_eq, List.filter_cons, List.filter_filter]
      split
      case isTrue h =>
          rw [ih, if_neg (by simpa using h)]
          apply List.filter_congr
          intro name _
          by_cases hname : name = f.name
          · simp [hname, h]
          · simp [hname]
      case isFalse h =>
          rw [List.map_cons, ih, if_pos (by simpa using h)]
          congr 1
          apply List.filter_congr
          intro name _
          by_cases hname : name = f.name <;> simp [hname]

/-- Of several fields with one name the first one counts. -/
theorem names_ofFields (fields : List Field) :
  (ofFields fields).names = (fields.map Field.name).eraseDups
  := by
  rw [names, ofFields, names_firsts, List.filter_eq_self.mpr]
  exact fun _ _ => rfl

end Schema

/-- The names of the fields of a physical table. -/
def Node.tableNames : Node → List String
  | .table t => t.schema.names
  | _ => []

namespace Graph

variable {g g' : Graph} {id t : NodeId}

/-- The fields of every physical table have distinct names. -/
def HasDistinctFields (g : Graph) : Prop :=
  ∀ n ∈ g.nodes.toList, n.tableNames.Nodup

instance : Decidable g.HasDistinctFields :=
  inferInstanceAs (Decidable (∀ n ∈ g.nodes.toList, n.tableNames.Nodup))

/-- The name of a value as a field. -/
def fieldName (g : Graph) (value : NodeId) : String :=
  (g.name? value).getD defaultName

/-- The names that an item of a projection stands for: those of a table, or the one of a
value. -/
def itemNames (g : Graph) (names : NodeId → List String) (item : NodeId) : List String :=
  if g.isRelation item then names item else [g.fieldName item]

/-- The names of the fields of a table from those of the tables below it. -/
def fieldNamesStep (g : Graph) (below : NodeId → List String) (id : NodeId) : List String :=
  match g.node id with
  | .table t => t.schema.names
  | .view t | .selection t _ | .sort t _ | .limit t _ _ | .distinct t | .union t _ _ => below t
  | .projection _ items => (items.flatMap (g.itemNames below)).eraseDups
  | .aggregation _ keys metrics _ =>
    ((keys ++ metrics).flatMap (g.itemNames below)).eraseDups
  | .join kind l r _ => if kind.leftOnly then below l else (below l ++ below r).eraseDups
  | _ => []

/-- The names of the fields of a table. -/
def fieldNames (g : Graph) : NodeId → List String :=
  NodeId.recurse (fun _ => []) g.fieldNamesStep

/-- The names that an item of a select list stands for. -/
def selectedNames (g : Graph) (item : NodeId) : List String :=
  g.itemNames g.fieldNames item

attribute [local simp] fieldNamesStep

theorem fieldNamesStep_stable :
  NodeId.StableStep fieldNamesStep
  := by
  constructor
  · intro g hg f f' id h
    have hc : ∀ c ∈ (g.node id).children, f c = f' c := fun c hc => h c (hg.child_lt hc)
    have hitems : ∀ items ⊆ (g.node id).children,
        items.flatMap (g.itemNames f) = items.flatMap (g.itemNames f') := by
      intro items hitems
      apply List.flatMap_congr
      intro item hitem
      rw [itemNames, itemNames, hc item (hitems hitem)]
    rw [fieldNamesStep, fieldNamesStep]
    cases hn : g.node id <;> rw [hn] at hc hitems
    case view | selection | sort | limit | distinct | union => exact hc _ List.mem_cons_self
    case projection t items => simp only [hitems items (List.subset_cons_self _ _)]
    case aggregation t keys metrics having =>
      simp only [hitems (keys ++ metrics) fun c h =>
        List.mem_cons_of_mem t (List.mem_append_left having h)]
    case join kind l r predicates =>
      simp only [hc l List.mem_cons_self, hc r (List.mem_cons_of_mem l List.mem_cons_self)]
  · intro g g' below id hg _ e hid
    have hitems : ∀ items ⊆ (g.node id).children,
        items.flatMap (g'.itemNames below) = items.flatMap (g.itemNames below) := by
      intro items hitems
      apply List.flatMap_congr
      intro item hitem
      have hhas := hg.has_child hid (hitems hitem)
      rw [itemNames, itemNames, fieldName, fieldName, e.isRelation_eq hhas, e.name?_eq hhas]
    rw [fieldNamesStep, fieldNamesStep, e.node_eq hid]
    cases hn : g.node id <;> rw [hn] at hitems
    case projection t items => simp only [hitems items (List.subset_cons_self _ _)]
    case aggregation t keys metrics having =>
      simp only [hitems (keys ++ metrics) fun c h =>
        List.mem_cons_of_mem t (List.mem_append_left having h)]

theorem fieldNames_eq (hg : g.WellFounded) (id : NodeId) :
  g.fieldNames id = g.fieldNamesStep g.fieldNames id
  := NodeId.recurse_eq (fieldNamesStep_stable.isLocal hg) id

/-- A table keeps the names of its fields. -/
theorem Extends.fieldNames_eq (e : g.Extends g') (hg : g.WellFounded) (hg' : g'.WellFounded)
    (hid : g.Has id) :
  g'.fieldNames id = g.fieldNames id
  := fieldNamesStep_stable.recurse_eq hg hg' e hid _

theorem selectedNames_relation (hr : g.isRelation id = true) :
  g.selectedNames id = g.fieldNames id
  := by
  rw [selectedNames, itemNames, if_pos hr]

theorem selectedNames_value (hr : g.isRelation id = false) :
  g.selectedNames id = [g.fieldName id]
  := by
  rw [selectedNames, itemNames, hr]
  rfl

theorem fieldNames_projection (hg : g.WellFounded) {items : List NodeId}
    (hn : g.node id = .projection t items) :
  g.fieldNames id = (items.flatMap g.selectedNames).eraseDups
  := by
  rw [Graph.fieldNames_eq hg, fieldNamesStep, hn]
  rfl

theorem fieldNames_aggregation (hg : g.WellFounded) {keys metrics having : List NodeId}
    (hn : g.node id = .aggregation t keys metrics having) :
  g.fieldNames id = ((keys ++ metrics).flatMap g.selectedNames).eraseDups
  := by
  rw [Graph.fieldNames_eq hg, fieldNamesStep, hn]
  rfl

theorem fieldNames_join (hg : g.WellFounded) {kind : JoinKind} {l r : NodeId}
    {predicates : List NodeId} (hn : g.node id = .join kind l r predicates) :
  g.fieldNames id = if kind.leftOnly then g.fieldNames l
    else (g.fieldNames l ++ g.fieldNames r).eraseDups
  := by
  rw [Graph.fieldNames_eq hg]
  simp [hn]

/-! ### Schemas -/

/-- The type of a node from the typing of its children. -/
theorem dataType_eq (hg : g.WellFounded) (id : NodeId) :
  g.dataType id = g.dataTypeStep g.typing id
  := congrArg Typing.dataType (NodeId.recurse_eq (typingStep_stable.isLocal hg) id)

/-- What has a type is no table. -/
theorem isRelation_of_dataType (hg : g.WellFounded) {type : DataType}
    (h : g.dataType id = .ok type) :
  g.isRelation id = false
  := by
  rw [Graph.dataType_eq hg, dataTypeStep] at h
  rw [isRelation]
  cases hn : g.node id <;> rw [hn] at h <;> first | rfl | cases h

/-- What has a schema is a table. -/
theorem isRelation_of_schema (hg : g.WellFounded) {s : Schema}
    (h : g.schema id = .ok s) :
  g.isRelation id = true
  := by
  rw [Graph.schema_eq hg, schemaStep] at h
  rw [isRelation]
  cases hn : g.node id <;> rw [hn] at h <;> first | rfl | cases h

/-- What has a name is no table. -/
theorem isRelation_of_name? {name : String} (h : g.name? id = some name) :
  g.isRelation id = false
  := by
  rw [name?] at h
  rw [isRelation]
  cases hn : g.node id <;> rw [hn] at h <;> first | rfl | cases h

/-- The field of a value has its name, and the value is no table. -/
theorem name_of_outputField (hg : g.WellFounded) {value : NodeId} {f : Field}
    (h : g.outputField g.typing value = .ok f) :
  g.selectedNames value = [f.name]
  := by
  obtain ⟨type, htype, hf⟩ := exists_of_bind_eq_ok h
  cases hf
  exact selectedNames_value (isRelation_of_dataType hg htype)

/-- The fields of the items of a list are those of one after the other. -/
theorem names_of_mapM {α : Type} {f : NodeId → Except GraphError α} {fields : α → List Field}
    {items : List NodeId} {parts : List α} (hmap : items.mapM f = .ok parts)
    (h : ∀ item ∈ items, ∀ part, f item = .ok part →
      (fields part).map Field.name = g.selectedNames item) :
  (parts.flatMap fields).map Field.name = items.flatMap g.selectedNames
  := by
  induction items generalizing parts with
  | nil =>
      cases hmap
      rfl
  | cons item rest ih =>
      rw [List.mapM_cons] at hmap
      obtain ⟨part, hpart, hmap⟩ := exists_of_bind_eq_ok hmap
      obtain ⟨parts', hparts, hret⟩ := exists_of_bind_eq_ok hmap
      cases hret
      rw [List.flatMap_cons, List.flatMap_cons, List.map_append,
        h item List.mem_cons_self part hpart,
        ih hparts fun i hi => h i (List.mem_cons_of_mem item hi)]

/-- The names of the fields of a table are those of its schema. -/
theorem fieldNames_of_schema (hg : g.WellFounded) {s : Schema} (h : g.schema id = .ok s) :
  g.fieldNames id = s.names
  := by
  obtain ⟨i⟩ := id
  induction i using Nat.strongRecOn generalizing s with
  | ind i ih =>
      have hbelow : ∀ c ∈ (g.node ⟨i⟩).children, ∀ {s'}, (g.typing c).schema = .ok s' →
          g.fieldNames c = s'.names := fun c hc _ h' => ih c.index (hg.child_lt hc) h'
      rw [Graph.fieldNames_eq hg, fieldNamesStep]
      rw [Graph.schema_eq hg, schemaStep] at h
      cases hn : g.node ⟨i⟩ <;> rw [hn] at h hbelow
      case table t =>
        cases h
        rfl
      case view | selection | sort | limit | distinct | union =>
        exact hbelow _ List.mem_cons_self h
      case projection t items =>
        obtain ⟨parts, hparts, hret⟩ := exists_of_bind_eq_ok h
        cases hret
        rw [Schema.names_ofFields, ← List.flatMap_id, names_of_mapM hparts]
        · rfl
        intro item hitem part hpart
        rw [itemFields] at hpart
        split at hpart
        case isTrue hr =>
            obtain ⟨s', hs', hret⟩ := exists_of_bind_eq_ok hpart
            cases hret
            rw [selectedNames_relation hr, hbelow item (List.mem_cons_of_mem t hitem) hs']
            rfl
        case isFalse hr =>
            obtain ⟨f, hf, hret⟩ := exists_of_bind_eq_ok hpart
            cases hret
            rw [name_of_outputField hg hf]
            rfl
      case aggregation t keys metrics having =>
        obtain ⟨fields, hfields, hret⟩ := exists_of_bind_eq_ok h
        cases hret
        have hsingle : (fields.flatMap fun f => [f]).map Field.name
            = (keys ++ metrics).flatMap g.selectedNames :=
          names_of_mapM hfields fun item _ f hf => (name_of_outputField hg hf).symm
        rw [List.flatMap_singleton'] at hsingle
        rw [Schema.names_ofFields, hsingle]
        rfl
      case join kind l r predicates =>
        obtain ⟨left, hleft, h⟩ := exists_of_bind_eq_ok h
        have hl := hbelow l List.mem_cons_self hleft
        split at h
        case isTrue hkind =>
            cases h
            simp only [hkind, if_true]
            exact hl
        case isFalse hkind =>
            obtain ⟨right, hright, hret⟩ := exists_of_bind_eq_ok h
            cases hret
            have hr := hbelow r (List.mem_cons_of_mem l List.mem_cons_self) hright
            simp only [hkind, hl, hr, Schema.merge, Schema.names_ofFields, List.map_append]
            rfl
      all_goals cases h

/-- The fields of a table have distinct names when those of physical tables do. -/
theorem nodup_fieldNames (hg : g.WellFounded) (hdistinct : g.HasDistinctFields) (id : NodeId) :
  (g.fieldNames id).Nodup
  := by
  obtain ⟨i⟩ := id
  induction i using Nat.strongRecOn with
  | ind i ih =>
      have hbelow : ∀ c ∈ (g.node ⟨i⟩).children, (g.fieldNames c).Nodup :=
        fun c hc => ih c.index (hg.child_lt hc)
      rw [Graph.fieldNames_eq hg, fieldNamesStep]
      cases hn : g.node ⟨i⟩ <;> rw [hn] at hbelow
      case table t =>
        apply hdistinct (.table t)
        rw [nodes_eq, ← hn]
        exact List.mem_map_of_mem (mem_handles.mpr (has_of_node hn nofun))
      case view | selection | sort | limit | distinct | union =>
        exact hbelow _ List.mem_cons_self
      case projection => exact nodup_eraseDups _
      case aggregation => exact nodup_eraseDups _
      case join kind l r predicates =>
        simp only
        split
        · exact hbelow l List.mem_cons_self
        · exact nodup_eraseDups _
      all_goals exact List.nodup_nil

/-! ### Operators that keep the fields -/

/-- Whether an operator gives the fields of the next one of a chain. -/
def Keeping (next? : Node → Option NodeId) : Prop :=
  ∀ {g : Graph} {id t : NodeId}, g.WellFounded → next? (g.node id) = some t →
    g.fieldNames id = g.fieldNames t

theorem keeping_selection :
  Keeping selectionInput?
  := by
  intro g id t hg h
  rw [Graph.fieldNames_eq hg, fieldNamesStep]
  cases hn : g.node id <;> rw [hn] at h <;> cases h
  rfl

theorem keeping_sort :
  Keeping sortInput?
  := by
  intro g id t hg h
  rw [Graph.fieldNames_eq hg, fieldNamesStep]
  cases hn : g.node id <;> rw [hn] at h <;> cases h
  rfl

theorem keeping_limit :
  Keeping limitInput?
  := by
  intro g id t hg h
  rw [Graph.fieldNames_eq hg, fieldNamesStep]
  cases hn : g.node id <;> rw [hn] at h <;> cases h
  rfl

/-- The nodes of a chain have the fields of the table where it ends. -/
theorem fieldNames_chain {next? : Node → Option NodeId} (hkeeps : Keeping next?)
    (hnext : Follows next?) (hg : g.WellFounded) (id : NodeId) :
  ∀ n ∈ id :: (g.chain next? id).1, g.fieldNames n = g.fieldNames (g.chain next? id).2
  := by
  apply chain_induction hnext hg (P := fun id => ∀ n ∈ id :: (g.chain next? id).1,
    g.fieldNames n = g.fieldNames (g.chain next? id).2)
  · intro id ht n hn
    rw [chain_end hnext hg ht] at hn ⊢
    rw [List.mem_singleton.mp hn]
  · intro id t ht ih n hn
    rw [chain_next hnext hg ht] at hn ⊢
    have hid : g.fieldNames id = g.fieldNames (g.chain next? t).2 := by
      rw [hkeeps hg ht, ih t List.mem_cons_self]
    rcases List.mem_cons.mp hn with rfl | hn
    · exact hid
    · rcases List.mem_cons.mp hn with rfl | hn
      · exact hid
      · exact ih n (List.mem_cons_of_mem t hn)

/-- A table and the selections above it have the same fields. -/
theorem fieldNames_peel (hg : g.WellFounded) (id : NodeId) :
  ∀ n ∈ id :: (g.peel id).chain, g.fieldNames n = g.fieldNames (g.peel id).table
  := fieldNames_chain keeping_selection follows_selection hg id

/-- An operand of a join keeps its fields when its selections are taken off it. -/
theorem fieldNames_operand (hg : g.WellFounded) (node : NodeId) (hoist left : Bool) :
  g.fieldNames (g.operand node hoist left).table = g.fieldNames node
  := by
  rw [operand]
  split
  · exact (fieldNames_peel hg node node List.mem_cons_self).symm
  · rfl

end Graph

namespace Block

variable {g : Graph}

/-- What is folded at the top of a table keeps its fields. -/
theorem fieldNames_top (hg : g.WellFounded) (node : NodeId) :
  g.fieldNames (top g node).2 = g.fieldNames node
  := by
  have hlimits := Graph.fieldNames_chain Graph.keeping_limit Graph.follows_limit hg node node
    List.mem_cons_self
  have hsorts := Graph.fieldNames_chain Graph.keeping_sort Graph.follows_sort hg
    (g.chain Graph.limitInput? node).2 _ List.mem_cons_self
  rw [hlimits, hsorts]
  simp only [top, distinctOf]
  split
  case h_1 t hn =>
      conv_rhs => rw [Graph.fieldNames_eq hg, Graph.fieldNamesStep, hn]
  · rfl

end Block

end RelSql
