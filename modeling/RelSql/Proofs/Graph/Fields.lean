import RelSql.Proofs.Meaning.Columns

/-!
# Fields of tables

A field of an operator is a field of an operator below it, or the value of one of its items.  The
first field of a name counts: a join has it from its left side if that has it, and a projection
from the first item that provides the name.
-/

namespace RelSql

namespace Schema

/-- Of the fields of a name, the first one that is not among `seen` is kept. -/
theorem find?_firsts (name : String) (seen : List String) (fields : List Field) :
  (firsts seen fields).find? (fun f => f.name == name)
    = if name ∈ seen then none else fields.find? fun f => f.name == name
  := by
  induction fields generalizing seen with
  | nil => simp [firsts]
  | cons f rest ih =>
      rw [firsts, List.find?_cons]
      by_cases hname : f.name = name
      · rw [hname, beq_self_eq_true]
        by_cases hseen : name ∈ seen
        · rw [if_pos hseen, if_pos hseen, ih, if_pos hseen]
        · rw [if_neg hseen, if_neg hseen, List.find?_cons, hname, beq_self_eq_true]
      · have hmem : name ∈ f.name :: seen ↔ name ∈ seen := by
          rw [List.mem_cons, or_iff_right (fun h => hname h.symm)]
        rw [beq_eq_false_iff_ne.mpr hname]
        split
        · exact ih seen
        · rw [List.find?_cons, beq_eq_false_iff_ne.mpr hname]
          simp only [ih, hmem]

theorem field?_ofFields (fields : List Field) (name : String) :
  (ofFields fields).field? name = fields.find? fun f => f.name == name
  := (find?_firsts name [] fields).trans (if_neg List.not_mem_nil)

end Schema

/-- The first result of a function is that on the first element on which it has one. -/
theorem findSome?_of_find? {α β : Type} {p : α → Bool} {f : α → Option β} {l : List α} {a : α}
    (h : l.find? p = some a) (hp : ∀ b ∈ l, p b = (f b).isSome) :
  l.findSome? f = f a
  := by
  induction l with
  | nil => cases h
  | cons b rest ih =>
      obtain ⟨hb, hrest⟩ := List.forall_mem_cons.mp hp
      rw [List.find?_cons, hb] at h
      rw [List.findSome?_cons]
      cases hf : f b with
      | some c =>
          rw [hf, Option.isSome_some, Option.some.injEq] at h
          rw [← h, hf]
      | none =>
          rw [hf] at h
          exact ih h hrest

/-- Whether a node is no column, or names a field of its table. -/
def Node.readsField (g : Graph) : Node → Bool
  | .column t name => g.hasField t name
  | _ => true

/-- The values and tables that a projection or an aggregation selects. -/
def Node.selected : Node → List NodeId
  | .projection _ items => items
  | .aggregation _ keys metrics _ => keys ++ metrics
  | _ => []

namespace Graph

variable {g g' : Graph} {id t i : NodeId} {name : String} {f : Field}

/-- Every column names a field of its table. -/
def ReadsFields (g : Graph) : Prop :=
  ∀ n ∈ g.nodes.toList, n.readsField g = true

instance : Decidable g.ReadsFields :=
  inferInstanceAs (Decidable (∀ n ∈ g.nodes.toList, n.readsField g = true))

/-- Whatever the projections and aggregations among some tables select is a table or has a name. -/
def NamesItems (g : Graph) (ts : List NodeId) : Prop :=
  ∀ t ∈ ts, ∀ i ∈ (g.node t).selected, g.isRelation i = true ∨ (g.name? i).isSome = true

instance (ts : List NodeId) : Decidable (g.NamesItems ts) :=
  inferInstanceAs (Decidable (∀ t ∈ ts, ∀ i ∈ (g.node t).selected,
    g.isRelation i = true ∨ (g.name? i).isSome = true))

theorem ReadsFields.hasField (h : g.ReadsFields) (hn : g.node id = .column t name) :
  g.hasField t name = true
  := by
  have hmem : g.node id ∈ g.nodes.toList := by
    rw [nodes_eq]
    exact List.mem_map_of_mem (mem_handles.mpr (has_of_node hn nofun))
  have hreads := h _ hmem
  rwa [hn] at hreads

/-- The field of a name of a table. -/
def field? (g : Graph) (t : NodeId) (name : String) : Option Field :=
  match g.schema t with
  | .ok s => s.field? name
  | .error _ => none

theorem field?_of_schema {s : Schema} (h : g.schema t = .ok s) (name : String) :
  g.field? t name = s.field? name
  := by
  rw [field?, h]

theorem isSome_field? (g : Graph) (t : NodeId) (name : String) :
  (g.field? t name).isSome = g.hasField t name
  := by
  rw [field?, hasField]
  cases g.schema t <;> rfl

theorem exists_field? (h : g.hasField t name = true) :
  ∃ f, g.field? t name = some f
  := by
  rwa [← isSome_field?, Option.isSome_iff_exists] at h

theorem hasField_of_field? (h : g.field? t name = some f) :
  g.hasField t name = true
  := by
  rw [← isSome_field?, h]
  rfl

/-- What has a field is a table of the graph. -/
theorem has_of_hasField (hg : g.WellFounded) (h : g.hasField t name = true) :
  g.Has t
  := by
  obtain ⟨s, hs, _⟩ := hasField_iff.mp h
  exact has_of_isRelation (isRelation_of_schema hg hs)

/-- A table keeps its fields. -/
theorem Extends.field?_eq (e : g.Extends g') (hg : g.WellFounded) (hg' : g'.WellFounded)
    (ht : g.Has t) (name : String) :
  g'.field? t name = g.field? t name
  := by
  rw [field?, field?, e.schema_eq hg hg' ht]

theorem exists_schema_of_field? (h : g.field? t name = some f) :
  ∃ s, g.schema t = .ok s ∧ s.field? name = some f
  := by
  rw [field?] at h
  cases hs : g.schema t with
  | error e =>
      rw [hs] at h
      cases h
  | ok s =>
      rw [hs] at h
      exact ⟨s, rfl, h⟩

/-- A column has the type of its field. -/
theorem dataType_column (hg : g.WellFounded) (hn : g.node id = .column t name)
    (hf : g.field? t name = some f) :
  g.dataType id = .ok f.type
  := by
  obtain ⟨s, hs, hf⟩ := exists_schema_of_field? hf
  have hfield : s.field name = .ok f := by rw [Schema.field, hf]
  have hschema : (g.typing t).schema = .ok s := hs
  rw [Graph.dataType_eq hg, dataTypeStep, hn]
  simp only [hschema, bind, Except.bind, hfield]
  rfl

theorem field?_kept (hg : g.WellFounded) (h : keptInput? (g.node id) = some t) (name : String) :
  g.field? id name = g.field? t name
  := by
  rw [field?, field?, schema_kept hg h]

/-- A join has a field from its left side if that has it, and from the right side otherwise. -/
theorem field?_join (hg : g.WellFounded) {kind : JoinKind} {l r : NodeId}
    {predicates : List NodeId} (hn : g.node id = .join kind l r predicates)
    (hf : g.field? id name = some f) :
  g.field? (if g.hasField l name then l else r) name = some f
  := by
  obtain ⟨s, hs, hf⟩ := exists_schema_of_field? hf
  rw [Graph.schema_eq hg, schemaStep, hn] at hs
  obtain ⟨left, hl, hs⟩ := exists_of_bind_eq_ok hs
  have hleft : g.field? l name = left.field? name := field?_of_schema hl name
  split at hs
  case isTrue =>
      cases hs
      rw [if_pos (hasField_of_field? (hleft.trans hf)), hleft, hf]
  case isFalse =>
      obtain ⟨right, hr, hret⟩ := exists_of_bind_eq_ok hs
      have hright : g.field? r name = right.field? name := field?_of_schema hr name
      cases hret
      rw [Schema.merge, Schema.field?_ofFields, List.find?_append, ← Schema.field?,
        ← Schema.field?, ← hleft, ← hright] at hf
      rw [← isSome_field?]
      cases hfound : g.field? l name with
      | some f' =>
          rw [hfound, Option.some_or] at hf
          rw [Option.isSome_some, if_pos rfl, hfound, hf]
      | none =>
          rw [hfound, Option.none_or] at hf
          rw [Option.isSome_none, if_neg Bool.false_ne_true, hf]

/-! ### Items -/

/-- The field that an item of a list provides for a name. -/
def itemField? (g : Graph) (name : String) (i : NodeId) : Option Field :=
  if g.isRelation i then g.field? i name
  else if g.name? i = some name then (g.dataType i).toOption.map (Field.mk name)
  else none

/-- The fields of items have the first one that an item provides. -/
theorem find?_of_mapM {α : Type} {F : NodeId → Except GraphError α} {fields : α → List Field}
    {items : List NodeId} {parts : List α} (hmap : items.mapM F = .ok parts)
    (h : ∀ i ∈ items, ∀ part, F i = .ok part →
      (fields part).find? (fun f => f.name == name) = g.itemField? name i) :
  (parts.flatMap fields).find? (fun f => f.name == name) = items.findSome? (g.itemField? name)
  := by
  induction items generalizing parts with
  | nil =>
      cases hmap
      rfl
  | cons i rest ih =>
      rw [List.mapM_cons] at hmap
      obtain ⟨part, hpart, hmap⟩ := exists_of_bind_eq_ok hmap
      obtain ⟨parts', hparts, hret⟩ := exists_of_bind_eq_ok hmap
      cases hret
      obtain ⟨hi, hrest⟩ := List.forall_mem_cons.mp h
      rw [List.flatMap_cons, List.find?_append, List.findSome?_cons, hi part hpart,
        ih hparts hrest]
      cases g.itemField? name i <;> rfl

/-- The field of a value is the one that it provides. -/
theorem find?_outputField (hi : (g.name? i).isSome = true)
    (hf : g.outputField g.typing i = .ok f) :
  [f].find? (fun f => f.name == name) = g.itemField? name i
  := by
  obtain ⟨type, htype, hret⟩ := exists_of_bind_eq_ok hf
  obtain ⟨n, hn⟩ := Option.isSome_iff_exists.mp hi
  cases hret
  rw [itemField?, isRelation_of_name? hn, if_neg Bool.false_ne_true, hn, dataType, htype,
    Option.getD_some, List.find?_cons]
  by_cases hname : n = name
  · rw [hname, beq_self_eq_true, if_pos rfl]
    rfl
  · rw [beq_eq_false_iff_ne.mpr hname, if_neg (fun h => hname (Option.some.inj h)), List.find?_nil]

/-- The fields of an item are those that it provides. -/
theorem find?_itemFields (hi : g.isRelation i = true ∨ (g.name? i).isSome = true)
    {fields : List Field} (hf : g.itemFields g.typing i = .ok fields) :
  fields.find? (fun f => f.name == name) = g.itemField? name i
  := by
  rw [itemFields] at hf
  split at hf
  case isTrue hr =>
      obtain ⟨s, hs, hret⟩ := exists_of_bind_eq_ok hf
      cases hret
      rw [itemField?, if_pos hr, field?_of_schema hs, Schema.field?]
  case isFalse hr =>
      obtain ⟨f, hvalue, hret⟩ := exists_of_bind_eq_ok hf
      cases hret
      exact find?_outputField (hi.resolve_left hr) hvalue

/-- An item that has fields provides the names of the fields that it has. -/
theorem provides_eq {fields : List Field} (hf : g.itemFields g.typing i = .ok fields) :
  g.provides name i = (g.itemField? name i).isSome
  := by
  rw [itemFields] at hf
  rw [provides, itemField?]
  split at hf
  case isTrue hr =>
      have hname : g.name? i = none := by
        cases hname : g.name? i with
        | none => rfl
        | some n =>
            rw [isRelation_of_name? hname] at hr
            cases hr
      rw [if_pos hr, isSome_field?, hr, hname, Bool.true_and]
      exact Bool.or_false _
  case isFalse hr =>
      obtain ⟨f, hvalue, _⟩ := exists_of_bind_eq_ok hf
      obtain ⟨type, htype, _⟩ := exists_of_bind_eq_ok hvalue
      have htype : g.dataType i = .ok type := htype
      rw [if_neg hr, Bool.eq_false_iff.mpr hr, Bool.false_and, Bool.false_or, htype]
      split
      case isTrue hname =>
          rw [hname, beq_self_eq_true]
          rfl
      case isFalse hname =>
          rw [beq_eq_false_iff_ne.mpr hname]
          rfl

/-- A projection has a field from the first item that provides its name. -/
theorem field?_projection (hg : g.WellFounded) {u : NodeId} {items : List NodeId}
    (hn : g.node id = .projection u items)
    (hnamed : ∀ i ∈ items, g.isRelation i = true ∨ (g.name? i).isSome = true)
    (hf : g.field? id name = some f) :
  ∃ item, Lift.provider? g items name = some item ∧ g.itemField? name item = some f
  := by
  obtain ⟨item, hitem⟩ := exists_provides hg hn hnamed (hasField_of_field? hf)
  obtain ⟨s, hs, hf⟩ := exists_schema_of_field? hf
  rw [Graph.schema_eq hg, schemaStep, hn] at hs
  obtain ⟨parts, hparts, hret⟩ := exists_of_bind_eq_ok hs
  cases hret
  have hfields := exists_of_mapM_eq_ok hparts
  refine ⟨item, hitem, ?_⟩
  rw [Schema.field?_ofFields, ← List.flatMap_id',
    find?_of_mapM hparts fun i hi part hpart => find?_itemFields (hnamed i hi) hpart] at hf
  rw [← hf]
  symm
  apply findSome?_of_find? hitem
  intro i hi
  obtain ⟨fields, hfields⟩ := hfields i hi
  exact provides_eq hfields

/-- An aggregation has a field from the first item of its name. -/
theorem field?_aggregation (hg : g.WellFounded) {u : NodeId} {keys metrics having : List NodeId}
    (hn : g.node id = .aggregation u keys metrics having)
    (hnamed : ∀ i ∈ keys ++ metrics, g.isRelation i = true ∨ (g.name? i).isSome = true)
    (hf : g.field? id name = some f) :
  ∃ item, Lift.namedItem? g (keys ++ metrics) name = some item ∧ g.isRelation item = false
    ∧ g.itemField? name item = some f
  := by
  obtain ⟨s, hs, hf⟩ := exists_schema_of_field? hf
  have hvalues := isRelation_of_aggregation hg hn hs
  have hnamed : ∀ i ∈ keys ++ metrics, (g.name? i).isSome = true := by
    intro i hi
    apply (hnamed i hi).resolve_left
    rw [hvalues i hi]
    exact Bool.false_ne_true
  rw [Graph.schema_eq hg, schemaStep, hn] at hs
  obtain ⟨fields, hfields, hret⟩ := exists_of_bind_eq_ok hs
  cases hret
  rw [Schema.field?_ofFields, ← List.flatMap_singleton' fields,
    find?_of_mapM hfields fun i hi part hpart => find?_outputField (hnamed i hi) hpart] at hf
  obtain ⟨item, hitem, hitemField⟩ := List.exists_of_findSome?_eq_some hf
  have hprovides : ∀ i ∈ keys ++ metrics, (g.name? i == some name)
      = (g.itemField? name i).isSome := by
    intro i hi
    obtain ⟨f', hf'⟩ := exists_of_mapM_eq_ok hfields i hi
    have hpart : g.itemFields g.typing i = .ok [f'] := by
      rw [itemFields, hvalues i hi, hf']
      rfl
    rw [← provides_eq hpart, provides, hvalues i hi, Bool.false_and,
      Bool.false_or]
  have hsome : (Lift.namedItem? g (keys ++ metrics) name).isSome = true := by
    rw [Lift.namedItem?, List.find?_isSome]
    refine ⟨item, hitem, ?_⟩
    rw [hprovides item hitem, hitemField]
    rfl
  obtain ⟨first, hfirst⟩ := Option.isSome_iff_exists.mp hsome
  refine ⟨first, hfirst, hvalues first (Folding.namedItem_mem hfirst), ?_⟩
  rw [← hf]
  exact (findSome?_of_find? hfirst hprovides).symm

/-- The field that a table among the items provides is its own. -/
theorem itemField?_relation (hr : g.isRelation i = true) (name : String) :
  g.itemField? name i = g.field? i name
  := by
  rw [itemField?, if_pos hr]

/-- The field that a value provides has its type. -/
theorem dataType_of_itemField? (hr : g.isRelation i = false)
    (hf : g.itemField? name i = some f) :
  g.dataType i = .ok f.type
  := by
  rw [itemField?, hr, if_neg Bool.false_ne_true] at hf
  split at hf
  case isTrue =>
      obtain ⟨type, htype, rfl⟩ := Option.map_eq_some_iff.mp hf
      exact eq_ok_of_toOption htype
  case isFalse => cases hf

/-- A value has the type that it has without its aliases. -/
theorem dataType_unaliased (hg : g.WellFounded) (id : NodeId) :
  g.dataType (g.unaliased id) = g.dataType id
  := by
  obtain ⟨i⟩ := id
  induction i using Nat.strongRecOn with
  | ind i ih =>
      rw [Graph.unaliased_eq hg]
      split
      case h_1 arg name hn =>
          have harg : arg ∈ (g.node ⟨i⟩).children := by
            rw [hn]
            exact List.mem_singleton_self arg
          rw [ih arg.index (hg.child_lt harg), Graph.dataType_eq hg ⟨i⟩, dataTypeStep, hn]
          rfl
      · rfl

end Graph

end RelSql
