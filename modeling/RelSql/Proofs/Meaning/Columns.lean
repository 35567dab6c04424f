import RelSql.Proofs.Meaning.Operators
import RelSql.Proofs.Meaning.Pipelines
import RelSql.Proofs.Output.FieldNames

/-!
# Columns of rows

The rows of a pipeline have the columns of its schema.  A row that a list of items makes has at
a name what the first item that provides the name stands for.
-/

namespace RelSql

variable {V : Type} {I : Interpretation V}

namespace Interpretation

/-- The columns of a row come before those of the rows after it. -/
theorem get_append (r r' : Row V) (name : String) :
  I.get (r ++ r') name = if name ∈ r.map Prod.fst then I.get r name else I.get r' name
  := by
  rw [get, get, get, List.lookup_append]
  cases h : r.lookup name with
  | none =>
      have hnot : name ∉ r.map Prod.fst := by
        intro hmem
        obtain ⟨p, hp, rfl⟩ := List.mem_map.mp hmem
        exact absurd (List.lookup_eq_none_iff.mp h p hp) (by simp)
      rw [if_neg hnot, Option.none_or]
  | some v =>
      have hmem : name ∈ r.map Prod.fst := by
        by_contra hnot
        have hnone : r.lookup name = none := by
          rw [List.lookup_eq_none_iff]
          intro p hp
          rw [bne_iff_ne]
          rintro rfl
          exact hnot (List.mem_map_of_mem hp)
        rw [hnone] at h
        cases h
      rw [if_pos hmem]
      rfl

end Interpretation

namespace Graph

variable {g : Graph} {id t : NodeId}

/-! ### Schemas -/

theorem hasField_iff {name : String} :
  g.hasField id name = true ↔ ∃ s, g.schema id = .ok s ∧ name ∈ s.names
  := by
  rw [hasField]
  cases g.schema id with
  | error e => simp
  | ok s =>
      simp only [Except.ok.injEq, exists_eq_left', Schema.field?, Schema.names, List.find?_isSome,
        List.mem_map, beq_iff_eq]

/-- The input of an operator that takes rows away or orders them. -/
def keptInput? : Node → Option NodeId
  | .selection t _ | .sort t _ | .limit t _ _ | .distinct t => some t
  | _ => none

theorem schema_kept (hg : g.WellFounded) (h : keptInput? (g.node id) = some t) :
  g.schema id = g.schema t
  := by
  rw [Graph.schema_eq hg, schemaStep]
  cases hn : g.node id <;> rw [hn] at h <;> cases h <;> rfl

theorem hasField_kept (hg : g.WellFounded) (h : keptInput? (g.node id) = some t) (name : String) :
  g.hasField id name = g.hasField t name
  := by
  rw [hasField, hasField, schema_kept hg h]

/-- A table among the items of a projection with a schema has a schema. -/
theorem exists_schema_of_projection (hg : g.WellFounded) {items : List NodeId} {s : Schema}
    (hn : g.node id = .projection t items) (hs : g.schema id = .ok s) :
  ∀ i ∈ items, g.isRelation i = true → ∃ s', g.schema i = .ok s'
  := by
  intro i hi hr
  rw [Graph.schema_eq hg, schemaStep, hn] at hs
  obtain ⟨parts, hparts, _⟩ := exists_of_bind_eq_ok hs
  obtain ⟨fields, hfields⟩ := exists_of_mapM_eq_ok hparts i hi
  rw [itemFields, if_pos hr] at hfields
  obtain ⟨s', hs', _⟩ := exists_of_bind_eq_ok hfields
  exact ⟨s', hs'⟩

/-- No item of an aggregation with a schema is a table. -/
theorem isRelation_of_aggregation (hg : g.WellFounded) {keys metrics having : List NodeId}
    {s : Schema} (hn : g.node id = .aggregation t keys metrics having)
    (hs : g.schema id = .ok s) :
  ∀ i ∈ keys ++ metrics, g.isRelation i = false
  := by
  intro i hi
  rw [Graph.schema_eq hg, schemaStep, hn] at hs
  obtain ⟨fields, hfields, _⟩ := exists_of_bind_eq_ok hs
  obtain ⟨f, hf⟩ := exists_of_mapM_eq_ok hfields i hi
  obtain ⟨type, htype, _⟩ := exists_of_bind_eq_ok hf
  exact isRelation_of_dataType hg htype

/-! ### Items -/

theorem Item.passes {grouped : Bool} {i : NodeId} (h : g.Item grouped t i)
    (hr : g.isRelation i = true) :
  g.Passes t i
  := by
  cases h with
  | whole hu => exact hu
  | value hname _ =>
      obtain ⟨name, hname⟩ := Option.isSome_iff_exists.mp hname
      rw [isRelation_of_name? hname] at hr
      cases hr

theorem Item.over {grouped : Bool} {i : NodeId} (h : g.Item grouped t i) (ht : g.Pipeline t)
    (hr : g.isRelation i = false) :
  (g.name? i).isSome = true ∧ g.Over grouped t i
  := by
  cases h with
  | value hname h => exact ⟨hname, h⟩
  | whole hu =>
      rw [(hu.pipeline ht).isRelation] at hr
      cases hr

/-- A field of a projection whose items have names is provided by one of them. -/
theorem exists_provides (hg : g.WellFounded) {items : List NodeId} {name : String}
    (hn : g.node id = .projection t items)
    (hitems : ∀ i ∈ items, g.isRelation i = true ∨ (g.name? i).isSome = true)
    (hname : g.hasField id name = true) :
  ∃ item, Lift.provider? g items name = some item
  := by
  obtain ⟨s, hs, hname⟩ := hasField_iff.mp hname
  rw [← Option.isSome_iff_exists, Lift.provider?, List.find?_isSome]
  rw [← fieldNames_of_schema hg hs, fieldNames_projection hg hn, List.mem_eraseDups,
    List.mem_flatMap] at hname
  obtain ⟨i, hi, hname⟩ := hname
  refine ⟨i, hi, ?_⟩
  rw [provides]
  cases hr : g.isRelation i with
  | true =>
      obtain ⟨s', hs'⟩ := exists_schema_of_projection hg hn hs i hi hr
      rw [selectedNames_relation hr, fieldNames_of_schema hg hs'] at hname
      rw [hasField_iff.mpr ⟨s', hs', hname⟩]
      rfl
  | false =>
      obtain ⟨n, hn⟩ := Option.isSome_iff_exists.mp ((hitems i hi).resolve_left (by simp [hr]))
      rw [selectedNames_value hr, fieldName, hn, Option.getD_some, List.mem_singleton] at hname
      rw [hn, hname, Bool.false_and, Bool.false_or, beq_iff_eq]

/-- A field of a projection is provided by an item. -/
theorem exists_provider (hg : g.WellFounded) {items : List NodeId} {s : Schema} {name : String}
    (hn : g.node id = .projection t items) (ht : g.Pipeline t)
    (hitems : ∀ i ∈ items, g.Item false t i) (hs : g.schema id = .ok s) (hname : name ∈ s.names) :
  ∃ item, Lift.provider? g items name = some item
  := by
  refine exists_provides hg hn (fun i hi => ?_) (hasField_iff.mpr ⟨s, hs, hname⟩)
  cases hr : g.isRelation i with
  | true => exact .inl rfl
  | false => exact .inr ((hitems i hi).over ht hr).1

/-- A table that provides a name has the field. -/
theorem hasField_of_provider {items : List NodeId} {name : String} {item : NodeId}
    (h : Lift.provider? g items name = some item) (hr : g.isRelation item = true) :
  g.hasField item name = true
  := by
  have hprovides := List.find?_some h
  rw [provides, hr, Bool.true_and, Bool.or_eq_true] at hprovides
  rcases hprovides with hprovides | hprovides
  · exact hprovides
  · rw [isRelation_of_name? (beq_iff_eq.mp hprovides)] at hr
    cases hr

/-- A row has the columns of a table, if the table has a schema. -/
def Fits (g : Graph) (t : NodeId) (r : Row V) : Prop :=
  ∀ s, g.schema t = .ok s → ∀ name, name ∈ r.map Prod.fst ↔ name ∈ s.names

theorem Fits.of_schema {u : NodeId} {r : Row V} (hs : g.schema u = g.schema t) (h : g.Fits t r) :
  g.Fits u r
  := by
  intro s hu
  exact h s (hs ▸ hu)

/-- A name is a column of the row that items make when one of them has it. -/
theorem mem_itemsRow {A : Algebra (Context V → V)} {items : List NodeId} {c : Context V}
    {name : String} :
  name ∈ (g.itemsRow A items c).map Prod.fst
    ↔ ∃ i ∈ items, name ∈ (g.itemRow A c i).map Prod.fst
  := by
  rw [itemsRow, List.map_flatMap, List.mem_flatMap]

theorem itemRow_relation {A : Algebra (Context V → V)} {c : Context V}
    (hr : g.isRelation id = true) :
  g.itemRow A c id = c.row
  := by
  rw [itemRow, if_pos hr]

theorem itemRow_value {A : Algebra (Context V → V)} {c : Context V}
    (hr : g.isRelation id = false) :
  g.itemRow A c id = [(g.fieldName id, g.denote A id c)]
  := by
  rw [itemRow, hr]
  rfl

/-- The names that the items of a projection stand for are the columns of the row they make. -/
theorem fits_itemsRow (hg : g.WellFounded) {items : List NodeId}
    (hn : g.node id = .projection t items)
    (hitems : ∀ i ∈ items, g.isRelation i = true → g.Passes t i)
    {A : Algebra (Context V → V)} {c : Context V} (hfits : g.Fits t c.row) :
  g.Fits id (g.itemsRow A items c)
  := by
  intro s hs name
  rw [← fieldNames_of_schema hg hs, fieldNames_projection hg hn, List.mem_eraseDups,
    List.mem_flatMap, mem_itemsRow]
  apply exists_congr
  intro i
  apply and_congr_right
  intro hi
  cases hr : g.isRelation i with
  | false =>
      rw [itemRow_value hr, selectedNames_value hr]
      rfl
  | true =>
      obtain ⟨s', hs'⟩ := exists_schema_of_projection hg hn hs i hi hr
      have hsame : g.schema t = .ok s' := by
        rw [← (hitems i hi hr).schema_eq hg, hs']
      rw [itemRow_relation hr, selectedNames_relation hr, fieldNames_of_schema hg hs']
      exact hfits s' hsame name

/-- The names of the keys and metrics of an aggregation are the columns of the row they make. -/
theorem fits_aggregation (hg : g.WellFounded) {keys metrics having : List NodeId}
    (hn : g.node id = .aggregation t keys metrics having) {A : Algebra (Context V → V)}
    (c : Context V) :
  g.Fits id (g.itemsRow A (keys ++ metrics) c)
  := by
  intro s hs name
  have hvalues := isRelation_of_aggregation hg hn hs
  rw [← fieldNames_of_schema hg hs, fieldNames_aggregation hg hn, List.mem_eraseDups,
    List.mem_flatMap, mem_itemsRow]
  apply exists_congr
  intro i
  apply and_congr_right
  intro hi
  rw [itemRow_value (hvalues i hi), selectedNames_value (hvalues i hi)]
  rfl

/-- The rows of a pipeline have the columns of its schema. -/
theorem Pipeline.fits [DecidableEq V] {db : Database V} (hg : g.WellFounded) (h : g.Pipeline id) :
  ∀ r ∈ g.rows I db id, g.Fits id r
  := by
  induction h with
  | @intro id hregular hinput ih =>
      rw [Regular] at hregular
      cases hn : g.node id <;> rw [hn] at hregular hinput ih <;> try (cases hregular; done)
      case table table =>
        intro r hr s hs name
        rw [rows_table hg hn, Database.rows] at hr
        obtain ⟨value, _, rfl⟩ := List.mem_map.mp hr
        rw [Graph.schema_eq hg, schemaStep, hn] at hs
        cases hs
        rw [List.map_map]
        exact Iff.rfl
      case view t =>
        intro r hr
        rw [rows_view hg hn] at hr
        apply Fits.of_schema (t := t) _ (ih t rfl r hr)
        rw [Graph.schema_eq hg, schemaStep, hn]
        rfl
      case selection t predicates =>
        intro r hr
        rw [rows_selection hg hn] at hr
        exact (ih t rfl r (List.mem_of_mem_filter hr)).of_schema (schema_kept hg (by rw [hn]; rfl))
      case sort t keys =>
        intro r hr
        rw [rows_sort hg hn, Interpretation.sorted, List.mem_insertionSort] at hr
        exact (ih t rfl r hr).of_schema (schema_kept hg (by rw [hn]; rfl))
      case limit t n offset =>
        intro r hr
        rw [rows_limit hg hn] at hr
        have hmem := List.mem_of_mem_drop (List.mem_of_mem_take hr)
        exact (ih t rfl r hmem).of_schema (schema_kept hg (by rw [hn]; rfl))
      case distinct t =>
        intro r hr
        rw [rows_distinct hg hn, List.mem_eraseDups] at hr
        exact (ih t rfl r hr).of_schema (schema_kept hg (by rw [hn]; rfl))
      case projection t items =>
        intro r hr
        rw [rows_projection hg hn] at hr
        obtain ⟨r', hr', rfl⟩ := List.mem_map.mp hr
        exact fits_itemsRow hg hn (fun i hi => (hregular i hi).passes) (ih t rfl r' hr')
      case aggregation t keys metrics having =>
        intro r hr
        rw [rows_aggregation hg hn] at hr
        obtain ⟨c, _, rfl⟩ := List.mem_map.mp hr
        exact fits_aggregation hg hn c

/-- An item provides a name when the row that it makes has it. -/
theorem provides_iff {A : Algebra (Context V → V)} {c : Context V} {name : String} {i : NodeId}
    (htable : g.isRelation i = true → (name ∈ c.row.map Prod.fst ↔ g.hasField i name = true))
    (hvalue : g.isRelation i = false → (g.name? i).isSome = true) :
  g.provides name i = true ↔ name ∈ (g.itemRow A c i).map Prod.fst
  := by
  rw [provides]
  cases hr : g.isRelation i with
  | true =>
      have hname : g.name? i = none := by
        cases hname : g.name? i with
        | none => rfl
        | some n =>
            rw [isRelation_of_name? hname] at hr
            cases hr
      rw [itemRow_relation hr, htable hr, hname]
      simp
  | false =>
      obtain ⟨n, hn⟩ := Option.isSome_iff_exists.mp (hvalue hr)
      rw [itemRow_value hr, fieldName, hn, List.map_cons, List.map_nil, List.mem_singleton,
        Bool.false_and, Bool.false_or, beq_iff_eq, Option.some.injEq]
      exact eq_comm

/-- A row that items make has at a name what the first item that provides the name stands for. -/
theorem get_itemsRow {A : Algebra (Context V → V)} {items : List NodeId} {c : Context V}
    {name : String} {item : NodeId} (hprovider : Lift.provider? g items name = some item)
    (htables : ∀ i ∈ items, g.isRelation i = true →
      (name ∈ c.row.map Prod.fst ↔ g.hasField i name = true))
    (hvalues : ∀ i ∈ items, g.isRelation i = false → (g.name? i).isSome = true) :
  I.get (g.itemsRow A items c) name
    = if g.isRelation item then I.get c.row name else g.denote A item c
  := by
  induction items with
  | nil => cases hprovider
  | cons i rest ih =>
      obtain ⟨htable, htables⟩ := List.forall_mem_cons.mp htables
      obtain ⟨hvalue, hvalues⟩ := List.forall_mem_cons.mp hvalues
      rw [itemsRow, List.flatMap_cons, ← itemsRow, Interpretation.get_append]
      rw [Lift.provider?, List.find?_cons] at hprovider
      have hprovides : g.provides name i = true ↔ name ∈ (g.itemRow A c i).map Prod.fst :=
        provides_iff htable hvalue
      cases hi : g.provides name i with
      | true =>
          rw [hi, Option.some.injEq] at hprovider
          subst hprovider
          rw [if_pos (hprovides.mp hi)]
          cases hr : g.isRelation i with
          | true => rw [itemRow_relation hr, if_pos rfl]
          | false =>
              rw [hprovides, itemRow_value hr, List.map_cons, List.map_nil, List.mem_singleton]
                at hi
              rw [itemRow_value hr, if_neg Bool.false_ne_true, Interpretation.get, hi,
                List.lookup_cons_self]
              rfl
      | false =>
          rw [hi] at hprovider
          rw [if_neg (fun hmem => by rw [hprovides.mpr hmem] at hi; cases hi)]
          exact ih hprovider htables hvalues

end Graph

end RelSql
