import RelSql.Proofs.Block.FusedSchema

/-!
# Laws of schemas

However a schema is built, its fields have distinct names.  Of a list of fields it keeps those
that no field of the same name stands before, in their order; fields whose names are checked are
either kept as they are or refused.  Merging is associative, the schema without fields is neutral
for it, and a name stands for the field of the left schema if that has one.
-/

namespace RelSql

variable {s : Schema} {fields : List Field} {name : String}

namespace Schema

/-! ### First fields -/

/-- The fields of a list that no field of the same name stands before. -/
def leading (fields : List Field) : List Field :=
  (fields.zipIdx.filter fun p => p.1.name ∉ (fields.take p.2).map Field.name).map Prod.fst

/-- Behind other fields, the fields are left out whose names these have. -/
theorem filter_zipIdx_append (l m : List Field) :
  ((m.zipIdx l.length).filter fun p =>
      p.1.name ∉ ((l ++ m).take p.2).map Field.name).map Prod.fst
    = firsts (l.map Field.name) m
  := by
  induction m generalizing l with
  | nil => rfl
  | cons f rest ih =>
      have hrest := ih (l ++ [f])
      rw [List.length_append, List.length_singleton, List.append_assoc, List.singleton_append]
        at hrest
      have hseen : firsts ((l ++ [f]).map Field.name) rest
          = firsts (f.name :: l.map Field.name) rest := by
        apply firsts_congr
        intro name
        rw [List.map_append, List.mem_append, List.map_singleton, List.mem_singleton,
          List.mem_cons, or_comm]
      rw [List.zipIdx_cons, List.filter_cons, List.take_left, firsts]
      split
      case isTrue h =>
          rw [if_neg (of_decide_eq_true h), List.map_cons, hrest, hseen]
      case isFalse h =>
          have hmem : f.name ∈ l.map Field.name := by simpa using h
          rw [if_pos hmem, hrest, hseen]
          apply firsts_congr
          intro name
          rw [List.mem_cons, or_iff_right_of_imp]
          rintro rfl
          exact hmem

/-- Of several fields with one name the first one is kept, in the order of the fields. -/
theorem fields_ofFields (fields : List Field) :
  (ofFields fields).fields = leading fields
  := (filter_zipIdx_append [] fields).symm

/-- A name is found again when it is among `seen` or stands twice. -/
theorem repeatedName?_eq_none {seen : List String} :
  repeatedName? seen fields = none
    ↔ (fields.map Field.name).Nodup ∧ ∀ name ∈ fields.map Field.name, name ∉ seen
  := by
  induction fields generalizing seen with
  | nil => exact iff_of_true rfl ⟨List.nodup_nil, fun _ h => absurd h List.not_mem_nil⟩
  | cons f rest ih =>
      rw [repeatedName?, List.map_cons, List.nodup_cons, List.forall_mem_cons]
      split
      case isTrue h => exact iff_of_false nofun fun hall => hall.2.1 h
      case isFalse h =>
          rw [ih]
          constructor
          · rintro ⟨hnodup, hall⟩
            exact ⟨⟨fun hmem => hall _ hmem List.mem_cons_self, hnodup⟩, h,
              fun name hname hseen => hall name hname (List.mem_cons_of_mem _ hseen)⟩
          · rintro ⟨⟨hfresh, hnodup⟩, _, hall⟩
            refine ⟨hnodup, fun name hname hseen => ?_⟩
            rcases List.mem_cons.mp hseen with rfl | hseen
            · exact hfresh hname
            · exact hall name hname hseen

/-- Fields with distinct names are kept as they are, and others are refused. -/
theorem ofDistinct_eq_ok :
  ofDistinct fields = .ok s ↔ (fields.map Field.name).Nodup ∧ s = ⟨fields⟩
  := by
  have hnone : repeatedName? [] fields = none ↔ (fields.map Field.name).Nodup := by
    rw [repeatedName?_eq_none, and_iff_left]
    exact fun _ _ => List.not_mem_nil
  rw [← hnone, ofDistinct]
  cases repeatedName? [] fields with
  | none => simp [eq_comm]
  | some name => simp

/-- Fields with distinct names are all first. -/
theorem firsts_of_nodup {seen : List String} (h : (fields.map Field.name).Nodup)
    (hseen : ∀ name ∈ fields.map Field.name, name ∉ seen) :
  firsts seen fields = fields
  := by
  induction fields generalizing seen with
  | nil => rfl
  | cons f rest ih =>
      rw [List.map_cons] at h hseen
      obtain ⟨hfresh, hnodup⟩ := List.nodup_cons.mp h
      obtain ⟨hf, hrest⟩ := List.forall_mem_cons.mp hseen
      rw [firsts, if_neg hf, ih hnodup]
      intro name hname hmem
      rcases List.mem_cons.mp hmem with rfl | hmem
      · exact hfresh hname
      · exact hrest name hname hmem

theorem ofFields_of_nodup (h : (fields.map Field.name).Nodup) :
  ofFields fields = ⟨fields⟩
  := by
  rw [ofFields, firsts_of_nodup h]
  exact fun _ _ => List.not_mem_nil

/-- A builder checks the fields that are added to it. -/
theorem build_foldl_add (fields : List Field) :
  (fields.foldl Builder.add .empty).build = ofDistinct fields
  := by
  have hfold : ∀ b : Builder, fields.foldl Builder.add b = ⟨b.fields ++ fields⟩ := by
    induction fields with
    | nil => exact fun b => congrArg Builder.mk (List.append_nil b.fields).symm
    | cons f rest ih =>
        intro b
        rw [List.foldl_cons, ih, Builder.add, List.append_assoc, List.singleton_append]
  rw [hfold]
  rfl

/-! ### Schemas that are built -/

/-- The schemas that operations give, of any fields and in any order, and those of the relations of
graphs over tables with such schemas. -/
inductive Built : Schema → Prop
  | empty : Built empty
  | ofFields (fields : List Field) : Built (ofFields fields)
  | ofDistinct {fields : List Field} {s : Schema} (h : ofDistinct fields = .ok s) : Built s
  | build {b : Builder} {s : Schema} (h : b.build = .ok s) : Built s
  | push {s : Schema} (hs : Built s) (f : Field) : Built (s.push f)
  | merge {s t : Schema} (hs : Built s) (ht : Built t) : Built (s.merge t)
  | relation {g : Graph} {id : NodeId} {s : Schema} (hg : g.WellFounded)
      (htables : ∀ t, Node.table t ∈ g.nodes.toList → Built t.schema)
      (h : g.schema id = .ok s) : Built s

theorem nodup_names_ofFields (fields : List Field) :
  (ofFields fields).names.Nodup
  := by
  rw [names_ofFields]
  exact nodup_eraseDups _

/-- However a schema is built, its fields have distinct names. -/
theorem Built.nodup (h : s.Built) :
  s.names.Nodup
  := by
  induction h with
  | empty => exact List.nodup_nil
  | ofFields | push | merge => exact nodup_names_ofFields _
  | ofDistinct h =>
      obtain ⟨hnodup, rfl⟩ := ofDistinct_eq_ok.mp h
      exact hnodup
  | build h =>
      obtain ⟨hnodup, rfl⟩ := ofDistinct_eq_ok.mp h
      exact hnodup
  | relation hg _ h ih =>
      rw [← Graph.fieldNames_of_schema hg h]
      apply Graph.nodup_fieldNames hg
      intro n hn
      cases n with
      | table t => exact ih t hn
      | _ => exact List.nodup_nil

/-! ### Merging -/

/-- The first fields of some fields and others are those of all of them. -/
theorem ofFields_append_congr {l l' m m' : List Field} (hl : SameFirsts l l')
    (hm : SameFirsts m m') :
  ofFields (l ++ m) = ofFields (l' ++ m')
  := congrArg Schema.mk (hl.append hm [])

theorem merge_assoc (s t u : Schema) :
  (s.merge t).merge u = s.merge (t.merge u)
  := by
  rw [merge, merge, merge, merge, ofFields_append_congr (sameFirsts_ofFields _) fun _ => rfl,
    ofFields_append_congr (fun _ => rfl) (sameFirsts_ofFields _), List.append_assoc]

theorem merge_empty (h : s.names.Nodup) :
  s.merge empty = s
  := by
  rw [merge, empty, List.append_nil, ofFields_of_nodup h]

theorem empty_merge (h : s.names.Nodup) :
  empty.merge s = s
  := ofFields_of_nodup h

/-! ### Looking a name up -/

theorem field?_eq_none :
  s.field? name = none ↔ name ∉ s.names
  := by
  simp [field?, names]

theorem field_merge (s t : Schema) (name : String) :
  (s.merge t).field name = if name ∈ s.names then s.field name else t.field name
  := by
  rw [field, merge, field?_ofFields, List.find?_append, ← field?, ← field?]
  by_cases h : name ∈ s.names
  · obtain ⟨f, hf⟩ := Option.ne_none_iff_exists'.mp fun hnone => field?_eq_none.mp hnone h
    rw [if_pos h, field, hf]
    rfl
  · rw [if_neg h, field?_eq_none.mpr h]
    rfl

theorem field_eq_ok {f : Field} :
  s.field name = .ok f ↔ s.field? name = some f
  := by
  rw [field]
  cases s.field? name <;> simp

theorem position_eq_ok {i : Nat} :
  s.position name = .ok i ↔ s.fields.findIdx? (fun f => f.name == name) = some i
  := by
  rw [position]
  cases s.fields.findIdx? fun f => f.name == name <;> simp

/-- The position of a name is the one that its field stands at. -/
theorem position_eq_ok_iff (h : s.names.Nodup) {i : Nat} :
  s.position name = .ok i ↔ ∃ f, s.field name = .ok f ∧ s.fields[i]? = some f
  := by
  simp only [position_eq_ok, field_eq_ok, field?]
  constructor
  · intro hposition
    obtain ⟨hi, hname, hbefore⟩ := List.findIdx?_eq_some_iff_getElem.mp hposition
    refine ⟨s.fields[i], ?_, List.getElem?_eq_getElem hi⟩
    apply List.find?_eq_some_iff_getElem.mpr
    refine ⟨hname, i, hi, rfl, fun j hj => ?_⟩
    simpa using hbefore j hj
  · rintro ⟨f, hfield, hf⟩
    obtain ⟨hname, j, hj, hfirst, hbefore⟩ := List.find?_eq_some_iff_getElem.mp hfield
    obtain ⟨hi, hat⟩ := List.getElem?_eq_some_iff.mp hf
    obtain rfl : j = i :=
      (List.Nodup.of_map Field.name h).getElem_inj_iff.mp (hfirst.trans hat.symm)
    apply List.findIdx?_eq_some_iff_getElem.mpr
    refine ⟨hj, hfirst ▸ hname, fun k hk => ?_⟩
    simpa using hbefore k hk

/-- However schemas are built, their fields have distinct names; the first field of each name is
kept of a list of fields, and fields whose names are checked are kept as they are if these are
distinct, and refused otherwise.  Merging is associative with the schema without fields as neutral
element, and a name stands for the field of the left schema if that has one, at the position that
is told for the name. -/
theorem built_laws (hs : s.Built) (t u : Schema) :
  s.names.Nodup
    ∧ (∀ fields, (ofFields fields).fields = leading fields)
    ∧ (∀ fields, (fields.foldl Builder.add .empty).build = ofDistinct fields
      ∧ ((∃ s, ofDistinct fields = .ok s) ↔ (fields.map Field.name).Nodup)
      ∧ ∀ s, ofDistinct fields = .ok s → s.fields = fields ∧ s = ofFields fields)
    ∧ ((s.merge t).merge u = s.merge (t.merge u) ∧ s.merge empty = s ∧ empty.merge s = s)
    ∧ (∀ name, (s.merge t).field name = if name ∈ s.names then s.field name else t.field name)
    ∧ ∀ name i, (s.merge t).position name = .ok i
      ↔ ∃ f, (s.merge t).field name = .ok f ∧ (s.merge t).fields[i]? = some f
  := by
  have hmerge := nodup_names_ofFields (s.fields ++ t.fields)
  refine ⟨hs.nodup, fields_ofFields, fun fields => ⟨build_foldl_add fields, ?_⟩,
    ⟨merge_assoc s t u, merge_empty hs.nodup, empty_merge hs.nodup⟩, field_merge s t,
    fun _ _ => position_eq_ok_iff hmerge⟩
  simp only [ofDistinct_eq_ok]
  refine ⟨⟨fun ⟨_, h, _⟩ => h, fun h => ⟨_, h, rfl⟩⟩, ?_⟩
  rintro s ⟨hnodup, rfl⟩
  exact ⟨rfl, (ofFields_of_nodup hnodup).symm⟩

/-- Two tables that share the name of a field, and their join. -/
def sharedNames : Graph := ⟨#[
  .table ⟨some "a", none, ofFields [⟨"k", .int8⟩, ⟨"x", .string⟩, ⟨"k", .date⟩]⟩,
  .table ⟨some "b", none, ofFields [⟨"k", .int64⟩, ⟨"y", .date⟩]⟩,
  .join .cross ⟨0⟩ ⟨1⟩ []]⟩

theorem built_laws_sharedNames :
  ∃ s, sharedNames.schema ⟨2⟩ = .ok s ∧ s.names = ["k", "x", "y"] ∧ s.names.Nodup
    ∧ (s.merge ⟨[⟨"k", .null⟩, ⟨"z", .double⟩]⟩).field "k" = .ok ⟨"k", .int8⟩
    ∧ (s.merge ⟨[⟨"k", .null⟩, ⟨"z", .double⟩]⟩).position "z" = .ok 3
  := by
  have hschema : sharedNames.schema ⟨2⟩ = .ok ⟨[⟨"k", .int8⟩, ⟨"x", .string⟩, ⟨"y", .date⟩]⟩ := by
    decide
  have hbuilt : Built ⟨[⟨"k", .int8⟩, ⟨"x", .string⟩, ⟨"y", .date⟩]⟩ := by
    refine .relation (by decide) ?_ hschema
    intro t ht
    simp only [sharedNames, List.mem_cons, Node.table.injEq, reduceCtorEq, List.not_mem_nil,
      or_false] at ht
    rcases ht with rfl | rfl
    · exact .ofFields _
    · exact .ofFields _
  obtain ⟨hnodup, _, _, _, hfield, hposition⟩ :=
    built_laws hbuilt ⟨[⟨"k", .null⟩, ⟨"z", .double⟩]⟩ empty
  refine ⟨_, hschema, rfl, hnodup, ?_, (hposition "z" 3).mpr ⟨⟨"z", .double⟩, ?_, rfl⟩⟩
  · rw [hfield]
    rfl
  · rw [hfield]
    rfl

end Schema

end RelSql
