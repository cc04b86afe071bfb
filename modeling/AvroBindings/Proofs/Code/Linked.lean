import AvroBindings.Proofs.Code.Rows
import AvroBindings.Proofs.Linking

/-! Code generated after references are replaced. A reference leads to the same definition as the
full name it stands for, and replacing it changes neither the form of a schema nor its attributes,
so that every generator does the same before and after. -/

namespace AvroBindings

/-- Replacing names by a function changes nothing in where they lead. -/
def Context.Absorbs (context : Context) (resolve : String → String) : Prop :=
  ∀ name, unquoted (context.resolve (.str (resolve name))) = unquoted (context.resolve (.str name))

theorem Context.absorbs_resolution (context : Context) :
    context.Absorbs context.registry.resolution := by
  intro name
  cases hf : context.registry.find name with
  | error e => rw [Registry.resolution, hf]
  | ok found =>
    cases found with
    | none => rw [Registry.resolution, hf]
    | some full =>
      -- only an error tells which of the two names was looked up
      unfold resolve
      simp only [Registry.get, Registry.find_resolution hf, hf, Except.map, Option.map_some,
        Traversal.ok_bind]
      cases context.table.find? (.str full) <;> rfl

namespace Schema

variable {resolve : String → String}

theorem nonNull_map_linked (alternatives : List Schema) :
    nonNull (alternatives.map (linked resolve)) = (nonNull alternatives).map (linked resolve) := by
  have hn : (fun alternative => !alternative.isNull) ∘ linked resolve =
      fun alternative => !alternative.isNull :=
    funext fun alternative => congrArg not alternative.isNull_linked
  rw [nonNull, nonNull, List.filter_map, hn]

theorem any_isNull_map_linked (alternatives : List Schema) :
    (alternatives.map (linked resolve)).any isNull = alternatives.any isNull := by
  rw [List.any_map]
  congr 1
  exact funext isNull_linked

end Schema

variable {context : Context} {resolve : String → String}

namespace TypeExpr

theorem unquoted_ofSchema_linked (h : context.Absorbs resolve) (schema : Schema) :
    unquoted (ofSchema context (schema.linked resolve)) = unquoted (ofSchema context schema) := by
  induction schema using Schema.byChildren with
  | step schema ih =>
    cases schema with
    | reference name => simp only [Schema.linked, ofSchema, unquoted_bind, h name]
    | record own =>
      simp only [Schema.linked, ofSchema, ofDefinition, Record.attributes_linked]
    | union alternatives =>
      have ha : ∀ alternative ∈ alternatives, _ := ih
      rw [Schema.linked, Schema.linkedAll_eq, ofSchema, ofSchema, ofSchemas_eq, ofSchemas_eq,
        unquoted_bind, unquoted_bind, unquoted_mapM_map ha]
    | array before items after =>
      cases items with
      | none => rfl
      | some items => simp only [Schema.linked, ofSchema, unquoted_bind, ih items (by simp)]
    | map before values after =>
      cases values with
      | none => rfl
      | some values => simp only [Schema.linked, ofSchema, unquoted_bind, ih values (by simp)]
    | primitive name wrapper => rfl
    | enum own => rfl
    | unknown value => rfl

theorem unquoted_ofProperty_linked (h : context.Absorbs resolve) (schema : Schema) :
    unquoted (ofProperty context (schema.linked resolve)) = unquoted (ofProperty context schema) := by
  have hs := unquoted_ofSchema_linked h
  cases schema with
  | union alternatives =>
    obtain _ | ⟨first, _ | ⟨second, rest⟩⟩ := alternatives
    · exact hs (.union [])
    · exact hs (.union [first])
    · -- what is left of an optional union is linked as a part of the whole
      change unquoted (ofSchema context (if (first.linked resolve).isNull then
        (Schema.union (second :: rest)).linked resolve
        else (Schema.union (first :: second :: rest)).linked resolve)) = _
      rw [Schema.isNull_linked, ← apply_ite (Schema.linked resolve)]
      exact hs _
  | array before items after => cases items <;> exact hs _
  | map before values after => cases values <;> exact hs _
  | primitive name wrapper => exact hs _
  | reference name => exact hs (.reference name)
  | enum own => exact hs (.enum own)
  | record own => exact hs (.record own)
  | unknown value => exact hs (.unknown value)

end TypeExpr

theorem Choice.unquoted_ofSchema_linked {α : Type} (choice : Choice α)
    (h : context.Absorbs resolve) (schema : Schema) :
    unquoted (choice.ofSchema context (schema.linked resolve)) =
      unquoted (choice.ofSchema context schema) := by
  cases schema with
  | reference name => simp only [Schema.linked, ofSchema, unquoted_bind, h name]
  | record own => simp only [Schema.linked, ofSchema, ofDefinition, Record.attributes_linked]
  | array before items after => cases items <;> rfl
  | map before values after => cases values <;> rfl
  | _ => rfl

theorem Tag.unquoted_ofSchema_linked (h : context.Absorbs resolve) (schema : Schema) :
    unquoted (ofSchema context (schema.linked resolve)) = unquoted (ofSchema context schema) :=
  choice_ofSchema ▸ choice.unquoted_ofSchema_linked h schema

theorem Test.unquoted_ofSchema_linked (h : context.Absorbs resolve) (schema : Schema) :
    unquoted (ofSchema context (schema.linked resolve)) = unquoted (ofSchema context schema) :=
  choice_ofSchema ▸ choice.unquoted_ofSchema_linked h schema

def Schema.ConvertsLinked (context : Context) (resolve : String → String) (schema : Schema) :
    Prop :=
  ∀ direction access depth optional,
    unquoted (Conversion.ofSchema direction context (schema.linked resolve) access depth optional) =
      unquoted (Conversion.ofSchema direction context schema access depth optional)

theorem Branch.unquoted_ofAlternative_linked (h : context.Absorbs resolve) {alternative : Schema}
    (ha : alternative.ConvertsLinked context resolve) (direction : Direction) (access : Access)
    (depth : Int) :
    unquoted (ofAlternative direction context access depth (alternative.linked resolve)) =
      unquoted (ofAlternative direction context access depth alternative) := by
  unfold Schema.ConvertsLinked at ha
  cases direction with
  | deserialize =>
    simp only [ofAlternative, unquoted_bind, Tag.unquoted_ofSchema_linked h, ha]
  | serialize =>
    simp only [ofAlternative, unquoted_bind, Tag.unquoted_ofSchema_linked h,
      Test.unquoted_ofSchema_linked h, ha]

namespace Conversion

theorem unquoted_entriesType_linked (h : context.Absorbs resolve) (values : Schema)
    (direction : Direction) :
    unquoted (entriesType context (values.linked resolve) direction) =
      unquoted (entriesType context values direction) := by
  cases direction with
  | deserialize =>
    rw [entriesType, entriesType, unquoted_map, unquoted_map, TypeExpr.unquoted_ofSchema_linked h]
  | serialize => rfl

theorem unquoted_ofSchema_linked (h : context.Absorbs resolve) (schema : Schema) :
    schema.ConvertsLinked context resolve := by
  induction schema using Schema.byChildren with
  | step schema ih =>
    intro direction access depth optional
    cases schema with
    | reference name =>
      cases direction with
      | deserialize => simp only [Schema.linked, ofSchema, deserialize, unquoted_bind, h name]
      | serialize => simp only [Schema.linked, ofSchema, serialize, unquoted_bind, h name]
    | record own =>
      cases direction with
      | deserialize =>
        simp only [Schema.linked, ofSchema, deserialize, deserializeDefinition,
          Record.attributes_linked]
      | serialize =>
        simp only [Schema.linked, ofSchema, serialize, serializeDefinition,
          Record.attributes_linked]
    | union alternatives =>
      rw [Schema.linked, Schema.linkedAll_eq]
      by_cases hl : alternatives.length = 1
      · obtain ⟨only, rfl⟩ := List.length_eq_one_iff.1 hl
        rw [List.map_singleton, ofSchema_single, ofSchema_single]
        exact ih only (by simp) direction access depth optional
      · have hm : (alternatives.map (Schema.linked resolve)).length ≠ 1 := by simpa using hl
        have hb : ∀ alternative ∈ Schema.nonNull alternatives, _ := fun alternative hn =>
          Branch.unquoted_ofAlternative_linked h (ih alternative (Schema.mem_nonNull.1 hn).1)
            direction access depth
        rw [ofSchema_union _ _ _ _ _ hm, ofSchema_union _ _ _ _ _ hl, unquoted_bind, unquoted_bind,
          Schema.nonNull_map_linked, unquoted_mapM_map hb, Branch.nullBranches,
          Schema.any_isNull_map_linked]
        rfl
    | array before items after =>
      cases items with
      | none => rfl
      | some items =>
        rw [Schema.linked, ofSchema_array, ofSchema_array, unquoted_map, unquoted_map,
          Schema.isMultiUnion_linked, ih items (by simp)]
    | map before values after =>
      cases values with
      | none => rfl
      | some values =>
        have hv := ih values (by simp)
        unfold Schema.ConvertsLinked at hv
        rw [Schema.linked, ofSchema_map, ofSchema_map]
        simp only [unquoted_bind, unquoted_entriesType_linked h, hv]
    | primitive name wrapper => rfl
    | enum own => rfl
    | unknown value => rfl

end Conversion

theorem Property.unquoted_ofField_linked (h : context.Absorbs resolve) (field : Field) :
    unquoted (ofField context (field.linked resolve)) = unquoted (ofField context field) := by
  unfold ofField
  rw [Field.name_linked, Field.type_linked]
  cases field.type with
  | error e => rfl
  | ok type =>
    simp only [Except.map, Traversal.ok_bind, unquoted_bind, TypeExpr.unquoted_ofProperty_linked h,
      Schema.isOptional_linked]

theorem Assignment.unquoted_ofField_linked (h : context.Absorbs resolve) (direction : Direction)
    (field : Field) :
    unquoted (ofField context direction (field.linked resolve)) =
      unquoted (ofField context direction field) := by
  have hc (schema : Schema) := Conversion.unquoted_ofSchema_linked h schema direction
  unfold ofField
  rw [Field.name_linked, Field.type_linked]
  cases field.type with
  | error e => rfl
  | ok type =>
    cases direction <;> simp only [Conversion.ofSchema] at hc <;>
      simp only [Except.map, Traversal.ok_bind, unquoted_bind, Schema.isOptional_linked, hc]

section Records

variable {definition : Record} {fields : List Field}

theorem Fields.linked_of_toList {own : Fields} (h : own.toList = .ok fields) :
    own.linked resolve = fields.map (Field.linked resolve) := by
  cases own with
  | absent =>
    cases h
    rfl
  | listed listed =>
    cases h
    exact Field.linkedAll_eq fields
  | other value =>
    obtain rfl := noneIn_eq_nil h
    rfl

theorem Fields.exists_toList_of_link {registry : Registry} {own : Fields} {linked : List Field}
    (h : own.link registry = .ok linked) : ∃ fields, own.toList = .ok fields := by
  cases own with
  | absent => exact ⟨[], rfl⟩
  | listed fields => exact ⟨fields, rfl⟩
  | other value => exact ⟨linked, h⟩

theorem Record.exists_toList_of_link {registry : Registry} {linked : Record}
    (h : definition.link registry = .ok linked) :
    ∃ fields, definition.fields.toList = .ok fields := by
  obtain ⟨before, own, after⟩ := definition
  obtain ⟨listed, hl, -⟩ := Traversal.bind_eq_ok_iff.1 h
  exact Fields.exists_toList_of_link hl

theorem Record.toList_fields_linked (h : definition.fields.toList = .ok fields) :
    (definition.linked resolve).fields.toList = .ok (fields.map (Field.linked resolve)) := by
  rw [fields_linked, Fields.toList, Fields.linked_of_toList h]

theorem Declaration.unquoted_ofRecord_linked (h : context.Absorbs resolve)
    (hf : definition.fields.toList = .ok fields) :
    unquoted (ofRecord context (definition.linked resolve)) =
      unquoted (ofRecord context definition) := by
  have hp := unquoted_mapM_map fun field (_ : field ∈ fields) =>
    Property.unquoted_ofField_linked h field
  unfold ofRecord
  rw [Record.attributes_linked, Record.toList_fields_linked hf, hf]
  simp only [Traversal.ok_bind, unquoted_bind, hp]

theorem Method.unquoted_ofRecord_linked (h : context.Absorbs resolve) (direction : Direction)
    (hf : definition.fields.toList = .ok fields) :
    unquoted (ofRecord context direction (definition.linked resolve)) =
      unquoted (ofRecord context direction definition) := by
  have ha := unquoted_mapM_map fun field (_ : field ∈ fields) =>
    Assignment.unquoted_ofField_linked h direction field
  unfold ofRecord
  rw [Record.attributes_linked, Record.toList_fields_linked hf, hf]
  simp only [Traversal.ok_bind, unquoted_bind, ha]

end Records

/-- Replacing the references of a schema by the full names that they stand for changes nothing in
the code generated for it: every generator gives the same, or fails with the same error before and
after, which may only quote another reference or schema. -/
theorem unquoted_eq_of_link {schema linked : Schema} (h : schema.link context.registry = .ok linked) :
    unquoted (TypeExpr.ofSchema context linked) = unquoted (TypeExpr.ofSchema context schema) ∧
    unquoted (TypeExpr.ofProperty context linked) = unquoted (TypeExpr.ofProperty context schema) ∧
    unquoted (Tag.ofSchema context linked) = unquoted (Tag.ofSchema context schema) ∧
    unquoted (Test.ofSchema context linked) = unquoted (Test.ofSchema context schema) ∧
    (∀ direction access depth optional,
      unquoted (Conversion.ofSchema direction context linked access depth optional) =
        unquoted (Conversion.ofSchema direction context schema access depth optional)) ∧
    ∀ definition, schema = .record definition → ∃ other, linked = .record other ∧
      unquoted (Declaration.ofRecord context other) =
        unquoted (Declaration.ofRecord context definition) ∧
      ∀ direction, unquoted (Method.ofRecord context direction other) =
        unquoted (Method.ofRecord context direction definition) := by
  have ha := context.absorbs_resolution
  obtain rfl := schema.eq_linked_of_link linked h
  refine ⟨TypeExpr.unquoted_ofSchema_linked ha schema, TypeExpr.unquoted_ofProperty_linked ha schema,
    Tag.unquoted_ofSchema_linked ha schema, Test.unquoted_ofSchema_linked ha schema,
    Conversion.unquoted_ofSchema_linked ha schema, ?_⟩
  rintro definition rfl
  obtain ⟨other, ho, -⟩ := Traversal.bind_eq_ok_iff.1 h
  obtain ⟨fields, hf⟩ := Record.exists_toList_of_link ho
  exact ⟨definition.linked context.registry.resolution, rfl,
    Declaration.unquoted_ofRecord_linked ha hf,
    fun direction => Method.unquoted_ofRecord_linked ha direction hf⟩

def Record.lineOf (name : String) : Record :=
  .mk [("type", .str "record"), ("name", .str "Line")]
    (.listed [.mk [("name", .str "points")]
      (some (.array [("type", .str "array")] (some (.reference name)) [])) []]) []

theorem unquoted_eq_of_link_line :
    (Schema.record (.lineOf "Point")).link Context.point.registry =
      .ok (.record (.lineOf "geo.Point")) ∧
    unquoted (Declaration.ofRecord .point (.lineOf "geo.Point")) =
      unquoted (Declaration.ofRecord .point (.lineOf "Point")) ∧
    unquoted (Method.ofRecord .point .deserialize (.lineOf "geo.Point")) =
      unquoted (Method.ofRecord .point .deserialize (.lineOf "Point")) := by
  have hl : (Schema.record (.lineOf "Point")).link Context.point.registry =
    .ok (.record (.lineOf "geo.Point")) := rfl
  obtain ⟨-, -, -, -, -, hr⟩ := unquoted_eq_of_link hl
  obtain ⟨other, ho, hd, hm⟩ := hr (.lineOf "Point") rfl
  cases ho
  exact ⟨hl, hd, hm .deserialize⟩

end AvroBindings
