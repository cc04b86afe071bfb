import AvroBindings.Proofs.Schema.Named
import AvroBindings.Proofs.Traversal

/-! Replacing references, told as a function between schemas. On a well-formed schema the traversal
that resolves references succeeds if each of them can be looked up, and else fails with what the
first one fails with. Where it succeeds, on any schema, the function gives the same. -/

namespace AvroBindings

mutual
/-- A schema whose references are replaced by a function of their names. -/
def Schema.linked (resolve : String → String) : Schema → Schema
  | .reference name => .reference (resolve name)
  | .union alternatives => .union (Schema.linkedAll resolve alternatives)
  | .record definition => .record (definition.linked resolve)
  | .array before (some items) after => .array before (some (items.linked resolve)) after
  | .map before (some values) after => .map before (some (values.linked resolve)) after
  | schema => schema

def Schema.linkedAll (resolve : String → String) : List Schema → List Schema
  | [] => []
  | schema :: rest => schema.linked resolve :: Schema.linkedAll resolve rest

def Record.linked (resolve : String → String) : Record → Record
  | .mk before fields after => .mk before (.listed (fields.linked resolve)) after

def Fields.linked (resolve : String → String) : Fields → List Field
  | .listed fields => Field.linkedAll resolve fields
  | _ => []

def Field.linkedAll (resolve : String → String) : List Field → List Field
  | [] => []
  | field :: rest => field.linked resolve :: Field.linkedAll resolve rest

def Field.linked (resolve : String → String) : Field → Field
  | .mk before (some type) after => .mk before (some (type.linked resolve)) after
  | field => field
end

variable {resolve : String → String}

theorem Schema.linkedAll_eq (schemas : List Schema) :
    Schema.linkedAll resolve schemas = schemas.map (Schema.linked resolve) := by
  induction schemas with
  | nil => rfl
  | cons schema rest ih => rw [linkedAll, ih, List.map_cons]

theorem Field.linkedAll_eq (fields : List Field) :
    Field.linkedAll resolve fields = fields.map (Field.linked resolve) := by
  induction fields with
  | nil => rfl
  | cons field rest ih => rw [linkedAll, ih, List.map_cons]

theorem Field.type?_linked (field : Field) :
    (field.linked resolve).type? = field.type?.map (Schema.linked resolve) := by
  obtain ⟨before, _ | type, after⟩ | value := field <;> rfl

theorem Field.type_linked (field : Field) :
    (field.linked resolve).type = field.type.map (Schema.linked resolve) := by
  obtain ⟨before, _ | type, after⟩ | value := field <;> rfl

theorem Field.name_linked (field : Field) : (field.linked resolve).name = field.name := by
  obtain ⟨before, _ | type, after⟩ | value := field <;> rfl

theorem Fields.types_linked (fields : Fields) :
    (Fields.listed (fields.linked resolve)).types = fields.types.map (Schema.linked resolve) := by
  cases fields with
  | listed fields =>
    rw [Fields.linked, Field.linkedAll_eq, types, types, List.filterMap_map, List.map_filterMap]
    exact congrArg (List.filterMap · fields) (funext Field.type?_linked)
  | absent => rfl
  | other value => rfl

theorem Record.attributes_linked (definition : Record) :
    (definition.linked resolve).attributes = definition.attributes := by
  obtain ⟨before, fields, after⟩ := definition
  rfl

theorem Record.fields_linked (definition : Record) :
    (definition.linked resolve).fields = .listed (definition.fields.linked resolve) := by
  obtain ⟨before, fields, after⟩ := definition
  rfl

theorem Field.proper_linked {field : Field} (h : field.Proper) : (field.linked resolve).Proper := by
  obtain ⟨before, type, after, rfl⟩ := h.exists_mk
  exact ⟨h.name, type.linked resolve, rfl⟩

theorem Fields.proper_linked {fields : Fields} (h : fields.Proper) :
    (Fields.listed (fields.linked resolve)).Proper := by
  cases fields with
  | listed fields =>
    intro field hf
    rw [Fields.linked, Field.linkedAll_eq, List.mem_map] at hf
    obtain ⟨field, hm, rfl⟩ := hf
    exact Field.proper_linked (h field hm)
  | absent => intro field hf; cases hf
  | other value => intro field hf; cases hf

def Definition.linked (resolve : String → String) : Definition → Definition
  | enum definition => enum definition
  | record definition => record (definition.linked resolve)

theorem Definition.attributes_linked (definition : Definition) :
    (definition.linked resolve).attributes = definition.attributes := by
  cases definition with
  | enum definition => rfl
  | record definition => exact definition.attributes_linked

namespace Schema

theorem isUnion_linked (schema : Schema) : (schema.linked resolve).isUnion = schema.isUnion := by
  cases schema with
  | array before items after => cases items <;> rfl
  | map before values after => cases values <;> rfl
  | _ => rfl

theorem isNull_linked (schema : Schema) : (schema.linked resolve).isNull = schema.isNull := by
  cases schema with
  | array before items after => cases items <;> rfl
  | map before values after => cases values <;> rfl
  | _ => rfl

theorem isMultiUnion_linked (schema : Schema) :
    (schema.linked resolve).isMultiUnion = schema.isMultiUnion := by
  cases schema with
  | union alternatives => obtain _ | ⟨first, _ | ⟨second, rest⟩⟩ := alternatives <;> rfl
  | array before items after => cases items <;> rfl
  | map before values after => cases values <;> rfl
  | _ => rfl

theorem isOptional_linked (schema : Schema) :
    (schema.linked resolve).isOptional = schema.isOptional := by
  cases schema with
  | union alternatives =>
    cases alternatives with
    | nil => rfl
    | cons first rest => exact first.isNull_linked
  | array before items after => cases items <;> rfl
  | map before values after => cases values <;> rfl
  | _ => rfl

theorem definition?_linked (schema : Schema) :
    (schema.linked resolve).definition? = schema.definition?.map (Definition.linked resolve) := by
  cases schema with
  | array before items after => cases items <;> rfl
  | map before values after => cases values <;> rfl
  | _ => rfl

theorem children_linked (schema : Schema) :
    (schema.linked resolve).children = schema.children.map (linked resolve) := by
  cases schema with
  | union alternatives => exact linkedAll_eq alternatives
  | record definition =>
    obtain ⟨before, fields, after⟩ := definition
    exact fields.types_linked
  | array before items after => cases items <;> rfl
  | map before values after => cases values <;> rfl
  | primitive name wrapper => rfl
  | reference name => rfl
  | enum definition => rfl
  | unknown value => rfl

theorem positions_linked (schema : Schema) :
    (schema.linked resolve).positions = schema.positions.map (linked resolve) := by
  induction schema using byChildren with
  | step schema ih =>
    rw [positions_eq, positions_eq schema, children_linked, List.map_cons, List.map_flatMap,
      List.flatMap_map]
    congr 1
    rw [List.flatMap_def, List.flatMap_def]
    exact congrArg List.flatten (List.map_congr_left ih)

theorem operands_linked (schema : Schema) :
    (schema.linked resolve).operands = schema.operands.map (linked resolve) := by
  cases schema with
  | union alternatives => exact linkedAll_eq alternatives
  | array before items after => cases items <;> rfl
  | map before values after => cases values <;> rfl
  | record definition => rfl
  | primitive name wrapper => rfl
  | reference name => rfl
  | enum definition => rfl
  | unknown value => rfl

theorem constituents_linked (schema : Schema) :
    (schema.linked resolve).constituents = schema.constituents.map (linked resolve) := by
  induction schema using byChildren with
  | step schema ih =>
    rw [constituents_eq, constituents_eq schema, operands_linked, List.map_cons, List.map_flatMap,
      List.flatMap_map]
    congr 1
    rw [List.flatMap_def, List.flatMap_def]
    congr 1
    exact List.map_congr_left fun operand ho => ih operand (operands_subset_children schema ho)

theorem proper_linked {schema : Schema} (h : schema.Proper) : (schema.linked resolve).Proper := by
  cases schema with
  | enum definition => exact h
  | record definition =>
    refine ⟨?_, ?_⟩
    · rw [Record.attributes_linked]
      exact h.named
    · rw [Record.fields_linked]
      exact Fields.proper_linked h.fields
  | array before items after => cases items <;> exact h
  | map before values after => cases values <;> exact h
  | union alternatives => trivial
  | primitive name wrapper => trivial
  | reference name => trivial
  | unknown value => trivial

theorem wellFormed_linked {schema : Schema} (h : schema.WellFormed) :
    (schema.linked resolve).WellFormed := by
  intro type ht
  rw [positions_linked, List.mem_map] at ht
  obtain ⟨origin, ho, rfl⟩ := ht
  exact proper_linked (h origin ho)

theorem allSettled_linked {schema : Schema} (h : schema.AllSettled) :
    (schema.linked resolve).AllSettled := by
  intro type ht definition hd
  rw [positions_linked, List.mem_map] at ht
  obtain ⟨origin, ho, rfl⟩ := ht
  rw [definition?_linked] at hd
  obtain ⟨own, hw, rfl⟩ := Option.map_eq_some_iff.1 hd
  rw [Definition.attributes_linked]
  exact h origin ho own hw

theorem fullNames_linked (schema : Schema) : (schema.linked resolve).fullNames = schema.fullNames := by
  unfold fullNames
  rw [positions_linked, List.filterMap_map, List.map_filterMap, List.map_filterMap]
  congr 1
  funext type
  rw [Function.comp_apply, definition?_linked, Option.map_map]
  congr 1
  funext definition
  simp [Definition.attributes_linked]

end Schema

/-- The name that a reference is replaced by: the full name it stands for, or itself. -/
def Registry.resolution (registry : Registry) (name : String) : String :=
  match registry.find name with
  | .ok (some full) => full
  | _ => name

theorem Registry.linkName_of_find {registry : Registry} {name : String} {full : Option String}
    (h : registry.find name = .ok full) :
    registry.linkName name = .ok (registry.resolution name) := by
  unfold linkName resolution
  rw [h]
  cases full <;> rfl

section Link

variable {registry : Registry}

def Schema.LinksWell (registry : Registry) (schema : Schema) : Prop :=
  schema.link registry =
    (schema.references.mapM registry.linkName).map fun _ => schema.linked registry.resolution

theorem Schema.linkAll_eq {schemas : List Schema}
    (h : ∀ schema ∈ schemas, schema.LinksWell registry) :
    Schema.linkAll registry schemas =
      ((schemas.flatMap Schema.references).mapM registry.linkName).map fun _ =>
        Schema.linkedAll registry.resolution schemas := by
  induction schemas with
  | nil => rfl
  | cons schema rest ih =>
    have hs : schema.LinksWell registry := h schema List.mem_cons_self
    have hr := ih fun other ho => h other (List.mem_cons_of_mem schema ho)
    rw [linkAll, hs, hr, List.flatMap_cons, List.mapM_append]
    cases schema.references.mapM registry.linkName with
    | error e => rfl
    | ok names => cases (rest.flatMap references).mapM registry.linkName <;> rfl

theorem Field.linkAll_eq {fields : List Field} (hf : ∀ field ∈ fields, field.Proper)
    (h : ∀ type ∈ (Fields.listed fields).types, type.LinksWell registry) :
    Field.linkAll registry fields =
      ((Field.referencesAll fields).mapM registry.linkName).map fun _ =>
        Field.linkedAll registry.resolution fields := by
  induction fields with
  | nil => rfl
  | cons field rest ih =>
    obtain ⟨before, type, after, rfl⟩ := (hf field List.mem_cons_self).exists_mk
    have ht : type.LinksWell registry := h type (by simp [Fields.types, Field.type?])
    have hr := ih (fun other ho => hf other (List.mem_cons_of_mem _ ho)) fun other ho => by
      apply h other
      simp only [Fields.types, Field.type?, List.filterMap_cons] at ho ⊢
      exact List.mem_cons_of_mem type ho
    rw [linkAll, Field.link, ht, hr, referencesAll, references, List.mapM_append]
    cases type.references.mapM registry.linkName with
    | error e => rfl
    | ok names => cases (Field.referencesAll rest).mapM registry.linkName <;> rfl

theorem Record.link_eq {definition : Record} (h : definition.Proper)
    (hc : ∀ type ∈ definition.fields.types, type.LinksWell registry) :
    definition.link registry =
      (definition.references.mapM registry.linkName).map fun _ =>
        definition.linked registry.resolution := by
  obtain ⟨before, fields, after⟩ := definition
  cases fields with
  | absent => rfl
  | listed fields =>
    rw [link, Fields.link, Field.linkAll_eq h.fields hc, references]
    cases (Field.referencesAll fields).mapM registry.linkName <;> rfl
  | other value => cases h.fields

/-- Linking a well-formed schema fails only where a reference cannot be looked up, at the first
such reference. -/
theorem Schema.link_eq {schema : Schema} (h : schema.WellFormed) :
    schema.link registry =
      (schema.references.mapM registry.linkName).map fun _ =>
        schema.linked registry.resolution := by
  induction schema using Schema.byChildren with
  | step schema ih =>
    have hc : ∀ child ∈ schema.children, child.LinksWell registry :=
      fun child hm => ih child hm (h.child hm)
    cases schema with
    | reference name =>
      cases hf : registry.find name with
      | error e => simp [link, references, Registry.linkName, hf, bind, Except.bind, Except.map]
      | ok full =>
        simp [link, references, linked, Registry.linkName_of_find hf, bind, Except.bind,
          Except.map, pure, Except.pure]
    | union alternatives =>
      have ha : linkAll registry alternatives = _ := linkAll_eq hc
      rw [link, ha, references, referencesAll_eq]
      cases (alternatives.flatMap references).mapM registry.linkName <;> rfl
    | record definition =>
      rw [link, Record.link_eq h.proper hc, references]
      cases definition.references.mapM registry.linkName <;> rfl
    | array before items after =>
      cases items with
      | none => cases h.proper
      | some items =>
        have hi : items.LinksWell registry := hc items (by simp)
        rw [link, hi, references]
        cases items.references.mapM registry.linkName <;> rfl
    | map before values after =>
      cases values with
      | none => cases h.proper
      | some values =>
        have hv : values.LinksWell registry := hc values (by simp)
        rw [link, hv, references]
        cases values.references.mapM registry.linkName <;> rfl
    | enum definition => rfl
    | primitive name wrapper => rfl
    | unknown value => rfl

def Schema.LinksOnly (registry : Registry) (schema : Schema) : Prop :=
  ∀ result, schema.link registry = .ok result → result = schema.linked registry.resolution

theorem Registry.eq_resolution_of_linkName {name full : String}
    (h : registry.linkName name = .ok full) : full = registry.resolution name := by
  obtain ⟨found, hf, -⟩ := Traversal.map_eq_ok_iff.1 h
  rw [linkName_of_find hf] at h
  exact (Except.ok.inj h).symm

theorem Schema.linkAll_eq_mapM (schemas : List Schema) :
    linkAll registry schemas = schemas.mapM (link registry) := by
  induction schemas with
  | nil => rfl
  | cons schema rest ih => rw [linkAll, ih, List.mapM_cons]

theorem Field.linkAll_eq_mapM (fields : List Field) :
    linkAll registry fields = fields.mapM (link registry) := by
  induction fields with
  | nil => rfl
  | cons field rest ih => rw [linkAll, ih, List.mapM_cons]

theorem Field.eq_linked_of_link {field result : Field} (h : field.link registry = .ok result)
    (ht : ∀ type ∈ field.type?, type.LinksOnly registry) :
    result = field.linked registry.resolution := by
  obtain ⟨before, _ | type, after⟩ | value := field
  · cases h
  · rw [link] at h
    obtain ⟨linked, hl, h⟩ := Traversal.bind_eq_ok_iff.1 h
    cases h
    rw [ht type rfl linked hl, Field.linked]
  · cases h

theorem Fields.noneIn_eq_nil {value : Json} {fields : List Field} (h : noneIn value = .ok fields) :
    fields = [] := by
  unfold noneIn at h
  split at h <;> first | (cases h; rfl) | cases h

theorem Fields.eq_linked_of_link {fields : Fields} {result : List Field}
    (h : fields.link registry = .ok result)
    (ht : ∀ type ∈ fields.types, type.LinksOnly registry) :
    result = fields.linked registry.resolution := by
  cases fields with
  | absent =>
    cases h
    rfl
  | listed fields =>
    rw [link, Field.linkAll_eq_mapM] at h
    rw [linked, Field.linkedAll_eq, ← List.map_id result]
    refine (Traversal.map_eq_of_forall₂ (List.Forall₂.flip ?_)).symm
    exact Traversal.forall₂_of_mapM h fun field hf other ho =>
      (Field.eq_linked_of_link ho fun type hy =>
        ht type (List.mem_filterMap.2 ⟨field, hf, hy⟩)).symm
  | other value => exact noneIn_eq_nil h

theorem Record.eq_linked_of_link {definition result : Record}
    (h : definition.link registry = .ok result)
    (ht : ∀ type ∈ definition.fields.types, type.LinksOnly registry) :
    result = definition.linked registry.resolution := by
  obtain ⟨before, fields, after⟩ := definition
  rw [link] at h
  obtain ⟨linked, hl, h⟩ := Traversal.bind_eq_ok_iff.1 h
  cases h
  rw [Fields.eq_linked_of_link hl ht, Record.linked]

theorem Schema.eq_linked_of_link (schema : Schema) : schema.LinksOnly registry := by
  induction schema using byChildren with
  | step schema ih =>
    intro result h
    cases schema with
    | reference name =>
      rw [link] at h
      obtain ⟨full, hf, h⟩ := Traversal.bind_eq_ok_iff.1 h
      cases h
      rw [Registry.eq_resolution_of_linkName hf, linked]
    | union alternatives =>
      rw [link, linkAll_eq_mapM] at h
      obtain ⟨results, hr, h⟩ := Traversal.bind_eq_ok_iff.1 h
      cases h
      rw [linked, linkedAll_eq, ← List.map_id results]
      congr 1
      refine (Traversal.map_eq_of_forall₂ (List.Forall₂.flip ?_)).symm
      exact Traversal.forall₂_of_mapM hr fun alternative ha other ho =>
        (ih alternative ha other ho).symm
    | record definition =>
      rw [link] at h
      obtain ⟨other, ho, h⟩ := Traversal.bind_eq_ok_iff.1 h
      cases h
      rw [Record.eq_linked_of_link ho ih, linked]
    | array before items after =>
      cases items with
      | none => cases h
      | some items =>
        rw [link] at h
        obtain ⟨other, ho, h⟩ := Traversal.bind_eq_ok_iff.1 h
        cases h
        rw [ih items (by simp) other ho, linked]
    | map before values after =>
      cases values with
      | none => cases h
      | some values =>
        rw [link] at h
        obtain ⟨other, ho, h⟩ := Traversal.bind_eq_ok_iff.1 h
        cases h
        rw [ih values (by simp) other ho, linked]
    | primitive name wrapper =>
      cases h
      rfl
    | enum definition =>
      cases h
      rfl
    | unknown value =>
      cases h
      rfl

end Link

end AvroBindings
