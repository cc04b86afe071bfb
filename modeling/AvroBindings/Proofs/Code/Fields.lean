import AvroBindings.Proofs.Code.Worded

/-! Declarations by their fields. An interface and a class have a property for each field of their
record, and the methods of the class an assignment for each, in the order of the fields. They are
made of words if the record is. -/

namespace AvroBindings

variable {context : Context} {record : Record} {field : Field} {direction : Direction}

theorem Record.eq_fieldList {fields : List Field} (h : record.fields.toList = .ok fields) :
    fields = record.fieldList := by
  unfold fieldList
  cases hf : record.fields with
  | absent =>
    rw [hf] at h
    cases h
    rfl
  | listed own =>
    rw [hf] at h
    cases h
    rfl
  | other value =>
    rw [hf] at h
    change Fields.noneIn value = .ok fields at h
    unfold Fields.noneIn at h
    split at h <;> cases h <;> rfl

def Field.optional (field : Field) : Bool := field.type?.any Schema.isOptional

theorem Field.optional_eq {type : Schema} (h : field.type? = some type) :
    field.optional = type.isOptional := by
  rw [optional, h, Option.any_some]

theorem Field.label_of_name {name : Json} (h : field.name = .ok name) :
    field.label = name.text := by
  rw [label, h]

theorem Property.of_ofField {property : Property} (h : ofField context field = .ok property) :
    ∃ type, field.type? = some type ∧ property.name = field.label ∧
      property.optional = type.isOptional ∧
      TypeExpr.ofProperty context type = .ok property.type := by
  obtain ⟨name, hn, h⟩ := Traversal.bind_eq_ok_iff.1 h
  obtain ⟨type, ht, h⟩ := Traversal.bind_eq_ok_iff.1 h
  obtain ⟨expression, he, h⟩ := Traversal.bind_eq_ok_iff.1 h
  cases h
  exact ⟨type, Field.type_eq_ok.1 ht, (Field.label_of_name hn).symm, rfl, he⟩

theorem Assignment.of_ofField {assignment : Assignment}
    (h : ofField context direction field = .ok assignment) :
    ∃ type, field.type? = some type ∧ assignment.name = field.label ∧
      Conversion.ofSchema direction context type (.field field.label) 0 type.isOptional =
        .ok assignment.value := by
  obtain ⟨type, ht, h⟩ := Traversal.bind_eq_ok_iff.1 h
  obtain ⟨name, hn, h⟩ := Traversal.bind_eq_ok_iff.1 h
  have hl := Field.label_of_name hn
  refine ⟨type, Field.type_eq_ok.1 ht, ?_⟩
  cases direction with
  | deserialize =>
    obtain ⟨value, hv, h⟩ := Traversal.bind_eq_ok_iff.1 h
    cases h
    exact ⟨hl.symm, hl ▸ hv⟩
  | serialize =>
    obtain ⟨value, hv, h⟩ := Traversal.bind_eq_ok_iff.1 h
    cases h
    exact ⟨hl.symm, hl ▸ hv⟩

def ClassDeclaration.method (declaration : ClassDeclaration) : Direction → Method
  | .deserialize => declaration.deserializer
  | .serialize => declaration.serializer

theorem Method.of_ofRecord {method : Method} (h : ofRecord context direction record = .ok method) :
    method.className = record.attributes.shortName ∧ method.direction = direction ∧
      record.fieldList.mapM (Assignment.ofField context direction) = .ok method.assignments := by
  obtain ⟨name, hn, h⟩ := Traversal.bind_eq_ok_iff.1 h
  obtain ⟨fields, hf, h⟩ := Traversal.bind_eq_ok_iff.1 h
  obtain ⟨assignments, ha, h⟩ := Traversal.bind_eq_ok_iff.1 h
  cases h
  rw [Record.eq_fieldList hf] at ha
  refine ⟨?_, rfl, ha⟩
  rw [Attributes.shortName, hn]

/-- What a class is made of. -/
structure ClassDeclaration.Of (context : Context) (record : Record) (own : ClassDeclaration) :
    Prop where
  name : own.name = record.attributes.shortName
  interface : ∃ name, record.attributes.interfaceName context.options = .ok name ∧
    own.interface = name.text
  fullName : ∃ name, record.attributes.qualifiedName = .ok name ∧ own.fullName = name.text
  properties : record.fieldList.mapM (Property.ofField context) = .ok own.properties
  method : ∀ direction, Method.ofRecord context direction record = .ok (own.method direction)

theorem ClassDeclaration.of_eq_ok {own : ClassDeclaration}
    (h : ofRecord context record = .ok own) : own.Of context record := by
  obtain ⟨name, hn, h⟩ := Traversal.bind_eq_ok_iff.1 h
  obtain ⟨interface, hi, h⟩ := Traversal.bind_eq_ok_iff.1 h
  obtain ⟨full, hq, h⟩ := Traversal.bind_eq_ok_iff.1 h
  obtain ⟨fields, hf, h⟩ := Traversal.bind_eq_ok_iff.1 h
  obtain ⟨properties, hp, h⟩ := Traversal.bind_eq_ok_iff.1 h
  obtain ⟨deserializer, hd, h⟩ := Traversal.bind_eq_ok_iff.1 h
  obtain ⟨serializer, hs, h⟩ := Traversal.bind_eq_ok_iff.1 h
  cases h
  rw [Record.eq_fieldList hf] at hp
  refine ⟨?_, ⟨interface, hi, rfl⟩, ⟨full, hq, rfl⟩, hp, fun direction => ?_⟩
  · rw [Attributes.shortName, hn]
  · cases direction with
    | deserialize => exact hd
    | serialize => exact hs

theorem Declaration.of_ofRecord {own : Declaration} (h : ofRecord context record = .ok own) :
    ∃ name properties, record.attributes.interfaceName context.options = .ok name ∧
      record.fieldList.mapM (Property.ofField context) = .ok properties ∧
      own = interface name.text properties := by
  obtain ⟨name, hn, h⟩ := Traversal.bind_eq_ok_iff.1 h
  obtain ⟨fields, hf, h⟩ := Traversal.bind_eq_ok_iff.1 h
  obtain ⟨properties, hp, h⟩ := Traversal.bind_eq_ok_iff.1 h
  cases h
  rw [Record.eq_fieldList hf] at hp
  exact ⟨name, properties, hn, hp, rfl⟩

structure Property.Worded (property : Property) : Prop where
  name : Word property.name
  type : property.type.Worded

section Spelled

variable (s : Spelling)

structure Assignment.Worded (assignment : Assignment) : Prop where
  name : Word assignment.name
  value : assignment.value.Worded s

structure Method.Worded (method : Method) : Prop where
  className : s.className method.className
  assignments : ∀ assignment ∈ method.assignments, assignment.Worded s

structure ClassDeclaration.Worded (declaration : ClassDeclaration) : Prop where
  name : s.className declaration.name
  interface : s.className declaration.interface
  fullName : Wordy declaration.fullName
  properties : ∀ property ∈ declaration.properties, property.Worded
  method : ∀ direction, (declaration.method direction).Worded s

def Declaration.Worded : Declaration → Prop
  | enumeration _ name symbols | stringUnion name symbols =>
    Wordy name ∧ ∀ symbol ∈ symbols, Word symbol
  | interface name properties => Wordy name ∧ ∀ property ∈ properties, property.Worded
  | classOf declaration => declaration.Worded s

end Spelled

/-- The words in a record, in the definitions that its field types lead to, and the names of its
fields. -/
structure Record.Worded (context : Context) (record : Record) : Prop where
  attributes : record.attributes.Worded
  labels : ∀ field ∈ record.fieldList, Word field.label
  types : ∀ type ∈ record.fields.types, type.Worded context

/-- A record that is made of words, with the names in its class spelled so. -/
structure Record.WordedBy (s : Spelling) (context : Context) (record : Record) : Prop where
  worded : record.Worded context
  name : s.className record.attributes.shortName
  interface : ∀ name, record.attributes.interfaceName context.options = .ok name →
    s.className name.text
  labels : ∀ field ∈ record.fieldList, s.field field.label
  types : ∀ type ∈ record.fields.types, type.WordedBy s context

variable {s : Spelling}

theorem Record.Worded.loose (h : record.Worded context) : record.WordedBy .loose context where
  worded := h
  name := h.attributes.name
  interface _ hn := h.attributes.wordy_interfaceName hn
  labels field hm := (h.labels field hm).wordy
  types type ht := (h.types type ht).loose

theorem Record.Worded.property (h : record.Worded context) (hm : field ∈ record.fieldList)
    {property : Property} (ho : Property.ofField context field = .ok property) :
    property.Worded := by
  obtain ⟨type, ht, hn, -, he⟩ := Property.of_ofField ho
  have hw := h.types type (mem_types.2 ⟨field, hm, ht⟩)
  exact ⟨hn ▸ h.labels field hm, TypeExpr.worded_ofProperty hw he⟩

theorem Record.Worded.properties (h : record.Worded context) {properties : List Property}
    (hp : record.fieldList.mapM (Property.ofField context) = .ok properties) :
    ∀ property ∈ properties, property.Worded := by
  intro property hm
  obtain ⟨field, hf, ho⟩ := Traversal.of_mem_mapM hp hm
  exact h.property hf ho

namespace Record.WordedBy

theorem assignment (h : record.WordedBy s context) (hm : field ∈ record.fieldList)
    {assignment : Assignment} (ho : Assignment.ofField context direction field = .ok assignment) :
    assignment.Worded s := by
  obtain ⟨type, ht, hn, hv⟩ := Assignment.of_ofField ho
  have hw := h.types type (mem_types.2 ⟨field, hm, ht⟩)
  have ha : (Access.field field.label).Worded s := h.labels field hm
  exact ⟨hn ▸ h.worded.labels field hm, Conversion.keepsWords direction hw _ 0 _ _ ha hv⟩

theorem method (h : record.WordedBy s context) {method : Method}
    (ho : Method.ofRecord context direction record = .ok method) : method.Worded s := by
  obtain ⟨hn, -, ha⟩ := Method.of_ofRecord ho
  refine ⟨hn ▸ h.name, fun assignment hm => ?_⟩
  obtain ⟨field, hf, ho⟩ := Traversal.of_mem_mapM ha hm
  exact h.assignment hf ho

theorem classDeclaration (h : record.WordedBy s context) {own : ClassDeclaration}
    (ho : own.Of context record) : own.Worded s := by
  obtain ⟨interface, hi, he⟩ := ho.interface
  obtain ⟨full, hf, hq⟩ := ho.fullName
  exact {
    name := ho.name ▸ h.name
    interface := he ▸ h.interface interface hi
    fullName := hq ▸ h.worded.attributes.wordy_qualifiedName hf
    properties := h.worded.properties ho.properties
    method := fun direction => h.method (ho.method direction) }

end Record.WordedBy

namespace Declaration

theorem worded_ofEnum {options : Options} {definition : Enum}
    (h : (Definition.enum definition).Worded) {own : Declaration}
    (ho : ofEnum options definition = .ok own) : own.Worded s := by
  obtain ⟨name, hn, ho⟩ := Traversal.bind_eq_ok_iff.1 ho
  obtain ⟨symbols, hs, ho⟩ := Traversal.bind_eq_ok_iff.1 ho
  have hw := h.2
  rw [Enum.symbolTexts, hs] at hw
  cases he : options.effectiveStyle <;> rw [he] at ho <;> cases ho <;>
    exact ⟨h.1.wordy_text hn, hw⟩

theorem worded_ofRecord (h : record.Worded context) {own : Declaration}
    (ho : ofRecord context record = .ok own) : own.Worded s := by
  obtain ⟨name, properties, hn, hp, rfl⟩ := of_ofRecord ho
  exact ⟨h.attributes.wordy_interfaceName hn, h.properties hp⟩

theorem worded_classOfRecord (h : record.WordedBy s context) {own : Declaration}
    (ho : classOfRecord context record = .ok own) : own.Worded s := by
  obtain ⟨declaration, hd, rfl⟩ := Traversal.map_eq_ok_iff.1 ho
  exact h.classDeclaration (ClassDeclaration.of_eq_ok hd)

end Declaration

end AvroBindings
