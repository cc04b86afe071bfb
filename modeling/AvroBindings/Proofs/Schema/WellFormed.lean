import AvroBindings.Proofs.Schema.Positions

/-! Well-formed schemas. Every node at a type position has the members it needs, definitions have
texts as names, and their namespaces are texts where they are given. On these the traversals
always succeed, up to references that are ambiguous. -/

namespace AvroBindings

/-- The name of a definition is a text, whatever its namespace is. -/
def Attributes.Titled (attributes : Attributes) : Prop :=
  ∃ name, attributes.name = .ok (.str name)

/-- The name of a definition is a text, and its namespace is absent, null or a text. -/
structure Attributes.Named (attributes : Attributes) : Prop where
  name : ∃ name, attributes.name = .ok (.str name)
  space : attributes.space = .null ∨ ∃ space, attributes.space = .str space

theorem Attributes.Named.titled {attributes : Attributes} (h : attributes.Named) :
    attributes.Titled :=
  h.name

structure Field.Proper (field : Field) : Prop where
  name : ∃ name, field.name = .ok (.str name)
  type : ∃ type, field.type? = some type

def Fields.Proper : Fields → Prop
  | .absent => True
  | .listed fields => ∀ field ∈ fields, field.Proper
  | .other _ => False

structure Enum.Proper (definition : Enum) : Prop where
  named : definition.attributes.Named
  symbols : definition.attributes.get? "symbols" = none ∨
    ∃ symbols, definition.attributes.get? "symbols" = some (.arr symbols)

structure Record.Proper (definition : Record) : Prop where
  named : definition.attributes.Named
  fields : definition.fields.Proper

structure Enum.Legible (definition : Enum) : Prop where
  titled : definition.attributes.Titled
  symbols : definition.attributes.get? "symbols" = none ∨
    ∃ symbols, definition.attributes.get? "symbols" = some (.arr symbols)

theorem Enum.Proper.legible {definition : Enum} (h : definition.Proper) : definition.Legible :=
  ⟨h.named.titled, h.symbols⟩

namespace Schema

/-- What is asked of a single node. -/
def Proper : Schema → Prop
  | enum definition => definition.Proper
  | record definition => definition.Proper
  | array _ items _ => items.isSome
  | map _ values _ => values.isSome
  | _ => True

def WellFormed (schema : Schema) : Prop := ∀ type ∈ schema.positions, type.Proper

/-- What generated code reads of a single node is there. The fields of a record and the namespace of
a definition may be anything. -/
def Legible : Schema → Prop
  | enum definition => definition.Legible
  | record definition => definition.attributes.Titled
  | array _ items _ => items.isSome
  | map _ values _ => values.isSome
  | _ => True

theorem Proper.legible {schema : Schema} (h : schema.Proper) : schema.Legible := by
  cases schema with
  | enum definition => exact Enum.Proper.legible h
  | record definition => exact h.named.titled
  | array before items after => exact h
  | map before values after => exact h
  | union alternatives => trivial
  | primitive name wrapper => trivial
  | reference name => trivial
  | unknown value => trivial

/-- Every node that is met without entering the fields of a record is legible. -/
def Readable (schema : Schema) : Prop := ∀ node ∈ schema.constituents, node.Legible

theorem readable_iff {schema : Schema} :
    schema.Readable ↔ schema.Legible ∧ ∀ operand ∈ schema.operands, operand.Readable := by
  constructor
  · intro h
    exact ⟨h schema (self_mem_constituents schema),
      fun operand ho node hn => h node (constituents_of_operand ho hn)⟩
  · intro ⟨hl, ho⟩ node hn
    obtain rfl | ⟨operand, hm, hn⟩ := mem_constituents.1 hn
    · exact hl
    · exact ho operand hm node hn

theorem Readable.legible {schema : Schema} (h : schema.Readable) : schema.Legible :=
  (readable_iff.1 h).1

theorem Readable.operand {schema operand : Schema} (h : schema.Readable)
    (ho : operand ∈ schema.operands) : operand.Readable :=
  (readable_iff.1 h).2 operand ho

theorem WellFormed.readable {schema : Schema} (h : schema.WellFormed) : schema.Readable :=
  fun node hn => (h node (constituents_subset_positions schema hn)).legible

theorem wellFormed_iff {schema : Schema} :
    schema.WellFormed ↔ schema.Proper ∧ ∀ child ∈ schema.children, child.WellFormed := by
  constructor
  · intro h
    exact ⟨h schema (self_mem_positions schema),
      fun child hc type ht => h type (positions_of_child hc ht)⟩
  · intro ⟨hp, hc⟩ type ht
    obtain rfl | ⟨child, hm, ht⟩ := mem_positions.1 ht
    · exact hp
    · exact hc child hm type ht

theorem WellFormed.proper {schema : Schema} (h : schema.WellFormed) : schema.Proper :=
  (wellFormed_iff.1 h).1

theorem WellFormed.child {schema child : Schema} (h : schema.WellFormed)
    (hc : child ∈ schema.children) : child.WellFormed :=
  (wellFormed_iff.1 h).2 child hc

theorem WellFormed.position {schema type : Schema} (h : schema.WellFormed)
    (ht : type ∈ schema.positions) : type.WellFormed :=
  fun inner hi => h inner (positions_trans ht hi)

end Schema

theorem Field.Proper.exists_mk {field : Field} (h : field.Proper) :
    ∃ before type after, field = .mk before (some type) after := by
  obtain ⟨type, ht⟩ := h.type
  cases field with
  | mk before own after =>
    cases ht
    exact ⟨before, type, after, rfl⟩
  | malformed value => cases ht

theorem Field.type_eq_ok {field : Field} {type : Schema} :
    field.type = .ok type ↔ field.type? = some type := by
  obtain ⟨before, _ | own, after⟩ | value := field <;> simp [Field.type, Field.type?]

def Field.label (field : Field) : String :=
  match field.name with
  | .ok name => name.text
  | .error _ => ""

theorem Field.Proper.name_eq {field : Field} (h : field.Proper) :
    field.name = .ok (.str field.label) := by
  obtain ⟨name, hn⟩ := h.name
  unfold label
  rw [hn]
  rfl

theorem Field.Proper.label_eq {field : Field} (h : field.Proper) {name : String}
    (hn : field.name = .ok (.str name)) : name = field.label := by
  have hl := h.name_eq
  rw [hn] at hl
  cases hl
  rfl

theorem Field.Proper.exists_eq {field : Field} (h : field.Proper) :
    ∃ name type, field.name = .ok (.str name) ∧ field.type = .ok type ∧
      field.type? = some type := by
  obtain ⟨name, hn⟩ := h.name
  obtain ⟨type, ht⟩ := h.type
  exact ⟨name, type, hn, Field.type_eq_ok.2 ht, ht⟩

namespace Record

def fieldList (definition : Record) : List Field :=
  match definition.fields with
  | .listed fields => fields
  | _ => []

variable {definition : Record}

theorem Proper.toList_eq (h : definition.Proper) :
    definition.fields.toList = .ok definition.fieldList := by
  have hf := h.fields
  unfold fieldList
  cases hd : definition.fields with
  | absent => rfl
  | listed fields => rfl
  | other value =>
    rw [hd] at hf
    cases hf

theorem mem_types {type : Schema} :
    type ∈ definition.fields.types ↔ ∃ field ∈ definition.fieldList, field.type? = some type := by
  unfold fieldList
  cases definition.fields with
  | listed fields => exact Schema.mem_types_listed
  | absent => simp [Fields.types]
  | other value => simp [Fields.types]

theorem Proper.of_mem (h : definition.Proper) {field : Field} (hm : field ∈ definition.fieldList) :
    field.Proper := by
  have hf := h.fields
  unfold fieldList at hm
  cases hd : definition.fields with
  | listed fields =>
    rw [hd] at hf hm
    exact hf field hm
  | absent =>
    rw [hd] at hm
    cases hm
  | other value =>
    rw [hd] at hm
    cases hm

end Record

namespace Schema

attribute [local simp] Proper

theorem wellFormed_union {alternatives : List Schema} :
    (union alternatives).WellFormed ↔ ∀ alternative ∈ alternatives, alternative.WellFormed := by
  rw [wellFormed_iff]
  simp

theorem wellFormed_record {definition : Record} :
    (record definition).WellFormed ↔
      definition.Proper ∧ ∀ type ∈ definition.fields.types, type.WellFormed :=
  wellFormed_iff

theorem wellFormed_array {before after : Attributes} {items : Schema} :
    (array before (some items) after).WellFormed ↔ items.WellFormed := by
  rw [wellFormed_iff]
  simp

theorem wellFormed_map {before after : Attributes} {values : Schema} :
    (map before (some values) after).WellFormed ↔ values.WellFormed := by
  rw [wellFormed_iff]
  simp

theorem wellFormed_enum {definition : Enum} :
    (enum definition).WellFormed ↔ definition.Proper := by
  rw [wellFormed_iff]
  simp

theorem wellFormed_primitive (name : Primitive) (wrapper : Option Attributes) :
    (primitive name wrapper).WellFormed := by
  rw [wellFormed_iff]
  simp

theorem wellFormed_reference (name : String) : (reference name).WellFormed := by
  rw [wellFormed_iff]
  simp

/-- A recursive record with an enum of its own, and with references to both at nested positions. -/
def sample : Schema :=
  let kind : Enum := ⟨[("type", .str "enum"), ("name", .str "Kind"),
    ("symbols", .arr [.str "LEAF", .str "INNER"])]⟩
  let label : Schema := .union [.primitive .null none, .primitive .string none]
  let nodes : Schema := .array [("type", .str "array")]
    (some (.union [.reference "Node", .primitive .long none])) []
  let marks : Schema := .map [("type", .str "map")] (some (.reference "Kind")) []
  .record (.mk [("type", .str "record"), ("name", .str "Node"), ("namespace", .str "tree")]
    (.listed [.mk [("name", .str "kind")] (some (.enum kind)) [],
      .mk [("name", .str "label")] (some label) [],
      .mk [("name", .str "nodes")] (some nodes) [],
      .mk [("name", .str "marks")] (some marks) []]) [])

theorem wellFormed_sample : sample.WellFormed := by
  refine wellFormed_record.2 ⟨⟨⟨⟨"Node", rfl⟩, .inr ⟨"tree", rfl⟩⟩, ?_⟩, ?_⟩
  · simp only [Record.fields_mk, Fields.Proper, List.forall_mem_cons]
    exact ⟨⟨⟨_, rfl⟩, ⟨_, rfl⟩⟩, ⟨⟨_, rfl⟩, ⟨_, rfl⟩⟩, ⟨⟨_, rfl⟩, ⟨_, rfl⟩⟩,
      ⟨⟨_, rfl⟩, ⟨_, rfl⟩⟩, by simp⟩
  · simp only [Record.fields_mk, Fields.types, List.filterMap_cons, Field.type?,
      List.filterMap_nil, List.forall_mem_cons]
    refine ⟨wellFormed_enum.2 ⟨⟨⟨"Kind", rfl⟩, .inl rfl⟩, .inr ⟨_, rfl⟩⟩, ?_, ?_, ?_, by simp⟩
    · simp [wellFormed_union, wellFormed_primitive]
    · simp [wellFormed_array, wellFormed_union, wellFormed_primitive, wellFormed_reference]
    · exact wellFormed_map.2 (wellFormed_reference "Kind")

end Schema

end AvroBindings
