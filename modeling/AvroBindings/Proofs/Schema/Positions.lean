import AvroBindings.Schema.Passes

/-! The type positions of a schema: the schema itself, and those of the types that stand directly
in it. Proofs about schemas go by the types that stand directly in them, and the traversals of the
library are told by the positions alone. -/

namespace AvroBindings

def Field.type? : Field → Option Schema
  | .mk _ type _ => type
  | .malformed _ => none

def Fields.types : Fields → List Schema
  | .listed fields => fields.filterMap Field.type?
  | _ => []

namespace Record

@[simp] theorem fields_mk (before after : Attributes) (fields : Fields) :
    (mk before fields after).fields = fields := rfl

@[simp] theorem attributes_mk (before after : Attributes) (fields : Fields) :
    (mk before fields after).attributes = before ++ after := rfl

end Record

namespace Schema

def children : Schema → List Schema
  | union alternatives => alternatives
  | record definition => definition.fields.types
  | array _ items _ => items.toList
  | map _ values _ => values.toList
  | _ => []

@[simp] theorem children_union (alternatives : List Schema) :
    (union alternatives).children = alternatives := rfl

@[simp] theorem children_record (definition : Record) :
    (record definition).children = definition.fields.types := rfl

@[simp] theorem children_array (before after : Attributes) (items : Option Schema) :
    (array before items after).children = items.toList := rfl

@[simp] theorem children_map (before after : Attributes) (values : Option Schema) :
    (map before values after).children = values.toList := rfl

@[simp] theorem children_primitive (name : Primitive) (wrapper : Option Attributes) :
    (primitive name wrapper).children = [] := rfl

@[simp] theorem children_reference (name : String) : (reference name).children = [] := rfl

@[simp] theorem children_enum (definition : Enum) : (enum definition).children = [] := rfl

@[simp] theorem children_unknown (value : Json) : (unknown value).children = [] := rfl

theorem mem_types_listed {fields : List Field} {type : Schema} :
    type ∈ (Fields.listed fields).types ↔ ∃ field ∈ fields, field.type? = some type := by
  simp [Fields.types]

theorem sizeOf_lt_of_type? {field : Field} {type : Schema} (h : field.type? = some type) :
    sizeOf type < sizeOf field := by
  cases field with
  | mk before own after =>
    cases h
    simp
    omega
  | malformed value => cases h

theorem sizeOf_lt_of_mem_children {schema child : Schema} (h : child ∈ schema.children) :
    sizeOf child < sizeOf schema := by
  cases schema with
  | union alternatives =>
    have := List.sizeOf_lt_of_mem (children_union alternatives ▸ h)
    simp
    omega
  | record definition =>
    obtain ⟨before, fields, after⟩ := definition
    cases fields with
    | listed fields =>
      obtain ⟨field, hf, ht⟩ := mem_types_listed.1 h
      have := List.sizeOf_lt_of_mem hf
      have := sizeOf_lt_of_type? ht
      simp
      omega
    | absent => cases h
    | other value => cases h
  | array before items after =>
    cases items <;> simp at h
    subst h
    simp
    omega
  | map before values after =>
    cases values <;> simp at h
    subst h
    simp
    omega
  | primitive name wrapper => cases h
  | reference name => cases h
  | enum definition => cases h
  | unknown value => cases h

/-- What holds of a schema whenever it holds of the types directly in it holds of every schema. -/
@[elab_as_elim]
theorem byChildren {motive : Schema → Prop}
    (step : ∀ schema, (∀ child ∈ schema.children, motive child) → motive schema)
    (schema : Schema) : motive schema :=
  step schema fun child _ => byChildren step child
termination_by sizeOf schema
decreasing_by exact sizeOf_lt_of_mem_children ‹_›

/-- The schemas at the type positions, depth first, each before those in it. -/
def positions (schema : Schema) : List Schema :=
  schema :: schema.children.attach.flatMap fun child => child.1.positions
termination_by sizeOf schema
decreasing_by exact sizeOf_lt_of_mem_children child.2

theorem positions_eq (schema : Schema) :
    schema.positions = schema :: schema.children.flatMap positions := by
  rw [positions, List.flatMap_def, List.flatMap_def,
    List.attach_map_val (f := positions)]

theorem mem_positions {schema type : Schema} :
    type ∈ schema.positions ↔ type = schema ∨ ∃ child ∈ schema.children, type ∈ child.positions := by
  rw [positions_eq]
  simp

theorem self_mem_positions (schema : Schema) : schema ∈ schema.positions :=
  mem_positions.2 (.inl rfl)

theorem positions_of_child {schema child type : Schema} (hc : child ∈ schema.children)
    (ht : type ∈ child.positions) : type ∈ schema.positions :=
  mem_positions.2 (.inr ⟨child, hc, ht⟩)

theorem positions_trans {schema type inner : Schema} (ht : type ∈ schema.positions)
    (hi : inner ∈ type.positions) : inner ∈ schema.positions := by
  induction schema using byChildren with
  | step schema ih =>
    obtain rfl | ⟨child, hc, ht⟩ := mem_positions.1 ht
    · exact hi
    · exact positions_of_child hc (ih child hc ht)

def reference? : Schema → Option String
  | reference name => some name
  | _ => none

theorem referencesAll_eq (schemas : List Schema) :
    referencesAll schemas = schemas.flatMap references := by
  induction schemas with
  | nil => rfl
  | cons schema rest ih => rw [referencesAll, ih, List.flatMap_cons]

end Schema

theorem Field.references_eq (field : Field) :
    field.references = field.type?.toList.flatMap Schema.references := by
  obtain ⟨before, _ | type, after⟩ | value := field <;> simp [Field.references, Field.type?]

theorem Field.referencesAll_eq (fields : List Field) :
    Field.referencesAll fields = (Fields.listed fields).types.flatMap Schema.references := by
  induction fields with
  | nil => rfl
  | cons field rest ih =>
    rw [Field.referencesAll, ih, Field.references_eq]
    cases h : field.type? <;> simp [Fields.types, h]

namespace Schema

theorem references_children (schema : Schema) :
    schema.references = schema.reference?.toList ++ schema.children.flatMap references := by
  cases schema with
  | union alternatives => simp [references, reference?, referencesAll_eq]
  | record definition =>
    obtain ⟨before, fields, after⟩ := definition
    cases fields <;>
      simp [references, Record.references, reference?, Field.referencesAll_eq, Fields.types]
  | array before items after => cases items <;> simp [references, reference?]
  | map before values after => cases values <;> simp [references, reference?]
  | primitive name wrapper => rfl
  | reference name => rfl
  | enum definition => rfl
  | unknown value => rfl

theorem references_eq (schema : Schema) :
    schema.references = schema.positions.filterMap reference? := by
  induction schema using byChildren with
  | step schema ih =>
    have hr : schema.children.flatMap references =
        (schema.children.flatMap positions).filterMap reference? := by
      rw [List.filterMap_flatMap, List.flatMap_def, List.flatMap_def]
      exact congrArg List.flatten (List.map_congr_left ih)
    rw [references_children, hr, positions_eq, List.filterMap_cons]
    cases schema.reference? <;> rfl

theorem mem_references {schema : Schema} {name : String} :
    name ∈ schema.references ↔ reference name ∈ schema.positions := by
  rw [references_eq, List.mem_filterMap]
  constructor
  · rintro ⟨type, ht, hn⟩
    cases type <;> cases hn
    exact ht
  · exact fun h => ⟨_, h, rfl⟩

/-- The types that stand directly in a schema that is no record. -/
def operands : Schema → List Schema
  | record _ => []
  | schema => schema.children

@[simp] theorem operands_union (alternatives : List Schema) :
    (union alternatives).operands = alternatives := rfl

@[simp] theorem operands_array (before after : Attributes) (items : Option Schema) :
    (array before items after).operands = items.toList := rfl

@[simp] theorem operands_map (before after : Attributes) (values : Option Schema) :
    (map before values after).operands = values.toList := rfl

theorem operands_subset_children (schema : Schema) : schema.operands ⊆ schema.children := by
  cases schema <;> simp [operands]

/-- The schemas met from a type position without entering the fields of a record. -/
def constituents (schema : Schema) : List Schema :=
  schema :: schema.operands.attach.flatMap fun operand => operand.1.constituents
termination_by sizeOf schema
decreasing_by exact sizeOf_lt_of_mem_children (operands_subset_children schema operand.2)

theorem constituents_eq (schema : Schema) :
    schema.constituents = schema :: schema.operands.flatMap constituents := by
  rw [constituents, List.flatMap_def, List.flatMap_def,
    List.attach_map_val (f := constituents)]

theorem constituents_leaf {schema : Schema} (h : schema.operands = []) :
    schema.constituents = [schema] := by
  rw [constituents_eq, h]
  rfl

theorem mem_constituents {schema type : Schema} :
    type ∈ schema.constituents ↔
      type = schema ∨ ∃ operand ∈ schema.operands, type ∈ operand.constituents := by
  rw [constituents_eq]
  simp

theorem self_mem_constituents (schema : Schema) : schema ∈ schema.constituents :=
  mem_constituents.2 (.inl rfl)

theorem constituents_of_operand {schema operand type : Schema} (ho : operand ∈ schema.operands)
    (ht : type ∈ operand.constituents) : type ∈ schema.constituents :=
  mem_constituents.2 (.inr ⟨operand, ho, ht⟩)

theorem constituents_subset_positions (schema : Schema) :
    schema.constituents ⊆ schema.positions := by
  induction schema using byChildren with
  | step schema ih =>
    intro type ht
    obtain rfl | ⟨operand, ho, ht⟩ := mem_constituents.1 ht
    · exact self_mem_positions type
    · have hc := operands_subset_children schema ho
      exact positions_of_child hc (ih operand hc ht)

end Schema

end AvroBindings
