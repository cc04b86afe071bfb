import AvroBindings.Proofs.Naming

/-! Naming definitions, told as a function between schemas. On a well-formed schema the traversal
that names definitions gives the named schema, and puts out the full names of its definitions in
their order. -/

namespace AvroBindings

mutual
/-- A schema whose definitions have their effective names below a parent namespace. -/
def Schema.named (parent : Json) : Schema → Schema
  | .union alternatives => .union (Schema.namedAll parent alternatives)
  | .enum definition => .enum ⟨(definition.attributes.settle parent).2⟩
  | .record definition => .record (definition.named parent)
  | .array before (some items) after => .array before (some (items.named parent)) after
  | .map before (some values) after => .map before (some (values.named parent)) after
  | schema => schema

def Schema.namedAll (parent : Json) : List Schema → List Schema
  | [] => []
  | schema :: rest => schema.named parent :: Schema.namedAll parent rest

def Record.named (parent : Json) : Record → Record
  | .mk before fields after =>
    let settled := Attributes.settle parent (before ++ after)
    .mk settled.2 (.listed (fields.named settled.1)) []

def Fields.named (parent : Json) : Fields → List Field
  | .listed fields => Field.namedAll parent fields
  | _ => []

def Field.namedAll (parent : Json) : List Field → List Field
  | [] => []
  | field :: rest => field.named parent :: Field.namedAll parent rest

def Field.named (parent : Json) : Field → Field
  | .mk before (some type) after => .mk before (some (type.named parent)) after
  | field => field
end

theorem Schema.namedAll_eq (parent : Json) (schemas : List Schema) :
    Schema.namedAll parent schemas = schemas.map (Schema.named parent) := by
  induction schemas with
  | nil => rfl
  | cons schema rest ih => rw [namedAll, ih, List.map_cons]

theorem Field.namedAll_eq (parent : Json) (fields : List Field) :
    Field.namedAll parent fields = fields.map (Field.named parent) := by
  induction fields with
  | nil => rfl
  | cons field rest ih => rw [namedAll, ih, List.map_cons]

theorem Field.type?_named (parent : Json) (field : Field) :
    (field.named parent).type? = field.type?.map (Schema.named parent) := by
  obtain ⟨before, _ | type, after⟩ | value := field <;> rfl

theorem Fields.types_named (parent : Json) (fields : Fields) :
    (Fields.listed (fields.named parent)).types = fields.types.map (Schema.named parent) := by
  cases fields with
  | listed fields =>
    rw [Fields.named, Field.namedAll_eq, types, types, List.filterMap_map, List.map_filterMap]
    exact congrArg (List.filterMap · fields) (funext (Field.type?_named parent))
  | absent => rfl
  | other value => rfl

namespace Schema

/-- The namespace below which the types directly in a schema are named. -/
def innerSpace (parent : Json) : Schema → Json
  | record definition => (definition.attributes.settle parent).1
  | _ => parent

theorem isUnion_named (parent : Json) (schema : Schema) :
    (schema.named parent).isUnion = schema.isUnion := by
  cases schema with
  | array before items after => cases items <;> rfl
  | map before values after => cases values <;> rfl
  | _ => rfl

theorem isNull_named (parent : Json) (schema : Schema) :
    (schema.named parent).isNull = schema.isNull := by
  cases schema with
  | array before items after => cases items <;> rfl
  | map before values after => cases values <;> rfl
  | _ => rfl

theorem children_named (parent : Json) (schema : Schema) :
    (schema.named parent).children =
      schema.children.map (named (schema.innerSpace parent)) := by
  cases schema with
  | union alternatives => exact namedAll_eq parent alternatives
  | record definition =>
    obtain ⟨before, fields, after⟩ := definition
    exact Fields.types_named _ fields
  | array before items after => cases items <;> rfl
  | map before values after => cases values <;> rfl
  | primitive name wrapper => rfl
  | reference name => rfl
  | enum definition => rfl
  | unknown value => rfl

theorem operands_named (parent : Json) (schema : Schema) :
    (schema.named parent).operands = schema.operands.map (named parent) := by
  cases schema with
  | union alternatives => exact namedAll_eq parent alternatives
  | array before items after => cases items <;> rfl
  | map before values after => cases values <;> rfl
  | record definition => rfl
  | primitive name wrapper => rfl
  | reference name => rfl
  | enum definition => rfl
  | unknown value => rfl

theorem constituents_named (parent : Json) (schema : Schema) :
    (schema.named parent).constituents = schema.constituents.map (named parent) := by
  induction schema using byChildren with
  | step schema ih =>
    rw [constituents_eq, constituents_eq schema, operands_named, List.map_cons, List.map_flatMap,
      List.flatMap_map]
    congr 1
    rw [List.flatMap_def, List.flatMap_def]
    congr 1
    exact List.map_congr_left fun operand ho => ih operand (operands_subset_children schema ho)

theorem isSpace_innerSpace {schema : Schema} (h : schema.Proper) {parent : Json}
    (hp : parent.IsSpace) : (schema.innerSpace parent).IsSpace := by
  cases schema with
  | record definition => exact Attributes.isSpace_settle h.named hp
  | _ => exact hp

def fullNames (schema : Schema) : List String :=
  (schema.positions.filterMap definition?).map (·.attributes.qualifiedText)

theorem fullNames_eq (schema : Schema) :
    schema.fullNames = (schema.definition?.map (·.attributes.qualifiedText)).toList ++
      schema.children.flatMap fullNames := by
  unfold fullNames
  rw [positions_eq, List.filterMap_cons]
  cases schema.definition? <;>
    simp [List.filterMap_flatMap, List.map_flatMap]

end Schema

theorem Emitting.bind_ok {ω α β : Type} (emitted : List ω) (a : α) (f : α → Emitting ω β) :
    (⟨emitted, .ok a⟩ >>= f : Emitting ω β) = ⟨emitted ++ (f a).emitted, (f a).result⟩ := rfl

theorem Emitting.map_ok {ω α β : Type} (emitted : List ω) (a : α) (f : α → β) :
    (f <$> ⟨emitted, .ok a⟩ : Emitting ω β) = ⟨emitted, .ok (f a)⟩ :=
  congrArg (Emitting.mk · _) (List.append_nil emitted)

def Schema.NamesWell (parent : Json) (schema : Schema) : Prop :=
  schema.assign parent = ⟨(schema.named parent).fullNames, .ok (schema.named parent)⟩

theorem Schema.assignAll_eq {parent : Json} {schemas : List Schema}
    (h : ∀ schema ∈ schemas, schema.NamesWell parent) :
    Schema.assignAll parent schemas =
      ⟨(Schema.namedAll parent schemas).flatMap Schema.fullNames,
        .ok (Schema.namedAll parent schemas)⟩ := by
  induction schemas with
  | nil => rfl
  | cons schema rest ih =>
    have hs : schema.NamesWell parent := h schema List.mem_cons_self
    have hr := ih fun other ho => h other (List.mem_cons_of_mem schema ho)
    rw [assignAll, hs, hr]
    simp [Emitting.bind_ok, Emitting.map_ok, namedAll]

theorem Field.assignAll_eq {parent : Json} {fields : List Field}
    (hf : ∀ field ∈ fields, field.Proper)
    (h : ∀ type ∈ (Fields.listed fields).types, type.NamesWell parent) :
    Field.assignAll parent fields =
      ⟨(Fields.listed (Field.namedAll parent fields)).types.flatMap Schema.fullNames,
        .ok (Field.namedAll parent fields)⟩ := by
  induction fields with
  | nil => rfl
  | cons field rest ih =>
    obtain ⟨before, type, after, rfl⟩ := (hf field List.mem_cons_self).exists_mk
    have ht : type.NamesWell parent := h type (by simp [Fields.types, Field.type?])
    have hr := ih (fun other ho => hf other (List.mem_cons_of_mem _ ho)) fun other ho => by
      apply h other
      simp only [Fields.types, Field.type?, List.filterMap_cons] at ho ⊢
      exact List.mem_cons_of_mem type ho
    rw [assignAll, Field.assign, ht, hr]
    simp [Emitting.bind_ok, Emitting.map_ok, namedAll, Field.named, Fields.types, Field.type?]

theorem Fields.assign_eq {parent : Json} (fields : Fields) (hf : fields.Proper)
    (h : ∀ type ∈ fields.types, type.NamesWell parent) :
    fields.assign parent =
      ⟨(Fields.listed (fields.named parent)).types.flatMap Schema.fullNames,
        .ok (fields.named parent)⟩ := by
  cases fields with
  | absent => rfl
  | listed fields => exact Field.assignAll_eq hf h
  | other value => cases hf

theorem Record.assign_eq {parent : Json} (definition : Record) (h : definition.Proper)
    (hp : parent.IsSpace)
    (hc : ∀ type ∈ definition.fields.types,
      type.NamesWell (definition.attributes.settle parent).1) :
    definition.assign parent =
      ⟨(definition.named parent).attributes.qualifiedText ::
        (definition.named parent).fields.types.flatMap Schema.fullNames,
        .ok (definition.named parent)⟩ := by
  obtain ⟨before, fields, after⟩ := definition
  have ha := Attributes.assign_of_named h.named hp
  have hf := fields.assign_eq h.fields hc
  simp only [attributes_mk] at ha hf
  cases hs : Attributes.settle parent (before ++ after) with
  | mk space renamed =>
    rw [hs] at ha hf
    rw [assign, ha, Emitting.bind_ok]
    simp only at hf ⊢
    rw [hf]
    simp [Emitting.map_ok, named, hs]

/-- A well-formed schema is named without failure, below any effective namespace. -/
theorem Schema.assign_eq {schema : Schema} (h : schema.WellFormed) {parent : Json}
    (hp : parent.IsSpace) :
    schema.assign parent = ⟨(schema.named parent).fullNames, .ok (schema.named parent)⟩ := by
  induction schema using Schema.byChildren generalizing parent with
  | step schema ih =>
    have hi : (schema.innerSpace parent).IsSpace := isSpace_innerSpace h.proper hp
    have hc : ∀ child ∈ schema.children, child.NamesWell (schema.innerSpace parent) :=
      fun child hm => ih child hm (h.child hm) hi
    rw [fullNames_eq]
    cases schema with
    | union alternatives =>
      have ha : assignAll parent alternatives = _ := assignAll_eq hc
      rw [assign, ha]
      simp [Emitting.map_ok, named, definition?]
    | enum definition =>
      rw [assign, Attributes.assign_of_named h.proper.named hp]
      simp [Emitting.map_ok, named, definition?, Definition.attributes]
    | record definition =>
      have hr := definition.assign_eq h.proper hp hc
      rw [assign, hr]
      simp [Emitting.map_ok, named, definition?, Definition.attributes]
    | array before items after =>
      cases items with
      | none => cases h.proper
      | some items =>
        have hi : items.NamesWell parent := hc items (by simp)
        rw [assign, hi]
        simp [Emitting.map_ok, named, definition?]
    | map before values after =>
      cases values with
      | none => cases h.proper
      | some values =>
        have hv : values.NamesWell parent := hc values (by simp)
        rw [assign, hv]
        simp [Emitting.map_ok, named, definition?]
    | primitive name wrapper => rfl
    | reference name => rfl
    | unknown value => rfl

theorem Field.proper_named {field : Field} (h : field.Proper) (parent : Json) :
    (field.named parent).Proper := by
  obtain ⟨before, type, after, rfl⟩ := h.exists_mk
  exact ⟨h.name, type.named parent, rfl⟩

theorem Fields.proper_named {fields : Fields} (h : fields.Proper) (parent : Json) :
    (Fields.listed (fields.named parent)).Proper := by
  cases fields with
  | listed fields =>
    intro field hf
    rw [Fields.named, Field.namedAll_eq, List.mem_map] at hf
    obtain ⟨field, hm, rfl⟩ := hf
    exact Field.proper_named (h field hm) parent
  | absent => intro field hf; cases hf
  | other value => intro field hf; cases hf

theorem Record.attributes_named (parent : Json) (definition : Record) :
    (definition.named parent).attributes = (definition.attributes.settle parent).2 := by
  obtain ⟨before, fields, after⟩ := definition
  exact List.append_nil _

theorem Record.fields_named (parent : Json) (definition : Record) :
    (definition.named parent).fields =
      .listed (definition.fields.named (definition.attributes.settle parent).1) := by
  obtain ⟨before, fields, after⟩ := definition
  rfl

theorem Attributes.get?_settle (key : String) (hn : key ≠ "name") (hs : key ≠ "namespace")
    (parent : Json) (attributes : Attributes) :
    (attributes.settle parent).2.get? key = attributes.get? key := by
  unfold settle
  split
  next => exact get?_rename hn hs attributes _ _
  next => rfl

namespace Schema

def AllSettled (schema : Schema) : Prop :=
  ∀ type ∈ schema.positions, ∀ definition, type.definition? = some definition →
    definition.attributes.Settled

theorem proper_named {schema : Schema} (h : schema.Proper) {parent : Json}
    (hp : parent.IsSpace) : (schema.named parent).Proper := by
  cases schema with
  | enum definition =>
    refine ⟨(Attributes.settled_settle h.named hp).named, ?_⟩
    simp only [Attributes.get?_settle "symbols" (by decide) (by decide)]
    exact h.symbols
  | record definition =>
    refine ⟨?_, ?_⟩
    · rw [Record.attributes_named]
      exact (Attributes.settled_settle h.named hp).named
    · rw [Record.fields_named]
      exact Fields.proper_named h.fields _
  | array before items after => cases items <;> exact h
  | map before values after => cases values <;> exact h
  | union alternatives => trivial
  | primitive name wrapper => trivial
  | reference name => trivial
  | unknown value => trivial

/-- What stands at a type position of a named schema is what stood there, named below a namespace
with all the properties that carry over from one namespace to those in it. -/
theorem exists_origin_of_named {p : Json → Prop} {schema : Schema} {parent : Json}
    (h : ∀ node ∈ schema.positions, ∀ space, p space → p (node.innerSpace space)) (hp : p parent)
    {type : Schema} (ht : type ∈ (schema.named parent).positions) :
    ∃ origin ∈ schema.positions, ∃ space, p space ∧ type = origin.named space := by
  induction schema using byChildren generalizing parent with
  | step schema ih =>
    rw [mem_positions, children_named] at ht
    obtain rfl | ⟨child, hc, ht⟩ := ht
    · exact ⟨schema, self_mem_positions schema, parent, hp, rfl⟩
    · obtain ⟨own, hm, rfl⟩ := List.mem_map.1 hc
      obtain ⟨origin, ho, hs⟩ := ih own hm (fun node hn => h node (positions_of_child hm hn))
        (h schema (self_mem_positions schema) parent hp) ht
      exact ⟨origin, positions_of_child hm ho, hs⟩

theorem mem_positions_named {schema : Schema} (h : schema.WellFormed) {parent : Json}
    (hp : parent.IsSpace) {type : Schema} (ht : type ∈ (schema.named parent).positions) :
    ∃ origin ∈ schema.positions, ∃ space : Json, space.IsSpace ∧ type = origin.named space :=
  exists_origin_of_named (fun node hn _ => isSpace_innerSpace (h node hn)) hp ht

theorem named_mem_positions {schema : Schema} (h : schema.WellFormed) {parent : Json}
    (hp : parent.IsSpace) {origin : Schema} (ho : origin ∈ schema.positions) :
    ∃ space : Json, space.IsSpace ∧ origin.named space ∈ (schema.named parent).positions := by
  induction schema using byChildren generalizing parent with
  | step schema ih =>
    obtain rfl | ⟨child, hc, ho⟩ := mem_positions.1 ho
    · exact ⟨parent, hp, self_mem_positions _⟩
    · have hi := isSpace_innerSpace h.proper hp
      obtain ⟨space, hs, hm⟩ := ih child hc (h.child hc) hi ho
      refine ⟨space, hs, positions_of_child ?_ hm⟩
      rw [children_named]
      exact List.mem_map_of_mem hc

theorem references_named (parent : Json) (schema : Schema) :
    (schema.named parent).references = schema.references := by
  induction schema using byChildren generalizing parent with
  | step schema ih =>
    have hr : (schema.named parent).reference? = schema.reference? := by
      cases schema with
      | array before items after => cases items <;> rfl
      | map before values after => cases values <;> rfl
      | _ => rfl
    rw [references_children, references_children schema, children_named, hr, List.flatMap_map,
      List.flatMap_def, List.flatMap_def]
    congr 2
    exact List.map_congr_left fun child hc => ih child hc _

theorem wellFormed_named {schema : Schema} (h : schema.WellFormed) {parent : Json}
    (hp : parent.IsSpace) : (schema.named parent).WellFormed := by
  intro type ht
  obtain ⟨origin, ho, space, hs, rfl⟩ := mem_positions_named h hp ht
  exact proper_named (h origin ho) hs

theorem allSettled_named {schema : Schema} (h : schema.WellFormed) {parent : Json}
    (hp : parent.IsSpace) : (schema.named parent).AllSettled := by
  intro type ht definition hd
  obtain ⟨origin, ho, space, hs, rfl⟩ := mem_positions_named h hp ht
  have hq := h origin ho
  cases origin with
  | enum own =>
    cases hd
    exact Attributes.settled_settle hq.named hs
  | record own =>
    cases hd
    change (own.named space).attributes.Settled
    rw [Record.attributes_named]
    exact Attributes.settled_settle hq.named hs
  | array before items after => cases items <;> cases hd
  | map before values after => cases values <;> cases hd
  | union alternatives => cases hd
  | primitive name wrapper => cases hd
  | reference name => cases hd
  | unknown value => cases hd

end Schema

end AvroBindings
