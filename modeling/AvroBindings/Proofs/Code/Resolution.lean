import AvroBindings.Proofs.Code.Directions

/-! Nodes that stand for definitions, in place or through a reference. Generated code says of such a
node what it says of the definition. -/

namespace AvroBindings

def Context.Proper (context : Context) : Prop :=
  ∀ name definition, context.resolve (.str name) = .ok definition → definition.Proper

def Context.Legible (context : Context) : Prop :=
  ∀ name definition, context.resolve (.str name) = .ok definition → definition.Legible

theorem Context.Proper.legible {context : Context} (h : context.Proper) : context.Legible :=
  fun name definition hr => (h name definition hr).legible

/-- A node is a definition, or a reference that stands for it. -/
inductive Context.Leads (context : Context) : Schema → Definition → Prop where
  | inline (definition : Definition) : Leads context definition.schema definition
  | reference (name : String) (definition : Definition)
    (h : context.resolve (.str name) = .ok definition) :
    Leads context (.reference name) definition

def Context.definition? (context : Context) : Schema → Option Definition
  | .reference name => (context.resolve (.str name)).toOption
  | node => node.definition?

theorem Context.leads_iff {context : Context} {node : Schema} {definition : Definition} :
    context.Leads node definition ↔ context.definition? node = some definition := by
  constructor
  · intro h
    cases h with
    | inline => cases definition <;> rfl
    | reference name _ h =>
      rw [definition?, h]
      rfl
  · intro h
    cases node with
    | reference name =>
      cases hr : context.resolve (.str name) with
      | ok own =>
        rw [definition?, hr] at h
        cases h
        exact .reference name definition hr
      | error e =>
        rw [definition?, hr] at h
        cases h
    | enum own =>
      cases h
      exact .inline (.enum own)
    | record own =>
      cases h
      exact .inline (.record own)
    | _ => cases h

theorem Context.not_leads {context : Context} {node : Schema} {definition : Definition}
    (h : context.definition? node = none) : ¬context.Leads node definition := by
  intro hl
  rw [leads_iff.1 hl] at h
  cases h

/-- A class that values of a schema belong to, in its place or through a reference. -/
def Schema.Classed (context : Context) (schema : Schema) (className : String) : Prop :=
  ∃ own : Record, context.Leads schema (.record own) ∧
    (own.attributes.qualifiedDeclarationName context.options).map Json.text = .ok className

namespace Schema

variable {context : Context} {schema : Schema} {className : String}

theorem not_classed_union {alternatives : List Schema} :
    ¬(union alternatives).Classed context className := by
  rintro ⟨own, hl, -⟩
  exact Context.not_leads rfl hl

theorem not_classed_map {before after : Attributes} {values : Option Schema} :
    ¬(map before values after).Classed context className := by
  rintro ⟨own, hl, -⟩
  exact Context.not_leads rfl hl

theorem classed_of_record {own : Record} (h : context.Leads schema (.record own)) {name : Json}
    (hn : own.attributes.qualifiedDeclarationName context.options = .ok name) :
    schema.Classed context name.text :=
  ⟨own, h, by rw [hn]; rfl⟩

end Schema

/-- What goes by definition: a record is told by its class, an enum by what it holds, and every other
type but a union by its kind. Nothing but the class of a record tells a class. -/
structure Choice (α : Type) where
  ofClass : String → α
  ofEnum : Enum → Except Error α
  primitive : Primitive → α
  array : α
  map : α
  ofClass_injective : Function.Injective ofClass
  ofEnum_ne {own : Enum} {item : α} (h : ofEnum own = .ok item) (name : String) : item ≠ ofClass name
  primitive_ne (own : Primitive) (name : String) : primitive own ≠ ofClass name
  array_ne (name : String) : array ≠ ofClass name
  map_ne (name : String) : map ≠ ofClass name

namespace Choice

variable {α : Type} (choice : Choice α)

def ofDefinition (options : Options) : Definition → Except Error α
  | .enum own => choice.ofEnum own
  | .record own => (own.attributes.qualifiedDeclarationName options).map (choice.ofClass ·.text)

def ofSchema (context : Context) : Schema → Except Error α
  | .reference name => context.resolve (.str name) >>= choice.ofDefinition context.options
  | .record own => choice.ofDefinition context.options (.record own)
  | .enum own => choice.ofDefinition context.options (.enum own)
  | .primitive name _ => .ok (choice.primitive name)
  | .array .. => .ok choice.array
  | .map .. => .ok choice.map
  | schema => .error (.unknownType schema.toJson)

/-- How a choice is made for a node. -/
inductive Forms (context : Context) : Schema → α → Prop
  | definition (node : Schema) (definition : Definition) (item : α)
    (hl : context.Leads node definition)
    (hd : choice.ofDefinition context.options definition = .ok item) : Forms context node item
  | primitive (name : Primitive) (wrapper : Option Attributes) :
    Forms context (.primitive name wrapper) (choice.primitive name)
  | array (before after : Attributes) (items : Option Schema) :
    Forms context (.array before items after) choice.array
  | map (before after : Attributes) (values : Option Schema) :
    Forms context (.map before values after) choice.map

variable {choice} {context : Context}

theorem ofSchema_of_leads {node : Schema} {definition : Definition}
    (h : context.Leads node definition) :
    choice.ofSchema context node = choice.ofDefinition context.options definition := by
  cases h with
  | inline => cases definition <;> rfl
  | reference name _ h =>
    rw [ofSchema, h]
    rfl

theorem forms {schema : Schema} {item : α} (h : choice.ofSchema context schema = .ok item) :
    choice.Forms context schema item := by
  cases schema with
  | reference name =>
    obtain ⟨own, hr, hd⟩ := Traversal.bind_eq_ok_iff.1 h
    exact .definition _ own item (.reference name own hr) hd
  | enum own => exact .definition _ (.enum own) item (.inline (.enum own)) h
  | record own => exact .definition _ (.record own) item (.inline (.record own)) h
  | primitive name wrapper =>
    cases h
    exact .primitive name wrapper
  | array before items after =>
    cases h
    exact .array before after items
  | map before values after =>
    cases h
    exact .map before after values
  | union alternatives => cases h
  | unknown value => cases h

theorem classed {schema : Schema} {className : String}
    (h : choice.ofSchema context schema = .ok (choice.ofClass className)) :
    schema.Classed context className := by
  generalize hi : choice.ofClass className = item at h
  cases forms h with
  | definition _ definition _ hl hd =>
    cases definition with
    | enum own => exact absurd hi.symm (choice.ofEnum_ne hd className)
    | record own =>
      obtain ⟨name, hn, he⟩ := Traversal.map_eq_ok_iff.1 hd
      obtain rfl := choice.ofClass_injective (hi.trans he.symm)
      exact Schema.classed_of_record hl hn
  | primitive name => exact absurd hi.symm (choice.primitive_ne name className)
  | array => exact absurd hi.symm (choice.array_ne className)
  | map => exact absurd hi.symm (choice.map_ne className)

end Choice

namespace Tag

def choice : Choice Tag where
  ofClass := fullName
  ofEnum own := own.attributes.qualifiedName.map (literal ·.text)
  primitive name := literal name.name
  array := literal "array"
  map := literal "map"
  ofClass_injective _ _ := fullName.inj
  ofEnum_ne h name := by
    obtain ⟨_, -, rfl⟩ := Traversal.map_eq_ok_iff.1 h
    exact nofun
  primitive_ne := nofun
  array_ne := nofun
  map_ne := nofun

theorem choice_ofDefinition : choice.ofDefinition = ofDefinition := by
  funext options definition
  cases definition <;> rfl

theorem choice_ofSchema : choice.ofSchema = ofSchema := by
  funext context schema
  cases schema <;> rfl

theorem forms {context : Context} {schema : Schema} {tag : Tag}
    (h : ofSchema context schema = .ok tag) : choice.Forms context schema tag :=
  Choice.forms (choice_ofSchema ▸ h)

theorem classed {context : Context} {schema : Schema} {className : String}
    (h : ofSchema context schema = .ok (fullName className)) : schema.Classed context className :=
  Choice.classed (choice_ofSchema ▸ h)

end Tag

namespace Test

def choice : Choice Test where
  ofClass := isInstance
  ofEnum own := own.symbols.map isOneOf
  primitive := ofPrimitive
  array := isArray
  map := isPlainObject
  ofClass_injective _ _ := isInstance.inj
  ofEnum_ne h name := by
    obtain ⟨_, -, rfl⟩ := Traversal.map_eq_ok_iff.1 h
    exact nofun
  primitive_ne own name := by cases own <;> exact nofun
  array_ne := nofun
  map_ne := nofun

theorem choice_ofDefinition : choice.ofDefinition = ofDefinition := by
  funext options definition
  cases definition <;> rfl

theorem choice_ofSchema : choice.ofSchema = ofSchema := by
  funext context schema
  cases schema <;> rfl

theorem forms {context : Context} {schema : Schema} {test : Test}
    (h : ofSchema context schema = .ok test) : choice.Forms context schema test :=
  Choice.forms (choice_ofSchema ▸ h)

theorem classed {context : Context} {schema : Schema} {className : String}
    (h : ofSchema context schema = .ok (isInstance className)) : schema.Classed context className :=
  Choice.classed (choice_ofSchema ▸ h)

end Test

namespace Context.Leads

variable {context : Context} {node : Schema} {definition : Definition}

theorem unique {other : Definition} (h : context.Leads node definition)
    (ho : context.Leads node other) : definition = other :=
  Option.some.inj ((leads_iff.1 h).symm.trans (leads_iff.1 ho))

theorem node_eq (h : context.Leads node definition) : node = definition.schema ∨
    ∃ name, node = .reference name ∧ context.resolve (.str name) = .ok definition := by
  cases h with
  | inline => exact .inl rfl
  | reference name _ h => exact .inr ⟨name, rfl, h⟩

theorem proper (h : context.Leads node definition) (hc : context.Proper) (hn : node.Proper) :
    definition.Proper := by
  cases h with
  | inline => exact hn
  | reference name _ h => exact hc name definition h

theorem legible (h : context.Leads node definition) (hc : context.Legible) (hn : node.Legible) :
    definition.Legible := by
  cases h with
  | inline => exact hn
  | reference name _ h => exact hc name definition h

theorem tag_eq (h : context.Leads node definition) :
    Tag.ofSchema context node = Tag.ofDefinition context.options definition := by
  rw [← Tag.choice_ofSchema, ← Tag.choice_ofDefinition, Choice.ofSchema_of_leads h]

theorem test_eq (h : context.Leads node definition) :
    Test.ofSchema context node = Test.ofDefinition context.options definition := by
  rw [← Test.choice_ofSchema, ← Test.choice_ofDefinition, Choice.ofSchema_of_leads h]

theorem type_eq (h : context.Leads node definition) :
    TypeExpr.ofSchema context node = TypeExpr.ofDefinition context.options definition := by
  cases h with
  | inline => cases definition <;> rfl
  | reference name _ h =>
    rw [TypeExpr.ofSchema, h]
    rfl

theorem conversion_eq (h : context.Leads node definition) (direction : Direction) (access : Access)
    (depth : Int) (optional : Bool) :
    Conversion.ofSchema direction context node access depth optional =
      Conversion.ofDefinition direction context.options access definition := by
  cases h with
  | inline => cases definition <;> cases direction <;> rfl
  | reference name _ h =>
    have hr : (context.resolve (.str name) >>=
        Conversion.ofDefinition direction context.options access) =
          Conversion.ofDefinition direction context.options access definition := by rw [h]; rfl
    cases direction <;> exact hr

theorem tag (h : context.Leads node definition) (hp : definition.Legible) :
    Tag.ofSchema context node = .ok (definition.tag context.options) :=
  h.tag_eq.trans (Tag.ofDefinition_eq context.options hp)

theorem test (h : context.Leads node definition) (hp : definition.Legible) :
    Test.ofSchema context node = .ok (definition.test context.options) :=
  h.test_eq.trans (Test.ofDefinition_eq context.options hp)

theorem type (h : context.Leads node definition) (hp : definition.Legible) :
    TypeExpr.ofSchema context node =
      .ok (.named (.str (definition.typeName context.options))) :=
  h.type_eq.trans (TypeExpr.ofDefinition_eq context.options hp)

theorem conversion (h : context.Leads node definition) (hp : definition.Legible)
    (direction : Direction) (access : Access) (depth : Int) (optional : Bool) :
    Conversion.ofSchema direction context node access depth optional =
      .ok (definition.conversion context.options direction access) :=
  (h.conversion_eq direction access depth optional).trans
    (Conversion.ofDefinition_eq direction context.options access hp)

end Context.Leads

end AvroBindings
