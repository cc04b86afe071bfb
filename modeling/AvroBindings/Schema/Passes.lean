import AvroBindings.Naming
import AvroBindings.Schema.Document

/-! What is done to a schema before code is generated. Every definition is named: without a namespace
of its own it takes that of the closest enclosing record. References are replaced by the full names
they stand for; a name that stands for nothing stays as it is written, and fails where code is
generated for it. The definitions are sorted by name, and entered in a table by full name, where the
last of several under one name stands. -/

namespace AvroBindings

def Attributes.rename (attributes : Attributes) (space name : Json) : Attributes :=
  (attributes.set "name" name).set "namespace" space

/-- Puts out the full name of a definition and gives its namespace and its new attributes. -/
def Attributes.assign (parent : Json) (attributes : Attributes) :
    Emitting String (Json × Attributes) := do
  let (space, name) ← attributes.effectiveName parent
  Emitting.emit (← Registry.registeredName space name)
  return (space, attributes.rename space name)

mutual
def Schema.assign (parent : Json) : Schema → Emitting String Schema
  | .union alternatives => return .union (← Schema.assignAll parent alternatives)
  | .enum definition => do
    let (_, attributes) ← definition.attributes.assign parent
    return .enum ⟨attributes⟩
  | .record definition => return .record (← definition.assign parent)
  | .array before (some items) after =>
    return .array before (some (← items.assign parent)) after
  | .array _ none _ => Emitting.fail (.missingAttribute "items")
  | .map before (some values) after => return .map before (some (← values.assign parent)) after
  | .map _ none _ => Emitting.fail (.missingAttribute "values")
  | schema => return schema

def Schema.assignAll (parent : Json) : List Schema → Emitting String (List Schema)
  | [] => return []
  | schema :: rest => return (← schema.assign parent) :: (← Schema.assignAll parent rest)

/-- The fields of a record come last afterwards. -/
def Record.assign (parent : Json) : Record → Emitting String Record
  | .mk before fields after => do
    let (space, attributes) ← Attributes.assign parent (before ++ after)
    return .mk attributes (.listed (← fields.assign space)) []

def Fields.assign (parent : Json) : Fields → Emitting String (List Field)
  | .absent => return []
  | .listed fields => Field.assignAll parent fields
  | .other value => Fields.noneIn value

def Field.assignAll (parent : Json) : List Field → Emitting String (List Field)
  | [] => return []
  | field :: rest => return (← field.assign parent) :: (← Field.assignAll parent rest)

def Field.assign (parent : Json) : Field → Emitting String Field
  | .mk before (some type) after => return .mk before (some (← type.assign parent)) after
  | .mk _ none _ => Emitting.fail (.missingAttribute "type")
  | .malformed value => Emitting.fail (.notIndexable value)
end

def Registry.linkName (registry : Registry) (name : String) : Except Error String :=
  (registry.find name).map (·.getD name)

mutual
def Schema.link (registry : Registry) : Schema → Except Error Schema
  | .reference name => return .reference (← registry.linkName name)
  | .union alternatives => return .union (← Schema.linkAll registry alternatives)
  | .record definition => return .record (← definition.link registry)
  | .array before (some items) after => return .array before (some (← items.link registry)) after
  | .array _ none _ => throw (.missingAttribute "items")
  | .map before (some values) after => return .map before (some (← values.link registry)) after
  | .map _ none _ => throw (.missingAttribute "values")
  | schema => return schema

def Schema.linkAll (registry : Registry) : List Schema → Except Error (List Schema)
  | [] => return []
  | schema :: rest => return (← schema.link registry) :: (← Schema.linkAll registry rest)

/-- A record without fields has an empty list of them afterwards. -/
def Record.link (registry : Registry) : Record → Except Error Record
  | .mk before fields after => return .mk before (.listed (← fields.link registry)) after

def Fields.link (registry : Registry) : Fields → Except Error (List Field)
  | .absent => return []
  | .listed fields => Field.linkAll registry fields
  | .other value => Fields.noneIn value

def Field.linkAll (registry : Registry) : List Field → Except Error (List Field)
  | [] => return []
  | field :: rest => return (← field.link registry) :: (← Field.linkAll registry rest)

def Field.link (registry : Registry) : Field → Except Error Field
  | .mk before (some type) after => return .mk before (some (← type.link registry)) after
  | .mk _ none _ => throw (.missingAttribute "type")
  | .malformed value => throw (.notIndexable value)
end

mutual
/-- The references at the type positions of a schema, depth first. -/
def Schema.references : Schema → List String
  | .reference name => [name]
  | .union alternatives => Schema.referencesAll alternatives
  | .record definition => definition.references
  | .array _ (some items) _ => items.references
  | .map _ (some values) _ => values.references
  | _ => []

def Schema.referencesAll : List Schema → List String
  | [] => []
  | schema :: rest => schema.references ++ Schema.referencesAll rest

def Record.references : Record → List String
  | .mk _ (.listed fields) _ => Field.referencesAll fields
  | _ => []

def Field.referencesAll : List Field → List String
  | [] => []
  | field :: rest => field.references ++ Field.referencesAll rest

def Field.references : Field → List String
  | .mk _ (some type) _ => type.references
  | _ => []
end

mutual
/-- Every definition, a record before those among its fields. -/
def Schema.definitions : Schema → Except Error (List Definition)
  | .enum definition => return [.enum definition]
  | .union alternatives => Schema.definitionsAll alternatives
  | .record definition => return .record definition :: (← definition.inner)
  | .array _ (some items) _ => items.definitions
  | .array _ none _ => throw (.missingAttribute "items")
  | .map _ (some values) _ => values.definitions
  | .map _ none _ => throw (.missingAttribute "values")
  | _ => return []

def Schema.definitionsAll : List Schema → Except Error (List Definition)
  | [] => return []
  | schema :: rest => return (← schema.definitions) ++ (← Schema.definitionsAll rest)

def Record.inner : Record → Except Error (List Definition)
  | .mk _ fields _ => fields.definitions

def Fields.definitions : Fields → Except Error (List Definition)
  | .absent => return []
  | .listed fields => Field.definitionsAll fields
  | .other value => do
    let _ ← Fields.noneIn value
    return []

def Field.definitionsAll : List Field → Except Error (List Definition)
  | [] => return []
  | field :: rest => return (← field.definitions) ++ (← Field.definitionsAll rest)

def Field.definitions : Field → Except Error (List Definition)
  | .mk _ (some type) _ => type.definitions
  | .mk _ none _ => throw (.missingAttribute "type")
  | .malformed value => throw (.notIndexable value)
end

/-- The parts that keep two of some names apart, those of the later name first. -/
def unordered? : List Json → Option (Json × Json)
  | [] => none
  | name :: rest =>
    match rest.find? fun other => (name.compare? other).isNone with
    | some other => some (other.clash name)
    | none => unordered? rest

/-- Sorts items by their names, those of equal names in their order. Every item needs a name,
and every two names an order. -/
def sortByName {α : Type} (name : α → Except Error Json) (items : List α) :
    Except Error (List α) := do
  let named ← items.mapM fun item => return (← name item, item)
  match unordered? (named.map (·.1)) with
  | none =>
    return (named.mergeSort fun left right => (left.1.compare? right.1).all (·.isLE)).map (·.2)
  | some (later, earlier) => throw (.notOrdered later earlier)

/-- Definitions by full name, in the order in which the names came. -/
abbrev Table := List (Json × Definition)

namespace Table

def find? (name : Json) : Table → Option Definition
  | [] => none
  | (key, definition) :: rest => if key.same name then some definition else find? name rest

def insert (name : Json) (definition : Definition) : Table → Table
  | [] => [(name, definition)]
  | (key, other) :: rest =>
    if key.same name then (key, definition) :: rest else (key, other) :: insert name definition rest

def ofDefinitions (definitions : List Definition) : Except Error Table :=
  definitions.foldlM (fun table definition => do
    let name ← definition.attributes.qualifiedName
    if name.isKey then return table.insert name definition else throw (.notHashable name)) []

end Table

/-- What generated code depends on beside the schema at hand. -/
structure Context where
  options : Options := {}
  registry : Registry := {}
  table : Table := []

def Context.resolve (context : Context) (reference : Json) : Except Error Definition := do
  let some name ← context.registry.get reference | throw (.unresolvedReference reference)
  let some definition := context.table.find? name | throw (.unresolvedReference reference)
  return definition

/-- The name that tells a schema apart among alternatives, if it has one: a full name, or the
name of a built-in type. -/
def Context.typeName (context : Context) : Schema → Except Error (Option Json)
  | .primitive name _ => .ok (some (.str name.name))
  | .array .. => .ok (some (.str "array"))
  | .map .. => .ok (some (.str "map"))
  | .enum definition => definition.attributes.qualifiedName.map some
  | .record definition => definition.attributes.qualifiedName.map some
  | .reference name => (context.registry.find name).map (·.map .str)
  | .union _ | .unknown _ => .ok none

end AvroBindings
