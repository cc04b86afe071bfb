import AvroBindings.Error

/-! Avro schemas as trees of type positions. Every JSON value is a schema: what has no known shape
is kept as it is, and a node that lacks a member it needs lacks it in the tree. A node keeps
its attributes in their order, so that the document can be written back. -/

namespace AvroBindings

inductive Primitive where
  | string
  | boolean
  | long
  | int
  | double
  | float
  | bytes
  | null
deriving DecidableEq, Repr

namespace Primitive

def name : Primitive → String
  | string => "string"
  | boolean => "boolean"
  | long => "long"
  | int => "int"
  | double => "double"
  | float => "float"
  | bytes => "bytes"
  | null => "null"

def ofName? : String → Option Primitive
  | "string" => some string
  | "boolean" => some boolean
  | "long" => some long
  | "int" => some int
  | "double" => some double
  | "float" => some float
  | "bytes" => some bytes
  | "null" => some null
  | _ => none

@[simp] theorem ofName?_name (primitive : Primitive) : ofName? primitive.name = some primitive := by
  cases primitive <;> rfl

theorem name_of_ofName? {text : String} {primitive : Primitive}
    (h : ofName? text = some primitive) : primitive.name = text := by
  unfold ofName? at h
  split at h <;> cases h <;> rfl

end Primitive

structure Enum where
  attributes : Attributes
deriving Repr

mutual
inductive Schema where
  /-- A primitive, by its bare name or as an object with attributes, its `type` among them. -/
  | primitive (name : Primitive) (wrapper : Option Attributes)
  | reference (name : String)
  | union (alternatives : List Schema)
  | enum (definition : Enum)
  | record (definition : Record)
  /-- Its `items` stand between the other attributes. -/
  | array (before : Attributes) (items : Option Schema) (after : Attributes)
  /-- Its `values` stand between the other attributes. -/
  | map (before : Attributes) (values : Option Schema) (after : Attributes)
  | unknown (value : Json)

/-- A record definition. Its `fields` stand between the other attributes. -/
inductive Record where
  | mk (before : Attributes) (fields : Fields) (after : Attributes)

inductive Fields where
  | absent
  | listed (fields : List Field)
  /-- A value that is not a list stands in their place. -/
  | other (value : Json)

inductive Field where
  | mk (before : Attributes) (type : Option Schema) (after : Attributes)
  /-- A value that is not an object. -/
  | malformed (value : Json)
end

namespace Enum

/-- The symbols in order. Any list of values counts; a text counts as its characters and an object
as its keys. -/
def symbols (definition : Enum) : Except Error (List String) :=
  match definition.attributes.get? "symbols" with
  | none => .ok []
  | some (.arr symbols) => .ok (symbols.map Json.text)
  | some (.str text) => .ok (text.toList.map (String.ofList [·]))
  | some (.obj entries) => .ok (entries.map (·.1))
  | some value => .error (.notIterable value)

end Enum

inductive Definition where
  | enum (definition : Enum)
  | record (definition : Record)

namespace Record

def attributes : Record → Attributes
  | mk before _ after => before ++ after

def fields : Record → Fields
  | mk _ fields _ => fields

end Record

namespace Fields

/-- What stands in place of a list of fields holds none, if it is an empty text or object. The
elements of another text or object are texts, and no fields. -/
def noneIn : Json → Except Error (List Field)
  | .str "" | .obj [] => .ok []
  | .str text => .error (.notIndexable (.str text))
  | .obj ((key, _) :: _) => .error (.notIndexable (.str key))
  | value => .error (.notIterable value)

def toList : Fields → Except Error (List Field)
  | absent => .ok []
  | listed fields => .ok fields
  | other value => noneIn value

end Fields

namespace Field

def name : Field → Except Error Json
  | mk before _ after =>
    match Attributes.get? "name" (before ++ after) with
    | some name => .ok name
    | none => .error (.missingAttribute "name")
  | malformed value => .error (.notIndexable value)

def type : Field → Except Error Schema
  | mk _ (some type) _ => .ok type
  | mk _ none _ => .error (.missingAttribute "type")
  | malformed value => .error (.notIndexable value)

end Field

namespace Definition

def attributes : Definition → Attributes
  | enum definition => definition.attributes
  | record definition => definition.attributes

def schema : Definition → Schema
  | enum definition => .enum definition
  | record definition => .record definition

def enum? : Definition → Option Enum
  | enum definition => some definition
  | record _ => none

def record? : Definition → Option Record
  | enum _ => none
  | record definition => some definition

end Definition

namespace Schema

def definition? : Schema → Option Definition
  | enum definition => some (.enum definition)
  | record definition => some (.record definition)
  | _ => none

def isUnion : Schema → Bool
  | union _ => true
  | _ => false

def isNull : Schema → Bool
  | primitive .null _ => true
  | _ => false

/-- Unions with null as their first alternative. -/
def isOptional : Schema → Bool
  | union (first :: _) => first.isNull
  | _ => false

def isMultiUnion : Schema → Bool
  | union (_ :: _ :: _) => true
  | _ => false

end Schema

end AvroBindings
