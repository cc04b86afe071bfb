import AvroBindings.Schema.Passes

/-! Type expressions of TypeScript, and the type expression of a schema. An array groups its item
type only if that is a union of at least two alternatives. -/

namespace AvroBindings

inductive Builtin where
  | number
  | buffer
  | null
  | boolean
  | string
deriving DecidableEq, Repr

def Builtin.name : Builtin → String
  | number => "number"
  | buffer => "Buffer"
  | null => "null"
  | boolean => "boolean"
  | string => "string"

def Primitive.builtin : Primitive → Builtin
  | .string => .string
  | .boolean => .boolean
  | .long | .int | .double | .float => .number
  | .bytes => .buffer
  | .null => .null

def Builtin.ofPrimitiveName (name : Json) : Except Error Builtin :=
  match name with
  | .str text =>
    match Primitive.ofName? text with
    | some primitive => .ok primitive.builtin
    | none => .error (.unknownPrimitive name)
  | _ => .error (if name.isKey then .unknownPrimitive name else .notHashable name)

inductive TypeExpr where
  | builtin (type : Builtin)
  /-- A declared type, by the name its definition gives it. -/
  | named (name : Json)
  | union (alternatives : List TypeExpr)
  | array (item : TypeExpr)
  /-- Objects with any keys and values of one type. -/
  | index (value : TypeExpr)
  | any

namespace TypeExpr

def isMultiUnion : TypeExpr → Bool
  | union (_ :: _ :: _) => true
  | _ => false

mutual
def render : TypeExpr → String
  | builtin type => type.name
  | named name => name.text
  | union alternatives => " | ".intercalate (renderAll alternatives)
  | array item =>
    if item.isMultiUnion then "(" ++ item.render ++ ")[]" else item.render ++ "[]"
  | index value => "\x7b [index:string]: " ++ value.render ++ " \x7d"
  | any => "any"

def renderAll : List TypeExpr → List String
  | [] => []
  | type :: rest => type.render :: renderAll rest
end

/-- The expression as a value: a bare name is the value that the definition gives, and all else
is text. -/
def toJson : TypeExpr → Json
  | named name => name
  | type => .str type.render

def nonText? (position : Nat) : List TypeExpr → Option (Nat × Json)
  | [] => none
  | named (.str _) :: rest => nonText? (position + 1) rest
  | named value :: _ => some (position, value)
  | _ :: rest => nonText? (position + 1) rest

/-- Only texts can be joined to a union. -/
def unionOf (alternatives : List TypeExpr) : Except Error TypeExpr :=
  match nonText? 0 alternatives with
  | none => .ok (union alternatives)
  | some (position, value) => .error (.notText position value)

/-- Records are referred to by their interfaces. -/
def ofDefinition (options : Options) : Definition → Except Error TypeExpr
  | .enum definition => (definition.attributes.qualifiedDeclarationName options).map named
  | .record definition => (definition.attributes.qualifiedInterfaceName options).map named

mutual
def ofSchema (context : Context) : Schema → Except Error TypeExpr
  | .primitive name _ => return builtin name.builtin
  | .reference name => do ofDefinition context.options (← context.resolve (.str name))
  | .union alternatives => do unionOf (← ofSchemas context alternatives)
  | .enum definition => ofDefinition context.options (.enum definition)
  | .record definition => ofDefinition context.options (.record definition)
  | .array _ (some items) _ => return array (← ofSchema context items)
  | .array _ none _ => throw (.missingAttribute "items")
  | .map _ (some values) _ => return index (← ofSchema context values)
  | .map _ none _ => throw (.missingAttribute "values")
  | .unknown value => throw (.unknownType value)

def ofSchemas (context : Context) : List Schema → Except Error (List TypeExpr)
  | [] => return []
  | schema :: rest => return (← ofSchema context schema) :: (← ofSchemas context rest)
end

/-- The type of a property. An optional one drops the null it begins with. -/
def ofProperty (context : Context) (schema : Schema) : Except Error TypeExpr :=
  match schema with
  | .union (first :: second :: rest) =>
    ofSchema context (if first.isNull then .union (second :: rest) else schema)
  | _ => ofSchema context schema

end TypeExpr

end AvroBindings
