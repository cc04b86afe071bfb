import AvroBindings.Code.Conversion

/-! Declarations of enums and records, as trees with their text: enums or unions of string
literals, interfaces, and classes with methods that convert to and from JSON. -/

namespace AvroBindings

structure Property where
  name : String
  optional : Bool
  type : TypeExpr

namespace Property

def text (property : Property) : String :=
  property.name ++ (if property.optional then "?" else "") ++ ": " ++ property.type.render

def ofField (context : Context) (field : Field) : Except Error Property := do
  let name ← field.name
  let type ← field.type
  return ⟨name.text, type.isOptional, ← TypeExpr.ofProperty context type⟩

end Property

/-- A field of the object that a method builds. -/
structure Assignment where
  name : String
  value : Conversion

namespace Assignment

def text (assignment : Assignment) : String :=
  assignment.name ++ ": " ++ assignment.value.render ++ ","

def ofField (context : Context) (direction : Direction) (field : Field) :
    Except Error Assignment := do
  let type ← field.type
  let name ← field.name
  let access := Access.field name.text
  match direction with
  | .deserialize =>
    return ⟨name.text, ← Conversion.deserialize context type access 0 type.isOptional⟩
  | .serialize =>
    return ⟨name.text, ← Conversion.serialize context type access 0 type.isOptional⟩

end Assignment

/-- A static method that converts a value of a class in one direction. -/
structure Method where
  className : String
  direction : Direction
  assignments : List Assignment

namespace Method

def object (assignments : List Assignment) : String :=
  if assignments.isEmpty then "\x7b\x7d"
  else Layout.braces ("\n".intercalate (assignments.map Assignment.text))

def render (method : Method) : String :=
  let object := object method.assignments
  match method.direction with
  | .deserialize =>
    "public static deserialize(input: any): " ++ method.className ++ " " ++
      Layout.braces ("return new " ++ method.className ++ "(" ++ object ++ ")")
  | .serialize =>
    "public static serialize(input: " ++ method.className ++ "): object " ++
      Layout.braces ("return " ++ object)

def ofRecord (context : Context) (direction : Direction) (record : Record) :
    Except Error Method := do
  let name ← record.attributes.name
  let fields ← record.fields.toList
  return ⟨name.text, direction, ← fields.mapM (Assignment.ofField context direction)⟩

end Method

structure ClassDeclaration where
  name : String
  interface : String
  /-- The full name of the record, by which a union tells it apart. -/
  fullName : String
  properties : List Property
  deserializer : Method
  serializer : Method

namespace ClassDeclaration

def lineEach {α : Type} (line : α → String) (items : List α) : String :=
  String.join (items.map fun item => line item ++ "\n")

def render (declaration : ClassDeclaration) : String :=
  "export class " ++ declaration.name ++ " implements " ++ declaration.interface ++ " \x7b\n" ++
  "  public static FQN = '" ++ declaration.fullName ++ "'\n" ++
  lineEach (fun property => "  public readonly " ++ property.text) declaration.properties ++
  "\n  constructor(input: Partial<" ++ declaration.interface ++ ">) \x7b\n" ++
  (if declaration.properties.isEmpty then "    /* noop */\n"
    else lineEach (fun property => "    this." ++ property.name ++ " = input." ++ property.name)
      declaration.properties) ++
  "  \x7d\n\n" ++
  Layout.indent declaration.deserializer.render ++ "\n\n" ++
  Layout.indent declaration.serializer.render ++ "\n\x7d"

def ofRecord (context : Context) (record : Record) : Except Error ClassDeclaration := do
  let name ← record.attributes.name
  let interface ← record.attributes.interfaceName context.options
  let fullName ← record.attributes.qualifiedName
  let fields ← record.fields.toList
  return {
    name := name.text
    interface := interface.text
    fullName := fullName.text
    properties := ← fields.mapM (Property.ofField context)
    deserializer := ← Method.ofRecord context .deserialize record
    serializer := ← Method.ofRecord context .serialize record }

end ClassDeclaration

inductive Declaration where
  /-- An enum, constant or not, whose members have their own names as values. -/
  | enumeration (constant : Bool) (name : String) (symbols : List String)
  | stringUnion (name : String) (symbols : List String)
  | interface (name : String) (properties : List Property)
  | classOf (declaration : ClassDeclaration)

namespace Declaration

def name : Declaration → String
  | enumeration _ name _ => name
  | stringUnion name _ => name
  | interface name _ => name
  | classOf declaration => declaration.name

def render : Declaration → String
  | enumeration constant name symbols =>
    "export " ++ (if constant then "const " else "") ++ "enum " ++ name ++ " \x7b\n" ++
      ClassDeclaration.lineEach (fun symbol => "  " ++ symbol ++ " = '" ++ symbol ++ "',")
        symbols ++ "\x7d"
  | stringUnion name symbols =>
    "export type " ++ name ++ " = " ++
      " | ".intercalate (symbols.map fun symbol => "'" ++ symbol ++ "'")
  | interface name properties =>
    "export interface " ++ name ++ " \x7b\n" ++
      ClassDeclaration.lineEach (fun property => "  " ++ property.text) properties ++ "\x7d"
  | classOf declaration => declaration.render

def ofEnum (options : Options) (definition : Enum) : Except Error Declaration := do
  let name ← definition.attributes.name
  let symbols ← definition.symbols
  return match options.effectiveStyle with
    | .stringUnion => stringUnion name.text symbols
    | .constEnum => enumeration true name.text symbols
    | .enum => enumeration false name.text symbols

def ofRecord (context : Context) (record : Record) : Except Error Declaration := do
  let name ← record.attributes.interfaceName context.options
  let fields ← record.fields.toList
  return interface name.text (← fields.mapM (Property.ofField context))

def classOfRecord (context : Context) (record : Record) : Except Error Declaration :=
  (ClassDeclaration.ofRecord context record).map classOf

end Declaration

end AvroBindings
