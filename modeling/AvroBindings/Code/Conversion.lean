import AvroBindings.Code.Bundle
import AvroBindings.Code.TypeExpr

/-! Generated code that converts values between classes and JSON, as trees with their text.
On the wire null stays null, and any other alternative of a union is an object with the
alternative's tag as its one key. It is found by its tag there, and by the kind of the value in what
a class holds. -/

namespace AvroBindings

inductive Direction where
  | deserialize
  | serialize
deriving DecidableEq, Repr

namespace Direction

def method : Direction → String
  | deserialize => "deserialize"
  | serialize => "serialize"

def failure : Direction → String
  | deserialize => "Unresolvable type"
  | serialize => "Unserializable type!"

end Direction

/-- What a nested conversion binds a variable to. -/
inductive Role where
  | element
  | keys
  | output
  | mapKey
  | mapValue
deriving DecidableEq, Repr

def Role.name : Role → String
  | element => "e"
  | keys => "keys"
  | output => "output"
  | mapKey => "mapKey"
  | mapValue => "mapValue"

/-- A local variable. Its depth tells it apart from those of the conversions around it. -/
structure Binding where
  role : Role
  depth : Int
deriving DecidableEq, Repr

def Binding.text (binding : Binding) : String :=
  binding.role.name ++ if binding.depth = 0 then "" else toString binding.depth

/-- The key that identifies an alternative of a union on the wire. -/
inductive Tag where
  /-- The full name of a record, kept by its class. -/
  | fullName (className : String)
  | literal (text : String)
deriving DecidableEq, Repr

namespace Tag

def text : Tag → String
  | fullName className => className ++ ".FQN"
  | literal text => "'" ++ text ++ "'"

/-- The tag as the key of an object literal. -/
def key : Tag → String
  | fullName className => "[" ++ (fullName className).text ++ "]"
  | literal text => (literal text).text

end Tag

inductive Access where
  | given (text : String)
  /-- A field of the value that a method is called on. -/
  | field (name : String)
  | bound (binding : Binding)
  | tagged (access : Access) (tag : Tag)
deriving DecidableEq, Repr

def Access.text : Access → String
  | given text => text
  | field name => "input." ++ name
  | bound binding => binding.text
  | tagged access tag => access.text ++ "[" ++ tag.text ++ "]"

inductive Test where
  | isNull
  | isNullOrUndefined
  | isDefined
  | hasType (name : String)
  | isInteger
  | isBuffer
  | isArray
  | isInstance (className : String)
  | isOneOf (symbols : List String)
  | isPlainObject
deriving DecidableEq, Repr

def Test.text (value : String) : Test → String
  | isNull => value ++ " === null"
  | isNullOrUndefined => value ++ " == null"
  | isDefined => value ++ " !== undefined"
  | hasType name => "typeof " ++ value ++ " === '" ++ name ++ "'"
  | isInteger => "Number.isInteger(" ++ value ++ ")"
  | isBuffer => "Buffer.isBuffer(" ++ value ++ ")"
  | isArray => "Array.isArray(" ++ value ++ ")"
  | isInstance className => value ++ " instanceof " ++ className
  | isOneOf symbols =>
    "typeof " ++ value ++ " === 'string' && [" ++
      ", ".intercalate (symbols.map fun symbol => "'" ++ symbol ++ "'") ++
      "].indexOf(" ++ value ++ ") >= 0"
  | isPlainObject =>
    "typeof " ++ value ++ " === 'object' && " ++ value ++
      " !== null && Object.getPrototypeOf(" ++ value ++ ") === Object.prototype"

mutual
inductive Conversion where
  | same (access : Access)
  | call (className : String) (direction : Direction) (access : Access)
  /-- Every element of an array. The body stands in braces or not. -/
  | elements (access : Access) (element : Binding) (braced : Bool) (body : Conversion)
  /-- Every value of an object, into a fresh object of a type. Its variables have one depth. -/
  | entries (access : Access) (depth : Int) (type : TypeExpr) (body : Conversion)
  | dispatch (direction : Direction) (branches : List Branch)

inductive Branch where
  | mk (access : Access) (test : Test) (answer : Answer)

inductive Answer where
  | undefined
  | null
  | value (conversion : Conversion)
  | wrapped (tag : Tag) (conversion : Conversion)
end

mutual
def Conversion.render : Conversion → String
  | .same access => access.text
  | .call className direction access =>
    className ++ "." ++ direction.method ++ "(" ++ access.text ++ ")"
  | .elements access element braced body =>
    access.text ++ ".map((" ++ element.text ++ ": any) => " ++
      (if braced then Layout.braces ("return " ++ body.render) else body.render) ++ ")"
  | .entries access depth type body =>
    let keys := (Binding.mk .keys depth).text
    let output := (Binding.mk .output depth).text
    let key := (Binding.mk .mapKey depth).text
    let value := (Binding.mk .mapValue depth).text
    Layout.selfExecuting <|
      "const " ++ keys ++ " = Object.keys(" ++ access.text ++ ")\n" ++
      "const " ++ output ++ ": " ++ type.render ++ " = \x7b\x7d\n" ++
      "for (const " ++ key ++ " of " ++ keys ++ ") " ++
      Layout.braces ("const " ++ value ++ " = " ++ access.text ++ "[" ++ key ++ "]\n" ++
        output ++ "[" ++ key ++ "] = " ++ body.render) ++
      "\nreturn " ++ output
  | .dispatch direction branches => Layout.dispatch (Branch.renderAll branches) direction.failure

def Branch.renderAll : List Branch → List (String × String)
  | [] => []
  | branch :: rest => branch.render :: Branch.renderAll rest

def Branch.render : Branch → String × String
  | .mk access test answer => (test.text access.text, answer.render)

def Answer.render : Answer → String
  | .undefined => "return undefined"
  | .null => "return null"
  | .value conversion => "return " ++ conversion.render
  | .wrapped tag conversion => "return \x7b " ++ tag.key ++ ": " ++ conversion.render ++ " \x7d"
end

namespace Tag

def ofDefinition (options : Options) : Definition → Except Error Tag
  | .enum definition => definition.attributes.qualifiedName.map (literal ·.text)
  | .record definition =>
    (definition.attributes.qualifiedDeclarationName options).map (fullName ·.text)

/-- The tag of an alternative. Unions and unknown types have none. -/
def ofSchema (context : Context) : Schema → Except Error Tag
  | .reference name => do ofDefinition context.options (← context.resolve (.str name))
  | .record definition => ofDefinition context.options (.record definition)
  | .enum definition => ofDefinition context.options (.enum definition)
  | .primitive name _ => .ok (literal name.name)
  | .array .. => .ok (literal "array")
  | .map .. => .ok (literal "map")
  | schema => .error (.unknownType schema.toJson)

end Tag

/-- The branch for null. A missing value of an optional field counts as null, and null is then
left out of the class. -/
def Branch.ofNull (direction : Direction) (optional : Bool) (access : Access) : Branch :=
  match direction, optional with
  | .deserialize, true => .mk access .isNullOrUndefined .undefined
  | .serialize, true => .mk access .isNullOrUndefined .null
  | _, false => .mk access .isNull .null

def Branch.nullBranches (direction : Direction) (optional : Bool) (access : Access)
    (alternatives : List Schema) : List Branch :=
  if alternatives.any Schema.isNull then [.ofNull direction optional access] else []

namespace Conversion

/-- Enums are texts on both sides, and records have classes. -/
def deserializeDefinition (options : Options) (access : Access) :
    Definition → Except Error Conversion
  | .enum _ => return same access
  | .record definition => do
    let name ← definition.attributes.qualifiedDeclarationName options
    return call name.text .deserialize access

mutual
/-- The conversion of a value of a schema. The flag tells whether a missing value counts as null;
it reaches no further than the union it belongs to. -/
def deserialize (context : Context) :
    Schema → Access → Int → Bool → Except Error Conversion
  | .reference name, access, _, _ => do
    deserializeDefinition context.options access (← context.resolve (.str name))
  | .primitive .., access, _, _ => return same access
  | .enum definition, access, _, _ =>
    deserializeDefinition context.options access (.enum definition)
  | .record definition, access, _, _ =>
    deserializeDefinition context.options access (.record definition)
  | .array _ (some items) _, access, depth, _ => do
    let element := Binding.mk .element depth
    let body ← deserialize context items (.bound element) (depth + 1) false
    return elements access element items.isMultiUnion body
  | .array _ none _, _, _, _ => throw (.missingAttribute "items")
  | .map _ (some values) _, access, depth, _ => do
    let type ← TypeExpr.ofSchema context values
    let value := Binding.mk .mapValue depth
    let body ← deserialize context values (.bound value) (depth + 1) false
    return entries access depth (.index type) body
  | .map _ none _, _, _, _ => throw (.missingAttribute "values")
  | .union [only], access, depth, optional => deserialize context only access depth optional
  | .union alternatives, access, depth, optional => do
    let branches ← deserializeAlternatives context alternatives access depth
    return dispatch .deserialize
      (Branch.nullBranches .deserialize optional access alternatives ++ branches)
  | .unknown value, _, _, _ => throw (.unknownType value)

def deserializeAlternatives (context : Context) :
    List Schema → Access → Int → Except Error (List Branch)
  | [], _, _ => return []
  | alternative :: rest, access, depth =>
    if alternative.isNull then deserializeAlternatives context rest access depth
    else do
      let tagged := access.tagged (← Tag.ofSchema context alternative)
      let conversion ← deserialize context alternative tagged depth false
      return .mk tagged .isDefined (.value conversion) ::
        (← deserializeAlternatives context rest access depth)
end

end Conversion

namespace Test

def ofPrimitive : Primitive → Test
  | .string => hasType "string"
  | .boolean => hasType "boolean"
  | .int | .long => isInteger
  | .float | .double => hasType "number"
  | .bytes => isBuffer
  | .null => isNull

def ofDefinition (options : Options) : Definition → Except Error Test
  | .enum definition => definition.symbols.map isOneOf
  | .record definition =>
    (definition.attributes.qualifiedDeclarationName options).map (isInstance ·.text)

/-- The test that recognises a value of a schema. There is none for a union. -/
def ofSchema (context : Context) : Schema → Except Error Test
  | .reference name => do ofDefinition context.options (← context.resolve (.str name))
  | .primitive name _ => .ok (ofPrimitive name)
  | .array .. => .ok isArray
  | .record definition => ofDefinition context.options (.record definition)
  | .enum definition => ofDefinition context.options (.enum definition)
  | .map .. => .ok isPlainObject
  | schema => .error (.unknownType schema.toJson)

end Test

namespace Conversion

def serializeDefinition (options : Options) (access : Access) :
    Definition → Except Error Conversion
  | .enum _ => return same access
  | .record definition => do
    let name ← definition.attributes.qualifiedDeclarationName options
    return call name.text .serialize access

mutual
/-- The conversion of a value of a schema. The flag tells whether a missing value counts as null;
it reaches no further than the union it belongs to. -/
def serialize (context : Context) :
    Schema → Access → Int → Bool → Except Error Conversion
  | .reference name, access, _, _ => do
    serializeDefinition context.options access (← context.resolve (.str name))
  | .primitive .., access, _, _ => return same access
  | .enum definition, access, _, _ =>
    serializeDefinition context.options access (.enum definition)
  | .record definition, access, _, _ =>
    serializeDefinition context.options access (.record definition)
  | .array _ (some items) _, access, depth, _ => do
    let element := Binding.mk .element depth
    let body ← serialize context items (.bound element) (depth + 1) false
    return elements access element items.isMultiUnion body
  | .array _ none _, _, _, _ => throw (.missingAttribute "items")
  | .map _ (some values) _, access, depth, _ => do
    let value := Binding.mk .mapValue depth
    let body ← serialize context values (.bound value) (depth + 1) false
    return entries access depth .any body
  | .map _ none _, _, _, _ => throw (.missingAttribute "values")
  | .union [only], access, depth, optional => serialize context only access depth optional
  | .union alternatives, access, depth, optional => do
    let branches ← serializeAlternatives context alternatives access depth
    return dispatch .serialize
      (Branch.nullBranches .serialize optional access alternatives ++ branches)
  | .unknown value, _, _, _ => throw (.unknownType value)

def serializeAlternatives (context : Context) :
    List Schema → Access → Int → Except Error (List Branch)
  | [], _, _ => return []
  | alternative :: rest, access, depth =>
    if alternative.isNull then serializeAlternatives context rest access depth
    else do
      let test ← Test.ofSchema context alternative
      let tag ← Tag.ofSchema context alternative
      let conversion ← serialize context alternative access depth false
      return .mk access test (.wrapped tag conversion) ::
        (← serializeAlternatives context rest access depth)
end

end Conversion

def Answer.wrap (context : Context) (alternative : Schema) (access : Access) (depth : Int) :
    Except Error Answer := do
  let tag ← Tag.ofSchema context alternative
  return .wrapped tag (← Conversion.serialize context alternative access depth false)

end AvroBindings
