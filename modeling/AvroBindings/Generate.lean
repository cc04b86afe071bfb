import AvroBindings.Code.Declaration

/-! The bindings of a document, and what is reported on the way to them. Every definition gets its
effective namespace, references are resolved against all of them, and each definition is declared,
enums before records and both in the order of their names. -/

namespace AvroBindings

inductive Event where
  | registered (name : String)
  | unmatchedReference (reference : String)
  | resolvedReference (reference name : String)
  | counted (enums records : Nat)
  | declaringEnum (style : EnumStyle) (name : String)
  | declaringInterface (name : String)
  | declaringClass (name : String)
  | skipped (path : String) (error : Error)
deriving Repr

namespace Event

def source : Event → String
  | registered _ => "avsctots.fqnresolver"
  | unmatchedReference _ | resolvedReference .. => "avsctots.namespaces"
  | counted .. | skipped .. => "avsctots.avrotots"
  | declaringEnum .. | declaringInterface _ | declaringClass _ => "avsctots.declarations"

def isWarning : Event → Bool
  | skipped .. => true
  | _ => false

def message : Event → String
  | registered name => "Registered type " ++ name
  | unmatchedReference reference => "Reference " ++ reference ++ " does not match any known type"
  | resolvedReference reference name => "Resolved reference " ++ reference ++ " to " ++ name
  | counted enums records =>
    "Generating " ++ toString enums ++ " enums and " ++ toString records ++ " records"
  | declaringEnum style name =>
    "Generating " ++ style.label ++ " declaration for enum " ++ name
  | declaringInterface name => "Generating interface for record " ++ name
  | declaringClass name => "Generating class for record " ++ name
  | skipped path error => "Skipping " ++ path ++ ": " ++ error.message

/-- A line of a log: the level, the source and the message. -/
def line (event : Event) : String :=
  (if event.isWarning then "WARNING " else "DEBUG ") ++ event.source ++ ": " ++ event.message

end Event

namespace Schema

/-- What resolving references reports, up to the first ambiguous one. -/
def linkEvents (registry : Registry) : List String → List Event
  | [] => []
  | name :: rest =>
    match registry.find name with
    | .error _ => []
    | .ok none => .unmatchedReference name :: linkEvents registry rest
    | .ok (some full) =>
      if full = name then linkEvents registry rest
      else .resolvedReference name full :: linkEvents registry rest

/-- Registers the definitions of a schema beside those of a registry. Gives the registry, and the
schema with effective namespaces and full references. -/
def augment (registry : Registry) (schema : Schema) : Registry × Emitting Event Schema :=
  let assigned := schema.assign .null
  let extended := registry.insertAll assigned.emitted
  (extended, do
    Emitting.emitAll ((extended.names.drop registry.names.length).map .registered)
    let named ← assigned.result
    Emitting.emitAll (linkEvents extended named.references)
    named.link extended)

end Schema

/-- The definitions of a document, each kind sorted by name, and their table. -/
structure Inventory where
  enums : List Enum
  records : List Record
  table : Table

def Inventory.ofSchema (schema : Schema) : Except Error Inventory := do
  let definitions ← schema.definitions
  let enums ← sortByName (·.attributes.name) (definitions.filterMap Definition.enum?)
  let records ← sortByName (·.attributes.name) (definitions.filterMap Definition.record?)
  let table ← Table.ofDefinitions (enums.map .enum ++ records.map .record)
  return ⟨enums, records, table⟩

def declare (report : String → Event) (attributes : Attributes)
    (declaration : Except Error Declaration) : Emitting Event (Json × Declaration) := do
  let name ← attributes.qualifiedName
  Emitting.emit (report name.text)
  return (attributes.space, ← declaration)

/-- All enums, then all interfaces, then all classes if there are any. -/
def Inventory.declarations (inventory : Inventory) (context : Context) :
    Emitting Event (List (Json × Declaration)) := do
  let enums ← inventory.enums.mapM fun definition =>
    declare (.declaringEnum context.options.effectiveStyle) definition.attributes
      (Declaration.ofEnum context.options definition)
  let interfaces ← inventory.records.mapM fun record =>
    declare .declaringInterface record.attributes (Declaration.ofRecord context record)
  let classes ← (if context.options.withClasses then inventory.records else []).mapM fun record =>
    declare .declaringClass record.attributes (Declaration.classOfRecord context record)
  return enums ++ interfaces ++ classes

/-- The bindings of a schema in one text. -/
def generate (options : Options) (schema : Schema) : Emitting Event String := do
  let (registry, augmented) := schema.augment {}
  let inventory ← Inventory.ofSchema (← augmented)
  Emitting.emit (.counted inventory.enums.length inventory.records.length)
  let declarations ← inventory.declarations ⟨options, registry, inventory.table⟩
  Bundle.join options (declarations.map fun (space, declaration) => (space, declaration.render))

end AvroBindings
