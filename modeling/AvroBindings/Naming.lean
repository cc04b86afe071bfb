import AvroBindings.Options
import AvroBindings.Text.Split

/-! Names of records and enums, and the names under which generated code declares them and refers to
them. A document may give any value as a name or a namespace; wherever a name becomes part of a
longer text, the text of the value is taken. The full names of a document are registered, each once,
and looked up in full, or by their last segment if that leaves one choice. -/

namespace AvroBindings

def lastSegment (name : String) : String := String.ofList (afterLast '.' name.toList)

/-- A name within a namespace, joined by a dot; the bare name if the namespace is falsy. -/
def fullName (space name : Json) : Json :=
  if space.isTruthy then .str (space.text ++ "." ++ name.text) else name

namespace Attributes

def name (attributes : Attributes) : Except Error Json :=
  match attributes.get? "name" with
  | some name => .ok name
  | none => .error (.missingAttribute "name")

def space (attributes : Attributes) : Json := (attributes.get? "namespace").getD .null

def qualifiedName (attributes : Attributes) : Except Error Json :=
  attributes.name.map (fullName attributes.space)

/-- The name of the interface of a record, which leaves the bare name to the class if there is
one. -/
def interfaceName (options : Options) (attributes : Attributes) : Except Error Json :=
  attributes.name.map fun name => if options.withClasses then .str ("I" ++ name.text) else name

/-- How generated code refers to a declaration of this definition. -/
def referenceName (options : Options) (attributes : Attributes) (name : Json) : Json :=
  if options.withoutNamespaces then name else fullName attributes.space name

def qualifiedInterfaceName (options : Options) (attributes : Attributes) : Except Error Json :=
  (attributes.interfaceName options).map (attributes.referenceName options)

def qualifiedDeclarationName (options : Options) (attributes : Attributes) : Except Error Json :=
  attributes.name.map (attributes.referenceName options)

/-- The namespace and the short name that a definition gets below a parent namespace. A dotted
name is a full name. Otherwise a namespace of its own wins, and an empty one means none. -/
def effectiveName (parent : Json) (attributes : Attributes) : Except Error (Json × Json) := do
  let name ← attributes.name
  let own : Json × Json := match attributes.space with
    | .null => (parent, name)
    | space => (space.orNull, name)
  match name with
  | .str text =>
    match splitLast '.' text.toList with
    | some (before, after) =>
      return (Json.orNull (.str (String.ofList before)), .str (String.ofList after))
    | none => return own
  | .arr elements =>
    if elements.any isDot then throw (.missingOperation name "rsplit") else return own
  | .obj entries =>
    if entries.any (·.1 == ".") then throw (.missingOperation name "rsplit") else return own
  | _ => throw (.notSearchable name)
where
  isDot : Json → Bool
    | .str text => text == "."
    | _ => false

end Attributes

structure Registry where
  names : List String := []
  /-- Values registered as names that are no texts. They can be found only as they are, and have no
  last segment. -/
  others : List Json := []
deriving Repr

namespace Registry

def insert (registry : Registry) (name : String) : Registry :=
  if name ∈ registry.names then registry
  else { registry with names := registry.names ++ [name] }

def insertAll (registry : Registry) (names : List String) : Registry :=
  names.foldl insert registry

@[simp] theorem mem_insert {registry : Registry} {name other : String} :
    other ∈ (registry.insert name).names ↔ other ∈ registry.names ∨ other = name := by
  unfold insert
  split
  next h => exact ⟨Or.inl, fun h' => h'.elim id fun e => e ▸ h⟩
  next => simp

@[simp] theorem mem_insertAll {registry : Registry} {names : List String} {other : String} :
    other ∈ (registry.insertAll names).names ↔ other ∈ registry.names ∨ other ∈ names := by
  induction names generalizing registry with
  | nil => simp [insertAll]
  | cons name rest ih =>
    simp only [insertAll, List.foldl_cons] at ih ⊢
    simp [ih, or_assoc]

theorem nodup_insert {registry : Registry} (h : registry.names.Nodup) (name : String) :
    (registry.insert name).names.Nodup := by
  unfold insert
  split
  next => exact h
  next hn =>
    simp only [List.nodup_append, h, true_and]
    simp only [List.nodup_cons, List.not_mem_nil, not_false_eq_true, List.nodup_nil, and_self,
      List.mem_singleton, ne_eq, true_and]
    rintro a ha b rfl rfl
    exact hn ha

def sorted (names : List String) : List String := names.mergeSort fun left right => left ≤ right

def candidates (registry : Registry) (name : String) : List String :=
  registry.names.filter fun full => lastSegment full == name

/-- The full name that a name stands for, if any. A name that is not registered itself is compared
with the last segments of all names, so that each of them has to be a text. -/
def find (registry : Registry) (name : String) : Except Error (Option String) :=
  if name ∈ registry.names then .ok (some name)
  else
    match registry.others with
    | value :: _ => .error (.missingOperation value "split")
    | [] =>
      match registry.candidates name with
      | [] => .ok none
      | [only] => .ok (some only)
      | several => .error (.ambiguousReference name (sorted several))

def contains (registry : Registry) : Json → Except Error Bool
  | .str name => .ok (registry.names.contains name)
  | name => if name.isKey then .ok (registry.others.any name.same) else .error (.notHashable name)

/-- The full name that a value stands for, if any. A value that is no text stands for itself. -/
def get (registry : Registry) : Json → Except Error (Option Json)
  | .str name => (registry.find name).map (·.map .str)
  | name => do
    if ← registry.contains name then return some name
    match registry.others with
    | value :: _ => throw (.missingOperation value "split")
    | [] => return none

/-- Registers a name within a namespace and gives the full name, which has to be able to serve as
a key. -/
def add (registry : Registry) (space name : Json) : Except Error (Json × Registry) :=
  match fullName space name with
  | .str full => .ok (.str full, registry.insert full)
  | full => do
    if ← registry.contains full then return (full, registry)
    return (full, { registry with others := registry.others ++ [full] })

def registeredName (space name : Json) : Except Error String :=
  match fullName space name with
  | .str full => .ok full
  | full => .error (.notHashable full)

end Registry

end AvroBindings
