import AvroBindings.Code.Declaration
import AvroBindings.Proofs.Naming

/-! What generated code says about a definition, on definitions that are legible: the type that
stands for it, its tag and its test, and the conversion of its values. None of them can fail there.
The texts of type expressions and of branches are told by those of their parts. -/

namespace AvroBindings

namespace TypeExpr

theorem renderAll_eq (types : List TypeExpr) : renderAll types = types.map render := by
  induction types with
  | nil => rfl
  | cons type rest ih => rw [renderAll, ih, List.map_cons]

theorem render_array (item : TypeExpr) : (array item).render =
    if item.isMultiUnion then "(" ++ item.render ++ ")[]" else item.render ++ "[]" := rfl

theorem render_index (value : TypeExpr) :
    (index value).render = "\x7b [index:string]: " ++ value.render ++ " \x7d" := rfl

theorem render_union (types : List TypeExpr) :
    (union types).render = " | ".intercalate (types.map render) := by
  rw [← renderAll_eq]
  rfl

end TypeExpr

theorem Branch.renderAll_eq (branches : List Branch) :
    Branch.renderAll branches = branches.map Branch.render := by
  induction branches with
  | nil => rfl
  | cons branch rest ih => rw [renderAll, ih, List.map_cons]

def Branch.clause (branch : String × String) : String :=
  "if (" ++ branch.1 ++ ") " ++ Layout.braces branch.2

theorem Branch.conditional_eq (branches : List (String × String)) :
    Layout.conditional branches = " else ".intercalate (branches.map clause) := rfl

namespace Enum

/-- The symbols as texts, none if they are no list. -/
def symbolTexts (definition : Enum) : List String :=
  match definition.symbols with
  | .ok symbols => symbols
  | .error _ => []

theorem Legible.symbols_eq {definition : Enum} (h : definition.Legible) :
    definition.symbols = .ok definition.symbolTexts := by
  have hs : ∃ symbols, definition.symbols = .ok symbols := by
    unfold Enum.symbols
    obtain hn | ⟨symbols, hs⟩ := h.symbols
    · rw [hn]
      exact ⟨_, rfl⟩
    · rw [hs]
      exact ⟨_, rfl⟩
  obtain ⟨symbols, hs⟩ := hs
  rw [symbolTexts, hs]

end Enum

namespace Definition

/-- What is asked of the node that a definition is. -/
def Proper (definition : Definition) : Prop := definition.schema.Proper

/-- What generated code reads of a definition is there. -/
def Legible (definition : Definition) : Prop := definition.schema.Legible

theorem Proper.legible {definition : Definition} (h : definition.Proper) : definition.Legible :=
  Schema.Proper.legible h

theorem Legible.titled {definition : Definition} (h : definition.Legible) :
    definition.attributes.Titled := by
  cases definition with
  | enum own => exact Enum.Legible.titled h
  | record own => exact h

theorem Proper.named {definition : Definition} (h : definition.Proper) :
    definition.attributes.Named := by
  cases definition with
  | enum own => exact Enum.Proper.named h
  | record own => exact Record.Proper.named h

/-- The name of the class of a record, or of the declaration of an enum, from outside its
namespace. -/
def className (options : Options) (definition : Definition) : String :=
  options.refer definition.attributes.space definition.attributes.shortName

def typeName (options : Options) : Definition → String
  | enum own => (enum own).className options
  | record own =>
    options.refer own.attributes.space (options.interfaceText own.attributes.shortName)

def tag (options : Options) : Definition → Tag
  | enum own => .literal own.attributes.qualifiedText
  | record own => .fullName ((record own).className options)

def test (options : Options) : Definition → Test
  | enum own => .isOneOf own.symbolTexts
  | record own => .isInstance ((record own).className options)

def conversion (options : Options) (direction : Direction) (access : Access) :
    Definition → Conversion
  | enum _ => .same access
  | record own => .call ((record own).className options) direction access

end Definition

variable {definition : Definition}

theorem TypeExpr.ofDefinition_eq (options : Options) (h : definition.Legible) :
    ofDefinition options definition = .ok (.named (.str (definition.typeName options))) := by
  cases definition with
  | enum own =>
    have hn : own.attributes.Titled := h.titled
    rw [ofDefinition, hn.qualifiedDeclarationName]
    rfl
  | record own =>
    have hn : own.attributes.Titled := h.titled
    rw [ofDefinition, hn.qualifiedInterfaceName]
    rfl

theorem Tag.ofDefinition_eq (options : Options) (h : definition.Legible) :
    ofDefinition options definition = .ok (definition.tag options) := by
  cases definition with
  | enum own =>
    have hn : own.attributes.Titled := h.titled
    rw [ofDefinition, hn.qualifiedName]
    rfl
  | record own =>
    have hn : own.attributes.Titled := h.titled
    rw [ofDefinition, hn.qualifiedDeclarationName]
    rfl

theorem Test.ofDefinition_eq (options : Options) (h : definition.Legible) :
    ofDefinition options definition = .ok (definition.test options) := by
  cases definition with
  | enum own =>
    rw [ofDefinition, Enum.Legible.symbols_eq h]
    rfl
  | record own =>
    have hn : own.attributes.Titled := h.titled
    rw [ofDefinition, hn.qualifiedDeclarationName]
    rfl

namespace Conversion

theorem deserializeDefinition_eq (options : Options) (access : Access) (h : definition.Legible) :
    deserializeDefinition options access definition =
      .ok (definition.conversion options .deserialize access) := by
  cases definition with
  | enum own => rfl
  | record own =>
    have hn : own.attributes.Titled := h.titled
    rw [deserializeDefinition, hn.qualifiedDeclarationName]
    rfl

theorem serializeDefinition_eq (options : Options) (access : Access) (h : definition.Legible) :
    serializeDefinition options access definition =
      .ok (definition.conversion options .serialize access) := by
  cases definition with
  | enum own => rfl
  | record own =>
    have hn : own.attributes.Titled := h.titled
    rw [serializeDefinition, hn.qualifiedDeclarationName]
    rfl

end Conversion

end AvroBindings
