import AvroBindings.Proofs.Code.Definitions
import AvroBindings.Proofs.Traversal

/-! The conversions of both directions in one form. They differ in the type that the entries of a
map are collected under, and in how a branch finds its alternative: by the tag on the wire, or by
a test of the value. -/

namespace AvroBindings

namespace Conversion

def ofSchema (direction : Direction) (context : Context) (schema : Schema) (access : Access)
    (depth : Int) (optional : Bool) : Except Error Conversion :=
  match direction with
  | .deserialize => deserialize context schema access depth optional
  | .serialize => serialize context schema access depth optional

def ofDefinition (direction : Direction) (options : Options) (access : Access)
    (definition : Definition) : Except Error Conversion :=
  match direction with
  | .deserialize => deserializeDefinition options access definition
  | .serialize => serializeDefinition options access definition

theorem ofDefinition_enum (direction : Direction) (options : Options) (access : Access)
    (own : Enum) : ofDefinition direction options access (.enum own) = .ok (.same access) := by
  cases direction <;> rfl

theorem ofDefinition_record (direction : Direction) (options : Options) (access : Access)
    (own : Record) :
    ofDefinition direction options access (.record own) =
      (own.attributes.qualifiedDeclarationName options).map
        fun name => .call name.text direction access := by
  cases direction <;> rfl

theorem ofDefinition_eq (direction : Direction) (options : Options) (access : Access)
    {definition : Definition} (h : definition.Legible) :
    ofDefinition direction options access definition =
      .ok (definition.conversion options direction access) := by
  cases direction with
  | deserialize => exact deserializeDefinition_eq options access h
  | serialize => exact serializeDefinition_eq options access h

def entriesType (context : Context) (values : Schema) : Direction → Except Error TypeExpr
  | .deserialize => (TypeExpr.ofSchema context values).map .index
  | .serialize => .ok .any

end Conversion

def Branch.ofAlternative (direction : Direction) (context : Context) (access : Access)
    (depth : Int) (alternative : Schema) : Except Error Branch :=
  match direction with
  | .deserialize => do
    let tag ← Tag.ofSchema context alternative
    let conversion ←
      Conversion.ofSchema .deserialize context alternative (access.tagged tag) depth false
    return .mk (access.tagged tag) .isDefined (.value conversion)
  | .serialize => do
    let test ← Test.ofSchema context alternative
    let tag ← Tag.ofSchema context alternative
    let conversion ← Conversion.ofSchema .serialize context alternative access depth false
    return .mk access test (.wrapped tag conversion)

def Schema.nonNull (alternatives : List Schema) : List Schema :=
  alternatives.filter fun alternative => !alternative.isNull

theorem Schema.nonNull_cons (alternative : Schema) (rest : List Schema) :
    nonNull (alternative :: rest) =
      if alternative.isNull then nonNull rest else alternative :: nonNull rest := by
  unfold nonNull
  cases h : alternative.isNull <;> simp [h]

namespace Conversion

variable (direction : Direction) (context : Context) (access : Access) (depth : Int)
  (optional : Bool)

theorem deserializeAlternatives_eq (alternatives : List Schema) :
    deserializeAlternatives context alternatives access depth =
      (Schema.nonNull alternatives).mapM
        (Branch.ofAlternative .deserialize context access depth) := by
  induction alternatives with
  | nil => rfl
  | cons alternative rest ih =>
    rw [deserializeAlternatives, ih, Schema.nonNull_cons]
    split
    · rfl
    · simp only [List.mapM_cons, Branch.ofAlternative, ofSchema, bind_assoc, pure_bind]

theorem serializeAlternatives_eq (alternatives : List Schema) :
    serializeAlternatives context alternatives access depth =
      (Schema.nonNull alternatives).mapM
        (Branch.ofAlternative .serialize context access depth) := by
  induction alternatives with
  | nil => rfl
  | cons alternative rest ih =>
    rw [serializeAlternatives, ih, Schema.nonNull_cons]
    split
    · rfl
    · simp only [List.mapM_cons, Branch.ofAlternative, ofSchema, bind_assoc, pure_bind]

attribute [local simp] deserialize serialize

theorem ofSchema_reference (name : String) :
    ofSchema direction context (.reference name) access depth optional =
      context.resolve (.str name) >>= ofDefinition direction context.options access := by
  cases direction with
  | deserialize =>
    rw [ofSchema, deserialize]
    rfl
  | serialize =>
    rw [ofSchema, serialize]
    rfl

theorem ofSchema_reference_error {name : String} {e : Error}
    (h : context.resolve (.str name) = .error e) :
    ofSchema direction context (.reference name) access depth optional = .error e := by
  rw [ofSchema_reference, h]
  rfl

theorem ofSchema_primitive (name : Primitive) (wrapper : Option Attributes) :
    ofSchema direction context (.primitive name wrapper) access depth optional =
      .ok (.same access) := by
  cases direction with
  | deserialize =>
    simp [ofSchema, pure, Except.pure]
  | serialize =>
    simp [ofSchema, pure, Except.pure]

theorem ofSchema_unknown (value : Json) :
    ofSchema direction context (.unknown value) access depth optional =
      .error (.unknownType value) := by
  cases direction with
  | deserialize =>
    simp [ofSchema, throw, throwThe, MonadExceptOf.throw]
  | serialize =>
    simp [ofSchema, throw, throwThe, MonadExceptOf.throw]

theorem ofSchema_array (before after : Attributes) (items : Schema) :
    ofSchema direction context (.array before (some items) after) access depth optional =
      (ofSchema direction context items (.bound ⟨.element, depth⟩) (depth + 1) false).map
        (elements access ⟨.element, depth⟩ items.isMultiUnion) := by
  cases direction with
  | deserialize =>
    simp [ofSchema, Functor.map]
  | serialize =>
    simp [ofSchema, Functor.map]

theorem ofSchema_map (before after : Attributes) (values : Schema) :
    ofSchema direction context (.map before (some values) after) access depth optional = (do
      let type ← entriesType context values direction
      let body ← ofSchema direction context values (.bound ⟨.mapValue, depth⟩) (depth + 1) false
      return entries access depth type body) := by
  cases direction with
  | deserialize =>
    rw [ofSchema, deserialize, entriesType]
    cases TypeExpr.ofSchema context values <;> rfl
  | serialize =>
    rw [ofSchema, serialize, entriesType]
    rfl

theorem ofSchema_single (only : Schema) :
    ofSchema direction context (.union [only]) access depth optional =
      ofSchema direction context only access depth optional := by
  cases direction with
  | deserialize => rw [ofSchema, deserialize, ofSchema]
  | serialize => rw [ofSchema, serialize, ofSchema]

theorem ofSchema_union {alternatives : List Schema} (h : alternatives.length ≠ 1) :
    ofSchema direction context (.union alternatives) access depth optional = (do
      let branches ← (Schema.nonNull alternatives).mapM
        (Branch.ofAlternative direction context access depth)
      return dispatch direction
        (Branch.nullBranches direction optional access alternatives ++ branches)) := by
  have hs : ∀ only, alternatives = [only] → False := by
    rintro only rfl
    exact h rfl
  cases direction with
  | deserialize =>
    rw [ofSchema, deserialize, deserializeAlternatives_eq]
    exact hs
  | serialize =>
    rw [ofSchema, serialize, serializeAlternatives_eq]
    exact hs

end Conversion

end AvroBindings
