import AvroBindings.Json.Reader

/-! What can go wrong when bindings are generated, by cause, and computations that put out items on
their way to a result or an error. What was put out before an error stays. The result alone obeys
the laws of plain computations with errors. -/

namespace AvroBindings

inductive Error where
  | missingInput
  | inputNotFound (path : String)
  | unreadableSchema (path reason : String)
  /-- A short name stands for several full names, listed in order. -/
  | ambiguousReference (name : String) (candidates : List String)
  | unresolvedReference (name : Json)
  | unknownType (type : Json)
  | unknownPrimitive (name : Json)
  | missingAttribute (key : String)
  | unknownEnumStyle (text : String)
  /-- A value without elements, where they are gone through. -/
  | notIterable (value : Json)
  /-- A value without elements, where one is looked for among them. -/
  | notSearchable (value : Json)
  | notIndexable (value : Json)
  | notHashable (value : Json)
  | notOrdered (left right : Json)
  | notText (position : Nat) (value : Json)
  | missingOperation (value : Json) (operation : String)
  | invalidEncoding (fault : Utf8.Fault)
  | integerTooLong (digits : Nat)
  | isDirectory (path : String)
  | notDirectory (path : String)
  | fileExists (path : String)
  | nameTooLong (path : String)
deriving Repr

namespace Error

def message : Error → String
  | missingInput => "Argument --file or -f should be provided!"
  | inputNotFound path => "Path \"" ++ path ++ "\" doesn't exist!"
  | unreadableSchema path reason => "Cannot parse Avro schema " ++ path ++ ": " ++ reason
  | ambiguousReference name candidates =>
    "Multiple matching fqns for " ++ name ++ ": " ++ ", ".intercalate candidates
  | unresolvedReference name => "Cannot resolve type reference " ++ name.display
  | unknownType type => "Unknown type " ++ type.display ++ "!"
  | unknownPrimitive name => "Unknown primitive type: " ++ name.text
  | missingAttribute key => (Json.str key).display
  | unknownEnumStyle text => (Json.str text).display ++ " is not a valid EnumVariant"
  | notIterable value => "'" ++ value.kind ++ "' object is not iterable"
  | notSearchable value => "argument of type '" ++ value.kind ++ "' is not iterable"
  | notIndexable (.str _) => "string indices must be integers, not 'str'"
  | notIndexable (.arr _) => "list indices must be integers or slices, not str"
  | notIndexable value => "'" ++ value.kind ++ "' object is not subscriptable"
  | notHashable value => "unhashable type: '" ++ value.kind ++ "'"
  | notOrdered left right =>
    "'<' not supported between instances of '" ++ left.kind ++ "' and '" ++ right.kind ++ "'"
  | notText position value =>
    "sequence item " ++ toString position ++ ": expected str instance, " ++ value.kind ++ " found"
  | missingOperation value operation =>
    "'" ++ value.kind ++ "' object has no attribute '" ++ operation ++ "'"
  | invalidEncoding fault => fault.message
  | integerTooLong digits => (Json.Problem.tooManyDigits digits).message
  | isDirectory path => "[Errno 21] Is a directory: " ++ (Json.str path).display
  | notDirectory path => "[Errno 20] Not a directory: " ++ (Json.str path).display
  | fileExists path => "[Errno 17] File exists: " ++ (Json.str path).display
  | nameTooLong path => "[Errno 36] File name too long: " ++ (Json.str path).display

/-- The errors that say what is wrong with an input or its references. A batch may go on after
these, and after no others. -/
def isSkippable : Error → Bool
  | missingInput | inputNotFound _ | unreadableSchema .. | ambiguousReference ..
  | unresolvedReference _ | unknownType _ | unknownPrimitive _ => true
  | _ => false

end Error

structure Emitting (ω α : Type) where
  emitted : List ω
  result : Except Error α

namespace Emitting

variable {ω α β : Type}

instance : Monad (Emitting ω) where
  pure a := ⟨[], .ok a⟩
  bind x f := match x.result with
    | .error e => ⟨x.emitted, .error e⟩
    | .ok a => ⟨x.emitted ++ (f a).emitted, (f a).result⟩

instance : MonadLift (Except Error) (Emitting ω) where
  monadLift result := ⟨[], result⟩

def emit (item : ω) : Emitting ω Unit := ⟨[item], .ok ()⟩

def emitAll (items : List ω) : Emitting ω Unit := ⟨items, .ok ()⟩

def fail (error : Error) : Emitting ω α := ⟨[], .error error⟩

@[simp] theorem result_pure (a : α) : (pure a : Emitting ω α).result = .ok a := rfl

@[simp] theorem emitted_pure (a : α) : (pure a : Emitting ω α).emitted = [] := rfl

@[simp] theorem result_bind (x : Emitting ω α) (f : α → Emitting ω β) :
    (x >>= f).result = x.result >>= fun a => (f a).result := by
  cases x with
  | mk emitted result => cases result <;> rfl

@[simp] theorem result_lift (x : Except Error α) :
    (liftM x : Emitting ω α).result = x := rfl

@[simp] theorem emitted_lift (x : Except Error α) :
    (liftM x : Emitting ω α).emitted = [] := rfl

@[simp] theorem result_fail (error : Error) :
    (fail error : Emitting ω α).result = .error error := rfl

@[simp] theorem emitted_fail (error : Error) : (fail error : Emitting ω α).emitted = [] := rfl

@[simp] theorem result_emit (item : ω) : (emit item).result = .ok () := rfl

@[simp] theorem result_emitAll (items : List ω) : (emitAll items).result = .ok () := rfl

instance : LawfulMonad (Emitting ω) := LawfulMonad.mk' (Emitting ω)
  (by
    rintro α ⟨emitted, _ | a⟩
    · rfl
    · exact congrArg (Emitting.mk · _) (List.append_nil emitted))
  (by intro α β a f; rfl)
  (by
    rintro α β γ ⟨emitted, _ | a⟩ f g
    · rfl
    · simp only [bind]
      cases (f a).result <;> simp)

end Emitting

end AvroBindings
