import AvroBindings.Proofs.Runtime.Evaluation
import Mathlib.Data.List.Basic

/-! Reading generated code. What stands between two brackets is read as soon as the second one is
met, from the words, the marks and the bracketed parts that there are. Types are skipped, for they
mean nothing at run time, and statements end with their lines. -/

namespace AvroBindings

def Role.binding? (name : List Char) (role : Role) : Option Binding := do
  let digits ← name.dropPrefix? role.name.toList
  let depth := Nat.ofDigitChars 10 digits 0
  if Binding.suffix depth = digits then some ⟨role, depth⟩ else none

def Binding.ofName? (name : String) : Option Binding :=
  [Role.element, .keys, .output, .mapKey, .mapValue].findSome? (Role.binding? name.toList)

theorem Role.binding?_text (role : Role) (depth : Nat) :
    binding? (Binding.mk role depth).text.toList role = some ⟨role, depth⟩ := by
  unfold binding?
  rw [Binding.toList_text, List.dropPrefix?_append_of_beq _ (beq_self_eq_true _)]
  simp [Binding.ofDigitChars_suffix]

theorem Role.eq_of_binding? {role other : Role} {depth : Nat} {found : Binding}
    (h : binding? (Binding.mk role depth).text.toList other = some found) :
    found = ⟨role, depth⟩ := by
  obtain ⟨digits, hd, hf⟩ := Option.bind_eq_some_iff.1 h
  obtain ⟨name, hn, he⟩ := List.dropPrefix?_eq_some_iff.1 hd
  rw [Binding.toList_text, eq_of_beq he] at hn
  obtain ⟨rfl, rfl⟩ := Role.eq_of_append hn
  rw [Binding.ofDigitChars_suffix, if_pos rfl] at hf
  exact (Option.some.inj hf).symm

/-- Variables are read back from their names. -/
theorem Binding.ofName?_text (role : Role) (depth : Nat) :
    ofName? (mk role depth).text = some ⟨role, depth⟩ := by
  have hi : (ofName? (mk role depth).text).isSome := by
    refine List.findSome?_isSome_iff.2 ⟨role, by cases role <;> decide, ?_⟩
    rw [Role.binding?_text]
    rfl
  obtain ⟨found, hf⟩ := Option.isSome_iff_exists.1 hi
  obtain ⟨other, -, ho⟩ := List.exists_of_findSome?_eq_some hf
  rw [hf, Role.eq_of_binding? ho]

namespace Script

/-- What is read of the code between two brackets. -/
inductive Content where
  | nothing
  | unread
  | message (text : String)
  | texts (texts : List String)
  | name (name : String)
  | value (access : Access)
  | condition (access : Access) (test : Test)
  | parameter (name : String)
  /-- The variables of a loop. -/
  | each (key keys : String)
  | mapped (element : Binding) (braced : Bool) (body : Conversion)
  | function (body : Conversion)
  | answer (answer : Answer)
  | wrapped (tag : Tag) (conversion : Conversion)
  | object (assignments : List Assignment)
  /-- The body of a loop over the entries of an object. -/
  | entry (value : String) (access : Access) (key output : String) (body : Conversion)
  | block (conversion : Conversion)
  /-- The body of a method that returns an object, or an instance of a class made of one. -/
  | result (className : Option String) (assignments : List Assignment)
  /-- The fields that a constructor takes over. -/
  | kept (names : List String)
  | members (declaration : ClassDeclaration)

/-- The words and marks of code. A dotted name is one word. -/
inductive Item where
  | word (text : String)
  | quoted (text : String)
  | mark (text : String)
  | line
  | group (content : Content)

def Item.isLine : Item → Bool
  | line => true
  | _ => false

def after? (beginning text : String) : Option String :=
  (text.toList.dropPrefix? beginning.toList).map String.ofList

def before? (ending text : String) : Option String :=
  (text.toList.dropSuffix? ending.toList).map String.ofList

def namedAccess? (name : String) : Option Access :=
  match after? "input." name with
  | some field => if '.' ∈ field.toList then none else some (.field field)
  | none => (Binding.ofName? name).map .bound

/-- The tags that an access is followed by. -/
def readTags (access : Access) : List Item → Access × List Item
  | .group (.texts [text]) :: rest => readTags (access.tagged (.literal text)) rest
  | .group (.name name) :: rest =>
    match before? ".FQN" name with
    | some className => readTags (access.tagged (.fullName className)) rest
    | none => (access, .group (.name name) :: rest)
  | rest => (access, rest)

def readAccess : List Item → Option (Access × List Item)
  | .word name :: rest => (namedAccess? name).map fun access => readTags access rest
  | _ => none

def functionTest? (name : String) : Option Test :=
  if name = "Number.isInteger" then some .isInteger
  else if name = "Buffer.isBuffer" then some .isBuffer
  else if name = "Array.isArray" then some .isArray
  else none

def readComparison : List Item → Option Test
  | [.mark "===", .word "null"] => some .isNull
  | [.mark "==", .word "null"] => some .isNullOrUndefined
  | [.mark "!==", .word "undefined"] => some .isDefined
  | [.word "instanceof", .word className] => some (.isInstance className)
  | _ => none

def readTypeTest (access : Access) : List Item → Option Test
  | [.mark "===", .quoted name] => some (.hasType name)
  | [.mark "===", .quoted "string", .mark "&&", .group (.texts symbols), .word ".indexOf",
      .group (.value other), .mark ">=", .word "0"] =>
    if other = access then some (.isOneOf symbols) else none
  | .mark "===" :: .quoted "object" :: .mark "&&" :: rest =>
    match readAccess rest with
    | some (other, [.mark "!==", .word "null", .mark "&&", .word "Object.getPrototypeOf",
        .group (.value last), .mark "===", .word "Object.prototype"]) =>
      if other = access ∧ last = access then some .isPlainObject else none
    | _ => none
  | _ => none

def readTest (items : List Item) : Option (Access × Test) :=
  match readAccess items with
  | some (access, rest) => (readComparison rest).map (access, ·)
  | none =>
    match items with
    | [.word name, .group (.value access)] => (functionTest? name).map (access, ·)
    | .word "typeof" :: rest => do
      let (access, rest) ← readAccess rest
      return (access, ← readTypeTest access rest)
    | _ => none

def methodOf? (name : String) : Option (String × Direction) :=
  match before? ".deserialize" name with
  | some className => some (className, .deserialize)
  | none => (before? ".serialize" name).map (·, .serialize)

def readConversion : List Item → Option Conversion
  | [.group (.function body), .group .nothing] => some body
  | [.word method, .group (.value access)] =>
    (methodOf? method).map fun (className, direction) => .call className direction access
  | [.word method, .group (.mapped element braced body)] => do
    let access ← namedAccess? (← before? ".map" method)
    return .elements access element braced body
  | items =>
    match readAccess items with
    | some (access, []) => some (.same access)
    | some (access, [.word ".map", .group (.mapped element braced body)]) =>
      some (.elements access element braced body)
    | _ => none

/-- A function of a variable, with or without braces around its body. -/
def readMapped (name : String) (body : List Item) : Option Content := do
  let element ← Binding.ofName? name
  match body with
  | [.group (.answer (.value body))] => return .mapped element true body
  | body => return .mapped element false (← readConversion body)

def rounded : List Item → Content
  | [] => .nothing
  | [.quoted text] => .message text
  | [.group content] => content
  | .word name :: .mark ":" :: _ => .parameter name
  | [.word "const", .word key, .word "of", .word keys] => .each key keys
  | [.group .nothing, .mark "=>", .group (.block body)] => .function body
  | .group (.parameter name) :: .mark "=>" :: body => (readMapped name body).getD .unread
  | items =>
    match readAccess items with
    | some (access, []) => .value access
    | _ => (readTest items).elim .unread fun (access, test) => .condition access test

def readTexts : List Item → Option (List String)
  | [] => some []
  | [.quoted text] => some [text]
  | .quoted text :: .mark "," :: rest => (readTexts rest).map (text :: ·)
  | _ => none

def square : List Item → Content
  | [.word name] => .name name
  | items => (readTexts items).elim .unread .texts

def readKey : Item → Option Tag
  | .quoted text => some (.literal text)
  | .group (.name name) => (before? ".FQN" name).map .fullName
  | _ => none

def readAssignment : List Item → Option Assignment
  | .word name :: .mark ":" :: rest =>
    match rest.getLast? with
    | some (.mark ",") => (readConversion rest.dropLast).map (Assignment.mk name)
    | _ => none
  | _ => none

def readReturn : List Item → Option Content
  | .word "return" :: items =>
    match readConversion items with
    | some conversion => some (.answer (.value conversion))
    | none =>
      match items with
      | [.word "undefined"] => some (.answer .undefined)
      | [.word "null"] => some (.answer .null)
      | [.group (.wrapped tag conversion)] => some (.answer (.wrapped tag conversion))
      | [.group .nothing] => some (.result none [])
      | [.group (.object assignments)] => some (.result none assignments)
      | [.word "new", .word className, .group .nothing] => some (.result className [])
      | [.word "new", .word className, .group (.object assignments)] =>
        some (.result className assignments)
      | _ => none
  | _ => none

def readChain : List Item → Option (List Branch)
  | [.word "if", .group (.condition access test), .group (.answer answer)] =>
    some [.mk access test answer]
  | .word "if" :: .group (.condition access test) :: .group (.answer answer) :: .word "else" ::
      rest => (readChain rest).map (.mk access test answer :: ·)
  | _ => none

def readBranches (items : List Item) : Option (List Branch) :=
  if items.isEmpty then some [] else readChain items

def failing? (message : String) : Option Direction :=
  if message = Direction.deserialize.failure then some .deserialize
  else if message = Direction.serialize.failure then some .serialize
  else none

def readThrow : List Item → Option String
  | [.word "throw", .word "new", .word "TypeError", .group (.message message)] => some message
  | _ => none

/-- Branches, one of which has to be taken, or else an error is thrown. -/
def readDispatch (branches : List Item) (message : String) : Option Conversion := do
  return .dispatch (← failing? message) (← readBranches branches)

def readLookup : List Item → Option (String × Access × String)
  | .word "const" :: .word value :: .mark "=" :: source =>
    match readAccess source with
    | some (access, [.group (.name key)]) => some (value, access, key)
    | _ => none
  | _ => none

/-- A property of an object that is set to a converted value, under a key that is in a variable. -/
def readUpdate : List Item → Option (String × String × Conversion)
  | .word output :: .group (.name key) :: .mark "=" :: body =>
    (readConversion body).map (output, key, ·)
  | _ => none

def readEntry (lookup update : List Item) : Option Content := do
  let (value, access, key) ← readLookup lookup
  let (output, index, body) ← readUpdate update
  if index = key then return .entry value access key output body else none

def readNew : List Item → Option String
  | .word "const" :: .word name :: .mark ":" :: type =>
    match type.reverse with
    | .group .nothing :: .mark "=" :: _ => some name
    | _ => none
  | _ => none

def readKeys : List Item → Option (String × Access)
  | [.word "const", .word keys, .mark "=", .word "Object.keys", .group (.value access)] =>
    some (keys, access)
  | _ => none

def readEntries (keys new loop result : List Item) : Option Conversion := do
  let (keys, access) ← readKeys keys
  let output ← readNew new
  let binding ← Binding.ofName? keys
  let named (role : Role) : String := (Binding.mk role binding.depth).text
  match loop, result with
  | [.word "for", .group (.each key given), .group (.entry value source index target body)],
    [.word "return", .word result] =>
    if [keys, given, output, target, result, key, index, value] =
        [named .keys, named .keys, named .output, named .output, named .output, named .mapKey,
          named .mapKey, named .mapValue] ∧ source = access then
      some (.entries access binding.depth .any body)
    else none
  | _, _ => none

/-- A line of a constructor, which takes over a field or is a comment. -/
def readKept : List Item → Option (List String)
  | [.word target, .mark "=", .word source] => do
    let name ← after? "input." source
    if target = "this." ++ name then return [name] else none
  | [.mark "/*", .word _, .mark "*/"] => some []
  | _ => none

def isProperty : List Item → Bool
  | .word "public" :: .word "readonly" :: _ => true
  | _ => false

def readConstructor : List Item → Option (List String)
  | [.word "constructor", .group (.parameter "input"), .group (.kept names)] => some names
  | _ => none

def readDeserializer : List Item → Option Method
  | [.word "public", .word "static", .word "deserialize", .group (.parameter "input"), .mark ":",
      .word className, .group (.result (some made) assignments)] =>
    if made = className then some ⟨className, .deserialize, assignments⟩ else none
  | _ => none

def readSerializer : List Item → Option (List Assignment)
  | [.word "public", .word "static", .word "serialize", .group (.parameter "input"), .mark ":",
      .word "object", .group (.result none assignments)] => some assignments
  | _ => none

def readFullName : List Item → Option String
  | [.word "public", .word "static", .word "FQN", .mark "=", .quoted fullName] => some fullName
  | _ => none

def readMembers (fullName : List Item) (rest : List (List Item)) : Option ClassDeclaration := do
  let fullName ← readFullName fullName
  match rest.dropWhile isProperty with
  | [[], body, [], reads, [], writes] =>
    let names ← readConstructor body
    let deserializer ← readDeserializer reads
    return {
      name := deserializer.className
      interface := ""
      fullName := fullName
      properties := names.map fun name => ⟨name, false, .any⟩
      deserializer := deserializer
      serializer := ⟨deserializer.className, .serialize, ← readSerializer writes⟩ }
  | _ => none

def readBlock : List (List Item) → Option Content
  | [statement] => readReturn statement
  | [first, second] =>
    match readThrow second with
    | some message => (readDispatch first message).map .block
    | none => readEntry first second
  | [keys, output, loop, result] => (readEntries keys output loop result).map .block
  | first :: rest => (readMembers first rest).map .members
  | [] => none

/-- The entries of an object, the lines of a constructor, or other statements. -/
def readStatements (statements : List (List Item)) : Option Content :=
  (statements.mapM readAssignment).map .object <|>
    (statements.mapM readKept).map (fun names => .kept names.flatten) <|> readBlock statements

def readLines : List (List Item) → Option Content
  | [] :: rest => if rest.getLast?.any List.isEmpty then readStatements rest.dropLast else none
  | _ => none

def curly : List Item → Content
  | [] => .nothing
  | .line :: items => (readLines ((Item.line :: items).splitOnP Item.isLine)).getD .unread
  | key :: .mark ":" :: rest =>
    match readKey key, readConversion rest with
    | some tag, some conversion => .wrapped tag conversion
    | _, _ => .unread
  | _ => .unread

def Content.of (closer : Char) (items : List Item) : Content :=
  if closer = ')' then rounded items else if closer = ']' then square items else curly items

/-- A class. Its name is the one that its methods use. -/
def readClass : List Item → Option ClassDeclaration
  | [.word "export", .word "class", .word name, .word "implements", .word interface,
      .group (.members declaration)] =>
    if declaration.name = name then some { declaration with interface := interface } else none
  | _ => none

end Script

end AvroBindings
