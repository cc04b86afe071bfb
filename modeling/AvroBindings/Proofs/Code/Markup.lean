import AvroBindings.Proofs.Code.Mentions

/-! Generated code with its names marked. The marked code of a declaration reads as its text, and the
names that are marked in it are the names that the declaration mentions. -/

namespace AvroBindings

/-- A name of a declaration, mentioned as it is written anywhere or bare beside the declaration. -/
inductive Mark where
  | mention (own : Mention)
  | neighbour (name : String)

def Mark.text : Mark → String
  | mention own => own.name.text
  | neighbour name => name

inductive Markup where
  | code (text : String)
  /-- What the schema spells and what names no declaration: fields, symbols and full names, and the
  variables of methods. -/
  | label (text : String)
  | mark (own : Mark)
  | append (first second : Markup)
  | indented (body : Markup)

namespace Markup

instance : Append Markup := ⟨append⟩

def text : Markup → String
  | code text => text
  | label text => text
  | mark own => own.text
  | append first second => first.text ++ second.text
  | indented body => Layout.indent body.text

def marks : Markup → List Mark
  | mark own => [own]
  | append first second => first.marks ++ second.marks
  | indented body => body.marks
  | code _ | label _ => []

def typeName (name : Json) : Markup := mark (.mention (.type name))

def className (name : String) : Markup := mark (.mention (.value name))

def neighbour (name : String) : Markup := mark (.neighbour name)

def separated (separator : String) : List Markup → Markup
  | [] => code ""
  | [only] => only
  | first :: second :: rest => first ++ code separator ++ separated separator (second :: rest)

def lineEach : List Markup → Markup
  | [] => code ""
  | first :: rest => first ++ code "\n" ++ lineEach rest

def braces (body : Markup) : Markup := code "\x7b\n" ++ indented body ++ code "\n\x7d"

def selfExecuting (body : Markup) : Markup := code "(() => " ++ braces body ++ code ")()"

def conditional (branches : List (Markup × Markup)) : Markup :=
  separated " else " (branches.map fun (condition, body) =>
    code "if (" ++ condition ++ code ") " ++ braces body)

def dispatch (branches : List (Markup × Markup)) (message : String) : Markup :=
  selfExecuting (conditional branches ++ code "\nthrow new TypeError('" ++ code message ++ code "')")

theorem text_append {first second : Markup} {s t : String} (hf : first.text = s)
    (hs : second.text = t) : (first ++ second).text = s ++ t := by
  rw [← hf, ← hs]
  rfl

theorem text_separated (separator : String) (items : List Markup) :
    (separated separator items).text = separator.intercalate (items.map text) := by
  induction items with
  | nil => rfl
  | cons first rest ih =>
    cases rest with
    | nil => rfl
    | cons second rest =>
      rw [List.map_cons, List.map_cons, String.intercalate_cons_cons, ← List.map_cons, ← ih]
      rfl

theorem text_lineEach {α : Type} {markup : α → Markup} {line : α → String} {items : List α}
    (h : ∀ item ∈ items, (markup item).text = line item) :
    (lineEach (items.map markup)).text = ClassDeclaration.lineEach line items := by
  unfold ClassDeclaration.lineEach
  induction items with
  | nil => rfl
  | cons first rest ih =>
    obtain ⟨hf, hr⟩ := List.forall_mem_cons.1 h
    rw [List.map_cons, List.map_cons, String.join_cons]
    exact text_append (text_append hf rfl) (ih hr)

theorem text_conditional (branches : List (Markup × Markup)) :
    (conditional branches).text =
      Layout.conditional (branches.map fun branch => (branch.1.text, branch.2.text)) := by
  unfold conditional Layout.conditional
  rw [text_separated, List.map_map, List.map_map]
  rfl

theorem text_dispatch (branches : List (Markup × Markup)) (message : String) :
    (dispatch branches message).text =
      Layout.dispatch (branches.map fun branch => (branch.1.text, branch.2.text)) message := by
  unfold Layout.dispatch
  rw [← text_conditional]
  rfl

@[simp]
theorem marks_append (first second : Markup) :
    (first ++ second).marks = first.marks ++ second.marks := rfl

@[simp]
theorem marks_braces (body : Markup) : (braces body).marks = body.marks :=
  List.append_nil body.marks

theorem marks_separated (separator : String) (items : List Markup) :
    (separated separator items).marks = items.flatMap marks := by
  induction items with
  | nil => rfl
  | cons first rest ih =>
    cases rest with
    | nil => simp [separated]
    | cons second rest => simp [separated, marks, ih]

theorem marks_lineEach (items : List Markup) : (lineEach items).marks = items.flatMap marks := by
  induction items with
  | nil => rfl
  | cons first rest ih => simp [lineEach, marks, ih]

theorem marks_dispatch (branches : List (Markup × Markup)) (message : String) :
    (dispatch branches message).marks =
      branches.flatMap fun branch => branch.1.marks ++ branch.2.marks := by
  simp [dispatch, selfExecuting, conditional, marks, marks_separated, List.flatMap_map]

end Markup

open Markup

mutual
def TypeExpr.markup : TypeExpr → Markup
  | .builtin type => code type.name
  | .named name => typeName name
  | .union alternatives => separated " | " (TypeExpr.markupAll alternatives)
  | .array item =>
    if item.isMultiUnion then code "(" ++ item.markup ++ code ")[]" else item.markup ++ code "[]"
  | .index value => code "\x7b [index:string]: " ++ value.markup ++ code " \x7d"
  | .any => code "any"

def TypeExpr.markupAll : List TypeExpr → List Markup
  | [] => []
  | type :: rest => type.markup :: TypeExpr.markupAll rest
end

namespace Tag

def markup : Tag → Markup
  | fullName name => className name ++ code ".FQN"
  | literal text => code "'" ++ label text ++ code "'"

def keyMarkup : Tag → Markup
  | fullName name => code "[" ++ (fullName name).markup ++ code "]"
  | literal text => (literal text).markup

end Tag

def Access.markup : Access → Markup
  | given text => label text
  | field name => code "input." ++ label name
  | bound binding => label binding.text
  | tagged access tag => access.markup ++ code "[" ++ tag.markup ++ code "]"

def Test.markup (value : Markup) : Test → Markup
  | isNull => value ++ code " === null"
  | isNullOrUndefined => value ++ code " == null"
  | isDefined => value ++ code " !== undefined"
  | hasType name => code "typeof " ++ value ++ code " === '" ++ code name ++ code "'"
  | isInteger => code "Number.isInteger(" ++ value ++ code ")"
  | isBuffer => code "Buffer.isBuffer(" ++ value ++ code ")"
  | isArray => code "Array.isArray(" ++ value ++ code ")"
  | isInstance name => value ++ code " instanceof " ++ className name
  | isOneOf symbols =>
    code "typeof " ++ value ++ code " === 'string' && [" ++
      separated ", " (symbols.map fun symbol => code "'" ++ label symbol ++ code "'") ++
      code "].indexOf(" ++ value ++ code ") >= 0"
  | isPlainObject =>
    code "typeof " ++ value ++ code " === 'object' && " ++ value ++
      code " !== null && Object.getPrototypeOf(" ++ value ++ code ") === Object.prototype"

mutual
def Conversion.markup : Conversion → Markup
  | .same access => access.markup
  | .call name direction access =>
    className name ++ code "." ++ code direction.method ++ code "(" ++ access.markup ++
      code ")"
  | .elements access element braced body =>
    access.markup ++ code ".map((" ++ label element.text ++ code ": any) => " ++
      (if braced then braces (code "return " ++ body.markup) else body.markup) ++ code ")"
  | .entries access depth type body =>
    let keys := label (Binding.mk .keys depth).text
    let output := label (Binding.mk .output depth).text
    let key := label (Binding.mk .mapKey depth).text
    let value := label (Binding.mk .mapValue depth).text
    selfExecuting <|
      code "const " ++ keys ++ code " = Object.keys(" ++ access.markup ++ code ")\n" ++
      code "const " ++ output ++ code ": " ++ type.markup ++ code " = \x7b\x7d\n" ++
      code "for (const " ++ key ++ code " of " ++ keys ++ code ") " ++
      braces (code "const " ++ value ++ code " = " ++ access.markup ++ code "[" ++ key ++
        code "]\n" ++ output ++ code "[" ++ key ++ code "] = " ++ body.markup) ++
      code "\nreturn " ++ output
  | .dispatch direction branches => Markup.dispatch (Branch.markupAll branches) direction.failure

def Branch.markupAll : List Branch → List (Markup × Markup)
  | [] => []
  | branch :: rest => branch.markup :: Branch.markupAll rest

def Branch.markup : Branch → Markup × Markup
  | .mk access test answer => (test.markup access.markup, answer.markup)

def Answer.markup : Answer → Markup
  | .undefined => code "return undefined"
  | .null => code "return null"
  | .value conversion => code "return " ++ conversion.markup
  | .wrapped tag conversion =>
    code "return \x7b " ++ tag.keyMarkup ++ code ": " ++ conversion.markup ++ code " \x7d"
end

mutual
theorem TypeExpr.text_markup : (type : TypeExpr) → type.markup.text = type.render
  | .builtin _ | .named _ | .any => rfl
  | .union alternatives => by
    have ha := TypeExpr.map_text_markupAll alternatives
    exact (text_separated " | " _).trans (congrArg (" | ".intercalate ·) ha)
  | .array item => by
    have hi := item.text_markup
    unfold markup render
    split
    next => exact text_append (text_append rfl hi) rfl
    next => exact text_append hi rfl
  | .index value => text_append (text_append rfl value.text_markup) rfl

theorem TypeExpr.map_text_markupAll :
    (types : List TypeExpr) → (TypeExpr.markupAll types).map text = TypeExpr.renderAll types
  | [] => rfl
  | type :: rest => by
    rw [TypeExpr.markupAll, List.map_cons, type.text_markup, TypeExpr.map_text_markupAll rest]
    rfl
end

theorem Tag.text_markup (tag : Tag) : tag.markup.text = tag.text := by
  cases tag <;> rfl

theorem Tag.text_keyMarkup (tag : Tag) : tag.keyMarkup.text = tag.key := by
  cases tag <;> rfl

theorem Access.text_markup (access : Access) : access.markup.text = access.text := by
  induction access with
  | given text => rfl
  | field name => rfl
  | bound binding => rfl
  | tagged access tag ih => exact text_append (text_append (text_append ih rfl) tag.text_markup) rfl

theorem Test.text_markup (test : Test) {value : Markup} {s : String} (hv : value.text = s) :
    (test.markup value).text = test.text s := by
  subst hv
  cases test with
  | isOneOf symbols =>
    have hs := text_separated ", " (symbols.map fun symbol => code "'" ++ label symbol ++ code "'")
    rw [List.map_map] at hs
    exact text_append (text_append (text_append (text_append rfl hs) rfl) rfl) rfl
  | _ => rfl

mutual
theorem Conversion.text_markup : (conversion : Conversion) →
    conversion.markup.text = conversion.render
  | .same access => access.text_markup
  | .call className direction access =>
    text_append (text_append rfl access.text_markup) rfl
  | .elements access element braced body => by
    have ha := access.text_markup
    have hb := body.text_markup
    unfold Conversion.markup Conversion.render
    rw [← ha, ← hb]
    cases braced <;> rfl
  | .entries access depth type body => by
    have ha := access.text_markup
    have ht := type.text_markup
    have hb := body.text_markup
    unfold Conversion.markup Conversion.render
    rw [← ha, ← ht, ← hb]
    rfl
  | .dispatch direction branches => by
    have hb := Branch.text_markupAll branches
    unfold Conversion.markup Conversion.render
    rw [← hb, text_dispatch]

theorem Branch.text_markupAll : (branches : List Branch) →
    (Branch.markupAll branches).map (fun branch => (branch.1.text, branch.2.text)) =
      Branch.renderAll branches
  | [] => rfl
  | .mk access test answer :: rest =>
    congrArg₂ List.cons (Prod.ext (test.text_markup access.text_markup) answer.text_markup)
      (Branch.text_markupAll rest)

theorem Answer.text_markup : (answer : Answer) → answer.markup.text = answer.render
  | .undefined | .null => rfl
  | .value conversion => text_append rfl conversion.text_markup
  | .wrapped tag conversion =>
    text_append (text_append (text_append (text_append rfl tag.text_keyMarkup) rfl)
      conversion.text_markup) rfl
end

/-! The marks of a conversion are what it mentions. -/

mutual
theorem TypeExpr.marks_markup : (type : TypeExpr) →
    type.markup.marks = type.mentions.map .mention
  | .builtin _ | .named _ | .any => rfl
  | .union alternatives =>
    (marks_separated " | " _).trans (TypeExpr.flatMap_marks_markupAll alternatives)
  | .array item => by
    have hi := item.marks_markup
    unfold TypeExpr.markup TypeExpr.mentions
    split <;> simp [marks, hi]
  | .index value => by
    have hv := value.marks_markup
    simp [markup, mentions, marks, hv]

theorem TypeExpr.flatMap_marks_markupAll : (types : List TypeExpr) →
    (TypeExpr.markupAll types).flatMap marks = (TypeExpr.mentionsAll types).map .mention
  | [] => rfl
  | type :: rest => by
    have ht := type.marks_markup
    have hr := TypeExpr.flatMap_marks_markupAll rest
    simp [markupAll, mentionsAll, ht, hr]
end

theorem Tag.marks_markup (tag : Tag) : tag.markup.marks = tag.mentions.map .mention := by
  cases tag <;> rfl

theorem Tag.marks_keyMarkup (tag : Tag) : tag.keyMarkup.marks = tag.mentions.map .mention := by
  cases tag <;> rfl

theorem Access.marks_markup (access : Access) :
    access.markup.marks = access.mentions.map .mention := by
  induction access with
  | tagged access tag ih => simp [markup, mentions, marks, ih, tag.marks_markup]
  | _ => rfl

theorem Test.mem_marks_markup (test : Test) (value : Markup) {mark : Mark} :
    mark ∈ (test.markup value).marks ↔
      mark ∈ value.marks ∨ mark ∈ test.mentions.map .mention := by
  cases test with
  | isOneOf symbols =>
    simp [Test.markup, mentions, marks, marks_separated, List.flatMap_map]
  | _ => simp [Test.markup, mentions, marks, className]

section

variable {mark : Mark}

mutual
theorem Conversion.mem_marks_markup : (conversion : Conversion) →
    (mark ∈ conversion.markup.marks ↔ mark ∈ conversion.mentions.map .mention)
  | .same access => by rw [Conversion.markup, Conversion.mentions, access.marks_markup]
  | .call name direction access => by
    simp [Conversion.markup, Conversion.mentions, marks, className, access.marks_markup]
  | .elements access element braced body => by
    have hb := body.mem_marks_markup
    cases braced <;>
      simp [Conversion.markup, Conversion.mentions, marks, access.marks_markup, hb, -List.mem_map]
  | .entries access depth type body => by
    have hb := body.mem_marks_markup
    simp only [Conversion.markup, Conversion.mentions, selfExecuting, marks_append, marks_braces,
      marks, access.marks_markup, type.marks_markup, List.nil_append, List.append_nil,
      List.map_append, List.mem_append, hb]
    tauto
  | .dispatch direction branches => by
    rw [Conversion.markup, Conversion.mentions, marks_dispatch]
    exact Branch.mem_marks_markupAll branches

theorem Branch.mem_marks_markupAll : (branches : List Branch) →
    (mark ∈ (Branch.markupAll branches).flatMap (fun branch => branch.1.marks ++ branch.2.marks) ↔
      mark ∈ (Branch.mentionsAll branches).map .mention)
  | [] => .rfl
  | .mk access test answer :: rest => by
    have ha := answer.mem_marks_markup
    have hr := Branch.mem_marks_markupAll rest
    have ht := @test.mem_marks_markup access.markup mark
    rw [access.marks_markup] at ht
    rw [Branch.markupAll, List.flatMap_cons, List.mem_append, hr, Branch.markup, List.mem_append,
      ht, ha]
    simp only [Branch.mentionsAll, Branch.mentions, List.map_append, List.mem_append]

theorem Answer.mem_marks_markup : (answer : Answer) →
    (mark ∈ answer.markup.marks ↔ mark ∈ answer.mentions.map .mention)
  | .undefined | .null => .rfl
  | .value conversion => conversion.mem_marks_markup
  | .wrapped tag conversion => by
    have hc := conversion.mem_marks_markup
    simp [Answer.markup, Answer.mentions, marks, tag.marks_keyMarkup, hc, -List.mem_map]
end

end

/-! The same for declarations. -/

def Property.markup (property : Property) : Markup :=
  label property.name ++ code (if property.optional then "?" else "") ++ code ": " ++
    property.type.markup

def Assignment.markup (assignment : Assignment) : Markup :=
  label assignment.name ++ code ": " ++ assignment.value.markup ++ code ","

namespace Method

def objectMarkup (assignments : List Assignment) : Markup :=
  if assignments.isEmpty then code "\x7b\x7d"
  else braces (separated "\n" (assignments.map Assignment.markup))

def markup (method : Method) : Markup :=
  let object := objectMarkup method.assignments
  match method.direction with
  | .deserialize =>
    code "public static deserialize(input: any): " ++ neighbour method.className ++ code " " ++
      braces (code "return new " ++ neighbour method.className ++ code "(" ++ object ++ code ")")
  | .serialize =>
    code "public static serialize(input: " ++ neighbour method.className ++ code "): object " ++
      braces (code "return " ++ object)

end Method

namespace ClassDeclaration

def constructorMarkup (properties : List Property) : Markup :=
  if properties.isEmpty then code "    /* noop */\n"
  else Markup.lineEach (properties.map fun property =>
    code "    this." ++ label property.name ++ code " = input." ++ label property.name)

def markup (declaration : ClassDeclaration) : Markup :=
  code "export class " ++ neighbour declaration.name ++ code " implements " ++
    neighbour declaration.interface ++ code " \x7b\n" ++
  code "  public static FQN = '" ++ label declaration.fullName ++ code "'\n" ++
  Markup.lineEach (declaration.properties.map fun property =>
    code "  public readonly " ++ property.markup) ++
  code "\n  constructor(input: Partial<" ++ neighbour declaration.interface ++ code ">) \x7b\n" ++
  constructorMarkup declaration.properties ++
  code "  \x7d\n\n" ++
  indented declaration.deserializer.markup ++ code "\n\n" ++
  indented declaration.serializer.markup ++ code "\n\x7d"

end ClassDeclaration

namespace Declaration

def mentions : Declaration → List Mention
  | enumeration .. | stringUnion .. => []
  | interface _ properties => properties.flatMap (·.type.mentions)
  | classOf own => own.properties.flatMap (·.type.mentions) ++
      own.deserializer.assignments.flatMap (·.value.mentions) ++
      own.serializer.assignments.flatMap (·.value.mentions)

def markup : Declaration → Markup
  | enumeration constant name symbols =>
    code "export " ++ code (if constant then "const " else "") ++ code "enum " ++ neighbour name ++
      code " \x7b\n" ++
      Markup.lineEach (symbols.map fun symbol =>
        code "  " ++ label symbol ++ code " = '" ++ label symbol ++ code "',") ++ code "\x7d"
  | stringUnion name symbols =>
    code "export type " ++ neighbour name ++ code " = " ++
      separated " | " (symbols.map fun symbol => code "'" ++ label symbol ++ code "'")
  | interface name properties =>
    code "export interface " ++ neighbour name ++ code " \x7b\n" ++
      Markup.lineEach (properties.map fun property => code "  " ++ property.markup) ++ code "\x7d"
  | classOf declaration => declaration.markup

/-- The declarations that a declaration names beside itself, itself included. -/
def neighbours : Declaration → List String
  | enumeration _ name _ | stringUnion name _ | interface name _ => [name]
  | classOf own => [own.name, own.interface, own.deserializer.className, own.serializer.className]

end Declaration

theorem Property.text_markup (property : Property) : property.markup.text = property.text :=
  text_append rfl property.type.text_markup

theorem Assignment.text_markup (assignment : Assignment) :
    assignment.markup.text = assignment.text :=
  text_append (text_append rfl assignment.value.text_markup) rfl

namespace Method

theorem text_objectMarkup (assignments : List Assignment) :
    (objectMarkup assignments).text = object assignments := by
  have ha : (assignments.map Assignment.markup).map Markup.text = assignments.map Assignment.text := by
    rw [List.map_map]
    exact List.map_congr_left fun assignment _ => assignment.text_markup
  unfold objectMarkup object
  split
  next => rfl
  next =>
    rw [← ha, ← text_separated]
    rfl

theorem text_markup (method : Method) : method.markup.text = method.render := by
  have ho := text_objectMarkup method.assignments
  unfold markup render
  rw [← ho]
  cases method.direction <;> rfl

end Method

namespace ClassDeclaration

theorem text_properties (properties : List Property) :
    (Markup.lineEach (properties.map fun property =>
      code "  public readonly " ++ property.markup)).text =
      lineEach (fun property => "  public readonly " ++ property.text) properties :=
  Markup.text_lineEach fun property _ => text_append rfl property.text_markup

theorem text_constructorMarkup (properties : List Property) :
    (constructorMarkup properties).text =
      if properties.isEmpty then "    /* noop */\n"
      else lineEach (fun property => "    this." ++ property.name ++ " = input." ++ property.name)
        properties := by
  unfold constructorMarkup
  split
  next => rfl
  next => exact Markup.text_lineEach fun property _ => rfl

theorem text_markup (declaration : ClassDeclaration) :
    declaration.markup.text = declaration.render := by
  unfold markup render
  rw [← declaration.deserializer.text_markup, ← declaration.serializer.text_markup,
    ← text_properties, ← text_constructorMarkup]
  rfl

end ClassDeclaration

/-- The marked code of a declaration has the text of the declaration. -/
theorem Declaration.text_markup (own : Declaration) : own.markup.text = own.render := by
  cases own with
  | enumeration constant name symbols =>
    exact text_append (text_append rfl (Markup.text_lineEach fun symbol _ => rfl)) rfl
  | stringUnion name symbols =>
    have hs := text_separated " | " (symbols.map fun symbol => code "'" ++ label symbol ++ code "'")
    rw [List.map_map] at hs
    exact text_append rfl hs
  | interface name properties =>
    exact text_append (text_append rfl (Markup.text_lineEach fun property _ =>
      text_append rfl property.text_markup)) rfl
  | classOf declaration => exact declaration.text_markup

section

variable {mark : Mark}

theorem Property.mem_marks_markup (property : Property) :
    mark ∈ property.markup.marks ↔ mark ∈ property.type.mentions.map .mention := by
  simp [Property.markup, marks, property.type.marks_markup, -List.mem_map]

theorem Assignment.mem_marks_markup (assignment : Assignment) :
    mark ∈ assignment.markup.marks ↔ mark ∈ assignment.value.mentions.map .mention := by
  have hv := @Conversion.mem_marks_markup mark assignment.value
  simp [Assignment.markup, marks, hv, -List.mem_map]

theorem Markup.mem_flatMap_marks {α : Type} {markup : α → Markup} {mentions : α → List Mention}
    {items : List α}
    (h : ∀ item, mark ∈ (markup item).marks ↔ mark ∈ (mentions item).map .mention) :
    mark ∈ (items.map markup).flatMap marks ↔ mark ∈ (items.flatMap mentions).map .mention := by
  rw [List.map_flatMap, List.flatMap_map, List.mem_flatMap, List.mem_flatMap]
  exact exists_congr fun item => and_congr_right fun _ => h item

namespace Method

theorem mem_marks_objectMarkup {assignments : List Assignment} :
    mark ∈ (objectMarkup assignments).marks ↔
      mark ∈ (assignments.flatMap (·.value.mentions)).map .mention := by
  rw [← mem_flatMap_marks fun assignment => assignment.mem_marks_markup]
  unfold objectMarkup
  split
  next h => simp [List.isEmpty_iff.1 h, marks]
  next => rw [marks_braces, marks_separated]

theorem mem_marks_markup (method : Method) :
    mark ∈ method.markup.marks ↔ mark = .neighbour method.className ∨
      mark ∈ (method.assignments.flatMap (·.value.mentions)).map .mention := by
  rw [← mem_marks_objectMarkup]
  unfold markup
  cases method.direction <;> simp [marks, neighbour]

end Method

namespace ClassDeclaration

theorem marks_constructorMarkup (properties : List Property) :
    (constructorMarkup properties).marks = [] := by
  unfold constructorMarkup
  split
  next => rfl
  next => simp [marks_lineEach, List.flatMap_map, marks]

theorem mem_marks_markup (declaration : ClassDeclaration) :
    mark ∈ declaration.markup.marks ↔
      mark ∈ (Declaration.classOf declaration).neighbours.map .neighbour ∨
        mark ∈ (Declaration.classOf declaration).mentions.map .mention := by
  have hp := @mem_flatMap_marks mark _ (fun property => code "  public readonly " ++ property.markup)
    (·.type.mentions) declaration.properties fun property => property.mem_marks_markup
  have hd := @Method.mem_marks_markup mark declaration.deserializer
  have hs := @Method.mem_marks_markup mark declaration.serializer
  have hm : declaration.markup.marks =
      .neighbour declaration.name :: .neighbour declaration.interface ::
        ((declaration.properties.map fun property =>
          code "  public readonly " ++ property.markup).flatMap marks ++
        .neighbour declaration.interface ::
          (declaration.deserializer.markup.marks ++ declaration.serializer.markup.marks)) := by
    simp [markup, marks, neighbour, marks_constructorMarkup, marks_lineEach]
  rw [hm, List.mem_cons, List.mem_cons, List.mem_append, hp, List.mem_cons, List.mem_append, hd, hs]
  simp only [Declaration.neighbours, Declaration.mentions, List.map_append, List.mem_append,
    List.map_cons, List.map_nil, List.mem_cons, List.not_mem_nil]
  grind

end ClassDeclaration

/-- The marks in the code of a declaration are the names of its neighbours and its mentions. -/
theorem Declaration.mem_marks_markup (own : Declaration) :
    mark ∈ own.markup.marks ↔
      mark ∈ own.neighbours.map .neighbour ∨ mark ∈ own.mentions.map .mention := by
  cases own with
  | enumeration constant name symbols =>
    simp [markup, mentions, neighbours, marks, neighbour, marks_lineEach, List.flatMap_map]
  | stringUnion name symbols =>
    simp [markup, mentions, neighbours, marks, neighbour, marks_separated, List.flatMap_map]
  | interface name properties =>
    have hp := @mem_flatMap_marks mark _ (fun property => code "  " ++ property.markup)
      (·.type.mentions) properties fun property => property.mem_marks_markup
    simp [markup, mentions, neighbours, marks, neighbour, marks_lineEach, hp, -List.mem_map]
  | classOf declaration => exact declaration.mem_marks_markup

theorem Declaration.mention_mem_marks {own : Declaration} {mention : Mention} :
    .mention mention ∈ own.markup.marks ↔ mention ∈ own.mentions := by
  simp [mem_marks_markup]

theorem Declaration.neighbour_mem_marks {own : Declaration} {name : String} :
    .neighbour name ∈ own.markup.marks ↔ name ∈ own.neighbours := by
  simp [mem_marks_markup]

end

end AvroBindings
