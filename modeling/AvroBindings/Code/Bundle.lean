import AvroBindings.Options
import AvroBindings.Text.Split

/-! The layout of generated code: lines, indentation, braces, and all declarations of a document in
one text. Indenting leaves a line alone that is empty or holds nothing but white space. The
declarations of one namespace stand together in a block, in the order in which the namespaces come
first. -/

namespace AvroBindings

namespace Layout

/-- White space of Unicode, and the separators among the control characters. -/
def isBlank (c : Char) : Bool :=
  let code := c.toNat
  (0x9 ≤ code && code ≤ 0xd) || (0x1c ≤ code && code ≤ 0x20) || code == 0x85 || code == 0xa0 ||
    code == 0x1680 || (0x2000 ≤ code && code ≤ 0x200a) || code == 0x2028 || code == 0x2029 ||
    code == 0x202f || code == 0x205f || code == 0x3000

/-- The lines of a text, at least one. Only a line feed ends a line. -/
def lines (text : List Char) : List (List Char) := text.splitOn '\n'

def joinLines (lines : List (List Char)) : List Char := ['\n'].intercalate lines

def indentLine (width : Nat) (line : List Char) : List Char :=
  if line.all isBlank then line else List.replicate width ' ' ++ line

/-- Two spaces for each level before every line that is not blank, none for a negative level. -/
def indentBy (levels : Int) (text : String) : String :=
  String.ofList (joinLines ((lines text.toList).map (indentLine (2 * levels.toNat))))

theorem toList_indentBy (levels : Int) (text : String) :
    (indentBy levels text).toList =
      joinLines ((lines text.toList).map (indentLine (2 * levels.toNat))) :=
  String.toList_ofList

def indent (text : String) : String := indentBy 1 text

def braces (body : String) : String := "\x7b\n" ++ indent body ++ "\n\x7d"

/-- Statements as an expression: a function that is called at once. -/
def selfExecuting (body : String) : String := "(() => " ++ braces body ++ ")()"

def conditional (branches : List (String × String)) : String :=
  " else ".intercalate (branches.map fun (condition, body) =>
    "if (" ++ condition ++ ") " ++ braces body)

/-- A conditional expression that throws if no condition holds. -/
def dispatch (branches : List (String × String)) (message : String) : String :=
  selfExecuting (conditional branches ++ "\nthrow new TypeError('" ++ message ++ "')")

def paragraphs (texts : List String) : String := "\n\n".intercalate texts

def namespaceBlock (name body : String) : String :=
  "export namespace " ++ name ++ " " ++ braces body

end Layout

namespace Bundle

def addToGroup {α : Type} (key : Json) (item : α) : List (Json × List α) → List (Json × List α)
  | [] => [(key, [item])]
  | (other, items) :: rest =>
    if other.same key then (other, items ++ [item]) :: rest
    else (other, items) :: addToGroup key item rest

/-- Items by namespace. All falsy namespaces are one, and a namespace has to be able to serve as
a key. -/
def group {α : Type} (items : List (Json × α)) : Except Error (List (Json × List α)) :=
  items.foldlM (fun groups (space, item) =>
    let key := space.orNull
    if key.isKey then .ok (addToGroup key item groups) else .error (.notHashable key)) []

/-- The texts of a group: one block, or the bare texts if there is no namespace. -/
def blocks : Json × List String → List String
  | (.null, texts) => texts
  | (space, texts) => [Layout.namespaceBlock space.text (Layout.paragraphs texts)]

def join (options : Options) (texts : List (Json × String)) : Except Error String :=
  if options.withoutNamespaces then .ok (Layout.paragraphs (texts.map (·.2)))
  else (group texts).map fun groups => Layout.paragraphs (groups.flatMap blocks)

end Bundle

end AvroBindings
