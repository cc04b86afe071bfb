import AvroBindings.Proofs.Code.Definitions

/-! The code of a conversion in pieces, each in the scope of the constructs around it that bind
variables. The pieces in their order are the whole code, up to white space: indenting code where it
is put into other code changes nothing else. -/

namespace AvroBindings

def condensed (text : String) : List Char := text.toList.filter fun c => !Layout.isBlank c

@[simp] theorem condensed_append (text other : String) :
    condensed (text ++ other) = condensed text ++ condensed other := by
  simp [condensed]

namespace Layout

theorem filter_indentLine (width : Nat) (line : List Char) :
    (indentLine width line).filter (fun c => !isBlank c) = line.filter fun c => !isBlank c := by
  unfold indentLine
  split
  next => rfl
  next =>
    have hs : (List.replicate width ' ').filter (fun c => !isBlank c) = [] :=
      List.filter_eq_nil_iff.2 fun c hc => by
        rw [List.eq_of_mem_replicate hc]
        decide
    rw [List.filter_append, hs, List.nil_append]

theorem filter_joinLines (lines : List (List Char)) :
    (joinLines lines).filter (fun c => !isBlank c) =
      lines.flatMap fun line => line.filter fun c => !isBlank c := by
  unfold joinLines
  induction lines with
  | nil => rfl
  | cons line rest ih =>
    cases rest with
    | nil => simp
    | cons second rest =>
      have hf : ['\n'].filter (fun c => !isBlank c) = [] := by decide
      rw [List.intercalate_cons_cons, List.filter_append, List.filter_append, ih, hf,
        List.append_nil]
      rfl

theorem condensed_indent (text : String) : condensed (indent text) = condensed text := by
  have hl : text.toList = joinLines (lines text.toList) := (List.intercalate_splitOn '\n').symm
  unfold indent condensed
  rw [toList_indentBy, filter_joinLines, List.flatMap_map]
  simp only [filter_indentLine]
  rw [← filter_joinLines, ← hl]

@[simp] theorem condensed_braces (body : String) :
    condensed (braces body) = condensed "\x7b" ++ condensed body ++ condensed "\x7d" := by
  unfold braces
  rw [condensed_append, condensed_append, condensed_indent]
  rfl

@[simp] theorem condensed_selfExecuting (body : String) :
    condensed (selfExecuting body) =
      condensed "(() => \x7b" ++ condensed body ++ condensed "\x7d)()" := by
  unfold selfExecuting
  simp only [condensed_append, condensed_braces, List.append_assoc]
  rfl

end Layout

theorem condensed_intercalate {separator : String} (h : condensed separator = [])
    (texts : List String) :
    condensed (separator.intercalate texts) = texts.flatMap condensed := by
  induction texts with
  | nil => rfl
  | cons first rest ih =>
    cases rest with
    | nil => simp [String.intercalate_singleton]
    | cons second others =>
      rw [String.intercalate_cons_cons, condensed_append, condensed_append, ih, h, List.append_nil]
      rfl

/-- What binds variables in the code of a method. -/
inductive Construct where
  | method
  /-- The function that the elements of an array are mapped by. -/
  | callback (element : String)
  /-- The function that goes through the entries of an object. -/
  | function (keys output : String)
  | loop (key value : String)
deriving DecidableEq, Repr

namespace Construct

def names : Construct → List String
  | method => ["input"]
  | callback element => [element]
  | function keys output => [keys, output]
  | loop key value => [key, value]

/-- The function that goes through an object at some depth. -/
def functionAt (depth : Int) : Construct :=
  function (Binding.mk .keys depth).text (Binding.mk .output depth).text

def loopAt (depth : Int) : Construct :=
  loop (Binding.mk .mapKey depth).text (Binding.mk .mapValue depth).text

end Construct

/-- A piece of code. -/
inductive Piece where
  | code (text : String)
  /-- The expression that a conversion is given. -/
  | given (text : String)
  | binds (name : String)
  | reads (name : String)
  /-- A class, where a member of it is used, an object is made of it or compared with it. -/
  | names (className : String)
deriving DecidableEq, Repr

def Piece.text : Piece → String
  | code text => text
  | given text => text
  | binds name => name
  | reads name => name
  | names className => className

/-- A piece of code with the constructs around it, from the innermost outward. -/
structure Occurrence where
  around : List Construct
  piece : Piece
deriving DecidableEq, Repr

namespace Occurrence

def scope (occurrence : Occurrence) : List String := occurrence.around.flatMap Construct.names

def place (around : List Construct) (pieces : List Piece) : List Occurrence :=
  pieces.map (mk around)

end Occurrence

open Piece
open Occurrence (place)

namespace Tag

def pieces : Tag → List Piece
  | fullName className => [names className, code ".FQN"]
  | literal text => [code "'", code text, code "'"]

def keyPieces : Tag → List Piece
  | fullName className => code "[" :: (fullName className).pieces ++ [code "]"]
  | literal text => (literal text).pieces

end Tag

def Access.pieces : Access → List Piece
  | given text => [.given text]
  | field name => [reads "input", code ".", code name]
  | bound binding => [reads binding.text]
  | tagged access tag => access.pieces ++ code "[" :: tag.pieces ++ [code "]"]

def Test.pieces (value : List Piece) : Test → List Piece
  | isNull => value ++ [code " === null"]
  | isNullOrUndefined => value ++ [code " == null"]
  | isDefined => value ++ [code " !== undefined"]
  | hasType name => code "typeof " :: value ++ [code " === '", code name, code "'"]
  | isInteger => code "Number.isInteger(" :: value ++ [code ")"]
  | isBuffer => code "Buffer.isBuffer(" :: value ++ [code ")"]
  | isArray => code "Array.isArray(" :: value ++ [code ")"]
  | isInstance className => value ++ [code " instanceof ", names className]
  | isOneOf symbols =>
    code "typeof " :: value ++ code " === 'string' && [" ::
      code (", ".intercalate (symbols.map fun symbol => "'" ++ symbol ++ "'")) ::
      code "].indexOf(" :: value ++ [code ") >= 0"]
  | isPlainObject =>
    code "typeof " :: value ++ code " === 'object' && " :: value ++
      code " !== null && Object.getPrototypeOf(" :: value ++ [code ") === Object.prototype"]

mutual
def Conversion.occurrences (around : List Construct) : Conversion → List Occurrence
  | .same access => place around access.pieces
  | .call className direction access =>
    place around (names className :: code "." :: code direction.method :: code "(" ::
      access.pieces ++ [code ")"])
  | .elements access element braced body =>
    let inner := .callback element.text :: around
    place around (access.pieces ++ [code ".map("]) ++
      place inner [code "(", binds element.text, code ": any) => "] ++
      (if braced then
        place inner [code "\x7b", code "return "] ++ body.occurrences inner ++
          place inner [code "\x7d"]
      else body.occurrences inner) ++
      place around [code ")"]
  | .entries access depth type body =>
    let keys := (Binding.mk .keys depth).text
    let output := (Binding.mk .output depth).text
    let key := (Binding.mk .mapKey depth).text
    let value := (Binding.mk .mapValue depth).text
    let function := .functionAt depth :: around
    let loop := .loopAt depth :: function
    place around [code "(() => \x7b"] ++
      place function (code "const " :: binds keys :: code " = Object.keys(" :: access.pieces ++
        [code ")\n", code "const ", binds output, code ": ", code type.render,
          code " = \x7b\x7d\n"]) ++
      place loop (code "for (const " :: binds key :: code " of " :: reads keys :: code ") " ::
        code "\x7b" :: code "const " :: binds value :: code " = " :: access.pieces ++
        [code "[", reads key, code "]\n", reads output, code "[", reads key, code "] = "]) ++
      body.occurrences loop ++ place loop [code "\x7d"] ++
      place function [code "\nreturn ", reads output] ++
      place around [code "\x7d)()"]
  | .dispatch direction branches =>
    place around [code "(() => \x7b"] ++ Branch.occurrencesAll around branches ++
      place around [code "\nthrow new TypeError('", code direction.failure, code "')",
        code "\x7d)()"]

def Branch.occurrencesAll (around : List Construct) : List Branch → List Occurrence
  | [] => []
  | branch :: rest =>
    branch.occurrences around ++ (if rest.isEmpty then [] else place around [code " else "]) ++
      Branch.occurrencesAll around rest

def Branch.occurrences (around : List Construct) : Branch → List Occurrence
  | .mk access test answer =>
    place around (code "if (" :: test.pieces access.pieces ++ [code ") ", code "\x7b"]) ++
      answer.occurrences around ++ place around [code "\x7d"]

def Answer.occurrences (around : List Construct) : Answer → List Occurrence
  | .undefined => place around [code "return undefined"]
  | .null => place around [code "return null"]
  | .value conversion => place around [code "return "] ++ conversion.occurrences around
  | .wrapped tag conversion =>
    place around (code "return \x7b " :: tag.keyPieces ++ [code ": "]) ++
      conversion.occurrences around ++ place around [code " \x7d"]
end

theorem Branch.mem_occurrencesAll {around : List Construct} {branches : List Branch}
    {occurrence : Occurrence} (h : occurrence ∈ Branch.occurrencesAll around branches) :
    (∃ branch ∈ branches, occurrence ∈ branch.occurrences around) ∨
      occurrence ∈ place around [code " else "] := by
  induction branches with
  | nil => cases h
  | cons branch rest ih =>
    rw [Branch.occurrencesAll, List.mem_append, List.mem_append] at h
    obtain (h | h) | h := h
    · exact .inl ⟨branch, List.mem_cons_self, h⟩
    · split at h
      · cases h
      · exact .inr h
    · obtain ⟨other, ho, h⟩ | h := ih h
      · exact .inl ⟨other, List.mem_cons_of_mem branch ho, h⟩
      · exact .inr h

theorem Branch.occurrences_subset {around : List Construct} {branches : List Branch}
    {branch : Branch} (h : branch ∈ branches) :
    branch.occurrences around ⊆ Branch.occurrencesAll around branches := by
  intro occurrence ho
  induction branches with
  | nil => cases h
  | cons other rest ih =>
    rw [Branch.occurrencesAll, List.mem_append, List.mem_append]
    obtain rfl | h := List.mem_cons.1 h
    · exact .inl (.inl ho)
    · exact .inr (ih h)

namespace Conversion

variable {around : List Construct} {access : Access} {body : Conversion}

theorem occurrences_elements {element : Binding} {braced : Bool} :
    body.occurrences (.callback element.text :: around) ⊆
      (elements access element braced body).occurrences around :=
  fun occurrence ho => by cases braced <;> simp [occurrences, ho]

theorem occurrences_entries {depth : Int} {type : TypeExpr} :
    body.occurrences (.loopAt depth :: .functionAt depth :: around) ⊆
      (entries access depth type body).occurrences around :=
  fun occurrence ho => by simp [occurrences, ho]

theorem occurrences_dispatch {direction : Direction} {branches : List Branch} :
    Branch.occurrencesAll around branches ⊆ (dispatch direction branches).occurrences around :=
  fun occurrence ho => by simp [occurrences, ho]

end Conversion

def Piece.condensedAll (pieces : List Piece) : List Char := pieces.flatMap (condensed ·.text)

def Occurrence.condensedAll (occurrences : List Occurrence) : List Char :=
  occurrences.flatMap (condensed ·.piece.text)

section Text

theorem Piece.condensedAll_append (first second : List Piece) :
    condensedAll (first ++ second) = condensedAll first ++ condensedAll second :=
  List.flatMap_append

@[simp] theorem Piece.condensedAll_cons (piece : Piece) (rest : List Piece) :
    condensedAll (piece :: rest) = condensed piece.text ++ condensedAll rest := rfl

@[simp] theorem Piece.condensedAll_nil : condensedAll [] = [] := rfl

attribute [simp] Piece.condensedAll_append

namespace Occurrence

@[simp] theorem condensedAll_append (first second : List Occurrence) :
    condensedAll (first ++ second) = condensedAll first ++ condensedAll second :=
  List.flatMap_append

@[simp] theorem condensedAll_nil : condensedAll [] = [] := rfl

@[simp] theorem condensedAll_place (around : List Construct) (pieces : List Piece) :
    condensedAll (place around pieces) = Piece.condensedAll pieces := by
  unfold condensedAll place Piece.condensedAll
  rw [List.flatMap_map]

end Occurrence

theorem Tag.condensed_text (tag : Tag) : condensed tag.text = condensedAll tag.pieces := by
  cases tag <;> simp [Tag.text, pieces, Piece.text]

theorem Tag.condensed_key (tag : Tag) : condensed tag.key = condensedAll tag.keyPieces := by
  cases tag <;> simp [key, keyPieces, condensed_text, Piece.text]

theorem Access.condensed_text (access : Access) :
    condensed access.text = condensedAll access.pieces := by
  induction access with
  | tagged access tag ih => simp [Access.text, pieces, ih, Tag.condensed_text, Piece.text]
  | given text => simp [Access.text, pieces, Piece.text]
  | field name =>
    have hf : "input." = "input" ++ "." := rfl
    rw [Access.text, hf, condensed_append, condensed_append, List.append_assoc]
    simp [pieces, Piece.text]
  | bound binding => simp [Access.text, pieces, Piece.text]

theorem Test.condensed_text {value : String} {pieces : List Piece}
    (h : condensed value = condensedAll pieces) (test : Test) :
    condensed (test.text value) = condensedAll (test.pieces pieces) := by
  cases test with
  | isNull =>
    change condensed (value ++ " === null") = _
    simp [Test.pieces, Piece.text, h]
  | isNullOrUndefined =>
    change condensed (value ++ " == null") = _
    simp [Test.pieces, Piece.text, h]
  | isDefined =>
    change condensed (value ++ " !== undefined") = _
    simp [Test.pieces, Piece.text, h]
  | hasType name =>
    change condensed ("typeof " ++ value ++ " === '" ++ name ++ "'") = _
    simp [Test.pieces, Piece.text, h]
  | isInteger =>
    change condensed ("Number.isInteger(" ++ value ++ ")") = _
    simp [Test.pieces, Piece.text, h]
  | isBuffer =>
    change condensed ("Buffer.isBuffer(" ++ value ++ ")") = _
    simp [Test.pieces, Piece.text, h]
  | isArray =>
    change condensed ("Array.isArray(" ++ value ++ ")") = _
    simp [Test.pieces, Piece.text, h]
  | isInstance className =>
    change condensed (value ++ " instanceof " ++ className) = _
    simp [Test.pieces, Piece.text, h]
  | isOneOf symbols =>
    change condensed ("typeof " ++ value ++ " === 'string' && [" ++ _ ++ "].indexOf(" ++ value ++
      ") >= 0") = _
    simp [Test.pieces, Piece.text, h]
  | isPlainObject =>
    change condensed ("typeof " ++ value ++ " === 'object' && " ++ value ++
      " !== null && Object.getPrototypeOf(" ++ value ++ ") === Object.prototype") = _
    simp [Test.pieces, Piece.text, h]

mutual
/-- The pieces of a conversion are its whole code, wherever it stands. -/
theorem Conversion.condensed_render (conversion : Conversion) (around : List Construct) :
    condensed conversion.render = Occurrence.condensedAll (conversion.occurrences around) := by
  cases conversion with
  | same access => simp [Conversion.render, Conversion.occurrences, Access.condensed_text]
  | call className direction access =>
    simp [Conversion.render, Conversion.occurrences, Access.condensed_text, Piece.text]
  | elements access element braced body =>
    have hb := body.condensed_render (.callback element.text :: around)
    have hm : condensed ".map((" = condensed ".map(" ++ condensed "(" :=
      condensed_append ".map(" "("
    cases braced with
    | true =>
      simp [Conversion.render, Conversion.occurrences, Access.condensed_text, Piece.text, hb, hm]
    | false =>
      simp [Conversion.render, Conversion.occurrences, Access.condensed_text, Piece.text, hb, hm]
  | entries access depth type body =>
    simpa [Conversion.render, Conversion.occurrences, Access.condensed_text, Piece.text] using
      body.condensed_render _
  | dispatch direction branches =>
    have hb := Branch.condensed_renderAll branches around
    simp [Conversion.render, Layout.dispatch, Conversion.occurrences, Piece.text, hb]

theorem Branch.condensed_renderAll (branches : List Branch) (around : List Construct) :
    condensed (Layout.conditional (Branch.renderAll branches)) =
      Occurrence.condensedAll (Branch.occurrencesAll around branches) := by
  cases branches with
  | nil => rfl
  | cons branch rest =>
    have hb := branch.condensed_render around
    have hr := Branch.condensed_renderAll rest around
    rw [Branch.renderAll_eq, Branch.conditional_eq, List.map_map] at hr ⊢
    rw [List.map_cons]
    cases rest with
    | nil => simp [Branch.occurrencesAll, hb]
    | cons second others =>
      rw [List.map_cons, String.intercalate_cons_cons, ← List.map_cons, condensed_append,
        condensed_append, hr]
      simp [Branch.occurrencesAll, Piece.text, hb]

theorem Branch.condensed_render (branch : Branch) (around : List Construct) :
    condensed (Branch.clause branch.render) =
      Occurrence.condensedAll (branch.occurrences around) := by
  obtain ⟨access, test, answer⟩ := branch
  have ht := Test.condensed_text access.condensed_text test
  have ha := answer.condensed_render around
  simp [Branch.clause, Branch.render, Branch.occurrences, Piece.text, ht, ha]

theorem Answer.condensed_render (answer : Answer) (around : List Construct) :
    condensed answer.render = Occurrence.condensedAll (answer.occurrences around) := by
  cases answer with
  | undefined => simp [Answer.render, Answer.occurrences, Piece.text]
  | null => simp [Answer.render, Answer.occurrences, Piece.text]
  | value conversion =>
    have hc := conversion.condensed_render around
    simp [Answer.render, Answer.occurrences, Piece.text, hc]
  | wrapped tag conversion =>
    have hc := conversion.condensed_render around
    simp [Answer.render, Answer.occurrences, Piece.text, hc, Tag.condensed_key]
end

end Text

namespace Occurrence

variable {all occurrences first second : List Occurrence} {around : List Construct}
  {construct : Construct}

/-- The construct binds each of its variables, in its own scope. -/
def Introduces (all : List Occurrence) (around : List Construct) (construct : Construct) : Prop :=
  ∀ name ∈ construct.names, mk (construct :: around) (.binds name) ∈ all

def Introduced (all : List Occurrence) (around : List Construct) (occurrences : List Occurrence) :
    Prop :=
  ∀ occurrence ∈ occurrences, ∀ construct others, construct :: others <:+ occurrence.around →
    construct :: others <:+ around ∨ Introduces all others construct

theorem Introduced.append (hf : Introduced all around first) (hs : Introduced all around second) :
    Introduced all around (first ++ second) :=
  fun occurrence ho => (List.mem_append.1 ho).elim (hf occurrence) (hs occurrence)

theorem introduced_place (pieces : List Piece) : Introduced all around (place around pieces) := by
  intro occurrence ho construct others hs
  obtain ⟨piece, -, rfl⟩ := List.mem_map.1 ho
  exact .inl hs

theorem Introduced.within (h : Introduced all (construct :: around) occurrences)
    (hc : Introduces all around construct) : Introduced all around occurrences := by
  intro occurrence ho other others hs
  obtain hs | hi := h occurrence ho other others hs
  · obtain he | hs := List.suffix_cons_iff.1 hs
    · cases he
      exact .inr hc
    · exact .inl hs
  · exact .inr hi

end Occurrence

open Occurrence

variable {all : List Occurrence}

mutual
/-- Every construct in the code of a conversion binds its variables there. -/
theorem Conversion.introduced (conversion : Conversion) (around : List Construct)
    (h : conversion.occurrences around ⊆ all) :
    Introduced all around (conversion.occurrences around) := by
  cases conversion with
  | same access => exact introduced_place _
  | call className direction access => exact introduced_place _
  | elements access element braced body =>
    have hc : Introduces all around (.callback element.text) := by
      intro name hn
      obtain rfl := List.mem_singleton.1 hn
      exact h (by simp [Conversion.occurrences, place])
    have hb := body.introduced (.callback element.text :: around)
      fun _ ho => h (Conversion.occurrences_elements ho)
    have hp := fun pieces => (introduced_place pieces).within hc
    refine .append (.append (.append (introduced_place _) (hp _)) ?_) (introduced_place _)
    cases braced with
    | true => exact .append (.append (hp _) (hb.within hc)) (hp _)
    | false => exact hb.within hc
  | entries access depth type body =>
    have hf : Introduces all around (.functionAt depth) := by
      intro name hn
      refine h ?_
      obtain rfl | hn := List.mem_cons.1 hn
      · simp [Conversion.occurrences, place]
      · obtain rfl := List.mem_singleton.1 hn
        simp [Conversion.occurrences, place]
    have hl : Introduces all (.functionAt depth :: around) (.loopAt depth) := by
      intro name hn
      refine h ?_
      obtain rfl | hn := List.mem_cons.1 hn
      · simp [Conversion.occurrences, place]
      · obtain rfl := List.mem_singleton.1 hn
        simp [Conversion.occurrences, place]
    have hb := body.introduced (.loopAt depth :: .functionAt depth :: around)
      fun _ ho => h (Conversion.occurrences_entries ho)
    have hp := fun pieces => (introduced_place pieces).within hf
    have hq := fun pieces => ((introduced_place pieces).within hl).within hf
    exact .append (.append (.append (.append (.append (.append (introduced_place _) (hp _)) (hq _))
      ((hb.within hl).within hf)) (hq _)) (hp _)) (introduced_place _)
  | dispatch direction branches =>
    have hb := Branch.introducedAll branches around fun _ ho =>
      h (Conversion.occurrences_dispatch ho)
    exact .append (.append (introduced_place _) hb) (introduced_place _)

theorem Branch.introducedAll (branches : List Branch) (around : List Construct)
    (h : Branch.occurrencesAll around branches ⊆ all) :
    Introduced all around (Branch.occurrencesAll around branches) := by
  cases branches with
  | nil => exact introduced_place []
  | cons branch rest =>
    have hb := branch.introduced around fun occurrence ho =>
      h (by simp [Branch.occurrencesAll, ho])
    have hr := Branch.introducedAll rest around fun occurrence ho =>
      h (by simp [Branch.occurrencesAll, ho])
    refine .append (.append hb ?_) hr
    split
    · exact introduced_place []
    · exact introduced_place _

theorem Branch.introduced (branch : Branch) (around : List Construct)
    (h : branch.occurrences around ⊆ all) :
    Introduced all around (branch.occurrences around) := by
  obtain ⟨access, test, answer⟩ := branch
  have ha := answer.introduced around fun occurrence ho =>
    h (by simp [Branch.occurrences, ho])
  exact .append (.append (introduced_place _) ha) (introduced_place _)

theorem Answer.introduced (answer : Answer) (around : List Construct)
    (h : answer.occurrences around ⊆ all) :
    Introduced all around (answer.occurrences around) := by
  cases answer with
  | undefined => exact introduced_place _
  | null => exact introduced_place _
  | value conversion =>
    have hc := conversion.introduced around fun occurrence ho =>
      h (by simp [Answer.occurrences, ho])
    exact .append (introduced_place _) hc
  | wrapped tag conversion =>
    have hc := conversion.introduced around fun occurrence ho =>
      h (by simp [Answer.occurrences, ho])
    exact .append (.append (introduced_place _) hc) (introduced_place _)
end

end AvroBindings
