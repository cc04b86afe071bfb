import AvroBindings.Files.Tree
import AvroBindings.Generate

/-! Converting schema files. Files are collected from all paths before the first is read; each is
then converted on its own, and its text is put out if that succeeds. -/

namespace AvroBindings

def unifyLineEnds : List Char → List Char
  | '\r' :: '\n' :: rest => '\n' :: unifyLineEnds rest
  | '\r' :: rest => '\n' :: unifyLineEnds rest
  | c :: rest => c :: unifyLineEnds rest
  | [] => []

/-- What a caller names to be converted. -/
inductive Input where
  | nothing
  | single (path : String)
  | several (paths : List String)

instance : Coe (List String) Input := ⟨.several⟩

/-- The paths that are named. An empty text names none, unless it stands in a list. -/
def Input.paths : Input → List String
  | nothing => []
  | single path => if path.isEmpty then [] else [path]
  | several paths => paths

@[simp] theorem Input.paths_several (paths : List String) : (several paths).paths = paths := rfl

inductive Report where
  | event (event : Event)
  | output (text : String)

namespace Report

def event? : Report → Option Event
  | event reported => some reported
  | output _ => none

def text (reports : List Report) : String :=
  String.join (reports.map fun
    | event _ => ""
    | output text => text)

end Report

namespace FileSystem

def load (files : FileSystem) (path : String) : Except Error Json := do
  match files.find? path with
  | none => .error (.inputNotFound path)
  | some (.directory _) => .error (.isDirectory path)
  | some (.file content) =>
    let text ← (Utf8.decode content.toList).mapError .invalidEncoding
    let text := unifyLineEnds text
    (Json.readText text).mapError fun error =>
      match error.problem with
      | .tooManyDigits count => .integerTooLong count
      | _ => .unreadableSchema path (error.message text)

/-- The bindings of one document, below a comment that names its file. -/
def convert (files : FileSystem) (options : Options) (path : String) : Emitting Event String := do
  let document ← files.load path
  let text ← generate options (.ofJson document)
  return "// Generated from " ++ Path.baseName path ++ "\n\n" ++ text ++ "\n"

def collect (files : FileSystem) (path : String) : Except Error (List String) :=
  match files.find? path with
  | none => .error (.inputNotFound path)
  | some tree => .ok (tree.schemaFiles path)

/-- The schema files at or below all paths, which are made absolute first. -/
def collectAll (files : FileSystem) (input : Input) : Except Error (List String) :=
  if input.paths.isEmpty then .error .missingInput
  else return (← input.paths.mapM fun path => files.collect (files.absolute path)).flatten

/-- Converts documents one by one and gives the paths of those that were converted. A document
that fails ends the batch, or is skipped if the batch may go on after its error. -/
def convertEach (files : FileSystem) (options : Options) (continueOnError : Bool) :
    List String → Emitting Report (List String)
  | [] => return []
  | path :: rest => do
    let conversion := files.convert options path
    Emitting.emitAll (conversion.emitted.map .event)
    match conversion.result with
    | .ok text =>
      Emitting.emit (.output text)
      return path :: (← files.convertEach options continueOnError rest)
    | .error error =>
      if continueOnError && error.isSkippable then
        Emitting.emit (.event (.skipped path error))
        files.convertEach options continueOnError rest
      else Emitting.fail error

def convertAll (files : FileSystem) (options : Options) (continueOnError : Bool)
    (input : Input) : Emitting Report (List String) := do
  files.convertEach options continueOnError (← files.collectAll input)

end FileSystem

end AvroBindings
