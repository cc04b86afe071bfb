import AvroBindings.CommandLine.Switches
import AvroBindings.Files.Batch

/-! A run of the program: what its arguments ask for, what it prints, the file it writes, and its exit
status. The switches of the program stand before the name of its command, those of the command after
it. The output file is made before any document is read, and keeps what was written before an
error. -/

namespace AvroBindings

namespace CommandLine

def programName : String := "avsctots"
def version : String := "0.3.0"
def commandName : String := "a2ts"
def commandDescription : String := "Convert Avro schema files to TypeScript declarations"

def versionText : String := programName ++ " " ++ version ++ "\n"

def programUsage : String := "usage: avsctots [-h] [--version] \x7ba2ts\x7d ...\n"

def programHelp : String :=
  programUsage ++
  "\n" ++
  "Convert Avro schemas to TypeScript declarations and classes.\n" ++
  "\n" ++
  "positional arguments:\n" ++
  "  \x7ba2ts\x7d\n" ++
  "    a2ts      Convert Avro schema files to TypeScript declarations\n" ++
  "\n" ++
  "options:\n" ++
  "  -h, --help  show this help message and exit\n" ++
  "  --version   Print the version of avsctots.\n"

def commandHelp : String :=
  "usage: avsctots a2ts [-h] [--verbose] [--file FILE [FILE ...]] [--out OUT]\n" ++
  "                     [--convert-enum-to-type] [--remove-namespace]\n" ++
  "                     [--custom-mode] [--enums \x7bENUM,CONST_ENUM,STRING\x7d]\n" ++
  "                     [--continue-on-error]\n" ++
  "\n" ++
  "options:\n" ++
  "  -h, --help            show this help message and exit\n" ++
  "  --verbose, -v         Print debug logging.\n" ++
  "  --file FILE [FILE ...], -f FILE [FILE ...]\n" ++
  "                        Avro schema file(s) or directories containing .avsc\n" ++
  "                        files\n" ++
  "  --out OUT             Output TypeScript file, standard output when omitted\n" ++
  "  --convert-enum-to-type, -c\n" ++
  "                        Emit string literal union types instead of enums\n" ++
  "  --remove-namespace, -r\n" ++
  "                        Do not wrap declarations in namespaces and refer to\n" ++
  "                        types by their short names\n" ++
  "  --custom-mode, -x     Generate interfaces and classes with\n" ++
  "                        serialize/deserialize methods\n" ++
  "  --enums \x7bENUM,CONST_ENUM,STRING\x7d\n" ++
  "                        Output style for Avro enums\n" ++
  "  --continue-on-error   Skip schema files that cannot be converted instead of\n" ++
  "                        stopping\n"

structure Settings where
  paths : List String := []
  hasPaths : Bool := false
  output : String := ""
  options : Options := {}
  /-- Whether the switch for the enum style came without a value. -/
  lacksStyle : Bool := false
  continueOnError : Bool := false
  verbose : Bool := false
deriving DecidableEq, Repr

inductive Invocation where
  | programHelp
  | commandHelp
  | version
  | convert (settings : Settings)
  | rejected
deriving DecidableEq, Repr

inductive ProgramSwitch where
  | help
  | version
deriving DecidableEq, Repr

inductive CommandSwitch where
  | help
  | verbose
  | files
  | output
  | enumsAsUnions
  | withoutNamespaces
  | withClasses
  | enumStyle
  | continueOnError
deriving DecidableEq, Repr

def programSwitches : List (Switch ProgramSwitch) :=
  [{ meaning := .help, names := ["-h", "--help"] },
   { meaning := .version, names := ["--version"] }]

def commandSwitches : List (Switch CommandSwitch) :=
  [{ meaning := .help, names := ["-h", "--help"] },
   { meaning := .verbose, names := ["--verbose", "-v"] },
   { meaning := .files, names := ["--file", "-f"], arity := .oneOrMore },
   { meaning := .output, names := ["--out"], arity := .one },
   { meaning := .enumsAsUnions, names := ["--convert-enum-to-type", "-c"] },
   { meaning := .withoutNamespaces, names := ["--remove-namespace", "-r"] },
   { meaning := .withClasses, names := ["--custom-mode", "-x"] },
   { meaning := .enumStyle, names := ["--enums"], arity := .one,
     choices := some ["ENUM", "CONST_ENUM", "STRING"] },
   { meaning := .continueOnError, names := ["--continue-on-error"] }]

/-- The settings after one more switch. A switch that comes again replaces what it set before. -/
def Settings.apply (settings : Settings) (values : List String) : CommandSwitch → Settings
  | .help => settings
  | .verbose => { settings with verbose := true }
  | .files => { settings with paths := values, hasPaths := true }
  | .output => { settings with output := values.headD "" }
  | .enumsAsUnions => { settings with options.enumsAsUnions := true }
  | .withoutNamespaces => { settings with options.withoutNamespaces := true }
  | .withClasses => { settings with options.withClasses := true }
  | .enumStyle =>
    match values.head?.bind EnumStyle.ofLabel? with
    | some style => { settings with options.enumStyle := style, lacksStyle := false }
    | none => { settings with lacksStyle := true }
  | .continueOnError => { settings with continueOnError := true }

/-- The options that the settings stand for. A missing enum style is shown as an empty list. -/
def Settings.checkedOptions (settings : Settings) : Except Error Options :=
  if settings.lacksStyle then .error (.unknownEnumStyle "[]") else .ok settings.options

/-- The switches take effect one by one. Help is given at once, whatever follows. -/
def Settings.invoke (settings : Settings) (complete : Bool) :
    List (Occurrence CommandSwitch) → Invocation
  | [] => if complete then .convert settings else .rejected
  | occurrence :: rest =>
    if occurrence.switch.meaning = .help then .commandHelp
    else if occurrence.isAllowed then
      (settings.apply occurrence.values occurrence.switch.meaning).invoke complete rest
    else .rejected

def Invocation.ofCommand (arguments : List String) : Invocation :=
  match tokens commandSwitches arguments with
  | .error _ => .rejected
  | .ok tokens =>
    let scan := scan commandSwitches 0 tokens
    Settings.invoke {} scan.complete scan.occurrences

/-- The arguments, beside what each is to the program. All before the name of the command are
switches. What is left over makes the whole invalid, unless the command gives help before. -/
def Invocation.ofProgram (hasVersion complete : Bool) :
    List (Token ProgramSwitch × String) → Invocation
  | [] => if !complete then .rejected else if hasVersion then .version else .programHelp
  | (.switch switch name attached, _) :: rest =>
    match join programSwitches switch name attached with
    | .error _ => .rejected
    | .ok ⟨flags, last, _⟩ =>
      let named := (flags ++ [last]).map (·.meaning)
      if .help ∈ named then .programHelp
      else Invocation.ofProgram (hasVersion || .version ∈ named) complete rest
  | (.unknownSwitch _, _) :: rest => Invocation.ofProgram hasVersion false rest
  | (.value command, _) :: rest =>
    if command ≠ commandName then .rejected
    else
      match Invocation.ofCommand (rest.map (·.2)) with
      | .convert settings =>
        if !complete then .rejected else if hasVersion then .version else .convert settings
      | other => other
  | (.separator, _) :: _ => .rejected

def Invocation.ofArguments (arguments : List String) : Invocation :=
  match tokens programSwitches arguments with
  | .error _ => .rejected
  | .ok tokens => Invocation.ofProgram false true (tokens.zip arguments)

inductive Status where
  | success
  | failure
  | usage
deriving DecidableEq, Repr

def Status.code : Status → Nat
  | success => 0
  | failure => 1
  | usage => 2

structure Outcome where
  status : Status
  stdout : String := ""
  stderr : String := ""
  /-- The file that was written, by its path, and its text. -/
  written : Option (String × String) := none
deriving DecidableEq, Repr

/-- The lines of a log with all events, or else the messages of the warnings. -/
def logText (verbose : Bool) (reports : List Report) : String :=
  let events := reports.filterMap Report.event?
  let lines := if verbose then events.map Event.line
    else (events.filter Event.isWarning).map Event.message
  String.join (lines.map (· ++ "\n"))

def failureText : Except Error (List String) → String
  | .ok _ => ""
  | .error error => "Error:  " ++ error.message ++ "\n"

def statusOf : Except Error (List String) → Status
  | .ok _ => .success
  | .error _ => .failure

def announcement (settings : Settings) : String :=
  let paths : Json := if settings.hasPaths then .arr (settings.paths.map .str) else .null
  "Executing " ++ commandDescription ++ " with input " ++ paths.display ++ " and output " ++
    settings.output ++ "\n"

def makeOutput (files : FileSystem) (path : String) : Except Error FileSystem := do
  let files ← files.makeDirectory (Path.directory path)
  files.checkNew path
  if Path.baseName path == "" || files.isDirectory path then throw (.isDirectory path)
  return files.write path ByteArray.empty

def convert (files : FileSystem) (settings : Settings) : Emitting Report (List String) := do
  let options ← settings.checkedOptions
  files.convertAll options settings.continueOnError settings.paths

def convertToOutput (files : FileSystem) (settings : Settings) : Outcome :=
  let run := convert files settings
  { status := statusOf run.result
    stdout := Report.text run.emitted ++ failureText run.result
    stderr := logText settings.verbose run.emitted }

/-- Converts to the output file, which is empty while documents are read. -/
def convertToFile (files : FileSystem) (settings : Settings) : Outcome :=
  match settings.checkedOptions.bind fun _ => makeOutput files settings.output with
  | .error error =>
    { status := .failure
      stdout := announcement settings ++ failureText (.error error) }
  | .ok files =>
    let run := convert files settings
    { status := statusOf run.result
      stdout := announcement settings ++ failureText run.result
      stderr := logText settings.verbose run.emitted
      written := some (settings.output, Report.text run.emitted) }

def invoke (files : FileSystem) : Invocation → Outcome
  | .programHelp => { status := .success, stdout := programHelp }
  | .commandHelp => { status := .success, stdout := commandHelp }
  | .version => { status := .success, stdout := versionText }
  | .rejected => { status := .usage, stderr := programUsage }
  | .convert settings =>
    if settings.output.isEmpty then convertToOutput files settings
    else convertToFile files settings

def run (files : FileSystem) (arguments : List String) : Outcome :=
  invoke files (.ofArguments arguments)

end CommandLine

end AvroBindings
