import AvroBindings.CommandLine.Run

/-! The program. It looks at what stands at the paths that its arguments name, runs on that alone,
and then writes what the run gives. -/

namespace AvroBindings

partial def FileTree.read (path : String) : IO FileTree := do
  let place := (← IO.currentDir) / path
  if ← place.isDir then
    let entries ← (← place.readDir).toList.mapM fun entry => do
      return (entry.fileName, ← FileTree.read (Path.child path entry.fileName))
    return .directory entries
  else if Path.isSchemaFile path then return .file (← IO.FS.readBinFile place)
  else return .file ByteArray.empty

namespace FileSystem

/-- Nothing but the directories down to the working directory. -/
def start : IO FileSystem := do
  let workingDirectory := Path.normalise (Path.components (← IO.currentDir).toString)
  return {
    root := FileTree.emptyDirectory.insert workingDirectory .emptyDirectory
    workingDirectory := workingDirectory }

def readAt (files : FileSystem) (path : String) : IO FileSystem := do
  let path := files.absolute path
  if ← ((← IO.currentDir) / path).pathExists then return files.put path (← FileTree.read path)
  else return files

def noteAt (files : FileSystem) (path : String) : IO FileSystem := do
  let place := (← IO.currentDir) / path
  if (files.find? path).isSome || !(← place.pathExists) then return files
  else if ← place.isDir then return files.put path .emptyDirectory
  else return files.write path ByteArray.empty

/-- The files that the run of a command can come upon. -/
def around (settings : CommandLine.Settings) : IO FileSystem := do
  let files ← settings.paths.foldlM readAt (← start)
  (Path.stages settings.output).foldlM noteAt files

end FileSystem

open CommandLine in
def outcome (arguments : List String) : IO Outcome := do
  let invocation := Invocation.ofArguments arguments
  let files ← match invocation with
    | .convert settings => FileSystem.around settings
    | _ => FileSystem.start
  return invoke files invocation

def writeOut (path text : String) : IO Unit := do
  let directory := Path.directory path
  unless directory.isEmpty do IO.FS.createDirAll directory
  IO.FS.writeFile path text

end AvroBindings

open AvroBindings in
def main (arguments : List String) : IO UInt32 := do
  let outcome ← outcome arguments
  if let some (path, text) := outcome.written then writeOut path text
  IO.print outcome.stdout
  IO.eprint outcome.stderr
  return outcome.status.code.toUInt32
