import AvroBindings.Error
import AvroBindings.Text.Split

/-! Paths as texts, trees of files and directories, what stands at a path, and what can be put there.
A path is relative unless it begins with a slash. -/

namespace AvroBindings

namespace Path

def isAbsolute (path : String) : Bool := path.toList.head? == some '/'

def components (path : String) : List String := (path.toList.splitOn '/').map String.ofList

/-- Drops empty parts and single dots, and lets a double dot take back the part before it. -/
def normalise (components : List String) : List String :=
  (components.foldl step []).reverse
where
  step (kept : List String) (component : String) : List String :=
    match component with
    | "" | "." => kept
    | ".." => kept.drop 1
    | _ => component :: kept

def absoluteComponents (workingDirectory : List String) (path : String) : List String :=
  normalise (if isAbsolute path then components path else workingDirectory ++ components path)

/-- A path made absolute and normal, without a look at any file. Exactly two leading slashes
stay two. -/
def absolute (workingDirectory : List String) (path : String) : String :=
  let start := match path.toList with
    | '/' :: '/' :: '/' :: _ => "/"
    | '/' :: '/' :: _ => "//"
    | _ => "/"
  start ++ "/".intercalate (absoluteComponents workingDirectory path)

def stages (path : String) : List String := after [] (components path)
where
  after (before : List String) : List String → List String
    | [] => []
    | component :: rest =>
      let here := before ++ [component]
      if component.isEmpty then after here rest
      else "/".intercalate here :: after here rest

def child (directory name : String) : String :=
  if directory.isEmpty || directory.toList.getLast? == some '/' then directory ++ name
  else directory ++ "/" ++ name

def baseName (path : String) : String := String.ofList (afterLast '/' path.toList)

def directory (path : String) : String :=
  match splitLast '/' path.toList with
  | none => ""
  | some (before, _) =>
    match before.reverse.dropWhile (· == '/') with
    | [] => String.ofList (before ++ ['/'])
    | kept => String.ofList kept.reverse

/-- Whether the base name ends in the extension of schema files, after something else than
dots. -/
def isSchemaFile (path : String) : Bool :=
  match splitLast '.' (afterLast '/' path.toList) with
  | some (before, after) => after == "avsc".toList && before.any (· != '.')
  | none => false

end Path

inductive FileTree where
  | file (content : ByteArray)
  | directory (entries : List (String × FileTree))

namespace FileTree

def emptyDirectory : FileTree := directory []

def isDirectory : FileTree → Bool
  | directory _ => true
  | file _ => false

def entry? (name : String) : FileTree → Option FileTree
  | directory entries => entries.lookup name
  | file _ => none

/-- What stands at the end of a path of components, given the directories around the tree from
the closest one outward. The root is its own parent. -/
def walk (around : List FileTree) (tree : FileTree) : List String → Option FileTree
  | [] => some tree
  | component :: rest =>
    if !tree.isDirectory then none
    else
      match component with
      | "" | "." => walk around tree rest
      | ".." =>
        match around with
        | [] => walk [] tree rest
        | parent :: others => walk others parent rest
      | name => (tree.entry? name).bind fun child => walk (tree :: around) child rest

def insert (tree : FileTree) : List String → FileTree → FileTree
  | [], _ => tree
  | name :: rest, target =>
    let entries := match target with
      | directory entries => entries
      | file _ => []
    let child := insert tree rest ((entries.lookup name).getD emptyDirectory)
    directory (if entries.any (·.1 == name)
      then entries.map fun entry => if entry.1 == name then (name, child) else entry
      else entries ++ [(name, child)])

mutual
/-- The schema files of a tree that stands at a path, in the order of the code points of the
names in each directory. -/
def schemaFiles (path : String) : FileTree → List String
  | file _ => if Path.isSchemaFile path then [path] else []
  | directory entries =>
    (schemaFilesBelow path entries).mergeSort (fun left right => left.1 ≤ right.1) |>.flatMap (·.2)

def schemaFilesBelow (path : String) : List (String × FileTree) → List (String × List String)
  | [] => []
  | (name, tree) :: rest =>
    (name, schemaFiles (Path.child path name) tree) :: schemaFilesBelow path rest
end

end FileTree

/-- A tree from the root on, and the directory that relative paths start from. -/
structure FileSystem where
  root : FileTree
  workingDirectory : List String

namespace FileSystem

/-- What stands at a path. Every part but the last has to be a directory; the empty path is
none. -/
def find? (files : FileSystem) (path : String) : Option FileTree :=
  if path.isEmpty then none
  else if Path.isAbsolute path then FileTree.walk [] files.root (Path.components path)
  else FileTree.walk [] files.root (files.workingDirectory ++ Path.components path)

def absolute (files : FileSystem) (path : String) : String :=
  Path.absolute files.workingDirectory path

def put (files : FileSystem) (path : String) (tree : FileTree) : FileSystem :=
  { files with
    root := tree.insert (Path.absoluteComponents files.workingDirectory path) files.root }

def isDirectory (files : FileSystem) (path : String) : Bool :=
  path.isEmpty || (files.find? path).any FileTree.isDirectory

/-- What stands in the way of putting something new at a path: it needs a directory to lie in, and
its name has at most 255 bytes. -/
def checkNew (files : FileSystem) (path : String) : Except Error Unit :=
  if !files.isDirectory (Path.directory path) then .error (.notDirectory path)
  else if 255 < (Path.baseName path).utf8ByteSize then .error (.nameTooLong path)
  else .ok ()

/-- Makes a directory at each of some paths at which nothing stands. Each path but the first
begins with the one before it, and a directory has to stand at the last in the end. A single dot
asks for nothing where nothing stood at the start. -/
def makeDirectoriesFrom (start files : FileSystem) : List String → Except Error FileSystem
  | [] => .ok files
  | path :: rest =>
    if Path.baseName path == "." && (start.find? (Path.directory path)).isNone then
      makeDirectoriesFrom start files rest
    else
      match files.find? path with
      | some tree =>
        if rest.isEmpty && !tree.isDirectory then .error (.fileExists path)
        else makeDirectoriesFrom start files rest
      | none => do
        files.checkNew path
        makeDirectoriesFrom start (files.put path .emptyDirectory) rest

def makeDirectory (files : FileSystem) (path : String) : Except Error FileSystem :=
  makeDirectoriesFrom files files (Path.stages path)

def write (files : FileSystem) (path : String) (content : ByteArray) : FileSystem :=
  files.put path (.file content)

end FileSystem

end AvroBindings
