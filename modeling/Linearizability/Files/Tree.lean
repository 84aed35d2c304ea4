import Linearizability.Files.Buffer
import Linearizability.Files.Path

/-! # Trees of files

A tree of directories and files without links. A path starts at the root of the tree or at the
working directory, and all paths to a file lead to one place.
-/

namespace Linearizability

inductive Entry where
  | directory
  | file (content : Bytes)
  /-- A device that takes no byte, and from which zeros can be read without end. -/
  | full
  deriving DecidableEq

/-- A place in a tree: the names that lead to it from the root, none of which is a dot or `..`. -/
structure Location where
  names : List String
  deriving DecidableEq

namespace Location

def root : Location := ⟨[]⟩

def child (location : Location) (name : String) : Location := ⟨location.names ++ [name]⟩

/-- The directory that a directory is in; the root is in itself. -/
def parent (location : Location) : Location := ⟨location.names.dropLast⟩

end Location

/-- Why a path cannot be used. -/
inductive FileFault where
  | notFound
  | notADirectory
  | isADirectory
  | alreadyExists
  | nameTooLong
  | tooLarge
  | noSpace
  | notText
  | zeroInPath
  deriving DecidableEq

def FileFault.message : FileFault → String
  | notFound => "No such file or directory (os error 2)"
  | notADirectory => "Not a directory (os error 20)"
  | isADirectory => "Is a directory (os error 21)"
  | alreadyExists => "File exists (os error 17)"
  | nameTooLong => "File name too long (os error 36)"
  | tooLarge => "File too large (os error 27)"
  | noSpace => "No space left on device (os error 28)"
  | notText => "stream did not contain valid UTF-8"
  | zeroInPath => "file name contained an unexpected NUL byte"

structure FileTree where
  entries : List (Location × Entry)
  /-- Where a path starts, unless it starts at the root. -/
  workingDirectory : Location
  /-- The size beyond which no file can grow, if there is one. -/
  limit : Option Nat := none

namespace FileTree

/-- A tree that holds nothing yet. -/
def empty (workingDirectory : Location) : FileTree := { entries := [], workingDirectory }

/-- Whether the names on the way to the working directory lead through a place, or end there. -/
def leadsThrough (tree : FileTree) (location : Location) : Bool :=
  location.names.isPrefixOf tree.workingDirectory.names

/-- What is at a place; the working directory and whatever it is in are directories. -/
def entry? (tree : FileTree) (location : Location) : Option Entry :=
  if tree.leadsThrough location then some .directory else tree.entries.lookup location

/-- Put an entry at a place, instead of the one that is there. -/
def put (tree : FileTree) (location : Location) (entry : Entry) : FileTree :=
  { tree with entries := replace tree.entries }
where
  replace : List (Location × Entry) → List (Location × Entry)
    | [] => [(location, entry)]
    | old :: rest => if old.1 = location then (location, entry) :: rest else old :: replace rest

def remove (tree : FileTree) (location : Location) : FileTree :=
  { tree with entries := tree.entries.filter (·.1 != location) }

/-- The greatest length of a name, and of a path, in bytes. -/
def greatestName : Nat := 255

def greatestPath : Nat := 4095

/-- Follow names from a place; everything but the last place has to be a directory. -/
def walk (tree : FileTree) (location : Location) : List String → Except FileFault Location
  | [] => .ok location
  | name :: rest =>
    match tree.entry? location with
    | none => .error .notFound
    | some .directory =>
      if name = "." then tree.walk location rest
      else if name = ".." then tree.walk location.parent rest
      else if greatestName < name.utf8ByteSize then .error .nameTooLong
      else tree.walk (location.child name) rest
    | some _ => .error .notADirectory

/-- The place where a path starts, if the path can be used at all. -/
def start (tree : FileTree) (path : Path) : Except FileFault Location :=
  if path.text.toList.contains '\x00' then .error .zeroInPath
  else if path.text = "" then .error .notFound
  else if greatestPath < path.text.utf8ByteSize then .error .nameTooLong
  else .ok (if path.isAbsolute then .root else tree.workingDirectory)

/-- The place of a path, whatever is there. -/
def locate (tree : FileTree) (path : Path) : Except FileFault Location := do
  let location ← tree.start path
  tree.walk location (path.names ++ if path.endsInSlash then ["."] else [])

/-- What is at a path. -/
def entryAt (tree : FileTree) (path : Path) : Except FileFault Entry := do
  let location ← tree.locate path
  match tree.entry? location with
  | none => .error .notFound
  | some entry => .ok entry

def isDirectory (tree : FileTree) (path : Path) : Bool :=
  match tree.entryAt path with
  | .ok .directory => true
  | _ => false

def isFile (tree : FileTree) (path : Path) : Bool :=
  match tree.entryAt path with
  | .ok (.file _) => true
  | _ => false

/-- What reading an entry yields. A single zero stands for the endless ones of a full device. -/
def contentOf : Entry → Except FileFault Bytes
  | .directory => .error .isADirectory
  | .file content => .ok content
  | .full => .ok [0]

/-- The text in the file at a path. -/
def readText (tree : FileTree) (path : Path) : Except FileFault String := do
  let entry ← tree.entryAt path
  let content ← contentOf entry
  match content.toString? with
  | none => .error .notText
  | some text => .ok text

/-- The place for a new entry at a path: its directory has to be there. A path that does not end
in a name is that of a directory. -/
def place (tree : FileTree) (path : Path) : Except FileFault (Option Location) := do
  let location ← tree.start path
  match path.names.getLast? with
  | none => .ok none
  | some name =>
    let directory ← tree.walk location path.names.dropLast
    let location ← tree.walk directory [name]
    .ok (if name = "." ∨ name = ".." then none else some location)

/-- Make an empty file at a path. A file that is there loses its contents. -/
def create (tree : FileTree) (path : Path) : Except FileFault (Location × FileTree) := do
  match ← tree.place path with
  | none => .error .isADirectory
  | some location =>
    if path.endsInSlash then .error .isADirectory
    else
      match tree.entry? location with
      | some .directory => .error .isADirectory
      | some .full => .ok (location, tree)
      | some (.file _) | none => .ok (location, tree.put location (.file []))

/-- Write pieces into the file just made at a place. -/
def write (tree : FileTree) (location : Location) (pieces : List Bytes) :
    FileTree × Option (Buffer.Stage × FileFault) :=
  let lengths := pieces.map List.length
  let overflow (room : Nat) (fault : FileFault) : Option (Buffer.Stage × FileFault) :=
    (Buffer.overflow? room 0 0 lengths).map fun stage => (stage, fault)
  match tree.entry? location, tree.limit with
  | some .full, _ => (tree, overflow 0 .noSpace)
  | _, none => (tree.put location (.file pieces.flatten), none)
  | _, some room =>
    (tree.put location (.file (pieces.flatten.take room)), overflow room .tooLarge)

/-- Make a directory at a path, in a directory that is there. -/
def makeDirectory (tree : FileTree) (path : Path) : Except FileFault FileTree := do
  match ← tree.place path with
  | none => .error .alreadyExists
  | some location =>
    match tree.entry? location with
    | some _ => .error .alreadyExists
    | none => .ok (tree.put location .directory)

/-- The tree with a directory at a path, which may be there already; the directory it is in has to
be there. -/
def ensureDirectory (tree : FileTree) (path : Path) : Except FileFault FileTree :=
  match tree.makeDirectory path with
  | .ok tree => .ok tree
  | .error fault => if tree.isDirectory path then .ok tree else .error fault

/-- Make a directory at a path, and first those it is in; `depth` bounds their number. -/
def makeDirectoriesWithin (tree : FileTree) (path : Path) :
    Nat → Except FileFault Unit × FileTree
  | 0 => (.error .notFound, tree)
  | depth + 1 =>
    if path.text = "" then (.ok (), tree)
    else
      match tree.ensureDirectory path, path.parent? with
      | .ok tree, _ => (.ok (), tree)
      | .error .notFound, some parent =>
        match tree.makeDirectoriesWithin parent depth with
        | (.error fault, tree) => (.error fault, tree)
        | (.ok (), tree) =>
          match tree.ensureDirectory path with
          | .ok tree => (.ok (), tree)
          | .error fault => (.error fault, tree)
      | .error fault, _ => (.error fault, tree)

/-- Make a directory at a path, and those it is in. Directories made before a failure stay. -/
def prepareDirectory (tree : FileTree) (path : Path) : Except FileFault Unit × FileTree :=
  tree.makeDirectoriesWithin path (path.text.length + 1)

/-- The tree with a directory at a path and those it is in, if they can be made. -/
def makeDirectories (tree : FileTree) (path : Path) : Except FileFault FileTree :=
  match tree.prepareDirectory path with
  | (.ok (), tree) => .ok tree
  | (.error fault, _) => .error fault

end FileTree

end Linearizability
