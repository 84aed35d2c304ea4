/-! # Paths

A path is a text in which slashes set names apart. Repeated slashes and dots between slashes are
passed over, but `..` is not resolved: what it means depends on the files.
-/

namespace Linearizability

structure Path where
  text : String
  deriving DecidableEq

namespace Path

/-- The parts of a text between slashes. -/
def segments : List Char → List (List Char)
  | [] => [[]]
  | c :: rest =>
    if c = '/' then [] :: segments rest
    else
      match segments rest with
      | [] => [[c]]
      | segment :: more => (c :: segment) :: more

/-- Whether a part between slashes is passed over. -/
def isBlank (segment : List Char) : Bool := segment == [] || segment == ['.']

/-- The root or the dot that a path may start with, and the rest of the path. -/
def split (cs : List Char) : List Char × List Char :=
  match cs with
  | '/' :: rest => (['/'], rest)
  | ['.'] => (['.'], [])
  | '.' :: '/' :: rest => (['.'], '/' :: rest)
  | _ => ([], cs)

/-- The parts behind the root, the last one first, without those at the end that are passed
over. -/
def trimmed (rest : List Char) : List (List Char) :=
  (segments rest).reverse.dropWhile isBlank

/-- What a path is in; the empty path and the root are in nothing. -/
def parent? (path : Path) : Option Path :=
  let (lead, rest) := split path.text.toList
  match trimmed rest with
  | _ :: above =>
    let kept := (above.dropWhile isBlank).reverse
    some ⟨String.ofList (lead ++ ['/'].intercalate kept)⟩
  | [] => if lead = ['.'] then some ⟨""⟩ else none

/-- The last name of a path, unless the path ends in `..`. -/
def fileName? (path : Path) : Option String :=
  match trimmed (split path.text.toList).2 with
  | [] => none
  | name :: _ => if name = ['.', '.'] then none else some (String.ofList name)

/-- The last name of a path without what follows its last dot; a dot at its front does not
count. -/
def fileStem? (path : Path) : Option String :=
  path.fileName?.map fun name =>
    let before := (name.toList.reverse.dropWhile (· != '.')).drop 1
    if before.isEmpty then name else String.ofList before.reverse

/-- A name in a directory; nothing stands in front of a name in the empty path. -/
def join (dir : Path) (name : String) : Path :=
  match dir.text.toList.getLast? with
  | none => ⟨name⟩
  | some '/' => ⟨dir.text ++ name⟩
  | some _ => ⟨dir.text ++ "/" ++ name⟩

/-- The names that lead from one directory to another place. -/
def names (path : Path) : List String :=
  ((segments path.text.toList).filter (· != [])).map String.ofList

def isAbsolute (path : Path) : Bool := path.text.toList.head? == some '/'

/-- Whether a path ends in a slash, so that it can only be that of a directory. -/
def endsInSlash (path : Path) : Bool := path.text.toList.getLast? == some '/'

end Path

end Linearizability
