import Linearizability.Files.Tree
import Linearizability.Json.Decoder
import Linearizability.Json.Printer

/-! # Viewers

A viewer answers requests with a page, which it reads anew from its file for every request.
-/

namespace Linearizability

open Json Json.Reader Json.Decoder

/-- Where a page can be viewed, and the file that holds it. -/
structure Viewer where
  host : String := "127.0.0.1"
  port : UInt16 := 8080
  artifact : Path
  deriving DecidableEq

/-- There is no page to view. -/
structure Viewer.Missing where
  artifact : Path
  deriving DecidableEq

def Viewer.Missing.message (fault : Missing) : String :=
  "artifact not found: " ++ fault.artifact.text

/-- The answer to a request. -/
structure Viewer.Answer where
  status : Nat
  contentType : Option String
  /-- The methods that would have been answered with a page. -/
  allow : Option String
  body : String
  deriving DecidableEq

namespace Viewer

def address (viewer : Viewer) : String :=
  viewer.host ++ ":" ++ Decimal.ofNat viewer.port.toNat

def url (viewer : Viewer) : String := "http://" ++ viewer.address

def toJson (viewer : Viewer) : Value :=
  .object [("host", .text viewer.host), ("port", .number (.integer viewer.port.toNat)),
    ("artifact", .text viewer.artifact.text)]

def pathDecoder : Decoder Path := fun depth => Path.mk <$> textAs .path depth

def ofList : Decoder Viewer := fun depth => do
  let extent := .struct "ServerConfig" 3
  let host ← elementAt 0 extent (text depth)
  let port ← elementAt 1 extent (uint16 depth)
  let artifact ← elementAt 2 extent (pathDecoder depth)
  endList
  pure { host, port, artifact }

/-- The members that are known. -/
structure Known where
  host : Option String := none
  port : Option UInt16 := none
  artifact : Option Path := none

def member (depth : Nat) (key : String) (known : Known) : Reader Known := do
  match key with
  | "host" =>
    let host ← once key known.host (text depth)
    pure { known with host }
  | "port" =>
    let port ← once key known.port (uint16 depth)
    pure { known with port }
  | "artifact" =>
    let artifact ← once key known.artifact (pathDecoder depth)
    pure { known with artifact }
  | _ =>
    ignored
    pure known

def ofObject : Decoder Viewer := fun depth => do
  let known ← members (member depth) {}
  let host ← required "host" known.host
  let port ← required "port" known.port
  let artifact ← required "artifact" known.artifact
  pure { host, port, artifact }

/-- Nothing may be left out of the decoded viewer. -/
def decoder : Decoder Viewer := container (.struct "ServerConfig") ofList ofObject

/-- A viewer can only be started on a file. -/
def start (viewer : Viewer) (tree : FileTree) : Except Missing Unit :=
  if tree.isFile viewer.artifact then .ok () else .error ⟨viewer.artifact⟩

/-- The path that the target of a request names, without its query. A target is such a path, a
whole address, or the name of a host, which has no path. -/
def pathOf (target : String) : String :=
  match target.toList with
  | '/' :: rest => String.ofList ('/' :: beforeQuery rest)
  | ['*'] => "*"
  | cs => absolute cs
where
  beforeQuery (cs : List Char) : List Char := cs.takeWhile fun c => c != '?' && c != '#'
  /-- The path of an address; it is at least a slash. -/
  absolute : List Char → String
    | [] => ""
    | ':' :: '/' :: '/' :: rest =>
      let path := (beforeQuery rest).dropWhile (· != '/')
      if path.isEmpty then "/" else String.ofList path
    | _ :: rest => absolute rest

/-- The answer with the page, or with the reason why it cannot be read. -/
def page (viewer : Viewer) (tree : FileTree) : Answer :=
  match tree.readText viewer.artifact with
  | .ok content => ⟨200, some "text/html; charset=utf-8", none, content⟩
  | .error fault =>
    ⟨500, some "text/plain; charset=utf-8", none,
      "failed to read " ++ viewer.artifact.text ++ ": " ++ fault.message⟩

/-- Whether a request gets the answer without its body: a HEAD always, a CONNECT if it succeeds. -/
def isBodiless (method : String) (answer : Answer) : Bool :=
  method == "HEAD" || (method == "CONNECT" && answer.status == 200)

/-- Answer a request. Every path has the page; at the root, only reading is answered. -/
def respond (viewer : Viewer) (tree : FileTree) (method target : String) : Answer :=
  if pathOf target = "/" ∧ method ≠ "GET" ∧ method ≠ "HEAD" then
    ⟨405, none, some "GET,HEAD", ""⟩
  else
    let answer := viewer.page tree
    if isBodiless method answer then { answer with body := "" } else answer

end Viewer

end Linearizability
