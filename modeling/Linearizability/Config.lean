import Linearizability.Files.Tree
import Linearizability.Json.Decoder
import Linearizability.Json.Printer

/-! # Check configurations

A configuration file is a JSON object. Members that it leaves out have their default values.
-/

namespace Linearizability

open Json Json.Reader Json.Decoder

structure Config where
  /-- The number of seconds a search may take; zero stands for any number. -/
  timeoutSeconds : UInt64 := 30
  /-- Whether to write a page for the history. -/
  visualize : Bool := true
  /-- The directory of the page, instead of that of the history. -/
  artifactDirectory : Option Path := none
  deriving DecidableEq

namespace Config

/-- The number of seconds after which a search is stopped, if it is. -/
def timeout (config : Config) : Option UInt64 :=
  if config.timeoutSeconds = 0 then none else some config.timeoutSeconds

def toJson (config : Config) : Value :=
  .object [("timeout_secs", .number (.integer config.timeoutSeconds.toNat)),
    ("visualize", .flag config.visualize),
    ("artifact_dir", (config.artifactDirectory.map fun dir => Value.text dir.text).getD .null)]

def directoryDecoder : Decoder (Option Path) :=
  nullable fun depth => Path.mk <$> textAs .path depth

def ofList : Decoder Config := fun depth => do
  let standard : Config := {}
  let timeoutSeconds ← elementOr true standard.timeoutSeconds (uint64 depth)
  let visualize ← elementOr false standard.visualize (flag depth)
  let artifactDirectory ← elementOr false standard.artifactDirectory (directoryDecoder depth)
  endList
  pure { timeoutSeconds, visualize, artifactDirectory }

/-- The members that are known. -/
structure Known where
  timeoutSeconds : Option UInt64 := none
  visualize : Option Bool := none
  artifactDirectory : Option (Option Path) := none

def member (depth : Nat) (key : String) (known : Known) : Reader Known := do
  match key with
  | "timeout_secs" =>
    let timeoutSeconds ← once key known.timeoutSeconds (uint64 depth)
    pure { known with timeoutSeconds }
  | "visualize" =>
    let visualize ← once key known.visualize (flag depth)
    pure { known with visualize }
  | "artifact_dir" =>
    let artifactDirectory ← once key known.artifactDirectory (directoryDecoder depth)
    pure { known with artifactDirectory }
  | _ =>
    ignored
    pure known

def ofObject : Decoder Config := fun depth => do
  let standard : Config := {}
  let known ← members (member depth) {}
  pure
    { timeoutSeconds := known.timeoutSeconds.getD standard.timeoutSeconds
      visualize := known.visualize.getD standard.visualize
      artifactDirectory := known.artifactDirectory.getD standard.artifactDirectory }

def decoder : Decoder Config := container (.struct "CheckConfig") ofList ofObject

/-- Why a configuration cannot be loaded. -/
inductive LoadFault where
  | unread (path : Path) (cause : FileFault)
  | unparsed (path : Path) (cause : Fault)

def LoadFault.message : LoadFault → String
  | unread path cause => "failed to read config " ++ path.text ++ ": " ++ cause.message
  | unparsed path cause => "invalid config " ++ path.text ++ ": " ++ cause.message

/-- The configuration in the file at a path. -/
def load (tree : FileTree) (path : Path) : Except LoadFault Config :=
  match tree.readText path with
  | .error cause => .error (.unread path cause)
  | .ok text =>
    match decode decoder (.ofString text) with
    | .error cause => .error (.unparsed path cause)
    | .ok config => .ok config

end Config

end Linearizability
