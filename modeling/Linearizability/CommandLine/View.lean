import Linearizability.CommandLine.Grammar
import Linearizability.Viewer

/-! # The command that serves a page -/

namespace Linearizability.CommandLine

/-- The settings of the command; without a page they are not complete. -/
structure View where
  artifact : Option Path := none
  host : String := "127.0.0.1"
  port : UInt16 := 8080
  deriving DecidableEq

namespace View

def help : String := "Serve a kvlin report page

Usage: kvlin-server [OPTIONS] <ARTIFACT>

Arguments:
  <ARTIFACT>  Rendered report page

Options:
      --host <HOST>  Listen host [default: 127.0.0.1]
  -p, --port <PORT>  Listen port [default: 8080]
  -h, --help         Print help
"

def switches : List (Switch View) := [
  { name := "host", effect := .value fun host s => some { s with host } },
  { name := "port"
    letter := some 'p'
    effect := .value fun v s => (port? v).map fun port => { s with port } },
  { name := "help", letter := some 'h', effect := .help }]

/-- Take the page; there can be only one. -/
def argument (v : String) (settings : View) : Option View :=
  match settings.artifact with
  | some _ => none
  | none => (path? v).map fun path => { settings with artifact := some ⟨path⟩ }

def grammar : Grammar View where
  switches := switches
  argument := argument
  isComplete s := s.artifact.isSome

/-- The viewer that the settings describe. -/
def viewer? (settings : View) : Option Viewer :=
  settings.artifact.map fun artifact => { host := settings.host, port := settings.port, artifact }

end View

/-- Run the command that serves a page on its arguments, up to the point where the viewer is
run. -/
def view (tree : FileTree) (arguments : List String) : Output × Option Viewer :=
  match View.grammar.parse {} arguments with
  | .error stop => (stop.output View.help, none)
  | .ok settings =>
    match settings.viewer? with
    | none => (Stop.usage.output View.help, none)
    | some viewer =>
      match viewer.start tree with
      | .error fault => ({ stderr := s!"Error: {fault.message}\n", exit := 1 }, none)
      | .ok () =>
        let line := s!"Open {viewer.url} in your browser (Ctrl+C to stop)\n"
        ({ stdout := line, exit := 0 }, some viewer)

end Linearizability.CommandLine
