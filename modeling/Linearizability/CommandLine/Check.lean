import Linearizability.CommandLine.Grammar
import Linearizability.Files.Path
import Linearizability.Run
import Linearizability.Text.Styled
import Linearizability.Viewer

/-! # The command that checks histories -/

namespace Linearizability.CommandLine

open Text

/-- The settings of the command. -/
structure Check where
  histories : List Path := []
  serve : Bool := false
  port : UInt16 := 8080
  timeoutSeconds : Option UInt64 := none
  visualize : Bool := true
  configuration : Option Path := none
  verbose : Bool := false
  deriving DecidableEq

namespace Check

def help : String := "Linearizability checker for key-value store histories

Usage: kvlin [OPTIONS] <HISTORY>...

Arguments:
  <HISTORY>...  History files; more than one are merged before checking

Options:
      --serve           Serve the rendered report after checking
      --port <PORT>     Port for the report server [default: 8080]
      --timeout <SECS>  Search deadline in seconds (0 = none)
      --no-visualize    Skip rendering the HTML report
      --config <FILE>   JSON check configuration; flags override its values
  -v, --verbose         Debug logging
  -h, --help            Print help
"

def switches : List (Switch Check) := [
  { name := "serve", effect := .flag fun s => { s with serve := true } },
  { name := "port", effect := .value fun v s => (port? v).map fun port => { s with port } },
  { name := "timeout"
    effect := .value fun v s => (uint64? v).map fun t => { s with timeoutSeconds := some t } },
  { name := "no-visualize", effect := .flag fun s => { s with visualize := false } },
  { name := "config"
    effect := .value fun v s => (path? v).map fun path => { s with configuration := some ⟨path⟩ } },
  { name := "verbose", letter := some 'v', effect := .flag fun s => { s with verbose := true } },
  { name := "help", letter := some 'h', effect := .help }]

def grammar : Grammar Check where
  switches := switches
  argument v s := (path? v).map fun path => { s with histories := s.histories ++ [⟨path⟩] }
  isComplete s := !s.histories.isEmpty

/-- The configuration: that of the file, if there is one, as far as no option overrides it. -/
def config (command : Check) (tree : FileTree) : Except Config.LoadFault Config := do
  let config ←
    match command.configuration with
    | none => pure {}
    | some path => Config.load tree path
  return { config with
    timeoutSeconds := command.timeoutSeconds.getD config.timeoutSeconds
    visualize := command.visualize && config.visualize }

def colourOf : Verdict → Colour
  | .linearizable => .green
  | .notLinearizable => .red
  | .unknown => .yellow

def mergedLines (command : Check) (run : Run) : List Line :=
  run.merged.toList.map fun path =>
    .painted .green s!"Merged {Decimal.ofNat command.histories.length} histories into {path.text}"

def pageLines (report : Report) : List Line :=
  match report.page with
  | some page => [.plain s!"  Report: {page.text}"]
  | none =>
    if 0 < report.operations then [.indent (.painted .yellow "Report unavailable")] else []

/-- What is to be done with the page. -/
def closingLines (command : Check) (report : Report) : List Line :=
  match report.page, command.serve with
  | some page, false =>
    [.plain "", .painted .blue s!"Open {page.text} in your browser to view the report"]
  | none, true =>
    [.plain "", .painted .yellow "No report was rendered, nothing to serve"]
  | _, _ => []

def lines (command : Check) (run : Run) : List Line :=
  let report := run.report
  let colour := colourOf report.verdict
  command.mergedLines run ++
    [.plain "", .painted .cyan s!"Checked {report.path.text}"] ++
    (report.lines.map fun line => (Line.painted colour line).indent) ++
    pageLines report ++
    [.plain "", .bold .blue "Summary", .painted colour report.summary] ++
    command.closingLines report

/-- The viewer that is to be run on the page when all has been printed. -/
def viewer? (command : Check) (run : Run) : Option Viewer :=
  if command.serve then
    run.report.page.map fun artifact => { port := command.port, artifact }
  else none

variable {m : Type → Type} [Monad m]

/-- Run the command with its settings. -/
def execute (engine : Engine m) (coloured : Bool) (command : Check) :
    StateT FileTree m (Output × Option Viewer) := do
  let failed (message : String) : Output × Option Viewer :=
    ({ stderr := s!"Error: {message}\n", exit := 1 }, none)
  match command.config (← get) with
  | .error fault => return failed fault.message
  | .ok config =>
    match ← run engine config command.histories with
    | .error fault => return failed fault.message
    | .ok run =>
      let output : Output :=
        { stdout := writeLines coloured (command.lines run), exit := run.report.exitCode }
      return (output, command.viewer? run)

end Check

/-- Run the command that checks histories on its arguments. -/
def check {m : Type → Type} [Monad m] (engine : Engine m) (coloured : Bool)
    (arguments : List String) : StateT FileTree m (Output × Option Viewer) :=
  match Check.grammar.parse {} arguments with
  | .error stop => return (stop.output Check.help, none)
  | .ok command => command.execute engine coloured

end Linearizability.CommandLine
