import Linearizability.Check
import Linearizability.Config
import Linearizability.Page
import Linearizability.Report
import Linearizability.Store.Model
import Linearizability.Trace.File

/-! # Runs

A run loads histories, merges them if there are several, has the result checked, and writes the
page of the check. The page is a help only: that it cannot be written changes nothing else.
-/

namespace Linearizability

/-- What checks a history, with the number of seconds after which it should stop. -/
abbrev Engine (m : Type → Type) := List Record → Option UInt64 → m Conclusion

/-- The search, which never stops early. -/
def searchEngine : Engine Id := fun history _ => check Store.model history

/-- Why a run ends without a report. -/
inductive RunFault where
  | noInput
  | load (cause : Trace.LoadFault)
  | merge (cause : Trace.MergeFault)

def RunFault.message : RunFault → String
  | noInput => "no history files given"
  | load cause => cause.message
  | merge cause => cause.message

/-- The report on a history, and the file it was merged into, if it was merged. -/
structure Run where
  merged : Option Path
  report : Report
  deriving DecidableEq

namespace Config

/-- The path of the page for a history: that of the history with another extension, or in the
configured directory. -/
def pagePath (config : Config) (source : Path) : Path :=
  let directory := config.artifactDirectory.getD (source.parent?.getD ⟨""⟩)
  directory.join (source.fileStem?.getD "history" ++ ".html")

/-- Make the configured directory, if there is one. -/
def prepare (config : Config) (tree : FileTree) : Except FileFault Unit × FileTree :=
  match config.artifactDirectory with
  | none => (.ok (), tree)
  | some directory => tree.prepareDirectory directory

/-- Write a page at a path, after making the configured directory. -/
def writePage (config : Config) (tree : FileTree) (path : Path) (page : Page) :
    Except FileFault Unit × FileTree :=
  match config.prepare tree with
  | (.error fault, tree) => (.error fault, tree)
  | (.ok (), tree) =>
    match tree.create path with
    | .error fault => (.error fault, tree)
    | .ok (location, tree) =>
      match tree.write location [.ofString page.write] with
      | (tree, none) => (.ok (), tree)
      | (tree, some (_, fault)) => (.error fault, tree)

/-- Write the page for a history, if pages are wanted: the page, if all of it could be written. -/
def render (config : Config) (tree : FileTree) (source : Path) (history : History)
    (conclusion : Conclusion) : Option Path × FileTree :=
  if config.visualize then
    let path := config.pagePath source
    match config.writePage tree path (.of Store.model history conclusion.findings) with
    | (.ok (), tree) => (some path, tree)
    | (.error _, tree) => (none, tree)
  else (none, tree)

end Config

variable {m : Type → Type} [Monad m]

/-- Check a history from a file, and write its page. The engine is not asked about an empty
history. -/
def checkHistory (engine : Engine m) (config : Config) (history : History) (source : Path) :
    StateT FileTree m Report := do
  if history.isEmpty then
    return { path := source, page := none, verdict := .linearizable, operations := 0, longest := 0 }
  let conclusion ← engine history config.timeout
  let page ← modifyGet fun tree => config.render tree source history conclusion
  return {
    path := source
    page
    verdict := conclusion.verdict
    operations := history.length
    longest := conclusion.longestLength }

namespace Run

/-- The history in several files, or in one, with the path under which it is checked. -/
def gather (tree : FileTree) :
    List Path → Except RunFault (Option Path × History × Path) × FileTree
  | [] => (.error .noInput, tree)
  | [path] =>
    match Trace.load tree path with
    | .error cause => (.error (.load cause), tree)
    | .ok history => (.ok (none, history, path), tree)
  | paths =>
    match Trace.mergeFiles tree paths with
    | (.error cause, tree) => (.error (.merge cause), tree)
    | (.ok merged, tree) => (.ok (some merged.path, merged.history, merged.path), tree)

end Run

/-- Check the histories in the files at the given paths as one history. -/
def run (engine : Engine m) (config : Config) (paths : List Path) :
    StateT FileTree m (Except RunFault Run) := do
  match ← modifyGet fun tree => Run.gather tree paths with
  | .error fault => return .error fault
  | .ok (merged, history, source) =>
    let report ← checkHistory engine config history source
    return .ok ⟨merged, report⟩

end Linearizability
