import Linearizability.CommandLine.Check
import Linearizability.CommandLine.View

/-! # The program

The program notes the files that a command may look at, runs the command on them, and writes the
files that have changed. It goes by the name of the command that serves pages, or checks histories.
-/

namespace Linearizability

namespace FileTree

/-- A place as the file system names it. -/
def nameOf (location : Location) : String := "/" ++ "/".intercalate location.names

/-- A tree of which only the working directory is known. -/
def unseen : IO FileTree := do
  let directory : Path := ⟨(← IO.currentDir).toString⟩
  return .empty ⟨directory.names⟩

/-- What the file system has at a place, if that is a directory or a file. -/
def observeAt (location : Location) : IO (Option Entry) := do
  let place := (← IO.currentDir) / nameOf location
  if ← place.isDir then return some .directory
  else if ← place.pathExists then
    return some (.file (← IO.FS.readBinFile place).data.toList)
  else return none

/-- Note what the file system has along names from a place. -/
def observeFrom (tree : FileTree) (location : Location) : List String → IO FileTree
  | [] => return tree
  | name :: rest => do
    if name = "." then tree.observeFrom location rest
    else if name = ".." then tree.observeFrom location.parent rest
    else
      let location := location.child name
      match ← observeAt location with
      | none => return tree
      | some entry => (tree.put location entry).observeFrom location rest

/-- Note what the file system has along a path. -/
def observe (tree : FileTree) (path : Path) : IO FileTree :=
  match tree.start path with
  | .error _ => return tree
  | .ok location => tree.observeFrom location path.names

/-- Make the file system agree with a tree, where the tree has changed. -/
def commit (before after : FileTree) : IO Unit := do
  for (location, entry) in after.entries do
    if before.entry? location != some entry then
      let place := (← IO.currentDir) / nameOf location
      match entry with
      | .directory => IO.FS.createDirAll place
      | .file content => IO.FS.writeBinFile place ⟨content.toArray⟩
      | .full => pure ()

end FileTree

/-- Go on with a search until it ends or a time in milliseconds has come. -/
partial def searchUntil {S I O : Type} [DecidableEq S] {n : Nat} (problem : Problem S I O n)
    (deadline : Option Nat) (progress : Progress n S) : IO (Progress n S) := do
  match progress with
  | .finished .. => return progress
  | .searching _ =>
    let progress := problem.run (fun _ => false) Problem.stopInterval progress
    let now ← IO.monoMsNow
    if deadline.any (· ≤ now) then return progress
    else searchUntil problem deadline progress

/-- The search, which stops when its time is over. -/
def timedEngine : Engine IO := fun history timeout => do
  let started ← IO.monoMsNow
  let deadline := timeout.map fun seconds => started + 1000 * seconds.toNat
  let operations := history.toArray.toVector
  let findings ← (Store.model.partition history).mapM fun group => do
    let positions := (positionsWithin _ group).toArray.toVector
    let problem := problemAt Store.model operations positions
    let progress ← searchUntil problem deadline (.searching problem.start)
    return Finding.at positions progress.result
  return ⟨.combine (findings.map Finding.outcome), findings⟩

namespace CommandLine

/-- Note the files that a check may look at. -/
def Check.observe (command : Check) : IO FileTree := do
  let merged := command.histories.head?.toList.map Trace.mergedPath
  let sources := command.histories ++ merged
  let tree ← (command.configuration.toList ++ sources).foldlM FileTree.observe (← FileTree.unseen)
  match command.config tree with
  | .error _ => return tree
  | .ok config =>
    (config.artifactDirectory.toList ++ sources.map config.pagePath).foldlM FileTree.observe tree

/-- Note the files that a command may look at. -/
def observe (serves : Bool) (arguments : List String) : IO FileTree := do
  if serves then
    match View.grammar.parse {} arguments with
    | .error _ => FileTree.unseen
    | .ok settings => settings.artifact.toList.foldlM FileTree.observe (← FileTree.unseen)
  else
    match Check.grammar.parse {} arguments with
    | .error _ => FileTree.unseen
    | .ok command => command.observe

end CommandLine

end Linearizability

open Linearizability CommandLine in
/-- Run the command that the program is called by. Pages are written, but not served. -/
def main (arguments : List String) : IO UInt32 := do
  let serves := (← IO.appPath).fileName == some "kvlin-server"
  let tree ← observe serves arguments
  let stdout ← IO.getStdout
  let ((output, viewer?), after) ←
    if serves then pure (view tree arguments, tree)
    else (check timedEngine (← stdout.isTty) arguments).run tree
  tree.commit after
  stdout.putStr output.stdout
  IO.eprint output.stderr
  match viewer? with
  | none => return output.exit.toUInt32
  | some viewer =>
    IO.eprintln s!"Error: nothing listens on {viewer.address}"
    return 1
