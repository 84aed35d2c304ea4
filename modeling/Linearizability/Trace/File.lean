import Linearizability.Files.Tree
import Linearizability.History
import Linearizability.Trace.Format

/-! # Trace files

A trace file holds a history as the JSON list of its records.
-/

namespace Linearizability

open Json

namespace History

def toJson (history : History) : Value := .list (history.map Record.toJson)

def decoder : Decoder History := Decoder.listOf Record.decoder

end History

namespace Trace

/-- Why a history cannot be loaded. -/
inductive LoadFault where
  /-- The file cannot be opened. -/
  | unopened (path : Path) (cause : FileFault)
  | unread (path : Path) (cause : FileFault)
  | unparsed (path : Path) (cause : Fault)
  /-- The record at an index returns before it is called. -/
  | inverted (path : Path) (index : Nat) (cause : Interval.Inverted)

def LoadFault.message : LoadFault → String
  | unopened path cause => "error reading " ++ path.text ++ ": " ++ cause.message
  | unread path cause => "error parsing " ++ path.text ++ ": " ++ cause.message
  | unparsed path cause => "error parsing " ++ path.text ++ ": " ++ cause.message
  | inverted path index cause =>
    "invalid record " ++ Decimal.ofNat index ++ " in " ++ path.text ++ ": " ++ cause.message

/-- The history that a text holds, at a path. -/
def parse (path : Path) (text : Bytes) : Except LoadFault History :=
  match decode History.decoder text with
  | .error cause => .error (.unparsed path cause)
  | .ok history =>
    match history.firstInverted? with
    | some (index, cause) => .error (.inverted path index cause)
    | none => .ok history

/-- The history in the trace file at a path, in the order of the file. -/
def load (tree : FileTree) (path : Path) : Except LoadFault History :=
  match tree.entryAt path with
  | .error cause => .error (.unopened path cause)
  | .ok entry =>
    match FileTree.contentOf entry with
    | .error cause => .error (.unread path cause)
    | .ok text => parse path text

/-- The histories in several trace files; the first one that cannot be loaded stops it. -/
def loadAll (tree : FileTree) : List Path → Except LoadFault (List History)
  | [] => .ok []
  | path :: rest =>
    match load tree path with
    | .error fault => .error fault
    | .ok history => (loadAll tree rest).map (history :: ·)

/-- Why a history cannot be written. -/
inductive WriteFault where
  /-- The file cannot be made, or its last bytes do not get into it. -/
  | unwritten (path : Path) (cause : FileFault)
  /-- The file does not take all of the text while it is printed. -/
  | unprinted (path : Path) (cause : FileFault)

def WriteFault.message : WriteFault → String
  | unwritten path cause => "error writing " ++ path.text ++ ": " ++ cause.message
  | unprinted path cause =>
    "error serializing history for " ++ path.text ++ ": " ++ cause.message

/-- Write a history to a trace file, whether its records are valid or not. -/
def write (tree : FileTree) (path : Path) (history : History) :
    Except WriteFault Unit × FileTree :=
  match tree.create path with
  | .error cause => (.error (.unwritten path cause), tree)
  | .ok (location, tree) =>
    match tree.write location (history.toJson.pieces .pretty 0) with
    | (tree, none) => (.ok (), tree)
    | (tree, some (.flushing, cause)) => (.error (.unwritten path cause), tree)
    | (tree, some (.writing, cause)) => (.error (.unprinted path cause), tree)

inductive MergeFault where
  | tooFewInputs (count : Nat)
  | load (cause : LoadFault)
  | write (cause : WriteFault)

def MergeFault.message : MergeFault → String
  | tooFewInputs count => "merge needs at least 2 histories, got " ++ Decimal.ofNat count
  | load cause => cause.message
  | write cause => cause.message

/-- A history merged from trace files, and the file it was written to. -/
structure Merged where
  path : Path
  history : History
  sources : Nat

def mergedName : String := "merged-history.json"

/-- The merged history goes next to the first of the files it is merged from. -/
def mergedPath (first : Path) : Path :=
  match first.parent? with
  | none => ⟨mergedName⟩
  | some dir => dir.join mergedName

/-- Merge trace files into one. Nothing is written unless all of them can be loaded. -/
def mergeFiles (tree : FileTree) (paths : List Path) : Except MergeFault Merged × FileTree :=
  match paths with
  | first :: _ :: _ =>
    match loadAll tree paths with
    | .error cause => (.error (.load cause), tree)
    | .ok histories =>
      let history := History.merge histories
      let path := mergedPath first
      match write tree path history with
      | (.error cause, tree) => (.error (.write cause), tree)
      | (.ok (), tree) => (.ok ⟨path, history, paths.length⟩, tree)
  | _ => (.error (.tooFewInputs paths.length), tree)

end Trace

end Linearizability
