import Linearizability.Bytes
import Linearizability.Html
import Linearizability.Model
import Linearizability.Verdict

/-! # The page of a check

The page shows the operations of each group, and the states along the longest order that the
search linearized. It stands on its own, without scripts.
-/

namespace Linearizability

/-- An operation of a group. -/
structure OperationRow where
  index : Nat
  client : Client
  call : Timestamp
  ret : Timestamp
  description : String
  /-- Whether the longest order linearized contains the operation. -/
  linearized : Bool

/-- A step of the longest order linearized. -/
structure ReplayRow where
  step : Nat
  index : Nat
  description : String
  /-- The state after the step. -/
  state : String

/-- What a page shows of one group. -/
structure GroupSection where
  index : Nat
  outcome : Outcome
  operations : List OperationRow
  /-- The length of the longest order linearized, and the number of operations. -/
  longest : Nat
  total : Nat
  initial : String
  replay : List ReplayRow

structure Page where
  operations : Nat
  longest : Nat
  sections : List GroupSection

namespace Page

variable {S I O : Type}

def operationRows (model : Model S I O) (history : Array (Operation I O)) (longest : List Nat)
    (indices : List Nat) : List OperationRow :=
  indices.filterMap fun index =>
    history[index]?.map fun operation =>
      { index
        client := operation.client
        call := operation.call
        ret := operation.ret
        description := model.describeOperation operation.input operation.output
        linearized := longest.contains index }

/-- The states along an order, up to the first operation that is not in the history or not
legal. -/
def replayRows (model : Model S I O) (history : Array (Operation I O)) (step : Nat) (s : S) :
    List Nat → List ReplayRow
  | [] => []
  | index :: rest =>
    match history[index]? with
    | none => []
    | some operation =>
      match model.step s operation.input operation.output with
      | (false, _) => []
      | (true, t) =>
        { step
          index
          description := model.describeOperation operation.input operation.output
          state := model.describeState t } :: replayRows model history (step + 1) t rest

def sectionOf (model : Model S I O) (history : Array (Operation I O)) (index : Nat)
    (finding : Finding) : GroupSection :=
  let longest := finding.longest?.getD []
  { index
    outcome := finding.outcome
    operations := operationRows model history longest finding.operations
    longest := longest.length
    total := finding.operations.length
    initial := model.describeState model.init
    replay := replayRows model history 1 model.init longest }

/-- What to show of a check. -/
def of (model : Model S I O) (history : List (Operation I O)) (findings : List Finding) : Page :=
  { operations := history.length
    longest := (findings.map Finding.longestLength).foldl max 0
    sections := findings.mapIdx (sectionOf model history.toArray) }

open Html

def style : String :=
  "body\x7bfont-family:system-ui,sans-serif;margin:2em;color:#222\x7d" ++
  "table\x7bborder-collapse:collapse;margin:0.5em 0 1.5em\x7d" ++
  "th,td\x7bborder:1px solid #ccc;padding:2px 8px;text-align:left;font-family:monospace\x7d" ++
  "th\x7bbackground:#f3f3f3\x7d" ++
  "tr.linearized td\x7bbackground:#eef8ee\x7d" ++
  ".ok\x7bcolor:#2a7a2a\x7d.fail\x7bcolor:#b22\x7d.aborted\x7bcolor:#a67400\x7d"

/-- The class and the label of an outcome. -/
def outcomeLabel : Outcome → String × String
  | .linearizable => ("ok", "linearizable")
  | .notLinearizable => ("fail", "not linearizable")
  | .aborted => ("aborted", "aborted")

def OperationRow.write (operation : OperationRow) : List Html :=
  row (if operation.linearized then "tr class=\"linearized\"" else "tr") "td"
    [Decimal.ofNat operation.index, operation.client.name, operation.call.text,
      operation.ret.text, operation.description]

def ReplayRow.write (replayed : ReplayRow) : List Html :=
  row "tr" "td" [Decimal.ofNat replayed.step, Decimal.ofNat replayed.index,
    replayed.description, replayed.state]

/-- The heading of a table stands on the line of its opening tag. -/
def tableHead (titles : List String) : List Html := tag "table" :: row "tr" "th" titles

def GroupSection.write (s : GroupSection) : List Html :=
  let (kind, label) := outcomeLabel s.outcome
  line (element "h2" ([text ("Partition " ++ Decimal.ofNat s.index ++ " "),
    tag ("span class=\"" ++ kind ++ "\""), text label, tag "/span"])) ++
  tableHead ["#", "client", "call", "return", "operation"] ++
  s.operations.flatMap OperationRow.write ++
  line [tag "/table"] ++
  line (element "h3" [text ("Longest partial linearization (" ++ Decimal.ofNat s.longest ++
    " of " ++ Decimal.ofNat s.total ++ ")")]) ++
  tableHead ["step", "#", "operation", "state after"] ++
  row "tr" "td" ["", "", "(initial)", s.initial] ++
  s.replay.flatMap ReplayRow.write ++
  line [tag "/table"]

def html (page : Page) : List Html :=
  line [tag "!DOCTYPE html"] ++
  line [tag "html", tag "head", tag "meta charset=\"utf-8\""] ++
  line (element "title" [text "kvlin linearizability report"]) ++
  line (element "style" [text style] ++ [tag "/head", tag "body"]) ++
  line (element "h1" [text "Linearizability report"]) ++
  line (element "p" [text (Decimal.ofNat page.operations ++ " operations in " ++
    Decimal.ofNat page.sections.length ++ " partitions; longest partial linearization: " ++
    Decimal.ofNat page.longest)]) ++
  page.sections.flatMap GroupSection.write ++
  line [tag "/body", tag "/html"]

/-- The text of a page. -/
def write (page : Page) : String := writeAll page.html

end Page

/-- Something that takes the bytes of a page. -/
structure Sink where
  /-- The number of bytes that it takes, if that is limited, and how more of them fail. -/
  room : Option (Nat × String) := none
  /-- How its flush fails, if it does. -/
  flushFailure : Option String := none

namespace Sink

/-- The bytes that a sink takes, and how it fails on them, if it does. -/
def accept (sink : Sink) (bytes : Bytes) : Bytes × Option String :=
  match sink.room with
  | none => (bytes, sink.flushFailure)
  | some (room, failure) =>
    if bytes.length ≤ room then (bytes, sink.flushFailure) else (bytes.take room, some failure)

/-- The message about a page that could not be written. -/
def failureMessage (cause : String) : String := "failed to write visualization: " ++ cause

end Sink

end Linearizability
