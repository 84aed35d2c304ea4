import Linearizability.Decimal.Digits
import Linearizability.Files.Path
import Linearizability.Verdict

/-! # Reports

What a check tells about a history. A check without an answer is never worded as a violation.
-/

namespace Linearizability

structure Report where
  /-- The file of the history. -/
  path : Path
  /-- The page written for the history, if there is one. -/
  page : Option Path
  verdict : Verdict
  operations : Nat
  /-- The length of the longest order linearized. -/
  longest : Nat
  deriving DecidableEq

namespace Verdict

def sentence : Verdict → String
  | linearizable => "History is linearizable"
  | notLinearizable => "History is NOT linearizable"
  | unknown => "Check was inconclusive (timed out)"

def marker : Verdict → String
  | linearizable => "✓"
  | notLinearizable => "✗"
  | unknown => "?"

end Verdict

namespace Report

def isLinearizable (report : Report) : Bool := report.verdict.isLinearizable

/-- Only a history shown to be linearizable counts as a success. -/
def exitCode (report : Report) : Nat := if report.isLinearizable then 0 else 1

def longestLine (report : Report) : List String :=
  if report.longest = 0 then []
  else
    let line := "Max partial linearization length: " ++ Decimal.ofNat report.longest
    if report.isLinearizable then [line]
    else [line ++ " (out of " ++ Decimal.ofNat report.operations ++ ")"]

def adviceLine (report : Report) : List String :=
  if report.verdict = .unknown then
    ["No violation was found before the deadline; raise --timeout to finish the search"]
  else []

def lines (report : Report) : List String :=
  [report.verdict.sentence, "Total operations: " ++ Decimal.ofNat report.operations] ++
    report.longestLine ++ report.adviceLine

/-- The report in one line. -/
def summary (report : Report) : String :=
  let name := report.path.fileName?.getD report.path.text
  let reached :=
    if report.isLinearizable = false ∧ 0 < report.longest then
      " (max partial: " ++ Decimal.ofNat report.longest ++ ")"
    else ""
  report.verdict.marker ++ " " ++ name ++ ": " ++ Decimal.ofNat report.operations ++ " ops" ++
    reached

end Report

end Linearizability
