/-! # Verdicts

The search over one group of operations ends in an outcome; the outcomes of all groups combine
into a verdict on the history.
-/

namespace Linearizability

/-- How the search over one group of operations ended. -/
inductive Outcome where
  | linearizable
  | notLinearizable
  /-- The search was stopped before it found an answer. -/
  | aborted
  deriving DecidableEq

inductive Verdict where
  | linearizable
  | notLinearizable
  | unknown
  deriving DecidableEq

namespace Verdict

/-- One refuted group refutes the history; otherwise a group without an answer leaves it open. -/
def combine (outcomes : List Outcome) : Verdict :=
  if .notLinearizable ∈ outcomes then .notLinearizable
  else if .aborted ∈ outcomes then .unknown
  else .linearizable

def isLinearizable (verdict : Verdict) : Bool := verdict == .linearizable

def text : Verdict → String
  | linearizable => "linearizable"
  | notLinearizable => "not linearizable"
  | unknown => "unknown"

end Verdict

/-- What the search found out about one group: the positions of its operations in the history, and
the longest orders it linearized, as positions in the history. -/
structure Finding where
  operations : List Nat
  partials : List (List Nat)
  outcome : Outcome
  deriving DecidableEq

namespace Finding

/-- The length of the longest order linearized, zero if there is none. -/
def longestLength (finding : Finding) : Nat :=
  (finding.partials.map List.length).foldl max 0

/-- The longest order linearized, the last one if several are equally long. -/
def longest? (finding : Finding) : Option (List Nat) :=
  finding.partials.foldl
    (fun best order =>
      match best with
      | none => some order
      | some longest => if longest.length ≤ order.length then some order else best)
    none

end Finding

/-- The answer to a check, with the findings on each group that support it. -/
structure Conclusion where
  verdict : Verdict
  findings : List Finding
  deriving DecidableEq

/-- The length of the longest order linearized in any group, zero if there is none. -/
def Conclusion.longestLength (conclusion : Conclusion) : Nat :=
  (conclusion.findings.map Finding.longestLength).foldl max 0

end Linearizability
