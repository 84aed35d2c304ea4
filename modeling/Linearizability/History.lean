import Linearizability.Store.Record

/-! # Histories

A history is a list of records in any order. Histories of several clients are merged into one that
is in the order of calls.
-/

namespace Linearizability

abbrev History := List Record

namespace History

/-- Records in the order of their calls; records called at the same time keep their order. -/
def sortByCall (history : History) : History :=
  history.mergeSort fun a b => decide (a.call ≤ b.call)

/-- Whether no record is called before the one in front of it. -/
def isSortedByCall : History → Bool
  | a :: b :: rest => decide (a.call ≤ b.call) && isSortedByCall (b :: rest)
  | _ => true

/-- The clients that occur, each once and in the order of their numbers. -/
def clients (history : History) : List Client :=
  (history.map (·.client)).eraseDups.mergeSort fun a b => decide (a.id ≤ b.id)

/-- One history in the order of calls. Records called at the same time stay in the order of their
histories, and in their order within a history. -/
def merge (histories : List History) : History := sortByCall histories.flatten

/-- The first record that returns before it is called, with its position. -/
def firstInverted? (history : History) : Option (Nat × Interval.Inverted) :=
  history.zipIdx.findSome? fun (record, i) =>
    match record.interval with
    | .error fault => some (i, fault)
    | .ok _ => none

end History

end Linearizability
