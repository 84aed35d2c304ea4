import Linearizability.Search.Basic

/-! # Checking a history

The groups of a history are searched one after another.
-/

namespace Linearizability

variable {S I O : Type}

/-- What looks at the clock find: for each group and each visit, whether the deadline has
passed. -/
abbrev Clock := Nat → Nat → Bool

namespace Clock

/-- No deadline is ever reached. -/
def unlimited : Clock := fun _ _ => false

/-- The deadline has passed before the first look. -/
def expired : Clock := fun _ _ => true

end Clock

/-- The positions of a group that are positions of a history of `m` operations. -/
def positionsWithin (m : Nat) (group : List Nat) : List (Fin m) :=
  group.filterMap fun i => if h : i < m then some ⟨i, h⟩ else none

/-- The problem of linearizing the operations at some positions. -/
def problemAt {m n : Nat} (model : Model S I O) (history : Vector (Operation I O) m)
    (positions : Vector (Fin m) n) : Problem S I O n :=
  .of model (positions.map history.get)

/-- A result of the search over the operations at some positions, told in these positions. -/
def Finding.at {m n : Nat} (positions : Vector (Fin m) n)
    (result : Outcome × List (List (Fin n))) : Finding :=
  { operations := positions.toList.map Fin.val
    partials := result.2.map fun order => order.map fun i => (positions.get i).val
    outcome := result.1 }

/-- Search one group of a history for a linearization. -/
def findGroup {m : Nat} [DecidableEq S] (model : Model S I O) (history : Vector (Operation I O) m)
    (group : List Nat) (stop : Nat → Bool) : Finding :=
  let positions := (positionsWithin m group).toArray.toVector
  .at positions ((problemAt model history positions).search stop)

/-- Search groups one after another; `index` is that of the first of them. A deadline reached
stops the later groups too, and so does a refuted group if `stopOnFailure` is set. -/
def findGroups {m : Nat} [DecidableEq S] (model : Model S I O) (history : Vector (Operation I O) m)
    (clock : Clock) (stopOnFailure : Bool) (stopped : Bool) (index : Nat) :
    List (List Nat) → List Finding
  | [] => []
  | group :: rest =>
    let finding := findGroup model history group fun visit => stopped || clock index visit
    let stopped := stopped || finding.outcome == .aborted ||
      (stopOnFailure && finding.outcome == .notLinearizable)
    finding :: findGroups model history clock stopOnFailure stopped (index + 1) rest

/-- Check a history, group by group of the model's partition. -/
def check [DecidableEq S] (model : Model S I O) (history : List (Operation I O))
    (clock : Clock := .unlimited) (stopOnFailure : Bool := false) : Conclusion :=
  let findings := findGroups model history.toArray.toVector clock stopOnFailure false 0
    (model.partition history)
  ⟨.combine (findings.map Finding.outcome), findings⟩

end Linearizability
