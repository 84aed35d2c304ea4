import Linearizability.Client
import Linearizability.Time

/-! # Sequential models

A model describes an object by what it does when operations are applied to it one at a time.
-/

namespace Linearizability

/-- One completed operation of a concurrent history: what a client asked, what it observed, and
the times of its call and of its return. -/
structure Operation (I O : Type) where
  client : Client
  input : I
  call : Timestamp
  output : O
  ret : Timestamp
  deriving DecidableEq

structure Model (S I O : Type) where
  /-- The state before any operation. -/
  init : S
  /-- Whether the output is a legal answer to the input in this state, and the state after it. -/
  step : S → I → O → Bool × S
  /-- Groups of positions that may be checked independently of each other; one group unless the
  model knows better. -/
  partition : List (Operation I O) → List (List Nat) := fun history => [List.range history.length]
  describeOperation : I → O → String
  describeState : S → String

namespace Model

variable {S I O : Type}

/-- Apply operations one after another from a state; `position` is that of the first of them. An
illegal one stops the replay at its position. -/
def replayFrom (model : Model S I O) (position : Nat) (s : S) : List (I × O) → Except Nat S
  | [] => .ok s
  | (i, o) :: rest =>
    match model.step s i o with
    | (true, t) => model.replayFrom (position + 1) t rest
    | (false, _) => .error position

/-- Replay operations from the initial state: the final state, or the position of the first
illegal operation. -/
def replay (model : Model S I O) (steps : List (I × O)) : Except Nat S :=
  model.replayFrom 0 model.init steps

end Model

end Linearizability
