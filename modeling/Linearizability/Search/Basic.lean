import Linearizability.Search.Links
import Linearizability.Search.Longest
import Linearizability.Search.Memo
import Linearizability.Search.Timeline
import Linearizability.Verdict

/-! # The search for a linearization

A depth-first walk along the time line of a group of operations. A call whose operation is legal
in the current state is linearized: the operation is taken off the time line, and the walk starts
again at its head. A return still on the time line means that the operations linearized so far
cannot be extended, so the last choice is undone. The group is linearizable if the walk reaches
the end of the time line. A set of operations is not continued twice from the same state.
-/

namespace Linearizability

variable {S I O : Type} {n : Nat}

/-- A group of operations to linearize, and the model they should follow. -/
structure Problem (S I O : Type) (n : Nat) where
  model : Model S I O
  operations : Vector (Operation I O) n
  timeline : Timeline n

/-- Where the search stands. -/
structure Configuration (n : Nat) (S : Type) where
  /-- The places on the time line that are not linearized. -/
  links : Links (2 * n)
  /-- The state after the operations linearized. -/
  state : S
  linearized : OperationSet n
  memo : Memo n S
  /-- The calls linearized, the last one first, each with the state before it. -/
  choices : List (Place n × S)
  /-- The operations linearized, in their order. -/
  order : Array (Fin n)
  longest : Longest n
  /-- The next place to visit. -/
  cursor : Option (Place n)
  /-- The number of places visited. -/
  visits : Nat

inductive Progress (n : Nat) (S : Type) where
  | searching (configuration : Configuration n S)
  | finished (outcome : Outcome) (longest : Longest n)

/-- The outcome and the longest orders linearized; a search that is cut off counts as aborted. -/
def Progress.result : Progress n S → Outcome × List (List (Fin n))
  | searching c => (.aborted, c.longest.toList)
  | finished outcome longest => (outcome, longest.toList)

namespace Problem

def of (model : Model S I O) (operations : Vector (Operation I O) n) : Problem S I O n :=
  ⟨model, operations, Timeline.of operations⟩

def start (problem : Problem S I O n) : Configuration n S :=
  let links := Links.all (2 * n)
  { links
    state := problem.model.init
    linearized := .empty
    memo := .empty
    choices := []
    order := #[]
    longest := .empty
    cursor := links.first
    visits := 0 }

/-- Leave a call where it is. -/
def pass (c : Configuration n S) (place : Place n) : Configuration n S :=
  { c with cursor := c.links.next.get place }

/-- Visit the call of an operation: linearize it if that is legal and leads to something new. -/
def visitCall [DecidableEq S] (problem : Problem S I O n) (c : Configuration n S)
    (place : Place n) (i : Fin n) : Configuration n S :=
  let operation := problem.operations.get i
  match problem.model.step c.state operation.input operation.output with
  | (false, _) => pass c place
  | (true, state) =>
    let linearized := c.linearized.insert i
    match c.memo.insertNew? linearized state with
    | none => pass c place
    | some memo =>
      let links := c.links.lift place (problem.timeline.returnOf.get i)
      { c with
        links
        state
        linearized
        memo
        choices := (place, c.state) :: c.choices
        order := c.order.push i
        cursor := links.first }

/-- Visit a return: undo the last choice, and go on behind its call. -/
def visitReturn (problem : Problem S I O n) (c : Configuration n S) : Progress n S :=
  let longest := c.longest.record c.order
  match c.choices with
  | [] => .finished .notLinearizable longest
  | (place, state) :: choices =>
    let i := (problem.timeline.events.get place).op
    let links := c.links.unlift place (problem.timeline.returnOf.get i)
    .searching
      { c with
        links
        state
        linearized := c.linearized.erase i
        choices
        order := c.order.pop
        longest
        cursor := links.next.get place }

/-- The number of visits between two looks at whether to stop. -/
def stopInterval : Nat := 256

/-- One step of the search. `stop` tells what a look at the given visit finds. -/
def step [DecidableEq S] (problem : Problem S I O n) (stop : Nat → Bool)
    (c : Configuration n S) : Progress n S :=
  match c.cursor with
  | none => .finished .linearizable (c.longest.record c.order)
  | some place =>
    let c := { c with visits := c.visits + 1 }
    if c.visits % stopInterval = 0 ∧ stop c.visits = true then .finished .aborted c.longest
    else
      let event := problem.timeline.events.get place
      match event.phase with
      | .call => .searching (problem.visitCall c place event.op)
      | .ret => problem.visitReturn c

/-- At most so many steps of the search. -/
def run [DecidableEq S] (problem : Problem S I O n) (stop : Nat → Bool) :
    Nat → Progress n S → Progress n S
  | 0, progress => progress
  | _ + 1, .finished outcome longest => .finished outcome longest
  | k + 1, .searching c => problem.run stop k (problem.step stop c)

/-- More steps than a search can take: the places of the choices and of the cursor, read as the
digits of a number, grow with every step. -/
def bound (n : Nat) : Nat := Nat.pow (2 * n + 2) (n + 1)

/-- The outcome of the search, and the longest orders it linearized. -/
def search [DecidableEq S] (problem : Problem S I O n) (stop : Nat → Bool) :
    Outcome × List (List (Fin n)) :=
  (problem.run stop (bound n) (.searching problem.start)).result

end Problem

end Linearizability
