import Linearizability.Model

/-! # Time lines

The calls and returns of a group of operations, in the order of time. Calls stand before returns
of the same time, so intervals that touch count as concurrent; ties beyond that keep the order of
the operations.
-/

namespace Linearizability

inductive Phase where
  | call
  | ret
  deriving DecidableEq

/-- The call or the return of one of `n` operations. -/
structure Event (n : Nat) where
  time : Timestamp
  phase : Phase
  op : Fin n
  deriving DecidableEq

/-- The order of events by time, with calls before returns. -/
def Event.notAfter {n : Nat} (a b : Event n) : Bool :=
  decide (a.time < b.time) || (a.time == b.time && (a.phase == .call || b.phase == .ret))

/-- A place on the time line of `n` operations. -/
abbrev Place (n : Nat) := Fin (2 * n)

structure Timeline (n : Nat) where
  events : Vector (Event n) (2 * n)
  /-- The place of the return of each operation. -/
  returnOf : Vector (Place n) n

namespace Timeline

variable {I O : Type} {n : Nat}

/-- Both events of every operation, operation by operation. -/
def eventsOf (operations : Vector (Operation I O) n) : List (Event n) :=
  (List.finRange n).flatMap fun i =>
    [⟨(operations.get i).call, .call, i⟩, ⟨(operations.get i).ret, .ret, i⟩]

theorem length_eventsOf (operations : Vector (Operation I O) n) :
    (eventsOf operations).length = 2 * n := by
  simp [eventsOf, List.length_flatMap, List.map_const', Nat.mul_comm]

def of (operations : Vector (Operation I O) n) : Timeline n :=
  let events : Vector (Event n) (2 * n) :=
    ⟨((eventsOf operations).mergeSort Event.notAfter).toArray, by
      simp [List.length_mergeSort, length_eventsOf]⟩
  { events
    returnOf := (List.finRange (2 * n)).foldl
      (fun places p =>
        let event := events.get p
        if event.phase = .ret then places.set event.op p event.op.isLt else places)
      (Vector.ofFn fun i => ⟨i, by omega⟩) }

end Timeline

end Linearizability
