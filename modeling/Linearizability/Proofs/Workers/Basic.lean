import Linearizability.Check
import Mathlib.Logic.Function.Basic

/-! # Workers

The groups of a history can be searched by several workers at the same time. A worker takes the
index of the next group from a counter that all workers share, searches the group, keeps what it
finds and comes back for more, until no group is left. Their steps interleave in any order. A
flag that any worker can raise stops all searches.
-/

namespace Linearizability

variable {S I O : Type}

/-- What is to be checked, and what can stop the searches. -/
structure Plan (S I O : Type) where
  model : Model S I O
  history : List (Operation I O)
  /-- Whether a refuted group stops the searches of the others. -/
  stopOnFailure : Bool
  /-- Whether there is a deadline. -/
  limited : Bool

/-- What the workers share. -/
structure Shared where
  /-- The index of the group to be taken next. -/
  next : Nat
  /-- The searches should stop. -/
  stopped : Bool

/-- What a worker can do, where there are `n` groups. -/
inductive Move (n : Nat) where
  | take (index : Fin n)
  | visit
  | keep (index : Fin n)
  | leave

def Move.taken? {n : Nat} : Move n → Option (Fin n)
  | take index => some index
  | visit | keep _ | leave => none

namespace Plan

def groups (plan : Plan S I O) : List (List Nat) := plan.model.partition plan.history

def positions (plan : Plan S I O) (index : Fin plan.groups.length) :
    List (Fin plan.history.toArray.size) :=
  positionsWithin _ (plan.groups.get index)

def problem (plan : Plan S I O) (index : Fin plan.groups.length) :
    Problem S I O (plan.positions index).length :=
  problemAt plan.model plan.history.toArray.toVector (plan.positions index).toArray.toVector

def finding (plan : Plan S I O) (index : Fin plan.groups.length) (outcome : Outcome)
    (longest : Longest (plan.positions index).length) : Finding :=
  .at (plan.positions index).toArray.toVector (outcome, longest.toList)

@[simp] theorem outcome_finding (plan : Plan S I O) (index : Fin plan.groups.length)
    (outcome : Outcome) (longest : Longest (plan.positions index).length) :
    (plan.finding index outcome longest).outcome = outcome := rfl

end Plan

inductive Activity (plan : Plan S I O) where
  /-- About to take a group. -/
  | idle
  /-- In the search of a group. -/
  | busy (index : Fin plan.groups.length) (progress : Progress (plan.positions index).length S)
  | gone

structure Worker (plan : Plan S I O) where
  activity : Activity plan
  /-- The findings of the worker on the groups it has searched. -/
  done : List (Fin plan.groups.length × Finding)

/-- A step of one worker, and what it does to what all share. -/
inductive Worker.Act [DecidableEq S] {plan : Plan S I O} (shared : Shared) :
    Worker plan → Move plan.groups.length → Shared → Worker plan → Prop where
  /-- Take a group. -/
  | take {done} (h : shared.next < plan.groups.length) :
      Act shared ⟨.idle, done⟩ (.take ⟨shared.next, h⟩) { shared with next := shared.next + 1 }
        ⟨.busy ⟨shared.next, h⟩ (.searching (plan.problem ⟨shared.next, h⟩).start), done⟩
  /-- Visit a place. A look at the flag may be too early to see it raised. -/
  | visit {done index c} (look : Bool) (seen : look = true → shared.stopped = true) :
      Act shared ⟨.busy index (.searching c), done⟩ .visit shared
        ⟨.busy index ((plan.problem index).step (fun _ => look) c), done⟩
  /-- Find that the deadline has passed. -/
  | expire {done index c} (limited : plan.limited = true) (cursor : c.cursor ≠ none)
      (look : (c.visits + 1) % Problem.stopInterval = 0) :
      Act shared ⟨.busy index (.searching c), done⟩ .visit { shared with stopped := true }
        ⟨.busy index ((plan.problem index).step (fun _ => true) c), done⟩
  /-- Keep what the search of a group has found. -/
  | keep {done index outcome longest} :
      Act shared ⟨.busy index (.finished outcome longest), done⟩ (.keep index)
        { shared with
          stopped := shared.stopped || (plan.stopOnFailure && outcome == .notLinearizable) }
        ⟨.idle, done ++ [(index, plan.finding index outcome longest)]⟩
  /-- Leave, since no group is left. -/
  | leave {done} (h : plan.groups.length ≤ shared.next) :
      Act shared ⟨.idle, done⟩ .leave { shared with next := shared.next + 1 } ⟨.gone, done⟩

structure Crew (plan : Plan S I O) (count : Nat) where
  shared : Shared
  workers : Fin count → Worker plan

namespace Crew

variable {plan : Plan S I O} {count : Nat}

def start (plan : Plan S I O) (count : Nat) : Crew plan count :=
  ⟨⟨0, false⟩, fun _ => ⟨.idle, []⟩⟩

def update (crew : Crew plan count) (i : Fin count) (shared : Shared) (worker : Worker plan) :
    Crew plan count :=
  ⟨shared, Function.update crew.workers i worker⟩

@[simp] theorem update_shared (crew : Crew plan count) (i : Fin count) (shared : Shared)
    (worker : Worker plan) : (crew.update i shared worker).shared = shared := rfl

@[simp] theorem update_workers_self (crew : Crew plan count) (i : Fin count) (shared : Shared)
    (worker : Worker plan) : (crew.update i shared worker).workers i = worker :=
  Function.update_self ..

theorem update_workers_of_ne (crew : Crew plan count) {i k : Fin count} (h : k ≠ i)
    (shared : Shared) (worker : Worker plan) :
    (crew.update i shared worker).workers k = crew.workers k :=
  Function.update_of_ne h ..

inductive Step [DecidableEq S] (crew : Crew plan count) :
    Move plan.groups.length → Crew plan count → Prop where
  | of (i : Fin count) {move : Move plan.groups.length} {shared : Shared} {worker : Worker plan}
      (act : Worker.Act crew.shared (crew.workers i) move shared worker) :
      Step crew move (crew.update i shared worker)

/-- The moves that lead from the start to a crew. -/
inductive Run [DecidableEq S] : List (Move plan.groups.length) → Crew plan count → Prop where
  | start : Run [] (start plan count)
  | step {moves crew move crew'} (run : Run moves crew) (step : crew.Step move crew') :
      Run (moves ++ [move]) crew'

def Ended [DecidableEq S] (crew : Crew plan count) : Prop := ∀ move crew', ¬ crew.Step move crew'

def results (crew : Crew plan count) : List (Fin plan.groups.length × Finding) :=
  ((List.finRange count).flatMap fun i => (crew.workers i).done).mergeSort (·.1 ≤ ·.1)

def conclusion (crew : Crew plan count) : Conclusion :=
  let findings := crew.results.map Prod.snd
  ⟨.combine (findings.map Finding.outcome), findings⟩

end Crew

end Linearizability
