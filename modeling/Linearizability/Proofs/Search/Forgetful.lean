import Linearizability.Proofs.Search.Exactness

/-! # A search that remembers nothing

The memory of the search is not observable: a search that continues every set of operations from
every state as often as it comes up finds the same outcome and the same longest orders.
-/

namespace Linearizability

variable {S I O : Type} {n : Nat}

namespace Problem

/-- Visit the call of an operation: linearize it if that is legal, whether or not the set of
operations and the state it leads to have been met. -/
def visitAnew (problem : Problem S I O n) (c : Configuration n S) (place : Place n)
    (i : Fin n) : Configuration n S :=
  let operation := problem.operations.get i
  match problem.model.step c.state operation.input operation.output with
  | (false, _) => pass c place
  | (true, state) => problem.lift c place i state c.memo

variable {problem : Problem S I O n} {c : Configuration n S} {p : Place n}

theorem visitAnew_eq (problem : Problem S I O n) (c : Configuration n S) (p : Place n)
    (i : Fin n) : problem.visitAnew c p i =
      match problem.next? c.state i with
      | none => pass c p
      | some t => problem.lift c p i t c.memo := by
  rw [visitAnew, next?, Model.next?, Operation.exchange]
  rcases problem.model.step c.state (problem.operations.get i).input
    (problem.operations.get i).output with ⟨_ | _, t⟩
  · rfl
  · rfl

theorem turn_visitAnew (hc : c.cursor = some p)
    (hp : (problem.timeline.events.get p).phase = .call) :
    problem.Turn c (problem.visitAnew { c with visits := c.visits + 1 } p
      (problem.timeline.events.get p).op) := by
  rw [visitAnew_eq]
  cases ht : problem.next? c.state (problem.timeline.events.get p).op with
  | none => exact .pass hc hp (.inl ht)
  | some t => exact .choose hc hp ht fun set u hu => .inl hu

/-- A search finds the same whether or not it remembers what it has met, and it ends either way. -/
theorem search_eq_searchBy_visitAnew [DecidableEq S] (model : Model S I O)
    (operations : Vector (Operation I O) n) :
    ((of model operations).searchBy (of model operations).visitAnew fun _ => false).1 ≠ .aborted ∧
      (of model operations).search (fun _ => false) =
        (of model operations).searchBy (of model operations).visitAnew fun _ => false := by
  have hl : (of model operations).timeline.Lays (of model operations).operations :=
    Timeline.lays_of operations
  have ha := searchBy_of_forall_not_stop hl (follows_stepBy fun _ _ => turn_visitAnew)
    fun _ _ => rfl
  rw [ha, search_of_forall_not_stop hl fun _ _ => rfl]
  exact ⟨answer_ne_aborted _, rfl⟩

end Problem

end Linearizability
