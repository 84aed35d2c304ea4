import Linearizability.Check
import Linearizability.Proofs.Search.Exactness

/-! # What a check says

With no deadline a check finds a history linearizable if the operations of every group are, and
refutes it otherwise. A refuted group may stop the groups behind it, which changes nothing.
-/

namespace Linearizability

namespace Verdict

variable {outcomes : List Outcome}

theorem combine_of_mem (h : .notLinearizable ∈ outcomes) : combine outcomes = .notLinearizable :=
  if_pos h

theorem combine_of_forall (h : ∀ outcome ∈ outcomes, outcome = .linearizable) :
    combine outcomes = .linearizable := by
  have hn : .notLinearizable ∉ outcomes := fun hm => nomatch h _ hm
  have ha : .aborted ∉ outcomes := fun hm => nomatch h _ hm
  rw [combine, if_neg hn, if_neg ha]

end Verdict

variable {S I O : Type} {m : Nat}

theorem toList_map_positionsWithin (history : Vector (Operation I O) m) (group : List Nat) :
    ((positionsWithin m group).toArray.toVector.map history.get).toList =
      operationsAt history.toList group := by
  have hget : ∀ i, (if h : i < m then some (⟨i, h⟩ : Fin m) else none).map history.get =
      history.toList[i]? := by
    intro i
    by_cases h : i < m
    · simp [h, Vector.get]
    · simp [h]
  simp [positionsWithin, operationsAt, List.map_filterMap, hget]

variable [DecidableEq S]

theorem outcome_findGroup (model : Model S I O) (history : Vector (Operation I O) m)
    (group : List Nat) {stop : Nat → Bool} (hs : ∀ k, stop k = false) :
    (findGroup model history group stop).outcome = .linearizable ∧
        Linearizable model (operationsAt history.toList group) ∨
      (findGroup model history group stop).outcome = .notLinearizable ∧
        ¬ Linearizable model (operationsAt history.toList group) := by
  have ho : (findGroup model history group stop).outcome =
      (Problem.of model
        ((positionsWithin m group).toArray.toVector.map history.get)).answer.1 :=
    congrArg Prod.fst (Problem.search_of_forall_not_stop (Timeline.lays_of _) fun k _ => hs k)
  rw [ho, ← toList_map_positionsWithin, Problem.answer_eq_linearizable_iff,
    Problem.answer_eq_notLinearizable_iff, and_self, and_self]
  exact Classical.em _

section FindGroups

variable (model : Model S I O) (history : Vector (Operation I O) m) (stopOnFailure : Bool)

theorem findGroups_cons_of_linearizable {group : List Nat} (index : Nat)
    (groups : List (List Nat)) (h : Linearizable model (operationsAt history.toList group)) :
    ∃ finding : Finding, finding.outcome = .linearizable ∧
      findGroups model history .unlimited stopOnFailure false index (group :: groups) =
        finding :: findGroups model history .unlimited stopOnFailure false (index + 1) groups := by
  have hs : ∀ visit, (false || Clock.unlimited index visit) = false := fun _ => rfl
  rcases outcome_findGroup model history group hs with ⟨ho, _⟩ | ⟨_, hn⟩
  · refine ⟨_, ho, ?_⟩
    rw [findGroups, ho]
    cases stopOnFailure <;> rfl
  · exact absurd h hn

theorem forall_findGroups (index : Nat) {groups : List (List Nat)}
    (h : ∀ group ∈ groups, Linearizable model (operationsAt history.toList group)) :
    ∀ finding ∈ findGroups model history .unlimited stopOnFailure false index groups,
      finding.outcome = .linearizable := by
  induction groups generalizing index with
  | nil => simp [findGroups]
  | cons group groups ih =>
    rw [List.forall_mem_cons] at h
    obtain ⟨finding, ho, he⟩ :=
      findGroups_cons_of_linearizable model history stopOnFailure index groups h.1
    rw [he, List.forall_mem_cons]
    exact ⟨ho, ih (index + 1) h.2⟩

theorem exists_findGroups (index : Nat) {groups : List (List Nat)}
    (h : ∃ group ∈ groups, ¬ Linearizable model (operationsAt history.toList group)) :
    ∃ finding ∈ findGroups model history .unlimited stopOnFailure false index groups,
      finding.outcome = .notLinearizable := by
  induction groups generalizing index with
  | nil => simp at h
  | cons group groups ih =>
    by_cases hg : Linearizable model (operationsAt history.toList group)
    · obtain ⟨finding, _, he⟩ :=
        findGroups_cons_of_linearizable model history stopOnFailure index groups hg
      obtain ⟨group', hm, hn⟩ := h
      have hm' : group' ∈ groups := by grind
      obtain ⟨finding', hf, ho⟩ := ih (index + 1) ⟨group', hm', hn⟩
      exact ⟨finding', he ▸ List.mem_cons_of_mem _ hf, ho⟩
    · have hs : ∀ visit, (false || Clock.unlimited index visit) = false := fun _ => rfl
      rcases outcome_findGroup model history group hs with ⟨_, hl⟩ | ⟨ho, _⟩
      · exact absurd hl hg
      · refine ⟨_, ?_, ho⟩
        rw [findGroups]
        exact List.mem_cons_self

end FindGroups

/-- With no deadline a check finds exactly whether the operations of every group are
linearizable. -/
theorem check_verdict_iff (model : Model S I O) (history : List (Operation I O))
    (stopOnFailure : Bool) :
    ((check model history .unlimited stopOnFailure).verdict = .linearizable ↔
        ∀ group ∈ model.partition history, Linearizable model (operationsAt history group)) ∧
      ((check model history .unlimited stopOnFailure).verdict = .notLinearizable ↔
        ¬ ∀ group ∈ model.partition history,
          Linearizable model (operationsAt history group)) := by
  by_cases h : ∀ group ∈ model.partition history, Linearizable model (operationsAt history group)
  · have hv : (check model history .unlimited stopOnFailure).verdict = .linearizable :=
      Verdict.combine_of_forall (List.forall_mem_map.mpr
        (forall_findGroups model history.toArray.toVector stopOnFailure 0 h))
    exact ⟨iff_of_true hv h, iff_of_false (by simp [hv]) (not_not_intro h)⟩
  · have hv : (check model history .unlimited stopOnFailure).verdict = .notLinearizable := by
      have hn : ∃ group ∈ model.partition history,
          ¬ Linearizable model (operationsAt history group) := by
        simpa using h
      obtain ⟨finding, hf, ho⟩ :=
        exists_findGroups model history.toArray.toVector stopOnFailure 0 hn
      exact Verdict.combine_of_mem (ho ▸ List.mem_map_of_mem hf)
    exact ⟨iff_of_false (by simp [hv]) h, iff_of_true hv h⟩

end Linearizability
