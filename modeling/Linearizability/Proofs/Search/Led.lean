import Linearizability.Proofs.Search.Termination

/-! # Searches led from outside

A search that others can stop may find something else at each look. Where it stands is where some
fixed answers to the looks lead, since a search never looks twice at the same visit.
-/

namespace Linearizability

variable {S I O : Type} {n : Nat} [DecidableEq S]

namespace Problem

/-- Some answers to the looks lead from the start to here. They tell to stop only if that is
asked for. -/
def Led (problem : Problem S I O n) (stopped : Bool) (progress : Progress n S) : Prop :=
  ∃ looks k, (∀ visit, looks visit = true → stopped = true) ∧
    problem.run looks k (.searching problem.start) = progress

variable {problem : Problem S I O n} {stop stop' : Nat → Bool} {c : Configuration n S} {k : Nat}
  {progress : Progress n S} {outcome : Outcome} {longest : Longest n} {stopped stopped' : Bool}

theorem step_congr (h : stop (c.visits + 1) = stop' (c.visits + 1)) :
    problem.step stop c = problem.step stop' c := by
  simp only [step, h]

theorem run_congr (hl : problem.timeline.Lays problem.operations)
    (h : ∀ visit ≤ k, stop visit = stop' visit) :
    problem.run stop k (.searching problem.start) =
      problem.run stop' k (.searching problem.start) := by
  induction k with
  | zero => rfl
  | succ k ih =>
    have ih := ih fun visit hv => h visit (Nat.le_succ_of_le hv)
    rw [run_succ, run_succ, ← ih]
    cases hp : problem.run stop k (.searching problem.start) with
    | finished outcome longest => rfl
    | searching c =>
      have hv := (reached_of_run hl hp).visits
      exact step_congr (h _ (by rw [hv]))

namespace Led

theorem start (problem : Problem S I O n) : problem.Led false (.searching problem.start) :=
  ⟨fun _ => false, 0, by simp, rfl⟩

theorem mono (h : problem.Led stopped progress) (hs : stopped = true → stopped' = true) :
    problem.Led stopped' progress := by
  obtain ⟨looks, k, hlooks, hr⟩ := h
  exact ⟨looks, k, fun visit hv => hs (hlooks visit hv), hr⟩

theorem step (hl : problem.timeline.Lays problem.operations)
    (h : problem.Led stopped (.searching c)) {look : Bool} (hs : look = true → stopped = true) :
    problem.Led stopped (problem.step (fun _ => look) c) := by
  obtain ⟨looks, k, hlooks, hr⟩ := h
  have hv := (reached_of_run hl hr).visits
  refine ⟨Function.update looks (k + 1) look, k + 1, fun visit => ?_, ?_⟩
  · by_cases hk : visit = k + 1
    · subst hk
      rw [Function.update_self]
      exact hs
    · rw [Function.update_of_ne hk]
      exact hlooks visit
  · have hk : problem.run (Function.update looks (k + 1) look) k (.searching problem.start) =
        .searching c := by
      rw [← hr]
      exact run_congr hl fun visit hle => Function.update_of_ne (by omega) _ _
    rw [run_succ, hk]
    exact step_congr (by rw [hv, Function.update_self])

theorem visits_lt_bound (hl : problem.timeline.Lays problem.operations)
    (h : problem.Led stopped (.searching c)) : c.visits < bound n := by
  obtain ⟨looks, k, _, hr⟩ := h
  have hc := reached_of_run hl hr
  obtain ⟨past, passed, ahead, hs⟩ := hc.standing
  rw [hc.visits]
  exact hc.le_rank.trans_lt (rank_lt_bound hs.length_choices_le)

theorem exists_search_eq (hl : problem.timeline.Lays problem.operations)
    (h : problem.Led stopped (.finished outcome longest)) :
    ∃ looks, (∀ visit, looks visit = true → stopped = true) ∧
      problem.search looks = (outcome, longest.toList) := by
  obtain ⟨looks, k, hlooks, hr⟩ := h
  exact ⟨looks, hlooks, search_of_run hl hr⟩

end Led

end Problem

end Linearizability
