import Linearizability.Proofs.Findings
import Linearizability.Proofs.Workers.Termination
import Linearizability.Store.Model

/-! # What workers conclude

However the steps of workers interleave, each group is searched once, and the findings come back
in the order of the groups. With no deadline the conclusion is that of one check after another,
but for the groups that a refuted group may stop, which leaves the verdict as it is.
-/

namespace Linearizability

variable {S I O : Type} [DecidableEq S] {plan : Plan S I O} {count : Nat}

theorem findGroup_of_ne_aborted {m : Nat} {model : Model S I O}
    {history : Vector (Operation I O) m} {group : List Nat} {stop : Nat → Bool}
    (h : (findGroup model history group stop).outcome ≠ .aborted) :
    findGroup model history group stop = findGroup model history group fun _ => false := by
  have hl := Timeline.lays_of (groupOperations history group)
  have hs : (Problem.of model (groupOperations history group)).search stop =
      (Problem.of model (groupOperations history group)).search fun _ => false :=
    (Problem.search_of_ne_aborted hl h).trans
      (Problem.search_of_forall_not_stop hl fun _ _ => rfl).symm
  rw [findGroup_eq, findGroup_eq, hs]

theorem findings_check_unlimited (model : Model S I O) (history : List (Operation I O)) :
    (check model history).findings = (model.partition history).map fun group =>
      findGroup model history.toArray.toVector group fun _ => false :=
  findGroups_unlimited ..

theorem Verdict.combine_ne_unknown {outcomes : List Outcome}
    (h : .aborted ∈ outcomes → .notLinearizable ∈ outcomes) : combine outcomes ≠ .unknown := by
  rw [combine]
  split
  · decide
  · rename_i hn
    rw [if_neg fun ha => hn (h ha)]
    decide

namespace Crew

variable {crew : Crew plan count} {moves : List (Move plan.groups.length)}

omit [DecidableEq S] in
theorem perm_results (crew : Crew plan count) :
    crew.results.Perm ((List.finRange count).flatMap fun i => (crew.workers i).done) :=
  List.mergeSort_perm _ _

omit [DecidableEq S] in
theorem mem_results {entry : Fin plan.groups.length × Finding} :
    entry ∈ crew.results ↔ ∃ i, entry ∈ (crew.workers i).done := by
  simp [crew.perm_results.mem_iff]

omit [DecidableEq S] in
theorem pairwise_results (crew : Crew plan count) :
    (crew.results.map Prod.fst).Pairwise (· ≤ ·) := by
  refine List.pairwise_map.mpr ((List.pairwise_mergeSort ?_ ?_ _).imp fun h => ?_)
  · exact fun _ _ _ => by simpa using le_trans
  · exact fun a b => by simpa using le_total a.1 b.1
  · simpa using h

/-- Every run can be brought to its end. -/
theorem Run.exists_ended (h : Run moves crew) :
    ∃ moves', ∃ crew' : Crew plan count, Run (moves ++ moves') crew' ∧ crew'.Ended := by
  induction hk : crew.left using Nat.strongRecOn generalizing moves crew with
  | _ k ih =>
    by_cases he : crew.Ended
    · exact ⟨[], crew, by simpa using h, he⟩
    · obtain ⟨move, crew', hs⟩ : ∃ move crew', crew.Step move crew' := by
        simpa [Ended] using he
      obtain ⟨moves', crew'', hr, he⟩ := ih _ (hk ▸ hs.left_lt h.sound) (h.step hs) rfl
      exact ⟨move :: moves', crew'', by simpa using hr, he⟩

theorem Run.found (h : Run moves crew) {entry : Fin plan.groups.length × Finding}
    (he : entry ∈ crew.results) : plan.Found crew.shared.stopped entry.1 entry.2 := by
  obtain ⟨i, hi⟩ := mem_results.mp he
  exact (h.sound.workers i).done entry hi

section Ended

variable (h : Run moves crew) (he : crew.Ended) (hc : plan.groups ≠ [] → 0 < count)
include h he hc

theorem length_le_next : plan.groups.length ≤ crew.shared.next := by
  by_cases hn : plan.groups = []
  · simp [hn]
  · exact (h.sound.workers ⟨0, hc hn⟩).gone (he.gone _)

theorem filterMap_taken?_of_ended :
    moves.filterMap Move.taken? = List.finRange plan.groups.length := by
  rw [h.filterMap_taken?, List.take_of_length_le]
  simpa using length_le_next h he hc

theorem map_fst_results : crew.results.map Prod.fst = List.finRange plan.groups.length := by
  have htaken : ∀ i, (crew.workers i).taken = (crew.workers i).done.map Prod.fst := by
    intro i
    rw [Worker.taken, he.gone i, List.append_nil]
  have hperm : (crew.results.map Prod.fst).Perm (List.finRange plan.groups.length) := by
    refine (crew.perm_results.map _).trans ?_
    rw [List.map_flatMap, ← Multiset.coe_eq_coe, ← Multiset.coe_bind,
      ← filterMap_taken?_of_ended h he hc, ← h.sum_taken]
    simp only [htaken]
    rfl
  exact hperm.eq_of_pairwise (fun _ _ _ _ => le_antisymm) crew.pairwise_results
    (List.pairwise_le_finRange _)

theorem map_results_eq_groups :
    crew.results.map (fun entry => plan.groups.get entry.1) = plan.groups := by
  have hm : crew.results.map (fun entry => plan.groups.get entry.1) =
      (crew.results.map Prod.fst).map plan.groups.get := by
    rw [List.map_map]
    rfl
  rw [hm, map_fst_results h he hc, List.map_get_finRange]

theorem searched_conclusion : crew.conclusion.Searched plan.model plan.history := by
  have hf : List.Forall₂
      (fun group finding => ∃ stop, finding = findGroup plan.model plan.history.toArray.toVector
        group stop)
      (crew.results.map fun entry => plan.groups.get entry.1) (crew.results.map Prod.snd) := by
    rw [List.forall₂_map_left_iff, List.forall₂_map_right_iff, List.forall₂_same]
    intro entry hm
    obtain ⟨looks, _, heq⟩ := h.found hm
    exact ⟨looks, heq⟩
  rw [map_results_eq_groups h he hc] at hf
  exact ⟨rfl, hf⟩

/-- If no search is aborted, the findings are those of one check after another. -/
theorem conclusion_eq_check
    (ha : ∀ finding ∈ crew.conclusion.findings, finding.outcome ≠ .aborted) :
    crew.conclusion = check plan.model plan.history := by
  have hf : crew.results.map Prod.snd = (check plan.model plan.history).findings := by
    have hg := congrArg (List.map fun group =>
      findGroup plan.model plan.history.toArray.toVector group fun _ => false)
      (map_results_eq_groups h he hc)
    rw [List.map_map] at hg
    rw [findings_check_unlimited, ← Plan.groups, ← hg]
    refine List.map_congr_left fun entry hm => ?_
    obtain ⟨looks, _, heq⟩ := h.found hm
    have hne : entry.2.outcome ≠ .aborted := ha entry.2 (List.mem_map_of_mem hm)
    rw [heq] at hne ⊢
    exact findGroup_of_ne_aborted hne
  exact congrArg (fun findings => Conclusion.mk (.combine (findings.map Finding.outcome)) findings)
    hf

end Ended

/-- Without a deadline only a refuted group stops a search, if it is to. -/
theorem Run.stopped_of_aborted (h : Run moves crew) (hu : plan.limited = false)
    (ha : ∃ finding ∈ crew.conclusion.findings, finding.outcome = .aborted) :
    plan.stopOnFailure = true ∧
      ∃ finding ∈ crew.conclusion.findings, finding.outcome = .notLinearizable := by
  obtain ⟨finding, hf, ho⟩ := ha
  obtain ⟨entry, hm, rfl⟩ := List.mem_map.mp hf
  obtain ⟨looks, hlooks, heq⟩ := h.found hm
  have hs : crew.shared.stopped = true := by
    by_contra hs
    have hn : ∀ visit, looks visit = false := fun visit => by
      simpa using mt (hlooks visit) hs
    rw [heq] at ho
    rcases outcome_findGroup plan.model _ (plan.groups.get entry.1) hn with ⟨hl, _⟩ | ⟨hl, _⟩
    · cases hl.symm.trans ho
    · cases hl.symm.trans ho
  obtain ⟨hstop, i, entry', hm', ho'⟩ := h.sound.stopped hu hs
  exact ⟨hstop, entry'.2, List.mem_map_of_mem (mem_results.mpr ⟨i, hm'⟩), ho'⟩

/-- The verdict is that of one check after another, however the workers interleave. -/
theorem verdict_conclusion (h : Run moves crew) (he : crew.Ended)
    (hc : plan.groups ≠ [] → 0 < count) (hu : plan.limited = false) :
    crew.conclusion.verdict = (check plan.model plan.history).verdict := by
  by_cases ha : ∃ finding ∈ crew.conclusion.findings, finding.outcome = .aborted
  · obtain ⟨_, finding, hf, ho⟩ := h.stopped_of_aborted hu ha
    have hf' : finding ∈ (check plan.model plan.history).findings := by
      obtain ⟨entry, hm, rfl⟩ := List.mem_map.mp hf
      obtain ⟨looks, _, heq⟩ := h.found hm
      have hne : entry.2.outcome ≠ .aborted := by simp [ho]
      rw [heq] at hne ⊢
      rw [findGroup_of_ne_aborted hne, findings_check_unlimited]
      exact List.mem_map_of_mem (List.get_mem _ _)
    have hv : (check plan.model plan.history).verdict = .notLinearizable :=
      Verdict.combine_of_mem (ho ▸ List.mem_map_of_mem hf')
    rw [hv]
    exact Verdict.combine_of_mem (ho ▸ List.mem_map_of_mem hf)
  · rw [conclusion_eq_check h he hc (by simpa using ha)]

/-- Workers always come to an end, and however their steps interleave, each group has then been
taken and searched once, in what is concluded in the order of the groups. With no deadline all
runs conclude the same if failures stop nothing; if they do, a search is aborted only because
another group is refuted, and the verdict is the same. -/
theorem schedule_independent (plan : Plan S I O) (count : Nat)
    (hc : plan.groups ≠ [] → 0 < count) :
    (∃ bound, ∀ moves (crew : Crew plan count), Run moves crew → moves.length ≤ bound) ∧
      ∀ moves (crew : Crew plan count), Run moves crew → crew.Ended →
        (∀ i, (crew.workers i).activity = .gone) ∧
          moves.filterMap Move.taken? = List.finRange plan.groups.length ∧
          crew.results.map Prod.fst = List.finRange plan.groups.length ∧
          crew.conclusion.Searched plan.model plan.history ∧
          (plan.limited = false →
            (plan.stopOnFailure = false → crew.conclusion = check plan.model plan.history) ∧
            ((∃ finding ∈ crew.conclusion.findings, finding.outcome = .aborted) →
              ∃ finding ∈ crew.conclusion.findings, finding.outcome = .notLinearizable) ∧
            crew.conclusion.verdict = (check plan.model plan.history).verdict ∧
            crew.conclusion.verdict ≠ .unknown) := by
  refine ⟨⟨(start plan count).left, fun moves crew h => ?_⟩, fun moves crew h he => ?_⟩
  · exact Nat.le_of_add_right_le h.length_add_left_le
  · refine ⟨he.gone, filterMap_taken?_of_ended h he hc, map_fst_results h he hc,
      searched_conclusion h he hc, fun hu => ⟨fun hs => ?_, fun ha => ?_, ?_, ?_⟩⟩
    · refine conclusion_eq_check h he hc fun finding hf ho => ?_
      obtain ⟨hstop, _⟩ := h.stopped_of_aborted hu ⟨finding, hf, ho⟩
      cases hs.symm.trans hstop
    · exact (h.stopped_of_aborted hu ha).2
    · exact verdict_conclusion h he hc hu
    · refine Verdict.combine_ne_unknown fun ha => ?_
      obtain ⟨finding, hf, ho⟩ := List.mem_map.mp ha
      obtain ⟨_, finding', hf', ho'⟩ := h.stopped_of_aborted hu ⟨finding, hf, ho⟩
      exact ho' ▸ List.mem_map_of_mem hf'

/-- Two keys, one of which is read before anything is written. -/
def twoKeys : Plan Store Request Response where
  model := Store.model
  history := [⟨⟨1⟩, .get "k", ⟨1⟩, .found "v", ⟨2⟩⟩, ⟨⟨2⟩, .put "l" "w", ⟨1⟩, .ok, ⟨4⟩⟩]
  stopOnFailure := true
  limited := false

theorem schedule_independent_twoKeys :
    ∃ moves, ∃ crew : Crew twoKeys 3, Run moves crew ∧ crew.Ended ∧
      moves.filterMap Move.taken? = [⟨0, by decide⟩, ⟨1, by decide⟩] ∧
      crew.conclusion.verdict = .notLinearizable := by
  have hs : Run [] (start twoKeys 3) := .start
  obtain ⟨moves, crew, h, he⟩ := hs.exists_ended
  obtain ⟨_, htaken, _, _, hu⟩ := (schedule_independent twoKeys 3 fun _ => by decide).2 _ crew h he
  have hv : (check Store.model twoKeys.history).verdict = .notLinearizable := by
    have hp : Store.model.partition twoKeys.history = [[0], [1]] := rfl
    simp only [check, hp, findGroups, findGroup, Finding.at, problemAt, Problem.of, Timeline.of,
      Event.mergeSort_notAfter]
    decide +kernel
  exact ⟨_, crew, h, he, htaken, (hu rfl).2.2.1.trans hv⟩

end Crew

end Linearizability
