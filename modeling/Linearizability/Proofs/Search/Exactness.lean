import Linearizability.Proofs.Search.Termination
import Mathlib.Data.List.TakeWhile

/-! # What the search finds

Unless it is stopped, the search finds an order of all operations if there is one, and records
what a walk through all continuations meets up to the first such order. When and how often it
looks at whether to stop does not matter then.
-/

namespace Linearizability

variable {S I O : Type} {n : Nat}

namespace Problem

/-- The orders a walk through all continuations meets, up to the first one of all operations. -/
def seen (problem : Problem S I O n) : List (List (Fin n)) :=
  let orders := problem.continuations [] problem.model.init
  orders.takeWhile (·.length ≠ n) ++ (orders.dropWhile (·.length ≠ n)).take 1

def answer (problem : Problem S I O n) : Outcome × Longest n :=
  (if ∃ order ∈ problem.continuations [] problem.model.init, order.length = n then .linearizable
    else .notLinearizable,
    Longest.empty.recordAll problem.seen)

variable {problem : Problem S I O n} {stop : Nat → Bool} {c : Configuration n S}
  {past : List (List (Fin n))} {passed ahead : List (Place n)} {order : List (Fin n)}
  {outcome : Outcome} {longest : Longest n}

theorem answer_of_first (h : past ++ [order] <+: problem.continuations [] problem.model.init)
    (hp : ∀ order ∈ past, order.length ≠ n) (ho : order.length = n) :
    problem.answer = (.linearizable, Longest.empty.recordAll (past ++ [order])) := by
  obtain ⟨behind, hb⟩ := h
  have hp' : ∀ order ∈ past, decide (order.length ≠ n) = true := by simpa using hp
  have hs : problem.seen = past ++ [order] := by
    rw [seen, ← hb, List.append_assoc, List.takeWhile_append_of_pos hp',
      List.dropWhile_append_of_pos hp']
    simp [ho]
  rw [answer, if_pos ⟨order, hb ▸ by simp, ho⟩, hs]

theorem seen_of_forall_ne
    (h : ∀ order ∈ problem.continuations [] problem.model.init, order.length ≠ n) :
    problem.seen = problem.continuations [] problem.model.init := by
  rw [seen, List.takeWhile_eq_self_iff.mpr (by simpa using h),
    List.dropWhile_eq_nil_iff.mpr (by simpa using h), List.take_nil, List.append_nil]

theorem answer_of_forall_ne
    (h : ∀ order ∈ problem.continuations [] problem.model.init, order.length ≠ n) :
    problem.answer = (.notLinearizable,
      Longest.empty.recordAll (problem.continuations [] problem.model.init)) := by
  rw [answer, if_neg (by simpa using h), seen_of_forall_ne h]

namespace Standing

/-- In front of a pending call its return is pending. -/
theorem pending_eq_nil (hl : problem.timeline.Lays problem.operations)
    (h : problem.Standing c past passed []) : problem.timeline.pending c.order.toList = [] := by
  have hp : problem.timeline.pending c.order.toList = passed := by simpa using h.pending
  rw [List.eq_nil_iff_forall_not_mem]
  intro p hm
  have hr := hl.returnOf_mem_pending (Timeline.mem_pending.mp hm)
  have hc := h.calls _ (hp ▸ hr)
  rw [(hl.returnOf _).2] at hc
  cases hc

theorem length_eq (hl : problem.timeline.Lays problem.operations)
    (h : problem.Standing c past passed []) : c.order.toList.length = n := by
  have hp : c.order.toList.Perm (List.finRange n) := by
    rw [List.perm_ext_iff_of_nodup h.descent.nodup (List.nodup_finRange n)]
    intro i
    obtain ⟨p, rfl, _⟩ := hl.exists_call i
    have hn : p ∉ problem.timeline.pending c.order.toList := by
      rw [h.pending_eq_nil hl]
      exact List.not_mem_nil
    simpa using hn
  simpa using hp.length_eq

/-- With no place ahead, the current order is the first one of all operations. -/
theorem answer_of_none (hl : problem.timeline.Lays problem.operations)
    (h : problem.Standing c past passed ahead) (hc : c.cursor = none) :
    problem.answer = (.linearizable, c.longest.record c.order) := by
  obtain rfl : ahead = [] := List.head?_eq_none_iff.mp (h.cursor ▸ hc)
  have hn := h.pending_eq_nil hl
  obtain rfl : passed = [] := by simpa [hn] using h.pending
  have hpast : past ++ [c.order.toList] <+: problem.continuations [] problem.model.init := by
    have hp := h.descent.past_prefix
    rwa [map_continuations, Timeline.front, hn, List.takeWhile_nil, explored_nil,
      List.nil_append] at hp
  rw [answer_of_first hpast (by simpa using h.unfinished) (h.length_eq hl), h.record_eq,
    explored_nil, List.append_nil]

theorem answer_of_ret {p : Place n} (h : problem.Standing c past passed (p :: ahead))
    (hr : (problem.timeline.events.get p).phase = .ret) (hc : c.choices = []) :
    problem.answer = (.notLinearizable, c.longest.record c.order) := by
  have hall : problem.continuations [] problem.model.init =
      past ++ problem.explored c.order.toList c.state passed ++ [c.order.toList] := by
    obtain ⟨ho, hs, rfl⟩ := Descent.eq_start (hc ▸ h.descent)
    rw [List.append_assoc, ← h.map_continuations_of_ret hr, ho, hs]
    simp
  rw [answer_of_forall_ne (hall ▸ h.unfinished_of_ret), h.record_eq, hall]

end Standing

theorem Exit.eq_answer (hl : problem.timeline.Lays problem.operations)
    (h : problem.Standing c past passed ahead) (he : problem.Exit stop c outcome longest)
    (ha : outcome ≠ .aborted) : (outcome, longest) = problem.answer := by
  cases he with
  | linearizable hc => exact (h.answer_of_none hl hc).symm
  | notLinearizable hc hr hf =>
    obtain ⟨behind, rfl⟩ := h.exists_cons hc
    exact (h.answer_of_ret hr hf).symm
  | aborted => exact absurd rfl ha

/-- Where a look at whether to stop ended the search. -/
structure Stopped (problem : Problem S I O n) (stop : Nat → Bool)
    (next : Configuration n S → Progress n S) (k : Nat) (c : Configuration n S) : Prop where
  reached : problem.Reached next k c
  cursor : c.cursor ≠ none
  look : (k + 1) % stopInterval = 0
  stopped : stop (k + 1) = true

/-- Steps that follow the turns lead to the answer, unless a look at whether to stop ends them. -/
theorem Follows.iterate_bound {next : Configuration n S → Progress n S}
    (hl : problem.timeline.Lays problem.operations) (hf : problem.Follows stop next) :
    (advance next)^[bound n] (.searching problem.start) =
        .finished problem.answer.1 problem.answer.2 ∨
      ∃ k c, problem.Stopped stop next k c ∧
        (advance next)^[bound n] (.searching problem.start) = .finished .aborted c.longest := by
  obtain ⟨k, c, outcome, longest, hc, hn, hi⟩ := hf.exists_finished hl
  have he := hf.exit c outcome longest hn
  obtain ⟨past, passed, ahead, hs⟩ := hc.standing
  by_cases ha : outcome = .aborted
  · subst ha
    cases he with
    | aborted hp hlook hstop =>
      rw [hc.visits] at hlook hstop
      exact .inr ⟨k, c, ⟨hc, by simp [hp], hlook, hstop⟩, hi⟩
  · left
    rw [hi, ← he.eq_answer hl hs ha]

theorem answer_ne_aborted (problem : Problem S I O n) : problem.answer.1 ≠ .aborted := by
  rw [answer]
  split <;> simp

theorem answer_eq_linearizable_iff {model : Model S I O}
    {operations : Vector (Operation I O) n} :
    (of model operations).answer.1 = .linearizable ↔ Linearizable model operations.toList := by
  rw [← exists_length_eq_iff]
  exact ite_eq_left_iff.trans (by simp [of])

theorem answer_eq_notLinearizable_iff {model : Model S I O}
    {operations : Vector (Operation I O) n} :
    (of model operations).answer.1 = .notLinearizable ↔
      ¬ Linearizable model operations.toList := by
  rw [← exists_length_eq_iff]
  exact ite_eq_right_iff.trans (by simp [of])

theorem searchBy_cases {visit : Configuration n S → Place n → Fin n → Configuration n S}
    (hl : problem.timeline.Lays problem.operations)
    (hf : problem.Follows stop (problem.stepBy visit stop)) :
    problem.searchBy visit stop = (problem.answer.1, problem.answer.2.toList) ∨
      ∃ k c, problem.Stopped stop (problem.stepBy visit stop) k c ∧
        problem.searchBy visit stop = (.aborted, c.longest.toList) := by
  rcases hf.iterate_bound hl with h | ⟨k, c, hc, h⟩
  · exact .inl (congrArg Progress.result h)
  · exact .inr ⟨k, c, hc, congrArg Progress.result h⟩

theorem searchBy_of_forall_not_stop
    {visit : Configuration n S → Place n → Fin n → Configuration n S}
    (hl : problem.timeline.Lays problem.operations)
    (hf : problem.Follows stop (problem.stepBy visit stop))
    (hs : ∀ k, k % stopInterval = 0 → stop k = false) :
    problem.searchBy visit stop = (problem.answer.1, problem.answer.2.toList) := by
  rcases searchBy_cases hl hf with h | ⟨k, c, hc, _⟩
  · exact h
  · exact absurd hc.stopped (by simp [hs _ hc.look])

section Search

variable [DecidableEq S]

theorem search_cases (hl : problem.timeline.Lays problem.operations) (stop : Nat → Bool) :
    problem.search stop = (problem.answer.1, problem.answer.2.toList) ∨
      ∃ k c, problem.Stopped stop (problem.step stop) k c ∧
        problem.search stop = (.aborted, c.longest.toList) := by
  rw [search_eq_searchBy]
  exact searchBy_cases hl (problem.follows_step stop)

theorem search_of_forall_not_stop (hl : problem.timeline.Lays problem.operations)
    (hs : ∀ k, k % stopInterval = 0 → stop k = false) :
    problem.search stop = (problem.answer.1, problem.answer.2.toList) := by
  rw [search_eq_searchBy]
  exact searchBy_of_forall_not_stop hl (problem.follows_step stop) hs

theorem search_of_ne_aborted (hl : problem.timeline.Lays problem.operations)
    (ha : (problem.search stop).1 ≠ .aborted) :
    problem.search stop = (problem.answer.1, problem.answer.2.toList) := by
  rcases search_cases hl stop with h | ⟨k, c, _, h⟩
  · exact h
  · exact absurd (congrArg Prod.fst h) ha

/-- The search is exact: what it says about the operations is so, it is only aborted when a look
at whether to stop tells it to, and otherwise its result does not depend on the looks. -/
theorem search_exact (model : Model S I O) (operations : Vector (Operation I O) n)
    (stop : Nat → Bool) :
    (((of model operations).search stop).1 = .linearizable →
        Linearizable model operations.toList) ∧
      (((of model operations).search stop).1 = .notLinearizable →
        ¬ Linearizable model operations.toList) ∧
      (((of model operations).search stop).1 = .aborted →
        ∃ k c, (of model operations).run stop k (.searching (of model operations).start) =
            .searching c ∧
          c.cursor ≠ none ∧ c.visits = k ∧ (k + 1) % 256 = 0 ∧ stop (k + 1) = true) ∧
      ((∀ visit, visit % 256 = 0 → stop visit = false) →
        (((of model operations).search stop).1 = .linearizable ↔
          Linearizable model operations.toList) ∧
        (((of model operations).search stop).1 = .notLinearizable ↔
          ¬ Linearizable model operations.toList)) ∧
      (((of model operations).search stop).1 ≠ .aborted →
        (of model operations).search stop = (of model operations).search fun _ => false) := by
  have hl : (of model operations).timeline.Lays (of model operations).operations :=
    Timeline.lays_of operations
  refine ⟨fun h => ?_, fun h => ?_, fun h => ?_, fun h => ?_, fun h => ?_⟩
  · have ha : ((of model operations).search stop).1 ≠ .aborted := by simp [h]
    rw [search_of_ne_aborted hl ha] at h
    exact answer_eq_linearizable_iff.mp h
  · have ha : ((of model operations).search stop).1 ≠ .aborted := by simp [h]
    rw [search_of_ne_aborted hl ha] at h
    exact answer_eq_notLinearizable_iff.mp h
  · rcases search_cases hl stop with he | ⟨k, c, hc, _⟩
    · rw [he] at h
      exact absurd h (answer_ne_aborted _)
    · refine ⟨k, c, ?_, hc.cursor, hc.reached.visits, hc.look, hc.stopped⟩
      rw [run_eq_iterate]
      exact hc.reached.iterate
  · rw [search_of_forall_not_stop hl h]
    exact ⟨answer_eq_linearizable_iff, answer_eq_notLinearizable_iff⟩
  · rw [search_of_ne_aborted hl h, search_of_forall_not_stop hl fun _ _ => rfl]

end Search

end Problem

end Linearizability
