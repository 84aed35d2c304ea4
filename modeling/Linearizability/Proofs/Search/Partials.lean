import Linearizability.Proofs.PartialLinearization
import Linearizability.Proofs.Search.Exactness
import Linearizability.Proofs.Search.Kept

/-! # What the search records

However it ends, the search has recorded some first part of the walk through all continuations.
-/

namespace Linearizability

variable {S I O : Type} {n : Nat}

namespace Problem

variable {problem : Problem S I O n} {order rest : List (Fin n)} {s : S}

theorem continues_iff : problem.Continues order s rest ↔
    (∀ before i behind, rest = before ++ i :: behind → i ∉ order ++ before ∧
      ∀ j, (problem.operations.get j).ret < (problem.operations.get i).call →
        j ∈ order ++ before) ∧
    ∃ t, problem.after? s rest = some t := by
  induction rest generalizing order s with
  | nil => simp [Continues, after?]
  | cons i rest ih =>
    simp only [Continues, ih, List.append_assoc, List.singleton_append]
    have ha : (∃ t, problem.after? s (i :: rest) = some t) ↔
        ∃ t, problem.next? s i = some t ∧ ∃ u, problem.after? t rest = some u := by
      simp only [after?, List.map_cons, Model.after?_cons, next?, Option.bind_eq_some_iff]
      grind
    rw [ha]
    constructor
    · rintro ⟨hi, ht, t, hn, hs, hu⟩
      refine ⟨fun before j behind he => ?_, t, hn, hu⟩
      rcases List.cons_eq_append_iff.mp he with ⟨rfl, hj⟩ | ⟨before, rfl, hj⟩
      · obtain ⟨rfl, rfl⟩ := List.cons_eq_cons.mp hj
        rw [List.append_nil]
        exact ⟨hi, fun k hk => not_imp_comm.mp (ht k) (not_not_intro hk)⟩
      · exact hs before j behind hj
    · rintro ⟨hs, t, hn, hu⟩
      obtain ⟨hi, ht⟩ := hs [] i rest rfl
      rw [List.append_nil] at hi ht
      refine ⟨hi, fun j hj hlt => hj (ht j hlt), t, hn, fun before j behind he => ?_, hu⟩
      exact hs (i :: before) j behind (by rw [he, List.cons_append])

/-- The continuations of the empty order are the partial linearizations. -/
theorem mem_continuations_iff_partialLinearization {model : Model S I O}
    {operations : Vector (Operation I O) n} :
    order ∈ (of model operations).continuations [] model.init ↔
      PartialLinearization model operations.get order := by
  have hl : (of model operations).timeline.Lays (of model operations).operations :=
    Timeline.lays_of operations
  have hr : (∃ t, (of model operations).after? model.init order = some t) ↔
      ∃ t, model.replay (order.map fun i => (operations.get i).exchange) = .ok t := by
    simp only [Model.replay_eq_ok_iff]
    rfl
  rw [mem_continuations_iff hl]
  constructor
  · intro h
    obtain ⟨hs, ht⟩ := continues_iff.mp h
    refine ⟨by simpa using h.nodup List.nodup_nil, fun before i behind he => ?_, hr.mp ht⟩
    exact (hs before i behind he).2
  · intro h
    refine continues_iff.mpr ⟨fun before i behind he => ⟨?_, h.respectsTime before i behind he⟩,
      hr.mpr h.legal⟩
    have := h.nodup
    grind

/-- How far a search has walked through all continuations when it ends. -/
structure Walked (problem : Problem S I O n) (outcome : Outcome) (orders : List (List (Fin n))) :
    Prop where
  initial : orders <+: problem.continuations [] problem.model.init
  complete : outcome = .notLinearizable → orders = problem.continuations [] problem.model.init
  first : outcome = .linearizable → ∃ past order, orders = past ++ [order] ∧ order.length = n ∧
    ∀ order' ∈ past, order'.length ≠ n
  unfinished : outcome ≠ .linearizable → ∀ order ∈ orders, order.length ≠ n

theorem seen_prefix (problem : Problem S I O n) :
    problem.seen <+: problem.continuations [] problem.model.init := by
  rw [seen]
  conv_rhs => rw [← List.takeWhile_append_dropWhile (p := (·.length ≠ n))
    (l := problem.continuations [] problem.model.init)]
  exact (List.prefix_append_right_inj _).mpr (List.take_prefix _ _)

theorem exists_seen_eq (h : ∃ order ∈ problem.continuations [] problem.model.init,
    order.length = n) : ∃ past order, problem.seen = past ++ [order] ∧ order.length = n ∧
      ∀ order' ∈ past, order'.length ≠ n := by
  cases hd : (problem.continuations [] problem.model.init).dropWhile (·.length ≠ n) with
  | nil =>
    obtain ⟨order, ho, hn⟩ := h
    exact absurd hn (by simpa using List.dropWhile_eq_nil_iff.mp hd order ho)
  | cons order behind =>
    refine ⟨_, order, by rw [seen, hd]; rfl, ?_, fun order' ho => ?_⟩
    · have hn := List.head_dropWhile_not _ (hd ▸ List.cons_ne_nil order behind)
      simp only [hd, List.head_cons] at hn
      simpa using hn
    · simpa using List.mem_takeWhile_imp ho

theorem walked_answer (problem : Problem S I O n) :
    problem.Walked problem.answer.1 problem.seen := by
  by_cases h : ∃ order ∈ problem.continuations [] problem.model.init, order.length = n
  · have ha : problem.answer.1 = .linearizable := if_pos h
    rw [ha]
    exact ⟨problem.seen_prefix, nofun, fun _ => exists_seen_eq h, fun hn => absurd rfl hn⟩
  · have ha : problem.answer.1 = .notLinearizable := if_neg h
    have hn : ∀ order ∈ problem.continuations [] problem.model.init, order.length ≠ n := by
      simpa using h
    rw [ha, seen_of_forall_ne hn]
    exact ⟨List.prefix_rfl, fun _ => rfl, nofun, fun _ => hn⟩

theorem Standing.initial {c : Configuration n S} {past : List (List (Fin n))}
    {passed ahead : List (Place n)} (h : problem.Standing c past passed ahead) :
    past ++ problem.explored c.order.toList c.state passed <+:
      problem.continuations [] problem.model.init := by
  refine List.IsPrefix.trans ?_ h.descent.past_prefix
  rw [List.prefix_append_right_inj, map_continuations, Timeline.front, h.pending,
    List.takeWhile_append_of_pos (by simpa using h.calls), explored_append, List.append_assoc]
  exact List.prefix_append _ _

theorem walked_of_stopped {stop : Nat → Bool} {next : Configuration n S → Progress n S} {k : Nat}
    {c : Configuration n S} (h : problem.Stopped stop next k c) :
    ∃ orders, c.longest = Longest.empty.recordAll orders ∧ problem.Walked .aborted orders := by
  obtain ⟨past, passed, ahead, hs⟩ := h.reached.standing
  exact ⟨_, hs.longest, hs.initial, nofun, nofun, fun _ => hs.unfinished⟩

theorem exists_walked [DecidableEq S] (hl : problem.timeline.Lays problem.operations)
    (stop : Nat → Bool) : ∃ orders, problem.Walked (problem.search stop).1 orders ∧
      (problem.search stop).2 = (Longest.empty.recordAll orders).toList := by
  rcases search_cases hl stop with h | ⟨k, c, hc, h⟩
  · rw [h]
    exact ⟨_, problem.walked_answer, rfl⟩
  · obtain ⟨orders, ho, hw⟩ := walked_of_stopped hc
    rw [h, ho]
    exact ⟨orders, hw, rfl⟩

section Search

variable [DecidableEq S] {model : Model S I O} {operations : Vector (Operation I O) n}
  {stop : Nat → Bool}

theorem exists_walked_of (model : Model S I O) (operations : Vector (Operation I O) n)
    (stop : Nat → Bool) :
    ∃ orders, (of model operations).Walked ((of model operations).search stop).1 orders ∧
      ((of model operations).search stop).2 = (Longest.empty.recordAll orders).toList :=
  exists_walked (Timeline.lays_of operations) stop

/-- What the search answers with are partial linearizations. -/
theorem partialLinearization_of_mem_search (h : order ∈ ((of model operations).search stop).2) :
    PartialLinearization model operations.get order ∧ order ≠ [] := by
  obtain ⟨orders, hw, hs⟩ := exists_walked_of model operations stop
  rw [hs] at h
  obtain ⟨ho, hn⟩ := Longest.mem_of_mem_toList h
  exact ⟨mem_continuations_iff_partialLinearization.mp (hw.initial.subset ho), hn⟩

/-- A search that refutes linearizability has met all partial linearizations. -/
theorem exists_mem_search (hr : ((of model operations).search stop).1 = .notLinearizable)
    (ho : PartialLinearization model operations.get order) {i : Fin n} (hi : i ∈ order) :
    ∃ kept ∈ ((of model operations).search stop).2, i ∈ kept ∧
      ∀ order', PartialLinearization model operations.get order' → i ∈ order' →
        order'.length ≤ kept.length := by
  obtain ⟨orders, hw, hs⟩ := exists_walked_of model operations stop
  have hm : ∀ order', PartialLinearization model operations.get order' → order' ∈ orders := by
    intro order' ho'
    rw [hw.complete hr]
    exact mem_continuations_iff_partialLinearization.mpr ho'
  obtain ⟨kept, hk, hik, hle⟩ := Longest.exists_mem_toList (hm order ho) hi
  exact ⟨kept, hs ▸ hk, hik, fun order' ho' => hle order' (hm order' ho')⟩

theorem search_of_linearizable (hn : 0 < n)
    (h : ((of model operations).search stop).1 = .linearizable) :
    ∃ order, ((of model operations).search stop).2 = [order] ∧
      order.Perm (List.finRange n) := by
  obtain ⟨orders, hw, hs⟩ := exists_walked_of model operations stop
  obtain ⟨past, order, rfl, ho, hp⟩ := hw.first h
  have hl : ∀ order' ∈ past ++ [order], PartialLinearization model operations.get order' :=
    fun order' hm => mem_continuations_iff_partialLinearization.mp (hw.initial.subset hm)
  have hall := perm_finRange (hl order (by simp)).nodup ho
  have hm : ∀ i, i ∈ order := fun i => hall.mem_iff.mpr (List.mem_finRange i)
  refine ⟨order, ?_, hall⟩
  rw [hs]
  refine Longest.toList_recordAll_eq_singleton (by simp) (List.ne_nil_of_mem (hm ⟨0, hn⟩))
    (fun order' _ i _ => hm i) fun order' hm' hle => ?_
  rcases List.mem_append.mp hm' with hm' | hm'
  · have hlen := (hl order' (List.mem_append_left _ hm')).length_le
    exact absurd (Nat.le_antisymm hlen (ho.symm.trans_le hle)) (hp order' hm')
  · exact List.mem_singleton.mp hm'

theorem length_lt_of_mem_search (h : ((of model operations).search stop).1 ≠ .linearizable)
    (ho : order ∈ ((of model operations).search stop).2) : order.length < n := by
  have hle := (partialLinearization_of_mem_search ho).1.length_le
  obtain ⟨orders, hw, hs⟩ := exists_walked_of model operations stop
  rw [hs] at ho
  exact Nat.lt_of_le_of_ne hle (hw.unfinished h order (Longest.mem_of_mem_toList ho).1)

end Search

end Problem

end Linearizability
