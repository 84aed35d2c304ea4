import Linearizability.Proofs.Search.Descent
import Linearizability.Proofs.Search.Longest
import Linearizability.Proofs.Search.Turns

/-! # The invariant of the search

At every place it visits, the search has recorded exactly the orders that a walk through all
continuations leaves before that place, as if nothing had been pruned: what the memory prunes is
settled, that is, it has no order of all operations and recording its orders changes nothing. A
remembered pair that is not settled lies on the way to the current order, so it cannot come up
again.
-/

namespace Linearizability

namespace Problem

variable {S I O : Type} {n : Nat}

/-- Nothing is to be gained from an order: none of its continuations has all operations, and all
of them are covered. -/
def Settled (problem : Problem S I O n) (longest : Longest n) (order : List (Fin n)) (s : S) :
    Prop :=
  ∀ rest ∈ problem.continuations order s,
    longest.Covers (order ++ rest) ∧ (order ++ rest).length ≠ n

/-- A remembered pair belongs to a part of the current order or is settled. -/
def Known (problem : Problem S I O n) (longest : Longest n) (current : List (Fin n))
    (set : OperationSet n) (s : S) : Prop :=
  ∃ order : List (Fin n), order.Nodup ∧ (∀ i, i ∈ set ↔ i ∈ order) ∧
    (order <+: current ∧ problem.after? problem.model.init order = some s ∨
      problem.Settled longest order s)

/-- The search stands behind some passed places and in front of others. -/
structure Standing (problem : Problem S I O n) (c : Configuration n S)
    (past : List (List (Fin n))) (passed ahead : List (Place n)) : Prop where
  descent : problem.Descent c.choices c.order.toList c.state c.links past
  pending : problem.timeline.pending c.order.toList = passed ++ ahead
  calls : ∀ q ∈ passed, (problem.timeline.events.get q).phase = .call
  cursor : c.cursor = ahead.head?
  linearized : ∀ i, i ∈ c.linearized ↔ i ∈ c.order.toList
  longest : c.longest =
    Longest.empty.recordAll (past ++ problem.explored c.order.toList c.state passed)
  unfinished : ∀ order ∈ past ++ problem.explored c.order.toList c.state passed, order.length ≠ n
  memo : ∀ set s, s ∈ c.memo.statesOf set → problem.Known c.longest c.order.toList set s

variable {problem : Problem S I O n} {c c' : Configuration n S} {longest longest' : Longest n}
  {order order' : List (Fin n)} {past : List (List (Fin n))} {passed ahead : List (Place n)}
  {p : Place n} {s t : S}

theorem Settled.of_grows (h : problem.Settled longest order s) (hg : longest.Grows longest') :
    problem.Settled longest' order s :=
  fun rest hr => ⟨(h rest hr).1.of_grows hg, (h rest hr).2⟩

theorem Settled.of_perm (h : problem.Settled longest order s) (hp : order.Perm order') :
    problem.Settled longest order' s := by
  intro rest hr
  rw [← continuations_congr fun _ => hp.mem_iff] at hr
  obtain ⟨hc, hl⟩ := h rest hr
  have hp' := hp.append_right rest
  exact ⟨hc.of_perm hp', hp'.length_eq ▸ hl⟩

namespace Standing

theorem splits (h : problem.Standing c past passed (p :: ahead)) :
    problem.Splits c.order.toList passed p ahead :=
  ⟨h.pending, h.calls⟩

theorem start : problem.Standing problem.start [] [] (List.finRange (2 * n)) where
  descent := .start
  pending := by simp [Timeline.pending, Problem.start]
  calls := by simp
  cursor := (Links.threads_all (2 * n)).first
  linearized := by simp [Problem.start]
  longest := rfl
  unfinished := by simp
  memo := by simp [Problem.start]

theorem exists_cons (h : problem.Standing c past passed ahead) (hc : c.cursor = some p) :
    ∃ behind, ahead = p :: behind :=
  List.head?_eq_some_iff.mp (h.cursor ▸ hc)

theorem length_lt (h : problem.Standing c past passed (p :: ahead)) :
    c.order.toList.length < n := by
  have hnodup := List.nodup_cons.mpr ⟨h.splits.not_mem, h.descent.nodup⟩
  exact hnodup.length_le_card.trans_eq (Fintype.card_fin n)

/-- A call that is not taken leads to no order that is new. -/
theorem covers_of_barred (h : problem.Standing c past passed (p :: ahead))
    (hb : problem.Barred c (problem.timeline.events.get p).op) :
    ∀ order ∈ problem.explored c.order.toList c.state [p],
      c.longest.Covers order ∧ order.length ≠ n := by
  rcases hb with hn | ⟨t, ht, hm⟩
  · simp [explored_singleton_of_none hn]
  · obtain ⟨order, hd, hi, hk⟩ := h.memo _ _ hm
    have hn := h.splits.not_mem
    have hp : order.Perm (c.order.toList ++ [(problem.timeline.events.get p).op]) := by
      rw [List.perm_ext_iff_of_nodup hd (by have := h.descent.nodup; grind)]
      intro i
      rw [← hi, OperationSet.mem_insert, h.linearized, List.mem_append, List.mem_singleton, or_comm]
    rcases hk with ⟨hk, _⟩ | hk
    · -- no part of the current order has the operation of the place visited
      exact absurd (hk.subset (hp.mem_iff.mpr (by simp))) hn
    · rw [explored_singleton ht]
      exact List.forall_mem_map.mpr (hk.of_perm hp)

theorem pass (hl : problem.timeline.Lays problem.operations)
    (h : problem.Standing c past passed (p :: ahead))
    (hc : (problem.timeline.events.get p).phase = .call)
    (hb : problem.Barred c (problem.timeline.events.get p).op) :
    problem.Standing (Problem.pass { c with visits := c.visits + 1 } p) past (passed ++ [p])
      ahead := by
  have hcovers := h.covers_of_barred hb
  have hpending : problem.timeline.pending c.order.toList = passed ++ [p] ++ ahead := by
    rw [h.pending, List.append_cons]
  have hlongest : c.longest = Longest.empty.recordAll
      (past ++ problem.explored c.order.toList c.state (passed ++ [p])) := by
    rw [explored_append, ← List.append_assoc, Longest.recordAll_append, ← h.longest]
    exact (Longest.recordAll_eq_self fun order ho => (hcovers order ho).1).symm
  have hunfinished : ∀ order ∈ past ++ problem.explored c.order.toList c.state (passed ++ [p]),
      order.length ≠ n := by
    rw [explored_append, ← List.append_assoc, List.forall_mem_append]
    exact ⟨h.unfinished, fun order ho => (hcovers order ho).2⟩
  constructor
  case descent => exact h.descent
  case pending => exact hpending
  case calls =>
    have := h.calls
    grind
  case cursor => exact (h.descent.threads hl).next passed p ahead h.pending
  case linearized => exact h.linearized
  case longest => exact hlongest
  case unfinished => exact hunfinished
  case memo => exact h.memo

theorem choose {memo : Memo n S} (hl : problem.timeline.Lays problem.operations)
    (h : problem.Standing c past passed (p :: ahead))
    (hc : (problem.timeline.events.get p).phase = .call)
    (ht : problem.next? c.state (problem.timeline.events.get p).op = some t)
    (hm : ∀ set u, u ∈ memo.statesOf set → u ∈ c.memo.statesOf set ∨
      set = c.linearized.insert (problem.timeline.events.get p).op ∧ u = t) :
    problem.Standing
      (problem.lift { c with visits := c.visits + 1 } p (problem.timeline.events.get p).op t memo)
      (past ++ problem.explored c.order.toList c.state passed) []
      (problem.timeline.pending (c.order.toList ++ [(problem.timeline.events.get p).op])) := by
  have hd := Descent.choose h.descent h.splits hc ht
  have hpush : (c.order.push (problem.timeline.events.get p).op).toList =
      c.order.toList ++ [(problem.timeline.events.get p).op] := Array.toList_push
  have hlinearized : ∀ i, i ∈ c.linearized.insert (problem.timeline.events.get p).op ↔
      i ∈ c.order.toList ++ [(problem.timeline.events.get p).op] := by
    simp [h.linearized, or_comm]
  constructor
  case descent => exact hpush ▸ hd
  case pending => exact congrArg _ hpush
  case calls => simp
  case cursor => exact (hd.threads hl).first
  case linearized => exact hpush ▸ hlinearized
  case longest =>
    rw [explored_nil, List.append_nil]
    exact h.longest
  case unfinished =>
    rw [explored_nil, List.append_nil]
    exact h.unfinished
  case memo =>
    intro set u hu
    obtain hu | ⟨rfl, rfl⟩ := hm set u hu
    · obtain ⟨order, hn, hi, hk⟩ := h.memo set u hu
      refine ⟨order, hn, hi, hk.imp_left fun hk => ⟨hk.1.trans ?_, hk.2⟩⟩
      exact hpush ▸ List.prefix_append _ _
    · exact ⟨_, hd.nodup, hlinearized, .inl ⟨hpush ▸ List.prefix_rfl, hd.after?_order⟩⟩

theorem record_eq (h : problem.Standing c past passed ahead) : c.longest.record c.order =
    Longest.empty.recordAll
      (past ++ problem.explored c.order.toList c.state passed ++ [c.order.toList]) := by
  rw [Longest.recordAll_append, ← h.longest]
  rfl

theorem unfinished_of_ret (h : problem.Standing c past passed (p :: ahead)) :
    ∀ order ∈ past ++ problem.explored c.order.toList c.state passed ++ [c.order.toList],
      order.length ≠ n := by
  rw [List.forall_mem_append]
  refine ⟨h.unfinished, ?_⟩
  simpa using h.length_lt.ne

/-- At a return, all continuations of the current order have been seen. -/
theorem map_continuations_of_ret (h : problem.Standing c past passed (p :: ahead))
    (hr : (problem.timeline.events.get p).phase = .ret) :
    (problem.continuations c.order.toList c.state).map (c.order.toList ++ ·) =
      problem.explored c.order.toList c.state passed ++ [c.order.toList] := by
  rw [map_continuations, h.splits.front_eq_of_ret hr]

theorem settled_of_ret (h : problem.Standing c past passed (p :: ahead))
    (hr : (problem.timeline.events.get p).phase = .ret) :
    problem.Settled (c.longest.record c.order) c.order.toList c.state := by
  intro rest hrest
  have hm : c.order.toList ++ rest ∈
      past ++ problem.explored c.order.toList c.state passed ++ [c.order.toList] := by
    rw [List.append_assoc, ← h.map_continuations_of_ret hr]
    exact List.mem_append_right _ (List.mem_map_of_mem hrest)
  exact ⟨h.record_eq ▸ Longest.covers_recordAll hm, h.unfinished_of_ret _ hm⟩

theorem undo {q : Place n} {u : S} {choices : List (Place n × S)}
    (hl : problem.timeline.Lays problem.operations)
    (h : problem.Standing c past passed (p :: ahead))
    (hr : (problem.timeline.events.get p).phase = .ret) (hc : c.choices = (q, u) :: choices) :
    ∃ past passed ahead, problem.Standing
      (problem.unlift { c with visits := c.visits + 1 } q u choices) past (passed ++ [q])
      ahead := by
  obtain ⟨order, links, past', passed', ahead', hd, hs, hq, hu, ho, hlinks, rfl⟩ :=
    (hc ▸ h.descent).exists_of_cons
  obtain rfl : order = c.order.pop.toList := by simp [ho]
  obtain rfl : links = c.links.unlift q
      (problem.timeline.returnOf.get (problem.timeline.events.get q).op) := by
    rw [hlinks, hd.unlift_lift hl hs hq]
  have hseen : past' ++ problem.explored c.order.pop.toList u (passed' ++ [q]) =
      past' ++ problem.explored c.order.pop.toList u passed' ++
        problem.explored c.order.toList c.state passed ++ [c.order.toList] := by
    rw [explored_append, explored_singleton hu, ← ho, h.map_continuations_of_ret hr]
    simp only [List.append_assoc]
  have hlinearized : ∀ i, i ∈ c.linearized.erase (problem.timeline.events.get q).op ↔
      i ∈ c.order.pop.toList := by
    intro i
    have := hs.not_mem
    rw [OperationSet.mem_erase, h.linearized, ho]
    grind
  refine ⟨past', passed', ahead', ?_⟩
  constructor
  case descent => exact hd
  case pending =>
    rw [← List.append_cons]
    exact hs.pending
  case calls =>
    have := hs.calls
    grind
  case cursor => exact (hd.threads hl).next passed' q ahead' hs.pending
  case linearized => exact hlinearized
  case longest => exact h.record_eq.trans (congrArg _ hseen.symm)
  case unfinished => exact hseen ▸ h.unfinished_of_ret
  case memo =>
    intro set v hv
    obtain ⟨known, hn, hi, hk⟩ := h.memo set v hv
    refine ⟨known, hn, hi, ?_⟩
    rcases hk with ⟨hk, ha⟩ | hk
    · rw [ho, List.prefix_concat_iff, ← ho] at hk
      rcases hk with rfl | hk
      · -- the pair of the current order itself is settled now
        rw [h.descent.after?_order, Option.some.injEq] at ha
        exact .inr (ha ▸ h.settled_of_ret hr)
      · exact .inl ⟨hk, ha⟩
    · exact .inr (hk.of_grows Longest.grows_record)

end Standing

/-- Wherever the search can stand, it can stand after a turn. -/
theorem Turn.exists_standing (hl : problem.timeline.Lays problem.operations)
    (ht : problem.Turn c c') (h : ∃ past passed ahead, problem.Standing c past passed ahead) :
    ∃ past passed ahead, problem.Standing c' past passed ahead := by
  obtain ⟨past, passed, ahead, h⟩ := h
  cases ht with
  | pass hc hp hb =>
    obtain ⟨behind, rfl⟩ := h.exists_cons hc
    exact ⟨_, _, _, h.pass hl hp hb⟩
  | choose hc hp ht hm =>
    obtain ⟨behind, rfl⟩ := h.exists_cons hc
    exact ⟨_, _, _, h.choose hl hp ht hm⟩
  | undo hc hr hlast =>
    obtain ⟨behind, rfl⟩ := h.exists_cons hc
    obtain ⟨past, passed, ahead, h'⟩ := h.undo hl hr hlast
    exact ⟨_, _, _, h'⟩

end Problem

end Linearizability
