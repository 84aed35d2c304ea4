import Linearizability.Proofs.Search.Sequential

/-! # Searches that go straight on

While the operations called first can be replayed, a search of operations that do not overlap
linearizes one of them at each visit. It turns back from nothing, so nothing is recorded, and if
it is stopped then, it has nothing to tell.
-/

namespace Linearizability

variable {S I O : Type} {n : Nat} {operations : Vector (Operation I O) n} {model : Model S I O}
  {order before behind : List (Fin n)} {i : Fin n} {stop : Nat → Bool}

namespace Sequential

/-- Behind the operations called first, the call that comes next is alone at the front. -/
theorem mem_front_iff (h : Sequential operations)
    (hb : before ++ i :: behind = callOrder operations) {p : Place n} :
    p ∈ (Timeline.of operations).front before ↔
      ((Timeline.of operations).events.get p).phase = .call ∧
        ((Timeline.of operations).events.get p).op = i := by
  rw [(Timeline.lays_of operations).mem_front_iff, and_congr_right_iff]
  intro _
  generalize ((Timeline.of operations).events.get p).op = j
  constructor
  · rintro ⟨hj, ht⟩
    have hmem : j ∈ before ++ i :: behind := hb ▸ mem_callOrder
    rcases List.mem_append.mp hmem with hm | hm
    · exact absurd hm hj
    · rcases List.mem_cons.mp hm with rfl | hm
      · rfl
      · exact absurd (h.ret_lt_call_of_mem_behind hb hm) (ht i (h.notMem_before hb))
  · rintro rfl
    exact ⟨h.notMem_before hb, fun k hk => mt (h.mem_before_iff hb).mpr hk⟩

end Sequential

/-- The search has linearized some operations one after another, and not turned back. -/
structure Straight (problem : Problem S I O n) (order : List (Fin n)) (c : Configuration n S) :
    Prop where
  standing : ∃ past ahead, problem.Standing c past [] ahead
  order : c.order.toList = order
  longest : c.longest = .empty

namespace Straight

variable {c c' : Configuration n S} {outcome : Outcome} {longest : Longest n} {p : Place n}

theorem start (problem : Problem S I O n) : Straight problem [] problem.start :=
  ⟨⟨_, _, Problem.Standing.start⟩, rfl, rfl⟩

theorem exists_cursor (hs : Sequential operations)
    (hb : before ++ i :: behind = callOrder operations)
    (h : Straight (Problem.of model operations) before c) :
    ∃ p, c.cursor = some p ∧ ((Timeline.of operations).events.get p).phase = .call ∧
      ((Timeline.of operations).events.get p).op = i := by
  obtain ⟨⟨past, ahead, hst⟩, rfl, -⟩ := h
  have hahead : (Timeline.of operations).pending c.order.toList = ahead := hst.pending
  obtain ⟨q, hq⟩ := (Timeline.lays_of operations).exists_call i
  have hfront := (hs.mem_front_iff hb).mpr hq.symm
  have hmem := Timeline.mem_pending_of_mem_front hfront
  rw [hahead] at hmem
  cases ahead with
  | nil => cases hmem
  | cons p ahead =>
    exact ⟨p, hst.cursor, (hs.mem_front_iff hb).mp (hst.splits.mem_front hfront)⟩

theorem turn (hs : Sequential operations) (hb : before ++ i :: behind = callOrder operations)
    (hl : ∃ t, (Problem.of model operations).after? model.init (before ++ [i]) = some t)
    (h : Straight (Problem.of model operations) before c)
    (ht : (Problem.of model operations).Turn c c') :
    Straight (Problem.of model operations) (before ++ [i]) c' := by
  obtain ⟨p, hcur, hcall, hop⟩ := h.exists_cursor hs hb
  obtain ⟨⟨past, ahead, hst⟩, rfl, hlong⟩ := h
  cases ht with
  | pass hc hp hbarred =>
    cases hcur.symm.trans hc
    obtain ⟨t, hn⟩ : ∃ t, (Problem.of model operations).next? c.state i = some t := by
      have ho : (Problem.of model operations).after? model.init c.order.toList = some c.state :=
        hst.descent.after?_order
      obtain ⟨t, ha⟩ := hl
      rw [Problem.after?_append, ho, Option.bind_some, Problem.after?_singleton] at ha
      exact ⟨t, ha⟩
    obtain ⟨_, rfl⟩ := hst.exists_cons hc
    -- nothing has been recorded that could cover the order with this operation
    have hm : c.order.toList ++ [i] ++ [] ∈
        (Problem.of model operations).explored c.order.toList c.state [p] := by
      subst hop
      rw [Problem.explored_singleton hn]
      exact List.mem_map_of_mem (by simp [Problem.continuations_eq])
    obtain ⟨kept, hk, -⟩ := (hst.covers_of_barred hbarred _ hm).1 i (by simp)
    simp [hlong] at hk
  | choose hc hp ht hm =>
    cases hcur.symm.trans hc
    obtain ⟨_, rfl⟩ := hst.exists_cons hc
    subst hop
    exact ⟨⟨_, _, hst.choose (Timeline.lays_of operations) hp ht hm⟩, Array.toList_push, hlong⟩
  | undo hc hr =>
    cases hcur.symm.trans hc
    cases hcall.symm.trans hr

theorem exit (hs : Sequential operations) (hb : before ++ i :: behind = callOrder operations)
    (h : Straight (Problem.of model operations) before c)
    (he : (Problem.of model operations).Exit stop c outcome longest) :
    outcome = .aborted ∧ (c.visits + 1) % Problem.stopInterval = 0 ∧
      stop (c.visits + 1) = true := by
  obtain ⟨p, hcur, hcall, -⟩ := h.exists_cursor hs hb
  cases he with
  | linearizable hc => cases hcur.symm.trans hc
  | notLinearizable hc hr =>
    cases hcur.symm.trans hc
    cases hcall.symm.trans hr
  | aborted _ hlook hstop => exact ⟨rfl, hlook, hstop⟩

end Straight

namespace Sequential

variable [DecidableEq S]

/-- The search linearizes as many operations as it visits places, if no look tells it to stop. -/
theorem exists_run_straight (h : Sequential operations) (hp : order <+: callOrder operations)
    (hl : ∃ t, model.replay (order.map fun i => (operations.get i).exchange) = .ok t)
    (hs : ∀ visit ≤ order.length, 0 < visit → visit % Problem.stopInterval = 0 →
      stop visit = false) :
    ∃ c, (Problem.of model operations).run stop order.length
        (.searching (Problem.of model operations).start) = .searching c ∧
      Straight (Problem.of model operations) order c := by
  simp only [Model.replay_eq_ok_iff] at hl
  induction order using List.reverseRecOn with
  | nil => exact ⟨_, rfl, .start _⟩
  | append_singleton before i ih =>
    obtain ⟨behind, hb⟩ := hp
    rw [List.append_assoc, List.singleton_append] at hb
    have hbefore : ∃ t, model.after? model.init
        (before.map fun i => (operations.get i).exchange) = some t := by
      obtain ⟨t, ha⟩ := hl
      rw [List.map_append, Model.after?_append, Option.bind_eq_some_iff] at ha
      obtain ⟨t', ha, -⟩ := ha
      exact ⟨t', ha⟩
    obtain ⟨c, hc, hst⟩ := ih ⟨_, hb⟩ (fun visit hv => hs visit (by simp; omega)) hbefore
    have hv := (Problem.reached_of_run (Timeline.lays_of operations) hc).visits
    have hf := (Problem.of model operations).follows_step stop
    rw [List.length_append, List.length_singleton, Problem.run_succ, hc]
    cases hn : (Problem.of model operations).step stop c with
    | searching c' => exact ⟨c', hn, hst.turn h hb hl (hf.turn c c' hn)⟩
    | finished outcome longest =>
      obtain ⟨-, hlook, hstop⟩ := hst.exit h hb (hf.exit c outcome longest hn)
      rw [hv] at hlook hstop
      rw [hs _ (by simp) (Nat.succ_pos _) hlook] at hstop
      cases hstop

/-- If the search is stopped before it turns back, it tells nothing of what it holds. -/
theorem search_of_first_stop (model : Model S I O) (stop : Nat → Bool)
    (h : Sequential operations) (hp : order <+: callOrder operations) (hn : order.length < n)
    (hl : ∃ t, model.replay (order.map fun i => (operations.get i).exchange) = .ok t)
    (hs : ∀ visit ≤ order.length, 0 < visit → visit % Problem.stopInterval = 0 →
      stop visit = false)
    (hlook : (order.length + 1) % Problem.stopInterval = 0)
    (hstop : stop (order.length + 1) = true) :
    ∃ c, (Problem.of model operations).run stop order.length
        (.searching (Problem.of model operations).start) = .searching c ∧
      c.order.toList = order ∧ (Problem.of model operations).search stop = (.aborted, []) := by
  have hlays := Timeline.lays_of operations
  obtain ⟨c, hc, hst⟩ := h.exists_run_straight hp hl hs
  refine ⟨c, hc, hst.order, ?_⟩
  obtain ⟨behind, hb⟩ := hp
  cases behind with
  | nil =>
    have hlen := congrArg List.length hb
    rw [List.append_nil, length_callOrder] at hlen
    omega
  | cons i behind =>
    obtain ⟨p, hcur, -⟩ := hst.exists_cursor h hb
    have hv : c.visits = order.length := (Problem.reached_of_run hlays hc).visits
    have hstep : (Problem.of model operations).stepBy (Problem.of model operations).visitCall
        stop c = .finished .aborted c.longest :=
      Problem.stepBy_of_stop hcur (by rw [hv]; exact ⟨hlook, hstop⟩)
    have hrun : (Problem.of model operations).run stop (order.length + 1)
        (.searching (Problem.of model operations).start) = .finished .aborted .empty := by
      rw [Problem.run_succ, hc, ← hst.longest]
      exact hstep
    rw [Problem.search_of_run hlays hrun, Longest.toList_empty]

end Sequential

end Linearizability
