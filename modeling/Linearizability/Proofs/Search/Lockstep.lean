import Linearizability.Proofs.Search.Plain
import Linearizability.Proofs.Search.Termination
import Linearizability.Register

/-! # What the search keeps in lockstep

A search changes several structures at once, and takes the changes back when it undoes a choice.
Whenever it is about to visit a place, they agree: the set, the order and the choices have the same
operations, the states are those the model reaches, and the links lead through what is left of the
time line, with no return in front of the cursor.
-/

namespace Linearizability

variable {S I O : Type} {n : Nat}

theorem Timeline.map_events_pending (operations : Vector (Operation I O) n)
    (order : List (Fin n)) :
    ((of operations).pending order).map (of operations).events.get =
      (sortedEvents operations).filter fun event => event.op ∉ order := by
  have hsorted : sortedEvents operations =
      (List.finRange (2 * n)).map (of operations).events.get := by
    rw [← Problem.toList_eq_map_get]
    rfl
  rw [hsorted, List.filter_map, pending]
  rfl

namespace Problem

/-- The parts of a configuration agree with each other. -/
structure Coherent (problem : Problem S I O n) (c : Configuration n S) : Prop where
  linearized : ∀ i, i ∈ c.linearized ↔ i ∈ c.order.toList
  nodup : c.order.toList.Nodup
  calls : ∀ choice ∈ c.choices, (problem.timeline.events.get choice.1).phase = .call
  order : c.order.toList =
    c.choices.reverse.map fun choice => (problem.timeline.events.get choice.1).op
  state : problem.model.replay
    (c.order.toList.map fun i => (problem.operations.get i).exchange) = .ok c.state
  /-- With each choice the state is kept that the operations chosen in front of it lead to. -/
  saved : ∀ k p s, c.choices.reverse[k]? = some (p, s) → problem.model.replay
    ((c.order.toList.take k).map fun i => (problem.operations.get i).exchange) = .ok s
  /-- The links lead from the first place to the last one, and back. -/
  threads : c.links.Threads c.links.places
  events : (c.links.places.map problem.timeline.events.get).Perm
    ((Timeline.eventsOf problem.operations).filter fun event => event.op ∉ c.order.toList)
  sorted : (c.links.places.map problem.timeline.events.get).Pairwise fun a b =>
    a.time < b.time ∨ a.time = b.time ∧ (a.phase = .call ∨ b.phase = .ret)
  cursor : ∃ passed ahead, c.links.places = passed ++ ahead ∧ c.cursor = ahead.head? ∧
    ∀ q ∈ passed, (problem.timeline.events.get q).phase = .call

variable {problem : Problem S I O n} {c : Configuration n S} {past : List (List (Fin n))}
  {passed ahead : List (Place n)}

namespace Descent

variable {choices : List (Place n × S)} {order : List (Fin n)} {s t : S} {links : Links (2 * n)}
  {p : Place n}

theorem calls (h : problem.Descent choices order s links past) :
    ∀ choice ∈ choices, (problem.timeline.events.get choice.1).phase = .call := by
  induction h with
  | start => simp
  | choose _ _ call _ ih => exact List.forall_mem_cons.mpr ⟨call, ih⟩

theorem order_eq (h : problem.Descent choices order s links past) :
    order = choices.reverse.map fun choice => (problem.timeline.events.get choice.1).op := by
  induction h with
  | start => rfl
  | choose _ _ _ _ ih => simp [ih]

theorem after?_take (h : problem.Descent choices order s links past) {k : Nat}
    (hk : choices.reverse[k]? = some (p, t)) :
    problem.after? problem.model.init (order.take k) = some t := by
  induction h with
  | start => simp at hk
  | @choose choices order _ _ _ _ _ _ _ descent _ _ _ ih =>
    have hlen := descent.length_choices
    rw [List.reverse_cons] at hk
    rcases Nat.lt_trichotomy k order.length with hlt | rfl | hgt
    · rw [List.getElem?_append_left (by simpa [hlen] using hlt)] at hk
      rw [List.take_append_of_le_length hlt.le]
      exact ih hk
    · simp [← hlen] at hk
      rw [List.take_left]
      exact hk.2 ▸ descent.after?_order
    · rw [List.getElem?_eq_none (by simp; omega)] at hk
      cases hk

end Descent

theorem replay_eq_ok {order : List (Fin n)} {s : S}
    (h : problem.after? problem.model.init order = some s) :
    problem.model.replay (order.map fun i => (problem.operations.get i).exchange) = .ok s :=
  Model.replay_eq_ok_iff.mpr h

theorem Standing.coherent {model : Model S I O} {operations : Vector (Operation I O) n}
    (h : (of model operations).Standing c past passed ahead) :
    (of model operations).Coherent c := by
  have hl : (of model operations).timeline.Lays (of model operations).operations :=
    Timeline.lays_of operations
  have hthreads := h.descent.threads hl
  have hplaces : c.links.places = (of model operations).timeline.pending c.order.toList :=
    hthreads.places_eq
  constructor
  case linearized => exact h.linearized
  case nodup => exact h.descent.nodup
  case calls => exact h.descent.calls
  case order => exact h.descent.order_eq
  case state => exact replay_eq_ok h.descent.after?_order
  case saved => exact fun k p s hk => replay_eq_ok (h.descent.after?_take hk)
  case threads => exact hplaces ▸ hthreads
  case events =>
    have hsorted : (Timeline.sortedEvents operations).Perm (Timeline.eventsOf operations) :=
      List.mergeSort_perm _ _
    rw [hplaces]
    exact (Timeline.map_events_pending operations c.order.toList) ▸ hsorted.filter _
  case sorted =>
    rw [hplaces, List.pairwise_map]
    exact (Timeline.pairwise_pending _ _).imp fun {p q} hlt =>
      Event.notAfter_iff.mp (hl.sorted p q hlt)
  case cursor => exact ⟨passed, ahead, hplaces.trans h.pending, h.cursor, h.calls⟩

/-- Whenever the search is about to visit a place, its parts agree, and what it does next, in plain
arrays, uses no slot that they do not have. -/
theorem coherent_at_every_visit [DecidableEq S] (model : Model S I O)
    (operations : Vector (Operation I O) n) (stop : Nat → Bool) {k : Nat}
    (h : (of model operations).run stop k (.searching (of model operations).start) =
      .searching c) :
    (of model operations).Coherent c ∧
      Plain.step? (of model operations) stop (.of (of model operations).timeline c) =
        some (.of (of model operations).timeline ((of model operations).step stop c)) := by
  obtain ⟨past, passed, ahead, hs⟩ := (reached_of_run (Timeline.lays_of operations) h).standing
  have hc := hs.coherent
  exact ⟨hc, Plain.step?_of stop hc.calls⟩

end Problem

namespace Turning

def history : Vector (Operation Register.Command Int) 3 :=
  #v[⟨⟨1⟩, .write 1, ⟨0⟩, 0, ⟨1⟩⟩, ⟨⟨1⟩, .write 2, ⟨2⟩, 0, ⟨3⟩⟩, ⟨⟨2⟩, .read, ⟨4⟩, 1, ⟨5⟩⟩]

def problem : Problem Int Register.Command Int 3 := .of Register.model history

def held : Progress 3 Int → Option (List (Fin 3) × Option (Place 3))
  | .searching c => some (c.order.toList, c.cursor)
  | .finished _ _ => none

end Turning

/-- The search has turned back from the read and the second write, and is about to turn back from
the first one. -/
theorem coherent_at_every_visit_turning :
    ∃ c, Turning.problem.run (fun _ => false) 4 (.searching Turning.problem.start) =
        .searching c ∧
      c.order.toList = [0] ∧ c.cursor = some 3 ∧ Turning.problem.Coherent c ∧
      Plain.step? Turning.problem (fun _ => false) (.of Turning.problem.timeline c) =
        some (.of Turning.problem.timeline (Turning.problem.step (fun _ => false) c)) := by
  have hheld : Turning.held (Turning.problem.run (fun _ => false) 4
      (.searching Turning.problem.start)) = some ([0], some 3) := by
    simp only [Turning.problem, Problem.of, Timeline.of, Event.mergeSort_notAfter]
    decide +kernel
  cases hr : Turning.problem.run (fun _ => false) 4 (.searching Turning.problem.start) with
  | finished outcome longest =>
    rw [hr] at hheld
    cases hheld
  | searching c =>
    rw [hr, Turning.held, Option.some.injEq, Prod.mk.injEq] at hheld
    obtain ⟨hc, hplain⟩ :=
      Problem.coherent_at_every_visit Register.model Turning.history (fun _ => false) hr
    exact ⟨c, rfl, hheld.1, hheld.2, hc, hplain⟩

end Linearizability
