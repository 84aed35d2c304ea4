import Linearizability.Proofs.Search.Continuations

/-! # Descents

Wherever the search stands, its choices say how it got there: they determine the order
linearized, the state, the links of the time line and the orders it has turned back from. Undoing
the last choice leads back to the links in front of it.
-/

namespace Linearizability

namespace Problem

variable {S I O : Type} {n : Nat} {problem : Problem S I O n}

/-- All continuations of an order that begin at some places, the order included. -/
def explored (problem : Problem S I O n) (order : List (Fin n)) (s : S)
    (places : List (Place n)) : List (List (Fin n)) :=
  (places.flatMap (problem.branch order s)).map (order ++ ·)

@[simp] theorem explored_nil (order : List (Fin n)) (s : S) : problem.explored order s [] = [] :=
  rfl

theorem explored_append (order : List (Fin n)) (s : S) (places places' : List (Place n)) :
    problem.explored order s (places ++ places') =
      problem.explored order s places ++ problem.explored order s places' := by
  simp [explored]

/-- The continuations of an order are those at its front, and behind them the order itself. -/
theorem map_continuations (order : List (Fin n)) (s : S) :
    (problem.continuations order s).map (order ++ ·) =
      problem.explored order s (problem.timeline.front order) ++ [order] := by
  simp [continuations_eq, explored]

theorem explored_singleton {order : List (Fin n)} {s t : S} {p : Place n}
    (h : problem.next? s (problem.timeline.events.get p).op = some t) :
    problem.explored order s [p] =
      (problem.continuations (order ++ [(problem.timeline.events.get p).op]) t).map
        (order ++ [(problem.timeline.events.get p).op] ++ ·) := by
  simp [explored, branch_of_next?_eq_some h]

theorem explored_singleton_of_none {order : List (Fin n)} {s : S} {p : Place n}
    (h : problem.next? s (problem.timeline.events.get p).op = none) :
    problem.explored order s [p] = [] := by
  simp [explored, branch_of_next?_eq_none h]

theorem after?_append (s : S) (order order' : List (Fin n)) :
    problem.after? s (order ++ order') =
      (problem.after? s order).bind (problem.after? · order') := by
  simp only [after?, List.map_append, Model.after?_append]

theorem after?_singleton (s : S) (i : Fin n) : problem.after? s [i] = problem.next? s i := by
  simp [after?, next?]

/-- A place divides the pending ones, with only calls in front of it. -/
structure Splits (problem : Problem S I O n) (order : List (Fin n)) (passed : List (Place n))
    (p : Place n) (ahead : List (Place n)) : Prop where
  pending : problem.timeline.pending order = passed ++ p :: ahead
  calls : ∀ q ∈ passed, (problem.timeline.events.get q).phase = .call

/-- Choices that the search can have made one after the other, with the order, the state and the
links they lead to and the orders turned back from in between. -/
inductive Descent (problem : Problem S I O n) : List (Place n × S) → List (Fin n) → S →
    Links (2 * n) → List (List (Fin n)) → Prop where
  | start : Descent problem [] [] problem.model.init (.all (2 * n)) []
  | choose {choices : List (Place n × S)} {order : List (Fin n)} {s t : S}
      {links : Links (2 * n)} {past : List (List (Fin n))} {passed ahead : List (Place n)}
      {p : Place n} (descent : Descent problem choices order s links past)
      (splits : problem.Splits order passed p ahead)
      (call : (problem.timeline.events.get p).phase = .call)
      (legal : problem.next? s (problem.timeline.events.get p).op = some t) :
      Descent problem ((p, s) :: choices) (order ++ [(problem.timeline.events.get p).op]) t
        (links.lift p (problem.timeline.returnOf.get (problem.timeline.events.get p).op))
        (past ++ problem.explored order s passed)

namespace Splits

variable {order : List (Fin n)} {passed ahead : List (Place n)} {p : Place n}

theorem mem_pending (h : problem.Splits order passed p ahead) :
    p ∈ problem.timeline.pending order := by
  simp [h.pending]

theorem not_mem (h : problem.Splits order passed p ahead) :
    (problem.timeline.events.get p).op ∉ order :=
  Timeline.mem_pending.mp h.mem_pending

/-- The calls passed are the front if a return comes next. -/
theorem front_eq_of_ret (h : problem.Splits order passed p ahead)
    (hp : (problem.timeline.events.get p).phase = .ret) :
    problem.timeline.front order = passed := by
  rw [Timeline.front, h.pending, List.takeWhile_append_of_pos (by simpa using h.calls)]
  simp [hp]

theorem front_eq_of_call (h : problem.Splits order passed p ahead)
    (hp : (problem.timeline.events.get p).phase = .call) :
    ∃ behind, problem.timeline.front order = passed ++ p :: behind := by
  rw [Timeline.front, h.pending, List.takeWhile_append_of_pos (by simpa using h.calls),
    List.takeWhile_cons_of_pos (by simpa using hp)]
  exact ⟨_, rfl⟩

theorem mem_front {q : Place n} (h : problem.Splits order [] p ahead)
    (hq : q ∈ problem.timeline.front order) : p ∈ problem.timeline.front order := by
  cases hp : (problem.timeline.events.get p).phase with
  | call =>
    obtain ⟨behind, hb⟩ := h.front_eq_of_call hp
    simp [hb]
  | ret => simp [h.front_eq_of_ret hp] at hq

end Splits

namespace Descent

variable {choices : List (Place n × S)} {order : List (Fin n)} {s : S} {links : Links (2 * n)}
  {past : List (List (Fin n))} {passed ahead : List (Place n)} {p : Place n}

theorem nodup (h : problem.Descent choices order s links past) : order.Nodup := by
  induction h with
  | start => exact List.nodup_nil
  | choose _ splits _ _ ih =>
    have := splits.not_mem
    grind

theorem eq_start (h : problem.Descent [] order s links past) :
    order = [] ∧ s = problem.model.init ∧ past = [] := by
  cases h
  exact ⟨rfl, rfl, rfl⟩

theorem exists_of_cons {choices : List (Place n × S)} {t : S}
    (h : problem.Descent ((p, s) :: choices) order t links past) :
    ∃ order' links' past' passed ahead, problem.Descent choices order' s links' past' ∧
      problem.Splits order' passed p ahead ∧ (problem.timeline.events.get p).phase = .call ∧
      problem.next? s (problem.timeline.events.get p).op = some t ∧
      order = order' ++ [(problem.timeline.events.get p).op] ∧
      links = links'.lift p
        (problem.timeline.returnOf.get (problem.timeline.events.get p).op) ∧
      past = past' ++ problem.explored order' s passed := by
  cases h with
  | choose descent splits call legal =>
    exact ⟨_, _, _, _, _, descent, splits, call, legal, rfl, rfl, rfl⟩

theorem length_choices (h : problem.Descent choices order s links past) :
    choices.length = order.length := by
  induction h with
  | start => rfl
  | choose _ _ _ _ ih => simp [ih]

theorem after?_order (h : problem.Descent choices order s links past) :
    problem.after? problem.model.init order = some s := by
  induction h with
  | start => rfl
  | choose _ _ _ legal ih => rw [after?_append, ih, Option.bind_some, after?_singleton, legal]

theorem threads (hl : problem.timeline.Lays problem.operations)
    (h : problem.Descent choices order s links past) :
    links.Threads (problem.timeline.pending order) := by
  induction h with
  | start => simpa [Timeline.pending] using Links.threads_all (2 * n)
  | choose _ splits call _ ih => exact hl.threads_lift ih call splits.not_mem

theorem unlift_lift (hl : problem.timeline.Lays problem.operations)
    (h : problem.Descent choices order s links past) (hs : problem.Splits order passed p ahead)
    (hp : (problem.timeline.events.get p).phase = .call) :
    (links.lift p (problem.timeline.returnOf.get (problem.timeline.events.get p).op)).unlift p
      (problem.timeline.returnOf.get (problem.timeline.events.get p).op) = links :=
  hl.unlift_lift (h.threads hl) hp hs.not_mem

/-- The orders turned back from, and then the continuations of the order reached, are the first
ones of all continuations. -/
theorem past_prefix (h : problem.Descent choices order s links past) :
    past ++ (problem.continuations order s).map (order ++ ·) <+:
      problem.continuations [] problem.model.init := by
  induction h with
  | start => simp
  | @choose _ order s _ _ past passed _ p _ splits call legal ih =>
    obtain ⟨behind, hf⟩ := splits.front_eq_of_call call
    refine List.IsPrefix.trans ?_ ih
    rw [map_continuations order s, hf, List.append_cons passed p behind, explored_append,
      explored_append, explored_singleton legal]
    simp only [List.append_assoc]
    exact (List.prefix_append_right_inj _).mpr
      ((List.prefix_append_right_inj _).mpr (List.prefix_append _ _))

end Descent

end Problem

end Linearizability
