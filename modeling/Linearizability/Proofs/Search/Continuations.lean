import Linearizability.Search.Basic
import Linearizability.Proofs.Linearization
import Linearizability.Proofs.Search.Timeline
import Mathlib.Order.Fin.Basic

/-! # Continuations

After some operations in order, an operation can come next if it is legal and no other one that
is still pending returned before it was called. The continuations of an order are all sequences
of operations that can follow it in this way, listed as a depth-first walk leaves them: in the
order of the calls on the time line, and each sequence behind those that extend it. The
operations of a problem are linearizable if some continuation of the empty order has all of them.
-/

namespace Linearizability

variable {S I O : Type} {n : Nat}

namespace Timeline

/-- The places of the operations that are not in an order. -/
def pending (timeline : Timeline n) (order : List (Fin n)) : List (Place n) :=
  (List.finRange (2 * n)).filter fun p => (timeline.events.get p).op ∉ order

/-- The pending calls in front of the first pending return. -/
def front (timeline : Timeline n) (order : List (Fin n)) : List (Place n) :=
  (timeline.pending order).takeWhile fun p => (timeline.events.get p).phase = .call

variable {timeline : Timeline n} {order : List (Fin n)} {p : Place n}

@[simp] theorem mem_pending : p ∈ timeline.pending order ↔ (timeline.events.get p).op ∉ order := by
  simp [pending]

theorem pairwise_pending (timeline : Timeline n) (order : List (Fin n)) :
    (timeline.pending order).Pairwise (· < ·) :=
  (List.pairwise_lt_finRange _).filter _

theorem pending_append (timeline : Timeline n) (order : List (Fin n)) (i : Fin n) :
    timeline.pending (order ++ [i]) =
      (timeline.pending order).filter fun p => (timeline.events.get p).op ≠ i := by
  rw [pending, pending, List.filter_filter]
  apply List.filter_congr
  intro p _
  simp [Bool.and_comm]

theorem pending_congr {order' : List (Fin n)} (h : ∀ i, i ∈ order ↔ i ∈ order') :
    timeline.pending order = timeline.pending order' := by
  simp only [pending, h]

theorem length_pending_append_lt (h : p ∈ timeline.pending order) :
    (timeline.pending (order ++ [(timeline.events.get p).op])).length <
      (timeline.pending order).length := by
  rw [pending_append, List.length_filter_lt_length_iff_exists]
  exact ⟨p, h, by simp⟩

theorem mem_pending_of_mem_front (h : p ∈ timeline.front order) : p ∈ timeline.pending order :=
  (List.takeWhile_sublist _).subset h

theorem mem_takeWhile_of_pairwise_lt {m : Nat} {places : List (Fin m)} {f : Fin m → Bool}
    {p : Fin m} (h : places.Pairwise (· < ·)) :
    p ∈ places.takeWhile f ↔ p ∈ places ∧ ∀ q ∈ places, q ≤ p → f q = true := by
  induction places with
  | nil => simp
  | cons a places ih =>
    rw [List.pairwise_cons] at h
    rw [List.takeWhile_cons]
    by_cases ha : f a = true
    · have := ih h.2
      grind
    · grind

/-- The operations at the front are those before which no pending operation returned. -/
theorem Lays.mem_front_iff {operations : Vector (Operation I O) n}
    (h : timeline.Lays operations) : p ∈ timeline.front order ↔
      (timeline.events.get p).phase = .call ∧ (timeline.events.get p).op ∉ order ∧
        ∀ j, j ∉ order →
          ¬ (operations.get j).ret < (operations.get (timeline.events.get p).op).call := by
  rw [front, mem_takeWhile_of_pairwise_lt (pairwise_pending timeline order), mem_pending]
  simp only [mem_pending, decide_eq_true_eq]
  constructor
  · rintro ⟨hp, hf⟩
    have hc := hf p hp (Nat.le_refl _)
    refine ⟨hc, hp, fun j hj hlt => ?_⟩
    obtain ⟨ho, hr⟩ := h.returnOf j
    have hlt' := (h.ret_lt_call_iff hr hc).mpr (by rwa [ho])
    have := hf _ (by rwa [ho]) (Nat.le_of_lt hlt')
    rw [hr] at this
    cases this
  · rintro ⟨hc, hp, hj⟩
    refine ⟨hp, fun q hq hle => ?_⟩
    cases hr : (timeline.events.get q).phase with
    | call => rfl
    | ret =>
      have hne : q ≠ p := by
        rintro rfl
        rw [hc] at hr
        cases hr
      have hlt : q < p := by omega
      exact absurd ((h.ret_lt_call_iff hr hc).mp hlt) (hj _ hq)

namespace Lays

variable {operations : Vector (Operation I O) n} {i : Fin n} {links : Links (2 * n)}

theorem returnOf_mem_pending (h : timeline.Lays operations) (hi : i ∉ order) :
    timeline.returnOf.get i ∈ timeline.pending order := by
  rw [mem_pending, (h.returnOf i).1]
  exact hi

theorem threads_lift (h : timeline.Lays operations)
    (ht : links.Threads (timeline.pending order)) (hp : (timeline.events.get p).phase = .call)
    (ho : (timeline.events.get p).op ∉ order) :
    (links.lift p (timeline.returnOf.get (timeline.events.get p).op)).Threads
      (timeline.pending (order ++ [(timeline.events.get p).op])) := by
  have hl := ht.lift (mem_pending.mpr ho) (h.returnOf_mem_pending ho) (h.returnOf_ne hp)
  rw [pending_append]
  convert hl using 1
  apply List.filter_congr
  intro q _
  simp [h.op_eq_iff hp]

theorem unlift_lift (h : timeline.Lays operations)
    (ht : links.Threads (timeline.pending order)) (hp : (timeline.events.get p).phase = .call)
    (ho : (timeline.events.get p).op ∉ order) :
    (links.lift p (timeline.returnOf.get (timeline.events.get p).op)).unlift p
      (timeline.returnOf.get (timeline.events.get p).op) = links :=
  ht.unlift_lift (mem_pending.mpr ho) (h.returnOf_mem_pending ho) (h.returnOf_ne hp)

end Lays

end Timeline

namespace Problem

def next? (problem : Problem S I O n) (s : S) (i : Fin n) : Option S :=
  problem.model.next? s (problem.operations.get i).exchange

def after? (problem : Problem S I O n) (s : S) (order : List (Fin n)) : Option S :=
  problem.model.after? s (order.map fun i => (problem.operations.get i).exchange)

/-- The sequences of operations that can follow an order that leads to a state. -/
def continuations (problem : Problem S I O n) (order : List (Fin n)) (s : S) :
    List (List (Fin n)) :=
  ((problem.timeline.front order).attach.flatMap fun p =>
    match problem.next? s (problem.timeline.events.get p.1).op with
    | none => []
    | some t =>
      (problem.continuations (order ++ [(problem.timeline.events.get p.1).op]) t).map
        ((problem.timeline.events.get p.1).op :: ·)) ++ [[]]
termination_by (problem.timeline.pending order).length
decreasing_by
  exact Timeline.length_pending_append_lt (Timeline.mem_pending_of_mem_front p.2)

def branch (problem : Problem S I O n) (order : List (Fin n)) (s : S) (p : Place n) :
    List (List (Fin n)) :=
  match problem.next? s (problem.timeline.events.get p).op with
  | none => []
  | some t =>
    (problem.continuations (order ++ [(problem.timeline.events.get p).op]) t).map
      ((problem.timeline.events.get p).op :: ·)

variable {problem : Problem S I O n} {order rest : List (Fin n)} {s t : S} {i : Fin n}
  {p : Place n}

theorem continuations_eq (problem : Problem S I O n) (order : List (Fin n)) (s : S) :
    problem.continuations order s =
      (problem.timeline.front order).flatMap (problem.branch order s) ++ [[]] := by
  rw [continuations]
  conv_rhs => rw [← List.attach_map_subtype_val (problem.timeline.front order)]
  rw [List.flatMap_map]
  rfl

theorem branch_of_next?_eq_none (h : problem.next? s (problem.timeline.events.get p).op = none) :
    problem.branch order s p = [] := by
  rw [branch, h]

theorem branch_of_next?_eq_some
    (h : problem.next? s (problem.timeline.events.get p).op = some t) :
    problem.branch order s p =
      (problem.continuations (order ++ [(problem.timeline.events.get p).op]) t).map
        ((problem.timeline.events.get p).op :: ·) := by
  rw [branch, h]

theorem continuations_congr {order order' : List (Fin n)} (h : ∀ i, i ∈ order ↔ i ∈ order')
    (s : S) : problem.continuations order s = problem.continuations order' s := by
  induction order, s using continuations.induct problem generalizing order' with
  | case1 order s ih =>
    have hf : problem.timeline.front order = problem.timeline.front order' := by
      rw [Timeline.front, Timeline.front, Timeline.pending_congr h]
    rw [continuations_eq, continuations_eq, ← hf]
    congr 1
    apply List.flatMap_congr
    intro p hp
    cases ht : problem.next? s (problem.timeline.events.get p).op with
    | none => rw [branch_of_next?_eq_none ht, branch_of_next?_eq_none ht]
    | some t =>
      have hp' : ∀ i, i ∈ order ++ [(problem.timeline.events.get p).op] ↔
          i ∈ order' ++ [(problem.timeline.events.get p).op] := by
        simp [h]
      rw [branch_of_next?_eq_some ht, branch_of_next?_eq_some ht, ih ⟨p, hp⟩ t hp']

/-- After an order that leads to a state, operations can follow one by one: each is legal, and no
other one that is still pending returned before it was called. -/
def Continues (problem : Problem S I O n) (order : List (Fin n)) (s : S) : List (Fin n) → Prop
  | [] => True
  | i :: rest => i ∉ order ∧
    (∀ j, j ∉ order → ¬ (problem.operations.get j).ret < (problem.operations.get i).call) ∧
      ∃ t, problem.next? s i = some t ∧ problem.Continues (order ++ [i]) t rest

theorem mem_branch_iff : rest ∈ problem.branch order s p ↔
    ∃ t rest', problem.next? s (problem.timeline.events.get p).op = some t ∧
      rest = (problem.timeline.events.get p).op :: rest' ∧
        rest' ∈ problem.continuations (order ++ [(problem.timeline.events.get p).op]) t := by
  rw [branch]
  cases problem.next? s (problem.timeline.events.get p).op with
  | none => simp
  | some t => simp [eq_comm, and_comm]

theorem mem_continuations_iff (h : problem.timeline.Lays problem.operations) :
    rest ∈ problem.continuations order s ↔ problem.Continues order s rest := by
  induction rest generalizing order s with
  | nil => simp [continuations_eq, Continues]
  | cons i rest ih =>
    rw [continuations_eq, Continues]
    simp only [List.mem_append, List.mem_flatMap, mem_branch_iff, List.mem_singleton,
      reduceCtorEq, or_false, h.mem_front_iff, List.cons.injEq]
    constructor
    · rintro ⟨p, ⟨_, ho, hr⟩, t, rest', ht, ⟨rfl, rfl⟩, hc⟩
      exact ⟨ho, hr, t, ht, ih.mp hc⟩
    · rintro ⟨ho, hr, t, ht, hc⟩
      obtain ⟨p, rfl, hp⟩ := h.exists_call i
      exact ⟨p, ⟨hp, ho, hr⟩, t, rest, ht, ⟨rfl, rfl⟩, ih.mpr hc⟩

theorem Continues.nodup (h : problem.Continues order s rest) (ho : order.Nodup) :
    (order ++ rest).Nodup := by
  induction rest generalizing order s with
  | nil => simpa using ho
  | cons i rest ih =>
    obtain ⟨hi, _, t, _, hc⟩ := h
    simpa using ih hc (by grind)

/-- What remains of the operations continues an order exactly if it respects time and is legal. -/
theorem continues_iff_of_perm (h : (order ++ rest).Perm (List.finRange n)) :
    problem.Continues order s rest ↔
      RespectsTime (rest.map problem.operations.get) ∧ ∃ t, problem.after? s rest = some t := by
  induction rest generalizing order s with
  | nil => simp [Continues, after?]
  | cons i rest ih =>
    have hn : (order ++ i :: rest).Nodup := h.nodup_iff.mpr (List.nodup_finRange n)
    have hm : ∀ j, j ∉ order ↔ j ∈ i :: rest := by
      intro j
      have hj : j ∈ order ++ i :: rest := h.mem_iff.mpr (List.mem_finRange j)
      grind
    have hi : i ∉ order := (hm i).mpr List.mem_cons_self
    have hs : (order ++ [i] ++ rest).Perm (List.finRange n) := by simpa using h
    simp only [Continues, hi, not_false_eq_true, true_and, hm, ih hs, List.map_cons,
      respectsTime_cons, after?, Model.after?_cons, next?, Option.bind_eq_some_iff]
    simp only [← List.map_cons, List.forall_mem_map]
    grind

theorem toList_eq_map_get {α : Type} (v : Vector α n) : v.toList = (List.finRange n).map v.get := by
  apply List.ext_getElem
  · simp
  · intro k hk _
    simp [Vector.get]

theorem exists_perm_finRange_iff {model : Model S I O} {operations : Vector (Operation I O) n} :
    Linearizable model operations.toList ↔ ∃ order : List (Fin n), order.Perm (List.finRange n) ∧
      RespectsTime (order.map operations.get) ∧
        ∃ t, (Problem.of model operations).after? model.init order = some t := by
  constructor
  · rintro ⟨_, hp, ht, t, hl⟩
    rw [toList_eq_map_get] at hp
    obtain ⟨order, ho, rfl⟩ := exists_perm_map_eq hp
    refine ⟨order, ho, ht, t, ?_⟩
    rwa [Model.replay_eq_ok_iff, List.map_map] at hl
  · rintro ⟨order, ho, ht, t, hl⟩
    refine ⟨order.map operations.get, ?_, ht, t, ?_⟩
    · rw [toList_eq_map_get]
      exact ho.map _
    · rwa [Model.replay_eq_ok_iff, List.map_map]

theorem perm_finRange {order : List (Fin n)} (hn : order.Nodup) (hl : order.length = n) :
    order.Perm (List.finRange n) :=
  (List.subperm_of_subset hn fun i _ => List.mem_finRange i).perm_of_length_le (by simp [hl])

theorem exists_length_eq_iff {model : Model S I O} {operations : Vector (Operation I O) n} :
    (∃ order ∈ (Problem.of model operations).continuations [] model.init, order.length = n) ↔
      Linearizable model operations.toList := by
  have h : (Problem.of model operations).timeline.Lays operations := Timeline.lays_of operations
  rw [exists_perm_finRange_iff]
  constructor
  · rintro ⟨order, hc, hl⟩
    rw [mem_continuations_iff h] at hc
    have hp := perm_finRange (by simpa using hc.nodup List.nodup_nil) hl
    exact ⟨order, hp, (continues_iff_of_perm (by simpa using hp)).mp hc⟩
  · rintro ⟨order, hp, ho⟩
    refine ⟨order, ?_, by simpa using hp.length_eq⟩
    rw [mem_continuations_iff h]
    exact (continues_iff_of_perm (by simpa using hp)).mpr ho

end Problem

end Linearizability
