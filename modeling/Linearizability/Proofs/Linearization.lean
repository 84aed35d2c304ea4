import Linearizability.Model
import Mathlib.Data.List.Perm.Basic

/-! # Linearizations

A linearization of some operations is an order of all of them that respects real time and that
the model can replay: no operation stands at or before one that returned before it was called,
and every output is a legal answer. Only which operations there are matters, not how they are
listed.
-/

namespace Linearizability

variable {S I O : Type}

def Operation.exchange (operation : Operation I O) : I × O := (operation.input, operation.output)

namespace Model

variable {model : Model S I O} {s t : S}

def next? (model : Model S I O) (s : S) (exchange : I × O) : Option S :=
  match model.step s exchange.1 exchange.2 with
  | (true, t) => some t
  | (false, _) => none

theorem next?_eq_ite (model : Model S I O) (s : S) (exchange : I × O) :
    model.next? s exchange =
      if (model.step s exchange.1 exchange.2).1 then some (model.step s exchange.1 exchange.2).2
      else none := by
  rw [next?]
  rcases model.step s exchange.1 exchange.2 with ⟨_ | _, t⟩
  · rfl
  · rfl

def after? (model : Model S I O) (s : S) (steps : List (I × O)) : Option S :=
  steps.foldlM model.next? s

@[simp] theorem after?_nil : model.after? s [] = some s := rfl

@[simp] theorem after?_cons (e : I × O) (steps : List (I × O)) :
    model.after? s (e :: steps) = (model.next? s e).bind (model.after? · steps) := rfl

theorem after?_append (s : S) (steps steps' : List (I × O)) :
    model.after? s (steps ++ steps') = (model.after? s steps).bind (model.after? · steps') :=
  List.foldlM_append ..

theorem after?_concat (s : S) (steps : List (I × O)) (e : I × O) :
    model.after? s (steps ++ [e]) = (model.after? s steps).bind (model.next? · e) := by
  simp [after?_append]

theorem replayFrom_eq_ok_iff {position : Nat} {steps : List (I × O)} :
    model.replayFrom position s steps = .ok t ↔ model.after? s steps = some t := by
  induction steps generalizing position s with
  | nil => simp [replayFrom]
  | cons e steps ih =>
    obtain ⟨i, o⟩ := e
    rw [replayFrom, after?_cons, next?]
    rcases model.step s i o with ⟨_ | _, u⟩
    · simp
    · exact ih

theorem replay_eq_ok_iff {steps : List (I × O)} :
    model.replay steps = .ok t ↔ model.after? model.init steps = some t :=
  replayFrom_eq_ok_iff

theorem replayFrom_eq_error_iff {position p : Nat} {steps : List (I × O)} :
    model.replayFrom position s steps = .error p ↔ ∃ k e t, p = position + k ∧
      steps[k]? = some e ∧ model.after? s (steps.take k) = some t ∧ model.next? t e = none := by
  induction steps generalizing position s with
  | nil => simp [replayFrom]
  | cons e steps ih =>
    obtain ⟨i, o⟩ := e
    have hn : model.next? s (i, o) = match model.step s i o with
      | (true, t) => some t
      | (false, _) => none := rfl
    rw [replayFrom]
    rcases hs : model.step s i o with ⟨_ | _, u⟩
    · rw [hs] at hn
      constructor
      · intro h
        cases h
        exact ⟨0, (i, o), s, rfl, rfl, rfl, hn⟩
      · rintro ⟨_ | k, e, t, rfl, -, ha, -⟩
        · rfl
        · simp [hn] at ha
    · rw [hs] at hn
      refine ih.trans ⟨?_, ?_⟩
      · rintro ⟨k, e, t, rfl, he, ha, hnone⟩
        exact ⟨k + 1, e, t, by omega, he, by simp [hn, ha], hnone⟩
      · rintro ⟨_ | k, e, t, rfl, he, ha, hnone⟩
        · cases he
          cases ha
          rw [hn] at hnone
          cases hnone
        · exact ⟨k, e, t, by omega, he, by simpa [hn] using ha, hnone⟩

/-- A replay stops at the first exchange that is illegal after those in front of it. -/
theorem replay_eq_error_iff {p : Nat} {steps : List (I × O)} :
    model.replay steps = .error p ↔ ∃ e t, steps[p]? = some e ∧
      model.after? model.init (steps.take p) = some t ∧ model.next? t e = none := by
  rw [replay, replayFrom_eq_error_iff]
  constructor
  · rintro ⟨k, e, t, rfl, h⟩
    rw [Nat.zero_add]
    exact ⟨e, t, h⟩
  · rintro ⟨e, t, h⟩
    exact ⟨p, e, t, (Nat.zero_add p).symm, h⟩

theorem replay_take_eq_error_iff {k p : Nat} {steps : List (I × O)} :
    model.replay (steps.take k) = .error p ↔ p < k ∧ model.replay steps = .error p := by
  simp only [replay_eq_error_iff, List.getElem?_take]
  constructor
  · rintro ⟨e, t, he, ha, hn⟩
    split at he
    · rename_i hp
      rw [List.take_take, Nat.min_eq_left (Nat.le_of_lt hp)] at ha
      exact ⟨hp, e, t, he, ha, hn⟩
    · cases he
  · rintro ⟨hp, e, t, he, ha, hn⟩
    refine ⟨e, t, ?_, ?_, hn⟩
    · rwa [if_pos hp]
    · rwa [List.take_take, Nat.min_eq_left (Nat.le_of_lt hp)]

end Model

/-- No operation stands at or before one that returned before it was called. -/
def RespectsTime (order : List (Operation I O)) : Prop :=
  (∀ a ∈ order, ¬ a.ret < a.call) ∧ order.Pairwise fun a b => ¬ b.ret < a.call

instance (order : List (Operation I O)) : Decidable (RespectsTime order) :=
  inferInstanceAs (Decidable ((∀ a ∈ order, ¬ a.ret < a.call) ∧
    order.Pairwise fun a b => ¬ b.ret < a.call))

@[simp] theorem respectsTime_nil : RespectsTime ([] : List (Operation I O)) := by
  simp [RespectsTime]

theorem respectsTime_cons {a : Operation I O} {order : List (Operation I O)} :
    RespectsTime (a :: order) ↔ (∀ b ∈ a :: order, ¬ b.ret < a.call) ∧ RespectsTime order := by
  simp only [RespectsTime, List.forall_mem_cons, List.pairwise_cons]
  tauto

theorem RespectsTime.sublist {order order' : List (Operation I O)} (h : RespectsTime order)
    (hs : order'.Sublist order) : RespectsTime order' :=
  ⟨fun a ha => h.1 a (hs.subset ha), h.2.sublist hs⟩

/-- An order of all operations that respects real time and that the model can replay. -/
structure Linearization (model : Model S I O) (operations order : List (Operation I O)) :
    Prop where
  perm : order.Perm operations
  respectsTime : RespectsTime order
  legal : ∃ s, model.replay (order.map Operation.exchange) = .ok s

def Linearizable (model : Model S I O) (operations : List (Operation I O)) : Prop :=
  ∃ order, Linearization model operations order

theorem linearizable_nil (model : Model S I O) : Linearizable model [] :=
  ⟨[], .rfl, respectsTime_nil, model.init, rfl⟩

theorem linearizable_perm (model : Model S I O) {operations operations' : List (Operation I O)}
    (h : operations.Perm operations') :
    Linearizable model operations ↔ Linearizable model operations' := by
  constructor
  · rintro ⟨order, hp, ht, hl⟩
    exact ⟨order, hp.trans h, ht, hl⟩
  · rintro ⟨order, hp, ht, hl⟩
    exact ⟨order, hp.trans h.symm, ht, hl⟩

def operationsAt (history : List (Operation I O)) (group : List Nat) : List (Operation I O) :=
  group.filterMap (history[·]?)

theorem exists_perm_map_eq {α β : Type} {f : α → β} {l : List β} {m : List α}
    (h : l.Perm (m.map f)) : ∃ m' : List α, m'.Perm m ∧ m'.map f = l := by
  have hf : List.Forall₂ (fun b a => b = f a) (m.map f) m := by
    rw [List.forall₂_map_left_iff, List.forall₂_same]
    exact fun _ _ => rfl
  obtain ⟨m', hm, hp⟩ := List.perm_comp_forall₂ h hf
  refine ⟨m', hp, ?_⟩
  rw [← List.forall₂_eq_eq_eq, List.forall₂_map_left_iff]
  exact hm.flip.imp fun _ _ => Eq.symm

end Linearizability
