import Linearizability.Proofs.Store.Replay
import Mathlib.Data.List.Induction

/-! # The last write of a key

After any exchanges the store binds exactly the keys whose last write is a put, each to the value
put. So a replay only stops at reads, and at the first one that was not answered with success and
with what the last write of its key left.
-/

namespace Linearizability

/-- What a request leaves of a key if it writes the key: a value, or none if it deletes it. -/
def Request.written? (key : String) : Request → Option (Option String)
  | .put k value => if k = key then some (some value) else none
  | .get _ => none
  | .delete k => if k = key then some none else none

namespace Store

def lastWritten (steps : List Exchange) (key : String) : Option String :=
  (steps.filterMap (·.1.written? key)).getLast?.join

/-- An exchange that reads a key, but was not answered with success or not with exactly what the
last write of the key left. -/
def Misreads (before : List Exchange) (e : Exchange) : Prop :=
  ∃ key, e.1 = .get key ∧ (e.2.status ≠ some "ok" ∨ e.2.value ≠ lastWritten before key)

/-- The same request, with the same answer if it is a read. -/
def ReadsAlike (e e' : Exchange) : Prop := e'.1 = e.1 ∧ ∀ key, e.1 = .get key → e'.2 = e.2

variable {store store' : Store} {steps before : List Exchange} {e e' : Exchange} {key : String}
  {p : Nat}

theorem lastWritten_concat (steps : List Exchange) (e : Exchange) (key : String) :
    lastWritten (steps ++ [e]) key = (e.1.written? key).getD (lastWritten steps key) := by
  rw [lastWritten, List.filterMap_append]
  cases hw : e.1.written? key with
  | none => simp [hw, lastWritten]
  | some value => simp [hw]

theorem get?_of_next? (h : model.next? store e = some store') (key : String) :
    store'.get? key = (e.1.written? key).getD (store.get? key) := by
  obtain ⟨request, response⟩ := e
  cases request with
  | put k value =>
    cases h
    rw [get?_insert, Request.written?]
    grind
  | get k =>
    rw [Model.next?_eq_ite, Option.ite_none_right_eq_some] at h
    obtain ⟨-, h⟩ := h
    cases h
    rfl
  | delete k =>
    cases h
    rw [get?_erase, Request.written?]
    grind

theorem next?_eq_none_iff : model.next? store e = none ↔
    ∃ key, e.1 = .get key ∧ (e.2.status ≠ some "ok" ∨ e.2.value ≠ store.get? key) := by
  obtain ⟨request, response⟩ := e
  cases request with
  | put k value => simp [Model.next?_eq_ite, model, step]
  | get k =>
    simp [Model.next?_eq_ite, model, step, Response.isOk, Response.okStatus, imp_iff_not_or]
  | delete k => simp [Model.next?_eq_ite, model, step]

theorem get?_of_after? (h : model.after? .empty steps = some store) (key : String) :
    store.get? key = lastWritten steps key := by
  induction steps using List.reverseRecOn generalizing store with
  | nil =>
    cases h
    rfl
  | append_singleton steps e ih =>
    rw [Model.after?_concat, Option.bind_eq_some_iff] at h
    obtain ⟨store', hs, hn⟩ := h
    rw [get?_of_next? hn, lastWritten_concat, ih hs]

theorem next?_eq_none_iff_misreads (h : model.after? .empty before = some store) :
    model.next? store e = none ↔ Misreads before e := by
  simp only [next?_eq_none_iff, Misreads, get?_of_after? h]

/-- Exchanges can be replayed exactly if none of them misreads its key. -/
theorem exists_after?_iff : (∃ store, model.after? .empty steps = some store) ↔
    ∀ p e, steps[p]? = some e → ¬ Misreads (steps.take p) e := by
  constructor
  · rintro ⟨store, h⟩ p e he
    obtain ⟨hp, rfl⟩ := List.getElem?_eq_some_iff.mp he
    rw [← List.take_append_drop p steps, Model.after?_append, Option.bind_eq_some_iff] at h
    obtain ⟨store', hs, hn⟩ := h
    rw [← next?_eq_none_iff_misreads hs]
    intro hnone
    rw [List.drop_eq_getElem_cons hp, Model.after?_cons, hnone] at hn
    cases hn
  · intro h
    cases hr : model.replay steps with
    | ok store => exact ⟨store, Model.replay_eq_ok_iff.mp hr⟩
    | error p =>
      obtain ⟨e, store, he, hs, hn⟩ := Model.replay_eq_error_iff.mp hr
      exact absurd ((next?_eq_none_iff_misreads hs).mp hn) (h p e he)

theorem replay_eq_error_iff_misreads : model.replay steps = .error p ↔
    (∃ e, steps[p]? = some e ∧ Misreads (steps.take p) e) ∧
      ∀ q < p, ∀ e, steps[q]? = some e → ¬ Misreads (steps.take q) e := by
  have hbefore : (∃ store, model.after? .empty (steps.take p) = some store) ↔
      ∀ q < p, ∀ e, steps[q]? = some e → ¬ Misreads (steps.take q) e := by
    rw [exists_after?_iff]
    refine forall_congr' fun q => ?_
    by_cases hq : q < p
    · simp [List.take_take, hq, Nat.min_eq_left hq.le]
    · simp [hq]
  rw [Model.replay_eq_error_iff, ← hbefore]
  constructor
  · rintro ⟨e, store, he, hs, hn⟩
    exact ⟨⟨e, he, (next?_eq_none_iff_misreads hs).mp hn⟩, store, hs⟩
  · rintro ⟨⟨e, he, hm⟩, store, hs⟩
    exact ⟨e, store, he, hs, (next?_eq_none_iff_misreads hs).mpr hm⟩

theorem exists_replay_eq_ok_iff :
    (∃ store, model.replay steps = .ok store ∧ ∀ key, store.get? key = lastWritten steps key) ↔
      ∀ p e, steps[p]? = some e → ¬ Misreads (steps.take p) e := by
  rw [← exists_after?_iff]
  constructor
  · rintro ⟨store, h, -⟩
    exact ⟨store, Model.replay_eq_ok_iff.mp h⟩
  · rintro ⟨store, h⟩
    exact ⟨store, Model.replay_eq_ok_iff.mpr h, get?_of_after? h⟩

theorem ReadsAlike.step_eq (h : ReadsAlike e e') (store : Store) :
    model.step store e'.1 e'.2 = model.step store e.1 e.2 := by
  obtain ⟨_, response⟩ := e
  obtain ⟨request, response'⟩ := e'
  obtain ⟨rfl, h⟩ := h
  cases request with
  | put key value => rfl
  | get key =>
    obtain rfl : response' = response := h key rfl
    rfl
  | delete key => rfl

theorem replayFrom_eq_of_readsAlike {steps' : List Exchange}
    (h : List.Forall₂ ReadsAlike steps steps') (position : Nat) (store : Store) :
    model.replayFrom position store steps' = model.replayFrom position store steps := by
  induction h generalizing position store with
  | nil => rfl
  | cons he _ ih => simp only [Model.replayFrom, he.step_eq, ih]

/-- A replay stops at the first read that was not answered with success and with exactly what the
last write of its key left, and otherwise leaves each key as its last write left it. What a put or
a delete was answered does not matter, and no read can be answered both with the empty value and
with none. -/
theorem replay_iff_lastWritten (steps : List Exchange) :
    (∀ p, model.replay steps = .error p ↔
      (∃ e, steps[p]? = some e ∧ Misreads (steps.take p) e) ∧
        ∀ q < p, ∀ e, steps[q]? = some e → ¬ Misreads (steps.take q) e) ∧
      ((∃ store, model.replay steps = .ok store ∧
          ∀ key, store.get? key = lastWritten steps key) ↔
        ∀ p e, steps[p]? = some e → ¬ Misreads (steps.take p) e) ∧
      (∀ steps', List.Forall₂ ReadsAlike steps steps' →
        model.replay steps' = model.replay steps) ∧
      ∀ key status status', Misreads steps (.get key, ⟨status, some ""⟩) ∨
        Misreads steps (.get key, ⟨status', none⟩) := by
  refine ⟨fun p => replay_eq_error_iff_misreads, exists_replay_eq_ok_iff,
    fun steps' h => replayFrom_eq_of_readsAlike h 0 _, fun key status status' => ?_⟩
  cases hw : lastWritten steps key with
  | none => exact .inl ⟨key, rfl, .inr (by simp [hw])⟩
  | some value => exact .inr ⟨key, rfl, .inr (by simp [hw])⟩

end Store

end Linearizability
