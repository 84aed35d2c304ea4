import Linearizability.Proofs.Recorder
import Mathlib.Data.List.Basic

/-! # What a recorder accounts for

A recorder has the requests that a client made, in the order in which they were made, and of the
answers to each the first one that came after the request. It takes an answer exactly if it is such
a one, and its history pairs the requests that were answered with these answers.
-/

namespace Linearizability

namespace Recorder

def requestsOf (acts : List (Nat × Act)) : List Request :=
  acts.filterMap fun act =>
    match act.2 with
    | .call request => some request
    | .sync _ | .complete _ _ => none

/-- The answer that is taken in an act, with the handle of its request. -/
def answer? (recorder : Recorder) (clock : Nat) : Act → Option (Nat × Response)
  | .complete handle response =>
    if (recorder.complete handle response clock).1 then some (handle, response) else none
  | .sync _ | .call _ => none

def answers (recorder : Recorder) : List (Nat × Act) → List (Nat × Response)
  | [] => []
  | (clock, act) :: acts =>
    (recorder.answer? clock act).toList ++ (recorder.step clock act).answers acts

/-- What a recorder tells, by the requests that were made and the answers that were taken. -/
structure Accounts (client : Client) (requests : List Request) (answers : List (Nat × Response))
    (recorder : Recorder) : Prop where
  handle : ∀ request clock, (recorder.call request clock).1 = requests.length
  complete_iff : ∀ handle response clock,
    (recorder.complete handle response clock).1 = true ↔
      handle < requests.length ∧ ∀ response', (handle, response') ∉ answers
  unchanged : ∀ handle response clock, (recorder.complete handle response clock).1 = false →
    (recorder.complete handle response clock).2 = recorder
  history : recorder.history.map (fun record => (record.client, record.input, record.output)) =
    requests.zipIdx.filterMap fun (request, handle) =>
      (answers.lookup handle).map fun response => (client, request, response)
  operationCount : recorder.operationCount = requests.length
  completedCount : recorder.completedCount = answers.length
  length_history : recorder.history.length = recorder.completedCount

/-- The slots of a recorder hold the requests that were made, and the answers that were taken. -/
structure Holds (client : Client) (requests : List Request) (answers : List (Nat × Response))
    (recorder : Recorder) : Prop where
  client : recorder.client = client
  requests : recorder.slots.toList.map Slot.request = requests
  answer : ∀ handle : Nat,
    (recorder.slots[handle]?.bind Slot.completion).map Prod.fst = answers.lookup handle
  count : recorder.completedCount = answers.length

variable {recorder : Recorder} {client : Client} {made : List Request}
  {taken : List (Nat × Response)} {clock : Nat} {act : Act} {acts : List (Nat × Act)}
  {handle : Nat} {response : Response}

theorem requestsOf_cons :
    requestsOf ((clock, act) :: acts) = requestsOf [(clock, act)] ++ requestsOf acts :=
  List.filterMap_append (l := [(clock, act)])

section Slots

variable {slots : Array Slot} {slot : Slot} {completion : Response × Timestamp}

theorem map_request_setIfInBounds (hget : slots[handle]? = some slot) :
    (slots.setIfInBounds handle { slot with completion := some completion }).toList.map
      Slot.request = slots.toList.map Slot.request := by
  obtain ⟨hlt, rfl⟩ := Array.getElem?_eq_some_iff.mp hget
  have hlt' : handle < (slots.toList.map Slot.request).length := by simpa using hlt
  have hself : (slots.toList.map Slot.request)[handle] = slots[handle].request := by simp
  rw [Array.toList_setIfInBounds, List.map_set, ← hself, List.set_getElem_self]

theorem countP_setIfInBounds (hget : slots[handle]? = some slot)
    (hpending : slot.completion = none) :
    (slots.setIfInBounds handle { slot with completion := some completion }).toList.countP
      (·.completion.isSome) = slots.toList.countP (·.completion.isSome) + 1 := by
  obtain ⟨hlt, rfl⟩ := Array.getElem?_eq_some_iff.mp hget
  rw [Array.toList_setIfInBounds, List.countP_set (by simpa using hlt)]
  simp [hpending]

end Slots

namespace Holds

theorem size (h : Holds client made taken recorder) : recorder.slots.size = made.length := by
  rw [← h.requests, List.length_map, Array.length_toList]

theorem lookup_eq_none (h : Holds client made taken recorder)
    (hp : ∀ slot ∈ recorder.slots[handle]?, slot.completion = none) :
    taken.lookup handle = none := by
  rw [← h.answer]
  cases hslot : recorder.slots[handle]? with
  | none => rfl
  | some slot => simp [hp slot hslot]

theorem call (h : Holds client made taken recorder) (request : Request) (clock : Nat) :
    Holds client (made ++ [request]) taken (recorder.call request clock).2 where
  client := h.client
  requests := by
    rw [Recorder.call, Array.toList_push, List.map_append, h.requests]
    rfl
  answer handle := by
    simp only [Recorder.call, Array.getElem?_push]
    split
    · rename_i hs
      rw [h.lookup_eq_none (by simp [hs])]
      rfl
    · exact h.answer handle
  count := by
    rw [completedCount, Recorder.call, Array.toList_push, List.countP_append]
    exact h.count

theorem complete (h : Holds client made taken recorder) (handle : Nat) (response : Response)
    (clock : Nat) :
    Holds client made (taken ++ (recorder.answer? clock (.complete handle response)).toList)
      (recorder.complete handle response clock).2 := by
  rw [answer?]
  obtain ⟨-, hsame⟩ | ⟨slot, hget, hpending, hset⟩ := recorder.complete_cases handle response clock
  · rw [hsame]
    simpa using h
  · have hnone : taken.lookup handle = none := h.lookup_eq_none (by simp [hget, hpending])
    rw [hset, if_pos rfl, Option.toList_some]
    refine ⟨h.client, ?_, fun handle' => ?_, ?_⟩
    · rw [map_request_setIfInBounds hget, h.requests]
    · rw [List.lookup_append, Array.getElem?_setIfInBounds]
      by_cases he : handle = handle'
      · subst he
        simp [hnone, (Array.getElem?_eq_some_iff.mp hget).1]
      · have hne : (handle' == handle) = false := beq_eq_false_iff_ne.mpr (Ne.symm he)
        rw [if_neg he, h.answer, List.lookup_cons, hne, List.lookup_nil, Option.or_none]
    · rw [completedCount, countP_setIfInBounds hget hpending, List.length_append, ← h.count]
      rfl

theorem step (h : Holds client made taken recorder) (clock : Nat) (act : Act) :
    Holds client (made ++ requestsOf [(clock, act)])
      (taken ++ (recorder.answer? clock act).toList) (recorder.step clock act) := by
  cases act with
  | sync millis =>
    rw [answer?, Option.toList_none, List.append_nil]
    exact ⟨h.client, (List.append_nil made).symm ▸ h.requests, h.answer, h.count⟩
  | call request =>
    rw [answer?, Option.toList_none, List.append_nil]
    exact h.call request clock
  | complete handle response =>
    exact (List.append_nil made).symm ▸ h.complete handle response clock

theorem run (h : Holds client made taken recorder) (acts : List (Nat × Act)) :
    Holds client (made ++ requestsOf acts) (taken ++ recorder.answers acts)
      (recorder.run acts) := by
  induction acts generalizing recorder made taken with
  | nil =>
    rw [answers, List.append_nil]
    exact (List.append_nil made).symm ▸ h
  | cons first acts ih =>
    obtain ⟨clock, act⟩ := first
    rw [requestsOf_cons, answers, ← List.append_assoc, ← List.append_assoc]
    exact ih (h.step clock act)

theorem complete_iff (h : Holds client made taken recorder) (handle : Nat) (response : Response)
    (clock : Nat) : (recorder.complete handle response clock).1 = true ↔
      handle < made.length ∧ ∀ response', (handle, response') ∉ taken := by
  obtain ⟨hdone, hsame⟩ | ⟨slot, hget, hpending, hset⟩ :=
    recorder.complete_cases handle response clock
  · rw [hsame]
    simp only [Bool.false_eq_true, false_iff, not_and, not_forall, not_not]
    intro hlt
    rw [← h.size] at hlt
    obtain ⟨⟨answer, ret⟩, ha⟩ :=
      Option.isSome_iff_exists.mp (hdone _ (Array.getElem?_eq_getElem hlt))
    have hlookup : taken.lookup handle = some answer := by
      rw [← h.answer, Array.getElem?_eq_getElem hlt, Option.bind_some, ha, Option.map_some]
    obtain ⟨before, behind, he, -⟩ := List.lookup_eq_some_iff.mp hlookup
    exact ⟨answer, he ▸ List.mem_append_right _ List.mem_cons_self⟩
  · rw [hset]
    have hnone : taken.lookup handle = none := h.lookup_eq_none (by simp [hget, hpending])
    refine iff_of_true rfl ⟨?_, fun answer hm => ?_⟩
    · rw [← h.size]
      exact (Array.getElem?_eq_some_iff.mp hget).1
    · simpa using List.lookup_eq_none_iff.mp hnone _ hm

theorem accounts (h : Holds client made taken recorder) : Accounts client made taken recorder where
  handle _ _ := h.size
  complete_iff := h.complete_iff
  unchanged handle response clock hf := by
    obtain ⟨-, hsame⟩ | ⟨_, -, -, hset⟩ := recorder.complete_cases handle response clock
    · rw [hsame]
    · rw [hset] at hf
      cases hf
  history := by
    have hslots : recorder.slots.toList = recorder.slots.toList.zipIdx.map Prod.fst :=
      (List.zipIdx_map_fst ..).symm
    rw [Recorder.history, List.map_filterMap, ← h.requests, List.zipIdx_map, List.filterMap_map]
    conv_lhs => rw [hslots, List.filterMap_map]
    refine List.filterMap_congr fun entry hm => ?_
    obtain ⟨slot, handle⟩ := entry
    rw [List.mem_zipIdx_iff_getElem?, Array.getElem?_toList] at hm
    have hanswer : taken.lookup handle = slot.completion.map Prod.fst := by
      rw [← h.answer, hm, Option.bind_some]
    simp only [Function.comp_apply, Prod.map, id, hanswer, ← h.client]
    cases slot.completion with
    | none => rfl
    | some completion => rfl
  operationCount := h.size
  completedCount := h.count
  length_history := by
    rw [Recorder.history, completedCount, List.length_filterMap_eq_countP]
    simp

end Holds

theorem holds_new (client : Client) (anchor : Timestamp) (now : Nat) :
    Holds client [] [] (new client anchor now) :=
  ⟨rfl, rfl, fun _ => rfl, rfl⟩

/-- After any acts of its client, a recorder has each request under its place among the requests,
and has taken of each the first answer that came after it. -/
theorem accounts_of_run (client : Client) (anchor : Timestamp) (now : Nat)
    (acts : List (Nat × Act)) :
    Accounts client (requestsOf acts) ((new client anchor now).answers acts)
      ((new client anchor now).run acts) :=
  ((holds_new client anchor now).run acts).accounts

end Recorder

end Linearizability
