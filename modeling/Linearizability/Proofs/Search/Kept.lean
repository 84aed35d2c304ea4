import Linearizability.Proofs.Search.Longest
import Mathlib.Data.List.Basic

/-! # Which orders are kept

Everything kept has been recorded. The answer lists what is kept: for each operation of each
recorded order, an order at least as long that has the operation too. An order that has the
operations of all others, and is longer, displaces them.
-/

namespace Linearizability

section EraseReps

variable {α : Type} [BEq α]

theorem eraseRepsBy_loop (a : α) (l reversed : List α) :
    List.eraseRepsBy.loop (· == ·) a l reversed = reversed.reverse ++ (a :: l).eraseReps := by
  induction l generalizing a reversed with
  | nil => simp [List.eraseReps, List.eraseRepsBy, List.eraseRepsBy.loop]
  | cons b l ih =>
    rw [List.eraseReps, List.eraseRepsBy, List.eraseRepsBy.loop, List.eraseRepsBy.loop]
    split
    · rw [ih, ih, List.reverse_nil, List.nil_append]
    · rw [ih, ih]
      simp

variable [LawfulBEq α]

theorem eraseReps_cons_cons (a b : α) (l : List α) : (a :: b :: l).eraseReps =
    if a == b then (b :: l).eraseReps else a :: (b :: l).eraseReps := by
  rw [List.eraseReps, List.eraseRepsBy, List.eraseRepsBy.loop]
  split
  · rename_i h
    rw [eraseRepsBy_loop, if_pos h, eq_of_beq h, List.reverse_nil, List.nil_append]
  · rename_i h
    rw [eraseRepsBy_loop, if_neg (by simp [h])]
    rfl

@[simp] theorem mem_eraseReps {a : α} {l : List α} : a ∈ l.eraseReps ↔ a ∈ l := by
  induction l with
  | nil => exact Iff.rfl
  | cons b l ih =>
    cases l with
    | nil => exact Iff.rfl
    | cons c l =>
      rw [eraseReps_cons_cons]
      split
      · rename_i h
        rw [ih, eq_of_beq h]
        simp
      · rw [List.mem_cons, ih, ← List.mem_cons]

theorem eraseReps_replicate (k : Nat) (a : α) : (List.replicate (k + 1) a).eraseReps = [a] := by
  induction k with
  | zero => rfl
  | succ k ih =>
    rw [List.replicate_succ, List.replicate_succ, eraseReps_cons_cons, if_pos (BEq.refl a),
      ← List.replicate_succ, ih]

end EraseReps

variable {n : Nat}

theorem mem_filterMap_id {α : Type} {v : Vector (Option α) n} {a : α} :
    a ∈ v.toList.filterMap id ↔ ∃ i, v.get i = some a := by
  simp only [List.mem_filterMap, id, exists_eq_right, Vector.mem_toList_iff]
  rw [Vector.mem_iff_getElem]
  constructor
  · rintro ⟨k, hk, h⟩
    exact ⟨⟨k, hk⟩, h⟩
  · rintro ⟨i, h⟩
    exact ⟨i, i.isLt, h⟩

namespace Longest

variable {longest : Longest n} {order : List (Fin n)} {orders past : List (List (Fin n))}
  {i : Fin n}

theorem mem_toList : order ∈ longest.toList ↔ ∃ i, longest.best.get i = some order.toArray := by
  simp only [toList, List.mem_mergeSort, mem_eraseReps, List.mem_map, mem_filterMap_id]
  constructor
  · rintro ⟨kept, hkept, rfl⟩
    exact hkept
  · intro h
    exact ⟨_, h, rfl⟩

theorem toList_eq_singleton (hi : longest.best.get i = some order.toArray)
    (h : ∀ j kept, longest.best.get j = some kept → kept = order.toArray) :
    longest.toList = [order] := by
  obtain ⟨k, hk⟩ : ∃ k, (longest.best.toList.filterMap id).map Array.toList =
      List.replicate (k + 1) order := by
    have hall : ∀ order' ∈ (longest.best.toList.filterMap id).map Array.toList,
        order' = order := by
      simp only [List.mem_map, mem_filterMap_id]
      rintro _ ⟨kept, ⟨j, hj⟩, rfl⟩
      rw [h j kept hj]
    have hlen : 0 < ((longest.best.toList.filterMap id).map Array.toList).length := by
      rw [List.length_map, List.length_pos_iff_exists_mem]
      exact ⟨order.toArray, mem_filterMap_id.mpr ⟨i, hi⟩⟩
    obtain ⟨k, hk⟩ := Nat.exists_eq_add_of_lt hlen
    exact ⟨k, List.eq_replicate_iff.mpr ⟨by omega, hall⟩⟩
  have ho : [order].eraseReps = [order] := rfl
  simp only [toList, hk, eraseReps_replicate, List.mergeSort_singleton, ho]

theorem mem_of_get_recordAll {kept : Array (Fin n)}
    (h : (longest.recordAll orders).best.get i = some kept) :
    longest.best.get i = some kept ∨ kept.toList ∈ orders ∧ i ∈ kept.toList := by
  induction orders generalizing longest with
  | nil => exact .inl h
  | cons order orders ih =>
    rcases ih h with h | ⟨hk, hi⟩
    · rw [get_record] at h
      split at h
      · rename_i ho
        cases h
        exact .inr ⟨List.mem_cons_self, ho.1⟩
      · exact .inl h
    · exact .inr ⟨List.mem_cons_of_mem _ hk, hi⟩

@[simp] theorem get_best_empty (i : Fin n) : (empty : Longest n).best.get i = none :=
  Vector.getElem_replicate i.isLt

@[simp] theorem toList_empty : (empty : Longest n).toList = [] := by
  simp [List.eq_nil_iff_forall_not_mem, mem_toList]

/-- Everything in the answer has been recorded, and has some operation. -/
theorem mem_of_mem_toList (h : order ∈ (empty.recordAll orders).toList) :
    order ∈ orders ∧ order ≠ [] := by
  obtain ⟨i, hi⟩ := mem_toList.mp h
  rcases mem_of_get_recordAll hi with hi | ⟨ho, hi⟩
  · simp at hi
  · exact ⟨ho, List.ne_nil_of_mem hi⟩

/-- For each operation of a recorded order, the answer has an order with the operation that is
as long as any recorded one with it. -/
theorem exists_mem_toList (ho : order ∈ orders) (hi : i ∈ order) :
    ∃ kept ∈ (empty.recordAll orders).toList, i ∈ kept ∧
      ∀ order' ∈ orders, i ∈ order' → order'.length ≤ kept.length := by
  have hc : ∀ order' ∈ orders, (empty.recordAll orders).Covers order' :=
    fun order' ho' => covers_recordAll ho'
  obtain ⟨kept, hk, _⟩ := hc order ho i hi
  refine ⟨kept.toList, mem_toList.mpr ⟨i, hk⟩, ?_, fun order' ho' hi' => ?_⟩
  · rcases mem_of_get_recordAll hk with hk | ⟨_, hi⟩
    · simp at hk
    · exact hi
  · obtain ⟨kept', hk', hle⟩ := hc order' ho' i hi'
    obtain rfl : kept = kept' := Option.some.inj (hk.symm.trans hk')
    exact hle

/-- An order that has the operations of all orders recorded, and is longer than the other ones,
displaces them. -/
theorem toList_recordAll_eq_singleton (ho : order ∈ orders) (hne : order ≠ [])
    (hs : ∀ order' ∈ orders, order' ⊆ order)
    (hl : ∀ order' ∈ orders, order.length ≤ order'.length → order' = order) :
    (empty.recordAll orders).toList = [order] := by
  have hkept : ∀ i kept, (empty.recordAll orders).best.get i = some kept →
      kept = order.toArray := by
    intro i kept hk
    rcases mem_of_get_recordAll hk with hk' | ⟨hm, hi⟩
    · simp at hk'
    · obtain ⟨kept', hk', hle⟩ := covers_recordAll ho i (hs _ hm hi)
      obtain rfl : kept = kept' := Option.some.inj (hk.symm.trans hk')
      rw [← hl _ hm hle]
  obtain ⟨i, hi⟩ := List.exists_mem_of_ne_nil order hne
  obtain ⟨kept, hk, -⟩ := covers_recordAll ho i hi
  exact toList_eq_singleton (hkept i kept hk ▸ hk) hkept

end Longest

end Linearizability
