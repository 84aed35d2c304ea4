import Linearizability.Search.Longest
import Linearizability.Proofs.Search.Links
import Mathlib.Order.Fin.Basic

/-! # What recording an order changes

The orders kept only get longer. An order is covered if one at least as long is kept for each of
its operations: recording it changes nothing then, and this remains so whatever is recorded
later.
-/

namespace Linearizability.Longest

variable {n : Nat} {longest longest' : Longest n} {order order' : List (Fin n)}

/-- For each operation of the order, an order at least as long is kept. -/
def Covers (longest : Longest n) (order : List (Fin n)) : Prop :=
  ∀ i ∈ order, ∃ kept, longest.best.get i = some kept ∧ order.length ≤ kept.size

/-- The orders kept are only replaced by longer ones. -/
def Grows (longest longest' : Longest n) : Prop :=
  ∀ i kept, longest.best.get i = some kept →
    ∃ kept', longest'.best.get i = some kept' ∧ kept.size ≤ kept'.size

theorem Grows.refl (longest : Longest n) : longest.Grows longest :=
  fun _ kept h => ⟨kept, h, le_rfl⟩

theorem Grows.trans {longest'' : Longest n} (h : longest.Grows longest')
    (h' : longest'.Grows longest'') : longest.Grows longest'' := by
  intro i kept hk
  obtain ⟨kept', hk', hle⟩ := h i kept hk
  obtain ⟨kept'', hk'', hle'⟩ := h' i kept' hk'
  exact ⟨kept'', hk'', le_trans hle hle'⟩

theorem Covers.of_grows (h : longest.Covers order) (hg : longest.Grows longest') :
    longest'.Covers order := by
  intro i hi
  obtain ⟨kept, hk, hle⟩ := h i hi
  obtain ⟨kept', hk', hle'⟩ := hg i kept hk
  exact ⟨kept', hk', le_trans hle hle'⟩

theorem Covers.of_perm (h : longest.Covers order) (hp : order.Perm order') :
    longest.Covers order' := by
  intro i hi
  obtain ⟨kept, hk, hle⟩ := h i (hp.mem_iff.mpr hi)
  exact ⟨kept, hk, hp.length_eq ▸ hle⟩

theorem ext_get (h : ∀ i, longest.best.get i = longest'.best.get i) : longest = longest' := by
  cases longest
  cases longest'
  congr 1
  exact Vector.ext fun i hi => h ⟨i, hi⟩

theorem get_offer (longest : Longest n) (a : Array (Fin n)) (i j : Fin n) :
    (longest.offer a i).best.get j =
      if i = j ∧ ∀ kept, longest.best.get i = some kept → kept.size < a.size then some a
      else longest.best.get j := by
  rw [offer]
  cases hk : longest.best.get i with
  | none => simp [Links.get_set]
  | some kept =>
    by_cases hlt : kept.size < a.size
    · simp [hlt, Links.get_set]
    · simp [hlt]

theorem get_foldl_offer (longest : Longest n) (a : Array (Fin n)) (is : List (Fin n))
    (j : Fin n) : (is.foldl (fun longest i => longest.offer a i) longest).best.get j =
      if j ∈ is ∧ ∀ kept, longest.best.get j = some kept → kept.size < a.size then some a
      else longest.best.get j := by
  induction is generalizing longest with
  | nil => simp
  | cons i is ih =>
    rw [List.foldl_cons, ih]
    by_cases hij : i = j
    · subst hij
      by_cases hs : ∀ kept, longest.best.get i = some kept → kept.size < a.size
      · -- offered again, the order is not longer than itself
        have ho : (longest.offer a i).best.get i = some a := by
          rw [get_offer, if_pos ⟨rfl, hs⟩]
        rw [ho, ite_self, if_pos ⟨List.mem_cons_self, hs⟩]
      · have ho : (longest.offer a i).best.get i = longest.best.get i := by
          rw [get_offer, if_neg (hs ·.2)]
        rw [ho, if_neg (hs ·.2), if_neg (hs ·.2)]
    · have ho : (longest.offer a i).best.get j = longest.best.get j := by
        rw [get_offer, if_neg (hij ·.1)]
      simp [ho, Ne.symm hij]

/-- Recording an order keeps it for those of its operations for which only shorter ones are
kept. -/
theorem get_record (longest : Longest n) (order : List (Fin n)) (i : Fin n) :
    (longest.record order.toArray).best.get i =
      if i ∈ order ∧ ∀ kept, longest.best.get i = some kept → kept.size < order.length then
        some order.toArray
      else longest.best.get i := by
  simpa [record] using get_foldl_offer longest order.toArray order i

theorem grows_record : longest.Grows (longest.record order.toArray) := by
  intro i kept hk
  rw [get_record]
  split
  · rename_i h
    exact ⟨order.toArray, rfl, (h.2 kept hk).le⟩
  · exact ⟨kept, hk, le_rfl⟩

theorem covers_record : (longest.record order.toArray).Covers order := by
  intro i hi
  rw [get_record]
  split
  · exact ⟨order.toArray, rfl, le_rfl⟩
  · rename_i h
    simpa [hi] using h

theorem record_eq_self (h : longest.Covers order) : longest.record order.toArray = longest := by
  apply ext_get
  intro i
  rw [get_record, if_neg]
  rintro ⟨hi, hs⟩
  obtain ⟨kept, hk, hle⟩ := h i hi
  exact absurd (hs kept hk) (Nat.not_lt.mpr hle)

def recordAll (longest : Longest n) (orders : List (List (Fin n))) : Longest n :=
  orders.foldl (fun longest order => longest.record order.toArray) longest

variable {orders orders' : List (List (Fin n))}

theorem recordAll_append (longest : Longest n) (orders orders' : List (List (Fin n))) :
    longest.recordAll (orders ++ orders') = (longest.recordAll orders).recordAll orders' :=
  List.foldl_append ..

theorem grows_recordAll : longest.Grows (longest.recordAll orders) := by
  induction orders generalizing longest with
  | nil => exact .refl longest
  | cons order orders ih => exact grows_record.trans ih

theorem covers_recordAll (h : order ∈ orders) : (longest.recordAll orders).Covers order := by
  induction orders generalizing longest with
  | nil => simp at h
  | cons order' orders ih =>
    rcases List.mem_cons.mp h with rfl | h
    · exact covers_record.of_grows grows_recordAll
    · exact ih h

/-- Recording covered orders changes nothing. -/
theorem recordAll_eq_self (h : ∀ order ∈ orders, longest.Covers order) :
    longest.recordAll orders = longest := by
  induction orders with
  | nil => rfl
  | cons order orders ih =>
    rw [recordAll, List.foldl_cons, record_eq_self (h order List.mem_cons_self)]
    exact ih fun order' h' => h order' (List.mem_cons_of_mem _ h')

end Linearizability.Longest
