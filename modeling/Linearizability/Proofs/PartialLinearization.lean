import Linearizability.Proofs.Linearization
import Mathlib.Data.Fintype.EquivFin
import Mathlib.Data.List.FinRange
import Mathlib.Order.Bounds.Basic

/-! # Partial linearizations

A partial linearization is an order of some operations that can be the beginning of a
linearization: each operation stands behind all that returned before it was called, and the model
can replay them. Operations are known by their positions, since equal ones may occur. To list the
operations in another way renames the positions, which keeps the lengths that partial
linearizations can have.
-/

namespace Linearizability

variable {S I O ι κ : Type}

/-- An order of some operations, each behind all operations that returned before it was called,
that the model can replay. -/
structure PartialLinearization (model : Model S I O) (operations : ι → Operation I O)
    (order : List ι) : Prop where
  nodup : order.Nodup
  respectsTime : ∀ before i behind, order = before ++ i :: behind →
    ∀ j, (operations j).ret < (operations i).call → j ∈ before
  legal : ∃ s, model.replay (order.map fun i => (operations i).exchange) = .ok s

def partialLengths (model : Model S I O) (operations : ι → Operation I O) : Set Nat :=
  {k | ∃ order, PartialLinearization model operations order ∧ order.length = k}

namespace PartialLinearization

variable {model : Model S I O} {operations : ι → Operation I O} {operations' : κ → Operation I O}
  {order : List ι}

theorem nil (model : Model S I O) (operations : ι → Operation I O) :
    PartialLinearization model operations [] where
  nodup := List.nodup_nil
  respectsTime before i behind h := by simp at h
  legal := ⟨model.init, rfl⟩

theorem length_le {n : Nat} {operations : Fin n → Operation I O} {order : List (Fin n)}
    (h : PartialLinearization model operations order) : order.length ≤ n := by
  simpa using h.nodup.length_le_card

theorem iff_getElem {n : Nat} {operations : Fin n → Operation I O} {order : List (Fin n)} :
    PartialLinearization model operations order ↔ order.Nodup ∧
      (∀ k : Fin order.length, ∀ j, (operations j).ret < (operations order[k]).call →
        ∃ l < k, order[l] = j) ∧
      (model.replay (order.map fun i => (operations i).exchange)).toOption.isSome := by
  have hl : (∃ s, model.replay (order.map fun i => (operations i).exchange) = .ok s) ↔
      (model.replay (order.map fun i => (operations i).exchange)).toOption.isSome := by
    cases model.replay (order.map fun i => (operations i).exchange) <;> simp [Except.toOption]
  rw [← hl]
  constructor
  · intro h
    refine ⟨h.nodup, fun k j hlt => ?_, h.legal⟩
    have hj : j ∈ order.take k := by
      refine h.respectsTime _ order[k] (order.drop (k + 1)) ?_ j hlt
      rw [Fin.getElem_fin, List.cons_getElem_drop_succ, List.take_append_drop]
    obtain ⟨l, hl, he⟩ := List.mem_take_iff_getElem.mp hj
    exact ⟨⟨l, by omega⟩, Fin.mk_lt_of_lt_val (by omega), he⟩
  · rintro ⟨hn, ht, hs⟩
    refine ⟨hn, ?_, hs⟩
    rintro before i behind rfl j hlt
    obtain ⟨l, hl, rfl⟩ := ht ⟨before.length, by simp⟩ j (by simpa using hlt)
    have hb : l < before.length := hl
    simp [List.getElem_append_left hb]

instance {n : Nat} (model : Model S I O) (operations : Fin n → Operation I O)
    (order : List (Fin n)) : Decidable (PartialLinearization model operations order) :=
  decidable_of_iff _ iff_getElem.symm

theorem map (h : PartialLinearization model operations order) (σ : ι ≃ κ)
    (hσ : ∀ i, operations' (σ i) = operations i) :
    PartialLinearization model operations' (order.map σ) where
  nodup := h.nodup.map σ.injective
  respectsTime := by
    intro before k behind hk j hlt
    obtain ⟨before, rest, rfl, rfl, hrest⟩ := List.map_eq_append_iff.mp hk
    obtain ⟨i, behind, rfl, rfl, rfl⟩ := List.map_eq_cons_iff.mp hrest
    obtain ⟨j, rfl⟩ := σ.surjective j
    rw [hσ, hσ] at hlt
    exact List.mem_map_of_mem (h.respectsTime before i behind rfl j hlt)
  legal := by
    rw [List.map_map]
    simpa only [Function.comp_def, hσ] using h.legal

theorem swap [DecidableEq ι] (h : PartialLinearization model operations order) {i j : ι}
    (hij : operations i = operations j) :
    PartialLinearization model operations (order.map (Equiv.swap i j)) := by
  refine h.map _ fun k => ?_
  rw [Equiv.swap_apply_def]
  split
  · rename_i hk
    rw [hk, hij]
  · split
    · rename_i hk
      rw [hk, hij]
    · rfl

end PartialLinearization

section PartialLengths

variable {model : Model S I O} {m n : Nat} {operations : Fin n → Operation I O}
  {operations' : Fin m → Operation I O}

theorem zero_mem_partialLengths (model : Model S I O) (operations : ι → Operation I O) :
    0 ∈ partialLengths model operations :=
  ⟨[], .nil model operations, rfl⟩

/-- Lists that are rearrangements of each other are the same up to the names of positions. -/
theorem exists_equiv_of_perm {α : Type} {f : Fin n → α} {g : Fin m → α}
    (h : (List.ofFn f).Perm (List.ofFn g)) : ∃ σ : Fin n ≃ Fin m, ∀ i, g (σ i) = f i := by
  rw [List.ofFn_eq_map, List.ofFn_eq_map] at h
  obtain ⟨places, hp, hg⟩ := exists_perm_map_eq h
  have hn : n = places.length := by simpa using (congrArg List.length hg).symm
  have hall : ∀ k, k ∈ places := fun k => hp.mem_iff.mpr (List.mem_finRange k)
  have hd : places.Nodup := hp.nodup_iff.mpr (List.nodup_finRange m)
  refine ⟨(finCongr hn).trans (hd.getEquivOfForallMemList places hall), fun i => ?_⟩
  have hi := List.getElem_of_eq hg (i := i) (by simp [← hn])
  simpa using hi

theorem partialLengths_subset_of_equiv (σ : Fin n ≃ Fin m)
    (hσ : ∀ i, operations' (σ i) = operations i) :
    partialLengths model operations ⊆ partialLengths model operations' := by
  rintro _ ⟨order, ho, rfl⟩
  exact ⟨order.map σ, ho.map σ hσ, List.length_map _⟩

theorem partialLengths_eq_of_perm (h : (List.ofFn operations).Perm (List.ofFn operations')) :
    partialLengths model operations = partialLengths model operations' := by
  obtain ⟨σ, hσ⟩ := exists_equiv_of_perm h
  refine Set.Subset.antisymm (partialLengths_subset_of_equiv σ hσ) ?_
  exact partialLengths_subset_of_equiv σ.symm fun i => by rw [← hσ, σ.apply_symm_apply]

end PartialLengths

end Linearizability
