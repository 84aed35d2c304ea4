import Linearizability.Store.Model
import Linearizability.Proofs.Linearization
import Mathlib.Data.List.Sort

/-! # Replaying requests key by key

What an exchange with the store needs and changes is the value of its own key. Exchanges can be
replayed from a store exactly if those on each key can be replayed from the value of that key.
-/

namespace Linearizability

namespace Store

theorem lookup_bind (key value key' : String) (entries : List (String × String)) :
    (bind key value entries).lookup key' =
      if key' = key then some value else entries.lookup key' := by
  induction entries with
  | nil => grind [bind]
  | cons entry rest ih =>
    rw [bind]
    split
    · grind
    · split
      · grind
      · grind

theorem lookup_unbind (key key' : String) (entries : List (String × String)) :
    (unbind key entries).lookup key' = if key' = key then none else entries.lookup key' := by
  induction entries with
  | nil => simp [unbind]
  | cons entry rest ih =>
    rw [unbind, List.filter_cons]
    rw [unbind] at ih
    split
    · grind
    · grind

theorem get?_insert (store : Store) (key value key' : String) :
    (store.insert key value).get? key' = if key' = key then some value else store.get? key' :=
  lookup_bind key value key' store.entries

theorem get?_erase (store : Store) (key key' : String) :
    (store.erase key).get? key' = if key' = key then none else store.get? key' :=
  lookup_unbind key key' store.entries

theorem get?_eq_some_iff {store : Store} {key value : String} :
    store.get? key = some value ↔ (key, value) ∈ store.entries := by
  rw [get?, List.lookup_eq_some_iff]
  constructor
  · rintro ⟨before, behind, he, _⟩
    rw [he]
    exact List.mem_append_right _ List.mem_cons_self
  · intro h
    obtain ⟨before, behind, he⟩ := List.append_of_mem h
    refine ⟨before, behind, he, fun entry hm => ?_⟩
    have hlt := store.ascending
    rw [he, List.pairwise_append] at hlt
    simpa using (String.ne_of_lt (hlt.2.2 entry hm _ List.mem_cons_self)).symm

theorem ext_get? {s t : Store} (h : ∀ key, s.get? key = t.get? key) : s = t := by
  have hmem : ∀ entry, entry ∈ s.entries ↔ entry ∈ t.entries := fun (key, value) => by
    rw [← get?_eq_some_iff, ← get?_eq_some_iff, h]
  have : Std.Irrefl fun a b : String × String => a.1 < b.1 := ⟨fun a => String.lt_irrefl a.1⟩
  have : Std.Antisymm fun a b : String × String => a.1 < b.1 :=
    ⟨fun a b hab hba => absurd (String.lt_trans hab hba) (String.lt_irrefl a.1)⟩
  have he := s.ascending.eq_of_mem_iff t.ascending hmem
  obtain ⟨entries, _⟩ := s
  obtain ⟨entries', _⟩ := t
  obtain rfl : entries = entries' := he
  rfl

abbrev Exchange := Request × Response

/-- The value of the key of an exchange after it, if it is legal, by the value before. -/
def valueAfter? (value : Option String) : Exchange → Option (Option String)
  | (.put _ value', _) => some (some value')
  | (.get _, response) => if response.isOk ∧ response.value = value then some value else none
  | (.delete _, _) => some none

def valueAfterAll? (value : Option String) (steps : List Exchange) : Option (Option String) :=
  steps.foldlM valueAfter? value

@[simp] theorem valueAfterAll?_nil (value : Option String) : valueAfterAll? value [] = some value :=
  rfl

@[simp] theorem valueAfterAll?_cons (value : Option String) (e : Exchange)
    (steps : List Exchange) :
    valueAfterAll? value (e :: steps) = (valueAfter? value e).bind (valueAfterAll? · steps) :=
  rfl

/-- An exchange is legal by the value of its key, and changes no other value. -/
theorem next?_cases (store : Store) (e : Exchange) :
    valueAfter? (store.get? e.1.key) e = none ∧ model.next? store e = none ∨
      ∃ value store', valueAfter? (store.get? e.1.key) e = some value ∧
        model.next? store e = some store' ∧
        ∀ key, store'.get? key = if key = e.1.key then value else store.get? key := by
  obtain ⟨request, response⟩ := e
  cases request with
  | put key value =>
    exact .inr ⟨some value, store.insert key value, rfl, rfl, get?_insert store key value⟩
  | get key =>
    by_cases h : response.isOk ∧ response.value = store.get? key
    · refine .inr ⟨store.get? key, store, ?_, ?_, fun key' => ?_⟩
      · simp [valueAfter?, Request.key, h]
      · simp [Model.next?_eq_ite, model, step, h]
      · split
        · rename_i hk
          rw [hk, Request.key]
        · rfl
    · refine .inl ⟨?_, ?_⟩
      · simp [valueAfter?, Request.key, h]
      · simp [Model.next?_eq_ite, model, step, h]
  | delete key => exact .inr ⟨none, store.erase key, rfl, rfl, get?_erase store key⟩

/-- Exchanges can be replayed exactly if those on each key can be. -/
theorem isSome_after?_iff (store : Store) (steps : List Exchange) :
    (model.after? store steps).isSome ↔
      ∀ key, (valueAfterAll? (store.get? key) (steps.filter (·.1.key = key))).isSome := by
  induction steps generalizing store with
  | nil => simp
  | cons e steps ih =>
    have hcons : ∀ key, valueAfterAll? (store.get? key) ((e :: steps).filter (·.1.key = key)) =
        if key = e.1.key then (valueAfter? (store.get? key) e).bind
          (valueAfterAll? · (steps.filter (·.1.key = key)))
        else valueAfterAll? (store.get? key) (steps.filter (·.1.key = key)) := by
      intro key
      split
      · rename_i hk
        rw [List.filter_cons_of_pos (by simp [hk]), valueAfterAll?_cons]
      · rename_i hk
        rw [List.filter_cons_of_neg (by simpa [eq_comm] using hk)]
    rcases next?_cases store e with ⟨hv, hn⟩ | ⟨value, store', hv, hn, hg⟩
    · rw [Model.after?_cons, hn]
      constructor
      · simp
      · intro h
        have := h e.1.key
        rw [hcons, if_pos rfl, hv] at this
        simp at this
    · rw [Model.after?_cons, hn, Option.bind_some, ih]
      refine forall_congr' fun key => ?_
      rw [hcons, hg]
      split
      · rename_i hk
        rw [hk, hv, Option.bind_some]
      · rfl

end Store

end Linearizability
