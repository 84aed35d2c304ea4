import Linearizability.Search.Links
import Mathlib.Data.Fintype.Card

/-! # Taking places out and putting them back

Links thread a list of places if they lead from its first place through all of them, and back.
Taking a place out threads the list without it. Putting it back restores the very links from
before, also those of places that were out already.
-/

namespace Linearizability.Links

variable {m : Nat}

theorem get_set {α : Type} (v : Vector α m) (p q : Fin m) (a : α) :
    (v.set p a p.isLt).get q = if p = q then a else v.get q := by
  simp only [Fin.ext_iff]
  exact Vector.getElem_set p.isLt q.isLt

@[simp] theorem next_all (p : Fin m) :
    (all m).next.get p = if h : p + 1 < m then some ⟨p + 1, h⟩ else none :=
  Vector.getElem_ofFn p.isLt

@[simp] theorem prev_all (p : Fin m) :
    (all m).prev.get p =
      if p.val = 0 then none else some ⟨p - 1, (Nat.sub_le p 1).trans_lt p.isLt⟩ :=
  Vector.getElem_ofFn p.isLt

@[simp] theorem first_setPrev (links : Links m) (before after : Option (Fin m)) :
    (links.setPrev before after).first = links.first := by
  cases after <;> rfl

@[simp] theorem next_setPrev (links : Links m) (before after : Option (Fin m)) :
    (links.setPrev before after).next = links.next := by
  cases after <;> rfl

@[simp] theorem prev_setNext (links : Links m) (before after : Option (Fin m)) :
    (links.setNext before after).prev = links.prev := by
  cases before <;> rfl

theorem first_setNext (links : Links m) (before after : Option (Fin m)) :
    (links.setNext before after).first = if before = none then after else links.first := by
  cases before <;> simp [setNext]

theorem get_next_setNext (links : Links m) (before after : Option (Fin m)) (p : Fin m) :
    (links.setNext before after).next.get p =
      if before = some p then after else links.next.get p := by
  cases before with
  | none => simp [setNext]
  | some q => simp [setNext, get_set]

theorem get_prev_setPrev (links : Links m) (before after : Option (Fin m)) (p : Fin m) :
    (links.setPrev before after).prev.get p =
      if after = some p then before else links.prev.get p := by
  cases after with
  | none => simp [setPrev]
  | some q => simp [setPrev, get_set]

theorem ext_get {links links' : Links m} (hf : links.first = links'.first)
    (hn : ∀ p, links.next.get p = links'.next.get p)
    (hp : ∀ p, links.prev.get p = links'.prev.get p) : links = links' := by
  cases links with | mk first next prev =>
  cases links' with | mk first' next' prev' =>
  congr 1
  · exact Vector.ext fun i hi => hn ⟨i, hi⟩
  · exact Vector.ext fun i hi => hp ⟨i, hi⟩

theorem append_eq_append_cons {α : Type} {a b c d : List α} {x : α}
    (h : a ++ b = c ++ x :: d) :
    (∃ between, a = c ++ x :: between ∧ d = between ++ b) ∨
      ∃ between, b = between ++ x :: d ∧ c = a ++ between := by
  rcases List.append_eq_append_iff.mp h with ⟨between, hc, hb⟩ | ⟨between, ha, hd⟩
  · exact .inr ⟨between, hb, hc⟩
  · cases between with
    | nil => exact .inr ⟨[], by simpa using hd.symm, by simpa using ha.symm⟩
    | cons y between =>
      obtain ⟨rfl, rfl⟩ := List.cons_eq_cons.mp hd
      exact .inl ⟨between, ha, rfl⟩

/-- Links that lead from the first place of a list through all of them, and back. -/
structure Threads (links : Links m) (places : List (Fin m)) : Prop where
  nodup : places.Nodup
  first : links.first = places.head?
  next : ∀ before p after, places = before ++ p :: after → links.next.get p = after.head?
  prev : ∀ before p after, places = before ++ p :: after → links.prev.get p = before.getLast?

theorem val_of_finRange_eq {before after : List (Fin m)} {p : Fin m}
    (h : List.finRange m = before ++ p :: after) : p.val = before.length := by
  have hi : before.length < (List.finRange m).length := by simp [h]
  have hp : (List.finRange m)[before.length] = p := by simp [h]
  simpa using (congrArg Fin.val hp).symm

theorem threads_all (m : Nat) : (all m).Threads (List.finRange m) where
  nodup := List.nodup_finRange m
  first := by
    cases m with
    | zero => simp [all]
    | succ m => simp [all, List.finRange_succ]
  next before p after h := by
    have hp := val_of_finRange_eq h
    have ha : after.head? = (List.finRange m)[p.val + 1]? := by
      rw [h, hp, List.getElem?_append_right (by omega), List.head?_eq_getElem?]
      simp
    rw [ha]
    by_cases hlt : p.val + 1 < m
    · simp [hlt]
    · simp [hlt]
  prev before p after h := by
    have hp := val_of_finRange_eq h
    have hb : before.getLast? = if p.val = 0 then none else (List.finRange m)[p.val - 1]? := by
      split
      · have : before = [] := List.length_eq_zero_iff.mp (by omega)
        simp [this]
      · rw [h, hp, List.getElem?_append_left (by omega), List.getLast?_eq_getElem?]
    rw [hb]
    by_cases h0 : p.val = 0
    · simp [h0]
    · have hlt : p.val - 1 < (List.finRange m).length := by simp; omega
      simp [h0, List.getElem?_eq_getElem hlt]

section Unlink

variable (links : Links m) (p q : Fin m)

theorem first_unlink : (links.unlink p).first =
    if links.prev.get p = none then links.next.get p else links.first := by
  simp [unlink, first_setNext]

theorem next_unlink : (links.unlink p).next.get q =
    if links.prev.get p = some q then links.next.get p else links.next.get q := by
  simp [unlink, get_next_setNext]

theorem prev_unlink : (links.unlink p).prev.get q =
    if links.next.get p = some q then links.prev.get p else links.prev.get q := by
  simp [unlink, get_prev_setPrev]

theorem first_relink : (links.relink p).first =
    if links.prev.get p = none then some p else links.first := by
  simp [relink, first_setNext]

theorem next_relink : (links.relink p).next.get q =
    if links.prev.get p = some q then some p else links.next.get q := by
  simp [relink, get_next_setNext]

theorem prev_relink : (links.relink p).prev.get q =
    if links.next.get p = some q then some p else links.prev.get q := by
  simp [relink, get_prev_setPrev]

end Unlink

def follow (links : Links m) : Nat → Option (Fin m) → List (Fin m)
  | 0, _ => []
  | _ + 1, none => []
  | k + 1, some p => p :: links.follow k (links.next.get p)

/-- The places met from the first one on. One more is followed than there are, so links that lead
in a circle meet too many. -/
def places (links : Links m) : List (Fin m) := links.follow (m + 1) links.first

namespace Threads

variable {links : Links m} {before after : List (Fin m)} {p q : Fin m}

theorem next_ne (h : links.Threads (before ++ p :: after)) : links.next.get p ≠ some p := by
  rw [h.next _ _ _ rfl]
  intro hp
  have := List.mem_of_mem_head? hp
  have := h.nodup
  grind

theorem prev_ne (h : links.Threads (before ++ p :: after)) : links.prev.get p ≠ some p := by
  rw [h.prev _ _ _ rfl]
  intro hp
  have := List.mem_of_mem_getLast? hp
  have := h.nodup
  grind

/-- Taking a place out threads the list without it. -/
theorem unlink (h : links.Threads (before ++ p :: after)) :
    (links.unlink p).Threads (before ++ after) where
  nodup := h.nodup.sublist (by simp)
  first := by
    rw [first_unlink, h.prev _ _ _ rfl, h.next _ _ _ rfl, h.first]
    cases before <;> simp
  next before' q after' heq := by
    rw [next_unlink, h.prev _ _ _ rfl, h.next _ _ _ rfl]
    have hn := h.nodup
    rcases append_eq_append_cons heq with ⟨between, rfl, rfl⟩ | ⟨between, rfl, rfl⟩
    · rw [h.next before' q (between ++ p :: after) (by simp)]
      cases between with
      | nil => simp
      | cons r between =>
        have hq : (r :: between).getLast? ≠ some q := by
          intro hl
          have := List.mem_of_mem_getLast? hl
          grind
        simp [hq]
    · have hq : before.getLast? ≠ some q := by
        intro hl
        have := List.mem_of_mem_getLast? hl
        grind
      rw [if_neg hq, h.next (before ++ p :: between) q after' (by simp)]
  prev before' q after' heq := by
    rw [prev_unlink, h.prev _ _ _ rfl, h.next _ _ _ rfl]
    have hn := h.nodup
    rcases append_eq_append_cons heq with ⟨between, rfl, rfl⟩ | ⟨between, rfl, rfl⟩
    · have hq : after.head? ≠ some q := by
        intro hl
        have := List.mem_of_mem_head? hl
        grind
      rw [if_neg hq, h.prev before' q (between ++ p :: after) (by simp)]
    · rw [h.prev (before ++ p :: between) q after' (by simp)]
      cases between with
      | nil => simp
      | cons r between =>
        have hq : r ≠ q := by grind
        simp [hq, List.getLast?_cons]

theorem next_of_prev (h : links.Threads (before ++ p :: after))
    (hq : links.prev.get p = some q) : links.next.get q = some p := by
  rw [h.prev _ _ _ rfl] at hq
  obtain ⟨before, rfl⟩ := List.getLast?_eq_some_iff.mp hq
  rw [h.next before q (p :: after) (by simp), List.head?_cons]

theorem prev_of_next (h : links.Threads (before ++ p :: after))
    (hq : links.next.get p = some q) : links.prev.get q = some p := by
  rw [h.next _ _ _ rfl] at hq
  obtain ⟨after, rfl⟩ := List.head?_eq_some_iff.mp hq
  rw [h.prev (before ++ [p]) q after (by simp), List.getLast?_concat]

/-- Putting back the place taken out last restores the links. -/
theorem relink_unlink (h : links.Threads (before ++ p :: after)) :
    (links.unlink p).relink p = links := by
  have hp : (links.unlink p).prev.get p = links.prev.get p := by
    rw [prev_unlink, if_neg h.next_ne]
  have hn : (links.unlink p).next.get p = links.next.get p := by
    rw [next_unlink, if_neg h.prev_ne]
  apply ext_get
  · rw [first_relink, first_unlink, hp, h.first, h.prev _ _ _ rfl]
    cases before <;> simp
  · intro q
    rw [next_relink, next_unlink, hp]
    split
    · rename_i hq
      exact (h.next_of_prev hq).symm
    · rfl
  · intro q
    rw [prev_relink, prev_unlink, hn]
    split
    · rename_i hq
      exact (h.prev_of_next hq).symm
    · rfl

theorem filter_ne (h : (before ++ p :: after).Nodup) :
    (before ++ p :: after).filter (· ≠ p) = before ++ after := by
  have hb : before.filter (· ≠ p) = before := List.filter_eq_self.mpr (by grind)
  have ha : after.filter (· ≠ p) = after := List.filter_eq_self.mpr (by grind)
  rw [List.filter_append, List.filter_cons_of_neg (by simp), hb, ha]

variable {places : List (Fin m)} {call ret : Fin m}

theorem unlink_filter (h : links.Threads places) (hp : p ∈ places) :
    (links.unlink p).Threads (places.filter (· ≠ p)) := by
  obtain ⟨before, after, rfl⟩ := List.append_of_mem hp
  rw [filter_ne h.nodup]
  exact h.unlink

theorem relink_unlink_of_mem (h : links.Threads places) (hp : p ∈ places) :
    (links.unlink p).relink p = links := by
  obtain ⟨before, after, rfl⟩ := List.append_of_mem hp
  exact h.relink_unlink

theorem lift (h : links.Threads places) (hc : call ∈ places) (hr : ret ∈ places)
    (hne : ret ≠ call) :
    (links.lift call ret).Threads (places.filter fun p => p ≠ call ∧ p ≠ ret) := by
  have hr' : ret ∈ places.filter (· ≠ call) := by simp [hr, hne]
  have hf : places.filter (fun p => p ≠ call ∧ p ≠ ret) =
      (places.filter (· ≠ call)).filter (· ≠ ret) := by
    rw [List.filter_filter]
    apply List.filter_congr
    intro p _
    simp [Bool.and_comm]
  rw [hf]
  exact (h.unlink_filter hc).unlink_filter hr'

theorem unlift_lift (h : links.Threads places) (hc : call ∈ places) (hr : ret ∈ places)
    (hne : ret ≠ call) : (links.lift call ret).unlift call ret = links := by
  have hr' : ret ∈ places.filter (· ≠ call) := by simp [hr, hne]
  rw [Links.lift, unlift, (h.unlink_filter hc).relink_unlink_of_mem hr',
    h.relink_unlink_of_mem hc]

theorem follow_eq {k : Nat} (h : links.Threads (before ++ after)) (hk : after.length < k) :
    links.follow k after.head? = after := by
  induction after generalizing before k with
  | nil =>
    obtain ⟨k, rfl⟩ := Nat.exists_eq_add_of_lt hk
    rfl
  | cons p after ih =>
    obtain ⟨k, rfl⟩ := Nat.exists_eq_add_of_lt hk
    have hbehind : links.Threads (before ++ [p] ++ after) := by simpa using h
    rw [List.head?_cons, follow, h.next before p after rfl, ih hbehind (by simp; omega)]

theorem places_eq (h : links.Threads places) : links.places = places := by
  have hall : links.Threads ([] ++ places) := h
  have hlen : places.length ≤ m := by simpa using h.nodup.length_le_card
  rw [Links.places, h.first]
  exact hall.follow_eq (Nat.lt_succ_of_le hlen)

end Threads

end Linearizability.Links
