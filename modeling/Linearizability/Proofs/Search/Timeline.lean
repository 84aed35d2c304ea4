import Linearizability.Search.Timeline
import Linearizability.Proofs.Search.Links
import Linearizability.Proofs.Sorting
import Mathlib.Data.List.Perm.Basic

/-! # What a time line holds

The time line of some operations has one place for every call and one for every return, in the
order of time. The return of an operation stands before the call of another one exactly if it is
earlier, since calls stand before returns of the same time.
-/

namespace Linearizability

namespace Event

variable {n : Nat} {a b c : Event n}

theorem notAfter_iff : a.notAfter b = true ↔
    a.time < b.time ∨ a.time = b.time ∧ (a.phase = .call ∨ b.phase = .ret) := by
  simp [notAfter]

theorem notAfter_trans (hab : a.notAfter b = true) (hbc : b.notAfter c = true) :
    a.notAfter c = true := by
  rw [notAfter_iff] at *
  simp only [Timestamp.lt_iff, ← Timestamp.toInt_inj] at *
  rcases hab with hab | ⟨hab, ha | hb⟩ <;> rcases hbc with hbc | ⟨hbc, hb' | hc⟩
  all_goals grind

theorem notAfter_total (a b : Event n) : (a.notAfter b || b.notAfter a) = true := by
  rw [Bool.or_eq_true, notAfter_iff, notAfter_iff]
  simp only [Timestamp.lt_iff, ← Timestamp.toInt_inj]
  cases a.phase <;> cases b.phase <;> simp <;> omega

theorem mergeSort_notAfter (events : List (Event n)) :
    events.mergeSort notAfter = events.insertionSort fun a b => a.notAfter b = true :=
  mergeSort_eq_insertionSort notAfter (fun _ _ _ => notAfter_trans) notAfter_total events

def Same (a b : Event n) : Prop := a.op = b.op ∧ a.phase = b.phase

end Event

namespace Timeline

variable {I O : Type} {n : Nat}

/-- A time line that holds the calls and the returns of some operations. -/
structure Lays (timeline : Timeline n) (operations : Vector (Operation I O) n) : Prop where
  call_time : ∀ p, (timeline.events.get p).phase = .call →
    (timeline.events.get p).time = (operations.get (timeline.events.get p).op).call
  ret_time : ∀ p, (timeline.events.get p).phase = .ret →
    (timeline.events.get p).time = (operations.get (timeline.events.get p).op).ret
  exists_call : ∀ i, ∃ p, (timeline.events.get p).op = i ∧ (timeline.events.get p).phase = .call
  returnOf : ∀ i, (timeline.events.get (timeline.returnOf.get i)).op = i ∧
    (timeline.events.get (timeline.returnOf.get i)).phase = .ret
  unique : ∀ p q, (timeline.events.get p).Same (timeline.events.get q) → p = q
  sorted : ∀ p q, p < q → (timeline.events.get p).notAfter (timeline.events.get q) = true

section Of

variable (operations : Vector (Operation I O) n)

theorem mem_eventsOf {event : Event n} : event ∈ eventsOf operations ↔
    event = ⟨(operations.get event.op).call, .call, event.op⟩ ∨
      event = ⟨(operations.get event.op).ret, .ret, event.op⟩ := by
  simp only [eventsOf, List.mem_flatMap, List.mem_finRange, true_and, List.mem_cons,
    List.not_mem_nil, or_false]
  constructor
  · rintro ⟨i, rfl | rfl⟩
    · exact .inl rfl
    · exact .inr rfl
  · intro h
    exact ⟨event.op, h⟩

theorem pairwise_eventsOf : (eventsOf operations).Pairwise fun a b => ¬ a.Same b := by
  rw [eventsOf, List.pairwise_flatMap]
  constructor
  · intro i _
    simp [Event.Same]
  · refine (List.nodup_finRange n).imp fun {i j} hij => ?_
    simp [Event.Same, hij]

def sortedEvents : List (Event n) := (eventsOf operations).mergeSort Event.notAfter

theorem length_sortedEvents : (sortedEvents operations).length = 2 * n := by
  simp [sortedEvents, length_eventsOf]

theorem get_events_of (p : Place n) : (of operations).events.get p =
    (sortedEvents operations).get (p.cast (length_sortedEvents operations).symm) := rfl

theorem exists_place (event : Event n) (h : event ∈ eventsOf operations) :
    ∃ p, (of operations).events.get p = event := by
  have hs : event ∈ sortedEvents operations := by simpa [sortedEvents] using h
  obtain ⟨k, rfl⟩ := List.mem_iff_get.mp hs
  exact ⟨k.cast (length_sortedEvents operations), get_events_of operations _⟩

theorem get_events_mem (p : Place n) : (of operations).events.get p ∈ eventsOf operations := by
  rw [get_events_of]
  exact List.mem_mergeSort.mp (List.get_mem _ _)

theorem place_unique (p q : Place n)
    (h : ((of operations).events.get p).Same ((of operations).events.get q)) : p = q := by
  have hp : (sortedEvents operations).Pairwise fun a b => ¬ a.Same b :=
    (List.mergeSort_perm _ _).symm.pairwise (pairwise_eventsOf operations)
      fun hab hba => hab ⟨hba.1.symm, hba.2.symm⟩
  rw [List.pairwise_iff_getElem] at hp
  rw [get_events_of, get_events_of] at h
  have hl := length_sortedEvents operations
  rcases Nat.lt_trichotomy p.val q.val with hlt | heq | hlt
  · exact (hp p q (by omega) (by omega) hlt h).elim
  · exact Fin.ext heq
  · exact (hp q p (by omega) (by omega) hlt ⟨h.1.symm, h.2.symm⟩).elim

theorem place_sorted {p q : Place n} (h : p < q) :
    ((of operations).events.get p).notAfter ((of operations).events.get q) = true := by
  have hp : (sortedEvents operations).Pairwise fun a b => a.notAfter b = true := by
    apply List.pairwise_mergeSort
    · intro a b c
      exact Event.notAfter_trans
    · exact Event.notAfter_total
  have hl := length_sortedEvents operations
  rw [get_events_of, get_events_of]
  exact List.pairwise_iff_getElem.mp hp p q (by omega) (by omega) h

end Of

def noteReturn (events : Vector (Event n) (2 * n)) (places : Vector (Place n) n) (p : Place n) :
    Vector (Place n) n :=
  let event := events.get p
  if event.phase = .ret then places.set event.op p event.op.isLt else places

theorem get_noteReturn (events : Vector (Event n) (2 * n)) (places : Vector (Place n) n)
    (p : Place n) (i : Fin n) : (noteReturn events places p).get i =
      if (events.get p).phase = .ret ∧ (events.get p).op = i then p else places.get i := by
  by_cases h : (events.get p).phase = .ret
  · simp [noteReturn, h, Links.get_set]
  · simp [noteReturn, h]

theorem get_foldl_noteReturn {events : Vector (Event n) (2 * n)} {r : Place n} {i : Fin n}
    (hr : (events.get r).phase = .ret ∧ (events.get r).op = i)
    (hu : ∀ p, (events.get p).phase = .ret ∧ (events.get p).op = i → p = r)
    (ps : List (Place n)) (places : Vector (Place n) n) (h : r ∈ ps ∨ places.get i = r) :
    (ps.foldl (noteReturn events) places).get i = r := by
  induction ps generalizing places with
  | nil => simpa using h
  | cons p ps ih =>
    apply ih
    rw [get_noteReturn]
    split
    · rename_i hp
      exact .inr (hu p hp)
    · rename_i hp
      have hne : r ≠ p := fun he => hp (he ▸ hr)
      simpa [hne] using h

theorem lays_of (operations : Vector (Operation I O) n) : (of operations).Lays operations where
  call_time p hp := by
    rcases (mem_eventsOf operations).mp (get_events_mem operations p) with h | h
    · exact congrArg Event.time h
    · rw [h] at hp
      cases hp
  ret_time p hp := by
    rcases (mem_eventsOf operations).mp (get_events_mem operations p) with h | h
    · rw [h] at hp
      cases hp
    · exact congrArg Event.time h
  exists_call i := by
    obtain ⟨p, hp⟩ := exists_place operations ⟨(operations.get i).call, .call, i⟩
      ((mem_eventsOf operations).mpr (.inl rfl))
    exact ⟨p, by rw [hp], by rw [hp]⟩
  returnOf i := by
    obtain ⟨r, hr⟩ := exists_place operations ⟨(operations.get i).ret, .ret, i⟩
      ((mem_eventsOf operations).mpr (.inr rfl))
    have he : (of operations).returnOf.get i = r := by
      change ((List.finRange (2 * n)).foldl (noteReturn (of operations).events) _).get i = r
      apply get_foldl_noteReturn (by simp [hr])
      · rintro p ⟨hp, ho⟩
        exact place_unique operations p r (by simp [Event.Same, hr, hp, ho])
      · exact .inl (List.mem_finRange r)
    simp [he, hr]
  unique := place_unique operations
  sorted p q := place_sorted operations

namespace Lays

variable {timeline : Timeline n} {operations : Vector (Operation I O) n} {p q : Place n}
  {i j : Fin n}

/-- A return stands before a call exactly if it is earlier. -/
theorem ret_lt_call_iff (h : timeline.Lays operations)
    (hp : (timeline.events.get p).phase = .ret) (hq : (timeline.events.get q).phase = .call) :
    p < q ↔ (operations.get (timeline.events.get p).op).ret <
      (operations.get (timeline.events.get q).op).call := by
  rw [← h.ret_time p hp, ← h.call_time q hq]
  constructor
  · intro hlt
    rcases Event.notAfter_iff.mp (h.sorted p q hlt) with ht | ⟨_, ht | ht⟩
    · exact ht
    · rw [hp] at ht
      cases ht
    · rw [hq] at ht
      cases ht
  · intro ht
    by_contra hge
    rcases Nat.lt_or_eq_of_le (Nat.le_of_not_lt hge) with hlt | heq
    · have hle := Event.notAfter_iff.mp (h.sorted q p hlt)
      simp only [Timestamp.lt_iff, ← Timestamp.toInt_inj] at ht hle
      omega
    · rw [Fin.ext heq, hp] at hq
      cases hq

theorem eq_returnOf (h : timeline.Lays operations) (hp : (timeline.events.get p).phase = .ret) :
    p = timeline.returnOf.get (timeline.events.get p).op :=
  have hr := h.returnOf (timeline.events.get p).op
  h.unique _ _ ⟨hr.1.symm, hp.trans hr.2.symm⟩

theorem op_eq_iff (h : timeline.Lays operations) (hp : (timeline.events.get p).phase = .call) :
    (timeline.events.get q).op = (timeline.events.get p).op ↔
      q = p ∨ q = timeline.returnOf.get (timeline.events.get p).op := by
  constructor
  · intro ho
    cases hq : (timeline.events.get q).phase with
    | call => exact .inl (h.unique q p ⟨ho, hq.trans hp.symm⟩)
    | ret => exact .inr (ho ▸ h.eq_returnOf hq)
  · rintro (rfl | rfl)
    · rfl
    · exact (h.returnOf _).1

theorem returnOf_ne (h : timeline.Lays operations) (hp : (timeline.events.get p).phase = .call) :
    timeline.returnOf.get (timeline.events.get p).op ≠ p := by
  intro he
  have := (h.returnOf (timeline.events.get p).op).2
  rw [he, hp] at this
  cases this

end Lays

end Timeline

end Linearizability
