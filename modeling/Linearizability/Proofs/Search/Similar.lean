import Linearizability.Proofs.Search.Turns
import Mathlib.Data.List.Forall2

/-! # Similar problems

Two problems are similar if their time lines hold the same events, whatever the times are, and if
their models go in step, as a relation between the states tells, in which no state has two
partners. The searches of similar problems go in step too: the same calls are legal, and the same
pairs have been met before.
-/

namespace Linearizability

variable {S S' I I' O O' : Type} {n : Nat} {R : S → S' → Prop}

namespace Problem

structure Similar (R : S → S' → Prop) (problem : Problem S I O n) (problem' : Problem S' I' O' n) :
    Prop where
  events : ∀ p, (problem.timeline.events.get p).Same (problem'.timeline.events.get p)
  returnOf : problem'.timeline.returnOf = problem.timeline.returnOf
  partners : Relator.BiUnique R
  init : R problem.model.init problem'.model.init
  next : ∀ i s s', R s s' → Option.Rel R (problem.next? s i) (problem'.next? s' i)

end Problem

/-- Two searches that stand at the same point, in states that are partners. -/
structure Configuration.Alike (R : S → S' → Prop) (c : Configuration n S)
    (c' : Configuration n S') : Prop where
  links : c'.links = c.links
  state : R c.state c'.state
  linearized : c'.linearized = c.linearized
  memo : ∀ set, List.Forall₂ R (c.memo.statesOf set) (c'.memo.statesOf set)
  choices : List.Forall₂ (fun choice choice' => choice'.1 = choice.1 ∧ R choice.2 choice'.2)
    c.choices c'.choices
  order : c'.order = c.order
  longest : c'.longest = c.longest
  cursor : c'.cursor = c.cursor
  visits : c'.visits = c.visits

inductive Progress.Alike (R : S → S' → Prop) : Progress n S → Progress n S' → Prop where
  | searching {c : Configuration n S} {c' : Configuration n S'} (alike : c.Alike R c') :
    Alike R (.searching c) (.searching c')
  | finished (outcome : Outcome) (longest : Longest n) :
    Alike R (.finished outcome longest) (.finished outcome longest)

theorem Progress.Alike.result_eq {progress : Progress n S} {progress' : Progress n S'}
    (h : progress.Alike R progress') : progress'.result = progress.result := by
  cases h with
  | searching h => rw [Progress.result, Progress.result, h.longest]
  | finished => rfl

namespace Problem.Similar

variable {problem : Problem S I O n} {problem' : Problem S' I' O' n} {c : Configuration n S}
  {c' : Configuration n S'} {progress : Progress n S} {progress' : Progress n S'} {p : Place n}
  {i : Fin n} {t : S} {t' : S'}

theorem start (h : problem.Similar R problem') : problem.start.Alike R problem'.start where
  links := rfl
  state := h.init
  linearized := rfl
  memo set := by simp [Problem.start]
  choices := .nil
  order := rfl
  longest := rfl
  cursor := rfl
  visits := rfl

theorem pass (hc : c.Alike R c') : (Problem.pass c p).Alike R (Problem.pass c' p) where
  __ := hc
  cursor := by rw [Problem.pass, Problem.pass, hc.links]

theorem lift {memo : Memo n S} {memo' : Memo n S'} (h : problem.Similar R problem')
    (hc : c.Alike R c') (ht : R t t')
    (hm : ∀ set, List.Forall₂ R (memo.statesOf set) (memo'.statesOf set)) :
    (problem.lift c p i t memo).Alike R (problem'.lift c' p i t' memo') where
  links := by simp only [Problem.lift, hc.links, h.returnOf]
  state := ht
  linearized := by simp only [Problem.lift, hc.linearized]
  memo := hm
  choices := .cons ⟨rfl, hc.state⟩ hc.choices
  order := by simp only [Problem.lift, hc.order]
  longest := hc.longest
  cursor := by simp only [Problem.lift, hc.links, h.returnOf]
  visits := hc.visits

theorem visitReturn (h : problem.Similar R problem') (hc : c.Alike R c') :
    (problem.visitReturn c).Alike R (problem'.visitReturn c') := by
  have hchoices := hc.choices
  cases hl : c.choices with
  | nil =>
    rw [hl, List.forall₂_nil_left_iff] at hchoices
    simp only [Problem.visitReturn, hl, hchoices, hc.longest, hc.order]
    exact .finished _ _
  | cons choice choices =>
    rw [hl, List.forall₂_cons_left_iff] at hchoices
    obtain ⟨⟨q, s'⟩, choices', ⟨hq, hs⟩, hrest, hl'⟩ := hchoices
    obtain ⟨q, s⟩ := choice
    obtain rfl := hq
    have hop := (h.events q).1
    simp only [Problem.visitReturn, hl, hl']
    constructor
    exact {
      links := by simp only [hc.links, h.returnOf, hop]
      state := hs
      linearized := by simp only [hc.linearized, hop]
      memo := hc.memo
      choices := hrest
      order := by simp only [hc.order]
      longest := by simp only [hc.longest, hc.order]
      cursor := by simp only [hc.links, h.returnOf, hop]
      visits := hc.visits }

section Step

variable [DecidableEq S] [DecidableEq S'] (stop : Nat → Bool)

theorem memo_cases (h : problem.Similar R problem') (hc : c.Alike R c') (set : OperationSet n)
    (ht : R t t') :
    c.memo.insertNew? set t = none ∧ c'.memo.insertNew? set t' = none ∨
      ∃ memo memo', c.memo.insertNew? set t = some memo ∧
        c'.memo.insertNew? set t' = some memo' ∧
        ∀ set, List.Forall₂ R (memo.statesOf set) (memo'.statesOf set) := by
  have hmem : t ∈ c.memo.statesOf set ↔ t' ∈ c'.memo.statesOf set :=
    List.rel_mem h.partners ht (hc.memo set)
  cases hm : c.memo.insertNew? set t with
  | none =>
    rw [Memo.insertNew?_eq_none_iff, hmem] at hm
    exact .inl ⟨rfl, Memo.insertNew?_eq_none_iff.mpr hm⟩
  | some memo =>
    cases hm' : c'.memo.insertNew? set t' with
    | none =>
      rw [Memo.insertNew?_eq_none_iff, ← hmem, ← Memo.insertNew?_eq_none_iff, hm] at hm'
      cases hm'
    | some memo' =>
      refine .inr ⟨memo, memo', rfl, rfl, fun set' => ?_⟩
      rw [Memo.statesOf_insertNew? hm, Memo.statesOf_insertNew? hm']
      split
      · exact .cons ht (hc.memo set)
      · exact hc.memo set'

theorem visitCall (h : problem.Similar R problem') (hc : c.Alike R c') :
    (problem.visitCall c p i).Alike R (problem'.visitCall c' p i) := by
  have hn := h.next i _ _ hc.state
  rw [visitCall_eq, visitCall_eq, hc.linearized]
  generalize problem.next? c.state i = next at hn ⊢
  generalize problem'.next? c'.state i = next' at hn ⊢
  cases hn with
  | none => exact pass hc
  | some hr =>
    rcases memo_cases h hc (c.linearized.insert i) hr with ⟨hm, hm'⟩ | ⟨memo, memo', hm, hm', hs⟩
    · simp only [hm, hm']
      exact pass hc
    · simp only [hm, hm']
      exact lift h hc hr hs

theorem step (h : problem.Similar R problem') (hc : c.Alike R c') :
    (problem.step stop c).Alike R (problem'.step stop c') := by
  change (problem.stepBy problem.visitCall stop c).Alike R
    (problem'.stepBy problem'.visitCall stop c')
  cases hp : c.cursor with
  | none =>
    rw [stepBy_of_none hp, stepBy_of_none (hc.cursor ▸ hp), hc.longest, hc.order]
    exact .finished _ _
  | some p =>
    have hp' := hc.cursor ▸ hp
    have hv : ({ c with visits := c.visits + 1 } : Configuration n S).Alike R
        { c' with visits := c'.visits + 1 } :=
      { hc with visits := congrArg (· + 1) hc.visits }
    by_cases hs : (c.visits + 1) % stopInterval = 0 ∧ stop (c.visits + 1) = true
    · rw [stepBy_of_stop hp hs, stepBy_of_stop hp' (hc.visits ▸ hs), hc.longest]
      exact .finished _ _
    · have hs' : ¬ ((c'.visits + 1) % stopInterval = 0 ∧ stop (c'.visits + 1) = true) :=
        hc.visits ▸ hs
      obtain ⟨hop, hphase⟩ := h.events p
      cases hk : (problem.timeline.events.get p).phase with
      | call =>
        rw [stepBy_of_call hp hs hk, stepBy_of_call hp' hs' (hphase ▸ hk), ← hop]
        exact .searching (visitCall h hv)
      | ret =>
        rw [stepBy_of_ret hp hs hk, stepBy_of_ret hp' hs' (hphase ▸ hk)]
        exact visitReturn h hv

theorem run (h : problem.Similar R problem') (k : Nat) (hp : progress.Alike R progress') :
    (problem.run stop k progress).Alike R (problem'.run stop k progress') := by
  induction k generalizing progress progress' with
  | zero => exact hp
  | succ k ih =>
    cases hp with
    | searching hc => exact ih (h.step stop hc)
    | finished outcome longest => exact .finished outcome longest

/-- The searches of similar problems have the same results, whenever they are stopped. -/
theorem search_eq (h : problem.Similar R problem') : problem'.search stop = problem.search stop :=
  (h.run stop (bound n) (.searching h.start)).result_eq

end Step

end Problem.Similar

def Event.retime (time : Timestamp → Timestamp) (event : Event n) : Event n :=
  { event with time := time event.time }

namespace Timeline

variable {operations : Vector (Operation I O) n} {operations' : Vector (Operation I' O') n}
  {time : Timestamp → Timestamp}

/-- The times of the calls and returns of some operations change by a map that keeps their order. -/
structure Retimed (time : Timestamp → Timestamp) (operations : Vector (Operation I O) n)
    (operations' : Vector (Operation I' O') n) : Prop where
  call : ∀ i, (operations'.get i).call = time (operations.get i).call
  ret : ∀ i, (operations'.get i).ret = time (operations.get i).ret
  increasing : ∀ a ∈ eventsOf operations, ∀ b ∈ eventsOf operations,
    a.time < b.time → time a.time < time b.time

theorem Retimed.notAfter_eq (h : Retimed time operations operations') {a b : Event n}
    (ha : a ∈ eventsOf operations) (hb : b ∈ eventsOf operations) :
    a.notAfter b = (a.retime time).notAfter (b.retime time) := by
  have hab := h.increasing a ha b hb
  have hba := h.increasing b hb a ha
  rw [Bool.eq_iff_iff, Event.notAfter_iff, Event.notAfter_iff]
  simp only [Event.retime, Timestamp.lt_iff, ← Timestamp.toInt_inj] at *
  have heq : a.time = b.time → time a.time = time b.time := congrArg time
  simp only [← Timestamp.toInt_inj] at heq
  grind

theorem Retimed.sortedEvents_eq (h : Retimed time operations operations') :
    sortedEvents operations' = (sortedEvents operations).map (Event.retime time) := by
  have he : eventsOf operations' = (eventsOf operations).map (Event.retime time) := by
    simp [eventsOf, List.map_flatMap, Event.retime, h.call, h.ret]
  rw [sortedEvents, sortedEvents, he]
  exact (List.map_mergeSort (f := Event.retime time) (s := Event.notAfter)
    fun _ ha _ hb => h.notAfter_eq ha hb).symm

theorem Retimed.same (h : Retimed time operations operations') (p : Place n) :
    ((of operations).events.get p).Same ((of operations').events.get p) := by
  rw [get_events_of, get_events_of]
  simp only [h.sortedEvents_eq, List.get_eq_getElem, List.getElem_map]
  exact ⟨rfl, rfl⟩

theorem Retimed.returnOf_eq (h : Retimed time operations operations') :
    (of operations').returnOf = (of operations).returnOf := by
  have hget : ∀ i, (of operations').returnOf.get i = (of operations).returnOf.get i := by
    intro i
    obtain ⟨ho, hr⟩ := (lays_of operations).returnOf i
    obtain ⟨ho', hr'⟩ := (lays_of operations').returnOf i
    have hs := h.same ((of operations).returnOf.get i)
    exact (lays_of operations').unique _ _
      ⟨ho'.trans (ho.symm.trans hs.1), hr'.trans (hr.symm.trans hs.2)⟩
  exact Vector.ext fun k hk => hget ⟨k, hk⟩

end Timeline

end Linearizability
