import Linearizability.Proofs.Search.Continuations
import Mathlib.Logic.Function.Iterate

/-! # The turns of the search

What a step of the search can do, as a relation: it passes a call, chooses one or undoes the last
choice, or the search ends. How often a search remembers what it has met is left open, so that
the relation also describes a search that remembers nothing.
-/

namespace Linearizability

variable {S I O : Type} {n : Nat}

namespace Problem

def lift (problem : Problem S I O n) (c : Configuration n S) (p : Place n) (i : Fin n) (t : S)
    (memo : Memo n S) : Configuration n S :=
  let links := c.links.lift p (problem.timeline.returnOf.get i)
  { c with
    links
    state := t
    linearized := c.linearized.insert i
    memo
    choices := (p, c.state) :: c.choices
    order := c.order.push i
    cursor := links.first }

def unlift (problem : Problem S I O n) (c : Configuration n S) (p : Place n) (s : S)
    (choices : List (Place n × S)) : Configuration n S :=
  let i := (problem.timeline.events.get p).op
  let links := c.links.unlift p (problem.timeline.returnOf.get i)
  { c with
    links
    state := s
    linearized := c.linearized.erase i
    choices
    order := c.order.pop
    longest := c.longest.record c.order
    cursor := links.next.get p }

/-- The operation of a call is illegal, or leads to a remembered pair. -/
def Barred (problem : Problem S I O n) (c : Configuration n S) (i : Fin n) : Prop :=
  problem.next? c.state i = none ∨
    ∃ t, problem.next? c.state i = some t ∧ t ∈ c.memo.statesOf (c.linearized.insert i)

/-- A visit of a place after which the search goes on. -/
inductive Turn (problem : Problem S I O n) (c : Configuration n S) : Configuration n S → Prop where
  /-- Leave a call where it is. -/
  | pass {p : Place n} (cursor : c.cursor = some p)
      (call : (problem.timeline.events.get p).phase = .call)
      (barred : problem.Barred c (problem.timeline.events.get p).op) :
      Turn problem c (pass { c with visits := c.visits + 1 } p)
  /-- Linearize the operation of a legal call, and remember at most the pair it leads to. -/
  | choose {p : Place n} {t : S} {memo : Memo n S} (cursor : c.cursor = some p)
      (call : (problem.timeline.events.get p).phase = .call)
      (legal : problem.next? c.state (problem.timeline.events.get p).op = some t)
      (remembered : ∀ set u, u ∈ memo.statesOf set → u ∈ c.memo.statesOf set ∨
        set = c.linearized.insert (problem.timeline.events.get p).op ∧ u = t) :
      Turn problem c (problem.lift { c with visits := c.visits + 1 } p
        (problem.timeline.events.get p).op t memo)
  /-- At a return, record the order and undo the last choice. -/
  | undo {p q : Place n} {s : S} {choices : List (Place n × S)} (cursor : c.cursor = some p)
      (ret : (problem.timeline.events.get p).phase = .ret) (last : c.choices = (q, s) :: choices) :
      Turn problem c (problem.unlift { c with visits := c.visits + 1 } q s choices)

inductive Exit (problem : Problem S I O n) (stop : Nat → Bool) (c : Configuration n S) :
    Outcome → Longest n → Prop where
  /-- No place is left. -/
  | linearizable (cursor : c.cursor = none) :
      Exit problem stop c .linearizable (c.longest.record c.order)
  /-- At a return there is no choice to undo. -/
  | notLinearizable {p : Place n} (cursor : c.cursor = some p)
      (ret : (problem.timeline.events.get p).phase = .ret) (first : c.choices = []) :
      Exit problem stop c .notLinearizable (c.longest.record c.order)
  /-- A look at whether to stop found that it should. -/
  | aborted {p : Place n} (cursor : c.cursor = some p)
      (look : (c.visits + 1) % stopInterval = 0) (stopped : stop (c.visits + 1) = true) :
      Exit problem stop c .aborted c.longest

/-- Steps that are turns until the search ends. -/
structure Follows (problem : Problem S I O n) (stop : Nat → Bool)
    (next : Configuration n S → Progress n S) : Prop where
  turn : ∀ c c', next c = .searching c' → problem.Turn c c'
  exit : ∀ c outcome longest, next c = .finished outcome longest →
    problem.Exit stop c outcome longest

/-- A step of a search that visits calls in a given way. -/
def stepBy (problem : Problem S I O n)
    (visit : Configuration n S → Place n → Fin n → Configuration n S) (stop : Nat → Bool)
    (c : Configuration n S) : Progress n S :=
  match c.cursor with
  | none => .finished .linearizable (c.longest.record c.order)
  | some place =>
    let c := { c with visits := c.visits + 1 }
    if c.visits % stopInterval = 0 ∧ stop c.visits = true then .finished .aborted c.longest
    else
      let event := problem.timeline.events.get place
      match event.phase with
      | .call => .searching (visit c place event.op)
      | .ret => problem.visitReturn c

def advance (next : Configuration n S → Progress n S) : Progress n S → Progress n S
  | .searching c => next c
  | .finished outcome longest => .finished outcome longest

def searchBy (problem : Problem S I O n)
    (visit : Configuration n S → Place n → Fin n → Configuration n S) (stop : Nat → Bool) :
    Outcome × List (List (Fin n)) :=
  ((advance (problem.stepBy visit stop))^[bound n] (.searching problem.start)).result

variable {problem : Problem S I O n} {stop : Nat → Bool} {c c' : Configuration n S} {p : Place n}
  {outcome : Outcome} {longest : Longest n}

theorem Turn.visits_eq (h : problem.Turn c c') : c'.visits = c.visits + 1 := by
  cases h <;> rfl

theorem turn_of_visitReturn (hc : c.cursor = some p)
    (hp : (problem.timeline.events.get p).phase = .ret)
    (h : problem.visitReturn { c with visits := c.visits + 1 } = .searching c') :
    problem.Turn c c' := by
  cases hl : c.choices with
  | nil => simp [visitReturn, hl] at h
  | cons choice choices =>
    simp only [visitReturn, hl, Progress.searching.injEq] at h
    subst h
    exact .undo hc hp hl

theorem exit_of_visitReturn (hc : c.cursor = some p)
    (hp : (problem.timeline.events.get p).phase = .ret)
    (h : problem.visitReturn { c with visits := c.visits + 1 } = .finished outcome longest) :
    problem.Exit stop c outcome longest := by
  cases hl : c.choices with
  | nil =>
    simp only [visitReturn, hl, Progress.finished.injEq] at h
    obtain ⟨rfl, rfl⟩ := h
    exact .notLinearizable hc hp hl
  | cons choice choices => simp [visitReturn, hl] at h

section StepBy

variable {visit : Configuration n S → Place n → Fin n → Configuration n S}

theorem stepBy_of_none (hc : c.cursor = none) :
    problem.stepBy visit stop c = .finished .linearizable (c.longest.record c.order) := by
  rw [stepBy, hc]

theorem stepBy_of_stop (hc : c.cursor = some p)
    (hs : (c.visits + 1) % stopInterval = 0 ∧ stop (c.visits + 1) = true) :
    problem.stepBy visit stop c = .finished .aborted c.longest := by
  cases c
  subst hc
  exact if_pos hs

theorem stepBy_of_call (hc : c.cursor = some p)
    (hs : ¬ ((c.visits + 1) % stopInterval = 0 ∧ stop (c.visits + 1) = true))
    (hp : (problem.timeline.events.get p).phase = .call) :
    problem.stepBy visit stop c = .searching
      (visit { c with visits := c.visits + 1 } p (problem.timeline.events.get p).op) := by
  cases c
  subst hc
  refine (if_neg hs).trans ?_
  simp only [hp]

theorem stepBy_of_ret (hc : c.cursor = some p)
    (hs : ¬ ((c.visits + 1) % stopInterval = 0 ∧ stop (c.visits + 1) = true))
    (hp : (problem.timeline.events.get p).phase = .ret) :
    problem.stepBy visit stop c = problem.visitReturn { c with visits := c.visits + 1 } := by
  cases c
  subst hc
  refine (if_neg hs).trans ?_
  simp only [hp]

theorem follows_stepBy
    (hv : ∀ c p, c.cursor = some p → (problem.timeline.events.get p).phase = .call →
      problem.Turn c
        (visit { c with visits := c.visits + 1 } p (problem.timeline.events.get p).op)) :
    problem.Follows stop (problem.stepBy visit stop) where
  turn c c' h := by
    cases hc : c.cursor with
    | none => cases (stepBy_of_none hc).symm.trans h
    | some p =>
      by_cases hs : (c.visits + 1) % stopInterval = 0 ∧ stop (c.visits + 1) = true
      · cases (stepBy_of_stop hc hs).symm.trans h
      · cases hp : (problem.timeline.events.get p).phase with
        | call =>
          cases (stepBy_of_call hc hs hp).symm.trans h
          exact hv c p hc hp
        | ret => exact turn_of_visitReturn hc hp ((stepBy_of_ret hc hs hp).symm.trans h)
  exit c outcome longest h := by
    cases hc : c.cursor with
    | none =>
      cases (stepBy_of_none hc).symm.trans h
      exact .linearizable hc
    | some p =>
      by_cases hs : (c.visits + 1) % stopInterval = 0 ∧ stop (c.visits + 1) = true
      · cases (stepBy_of_stop hc hs).symm.trans h
        exact .aborted hc hs.1 hs.2
      · cases hp : (problem.timeline.events.get p).phase with
        | call => cases (stepBy_of_call hc hs hp).symm.trans h
        | ret => exact exit_of_visitReturn hc hp ((stepBy_of_ret hc hs hp).symm.trans h)

end StepBy

section Step

variable [DecidableEq S]

theorem visitCall_eq (problem : Problem S I O n) (c : Configuration n S) (p : Place n)
    (i : Fin n) : problem.visitCall c p i =
      match problem.next? c.state i with
      | none => pass c p
      | some t =>
        match c.memo.insertNew? (c.linearized.insert i) t with
        | none => pass c p
        | some memo => problem.lift c p i t memo := by
  rw [visitCall, next?, Model.next?, Operation.exchange]
  rcases problem.model.step c.state (problem.operations.get i).input
    (problem.operations.get i).output with ⟨_ | _, t⟩
  · rfl
  · rfl

theorem turn_visitCall (hc : c.cursor = some p)
    (hp : (problem.timeline.events.get p).phase = .call) :
    problem.Turn c (problem.visitCall { c with visits := c.visits + 1 } p
      (problem.timeline.events.get p).op) := by
  rw [visitCall_eq]
  cases ht : problem.next? c.state (problem.timeline.events.get p).op with
  | none => exact .pass hc hp (.inl ht)
  | some t =>
    cases hm : c.memo.insertNew? (c.linearized.insert (problem.timeline.events.get p).op) t with
    | none =>
      simp only [hm]
      exact .pass hc hp (.inr ⟨t, ht, Memo.insertNew?_eq_none_iff.mp hm⟩)
    | some memo =>
      simp only [hm]
      refine .choose hc hp ht fun set u hu => ?_
      rw [Memo.statesOf_insertNew? hm] at hu
      grind

theorem follows_step (problem : Problem S I O n) (stop : Nat → Bool) :
    problem.Follows stop (problem.step stop) :=
  follows_stepBy fun _ _ => turn_visitCall

theorem run_eq_iterate (problem : Problem S I O n) (stop : Nat → Bool) (k : Nat)
    (progress : Progress n S) :
    problem.run stop k progress = (advance (problem.step stop))^[k] progress := by
  induction k generalizing progress with
  | zero => rfl
  | succ k ih =>
    cases progress with
    | searching c => exact ih _
    | finished outcome longest => exact (Function.iterate_fixed rfl _).symm

theorem run_succ (problem : Problem S I O n) (stop : Nat → Bool) (k : Nat)
    (progress : Progress n S) :
    problem.run stop (k + 1) progress =
      advance (problem.step stop) (problem.run stop k progress) := by
  rw [run_eq_iterate, Function.iterate_succ_apply', run_eq_iterate]

theorem run_add_of_finished {k : Nat} {progress : Progress n S}
    (h : problem.run stop k progress = .finished outcome longest) (j : Nat) :
    problem.run stop (k + j) progress = .finished outcome longest := by
  induction j with
  | zero => exact h
  | succ j ih => rw [← Nat.add_assoc, run_succ, ih, advance]

theorem exists_run_of_le {k j : Nat} {progress : Progress n S}
    (h : problem.run stop k progress = .searching c) (hj : j ≤ k) :
    ∃ d, problem.run stop j progress = .searching d := by
  cases hd : problem.run stop j progress with
  | searching d => exact ⟨d, rfl⟩
  | finished outcome longest =>
    obtain ⟨i, rfl⟩ := Nat.exists_eq_add_of_le hj
    cases (run_add_of_finished hd i).symm.trans h

theorem search_eq_searchBy (problem : Problem S I O n) (stop : Nat → Bool) :
    problem.search stop = problem.searchBy problem.visitCall stop := by
  rw [search, run_eq_iterate]
  rfl

end Step

end Problem

end Linearizability
