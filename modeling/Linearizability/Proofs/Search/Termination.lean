import Linearizability.Proofs.Search.Invariant
import Mathlib.Algebra.Order.Ring.Nat

/-! # The search ends

The places of the choices, the first one first, and then the place of the cursor are the digits
of a number that every turn increases: a pass moves the cursor on, a choice appends a digit, and
undoing a choice drops the last digit and moves the cursor behind the place chosen. The number is
bounded, so the search ends within its bound of steps, whatever it remembers.
-/

namespace Linearizability

variable {S I O : Type} {n : Nat}

namespace Problem

/-- The digit of a place; no place counts as one behind all places. -/
def digit : Option (Place n) → Nat
  | some p => p + 1
  | none => 2 * n + 1

/-- What the digit behind some choices counts. -/
def weight (n : Nat) (choices : List (Place n × S)) : Nat := (2 * n + 2) ^ (n - choices.length)

def choicesRank : List (Place n × S) → Nat
  | [] => 0
  | (p, _) :: choices => choicesRank choices + digit (some p) * weight n choices

/-- The value of the choices and the cursor as digits. -/
def rank (c : Configuration n S) : Nat :=
  choicesRank c.choices + digit c.cursor * weight n c.choices

variable {problem : Problem S I O n} {c c' : Configuration n S} {past : List (List (Fin n))}
  {passed ahead : List (Place n)} {p q : Place n} {s : S} {choices : List (Place n × S)}

theorem digit_pos (place : Option (Place n)) : 0 < digit place := by
  cases place <;> simp [digit]

theorem digit_lt (place : Option (Place n)) : digit place < 2 * n + 2 := by
  cases place <;> simp only [digit] <;> omega

theorem weight_pos (choices : List (Place n × S)) : 0 < weight n choices :=
  Nat.pow_pos (by omega)

theorem mul_weight (h : choices.length ≤ n) :
    (2 * n + 2) * weight n choices = (2 * n + 2) ^ (n + 1 - choices.length) := by
  rw [weight, Nat.succ_sub h, Nat.pow_succ, Nat.mul_comm]

theorem weight_eq_mul (h : choices.length < n) :
    weight n choices = (2 * n + 2) * weight n ((p, s) :: choices) := by
  rw [mul_weight h, weight, List.length_cons, Nat.add_sub_add_right]

theorem choicesRank_add_le (h : choices.length ≤ n + 1) :
    choicesRank choices + (2 * n + 2) ^ (n + 1 - choices.length) ≤ bound n := by
  induction choices with
  | nil => simp [choicesRank, bound]
  | cons choice choices ih =>
    have hle : choices.length ≤ n := Nat.le_of_succ_le_succ h
    have hd : digit (some choice.1) + 1 ≤ 2 * n + 2 := digit_lt _
    calc choicesRank (choice :: choices) + (2 * n + 2) ^ (n + 1 - (choices.length + 1))
      _ = choicesRank choices + (digit (some choice.1) + 1) * weight n choices := by
        rw [choicesRank, Nat.add_sub_add_right, Nat.add_one_mul (digit _), Nat.add_assoc, weight]
      _ ≤ choicesRank choices + (2 * n + 2) * weight n choices :=
        Nat.add_le_add_left (Nat.mul_le_mul_right _ hd) _
      _ = choicesRank choices + (2 * n + 2) ^ (n + 1 - choices.length) := by
        rw [mul_weight hle]
      _ ≤ bound n := ih (Nat.le_succ_of_le hle)

theorem rank_lt_bound (h : c.choices.length ≤ n) : rank c < bound n := by
  calc rank c
    _ < choicesRank c.choices + (2 * n + 2) * weight n c.choices :=
      Nat.add_lt_add_left (Nat.mul_lt_mul_of_pos_right (digit_lt _) (weight_pos _)) _
    _ = choicesRank c.choices + (2 * n + 2) ^ (n + 1 - c.choices.length) := by
      rw [mul_weight h]
    _ ≤ bound n := choicesRank_add_le (Nat.le_succ_of_le h)

namespace Standing

theorem length_choices_le (h : problem.Standing c past passed ahead) : c.choices.length ≤ n := by
  rw [h.descent.length_choices]
  simpa using h.descent.nodup.length_le_card

theorem digit_lt_cursor (h : problem.Standing c past (passed ++ [q]) ahead) :
    digit (some q) < digit c.cursor := by
  have hp := Timeline.pairwise_pending problem.timeline c.order.toList
  rw [h.cursor]
  cases ahead with
  | nil => simp [digit]
  | cons p ahead =>
    have hlt : q < p := by
      rw [h.pending] at hp
      grind
    exact Nat.succ_lt_succ hlt

end Standing

/-- Every turn increases the rank. -/
theorem Turn.rank_lt (hl : problem.timeline.Lays problem.operations) (ht : problem.Turn c c')
    (h : problem.Standing c past passed ahead) : rank c < rank c' := by
  cases ht with
  | pass hc hp hb =>
    obtain ⟨behind, rfl⟩ := h.exists_cons hc
    have hlt := (h.pass hl hp hb).digit_lt_cursor
    rw [← hc] at hlt
    exact Nat.add_lt_add_left (Nat.mul_lt_mul_of_pos_right hlt (weight_pos _)) _
  | @choose p t memo hc hp ht hm =>
    calc rank c
      _ = choicesRank ((p, c.state) :: c.choices) := by rw [rank, hc, choicesRank]
      _ < _ := Nat.lt_add_of_pos_right (Nat.mul_pos (digit_pos _) (weight_pos _))
  | @undo p q s choices hc hr hlast =>
    obtain ⟨behind, rfl⟩ := h.exists_cons hc
    obtain ⟨past', passed', ahead', h'⟩ := h.undo hl hr hlast
    have hlt := h'.digit_lt_cursor
    have hlen : choices.length < n := by
      have := h.length_choices_le
      rwa [hlast] at this
    calc rank c
      _ = choicesRank ((q, s) :: choices) + digit c.cursor * weight n ((q, s) :: choices) := by
        rw [rank, hlast]
      _ < choicesRank ((q, s) :: choices) + (2 * n + 2) * weight n ((q, s) :: choices) :=
        Nat.add_lt_add_left (Nat.mul_lt_mul_of_pos_right (digit_lt _) (weight_pos _)) _
      _ = choicesRank choices + (digit (some q) + 1) * weight n choices := by
        rw [← weight_eq_mul hlen, choicesRank, Nat.add_one_mul, Nat.add_assoc]
      _ ≤ _ := Nat.add_le_add_left (Nat.mul_le_mul_right _ hlt) _

variable {stop : Nat → Bool} {next : Configuration n S → Progress n S} {outcome : Outcome}
  {longest : Longest n}

/-- Where a search that has not ended stands after some steps. -/
structure Reached (problem : Problem S I O n) (next : Configuration n S → Progress n S) (k : Nat)
    (c : Configuration n S) : Prop where
  iterate : (advance next)^[k] (.searching problem.start) = .searching c
  visits : c.visits = k
  standing : ∃ past passed ahead, problem.Standing c past passed ahead
  le_rank : k ≤ rank c

theorem reached_start (problem : Problem S I O n) (next : Configuration n S → Progress n S) :
    problem.Reached next 0 problem.start :=
  ⟨rfl, rfl, ⟨_, _, _, Standing.start⟩, Nat.zero_le _⟩

/-- After every number of steps the search goes on, or it has ended at some place before. -/
theorem Follows.reached_or_finished (hl : problem.timeline.Lays problem.operations)
    (hf : problem.Follows stop next) (k : Nat) :
    (∃ c, problem.Reached next k c) ∨
      ∃ j c outcome longest, problem.Reached next j c ∧ next c = .finished outcome longest ∧
        (advance next)^[k] (.searching problem.start) = .finished outcome longest := by
  induction k with
  | zero => exact .inl ⟨_, reached_start problem next⟩
  | succ k ih =>
    rw [Function.iterate_succ_apply']
    rcases ih with ⟨c, hc⟩ | ⟨j, c, outcome, longest, hc, hn, hi⟩
    · cases hn : next c with
      | searching c' =>
        have ht := hf.turn c c' hn
        obtain ⟨past, passed, ahead, hs⟩ := hc.standing
        refine .inl ⟨c', ?_, ?_, ht.exists_standing hl hc.standing, ?_⟩
        · rw [Function.iterate_succ_apply', hc.iterate]
          exact hn
        · rw [ht.visits_eq, hc.visits]
        · exact Nat.lt_of_le_of_lt hc.le_rank (ht.rank_lt hl hs)
      | finished outcome longest =>
        refine .inr ⟨k, c, outcome, longest, hc, hn, ?_⟩
        rw [hc.iterate]
        exact hn
    · refine .inr ⟨j, c, outcome, longest, hc, hn, ?_⟩
      rw [hi]
      rfl

theorem Follows.exists_finished (hl : problem.timeline.Lays problem.operations)
    (hf : problem.Follows stop next) :
    ∃ k c outcome longest, problem.Reached next k c ∧ next c = .finished outcome longest ∧
      (advance next)^[bound n] (.searching problem.start) = .finished outcome longest := by
  rcases hf.reached_or_finished hl (bound n) with ⟨c, hc⟩ | h
  · obtain ⟨past, passed, ahead, hs⟩ := hc.standing
    exact absurd hc.le_rank (Nat.not_le_of_lt (rank_lt_bound hs.length_choices_le))
  · exact h

section Step

variable [DecidableEq S] {k : Nat}

theorem Reached.run_eq (h : problem.Reached (problem.step stop) k c) :
    problem.run stop k (.searching problem.start) = .searching c :=
  (run_eq_iterate ..).trans h.iterate

theorem reached_of_run (hl : problem.timeline.Lays problem.operations)
    (h : problem.run stop k (.searching problem.start) = .searching c) :
    problem.Reached (problem.step stop) k c := by
  rw [run_eq_iterate] at h
  rcases (problem.follows_step stop).reached_or_finished hl k with ⟨c', hc⟩ | ⟨_, _, _, _, _, _, hi⟩
  · cases hc.iterate.symm.trans h
    exact hc
  · cases hi.symm.trans h

theorem exists_run_finished (hl : problem.timeline.Lays problem.operations) (stop : Nat → Bool) :
    ∃ k c outcome longest, problem.Reached (problem.step stop) k c ∧
      problem.step stop c = .finished outcome longest ∧
      ∀ j > k, problem.run stop j (.searching problem.start) = .finished outcome longest := by
  obtain ⟨k, c, outcome, longest, hc, hn, -⟩ := (problem.follows_step stop).exists_finished hl
  refine ⟨k, c, outcome, longest, hc, hn, fun j hj => ?_⟩
  obtain ⟨i, rfl⟩ := Nat.exists_eq_add_of_lt hj
  rw [Nat.add_right_comm]
  refine run_add_of_finished ?_ i
  rw [run_succ, hc.run_eq, advance, hn]

theorem search_of_run (hl : problem.timeline.Lays problem.operations)
    (h : problem.run stop k (.searching problem.start) = .finished outcome longest) :
    problem.search stop = (outcome, longest.toList) := by
  obtain ⟨_, _, outcome', longest', _, _, hb⟩ := (problem.follows_step stop).exists_finished hl
  rw [← run_eq_iterate] at hb
  have heq : problem.run stop (bound n) (.searching problem.start) =
      .finished outcome longest := by
    rw [hb, ← run_add_of_finished hb k, Nat.add_comm, run_add_of_finished h]
  rw [search, heq, Progress.result]

/-- A search with no deadline ends, whatever the model and the times of the operations are: after
some visits there is no place left to visit, or a return is visited and there is no choice left to
undo. How many visits it takes is bounded by the number of operations alone. -/
theorem run_reaches_exit (model : Model S I O) (operations : Vector (Operation I O) n) :
    ∃ k c, k < bound n ∧
      (of model operations).run (fun _ => false) k (.searching (of model operations).start) =
        .searching c ∧
      ((c.cursor = none ∧
          ∀ j > k, (of model operations).run (fun _ => false) j
              (.searching (of model operations).start) =
            .finished .linearizable (c.longest.record c.order)) ∨
        ((∃ p, c.cursor = some p ∧ ((of model operations).timeline.events.get p).phase = .ret ∧
            c.choices = []) ∧
          ∀ j > k, (of model operations).run (fun _ => false) j
              (.searching (of model operations).start) =
            .finished .notLinearizable (c.longest.record c.order))) := by
  have hl : (of model operations).timeline.Lays (of model operations).operations :=
    Timeline.lays_of operations
  obtain ⟨k, c, outcome, longest, hc, hn, hend⟩ := exists_run_finished hl fun _ => false
  obtain ⟨past, passed, ahead, hs⟩ := hc.standing
  refine ⟨k, c, hc.le_rank.trans_lt (rank_lt_bound hs.length_choices_le), hc.run_eq, ?_⟩
  cases ((of model operations).follows_step _).exit c outcome longest hn with
  | linearizable hp => exact .inl ⟨hp, hend⟩
  | notLinearizable hp hr hfirst => exact .inr ⟨⟨_, hp, hr, hfirst⟩, hend⟩
  | aborted _ _ hs => cases hs

end Step

end Problem

end Linearizability
