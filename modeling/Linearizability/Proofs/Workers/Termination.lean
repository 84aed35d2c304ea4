import Linearizability.Proofs.Workers.Invariant

/-! # The workers come to an end

Whatever the order of their steps, workers come to an end, and none waits for another: a worker
that has not left can always do something.
-/

namespace Linearizability

variable {S I O : Type} {plan : Plan S I O} {count : Nat}

/-- The most steps a worker takes to search a group and keep the finding. -/
def Plan.cost (plan : Plan S I O) (index : Fin plan.groups.length) : Nat :=
  Problem.bound (plan.positions index).length + 2

/-- The most steps that the groups not taken yet are worth. -/
def Plan.ahead (plan : Plan S I O) (next : Nat) : Nat :=
  (((List.finRange plan.groups.length).drop next).map plan.cost).sum

/-- The most steps a worker has left before it takes a group again, and one to leave. -/
def Worker.left (worker : Worker plan) : Nat :=
  match worker.activity with
  | .gone => 0
  | .idle => 1
  | .busy _ (.finished ..) => 2
  | .busy index (.searching c) => plan.cost index - c.visits

namespace Crew

def left (crew : Crew plan count) : Nat :=
  plan.ahead crew.shared.next + ∑ i, (crew.workers i).left

end Crew

theorem Plan.ahead_of_lt {next : Nat} (h : next < plan.groups.length) :
    plan.ahead next = plan.cost ⟨next, h⟩ + plan.ahead (next + 1) := by
  rw [ahead, List.drop_eq_getElem_cons (by simpa using h)]
  simp [ahead]

theorem Plan.ahead_of_le {next : Nat} (h : plan.groups.length ≤ next) : plan.ahead next = 0 := by
  rw [ahead, List.drop_of_length_le (by simpa using h)]
  rfl

variable [DecidableEq S] {shared shared' : Shared} {worker worker' : Worker plan}
  {crew crew' : Crew plan count} {move : Move plan.groups.length}
  {moves : List (Move plan.groups.length)}

theorem Worker.left_step_lt {done done' : List (Fin plan.groups.length × Finding)}
    {index : Fin plan.groups.length} {c : Configuration (plan.positions index).length S}
    {stopped : Bool} (h : (plan.problem index).Led stopped (.searching c)) (look : Bool) :
    Worker.left ⟨.busy index ((plan.problem index).step (fun _ => look) c), done⟩ <
      Worker.left ⟨.busy index (.searching c), done'⟩ := by
  have hlt : c.visits < Problem.bound (plan.positions index).length :=
    h.visits_lt_bound (plan.lays index)
  cases hs : (plan.problem index).step (fun _ => look) c with
  | searching c' =>
    have hv := (((plan.problem index).follows_step _).turn c c' hs).visits_eq
    simp only [left, Plan.cost, hv]
    omega
  | finished =>
    simp only [left, Plan.cost]
    omega

theorem Worker.Act.left_lt (h : Act shared worker move shared' worker')
    (hw : worker.Sound shared) :
    plan.ahead shared'.next + worker'.left < plan.ahead shared.next + worker.left := by
  cases h with
  | take hlt =>
    have hv : (plan.problem ⟨shared.next, hlt⟩).start.visits = 0 := rfl
    simp only [left, plan.ahead_of_lt hlt, hv]
    omega
  | visit look => exact Nat.add_lt_add_left (left_step_lt (hw.busy _ _ rfl) look) _
  | expire => exact Nat.add_lt_add_left (left_step_lt (hw.busy _ _ rfl) true) _
  | keep => exact Nat.add_lt_add_left (Nat.lt_succ_self 1) _
  | leave hle =>
    rw [plan.ahead_of_le hle, plan.ahead_of_le (Nat.le_succ_of_le hle)]
    exact Nat.zero_lt_one

theorem Worker.exists_act (shared : Shared) (h : worker.activity ≠ .gone) :
    ∃ move shared' worker', Act shared worker move shared' worker' := by
  obtain ⟨activity, done⟩ := worker
  cases activity with
  | idle =>
    by_cases hn : shared.next < plan.groups.length
    · exact ⟨_, _, _, .take hn⟩
    · exact ⟨_, _, _, .leave (Nat.le_of_not_lt hn)⟩
  | busy index progress =>
    cases progress with
    | searching c => exact ⟨_, _, _, .visit false nofun⟩
    | finished outcome longest => exact ⟨_, _, _, .keep⟩
  | gone => exact absurd rfl h

namespace Crew

theorem Step.left_lt (h : crew.Step move crew') (hc : crew.Sound) : crew'.left < crew.left := by
  cases h with
  | @of i _ shared worker act =>
    have hsum := crew.sum_update_add Worker.left i shared worker
    have hlt := act.left_lt (hc.workers i)
    rw [left, left, update_shared]
    omega

theorem Run.length_add_left_le (h : Run moves crew) :
    moves.length + crew.left ≤ (Crew.start plan count).left := by
  induction h with
  | start => simp
  | step run step ih =>
    have hlt := step.left_lt run.sound
    rw [List.length_append, List.length_singleton]
    omega

/-- The crew comes to rest only when all workers have left. -/
theorem Ended.gone (h : crew.Ended) (i : Fin count) : (crew.workers i).activity = .gone := by
  by_contra hi
  obtain ⟨move, shared, worker, act⟩ := Worker.exists_act crew.shared hi
  exact h _ _ (.of i act)

end Crew

end Linearizability
