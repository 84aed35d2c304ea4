import Linearizability.Proofs.Search.Led
import Linearizability.Proofs.Workers.Basic
import Mathlib.Algebra.BigOperators.Fin

/-! # What the steps of workers preserve

What a worker does is told for the worker alone and for what all share; a step of another worker
only moves the counter on and raises the flag. The groups taken are counted over all workers.
-/

namespace Linearizability

variable {S I O : Type} {plan : Plan S I O} {count : Nat}

structure Shared.Grows (shared shared' : Shared) : Prop where
  next : shared.next ≤ shared'.next
  stopped : shared.stopped = true → shared'.stopped = true

/-- The groups a worker has taken, first those it has searched. -/
def Worker.taken (worker : Worker plan) : List (Fin plan.groups.length) :=
  worker.done.map Prod.fst ++
    match worker.activity with
    | .busy index _ => [index]
    | .idle | .gone => []

theorem Crew.sum_update_add {M : Type} [AddCommMonoid M] (f : Worker plan → M)
    (crew : Crew plan count) (i : Fin count) (shared : Shared) (worker : Worker plan) :
    ∑ k, f ((crew.update i shared worker).workers k) + f (crew.workers i) =
      ∑ k, f (crew.workers k) + f worker := by
  have hrest : ∑ k ∈ Finset.univ.erase i, f ((crew.update i shared worker).workers k) =
      ∑ k ∈ Finset.univ.erase i, f (crew.workers k) :=
    Finset.sum_congr rfl fun k hk => by
      rw [crew.update_workers_of_ne (Finset.ne_of_mem_erase hk)]
  rw [← Finset.add_sum_erase _ _ (Finset.mem_univ i), hrest, crew.update_workers_self,
    ← Finset.add_sum_erase _ (fun k => f (crew.workers k)) (Finset.mem_univ i)]
  ac_rfl

theorem Plan.lays (plan : Plan S I O) (index : Fin plan.groups.length) :
    (plan.problem index).timeline.Lays (plan.problem index).operations :=
  Timeline.lays_of _

variable [DecidableEq S]

/-- A finding on a group, in whose search looks told to stop only if that was asked for. -/
def Plan.Found (plan : Plan S I O) (stopped : Bool) (index : Fin plan.groups.length)
    (finding : Finding) : Prop :=
  ∃ looks, (∀ visit, looks visit = true → stopped = true) ∧
    finding = findGroup plan.model plan.history.toArray.toVector (plan.groups.get index) looks

theorem Plan.Found.mono {stopped stopped' : Bool} {index : Fin plan.groups.length}
    {finding : Finding} (h : plan.Found stopped index finding)
    (hs : stopped = true → stopped' = true) : plan.Found stopped' index finding := by
  obtain ⟨looks, hlooks, heq⟩ := h
  exact ⟨looks, fun visit hv => hs (hlooks visit hv), heq⟩

theorem Plan.found_finding {stopped : Bool} {index : Fin plan.groups.length} {outcome : Outcome}
    {longest : Longest (plan.positions index).length}
    (h : (plan.problem index).Led stopped (.finished outcome longest)) :
    plan.Found stopped index (plan.finding index outcome longest) := by
  obtain ⟨looks, hlooks, hs⟩ := h.exists_search_eq (plan.lays index)
  exact ⟨looks, hlooks, congrArg (Finding.at _) hs.symm⟩

namespace Worker

structure Sound (shared : Shared) (worker : Worker plan) : Prop where
  busy : ∀ index progress, worker.activity = .busy index progress →
    (plan.problem index).Led shared.stopped progress
  done : ∀ entry ∈ worker.done, plan.Found shared.stopped entry.1 entry.2
  gone : worker.activity = .gone → plan.groups.length ≤ shared.next

variable {shared shared' : Shared} {worker worker' : Worker plan}
  {move : Move plan.groups.length}

theorem Sound.mono (h : worker.Sound shared) (hs : shared.Grows shared') :
    worker.Sound shared' where
  busy index progress hp := (h.busy index progress hp).mono hs.stopped
  done entry he := (h.done entry he).mono hs.stopped
  gone hg := (h.gone hg).trans hs.next

namespace Act

theorem grows (h : Act shared worker move shared' worker') : shared.Grows shared' := by
  cases h with
  | take | leave => exact ⟨Nat.le_succ _, id⟩
  | visit => exact ⟨le_rfl, id⟩
  | expire => exact ⟨le_rfl, fun _ => rfl⟩
  | keep => exact ⟨le_rfl, fun hs => by simp [hs]⟩

theorem sound (h : Act shared worker move shared' worker') (hw : worker.Sound shared) :
    worker'.Sound shared' := by
  have hm := hw.mono h.grows
  cases h with
  | take hlt =>
    refine ⟨fun index progress hp => ?_, hm.done, nofun⟩
    cases hp
    exact (Problem.Led.start _).mono nofun
  | visit look seen =>
    refine ⟨fun index progress hp => ?_, hm.done, nofun⟩
    cases hp
    exact (hw.busy _ _ rfl).step (plan.lays _) seen
  | expire =>
    refine ⟨fun index progress hp => ?_, hm.done, nofun⟩
    cases hp
    exact (hm.busy _ _ rfl).step (plan.lays _) fun _ => rfl
  | keep =>
    refine ⟨nofun, fun entry he => ?_, nofun⟩
    rcases List.mem_append.mp he with he | he
    · exact hm.done entry he
    · obtain rfl := List.mem_singleton.mp he
      exact Plan.found_finding (hm.busy _ _ rfl)
  | leave hle => exact ⟨nofun, hm.done, fun _ => Nat.le_succ_of_le hle⟩

theorem done_prefix (h : Act shared worker move shared' worker') :
    worker.done <+: worker'.done := by
  cases h with
  | take | visit | expire | leave => exact List.prefix_rfl
  | keep => exact List.prefix_append _ _

theorem coe_taken (h : Act shared worker move shared' worker') :
    (worker'.taken : Multiset (Fin plan.groups.length)) = worker.taken + move.taken?.toList := by
  cases h with
  | take => simp [taken, Move.taken?, ← Multiset.coe_add]
  | visit | expire | keep | leave => simp [taken, Move.taken?]

theorem take_finRange (h : Act shared worker move shared' worker') :
    (List.finRange plan.groups.length).take shared'.next =
      (List.finRange plan.groups.length).take shared.next ++ move.taken?.toList := by
  cases h with
  | take hlt =>
    rw [List.take_add_one, List.getElem?_eq_getElem (by simpa using hlt)]
    simp [Move.taken?]
  | visit | expire | keep => simp [Move.taken?]
  | leave hle =>
    have hlen : (List.finRange plan.groups.length).length ≤ shared.next := by simpa using hle
    rw [List.take_of_length_le hlen, List.take_of_length_le (Nat.le_succ_of_le hlen)]
    simp [Move.taken?]

/-- Without a deadline only a refuted group raises the flag, if it is to. -/
theorem stopped_cases (h : Act shared worker move shared' worker') (hu : plan.limited = false)
    (hs : shared'.stopped = true) : shared.stopped = true ∨
      plan.stopOnFailure = true ∧ ∃ entry ∈ worker'.done, entry.2.outcome = .notLinearizable := by
  cases h with
  | take | visit | leave => exact .inl hs
  | expire hl => cases hu.symm.trans hl
  | @keep done index outcome longest =>
    rcases Bool.or_eq_true_iff.mp hs with hs | hs
    · exact .inl hs
    · obtain ⟨hf, ho⟩ := Bool.and_eq_true_iff.mp hs
      exact .inr ⟨hf, (index, plan.finding index outcome longest), by simp, by simpa using ho⟩

end Act

end Worker

namespace Crew

variable {crew crew' : Crew plan count} {move : Move plan.groups.length}
  {moves : List (Move plan.groups.length)}

/-- The crew is where it can be: each worker is, and if there is no deadline then the flag is
raised only for a refuted group. -/
structure Sound (crew : Crew plan count) : Prop where
  workers : ∀ i, (crew.workers i).Sound crew.shared
  stopped : plan.limited = false → crew.shared.stopped = true →
    plan.stopOnFailure = true ∧
      ∃ i, ∃ entry ∈ (crew.workers i).done, entry.2.outcome = .notLinearizable

theorem sound_start : (start plan count).Sound where
  workers _ := ⟨nofun, nofun, nofun⟩
  stopped _ h := nomatch h

theorem Step.sound (h : crew.Step move crew') (hc : crew.Sound) : crew'.Sound := by
  obtain ⟨i, act⟩ := h
  refine ⟨fun k => ?_, fun hu hs => ?_⟩
  · by_cases hk : k = i
    · subst hk
      rw [crew.update_workers_self]
      exact act.sound (hc.workers k)
    · rw [crew.update_workers_of_ne hk]
      exact (hc.workers k).mono act.grows
  · rcases act.stopped_cases hu hs with hs | ⟨hf, entry, he, ho⟩
    · obtain ⟨hf, k, entry, he, ho⟩ := hc.stopped hu hs
      refine ⟨hf, k, entry, ?_, ho⟩
      by_cases hk : k = i
      · subst hk
        rw [crew.update_workers_self]
        exact act.done_prefix.subset he
      · rwa [crew.update_workers_of_ne hk]
    · exact ⟨hf, i, entry, by rwa [crew.update_workers_self], ho⟩

theorem Step.sum_taken (h : crew.Step move crew') :
    ∑ i, ((crew'.workers i).taken : Multiset (Fin plan.groups.length)) =
      ∑ i, ((crew.workers i).taken : Multiset (Fin plan.groups.length)) + move.taken?.toList := by
  obtain ⟨i, act⟩ := h
  have hsum := crew.sum_update_add
    (fun worker => (worker.taken : Multiset (Fin plan.groups.length))) i
  rw [← add_left_inj, hsum, act.coe_taken]
  ac_rfl

namespace Run

theorem sound (h : Run moves crew) : crew.Sound := by
  induction h with
  | start => exact sound_start
  | step _ step ih => exact step.sound ih

/-- The groups are taken in their order, each once. -/
theorem filterMap_taken? (h : Run moves crew) :
    moves.filterMap Move.taken? = (List.finRange plan.groups.length).take crew.shared.next := by
  induction h with
  | start => rfl
  | step _ step ih =>
    obtain ⟨i, act⟩ := step
    rw [List.filterMap_append, ih, Crew.update_shared, act.take_finRange]
    cases hm : Move.taken? _ <;> simp [hm]

theorem sum_taken (h : Run moves crew) :
    ∑ i, ((crew.workers i).taken : Multiset (Fin plan.groups.length)) =
      moves.filterMap Move.taken? := by
  induction h with
  | start => simp [Crew.start, Worker.taken]
  | step _ step ih =>
    rw [step.sum_taken, ih, List.filterMap_append, ← Multiset.coe_add]
    cases hm : Move.taken? _ <;> simp [hm]

end Run

end Crew

end Linearizability
