import Linearizability.Proofs.Search.Straight

/-! # The orders a search holds

An order is recorded when the search turns back from it, and the last one when the search finds an
answer. So every order that a search holds on its way is covered by what it tells, unless the
search is stopped: the order held then is not recorded, and what it begins with may not be covered.
-/

namespace Linearizability

variable {S I O : Type} {n : Nat}

/-- For each operation of an order, some order told has it and is at least as long. -/
def Covered (told : List (List (Fin n))) (order : List (Fin n)) : Prop :=
  ∀ i ∈ order, ∃ kept ∈ told, i ∈ kept ∧ order.length ≤ kept.length

namespace Longest

variable {longest : Longest n} {order order' : List (Fin n)} {orders : List (List (Fin n))}

theorem Covers.of_prefix (h : longest.Covers order) (hp : order' <+: order) :
    longest.Covers order' := by
  intro i hi
  obtain ⟨kept, hk, hle⟩ := h i (hp.subset hi)
  exact ⟨kept, hk, hp.length_le.trans hle⟩

theorem covered_toList (h : (empty.recordAll orders).Covers order) :
    Covered (empty.recordAll orders).toList order := by
  intro i hi
  obtain ⟨kept, hk, hle⟩ := h i hi
  refine ⟨kept.toList, mem_toList.mpr ⟨i, hk⟩, ?_, hle⟩
  rcases mem_of_get_recordAll hk with hk | ⟨-, hm⟩
  · simp at hk
  · exact hm

end Longest

/-- The search still holds an order that it has held, or more, or the order is covered. -/
def Configuration.Keeps (c : Configuration n S) (order : List (Fin n)) : Prop :=
  order <+: c.order.toList ∨ c.longest.Covers order

namespace Problem

variable {problem : Problem S I O n} {stop : Nat → Bool} {c c' : Configuration n S}
  {order : List (Fin n)} {outcome : Outcome} {longest : Longest n} {j k : Nat}

theorem covers_record (h : c.Keeps order) : (c.longest.record c.order).Covers order := by
  have ho : c.order.toList.toArray = c.order := Array.toArray_toList
  rw [← ho]
  rcases h with h | h
  · exact Longest.covers_record.of_prefix h
  · exact h.of_grows Longest.grows_record

/-- What is undone is recorded. -/
theorem Turn.keeps (ht : problem.Turn c c') (h : c.Keeps order) : c'.Keeps order := by
  cases ht with
  | pass => exact h
  | choose => exact h.imp_left fun hp => hp.trans (by simp [lift])
  | undo => exact .inr (covers_record h)

theorem Exit.covers (he : problem.Exit stop c outcome longest) (h : c.Keeps order)
    (ha : outcome ≠ .aborted) : longest.Covers order := by
  cases he with
  | linearizable => exact covers_record h
  | notLinearizable => exact covers_record h
  | aborted => exact absurd rfl ha

theorem Exit.exists_recordAll {past : List (List (Fin n))} {passed ahead : List (Place n)}
    (he : problem.Exit stop c outcome longest) (h : problem.Standing c past passed ahead) :
    ∃ orders, longest = Longest.empty.recordAll orders := by
  cases he with
  | linearizable => exact ⟨_, h.record_eq⟩
  | notLinearizable => exact ⟨_, h.record_eq⟩
  | aborted => exact ⟨_, h.longest⟩

section Run

variable [DecidableEq S]

theorem keeps_of_run (h : problem.run stop k (.searching problem.start) = .searching c)
    (hk : c.Keeps order) {i : Nat} {d : Configuration n S}
    (hd : problem.run stop (k + i) (.searching problem.start) = .searching d) :
    d.Keeps order := by
  induction i generalizing d with
  | zero =>
    cases h.symm.trans hd
    exact hk
  | succ i ih =>
    obtain ⟨c', hc⟩ := exists_run_of_le hd (Nat.le_succ (k + i))
    rw [← Nat.add_assoc, run_succ, hc] at hd
    exact ((problem.follows_step stop).turn c' d hd).keeps (ih hc)

/-- Every order that a search holds before it ends is covered by what it tells, unless the search
is stopped and holds the order still, or more. -/
theorem orders_held_covered (model : Model S I O) (operations : Vector (Operation I O) n)
    (stop : Nat → Bool) :
    ∃ k c longest, (of model operations).run stop k (.searching (of model operations).start) =
        .searching c ∧
      (of model operations).step stop c =
        .finished ((of model operations).search stop).1 longest ∧
      ∀ j ≤ k, ∃ d, (of model operations).run stop j (.searching (of model operations).start) =
          .searching d ∧
        (Covered ((of model operations).search stop).2 d.order.toList ∨
          ((of model operations).search stop).1 = .aborted ∧
            d.order.toList <+: c.order.toList) := by
  have hl : (of model operations).timeline.Lays (of model operations).operations :=
    Timeline.lays_of operations
  obtain ⟨k, c, outcome, longest, hc, hn, hend⟩ := exists_run_finished hl stop
  obtain ⟨past, passed, ahead, hs⟩ := hc.standing
  have he := ((of model operations).follows_step stop).exit c outcome longest hn
  obtain ⟨orders, ho⟩ := he.exists_recordAll hs
  rw [search_of_run hl (hend (k + 1) (Nat.lt_succ_self k))]
  refine ⟨k, c, longest, hc.run_eq, hn, fun j hj => ?_⟩
  obtain ⟨d, hd⟩ := exists_run_of_le hc.run_eq hj
  obtain ⟨i, rfl⟩ := Nat.exists_eq_add_of_le hj
  have hkeeps : c.Keeps d.order.toList := keeps_of_run hd (.inl List.prefix_rfl) hc.run_eq
  refine ⟨d, hd, ?_⟩
  by_cases ha : outcome = .aborted
  · subst ha
    cases he with
    | aborted =>
      rcases hkeeps with hp | hcov
      · exact .inr ⟨rfl, hp⟩
      · rw [ho] at hcov ⊢
        exact .inl (Longest.covered_toList hcov)
  · have hcov := he.covers hkeeps ha
    rw [ho] at hcov ⊢
    exact .inl (Longest.covered_toList hcov)

end Run

end Problem

namespace Interrupted

/-- One write after another, as many as a search visits until it looks at whether to stop. -/
def history : Vector (Operation Register.Command Int) 256 :=
  Vector.ofFn fun i =>
    ⟨⟨1⟩, .write i, ⟨.ofNat (2 * i)⟩, 0, ⟨.ofNat (2 * i + 1)⟩⟩

theorem get_history (i : Fin 256) : history.get i =
    ⟨⟨1⟩, .write i, ⟨.ofNat (2 * i)⟩, 0, ⟨.ofNat (2 * i + 1)⟩⟩ :=
  Vector.getElem_ofFn i.isLt

theorem sequential : Sequential history := by
  have hcall : ∀ i, (history.get i).call.raw.toInt = 2 * i.val := by
    intro i
    rw [get_history, Int64.toInt_ofNat_of_lt (by omega)]
    simp
  have hret : ∀ i, (history.get i).ret.raw.toInt = 2 * i.val + 1 := by
    intro i
    rw [get_history, Int64.toInt_ofNat_of_lt (by omega)]
    simp
  constructor
  · intro i
    rw [Timestamp.le_iff, hcall, hret]
    omega
  · intro i j hij
    rw [Timestamp.lt_iff, Timestamp.lt_iff, hcall, hcall, hret, hret]
    have := Fin.val_ne_of_ne hij
    omega

theorem legal (order : List (Fin 256)) :
    ∃ t, Register.model.replay (order.map fun i => (history.get i).exchange) = .ok t := by
  simp only [Model.replay_eq_ok_iff]
  generalize Register.model.init = s
  induction order generalizing s with
  | nil => exact ⟨s, rfl⟩
  | cons i order ih =>
    obtain ⟨t, ht⟩ := ih i
    refine ⟨t, ?_⟩
    rw [List.map_cons, Model.after?_cons, get_history]
    exact ht

end Interrupted

/-- The first look stops a search that holds all operations but the last one, and nothing of
that is told. -/
theorem order_at_stop_not_covered :
    ∃ c : Configuration 256 Int,
      (Problem.of Register.model Interrupted.history).run (fun _ => true) 255
        (.searching (Problem.of Register.model Interrupted.history).start) = .searching c ∧
      c.order.size = 255 ∧
      (Problem.of Register.model Interrupted.history).search (fun _ => true) = (.aborted, []) ∧
      ¬ Covered ((Problem.of Register.model Interrupted.history).search fun _ => true).2
        c.order.toList := by
  have hlen : ((callOrder Interrupted.history).take 255).length = 255 := by
    rw [List.length_take, length_callOrder]
    rfl
  have hlook : ∀ visit ≤ 255, 0 < visit → visit % Problem.stopInterval ≠ 0 := by
    intro visit hle hlt
    rw [Problem.stopInterval]
    omega
  obtain ⟨c, hc, ho, hs⟩ := Interrupted.sequential.search_of_first_stop Register.model
    (fun _ => true) (List.take_prefix 255 _)
    (by rw [hlen]; decide) (Interrupted.legal _)
    (by rw [hlen]; exact fun visit hle hlt hv => absurd hv (hlook visit hle hlt))
    (by rw [hlen]; rfl) rfl
  rw [hlen] at hc
  have hsize : c.order.size = 255 := by
    rw [← Array.length_toList, ho, hlen]
  refine ⟨c, hc, hsize, hs, fun hcov => ?_⟩
  rw [hs] at hcov
  obtain ⟨i, hi⟩ := List.exists_mem_of_length_pos (l := c.order.toList)
    (by rw [Array.length_toList, hsize]; decide)
  obtain ⟨kept, hk, -⟩ := hcov i hi
  cases hk

end Linearizability
