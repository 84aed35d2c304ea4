import Linearizability.Proofs.Search.Partials
import Linearizability.Register

/-! # Operations that do not overlap

If of any two operations one returns before the other one is called, the order of their calls is
the only one that respects time, and partial linearizations are the first parts of it that the
model can replay. So the search agrees with a replay in that order, also in where it stops.
-/

namespace Linearizability

variable {S I O : Type} {n : Nat}

/-- No operation returns before it is called, and of any two one returns before the other one is
called. -/
structure Sequential (operations : Vector (Operation I O) n) : Prop where
  call_le_ret : ∀ i, (operations.get i).call ≤ (operations.get i).ret
  apart : ∀ i j, i ≠ j → (operations.get i).ret < (operations.get j).call ∨
    (operations.get j).ret < (operations.get i).call

def callOrder (operations : Vector (Operation I O) n) : List (Fin n) :=
  (List.finRange n).mergeSort fun i j => decide ((operations.get i).call ≤ (operations.get j).call)

def exchanges (operations : Vector (Operation I O) n) : List (I × O) :=
  (callOrder operations).map fun i => (operations.get i).exchange

variable {operations : Vector (Operation I O) n} {model : Model S I O}
  {order before behind : List (Fin n)} {i j : Fin n}

theorem perm_callOrder (operations : Vector (Operation I O) n) :
    (callOrder operations).Perm (List.finRange n) :=
  List.mergeSort_perm _ _

@[simp] theorem mem_callOrder : i ∈ callOrder operations := by
  simp [callOrder]

@[simp] theorem length_callOrder : (callOrder operations).length = n := by
  simp [callOrder]

theorem nodup_callOrder : (callOrder operations).Nodup :=
  (perm_callOrder operations).nodup_iff.mpr (List.nodup_finRange n)

theorem pairwise_call_le : (callOrder operations).Pairwise fun i j =>
    (operations.get i).call ≤ (operations.get j).call :=
  pairwise_sortBy (fun i => (operations.get i).call) (List.finRange n)

theorem callOrder_eq_insertionSort (operations : Vector (Operation I O) n) :
    callOrder operations = (List.finRange n).insertionSort
      fun i j => notLater (fun i => (operations.get i).call) i j = true :=
  sortBy_eq_insertionSort _ _

namespace Sequential

theorem pairwise_callOrder (h : Sequential operations) : (callOrder operations).Pairwise
    fun i j => (operations.get i).ret < (operations.get j).call := by
  refine (pairwise_call_le.and nodup_callOrder).imp fun {i j} ⟨hle, hne⟩ => ?_
  refine (h.apart i j hne).resolve_right fun hlt => ?_
  have hj := h.call_le_ret j
  simp only [Timestamp.lt_iff, Timestamp.le_iff] at hle hlt hj
  omega

/-- What stands in front of a call is what returned before it. -/
theorem mem_before_iff (h : Sequential operations)
    (hb : before ++ i :: behind = callOrder operations) :
    j ∈ before ↔ (operations.get j).ret < (operations.get i).call := by
  have hline := h.pairwise_callOrder
  have hmem : j ∈ callOrder operations := mem_callOrder
  have hi := h.call_le_ret i
  have hj := h.call_le_ret j
  rw [← hb] at hline hmem
  simp only [List.pairwise_append, List.pairwise_cons, List.mem_append, List.mem_cons,
    Timestamp.lt_iff, Timestamp.le_iff] at hline hmem hi hj ⊢
  constructor
  · intro hm
    exact hline.2.2 j hm i (.inl rfl)
  · intro hlt
    rcases hmem with hm | rfl | hm
    · exact hm
    · omega
    · have := hline.2.1.1 j hm
      omega

theorem ret_lt_call_of_mem_behind (h : Sequential operations)
    (hb : before ++ i :: behind = callOrder operations) (hj : j ∈ behind) :
    (operations.get i).ret < (operations.get j).call := by
  have hline := h.pairwise_callOrder
  rw [← hb, List.pairwise_append, List.pairwise_cons] at hline
  exact hline.2.1.1 j hj

theorem notMem_before (h : Sequential operations)
    (hb : before ++ i :: behind = callOrder operations) : i ∉ before := by
  have hi := h.call_le_ret i
  rw [h.mem_before_iff hb]
  simp only [Timestamp.lt_iff, Timestamp.le_iff] at hi ⊢
  omega

/-- An order in which each operation stands behind all that returned before it was called is a first
part of the order of the calls. -/
theorem prefix_callOrder (h : Sequential operations) (hd : order.Nodup)
    (ht : ∀ before i behind, order = before ++ i :: behind →
      ∀ j, (operations.get j).ret < (operations.get i).call → j ∈ before) :
    order <+: callOrder operations := by
  induction order using List.reverseRecOn with
  | nil => exact List.nil_prefix
  | append_singleton before i ih =>
    obtain ⟨hd', -, hi⟩ := List.nodup_append.mp hd
    have hni : i ∉ before := fun hm => hi i hm i (List.mem_singleton_self i) rfl
    obtain ⟨behind, hb⟩ := ih hd' fun before' i' behind' he =>
      ht before' i' (behind' ++ [i]) (by rw [he, List.append_assoc, List.cons_append])
    have hmem : i ∈ before ++ behind := hb ▸ mem_callOrder
    cases behind with
    | nil => simp [hni] at hmem
    | cons j behind =>
      -- unless `i` comes next, the operation that does returned before `i` was called
      obtain rfl | hij := eq_or_ne i j
      · exact ⟨behind, by rw [← hb, List.append_assoc, List.singleton_append]⟩
      · have hlt := h.ret_lt_call_of_mem_behind hb (j := i) (by simpa [hni, hij] using hmem)
        exact absurd (ht before i [] rfl j hlt) (h.notMem_before hb)

/-- The first parts of the order of the calls that can be replayed are all there is. -/
theorem partialLinearization_iff (h : Sequential operations) :
    PartialLinearization model operations.get order ↔ order <+: callOrder operations ∧
      ∃ s, model.replay (order.map fun i => (operations.get i).exchange) = .ok s := by
  constructor
  · intro hp
    exact ⟨h.prefix_callOrder hp.nodup hp.respectsTime, hp.legal⟩
  · rintro ⟨hp, hl⟩
    refine ⟨nodup_callOrder.sublist hp.sublist, fun before i behind ho j hlt => ?_, hl⟩
    obtain ⟨rest, hr⟩ := hp
    rw [ho, List.append_assoc, List.cons_append] at hr
    exact (h.mem_before_iff hr).mpr hlt

theorem linearizable_iff (h : Sequential operations) :
    Linearizable model operations.toList ↔ ∃ s, model.replay (exchanges operations) = .ok s := by
  rw [← Problem.exists_length_eq_iff]
  simp only [Problem.mem_continuations_iff_partialLinearization, h.partialLinearization_iff]
  constructor
  · rintro ⟨order, ⟨hp, hl⟩, hn⟩
    rwa [hp.eq_of_length (hn.trans length_callOrder.symm)] at hl
  · intro hl
    exact ⟨_, ⟨List.prefix_rfl, hl⟩, length_callOrder⟩

/-- Partial linearizations end in front of the operation at which the replay stops. -/
theorem partialLinearization_iff_of_error (h : Sequential operations) {p : Nat}
    (hr : model.replay (exchanges operations) = .error p) :
    PartialLinearization model operations.get order ↔
      order <+: callOrder operations ∧ order.length ≤ p := by
  rw [h.partialLinearization_iff, and_congr_right_iff]
  intro hp
  have he : (order.map fun i => (operations.get i).exchange) =
      (exchanges operations).take order.length := by
    rw [exchanges, ← List.map_take, ← List.prefix_iff_eq_take.mp hp]
  have herr : ∀ q, model.replay ((exchanges operations).take order.length) = .error q ↔
      q < order.length ∧ p = q := by
    intro q
    rw [Model.replay_take_eq_error_iff, hr, Except.error.injEq]
  rw [he]
  cases hs : model.replay ((exchanges operations).take order.length) with
  | ok s =>
    have hle : ¬ p < order.length := by
      intro hlt
      rw [(herr p).mpr ⟨hlt, rfl⟩] at hs
      cases hs
    simp [Nat.le_of_not_lt hle]
  | error q =>
    obtain ⟨hlt, rfl⟩ := (herr q).mp hs
    simp [hlt]

theorem toList_recordAll (h : Sequential operations) {p : Nat}
    (hr : model.replay (exchanges operations) = .error p) {orders : List (List (Fin n))}
    (ho : ∀ order, order ∈ orders ↔ PartialLinearization model operations.get order) :
    (Longest.empty.recordAll orders).toList =
      if p = 0 then [] else [(callOrder operations).take p] := by
  simp only [h.partialLinearization_iff_of_error hr] at ho
  split
  · rename_i hp
    rw [List.eq_nil_iff_forall_not_mem]
    intro order hm
    obtain ⟨hm, hne⟩ := Longest.mem_of_mem_toList hm
    have hle := ((ho order).mp hm).2
    exact hne (List.eq_nil_of_length_eq_zero (by omega))
  · rename_i hp
    obtain ⟨e, t, he, -⟩ := Model.replay_eq_error_iff.mp hr
    have hlt : p < n := by
      simpa [exchanges] using (List.getElem?_eq_some_iff.mp he).1
    have hlen : ((callOrder operations).take p).length = p := by
      simpa using hlt.le
    have hfront : ∀ order ∈ orders, order <+: (callOrder operations).take p := by
      intro order hm
      obtain ⟨hpre, hle⟩ := (ho order).mp hm
      exact List.prefix_take_iff.mpr ⟨hpre, hle⟩
    refine Longest.toList_recordAll_eq_singleton ((ho _).mpr ⟨List.take_prefix _ _, hlen.le⟩) ?_
      (fun order hm => (hfront order hm).subset) fun order hm hle =>
        (hfront order hm).eq_of_length_le hle
    exact List.ne_nil_of_length_pos (by omega)

end Sequential

/-- Operations that do not overlap are linearizable exactly if they can be replayed in the order
of their calls. If the replay stops at one of them, the search tells the order of those in front
of it, and nothing else. -/
theorem search_of_sequential [DecidableEq S] (model : Model S I O)
    (operations : Vector (Operation I O) n) (h : Sequential operations) :
    (((Problem.of model operations).search fun _ => false).1 = .linearizable ↔
        ∃ s, model.replay (exchanges operations) = .ok s) ∧
      ∀ p, model.replay (exchanges operations) = .error p →
        (Problem.of model operations).search (fun _ => false) =
          (.notLinearizable, if p = 0 then [] else [(callOrder operations).take p]) := by
  have hs : (Problem.of model operations).search (fun _ => false) = _ :=
    Problem.search_of_forall_not_stop (Timeline.lays_of operations) fun _ _ => rfl
  refine ⟨?_, fun p hr => ?_⟩
  · rw [hs, Problem.answer_eq_linearizable_iff, h.linearizable_iff]
  · obtain ⟨orders, hw, ht⟩ := Problem.exists_walked_of model operations fun _ => false
    have ho : ((Problem.of model operations).search fun _ => false).1 = .notLinearizable := by
      rw [hs, Problem.answer_eq_notLinearizable_iff, h.linearizable_iff, hr]
      simp
    refine Prod.ext ho (ht.trans (h.toList_recordAll hr fun order => ?_))
    rw [hw.complete ho]
    exact Problem.mem_continuations_iff_partialLinearization

namespace Backwards

/-- Listed against the order of their calls: two values are written, and the first one is read
after the second one has been. -/
def history : Vector (Operation Register.Command Int) 4 :=
  #v[⟨⟨3⟩, .write 3, ⟨9⟩, 0, ⟨9⟩⟩, ⟨⟨3⟩, .read, ⟨5⟩, 1, ⟨8⟩⟩, ⟨⟨2⟩, .write 2, ⟨2⟩, 0, ⟨4⟩⟩,
    ⟨⟨1⟩, .write 1, ⟨-1⟩, 0, ⟨1⟩⟩]

theorem sequential : Sequential history := ⟨by decide, by decide⟩

end Backwards

theorem search_of_sequential_backwards : Sequential Backwards.history ∧
    Register.model.replay (exchanges Backwards.history) = .error 2 ∧
    (Problem.of Register.model Backwards.history).search (fun _ => false) =
      (.notLinearizable, [[3, 2]]) := by
  have hr : Register.model.replay (exchanges Backwards.history) = .error 2 := by
    rw [exchanges, callOrder_eq_insertionSort]
    rfl
  have ht : (callOrder Backwards.history).take 2 = [3, 2] := by
    rw [callOrder_eq_insertionSort]
    rfl
  obtain ⟨-, hs⟩ := search_of_sequential Register.model _ Backwards.sequential
  refine ⟨Backwards.sequential, hr, ?_⟩
  rw [hs 2 hr, ht]
  rfl

end Linearizability
