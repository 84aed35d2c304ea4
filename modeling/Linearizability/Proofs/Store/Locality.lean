import Linearizability.History
import Linearizability.Proofs.Store.Replay
import Mathlib.Data.List.Basic

/-! # Linearizability key by key

A history of a key-value store is linearizable exactly if the operations on each key are. Orders
of the operations on the keys can be merged by the times of the calls: an operation then stands
behind another one of a different key only if some call between them is no earlier, so the merged
order respects time again.
-/

namespace Linearizability

section Merge

variable {I O : Type} {a b : Operation I O} {l r : List (Operation I O)}

/-- Two orders as one, the operation that was called earlier first. -/
def mergeByCall (l r : List (Operation I O)) : List (Operation I O) :=
  l.merge r fun a b => decide (a.call ≤ b.call)

@[simp] theorem mergeByCall_nil_left (r : List (Operation I O)) : mergeByCall [] r = r := by
  simp [mergeByCall]

@[simp] theorem mergeByCall_nil_right (l : List (Operation I O)) : mergeByCall l [] = l := by
  simp [mergeByCall]

theorem mergeByCall_cons_of_le (h : a.call ≤ b.call) :
    mergeByCall (a :: l) (b :: r) = a :: mergeByCall l (b :: r) :=
  List.cons_merge_cons_pos _ _ _ (decide_eq_true h)

theorem mergeByCall_cons_of_not_le (h : ¬ a.call ≤ b.call) :
    mergeByCall (a :: l) (b :: r) = b :: mergeByCall (a :: l) r :=
  List.cons_merge_cons_neg _ _ _ (by simpa using h)

theorem mem_mergeByCall : a ∈ mergeByCall l r ↔ a ∈ l ∨ a ∈ r :=
  List.mem_merge

theorem RespectsTime.not_ret_lt {t : Timestamp} (h : RespectsTime (b :: r)) (ht : t ≤ b.call) :
    ∀ c ∈ b :: r, ¬ c.ret < t := by
  intro c hc
  have hcb := (respectsTime_cons.mp h).1 c hc
  rw [Timestamp.lt_iff] at *
  rw [Timestamp.le_iff] at ht
  omega

theorem RespectsTime.mergeByCall (hl : RespectsTime l) (hr : RespectsTime r) :
    RespectsTime (mergeByCall l r) := by
  induction l generalizing r with
  | nil => simpa using hr
  | cons a l ihl =>
    induction r with
    | nil => simpa using hl
    | cons b r ihr =>
      by_cases hle : a.call ≤ b.call
      · rw [mergeByCall_cons_of_le hle, respectsTime_cons]
        refine ⟨fun c hc => ?_, ihl (respectsTime_cons.mp hl).2 hr⟩
        rw [List.mem_cons, mem_mergeByCall, ← or_assoc, ← List.mem_cons] at hc
        rcases hc with hc | hc
        · exact (respectsTime_cons.mp hl).1 c hc
        · -- nothing in `b :: r` returned before `b` was called, nor before `a` was
          exact hr.not_ret_lt hle c hc
      · have hge : b.call ≤ a.call := by
          rw [Timestamp.le_iff] at *
          omega
        rw [mergeByCall_cons_of_not_le hle, respectsTime_cons]
        refine ⟨fun c hc => ?_, ihr (respectsTime_cons.mp hr).2⟩
        rw [List.mem_cons, mem_mergeByCall, or_left_comm, ← List.mem_cons] at hc
        rcases hc with hc | hc
        · exact hl.not_ret_lt hge c hc
        · exact (respectsTime_cons.mp hr).1 c hc

theorem filter_mergeByCall_of_right {f : Operation I O → Bool} (h : ∀ b ∈ r, f b = false) :
    (mergeByCall l r).filter f = l.filter f := by
  induction l generalizing r with
  | nil => simpa using h
  | cons a l ihl =>
    induction r with
    | nil => simp
    | cons b r ihr =>
      by_cases hle : a.call ≤ b.call
      · rw [mergeByCall_cons_of_le hle, List.filter_cons, List.filter_cons, ihl h]
      · rw [mergeByCall_cons_of_not_le hle, List.filter_cons_of_neg (by simp [h]),
          ihr (List.forall_mem_cons.mp h).2]

theorem filter_mergeByCall_of_left {f : Operation I O → Bool} (h : ∀ a ∈ l, f a = false) :
    (mergeByCall l r).filter f = r.filter f := by
  induction l generalizing r with
  | nil => simp
  | cons a l ihl =>
    induction r with
    | nil => simpa using h
    | cons b r ihr =>
      by_cases hle : a.call ≤ b.call
      · rw [mergeByCall_cons_of_le hle, List.filter_cons_of_neg (by simp [h]),
          ihl (List.forall_mem_cons.mp h).2]
      · rw [mergeByCall_cons_of_not_le hle, List.filter_cons, List.filter_cons, ihr]

end Merge

namespace Store

def ofKey (key : String) (history : History) : History :=
  history.filter (·.input.key = key)

def mergeKeys (order : String → History) (keys : List String) : History :=
  keys.foldr (fun key merged => mergeByCall (order key) merged) []

variable {history order : History} {key : String}

theorem mem_ofKey {a : Record} : a ∈ ofKey key history ↔ a ∈ history ∧ a.input.key = key := by
  simp [ofKey]

theorem ofKey_ofKey (key key' : String) (history : History) :
    ofKey key' (ofKey key history) = if key' = key then ofKey key history else [] := by
  rw [ofKey, ofKey, List.filter_filter]
  split
  · rename_i h
    simp [h]
  · rename_i h
    rw [List.filter_eq_nil_iff]
    grind

theorem perm_of_ofKey (h : ∀ key, (ofKey key order).Perm (ofKey key history)) :
    order.Perm history := by
  rw [List.perm_iff_count]
  intro a
  have ha := (h a.input.key).count_eq a
  rwa [ofKey, ofKey, List.count_filter (by simp), List.count_filter (by simp)] at ha

theorem filter_map_exchange (key : String) (history : History) :
    (history.map Operation.exchange).filter (·.1.key = key) =
      (ofKey key history).map Operation.exchange := by
  rw [List.filter_map]
  rfl

theorem exists_replay_iff (history : History) :
    (∃ s, model.replay (history.map Operation.exchange) = .ok s) ↔
      ∀ key, (valueAfterAll? none ((ofKey key history).map Operation.exchange)).isSome := by
  simp only [Model.replay_eq_ok_iff, ← Option.isSome_iff_exists, isSome_after?_iff,
    filter_map_exchange]
  rfl

/-- A history can be replayed exactly if the operations on each key can be. -/
theorem exists_replay_iff_forall_key (history : History) :
    (∃ s, model.replay (history.map Operation.exchange) = .ok s) ↔
      ∀ key, ∃ s, model.replay ((ofKey key history).map Operation.exchange) = .ok s := by
  simp only [exists_replay_iff, ofKey_ofKey]
  constructor
  · intro h key key'
    split
    · exact h key
    · simp
  · intro h key
    simpa using h key key

section Merge

variable {orders : String → History} {keys : List String}

theorem respectsTime_mergeKeys (h : ∀ key, RespectsTime (orders key)) (keys : List String) :
    RespectsTime (mergeKeys orders keys) := by
  induction keys with
  | nil => exact respectsTime_nil
  | cons key keys ih => exact (h key).mergeByCall ih

theorem key_of_mem_mergeKeys (h : ∀ key, ∀ a ∈ orders key, a.input.key = key) {a : Record}
    (ha : a ∈ mergeKeys orders keys) : a.input.key ∈ keys := by
  induction keys with
  | nil => cases ha
  | cons key keys ih =>
    rcases mem_mergeByCall.mp ha with ha | ha
    · rw [h key a ha]
      exact List.mem_cons_self
    · exact List.mem_cons_of_mem _ (ih ha)

/-- Merging the orders of different keys keeps each of them. -/
theorem ofKey_mergeKeys (h : ∀ key, ∀ a ∈ orders key, a.input.key = key) (hn : keys.Nodup)
    (hk : key ∈ keys) : ofKey key (mergeKeys orders keys) = orders key := by
  induction keys with
  | nil => cases hk
  | cons key' keys ih =>
    rw [List.nodup_cons] at hn
    rw [ofKey, mergeKeys, List.foldr_cons]
    by_cases he : key = key'
    · subst he
      rw [filter_mergeByCall_of_right, List.filter_eq_self.mpr (by simpa using h key)]
      intro b hb
      have := key_of_mem_mergeKeys h hb
      grind
    · rw [filter_mergeByCall_of_left]
      · exact ih hn.2 ((List.mem_cons.mp hk).resolve_left he)
      · intro a ha
        have := h key' a ha
        grind

end Merge

theorem mem_keys : key ∈ keys history ↔ ∃ a ∈ history, a.input.key = key := by
  simp [keys, List.mem_eraseDups]

theorem nodup_eraseDups {α : Type} [DecidableEq α] (l : List α) : l.eraseDups.Nodup := by
  induction hl : l.length using Nat.strongRecOn generalizing l with
  | _ m ih =>
    cases l with
    | nil => exact List.nodup_nil
    | cons a l =>
      rw [List.eraseDups_cons, List.nodup_cons, List.mem_eraseDups]
      refine ⟨by simp, ih _ ?_ _ rfl⟩
      rw [← hl]
      exact Nat.lt_succ_of_le (List.length_filter_le _ _)

theorem nodup_keys (history : History) : (keys history).Nodup :=
  nodup_eraseDups _

theorem ofKey_eq_nil (h : key ∉ keys history) : ofKey key history = [] := by
  rw [ofKey, List.filter_eq_nil_iff]
  intro a ha hk
  exact h (mem_keys.mpr ⟨a, ha, by simpa using hk⟩)

/-- A history is linearizable exactly if the operations on each key are. -/
theorem linearizable_iff_forall_ofKey (history : History) :
    Linearizable model history ↔ ∀ key, Linearizable model (ofKey key history) := by
  constructor
  · rintro ⟨order, hp, ht, hl⟩ key
    exact ⟨ofKey key order, hp.filter _, ht.sublist List.filter_sublist,
      (exists_replay_iff_forall_key order).mp hl key⟩
  · intro h
    choose orders ho using h
    have hkey : ∀ key, ∀ a ∈ orders key, a.input.key = key :=
      fun key a ha => (mem_ofKey.mp ((ho key).perm.mem_iff.mp ha)).2
    have hmerged : ∀ key, ofKey key (mergeKeys orders (keys history)) = orders key := by
      intro key
      by_cases hk : key ∈ keys history
      · exact ofKey_mergeKeys hkey (nodup_keys history) hk
      · have hn := (ho key).perm
        rw [ofKey_eq_nil hk, List.perm_nil] at hn
        rw [hn, ofKey, List.filter_eq_nil_iff]
        intro a ha he
        have := key_of_mem_mergeKeys hkey ha
        grind
    refine ⟨mergeKeys orders (keys history), perm_of_ofKey fun key => ?_,
      respectsTime_mergeKeys (fun key => (ho key).respectsTime) _,
      (exists_replay_iff_forall_key _).mpr fun key => ?_⟩
    · rw [hmerged]
      exact (ho key).perm
    · rw [hmerged]
      exact (ho key).legal

/-- The positions of the operations on a key are those of just these operations. -/
theorem operationsAt_positionsOf (key : String) (history : History) :
    operationsAt history (positionsOf key history) = ofKey key history := by
  have hmem : ∀ x ∈ history.zipIdx,
      (if x.1.input.key = key then some x.2 else none).bind (history[·]?) =
        Option.guard (fun record : Record => record.input.key = key) x.1 := by
    intro x hx
    rw [List.mem_zipIdx_iff_getElem?] at hx
    by_cases hk : x.1.input.key = key
    · simpa [Option.guard, hk] using hx
    · simp [Option.guard, hk]
  rw [operationsAt, positionsOf, List.filterMap_filterMap, List.filterMap_congr hmem,
    ← Function.comp_def (Option.guard _) Prod.fst, ← List.filterMap_map, List.zipIdx_map_fst,
    List.filterMap_eq_filter]
  rfl

theorem forall_group_iff (history : History) :
    (∀ group ∈ partition history, Linearizable model (operationsAt history group)) ↔
      ∀ key, Linearizable model (ofKey key history) := by
  rw [partition, List.forall_mem_map]
  simp only [operationsAt_positionsOf]
  constructor
  · intro h key
    by_cases hk : key ∈ keys history
    · exact h key hk
    · rw [ofKey_eq_nil hk]
      exact linearizable_nil model
  · intro h key _
    exact h key

/-- A history is linearizable exactly if the operations of each group are. -/
theorem linearizable_iff_forall_group (history : History) :
    Linearizable model history ↔
      ∀ group ∈ model.partition history, Linearizable model (operationsAt history group) :=
  (linearizable_iff_forall_ofKey history).trans (forall_group_iff history).symm

end Store

end Linearizability
