import Linearizability.Proofs.Findings
import Linearizability.Proofs.Store.Locality

/-! # Findings key by key

The groups of a history of a key-value store are those of its keys. If it is found linearizable,
the longest order told has all operations of the largest group, and otherwise it lacks one of the
history. With no deadline it is the longest partial linearization of the operations on any key.
-/

namespace Linearizability

theorem Conclusion.isGreatest_longestLength (conclusion : Conclusion) :
    IsGreatest {k | k = 0 ∨ ∃ finding ∈ conclusion.findings, finding.longestLength = k}
      conclusion.longestLength := by
  simpa [longestLength] using isGreatest_foldl_max (conclusion.findings.map Finding.longestLength)

theorem Verdict.combine_eq_linearizable_iff {outcomes : List Outcome} :
    combine outcomes = .linearizable ↔ ∀ outcome ∈ outcomes, outcome = .linearizable := by
  refine ⟨fun h outcome ho => ?_, combine_of_forall⟩
  cases outcome with
  | linearizable => rfl
  | notLinearizable => simp [combine, ho] at h
  | aborted =>
    by_cases hn : .notLinearizable ∈ outcomes
    · simp [combine, hn] at h
    · simp [combine, hn, ho] at h

theorem exists_mem_of_forall₂ {α β : Type} {R : α → β → Prop} {l : List α} {l' : List β} {a : α}
    (h : List.Forall₂ R l l') (ha : a ∈ l) : ∃ b ∈ l', R a b := by
  induction h with
  | nil => simp at ha
  | cons hr _ ih =>
    rcases List.mem_cons.mp ha with rfl | ha
    · exact ⟨_, List.mem_cons_self, hr⟩
    · obtain ⟨b, hb, hab⟩ := ih ha
      exact ⟨b, List.mem_cons_of_mem _ hb, hab⟩

namespace Store

variable {history : History} {key : String}

theorem mem_positionsOf {i : Nat} : i ∈ positionsOf key history ↔
    ∃ record, history[i]? = some record ∧ record.input.key = key := by
  simp [positionsOf, List.mem_zipIdx_iff_getElem?]

theorem length_positionsOf (key : String) (history : History) :
    (positionsOf key history).length = (ofKey key history).length := by
  rw [← operationsAt_positionsOf, operationsAt, eq_comm, List.filterMap_length_eq_length]
  intro i hi
  obtain ⟨record, hr, _⟩ := mem_positionsOf.mp hi
  simp [hr]

theorem toList_groupOperations (key : String) (history : History) :
    (groupOperations history.toArray.toVector (positionsOf key history)).toList =
      ofKey key history :=
  (toList_map_positionsWithin _ _).trans (operationsAt_positionsOf key history)

def findKey (history : History) (key : String) (stop : Nat → Bool) : Finding :=
  findGroup model history.toArray.toVector (positionsOf key history) stop

variable {stop : Nat → Bool}

theorem length_operations_findKey (key : String) (history : History) (stop : Nat → Bool) :
    (findKey history key stop).operations.length = (ofKey key history).length := by
  rw [← toList_groupOperations, Vector.length_toList, findKey, findGroup_eq, List.length_map]

theorem length_ofKey_pos (h : key ∈ keys history) : 0 < (ofKey key history).length := by
  obtain ⟨record, hr, hk⟩ := mem_keys.mp h
  exact List.length_pos_of_mem (mem_ofKey.mpr ⟨hr, hk⟩)

theorem operations_findKey_ne_nil (h : key ∈ keys history) :
    (findKey history key stop).operations ≠ [] := by
  rw [← List.length_pos_iff, length_operations_findKey]
  exact length_ofKey_pos h

theorem consistent_findKey (h : key ∈ keys history) : (findKey history key stop).Consistent :=
  consistent_findGroup (operations_findKey_ne_nil h)

theorem longestLength_findKey_eq (h : key ∈ keys history)
    (ho : (findKey history key stop).outcome = .linearizable) :
    (findKey history key stop).longestLength = (ofKey key history).length := by
  rw [(consistent_findKey h).longestLength_eq ho, length_operations_findKey]

theorem longestLength_findKey_lt (h : key ∈ keys history)
    (ho : (findKey history key stop).outcome ≠ .linearizable) :
    (findKey history key stop).longestLength < (ofKey key history).length := by
  rw [← length_operations_findKey key history stop]
  exact (consistent_findKey h).longestLength_lt (operations_findKey_ne_nil h) ho

section Searched

variable {conclusion : Conclusion} {finding finding' : Finding}

theorem forall₂_of_searched (h : conclusion.Searched model history) :
    List.Forall₂ (fun key finding => ∃ stop, finding = findKey history key stop) (keys history)
      conclusion.findings :=
  List.forall₂_map_left_iff.mp h.findings

theorem exists_key_of_mem (h : conclusion.Searched model history)
    (hf : finding ∈ conclusion.findings) :
    ∃ key ∈ keys history, ∃ stop, finding = findKey history key stop :=
  exists_mem_of_forall₂ (forall₂_of_searched h).flip hf

theorem exists_mem_of_key (h : conclusion.Searched model history) (hk : key ∈ keys history) :
    ∃ stop, findKey history key stop ∈ conclusion.findings := by
  obtain ⟨_, hf, stop, rfl⟩ := exists_mem_of_forall₂ (forall₂_of_searched h) hk
  exact ⟨stop, hf⟩

theorem exists_mem_keys (hn : history ≠ []) : ∃ key, key ∈ keys history := by
  obtain ⟨record, hr⟩ := List.exists_mem_of_ne_nil history hn
  exact ⟨_, mem_keys.mpr ⟨record, hr, rfl⟩⟩

/-- The longest order has all operations of the largest group. -/
theorem isGreatest_length_group (h : conclusion.Searched model history) (hn : history ≠ [])
    (hv : conclusion.verdict = .linearizable) :
    IsGreatest {k | ∃ group ∈ partition history, group.length = k} conclusion.longestLength := by
  have hl : ∀ finding ∈ conclusion.findings, finding.outcome = .linearizable := by
    rw [h.verdict, Verdict.combine_eq_linearizable_iff] at hv
    simpa using hv
  have hkey : ∀ key ∈ keys history,
      (ofKey key history).length ≤ conclusion.longestLength := by
    intro key hk
    obtain ⟨stop, hf⟩ := exists_mem_of_key h hk
    rw [← longestLength_findKey_eq hk (hl _ hf)]
    exact conclusion.isGreatest_longestLength.2 (.inr ⟨_, hf, rfl⟩)
  constructor
  · rcases conclusion.isGreatest_longestLength.1 with hz | ⟨finding, hf, he⟩
    · -- no group is empty, so some order told is not
      obtain ⟨key, hk⟩ := exists_mem_keys hn
      have := hkey key hk
      have := length_ofKey_pos hk
      omega
    · obtain ⟨key, hk, stop, rfl⟩ := exists_key_of_mem h hf
      refine ⟨positionsOf key history, List.mem_map_of_mem hk, ?_⟩
      rw [length_positionsOf, ← he, longestLength_findKey_eq hk (hl _ hf)]
  · rintro _ ⟨group, hg, rfl⟩
    obtain ⟨key, hk, rfl⟩ := List.mem_map.mp hg
    rw [length_positionsOf]
    exact hkey key hk

/-- A history with only one key has only one group. -/
theorem eq_of_forall_key (h : conclusion.Searched model history)
    (hk : ∀ record ∈ history, record.input.key = key) (hf : finding ∈ conclusion.findings)
    (hf' : finding' ∈ conclusion.findings) : finding = finding' := by
  have hs : keys history ⊆ [key] := by
    intro key' hk'
    obtain ⟨record, hr, rfl⟩ := mem_keys.mp hk'
    exact List.mem_singleton.mpr (hk record hr)
  have hle : conclusion.findings.length ≤ 1 := by
    rw [← (forall₂_of_searched h).length_eq]
    exact (List.subperm_of_subset (nodup_keys history) hs).length_le
  match hc : conclusion.findings with
  | [] => simp [hc] at hf
  | [finding''] =>
    simp only [hc, List.mem_singleton] at hf hf'
    rw [hf, hf']
  | _ :: _ :: _ => simp [hc] at hle

/-- The longest order is shorter than the history: if not its own group, another one has an
operation that it lacks. -/
theorem longestLength_lt (h : conclusion.Searched model history) (hn : history ≠ [])
    (hv : conclusion.verdict ≠ .linearizable) :
    conclusion.longestLength < history.length := by
  obtain ⟨finding', hf', ho'⟩ : ∃ finding ∈ conclusion.findings,
      finding.outcome ≠ .linearizable := by
    rw [h.verdict, ne_eq, Verdict.combine_eq_linearizable_iff] at hv
    simpa using hv
  rcases conclusion.isGreatest_longestLength.1 with hz | ⟨finding, hf, he⟩
  · rw [hz]
    exact List.length_pos_iff.mpr hn
  · rw [← he]
    by_cases ho : finding.outcome = .linearizable
    · -- then another group is not linearizable, so not all operations are on this key
      obtain ⟨key, hk, stop, rfl⟩ := exists_key_of_mem h hf
      rw [longestLength_findKey_eq hk ho, ofKey, List.length_filter_lt_length_iff_exists]
      by_contra hall
      have hkey : ∀ record ∈ history, record.input.key = key := by simpa using hall
      exact ho' (eq_of_forall_key h hkey hf hf' ▸ ho)
    · obtain ⟨key, hk, stop, rfl⟩ := exists_key_of_mem h hf
      exact (longestLength_findKey_lt hk ho).trans_le (List.length_filter_le _ _)

end Searched

section Unlimited

theorem findings_check (history : History) : (check model history).findings =
    (keys history).map fun key => findKey history key fun _ => false := by
  rw [check, findGroups_unlimited]
  exact List.map_map

theorem outcome_findKey_ne_aborted (history : History) (key : String) :
    (findKey history key fun _ => false).outcome ≠ .aborted := by
  rcases outcome_findGroup model history.toArray.toVector (positionsOf key history)
    (fun _ => rfl : ∀ visit, (fun _ => false) visit = false) with ⟨ho, _⟩ | ⟨ho, _⟩
  · simp [findKey, ho]
  · simp [findKey, ho]

theorem isGreatest_longestLength_findKey (history : History) (key : String) :
    IsGreatest (partialLengths model (ofKey key history).get)
      (findKey history key fun _ => false).longestLength := by
  let group := groupOperations history.toArray.toVector (positionsOf key history)
  have hp : (List.ofFn group.get).Perm (List.ofFn (ofKey key history).get) := by
    rw [List.ofFn_get, List.ofFn_eq_map, ← Problem.toList_eq_map_get, toList_groupOperations]
  rw [← partialLengths_eq_of_perm hp]
  exact isGreatest_partialLengths (outcome_findKey_ne_aborted history key)

/-- With no deadline the longest order told is the longest partial linearization of the operations
on any key. -/
theorem isGreatest_longestLength_check (history : History) :
    IsGreatest {k | ∃ key, k ∈ partialLengths model (ofKey key history).get}
      (check model history).longestLength := by
  obtain ⟨hm, hle⟩ := (check model history).isGreatest_longestLength
  rw [findings_check] at hm hle
  constructor
  · rcases hm with hz | ⟨finding, hf, he⟩
    · rw [hz]
      exact ⟨"", zero_mem_partialLengths _ _⟩
    · obtain ⟨key, _, rfl⟩ := List.mem_map.mp hf
      exact ⟨key, he ▸ (isGreatest_longestLength_findKey history key).1⟩
  · rintro k ⟨key, hk⟩
    by_cases hkey : key ∈ keys history
    · calc k
        _ ≤ (findKey history key fun _ => false).longestLength :=
          (isGreatest_longestLength_findKey history key).2 hk
        _ ≤ (check model history).longestLength :=
          hle (.inr ⟨_, List.mem_map_of_mem hkey, rfl⟩)
    · obtain ⟨order, ho, rfl⟩ := hk
      have hlen := ho.length_le
      have hz : (ofKey key history).length = 0 := by rw [ofKey_eq_nil hkey, List.length_nil]
      omega

end Unlimited

end Store

end Linearizability
