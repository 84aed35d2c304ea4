import Linearizability.History
import Linearizability.Proofs.Sorting

/-! # Merging histories

A merge has all records of its histories in the order of their calls, those called at the same time
in the order of their places, and there is only one such order. The records called at any one time
stay as they were, and a sorted list is made up of these: so histories can be merged in stages, and
in any order if no two of them have a call at the same time.
-/

namespace Linearizability

section Sorting

variable {α : Type} {time : α → Timestamp} {l l' : List α} {a : α}

theorem time_head_le (h : (a :: l).Pairwise fun a b => time a ≤ time b) :
    ∀ b ∈ a :: l, time a ≤ time b := by
  rw [List.forall_mem_cons]
  exact ⟨(time a).le_refl, (List.pairwise_cons.mp h).1⟩

theorem mem_iff_of_filter_eq (h : ∀ t, l.filter (time · = t) = l'.filter (time · = t)) :
    a ∈ l ↔ a ∈ l' := by
  have ha : a ∈ l.filter (time · = time a) ↔ a ∈ l'.filter (time · = time a) := by rw [h]
  simpa using ha

/-- A sorted list is told by what it has of each time. -/
theorem eq_of_filter_eq (hl : l.Pairwise fun a b => time a ≤ time b)
    (hl' : l'.Pairwise fun a b => time a ≤ time b)
    (h : ∀ t, l.filter (time · = t) = l'.filter (time · = t)) : l = l' := by
  induction l generalizing l' with
  | nil =>
    refine (List.eq_nil_iff_forall_not_mem.mpr fun a ha => ?_).symm
    exact List.not_mem_nil ((mem_iff_of_filter_eq h).mpr ha)
  | cons a l ih =>
    cases l' with
    | nil => exact absurd ((mem_iff_of_filter_eq h).mp List.mem_cons_self) List.not_mem_nil
    | cons b l' =>
      have htime : time b = time a :=
        Timestamp.le_antisymm
          (time_head_le hl' a ((mem_iff_of_filter_eq h).mp List.mem_cons_self))
          (time_head_le hl b ((mem_iff_of_filter_eq h).mpr List.mem_cons_self))
      obtain rfl : a = b := by
        have ha := h (time a)
        rw [List.filter_cons_of_pos (by simp), List.filter_cons_of_pos (by simp [htime])] at ha
        exact (List.cons.inj ha).1
      have htail : ∀ t, l.filter (time · = t) = l'.filter (time · = t) := by
        intro t
        have ht := h t
        rw [List.filter_cons, List.filter_cons] at ht
        split at ht
        · exact (List.cons.inj ht).2
        · exact ht
      rw [ih hl.of_cons hl'.of_cons htail]

theorem sortBy_congr (h : ∀ t, l.filter (time · = t) = l'.filter (time · = t)) :
    sortBy time l = sortBy time l' :=
  eq_of_filter_eq (pairwise_sortBy time l) (pairwise_sortBy time l') fun t => by
    rw [filter_sortBy, filter_sortBy, h]

end Sorting

namespace History

/-- A record with the position of its history among several, and its own position in it. -/
structure Placed where
  history : Nat
  position : Nat
  record : Record

def Placed.InFront (a b : Placed) : Prop :=
  a.history < b.history ∨ a.history = b.history ∧ a.position < b.position

def Placed.Before (a b : Placed) : Prop :=
  a.record.call < b.record.call ∨ a.record.call = b.record.call ∧ a.InFront b

theorem Placed.not_before_self (p : Placed) : ¬ p.Before p := by
  simp only [Before, InFront, Timestamp.lt_iff]
  omega

theorem Placed.Before.trans {a b c : Placed} (hab : a.Before b) (hbc : b.Before c) :
    a.Before c := by
  simp only [Before, InFront, Timestamp.lt_iff, ← Timestamp.toInt_inj] at *
  omega

/-- An order of all records of some histories by their calls, and by their places if they are called
at the same time. -/
structure Merges (histories : List History) (order : List Placed) : Prop where
  mem_iff : ∀ p, p ∈ order ↔ ∃ history, histories[p.history]? = some history ∧
    history[p.position]? = some p.record
  ascending : order.Pairwise Placed.Before

def placed (histories : List History) : List Placed :=
  histories.zipIdx.flatMap fun (history, i) => history.zipIdx.map fun (record, j) => ⟨i, j, record⟩

section Merging

variable {histories histories' : List History} {history : History} {order order' : List Placed}

theorem mem_placed {p : Placed} : p ∈ placed histories ↔
    ∃ history, histories[p.history]? = some history ∧ history[p.position]? = some p.record := by
  obtain ⟨i, j, record⟩ := p
  simp only [placed, List.mem_flatMap, List.mem_map, Prod.exists, List.mem_zipIdx_iff_getElem?,
    Placed.mk.injEq]
  constructor
  · rintro ⟨history, _, hi, _, _, hj, rfl, rfl, rfl⟩
    exact ⟨history, hi, hj⟩
  · rintro ⟨history, hi, hj⟩
    exact ⟨history, i, hi, record, j, hj, rfl, rfl, rfl⟩

theorem pairwise_snd_lt_zipIdx {α : Type} (l : List α) :
    l.zipIdx.Pairwise fun a b => a.2 < b.2 := by
  rw [← List.pairwise_map (f := Prod.snd), List.zipIdx_map_snd]
  exact List.pairwise_lt_range'

theorem pairwise_placed (histories : List History) :
    (placed histories).Pairwise Placed.InFront := by
  rw [placed, List.pairwise_flatMap]
  refine ⟨fun (history, i) _ => ?_, (pairwise_snd_lt_zipIdx histories).imp fun hlt a ha b hb => ?_⟩
  · exact List.pairwise_map.mpr ((pairwise_snd_lt_zipIdx history).imp fun hlt => .inr ⟨rfl, hlt⟩)
  · obtain ⟨_, -, rfl⟩ := List.mem_map.mp ha
    obtain ⟨_, -, rfl⟩ := List.mem_map.mp hb
    exact .inl hlt

theorem map_record_placed (histories : List History) :
    (placed histories).map Placed.record = histories.flatten := by
  have hrecords : ∀ entry : History × Nat,
      (entry.1.zipIdx.map fun (record, j) => Placed.mk entry.2 j record).map Placed.record =
        entry.1 := by
    intro entry
    rw [List.map_map]
    exact List.zipIdx_map_fst ..
  calc (placed histories).map Placed.record
      = histories.zipIdx.flatMap fun entry =>
          (entry.1.zipIdx.map fun (record, j) => Placed.mk entry.2 j record).map Placed.record :=
        List.map_flatMap ..
    _ = histories.zipIdx.flatMap Prod.fst := by simp only [hrecords]
    _ = (histories.zipIdx.map Prod.fst).flatten := List.flatMap_def
    _ = histories.flatten := by rw [List.zipIdx_map_fst]

theorem isSortedByCall_iff :
    history.isSortedByCall = true ↔ history.Pairwise fun a b => a.call ≤ b.call := by
  fun_induction isSortedByCall history with
  | case1 a b rest ih =>
    rw [Bool.and_eq_true, decide_eq_true_iff, ih]
    constructor
    · rintro ⟨hle, hrest⟩
      exact .cons (fun c hc => Timestamp.le_trans hle (time_head_le hrest c hc)) hrest
    · intro h
      exact ⟨time_head_le h b (by simp), h.of_cons⟩
  | case2 history hn =>
    match history with
    | [] => simp
    | [a] => simp
    | a :: b :: rest => exact absurd rfl (hn a b rest)

theorem merge_eq_insertionSort (histories : List History) : merge histories =
    histories.flatten.insertionSort fun a b => notLater (fun r : Record => r.call) a b = true :=
  sortBy_eq_insertionSort (fun record : Record => record.call) histories.flatten

theorem perm_merge (histories : List History) : (merge histories).Perm histories.flatten :=
  perm_sortBy _ histories.flatten

theorem pairwise_merge (histories : List History) :
    (merge histories).Pairwise fun a b => a.call ≤ b.call :=
  pairwise_sortBy _ histories.flatten

theorem filter_merge (histories : List History) (t : Timestamp) :
    (merge histories).filter (·.call = t) = histories.flatten.filter (·.call = t) :=
  filter_sortBy (·.call) histories.flatten t

theorem merges_sortBy (histories : List History) :
    Merges histories (sortBy (·.record.call) (placed histories)) where
  mem_iff _ := (perm_sortBy _ _).mem_iff.trans mem_placed
  ascending := pairwise_sortBy_of_pairwise (pairwise_placed histories)

theorem map_record_sortBy (histories : List History) :
    (sortBy (·.record.call) (placed histories)).map Placed.record = merge histories := by
  rw [← Function.comp_def (fun record : Record => record.call), map_sortBy, map_record_placed]
  rfl

theorem Merges.unique (h : Merges histories order) (h' : Merges histories order') :
    order = order' := by
  have : Std.Irrefl Placed.Before := ⟨Placed.not_before_self⟩
  have : Std.Antisymm Placed.Before :=
    ⟨fun a b hab hba => absurd (hab.trans hba) a.not_before_self⟩
  exact h.ascending.eq_of_mem_iff h'.ascending fun p => (h.mem_iff p).trans (h'.mem_iff p).symm

/-- The merge has each record of the histories once, in the order of calls and then of places, and
nothing else does. It is sorted, so sorting it changes nothing. -/
theorem merge_stable (histories : List History) :
    (∀ result, (∃ order, Merges histories order ∧ order.map Placed.record = result) ↔
        result = merge histories) ∧
      (merge histories).Perm histories.flatten ∧
      (merge histories).isSortedByCall = true ∧
      sortByCall (merge histories) = merge histories := by
  refine ⟨fun result => ⟨?_, ?_⟩, perm_merge histories, isSortedByCall_iff.mpr (pairwise_merge _),
    sortBy_eq_self (pairwise_merge histories)⟩
  · rintro ⟨order, h, rfl⟩
    rw [h.unique (merges_sortBy histories), map_record_sortBy]
  · rintro rfl
    exact ⟨_, merges_sortBy histories, map_record_sortBy histories⟩

/-- No two of the histories have a call at the same time. -/
def Untied (histories : List History) : Prop :=
  histories.Pairwise fun h h' => ∀ a ∈ h, ∀ b ∈ h', a.call ≠ b.call

instance (histories : List History) : Decidable (Untied histories) :=
  inferInstanceAs (Decidable (histories.Pairwise fun h h' => ∀ a ∈ h, ∀ b ∈ h', a.call ≠ b.call))

theorem merge_congr (h : ∀ t, histories.flatten.filter (·.call = t) =
    histories'.flatten.filter (·.call = t)) : merge histories = merge histories' :=
  sortBy_congr h

theorem filter_flatten_map_merge (groups : List (List History)) (t : Timestamp) :
    (groups.map merge).flatten.filter (·.call = t) =
      groups.flatten.flatten.filter (·.call = t) := by
  induction groups with
  | nil => rfl
  | cons group groups ih =>
    rw [List.map_cons, List.flatten_cons, List.filter_append, filter_merge, ih, List.flatten_cons,
      List.flatten_append, List.filter_append]

/-- Records called at one time are all in one history, so it does not matter where it is. -/
theorem filter_flatten_of_perm (hp : histories.Perm histories') (hu : Untied histories)
    (t : Timestamp) :
    histories.flatten.filter (·.call = t) = histories'.flatten.filter (·.call = t) := by
  induction hp with
  | nil => rfl
  | cons h _ ih =>
    rw [List.flatten_cons, List.flatten_cons, List.filter_append, List.filter_append,
      ih hu.of_cons]
  | swap h h' rest =>
    -- at any time one of the two histories has nothing
    have hne := (List.pairwise_cons.mp hu).1 h List.mem_cons_self
    have hnone : h.filter (·.call = t) = [] ∨ h'.filter (·.call = t) = [] := by
      rw [or_iff_not_imp_left]
      intro hn
      obtain ⟨a, ha⟩ := List.exists_mem_of_ne_nil _ hn
      rw [List.filter_eq_nil_iff]
      intro b hb
      simp only [List.mem_filter, decide_eq_true_eq] at ha ⊢
      exact fun hbt => hne b hb a ha.1 (hbt.trans ha.2.symm)
    simp only [List.flatten_cons, List.filter_append]
    rcases hnone with hn | hn
    · rw [hn, List.nil_append, List.nil_append]
    · rw [hn, List.nil_append, List.nil_append]
  | trans hp _ ih ih' =>
    exact (ih hu).trans (ih' (hu.perm hp fun hab a ha b hb => (hab b hb a ha).symm))

/-- Histories can be merged in stages, and in any order if no two of them have a call at the same
time. -/
theorem merge_regrouped (histories histories' : List History) :
    merge (histories ++ histories') = merge [merge histories, merge histories'] ∧
      (∀ groups : List (List History), merge groups.flatten = merge (groups.map merge)) ∧
      ∀ shuffled, shuffled.Perm histories → Untied histories →
        merge shuffled = merge histories := by
  have hstages : ∀ groups : List (List History),
      merge groups.flatten = merge (groups.map merge) :=
    fun groups => merge_congr fun t => (filter_flatten_map_merge groups t).symm
  refine ⟨?_, hstages, fun shuffled hp hu => ?_⟩
  · simpa using hstages [histories, histories']
  · exact (merge_congr (filter_flatten_of_perm hp.symm hu)).symm

end Merging

namespace Tied

/-- Two calls at the same time in the first history, which is not in order. -/
def histories : List History :=
  [[⟨⟨1⟩, .put "k" "v", ⟨5⟩, .ok, ⟨6⟩⟩, ⟨⟨1⟩, .get "k", ⟨5⟩, .found "v", ⟨5⟩⟩,
      ⟨⟨1⟩, .delete "l", ⟨-3⟩, .ok, ⟨0⟩⟩],
    [⟨⟨2⟩, .get "l", ⟨4⟩, .notFound, ⟨9⟩⟩],
    [⟨⟨3⟩, .put "l" "", ⟨9⟩, ⟨none, none⟩, ⟨9⟩⟩, ⟨⟨1⟩, .get "k", ⟨-4⟩, .notFound, ⟨2⟩⟩]]

end Tied

theorem merge_regrouped_tied :
    Untied Tied.histories ∧ Tied.histories.reverse ≠ Tied.histories ∧
      merge Tied.histories.reverse = merge Tied.histories ∧
      (merge Tied.histories).map (fun record => (record.call.raw, record.ret.raw)) =
        [(-4, 2), (-3, 0), (4, 9), (5, 6), (5, 5), (9, 9)] := by
  have huntied : Untied Tied.histories := by decide
  obtain ⟨-, -, hshuffled⟩ := merge_regrouped Tied.histories []
  refine ⟨huntied, by decide, hshuffled _ (List.reverse_perm _) huntied, ?_⟩
  rw [merge_eq_insertionSort]
  decide +kernel

/-- Two histories with a call at the same time are merged in the order in which they come. -/
example :
    (merge [[⟨⟨1⟩, .get "k", ⟨7⟩, .notFound, ⟨8⟩⟩], [⟨⟨2⟩, .get "k", ⟨7⟩, .notFound, ⟨7⟩⟩]]).map
        (·.client.id) = [1, 2] ∧
      (merge [[⟨⟨2⟩, .get "k", ⟨7⟩, .notFound, ⟨7⟩⟩], [⟨⟨1⟩, .get "k", ⟨7⟩, .notFound, ⟨8⟩⟩]]).map
        (·.client.id) = [2, 1] := by
  simp only [merge_eq_insertionSort]
  decide +kernel

end History

end Linearizability
