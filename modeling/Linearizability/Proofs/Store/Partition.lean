import Linearizability.Proofs.Store.Locality
import Mathlib.Data.List.Induction
import Mathlib.Data.List.Nodup

/-! # The groups of a history

One pass over a history gathers its groups: a position goes behind those of its key, and the first
position of a key starts a group behind all others. At every point of the pass each key met so far
has one group, with just its positions, and the groups are in the order of the first positions.
-/

namespace Linearizability

namespace Store

/-- Put a position into the group of an entry if the entry has its key. -/
def addTo (key : String) (i : Nat) (entry : String × List Nat) : String × List Nat :=
  if entry.1 = key then (key, entry.2 ++ [i]) else entry

/-- Put a position behind those of its key, or into a new group if the key has none. -/
def file (key : String) (i : Nat) : List (String × List Nat) → List (String × List Nat)
  | [] => [(key, [i])]
  | entry :: rest =>
    if entry.1 = key then addTo key i entry :: rest else entry :: file key i rest

/-- The groups of a history with their keys, gathered in one pass. -/
def gather (history : History) : List (String × List Nat) :=
  history.zipIdx.foldl (fun entries (record, i) => file record.input.key i entries) []

def firstPosition (history : History) (key : String) : Nat :=
  history.findIdx (·.input.key = key)

/-- The positions of a key that occurs, in ascending order. -/
structure IsGroup (history : History) (key : String) (group : List Nat) : Prop where
  ne_nil : group ≠ []
  ascending : group.Pairwise (· < ·)
  mem_iff : ∀ i, i ∈ group ↔ ∃ record, history[i]? = some record ∧ record.input.key = key

/-- What has been gathered of a history: the group of each key that occurs, in the order in which
the keys occur first. -/
structure Gathered (history : History) (entries : List (String × List Nat)) : Prop where
  covers : ∀ record ∈ history, record.input.key ∈ entries.map Prod.fst
  group : ∀ entry ∈ entries, IsGroup history entry.1 entry.2
  first_lt : entries.Pairwise fun e e' => firstPosition history e.1 < firstPosition history e'.1

variable {history : History} {record : Record} {key : String} {i : Nat} {group : List Nat}
  {entries : List (String × List Nat)} {entry : String × List Nat}

@[simp] theorem addTo_fst : (addTo key i entry).1 = entry.1 := by
  rw [addTo]
  split
  · rename_i h
    exact h.symm
  · rfl

theorem addTo_of_ne (h : entry.1 ≠ key) : addTo key i entry = entry :=
  if_neg h

theorem map_fst_map_addTo (entries : List (String × List Nat)) :
    (entries.map (addTo key i)).map Prod.fst = entries.map Prod.fst := by
  simp

theorem map_addTo_of_notMem (h : key ∉ entries.map Prod.fst) :
    entries.map (addTo key i) = entries := by
  conv_rhs => rw [← List.map_id entries]
  exact List.map_congr_left fun e he =>
    addTo_of_ne fun hk => h (List.mem_map.mpr ⟨e, he, hk⟩)

theorem file_of_mem (hn : (entries.map Prod.fst).Nodup) (hk : key ∈ entries.map Prod.fst) :
    file key i entries = entries.map (addTo key i) := by
  induction entries with
  | nil => cases hk
  | cons e rest ih =>
    rw [List.map_cons, List.nodup_cons] at hn
    rw [file, List.map_cons]
    split
    · rename_i he
      rw [map_addTo_of_notMem (he ▸ hn.1)]
    · rename_i he
      rw [ih hn.2 ((List.mem_cons.mp hk).resolve_left (Ne.symm he)), addTo_of_ne he]

theorem file_of_notMem (hk : key ∉ entries.map Prod.fst) :
    file key i entries = entries ++ [(key, [i])] := by
  induction entries with
  | nil => rfl
  | cons e rest ih =>
    rw [List.map_cons, List.mem_cons, not_or] at hk
    rw [file, if_neg (Ne.symm hk.1), ih hk.2, List.cons_append]

theorem gather_concat (history : History) (record : Record) :
    gather (history ++ [record]) = file record.input.key history.length (gather history) := by
  simp [gather, List.zipIdx_append]

theorem firstPosition_lt_iff :
    firstPosition history key < history.length ↔ ∃ record ∈ history, record.input.key = key := by
  simp [firstPosition, List.findIdx_lt_length]

theorem firstPosition_concat (h : ∃ record ∈ history, record.input.key = key) (record : Record) :
    firstPosition (history ++ [record]) key = firstPosition history key := by
  rw [firstPosition, List.findIdx_append]
  exact if_pos (firstPosition_lt_iff.mpr h)

theorem firstPosition_concat_self (h : ∀ r ∈ history, r.input.key ≠ record.input.key) :
    firstPosition (history ++ [record]) record.input.key = history.length := by
  rw [firstPosition, List.findIdx_append, if_neg]
  · simp
  · exact fun hlt => let ⟨r, hr, hk⟩ := firstPosition_lt_iff.mp hlt; h r hr hk

namespace IsGroup

theorem exists_mem (h : IsGroup history key group) :
    ∃ record ∈ history, record.input.key = key := by
  obtain ⟨i, hi⟩ := List.exists_mem_of_ne_nil group h.ne_nil
  obtain ⟨record, hr, hk⟩ := (h.mem_iff i).mp hi
  exact ⟨record, List.mem_of_getElem? hr, hk⟩

theorem lt_length (h : IsGroup history key group) (hi : i ∈ group) : i < history.length := by
  obtain ⟨record, hr, -⟩ := (h.mem_iff i).mp hi
  exact (List.getElem?_eq_some_iff.mp hr).1

theorem concat (h : IsGroup history entry.1 entry.2) (record : Record) :
    IsGroup (history ++ [record]) entry.1
      (addTo record.input.key history.length entry).2 := by
  rw [addTo]
  split
  · rename_i hk
    refine ⟨by simp, ?_, fun i => ?_⟩
    · refine List.pairwise_append.mpr ⟨h.ascending, List.pairwise_singleton _ _, ?_⟩
      intro i hi j hj
      exact List.mem_singleton.mp hj ▸ h.lt_length hi
    · have := h.mem_iff i
      grind
  · rename_i hk
    refine ⟨h.ne_nil, h.ascending, fun i => ?_⟩
    have := h.mem_iff i
    grind

theorem single (h : ∀ r ∈ history, r.input.key ≠ record.input.key) :
    IsGroup (history ++ [record]) record.input.key [history.length] := by
  refine ⟨by simp, List.pairwise_singleton _ _, fun i => ?_⟩
  grind

end IsGroup

namespace Gathered

theorem nodup (h : Gathered history entries) : (entries.map Prod.fst).Nodup :=
  List.pairwise_map.mpr (h.first_lt.imp fun hlt he => (he ▸ hlt).false)

theorem exists_mem (h : Gathered history entries) (he : entry ∈ entries) :
    ∃ record ∈ history, record.input.key = entry.1 :=
  (h.group entry he).exists_mem

theorem group_concat (h : Gathered history entries) (record : Record) :
    ∀ entry ∈ entries.map (addTo record.input.key history.length),
      IsGroup (history ++ [record]) entry.1 entry.2 := by
  intro entry hm
  obtain ⟨e, he, rfl⟩ := List.mem_map.mp hm
  rw [addTo_fst]
  exact (h.group e he).concat record

theorem first_lt_concat (h : Gathered history entries) (record : Record) :
    (entries.map (addTo record.input.key history.length)).Pairwise fun e e' =>
      firstPosition (history ++ [record]) e.1 < firstPosition (history ++ [record]) e'.1 := by
  refine List.pairwise_map.mpr (h.first_lt.imp_of_mem fun he he' hlt => ?_)
  rwa [addTo_fst, addTo_fst, firstPosition_concat (h.exists_mem he),
    firstPosition_concat (h.exists_mem he')]

theorem concat (h : Gathered history entries) (record : Record) :
    Gathered (history ++ [record]) (file record.input.key history.length entries) := by
  by_cases hk : record.input.key ∈ entries.map Prod.fst
  · rw [file_of_mem h.nodup hk]
    refine ⟨fun r hr => ?_, h.group_concat record, h.first_lt_concat record⟩
    rw [map_fst_map_addTo]
    rcases List.mem_append.mp hr with hr | hr
    · exact h.covers r hr
    · exact List.mem_singleton.mp hr ▸ hk
  · have hnew : ∀ r ∈ history, r.input.key ≠ record.input.key :=
      fun r hr he => hk (he ▸ h.covers r hr)
    have hgroup := h.group_concat record
    have hfirst := h.first_lt_concat record
    rw [map_addTo_of_notMem hk] at hgroup hfirst
    rw [file_of_notMem hk]
    refine ⟨fun r hr => ?_, ?_, ?_⟩
    · rw [List.map_append, List.mem_append]
      rcases List.mem_append.mp hr with hr | hr
      · exact .inl (h.covers r hr)
      · exact .inr (by simpa using congrArg (·.input.key) (List.mem_singleton.mp hr))
    · rw [List.forall_mem_append, List.forall_mem_singleton]
      exact ⟨hgroup, .single hnew⟩
    · refine List.pairwise_append.mpr ⟨hfirst, List.pairwise_singleton _ _, ?_⟩
      intro e he e' he'
      obtain rfl := List.mem_singleton.mp he'
      rw [firstPosition_concat (h.exists_mem he), firstPosition_concat_self hnew]
      exact firstPosition_lt_iff.mpr (h.exists_mem he)

/-- Each position is in one group, since no two entries have the same key. -/
theorem existsUnique (h : Gathered history entries) (hi : i < history.length) :
    ∃! g : Nat, ∃ group, (entries.map Prod.snd)[g]? = some group ∧ i ∈ group := by
  simp only [List.getElem?_map, Option.map_eq_some_iff]
  obtain ⟨entry, he, hk⟩ := List.mem_map.mp (h.covers history[i] (List.getElem_mem hi))
  obtain ⟨g, hg⟩ := List.mem_iff_getElem?.mp he
  have hmem : i ∈ entry.2 :=
    ((h.group entry he).mem_iff i).mpr ⟨history[i], List.getElem?_eq_getElem hi, hk.symm⟩
  refine ⟨g, ⟨entry.2, ⟨entry, hg, rfl⟩, hmem⟩, ?_⟩
  rintro g' ⟨_, ⟨entry', hg', rfl⟩, hi'⟩
  obtain ⟨record, hr, hk'⟩ := ((h.group entry' (List.mem_of_getElem? hg')).mem_iff i).mp hi'
  rw [List.getElem?_eq_getElem hi, Option.some.injEq] at hr
  have hkey : (entries.map Prod.fst)[g']? = (entries.map Prod.fst)[g]? := by
    rw [List.getElem?_map, List.getElem?_map, hg, hg', Option.map_some, Option.map_some, hk, hr,
      hk']
  have hlt : g' < (entries.map Prod.fst).length := by
    rw [List.length_map]
    exact (List.getElem?_eq_some_iff.mp hg').1
  exact (List.getElem?_inj hlt h.nodup).mp hkey

end Gathered

theorem gathered_gather (history : History) : Gathered history (gather history) := by
  induction history using List.reverseRecOn with
  | nil => exact ⟨by simp, by simp [gather], by simp [gather]⟩
  | append_singleton history record ih =>
    rw [gather_concat]
    exact ih.concat record

theorem keys_concat (history : History) (record : Record) :
    keys (history ++ [record]) =
      if record.input.key ∈ keys history then keys history
      else keys history ++ [record.input.key] := by
  rw [keys, List.map_append, List.eraseDups_append, List.map_singleton, keys]
  by_cases hk : record.input.key ∈ history.map (·.input.key)
  · have hrest : [record.input.key].removeAll (history.map (·.input.key)) = [] := by
      simpa [List.removeAll] using hk
    rw [hrest, if_pos (List.mem_eraseDups.mpr hk)]
    simp
  · have hrest : [record.input.key].removeAll (history.map (·.input.key)) =
        [record.input.key] := by
      simpa [List.removeAll] using hk
    rw [hrest, if_neg (mt List.mem_eraseDups.mp hk)]
    rfl

theorem positionsOf_concat (history : History) (record : Record) (key : String) :
    positionsOf key (history ++ [record]) =
      positionsOf key history ++ if record.input.key = key then [history.length] else [] := by
  rw [positionsOf, List.zipIdx_append, List.filterMap_append, Nat.zero_add, positionsOf]
  split
  · rename_i hk
    simp [hk]
  · rename_i hk
    simp [hk]

theorem positionsOf_eq_nil (h : key ∉ keys history) : positionsOf key history = [] := by
  rw [positionsOf, List.filterMap_eq_nil_iff]
  rintro ⟨record, i⟩ hm
  refine if_neg fun hk => h (mem_keys.mpr ⟨record, ?_, hk⟩)
  exact List.mem_of_getElem? (List.mem_zipIdx_iff_getElem?.mp hm)

/-- The positions of a key with one more operation are the old ones, with the new one if it is on
the key. -/
theorem addTo_positionsOf (history : History) (record : Record) (key : String) :
    addTo record.input.key history.length (key, positionsOf key history) =
      (key, positionsOf key (history ++ [record])) := by
  rw [positionsOf_concat, addTo]
  split
  · rename_i hk
    rw [if_pos hk.symm, ← hk]
  · rename_i hk
    rw [if_neg (Ne.symm hk), List.append_nil]

/-- The groups are what one pass over the history gathers. -/
theorem gather_eq (history : History) :
    gather history = (keys history).map fun key => (key, positionsOf key history) := by
  induction history using List.reverseRecOn with
  | nil => rfl
  | append_singleton history record ih =>
    have hfst : (gather history).map Prod.fst = keys history := by
      rw [ih, List.map_map]
      exact List.map_id _
    have hmap : (gather history).map (addTo record.input.key history.length) =
        (keys history).map fun key => (key, positionsOf key (history ++ [record])) := by
      rw [ih, List.map_map]
      exact List.map_congr_left fun key _ => addTo_positionsOf history record key
    rw [gather_concat, keys_concat]
    split
    · rename_i hk
      rw [file_of_mem (gathered_gather history).nodup (hfst ▸ hk), hmap]
    · rename_i hk
      rw [file_of_notMem (hfst ▸ hk), List.map_append, ← hmap, map_addTo_of_notMem (hfst ▸ hk),
        List.map_singleton, positionsOf_concat, positionsOf_eq_nil hk, if_pos rfl, List.nil_append]

theorem isGroup_positionsOf (h : key ∈ keys history) :
    IsGroup history key (positionsOf key history) := by
  refine (gathered_gather history).group (key, positionsOf key history) ?_
  rw [gather_eq]
  exact List.mem_map_of_mem h

theorem flatten_partition_perm (history : History) :
    (partition history).flatten.Perm (List.range history.length) := by
  have hn : ((keys history).flatMap (positionsOf · history)).Nodup := by
    rw [List.nodup_flatMap]
    refine ⟨fun key hk => (isGroup_positionsOf hk).ascending.imp Nat.ne_of_lt,
      (nodup_keys history).imp_of_mem fun hk hk' hne i hi hi' => ?_⟩
    obtain ⟨record, hr, rfl⟩ := ((isGroup_positionsOf hk).mem_iff i).mp hi
    obtain ⟨record', hr', rfl⟩ := ((isGroup_positionsOf hk').mem_iff i).mp hi'
    exact hne (congrArg (·.input.key) (Option.some.inj (hr.symm.trans hr')))
  rw [partition, ← List.flatMap_def]
  refine (List.perm_ext_iff_of_nodup hn List.nodup_range).mpr fun i => ?_
  rw [List.mem_flatMap, List.mem_range]
  constructor
  · rintro ⟨key, hk, hi⟩
    exact (isGroup_positionsOf hk).lt_length hi
  · intro hi
    have hk : history[i].input.key ∈ keys history :=
      mem_keys.mpr ⟨history[i], List.getElem_mem hi, rfl⟩
    exact ⟨_, hk, ((isGroup_positionsOf hk).mem_iff i).mpr
      ⟨history[i], List.getElem?_eq_getElem hi, rfl⟩⟩

theorem partition_eq_gather (history : History) :
    model.partition history = (gather history).map Prod.snd := by
  rw [gather_eq, List.map_map]
  rfl

/-- There is one group for each key that occurs, with all positions of the key in ascending order,
and the groups are in the order in which their keys occur first. So each position is in exactly
one group. -/
theorem partition_by_key (history : History) :
    (∃ keys : List String, keys.Nodup ∧
      (∀ key, key ∈ keys ↔ ∃ record ∈ history, record.input.key = key) ∧
      keys.Pairwise (fun key key' => firstPosition history key < firstPosition history key') ∧
      List.Forall₂ (IsGroup history) keys (model.partition history)) ∧
    (∀ i < history.length, ∃! g : Nat, ∃ group,
      (model.partition history)[g]? = some group ∧ i ∈ group) ∧
    ∀ group ∈ model.partition history, ∀ i ∈ group, i < history.length := by
  have h := gathered_gather history
  rw [partition_eq_gather]
  refine ⟨⟨(gather history).map Prod.fst, h.nodup, fun key => ⟨?_, ?_⟩, ?_, ?_⟩,
    fun i hi => h.existsUnique hi, ?_⟩
  · intro hm
    obtain ⟨entry, he, rfl⟩ := List.mem_map.mp hm
    exact h.exists_mem he
  · rintro ⟨record, hr, rfl⟩
    exact h.covers record hr
  · exact List.pairwise_map.mpr h.first_lt
  · rw [List.forall₂_map_left_iff, List.forall₂_map_right_iff, List.forall₂_same]
    exact h.group
  · intro group hm i hi
    obtain ⟨entry, he, rfl⟩ := List.mem_map.mp hm
    exact (h.group entry he).lt_length hi

end Store

end Linearizability
