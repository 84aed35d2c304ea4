import Linearizability.Proofs.Page.Rows
import Linearizability.Proofs.Report
import Linearizability.Proofs.Store.Partition

/-! # What a page shows of a check

The page of a check shows all that was found, whenever its searches are stopped: each operation of
the history has its row in the section of its key, the marked ones are those of the longest order
linearized there, and that order is replayed to its end.
-/

namespace Linearizability

variable {S I O : Type} {m : Nat}

/-! ## The longest order told -/

theorem Finding.mem_of_longest? {finding : Finding} {told : List Nat}
    (h : finding.longest? = some told) : told ∈ finding.partials := by
  rw [longest?] at h
  generalize finding.partials = partials at h ⊢
  induction partials using List.reverseRecOn generalizing told with
  | nil => cases h
  | append_singleton partials last ih =>
    rw [List.foldl_append, List.foldl_cons, List.foldl_nil] at h
    rw [List.mem_append, List.mem_singleton]
    split at h
    · exact .inr (Option.some.inj h).symm
    · split at h
      · exact .inr (Option.some.inj h).symm
      · exact .inl (ih h)

theorem Finding.longest_eq_nil_or_mem (finding : Finding) :
    finding.longest = [] ∨ finding.longest ∈ finding.partials := by
  rw [longest]
  cases h : finding.longest? with
  | none => exact .inl rfl
  | some told => exact .inr (mem_of_longest? h)

section Told

variable {model : Model S I O} {history : List (Operation I O)} {group : List Nat}
  {order : List (Fin (positionsWithin m group).length)}

theorem map_val_positionsWithin (m : Nat) (group : List Nat) :
    (positionsWithin m group).map Fin.val = group.filter (· < m) := by
  rw [positionsWithin, List.map_filterMap, ← List.filterMap_eq_filter]
  refine List.filterMap_congr fun i _ => ?_
  by_cases hi : i < m
  · simp [hi, Option.guard]
  · simp [hi, Option.guard]

theorem nodup_inHistory (hg : group.Nodup) (ho : order.Nodup) :
    (inHistory m group order).Nodup := by
  have hn : (positionsWithin m group).Nodup := by
    refine List.Nodup.of_map Fin.val ?_
    rw [map_val_positionsWithin]
    exact hg.filter _
  exact ho.map fun i j h => List.nodup_iff_injective_get.mp hn (Fin.val_injective h)

theorem inHistory_subset (m : Nat) (group : List Nat)
    (order : List (Fin (positionsWithin m group).length)) : inHistory m group order ⊆ group := by
  intro i hi
  obtain ⟨k, -, rfl⟩ := List.mem_map.mp hi
  have hk : ((positionsWithin m group).get k).val ∈ (positionsWithin m group).map Fin.val :=
    List.mem_map_of_mem (List.get_mem ..)
  rw [map_val_positionsWithin] at hk
  exact List.mem_of_mem_filter hk

theorem operationsAt_inHistory (history : List (Operation I O)) (group : List Nat)
    (order : List (Fin (positionsWithin history.toArray.size group).length)) :
    operationsAt history (inHistory history.toArray.size group order) =
      order.map (groupOperations history.toArray.toVector group).get := by
  rw [operationsAt, inHistory, List.filterMap_map, ← List.filterMap_eq_map]
  refine List.filterMap_congr fun i _ => ?_
  rw [Function.comp_apply, Function.comp_apply, get_groupOperations]
  exact List.getElem?_eq_getElem _

structure Replayable (model : Model S I O) (history : List (Operation I O))
    (group order : List Nat) : Prop where
  nodup : order.Nodup
  subset : order ⊆ group
  legal : ∃ s, model.replay ((operationsAt history order).map Operation.exchange) = .ok s

theorem Finding.Genuine.replayable {finding : Finding} (hg : group.Nodup)
    (h : finding.Genuine model history.toArray.toVector group) :
    Replayable model history group finding.longest := by
  rcases finding.longest_eq_nil_or_mem with hn | hm
  · rw [hn]
    exact ⟨List.nodup_nil, List.nil_subset _, model.init, rfl⟩
  · obtain ⟨-, order, ho, he⟩ := h.partials _ hm
    rw [he]
    refine ⟨nodup_inHistory hg ho.nodup, inHistory_subset _ _ _, ?_⟩
    rw [operationsAt_inHistory, List.map_map]
    exact ho.legal

end Told

/-! ## Sections -/

/-- A section shows all of a finding: no index is passed over, and no step is illegal. -/
structure GroupSection.Complete (model : Model S I O) (history : List (Operation I O))
    (finding : Finding) (s : GroupSection) : Prop where
  shows : s.Shows model history finding
  indices : s.operations.map OperationRow.index = finding.operations
  marked : ((s.operations.filter OperationRow.linearized).map OperationRow.index).Perm
    finding.longest
  legal : ∃ t, model.replay ((operationsAt history finding.longest).map Operation.exchange) = .ok t
  replay : s.replay.map ReplayRow.index = finding.longest

namespace Page

variable {model : Model S I O} {history : List (Operation I O)} {group order : List Nat}
  {finding : Finding}

theorem map_index_replayRows {n : Nat} {s t : S} (ho : ∀ i ∈ order, i < history.length)
    (h : model.after? s ((operationsAt history order).map Operation.exchange) = some t) :
    (replayRows model history.toArray n s order).map ReplayRow.index = order := by
  induction order generalizing n s with
  | nil => rfl
  | cons i order ih =>
    rw [List.forall_mem_cons] at ho
    have hi := List.getElem?_eq_getElem ho.1
    rw [operationsAt_cons hi, List.map_cons, Model.after?_cons, Option.bind_eq_some_iff] at h
    obtain ⟨u, hu, h⟩ := h
    rw [replayRows_cons hi hu, List.map_cons, ih ho.2 h]

theorem complete_sectionOf (index : Nat) (hg : group.Nodup) (hi : ∀ i ∈ group, i < history.length)
    (h : finding.Genuine model history.toArray.toVector group) :
    (sectionOf model history.toArray index finding).Complete model history finding := by
  have hshows := shows_sectionOf model history index finding
  have hr := h.replayable hg
  have hoperations : finding.operations = group := by
    rw [h.operations, map_val_positionsWithin]
    exact List.filter_eq_self.mpr fun i hm => decide_eq_true (hi i hm)
  have hindices : (sectionOf model history.toArray index finding).operations.map
      OperationRow.index = finding.operations := by
    rw [hshows.indices, hoperations]
    exact List.filter_eq_self.mpr fun i hm => decide_eq_true (hi i hm)
  refine ⟨hshows, hindices, ?_, hr.legal, ?_⟩
  · have hmarked : (sectionOf model history.toArray index finding).operations.filter
        OperationRow.linearized = (sectionOf model history.toArray index finding).operations.filter
          (finding.longest.contains ∘ OperationRow.index) :=
      List.filter_congr hshows.marked
    rw [hmarked, ← List.filter_map, hindices, hoperations]
    refine (List.perm_ext_iff_of_nodup (hg.filter _) hr.nodup).mpr fun i => ?_
    rw [List.mem_filter, List.contains_iff_mem]
    exact and_iff_right_of_imp fun hm => hr.subset hm
  · obtain ⟨t, ht⟩ := hr.legal
    exact map_index_replayRows (fun i hm => hi i (hr.subset hm)) (Model.replay_eq_ok_iff.mp ht)

theorem complete_of {findings : List Finding}
    (h : ∀ finding ∈ findings, ∃ group, group.Nodup ∧ (∀ i ∈ group, i < history.length) ∧
      finding.Genuine model history.toArray.toVector group) :
    List.Forall₂ (GroupSection.Complete model history) findings
      (Page.of model history findings).sections := by
  rw [Page.of, List.forall₂_iff_get]
  refine ⟨by simp, fun k hk _ => ?_⟩
  obtain ⟨group, hg, hi, hf⟩ := h _ (List.getElem_mem hk)
  simp only [List.get_eq_getElem, List.getElem_mapIdx]
  exact complete_sectionOf k hg hi hf

section Searched

variable {history : History} {conclusion : Conclusion}

/-- What the page of a history tells: the sections are those of its keys and show all of their
findings, and each operation of the history has one row. -/
structure Tells (history : History) (findings : List Finding) (page : Page) : Prop where
  written : parts page.write = page.sections.flatMap sectionParts
  groups : List.Forall₂ (fun key finding => Store.IsGroup history key finding.operations)
    (Store.keys history) findings
  sections : List.Forall₂ (GroupSection.Complete Store.model history) findings page.sections
  once : (page.sections.flatMap fun s => s.operations.map OperationRow.index).Perm
    (List.range history.length)

theorem operations_findKey {history : History} {key : String} (hk : key ∈ Store.keys history)
    (stop : Nat → Bool) :
    (Store.findKey history key stop).operations = Store.positionsOf key history := by
  rw [Store.findKey, findGroup_eq, map_val_positionsWithin]
  exact List.filter_eq_self.mpr fun i hi =>
    decide_eq_true ((Store.isGroup_positionsOf hk).lt_length hi)

theorem groups_of_searched (h : conclusion.Searched Store.model history) :
    List.Forall₂ (fun key finding => key ∈ Store.keys history ∧
      finding.operations = Store.positionsOf key history) (Store.keys history)
      conclusion.findings := by
  have hk := (List.forall₂_and_left (p := (· ∈ Store.keys history)) _ _).mpr
    ⟨fun _ hk => hk, Store.forall₂_of_searched h⟩
  refine hk.imp fun key finding => ?_
  rintro ⟨hk, stop, rfl⟩
  exact ⟨hk, operations_findKey hk stop⟩

theorem tells_of_searched (h : conclusion.Searched Store.model history) :
    (Page.of Store.model history conclusion.findings).Tells history conclusion.findings := by
  have hsections : List.Forall₂ (GroupSection.Complete Store.model history) conclusion.findings
      (Page.of Store.model history conclusion.findings).sections := by
    refine complete_of fun finding hf => ?_
    obtain ⟨key, hk, stop, rfl⟩ := Store.exists_key_of_mem h hf
    have hg := Store.isGroup_positionsOf hk
    exact ⟨_, hg.ascending.imp Nat.ne_of_lt, fun i => hg.lt_length, genuine_findGroup ..⟩
  refine ⟨parts_write _, (groups_of_searched h).imp fun key finding hf => ?_, hsections, ?_⟩
  · rw [hf.2]
    exact Store.isGroup_positionsOf hf.1
  · have hrows : (Page.of Store.model history conclusion.findings).sections.map
        (fun s => s.operations.map OperationRow.index) =
          conclusion.findings.map Finding.operations := by
      rw [← List.forall₂_eq_eq_eq, List.forall₂_map_left_iff, List.forall₂_map_right_iff]
      exact hsections.flip.imp fun s finding hs => hs.indices
    have hgroups : (Store.keys history).map (Store.positionsOf · history) =
        conclusion.findings.map Finding.operations := by
      rw [← List.forall₂_eq_eq_eq, List.forall₂_map_left_iff, List.forall₂_map_right_iff]
      exact (groups_of_searched h).imp fun key finding hf => hf.2.symm
    rw [List.flatMap_def, hrows, ← hgroups]
    exact Store.flatten_partition_perm history

end Searched

end Page

/-- The page of a history shows what was found on it: each key has a section, in which each of its
operations has one row, the operations of the longest order linearized are those marked, and each
step of that order is shown with the state that it leads to. This holds whenever the searches are
stopped. -/
theorem page_tells_findings (history : History) :
    (∀ conclusion : Conclusion, conclusion.Searched Store.model history →
      (Page.of Store.model history conclusion.findings).Tells history conclusion.findings) ∧
    ∀ clock stopOnFailure, (Page.of Store.model history
      (check Store.model history clock stopOnFailure).findings).Tells history
        (check Store.model history clock stopOnFailure).findings :=
  ⟨fun _ => Page.tells_of_searched,
    fun clock stopOnFailure => Page.tells_of_searched (searched_check _ _ clock stopOnFailure)⟩

/-- The read is refuted, so that only the write is linearized. -/
theorem page_tells_findings_twoKeys :
    (check Store.model (TwoKeys.history (.found "w"))).findings.map Finding.longest = [[0], [2]] ∧
      (Page.of Store.model (TwoKeys.history (.found "w"))
        (check Store.model (TwoKeys.history (.found "w"))).findings).Tells
          (TwoKeys.history (.found "w"))
          (check Store.model (TwoKeys.history (.found "w"))).findings := by
  refine ⟨?_, ?_⟩
  · simp only [check, TwoKeys.partition_history, findGroups, findGroup, Finding.at, problemAt,
      Problem.of, Timeline.of, Event.mergeSort_notAfter, Problem.search, Progress.result.eq_def,
      Longest.toList_eq_arrange, Longest.arrange_eq_insertionSort]
    decide +kernel
  · exact (page_tells_findings _).1 _ (searched_check _ _ _ _)

end Linearizability
