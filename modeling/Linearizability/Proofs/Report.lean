import Linearizability.Proofs.Run
import Linearizability.Proofs.Search.Told
import Linearizability.Proofs.Store.Findings

/-! # What reports tell

A report agrees with the verdict it gives: its longest order has all operations of the largest
group of a linearizable history, and fewer operations than any other history. With no deadline,
all that a report tells without naming files depends on the records alone, and not on their order.
-/

namespace Linearizability

def Engine.Searches (engine : Engine Id) : Prop :=
  ∀ history timeout, (engine history timeout).run.Searched Store.model history

theorem searches_clockedEngine (clock : UInt64 → Clock) (stopOnFailure : Bool) :
    (clockedEngine clock stopOnFailure).Searches :=
  fun history _ => searched_check Store.model history _ stopOnFailure

/-- The report of a check, whatever files there are. -/
def reportOf (engine : Engine Id) (config : Config) (history : History) (source : Path)
    (tree : FileTree) : Report :=
  (((checkHistory engine config history source).run tree).run).1

/-- What a report tells, without the files it names. -/
def Report.figures (report : Report) : Verdict × Nat × Nat :=
  (report.verdict, report.operations, report.longest)

section ReportOf

variable {config : Config} {history history' : History} {report report' : Report}

theorem reportOf_eq (engine : Engine Id) (config : Config) (hn : history ≠ []) (source : Path)
    (tree : FileTree) : ∃ page, reportOf engine config history source tree =
    { path := source
      page
      verdict := (engine history config.timeout).run.verdict
      operations := history.length
      longest := (engine history config.timeout).run.longestLength } := by
  cases history with
  | nil => exact absurd rfl hn
  | cons record history => exact ⟨_, rfl⟩

/-- A report that tells all of a history that can be told without naming its operations. -/
structure Report.Tells (report : Report) (history : History) : Prop where
  verdict : report.verdict.Tells history
  operations : report.operations = history.length
  longest : IsGreatest {k | ∃ key, k ∈ partialLengths Store.model (Store.ofKey key history).get}
    report.longest

theorem Report.Tells.of_perm (h : report.Tells history) (hp : history.Perm history') :
    report.Tells history' := by
  refine ⟨h.verdict.of_perm hp, h.operations.trans hp.length_eq, ?_⟩
  have hs : ∀ key, partialLengths Store.model (Store.ofKey key history).get =
      partialLengths Store.model (Store.ofKey key history').get := by
    intro key
    apply partialLengths_eq_of_perm
    rw [List.ofFn_get, List.ofFn_get]
    exact hp.filter _
  simpa only [hs] using h.longest

theorem Verdict.Tells.eq {verdict verdict' : Verdict} (h : verdict.Tells history)
    (h' : verdict'.Tells history) : verdict = verdict' := by
  by_cases hl : Linearizable Store.model history
  · rw [h.linearizable_iff.mpr hl, h'.linearizable_iff.mpr hl]
  · rw [h.notLinearizable_iff.mpr hl, h'.notLinearizable_iff.mpr hl]

theorem Report.Tells.figures_eq (h : report.Tells history) (h' : report'.Tells history) :
    report.figures = report'.figures := by
  rw [figures, figures, h.verdict.eq h'.verdict, h.operations, h'.operations,
    h.longest.unique h'.longest]

theorem tells_reportOf (clock : UInt64 → Clock) (h : config.timeoutSeconds = 0)
    (history : History) (source : Path) (tree : FileTree) :
    (reportOf (clockedEngine clock false) config history source tree).Tells history := by
  have hv := tells_checkHistory clock false h history source tree
  by_cases hn : history = []
  · -- the engine is not asked, but would have found as much
    subst hn
    exact ⟨hv, rfl, Store.isGreatest_longestLength_check []⟩
  · have ht : config.timeout = none := if_pos h
    obtain ⟨page, he⟩ := reportOf_eq (clockedEngine clock false) config hn source tree
    refine ⟨hv, by rw [he], ?_⟩
    rw [he, ht]
    exact Store.isGreatest_longestLength_check history

end ReportOf

/-- The outcome on a group agrees with the orders told of it, whenever its search is stopped, and
so do the figures of a report. -/
theorem figures_consistent {S I O : Type} [DecidableEq S] (model : Model S I O)
    (operations : List (Operation I O)) :
    (∀ group stop, (findGroup model operations.toArray.toVector group stop).operations ≠ [] →
        (findGroup model operations.toArray.toVector group stop).Consistent) ∧
      (∀ clock stopOnFailure, ∀ finding ∈ (check model operations clock stopOnFailure).findings,
        finding.operations ≠ [] → finding.Consistent) ∧
      ∀ engine config history source tree, Engine.Searches engine → history ≠ [] →
        ((reportOf engine config history source tree).verdict = .linearizable →
          IsGreatest {k | ∃ group ∈ Store.partition history, group.length = k}
            (reportOf engine config history source tree).longest) ∧
        ((reportOf engine config history source tree).verdict ≠ .linearizable →
          (reportOf engine config history source tree).longest <
            (reportOf engine config history source tree).operations) := by
  refine ⟨fun group stop => consistent_findGroup, fun clock stopOnFailure finding hf hne => ?_,
    fun engine config history source tree hs hn => ?_⟩
  · obtain ⟨group, _, stop, rfl⟩ :=
      exists_mem_of_forall₂ (searched_check model operations clock stopOnFailure).findings.flip hf
    exact consistent_findGroup hne
  · obtain ⟨page, he⟩ := reportOf_eq engine config hn source tree
    rw [he]
    exact ⟨Store.isGreatest_length_group (hs _ _) hn, Store.longestLength_lt (hs _ _) hn⟩

namespace TwoKeys

/-- A value is written while the key is read, and there is a request for another key. -/
def history (read : Response) : History :=
  [⟨⟨1⟩, .put "k" "v", ⟨1⟩, .ok, ⟨4⟩⟩, ⟨⟨2⟩, .get "k", ⟨1⟩, read, ⟨3⟩⟩,
    ⟨⟨2⟩, .delete "l", ⟨4⟩, .ok, ⟨4⟩⟩]

def report (timeoutSeconds : UInt64) (history : History) : Report :=
  reportOf (clockedEngine (fun _ => .expired) false) { timeoutSeconds, visualize := false } history
    ⟨"history"⟩ (.empty .root)

theorem partition_history (read : Response) :
    Store.model.partition (history read) = [[0, 1], [2]] :=
  rfl

end TwoKeys

theorem figures_consistent_twoKeys :
    (findGroup Store.model (TwoKeys.history (.found "v")).toArray.toVector [0, 1]
        fun _ => true).Consistent ∧
      (Store.findKey (TwoKeys.history (.found "v")) "l" fun _ => false).Consistent ∧
      (TwoKeys.report 30 (TwoKeys.history (.found "v"))).verdict = .linearizable ∧
      IsGreatest {k | ∃ group ∈ Store.partition (TwoKeys.history (.found "v")), group.length = k}
        (TwoKeys.report 30 (TwoKeys.history (.found "v"))).longest ∧
      (TwoKeys.report 30 (TwoKeys.history (.found "w"))).verdict = .notLinearizable ∧
      (TwoKeys.report 30 (TwoKeys.history (.found "w"))).longest < 3 := by
  obtain ⟨hgroup, hcheck, hreport⟩ :=
    figures_consistent Store.model (TwoKeys.history (.found "v"))
  have hf : Store.findKey (TwoKeys.history (.found "v")) "l" (fun _ => false) ∈
      (check Store.model (TwoKeys.history (.found "v"))).findings := by
    rw [Store.findings_check]
    exact List.mem_map_of_mem (Store.mem_keys.mpr ⟨_, List.mem_of_getLast? rfl, rfl⟩)
  have hs := searches_clockedEngine (fun _ => .expired) false
  have hl : (TwoKeys.report 30 (TwoKeys.history (.found "v"))).verdict = .linearizable := by
    change (check Store.model (TwoKeys.history (.found "v")) .expired).verdict = _
    simp only [check, TwoKeys.partition_history, findGroups, findGroup, Finding.at, problemAt,
      Problem.of, Timeline.of, Event.mergeSort_notAfter]
    decide +kernel
  have hn : (TwoKeys.report 30 (TwoKeys.history (.found "w"))).verdict = .notLinearizable := by
    change (check Store.model (TwoKeys.history (.found "w")) .expired).verdict = _
    simp only [check, TwoKeys.partition_history, findGroups, findGroup, Finding.at, problemAt,
      Problem.of, Timeline.of, Event.mergeSort_notAfter]
    decide +kernel
  have hne : (TwoKeys.report 30 (TwoKeys.history (.found "w"))).verdict ≠ .linearizable :=
    fun h => absurd (hn.symm.trans h) (by decide)
  refine ⟨hgroup [0, 1] (fun _ => true) (by decide), hcheck .unlimited false _ hf (by decide), hl,
    ?_, hn, ?_⟩
  · exact (hreport _ _ _ _ _ hs (List.cons_ne_nil _ _)).1 hl
  · exact (hreport _ _ _ _ _ hs (List.cons_ne_nil _ _)).2 hne

/-- With no deadline the figures of a report do not depend on the order of the records, nor do
those for merged histories on the order in which they are merged. -/
theorem figures_eq_of_perm (clock : UInt64 → Clock) (config : Config)
    (h : config.timeoutSeconds = 0) :
    (∀ history history' source source' tree tree', history.Perm history' →
      (reportOf (clockedEngine clock false) config history source tree).figures =
        (reportOf (clockedEngine clock false) config history' source' tree').figures) ∧
    ∀ histories histories' source source' tree tree', histories.Perm histories' →
      (reportOf (clockedEngine clock false) config (History.merge histories) source tree).figures =
        (reportOf (clockedEngine clock false) config (History.merge histories') source'
          tree').figures := by
  have hperm : ∀ history history' source source' tree tree', history.Perm history' →
      (reportOf (clockedEngine clock false) config history source tree).figures =
        (reportOf (clockedEngine clock false) config history' source' tree').figures := by
    intro history history' source source' tree tree' hp
    have ht := tells_reportOf clock h history source tree
    exact (ht.of_perm hp).figures_eq (tells_reportOf clock h history' source' tree')
  refine ⟨hperm, fun histories histories' source source' tree tree' hp => ?_⟩
  apply hperm
  exact (List.mergeSort_perm _ _).trans (hp.flatten.trans (List.mergeSort_perm _ _).symm)

theorem figures_eq_of_perm_twoKeys :
    (TwoKeys.report 0 (TwoKeys.history (.found "v")).reverse).figures = (.linearizable, 3, 2) ∧
      (TwoKeys.report 0 (History.merge Overlap.histories.reverse)).figures =
        (TwoKeys.report 0 (History.merge Overlap.histories)).figures := by
  have hf : (TwoKeys.report 0 (TwoKeys.history (.found "v"))).figures = (.linearizable, 3, 2) := by
    change ((check Store.model (TwoKeys.history (.found "v"))).verdict, 3,
      (check Store.model (TwoKeys.history (.found "v"))).longestLength) = _
    simp only [check, TwoKeys.partition_history, findGroups, findGroup, Finding.at, problemAt,
      Problem.of, Timeline.of, Event.mergeSort_notAfter, Problem.search, Progress.result.eq_def,
      Longest.toList_eq_arrange, Longest.arrange_eq_insertionSort]
    decide +kernel
  obtain ⟨hperm, hmerge⟩ := figures_eq_of_perm (fun _ => .expired)
    { timeoutSeconds := 0, visualize := false } rfl
  constructor
  · rw [← hf]
    exact hperm _ _ _ _ _ _ (List.reverse_perm _)
  · exact hmerge _ _ _ _ _ _ (List.reverse_perm _)

end Linearizability
