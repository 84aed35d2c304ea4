import Linearizability.Run
import Linearizability.Proofs.Check
import Linearizability.Proofs.Store.Locality

/-! # The verdict of a run

A run with no deadline tells whether its history is linearizable, and never leaves it open. The
history may be in one file or in several; merging them only brings the records into another
order.
-/

namespace Linearizability

structure Verdict.Tells (verdict : Verdict) (history : History) : Prop where
  linearizable_iff : verdict = .linearizable ↔ Linearizable Store.model history
  notLinearizable_iff : verdict = .notLinearizable ↔ ¬ Linearizable Store.model history

/-- The search as an engine; if its time is limited, the clock tells when it is over. -/
def clockedEngine (clock : UInt64 → Clock) (stopOnFailure : Bool) : Engine Id :=
  fun history timeout =>
    check Store.model history ((timeout.map clock).getD .unlimited) stopOnFailure

/-- The search that never stops early is the engine with a clock that never comes to an end. -/
theorem searchEngine_eq : searchEngine = clockedEngine (fun _ => .unlimited) false := by
  funext history timeout
  cases timeout <;> rfl

variable {config : Config} {history history' : History} {verdict : Verdict}

theorem Verdict.Tells.of_perm (h : verdict.Tells history) (hp : history.Perm history') :
    verdict.Tells history' := by
  have hl := linearizable_perm Store.model hp
  exact ⟨h.linearizable_iff.trans hl, h.notLinearizable_iff.trans (not_congr hl)⟩

variable (clock : UInt64 → Clock) (stopOnFailure : Bool)

theorem tells_clockedEngine (history : History) :
    ((clockedEngine clock stopOnFailure history none).run).verdict.Tells history := by
  have hg : Linearizable Store.model history ↔ ∀ group ∈ Store.model.partition history,
      Linearizable Store.model (operationsAt history group) :=
    (Store.linearizable_iff_forall_ofKey history).trans (Store.forall_group_iff history).symm
  obtain ⟨hl, hn⟩ := check_verdict_iff Store.model history stopOnFailure
  exact ⟨hl.trans hg.symm, hn.trans (not_congr hg.symm)⟩

theorem tells_checkHistory (h : config.timeoutSeconds = 0) (history : History) (source : Path)
    (tree : FileTree) :
    (((checkHistory (clockedEngine clock stopOnFailure) config history source).run
      tree).run).1.verdict.Tells history := by
  cases history with
  | nil =>
    have hl := linearizable_nil Store.model
    exact ⟨iff_of_true rfl hl, iff_of_false nofun (not_not_intro hl)⟩
  | cons a history =>
    have ht : config.timeout = none := if_pos h
    have he := tells_clockedEngine clock stopOnFailure (a :: history)
    rw [← ht] at he
    exact he

theorem gather_of_loadAll {tree : FileTree} {first second : Path} {rest : List Path}
    {histories : List History}
    (hl : Trace.loadAll tree (first :: second :: rest) = .ok histories)
    (hw : (Trace.write tree (Trace.mergedPath first) (History.merge histories)).1 = .ok ()) :
    ∃ tree', Run.gather tree (first :: second :: rest) =
      (.ok (some (Trace.mergedPath first), History.merge histories, Trace.mergedPath first),
        tree') := by
  cases hm : Trace.write tree (Trace.mergedPath first) (History.merge histories) with
  | mk written tree' =>
    obtain rfl : written = .ok () := by rw [← hw, hm]
    exact ⟨tree', by simp [Run.gather, Trace.mergeFiles, hl, hm]⟩

namespace Overlap

/-- A value written by one client, and read by another one in the meantime. -/
def histories : List History :=
  [[⟨⟨1⟩, .put "k" "v", ⟨1⟩, .ok, ⟨4⟩⟩], [⟨⟨2⟩, .get "k", ⟨2⟩, .found "v", ⟨3⟩⟩]]

def paths : List Path := [⟨"first"⟩, ⟨"second"⟩]

def tree : FileTree :=
  (paths.zip histories).foldl (fun tree (path, history) => (Trace.write tree path history).2)
    (.empty .root)

end Overlap

theorem eq_ok_of_toOption {ε α : Type} {x : Except ε α} {a : α} (h : x.toOption = some a) :
    x = .ok a := by
  cases x with
  | error e => cases h
  | ok b => exact congrArg _ (Option.some.inj h)

/-- With no deadline the verdict on a history tells whether it is linearizable, and so does that
on several files for the records of all of them. -/
theorem verdict_tells (config : Config) (h : config.timeoutSeconds = 0) :
    (∀ history source tree,
      (((checkHistory (clockedEngine clock stopOnFailure) config history source).run
        tree).run).1.verdict.Tells history) ∧
    ∀ tree first second rest histories,
      Trace.loadAll tree (first :: second :: rest) = .ok histories →
      (Trace.write tree (Trace.mergedPath first) (History.merge histories)).1 = .ok () →
      ∃ result,
        (((run (clockedEngine clock stopOnFailure) config (first :: second :: rest)).run
          tree).run).1 = .ok result ∧
        result.report.verdict.Tells histories.flatten := by
  refine ⟨tells_checkHistory clock stopOnFailure h, ?_⟩
  intro tree first second rest histories hl hw
  obtain ⟨tree', hg⟩ := gather_of_loadAll hl hw
  have ht := tells_checkHistory clock stopOnFailure h (History.merge histories)
    (Trace.mergedPath first) tree'
  refine ⟨⟨some (Trace.mergedPath first), _⟩, ?_, ht.of_perm (List.mergeSort_perm _ _)⟩
  simp [run, hg]

theorem verdict_tells_overlap :
    ∃ result,
      (((run (clockedEngine (fun _ => .expired) true) { timeoutSeconds := 0 } Overlap.paths).run
        Overlap.tree).run).1 = .ok result ∧
      result.report.verdict = .linearizable := by
  have hl : Trace.loadAll Overlap.tree Overlap.paths = .ok Overlap.histories :=
    eq_ok_of_toOption (by decide +kernel)
  have hw : (Trace.write Overlap.tree (Trace.mergedPath ⟨"first"⟩)
      (History.merge Overlap.histories)).1 = .ok () :=
    eq_ok_of_toOption (by decide +kernel)
  obtain ⟨result, hr, ht⟩ := (verdict_tells (fun _ => .expired) true { timeoutSeconds := 0 }
    rfl).2 Overlap.tree ⟨"first"⟩ ⟨"second"⟩ [] Overlap.histories hl hw
  refine ⟨result, hr, ht.linearizable_iff.mpr ?_⟩
  exact ⟨Overlap.histories.flatten, .rfl, by decide, _, rfl⟩

end Linearizability
