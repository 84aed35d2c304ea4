import Linearizability.Proofs.Artifacts
import Linearizability.Proofs.Files.Repeat
import Mathlib.Data.Set.BooleanAlgebra
import Mathlib.Order.CompletePartialOrder

/-! # Runs repeated

A run that writes over none of its histories leaves them as they are, and finds the same again when
it is repeated.
-/

namespace Linearizability

open FileTree

variable {tree tree' tree₁ : FileTree} {path source : Path} {history : History} {paths : List Path}
  {touched : Set Location}

theorem FileTree.getLast?_locate {l : Location} {c : Char} (hl : tree.locate path = .ok l)
    (h : path.text.toList.getLast? = some c) (hslash : c ≠ '/') (hdot : c ≠ '.') :
    ∃ name, l.names.getLast? = some name ∧ name.toList.getLast? = some c := by
  obtain ⟨name, hn, hc⟩ := Path.getLast?_names h hslash
  obtain ⟨names, hnames⟩ := List.getLast?_eq_some_iff.mp hn
  have hends : path.endsInSlash = false := by simp [Path.endsInSlash, h, hslash]
  obtain ⟨start, -, hw⟩ := exists_of_bind_eq_ok hl
  simp only [hends, Bool.false_eq_true, if_false, List.append_nil, hnames, walk_append] at hw
  obtain ⟨d, -, hw⟩ := exists_of_bind_eq_ok hw
  rw [walk_cons] at hw
  split at hw
  · cases hw
  · obtain ⟨l', he, hw⟩ := exists_of_bind_eq_ok hw
    cases hw
    have hne : ∀ {s : String}, s.toList.getLast? = some '.' → name ≠ s := by
      rintro s hs rfl
      exact hdot (Option.some.inj (hc.symm.trans hs))
    rw [Location.enter, if_neg (hne (by decide)), if_neg (hne (by decide))] at he
    split at he
    · cases he
    · cases he
      exact ⟨name, by simp [Location.child], hc⟩
  · cases hw

namespace Trace

theorem getLast?_mergedPath (first : Path) :
    (mergedPath first).text.toList.getLast? = some 'n' := by
  unfold mergedPath
  split
  · rfl
  · exact Path.getLast?_join (by decide)

theorem load_congr (h : tree'.entryAt path = tree.entryAt path) :
    load tree' path = load tree path := by
  rw [load, load, h]

theorem loadAll_congr (h : ∀ path ∈ paths, tree'.entryAt path = tree.entryAt path) :
    loadAll tree' paths = loadAll tree paths := by
  induction paths with
  | nil => rfl
  | cons path paths ih =>
    rw [List.forall_mem_cons] at h
    rw [loadAll, loadAll, load_congr h.1, ih h.2]

theorem exists_load_of_loadAll {histories : List History}
    (h : loadAll tree paths = .ok histories) :
    ∀ path ∈ paths, ∃ history, load tree path = .ok history := by
  intro path hp
  have hload : load tree path ∈ histories.map .ok := by
    rw [← map_load_of_loadAll h]
    exact List.mem_map_of_mem hp
  obtain ⟨history, -, hload⟩ := List.mem_map.mp hload
  exact ⟨history, hload.symm⟩

theorem entryAt_of_load (h : load tree path = .ok history) :
    ∃ content, tree.entryAt path = .ok (.file content) := by
  rw [load] at h
  split at h
  · cases h
  · rename_i entry ho
    cases entry with
    | directory => cases h
    | file content => exact ⟨content, ho⟩
    | full => cases h

/-- A history that is in a file is written to it again without any change. -/
theorem write_again (hw : write tree path history = (.ok (), tree₁))
    (hs : Spares touched tree₁ tree') (hd : Disjoint (tree₁.places path) touched) :
    write tree' path history = (.ok (), tree') := by
  unfold write at hw
  split at hw
  · cases hw
  · rename_i location tree₂ hc
    split at hw
    · rename_i hwrite
      cases hw
      have hspares := spares_write_of_create hc (history.toJson.pieces .pretty 0)
      rw [hwrite] at hspares
      have hl := Set.disjoint_left.mp hd (hspares.locate (create_cases hc).1)
      obtain ⟨tree₃, hc', hw'⟩ := FileTree.write_again hc hwrite hs hl
      simp only [write, hc', hw']
    · cases hw
    · cases hw

end Trace

namespace Config

variable {config : Config} {page : Page} {conclusion : Conclusion} {page? : Option Path}

theorem getLast?_pagePath (config : Config) (source : Path) :
    (config.pagePath source).text.toList.getLast? = some 'l' := by
  apply Path.getLast?_join
  simp

theorem prepare_again {fault : FileFault} (h : config.prepare tree = (.error fault, tree')) :
    ∃ fault', config.prepare tree' = (.error fault', tree') := by
  unfold prepare at h ⊢
  split at h
  · cases h
  · exact prepareDirectory_again h

theorem prepare_of_spares (h : config.prepare tree = (.ok (), tree₁))
    (hs : Spares touched tree₁ tree') : config.prepare tree' = (.ok (), tree') := by
  unfold prepare at h ⊢
  split at h
  · rfl
  · exact prepareDirectory_of_spares h hs

theorem writePage_again {outcome : Except FileFault Unit}
    (h : config.writePage tree path page = (outcome, tree')) :
    ∃ outcome', config.writePage tree' path page = (outcome', tree') ∧
      (outcome = .ok () ↔ outcome' = .ok ()) := by
  unfold writePage at h
  split at h
  · rename_i hp
    cases h
    obtain ⟨fault', hp'⟩ := prepare_again hp
    exact ⟨.error fault', by simp [writePage, hp'], by simp⟩
  · rename_i tree₁ hp
    split at h
    · rename_i hc
      cases h
      have hp' := prepare_of_spares hp (.refl ∅ _)
      exact ⟨_, by simp [writePage, hp', hc], Iff.rfl⟩
    · rename_i location tree₂ hc
      have hspares := spares_write_of_create hc [.ofString page.write]
      cases hw : tree₂.write location [.ofString page.write] with
      | mk tree₃ failure =>
        rw [hw] at h hspares
        obtain rfl : tree₃ = tree' := by
          split at h <;> rename_i heq <;> cases heq <;> cases h <;> rfl
        have hp' := prepare_of_spares hp hspares
        obtain ⟨tree₄, hc', hw'⟩ := write_again hc hw (.refl ∅ _) (Set.notMem_empty _)
        refine ⟨outcome, ?_, Iff.rfl⟩
        simp only [writePage, hp', hc', hw']
        exact h

theorem render_again (h : config.render tree source history conclusion = (page?, tree')) :
    config.render tree' source history conclusion = (page?, tree') := by
  unfold render at h ⊢
  split at h
  · rename_i hv
    rw [if_pos hv]
    dsimp only at h ⊢
    cases hw : config.writePage tree (config.pagePath source)
        (.of Store.model history conclusion.findings) with
    | mk outcome tree₁ =>
      obtain ⟨outcome', hw', hiff⟩ := writePage_again hw
      rw [hw] at h
      cases outcome with
      | ok =>
        cases h
        rw [hw', hiff.mp rfl]
      | error fault =>
        cases h
        cases outcome' with
        | ok => cases hiff.mpr rfl
        | error fault' => rw [hw']
  · rename_i hv
    cases h
    rw [if_neg hv]

end Config

theorem Run.gather_again {merged : Option Path}
    (hload : ∀ path ∈ paths, tree'.entryAt path = tree.entryAt path)
    (h : gather tree paths = (.ok (merged, history, source), tree₁))
    (hs : Spares touched tree₁ tree')
    (hd : Disjoint (tree₁.placesOf (Trace.mergedPath? paths).toList) touched) :
    gather tree' paths = (.ok (merged, history, source), tree') := by
  match paths with
  | [] => cases h
  | [path] =>
    have hl := Trace.load_congr (hload path List.mem_cons_self)
    rw [gather] at h ⊢
    rw [hl]
    split at h
    · cases h
    · cases h
      rfl
  | first :: second :: rest =>
    have hl := Trace.loadAll_congr hload
    have hp : tree₁.places (Trace.mergedPath first) ⊆
        tree₁.placesOf (Trace.mergedPath? (first :: second :: rest)).toList :=
      fun _ => mem_placesOf_singleton.mpr
    unfold gather Trace.mergeFiles at h ⊢
    dsimp only at h ⊢
    rw [hl]
    cases hload : Trace.loadAll tree (first :: second :: rest) with
    | error cause => simp [hload] at h
    | ok histories =>
      rw [hload] at h
      dsimp only at h ⊢
      cases hw : Trace.write tree (Trace.mergedPath first) (History.merge histories) with
      | mk written tree₂ =>
        rw [hw] at h
        cases written with
        | error cause => cases h
        | ok =>
          cases h
          rw [Trace.write_again hw hs (hd.mono_left hp)]

section

variable {engine engine' : Engine Id} {config : Config} {report : Report} {result : Run}

theorem checkHistory_again
    (h : ((checkHistory engine config history source).run tree).run = (report, tree')) :
    ((checkHistory engine config history source).run tree').run = (report, tree') := by
  obtain ⟨rfl, rfl, rfl⟩ | ⟨hn, conclusion, page, he, hr, rfl⟩ := checkHistory_cases h
  · rfl
  · exact checkHistory_of_ne_nil hn he (Config.render_again hr)

theorem operations_of_checkHistory
    (h : ((checkHistory engine config history source).run tree).run = (report, tree')) :
    report.operations = history.length := by
  obtain ⟨rfl, rfl, -⟩ | ⟨-, conclusion, page, -, -, rfl⟩ := checkHistory_cases h
  · rfl
  · rfl

theorem operations_of_run {histories : List History}
    (hl : Trace.loadAll tree paths = .ok histories)
    (h : ((run engine config paths).run tree).run = (.ok result, tree')) :
    result.report.operations = histories.flatten.length := by
  obtain ⟨_, -, hr⟩ | ⟨merged, history, source, tree₁, report, hg, hc, hr⟩ := run_cases h
  · cases hr
  · cases hr
    obtain ⟨rfl, rfl, rfl⟩ := Run.gather_eq_ok hl hg
    exact (operations_of_checkHistory hc).trans (History.length_ofAll histories)

theorem run_congr (h : ∀ history, engine history config.timeout = engine' history config.timeout)
    (paths : List Path) : run engine config paths = run engine' config paths := by
  simp only [run, checkHistory, h]

/-- The names of merged histories and of pages end differently. -/
theorem mergedPath?_disjoint_pages (tree tree' : FileTree) (config : Config) (paths : List Path)
    (source : Path) (operations : Nat) :
    Disjoint (tree.placesOf (Trace.mergedPath? paths).toList)
      (tree'.placesOf (config.pages source operations)) := by
  rw [Set.disjoint_left]
  rintro l ⟨merged, hm, hl⟩ ⟨page, hp, hl'⟩
  obtain ⟨first, rfl⟩ : ∃ first, merged = Trace.mergedPath first := by
    match paths, hm with
    | first :: _ :: _, hm => exact ⟨first, List.mem_singleton.mp hm⟩
  obtain rfl : page = config.pagePath source := by
    unfold Config.pages at hp
    split at hp
    · exact List.mem_singleton.mp hp
    · cases hp
  obtain ⟨name, hn, hc⟩ :=
    getLast?_locate hl (Trace.getLast?_mergedPath first) (by decide) (by decide)
  obtain ⟨name', hn', hc'⟩ :=
    getLast?_locate hl' (config.getLast?_pagePath source) (by decide) (by decide)
  cases hn.symm.trans hn'
  cases hc.symm.trans hc'

/-- A run that writes to none of the files of its histories. -/
theorem run_again (h : ((run engine config paths).run tree).run = (.ok result, tree'))
    (hd : ∀ path ∈ paths, Disjoint (tree'.places path)
      (tree'.placesOf (config.artifacts paths result.report.operations))) :
    (∀ path ∈ paths, ∃ content, tree.entryAt path = .ok (.file content) ∧
        tree'.entryAt path = .ok (.file content)) ∧
      ((run engine config paths).run tree').run = (.ok result, tree') := by
  obtain ⟨_, -, hr⟩ | ⟨merged, history, source, tree₁, report, hg, hc, hr⟩ := run_cases h
  · cases hr
  cases hr
  obtain ⟨histories, hl⟩ := Run.exists_loadAll_of_gather hg
  obtain ⟨rfl, rfl, rfl⟩ := Run.gather_eq_ok hl hg
  have hspares := spares_run hl h
  rw [← operations_of_run hl h] at hspares
  have hfiles : ∀ path ∈ paths, ∃ content, tree.entryAt path = .ok (.file content) ∧
      tree'.entryAt path = .ok (.file content) := by
    intro path hp
    obtain ⟨loaded, hload⟩ := Trace.exists_load_of_loadAll hl path hp
    obtain ⟨content, ho⟩ := Trace.entryAt_of_load hload
    obtain ⟨l, hlocate, -⟩ := exists_of_bind_eq_ok ho
    have hn := Set.disjoint_left.mp (hd path hp) (hspares.locate hlocate)
    exact ⟨content, ho, hspares.entryAt_eq hlocate hn ho⟩
  have hsame : ∀ path ∈ paths, tree'.entryAt path = tree.entryAt path := by
    intro path hp
    obtain ⟨content, ho, ho'⟩ := hfiles path hp
    rw [ho, ho']
  have hapart := mergedPath?_disjoint_pages tree₁ tree' config paths (Trace.checkedPath paths)
    (History.ofAll histories).length
  have hgather := Run.gather_again hsame hg (spares_checkHistory hc) hapart
  exact ⟨hfiles, run_of_gather_ok hgather (checkHistory_again hc)⟩

end

/-- With no deadline, a run that writes to none of the files of its histories leaves them as they
are. Repeated on what it leaves, it returns the same again, and changes nothing more. -/
theorem run_repeatable (config : Config) (h : config.timeoutSeconds = 0) (stopOnFailure : Bool) :
    ∀ clock clock' tree paths result tree',
      ((run (clockedEngine clock stopOnFailure) config paths).run tree).run = (.ok result, tree') →
      (∀ path ∈ paths, Disjoint (tree'.places path)
        (tree'.placesOf (config.artifacts paths result.report.operations))) →
      (∀ path ∈ paths, ∃ content, FileTree.entryAt tree path = .ok (.file content) ∧
        tree'.entryAt path = .ok (.file content)) ∧
      ((run (clockedEngine clock' stopOnFailure) config paths).run tree').run =
        (.ok result, tree') := by
  intro clock clock' tree paths result tree' hr hd
  have ht : config.timeout = none := if_pos h
  have hengine : ∀ history, clockedEngine clock' stopOnFailure history config.timeout =
      clockedEngine clock stopOnFailure history config.timeout := by
    intro history
    rw [ht]
    rfl
  rw [run_congr hengine]
  exact run_again hr hd

namespace OneRecord

def records : History := [⟨⟨1⟩, .get "k", ⟨1⟩, .ok, ⟨2⟩⟩]

def second : Path := ⟨"second.json"⟩

/-- Two files, of which the first one holds no record. -/
def files (first : Path) : FileTree :=
  (Trace.write (Trace.write (.empty ⟨["work"]⟩) first []).2 second records).2

def unlimited : Config := { timeoutSeconds := 0 }

/-- What a run on both files ends with, and leaves behind. -/
def outcome (first : Path) (tree : FileTree) : Except RunFault Run × FileTree :=
  ((run (clockedEngine (fun _ => .expired) false) unlimited [first, second]).run tree).run

def other : Path := ⟨"/work/first.json"⟩

def merged : Path := ⟨"merged-history.json"⟩

end OneRecord

open OneRecord in
theorem run_repeatable_oneRecord :
    ∃ result tree', outcome other (files other) = (.ok result, tree') ∧
      outcome other tree' = (.ok result, tree') := by
  have hsome : (outcome other (files other)).1.toOption.isSome = true := by decide +kernel
  obtain ⟨result, hr⟩ := Option.isSome_iff_exists.mp hsome
  have hrun : outcome other (files other) = (.ok result, (outcome other (files other)).2) :=
    Prod.ext (eq_ok_of_toOption hr) rfl
  have hl : Trace.loadAll (files other) [other, second] = .ok [[], records] :=
    eq_ok_of_toOption (by decide +kernel)
  refine ⟨result, _, hrun, (run_repeatable unlimited rfl false (fun _ => .expired)
    (fun _ => .expired) _ _ _ _ hrun fun path hp => ?_).2⟩
  have hapart : ∀ path ∈ [other, second],
      ∀ artifact ∈ unlimited.artifacts [other, second] [[], records].flatten.length,
        ((outcome other (files other)).2.locate path).toOption ≠
          ((outcome other (files other)).2.locate artifact).toOption := by
    decide +kernel
  rw [operations_of_run hl hrun, Set.disjoint_left]
  rintro l h ⟨artifact, ha, h'⟩
  exact hapart path hp artifact ha (congrArg Except.toOption (h.trans h'.symm))

open OneRecord in
/-- The merged history is written over a file that is named as it is. -/
theorem run_overwrites :
    ∃ result tree', outcome merged (files merged) = (.ok result, tree') ∧
      tree'.entryAt merged ≠ FileTree.entryAt (files merged) merged ∧
      (outcome merged tree').1 ≠ .ok result := by
  have hsome : (outcome merged (files merged)).1.toOption.isSome = true := by decide +kernel
  obtain ⟨result, hr⟩ := Option.isSome_iff_exists.mp hsome
  have hrun : outcome merged (files merged) = (.ok result, (outcome merged (files merged)).2) :=
    Prod.ext (eq_ok_of_toOption hr) rfl
  have hl : Trace.loadAll (files merged) [merged, second] = .ok [[], records] :=
    eq_ok_of_toOption (by decide +kernel)
  have hl' : Trace.loadAll (outcome merged (files merged)).2 [merged, second] =
      .ok [records, records] :=
    eq_ok_of_toOption (by decide +kernel)
  refine ⟨result, _, hrun, fun hopen => ?_, fun hagain => ?_⟩
  · have h : Trace.load (files merged) merged = .ok [] := eq_ok_of_toOption (by decide +kernel)
    have h' : Trace.load (outcome merged (files merged)).2 merged = .ok records :=
      eq_ok_of_toOption (by decide +kernel)
    rw [Trace.load_congr hopen, h] at h'
    cases h'
  · have hrun' : outcome merged (outcome merged (files merged)).2 = (.ok result, _) :=
      Prod.ext hagain rfl
    have hone := operations_of_run hl hrun
    have htwo := operations_of_run hl' hrun'
    exact absurd (hone.symm.trans htwo) (by decide)

end Linearizability
