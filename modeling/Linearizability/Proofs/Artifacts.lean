import Linearizability.Proofs.Run
import Linearizability.Proofs.Trace.RoundTrip

/-! # What a run leaves behind

A run that cannot load its histories leaves no trace. Otherwise it writes the merged history and
the page, and makes directories for the page; everything else stays as it was.
-/

namespace Linearizability

open FileTree

variable {tree tree' : FileTree} {path source : Path} {history : History} {paths : List Path}

namespace Trace

variable {before after : List Path} {histories : List History} {fault : LoadFault}

theorem spares_write (tree : FileTree) (path : Path) (history : History) :
    Spares ((write tree path history).2.places path) tree (write tree path history).2 := by
  unfold write
  split
  · exact .refl _ _
  · rename_i location tree₁ hc
    have hs := spares_write_of_create hc (history.toJson.pieces .pretty 0)
    split <;> rename_i hw <;> rwa [hw] at hs

theorem loadAll_of_error (hb : loadAll tree before = .ok histories)
    (hf : load tree path = .error fault) :
    loadAll tree (before ++ path :: after) = .error fault := by
  induction before generalizing histories with
  | nil => simp [loadAll, hf]
  | cons first before ih =>
    rw [loadAll] at hb
    rw [List.cons_append, loadAll]
    split at hb
    · cases hb
    · cases hl : loadAll tree before with
      | error fault' => simp [hl, Except.map] at hb
      | ok others => rw [ih hl]; rfl

theorem length_of_loadAll (h : loadAll tree paths = .ok histories) :
    histories.length = paths.length := by
  have hlength := congrArg List.length (map_load_of_loadAll h)
  rw [List.length_map, List.length_map] at hlength
  exact hlength.symm

end Trace

namespace Config

variable {config : Config} {page : Page} {conclusion : Conclusion} {p : Path}
  {page? : Option Path}

theorem spares_prepare (config : Config) (tree : FileTree) :
    Spares ∅ tree (config.prepare tree).2 := by
  unfold prepare
  split
  · exact .refl _ _
  · exact spares_prepareDirectory tree _

theorem spares_writePage (config : Config) (tree : FileTree) (path : Path) (page : Page) :
    Spares ((config.writePage tree path page).2.places path) tree
      (config.writePage tree path page).2 := by
  have hprepare := config.spares_prepare tree
  unfold writePage
  split <;> rename_i hp <;> rw [hp] at hprepare
  · exact hprepare.mono (Set.empty_subset _)
  · split
    · exact hprepare.mono (Set.empty_subset _)
    · rename_i location tree₁ hc
      have hs := (hprepare.mono (Set.empty_subset _)).trans
        (spares_write_of_create hc [.ofString page.write])
      split <;> rename_i hw <;> rwa [hw] at hs

/-- The page for a history, if it is wanted and there are operations to show. -/
def pages (config : Config) (source : Path) (operations : Nat) : List Path :=
  if config.visualize = true ∧ 0 < operations then [config.pagePath source] else []

theorem spares_render (tree : FileTree) (source : Path) (hn : history ≠ [])
    (h : config.render tree source history conclusion = (page?, tree')) :
    Spares (tree'.placesOf (config.pages source history.length)) tree tree' := by
  unfold render at h
  split at h
  · rename_i hv
    have hpages : config.pages source history.length = [config.pagePath source] :=
      if_pos ⟨hv, List.length_pos_iff.mpr hn⟩
    have hs := config.spares_writePage tree (config.pagePath source)
      (.of Store.model history conclusion.findings)
    rw [hpages]
    dsimp only at h
    split at h <;> rename_i hw <;> cases h <;> rw [hw] at hs <;>
      exact hs.mono fun l hl => mem_placesOf_singleton.mpr hl
  · cases h
    exact .refl _ _

theorem ofString_write_ne_nil (page : Page) : Bytes.ofString page.write ≠ [] := by
  obtain ⟨rest, hr⟩ : ∃ rest, page.html = .tag "!DOCTYPE html" :: rest := ⟨_, rfl⟩
  have hd : Bytes.ofString (Html.tag "!DOCTYPE html").write ≠ [] := by decide
  rw [Page.write, hr, Html.writeAll, List.map_cons, String.join_cons, Bytes.ofString_append]
  exact List.append_ne_nil_of_left_ne_nil hd _

theorem entryAt_of_writePage (h : config.writePage tree path page = (.ok (), tree')) :
    tree'.entryAt path = .ok (.file (.ofString page.write)) := by
  unfold writePage at h
  split at h
  · cases h
  · split at h
    · cases h
    · rename_i location tree₁ hc
      split at h
      · rename_i hw
        cases h
        have ho := entryAt_of_write hc hw (by simpa using ofString_write_ne_nil page)
        simpa using ho
      · cases h

theorem entryAt_of_render (h : config.render tree source history conclusion = (some p, tree')) :
    p = config.pagePath source ∧ tree'.entryAt p =
      .ok (.file (.ofString (Page.of Store.model history conclusion.findings).write)) := by
  unfold render at h
  split at h
  · dsimp only at h
    split at h
    · rename_i hw
      cases h
      exact ⟨rfl, entryAt_of_writePage hw⟩
    · cases h
  · cases h

end Config

namespace Trace

def checkedPath : List Path → Path
  | [] => ⟨""⟩
  | [path] => path
  | first :: _ :: _ => mergedPath first

def mergedPath? : List Path → Option Path
  | first :: _ :: _ => some (mergedPath first)
  | _ => none

end Trace

/-- The files that a run writes to: the merged history and the page. -/
def Config.artifacts (config : Config) (paths : List Path) (operations : Nat) : List Path :=
  (Trace.mergedPath? paths).toList ++ config.pages (Trace.checkedPath paths) operations

def History.ofAll : List History → History
  | [history] => history
  | histories => .merge histories

theorem History.length_ofAll (histories : List History) :
    (ofAll histories).length = histories.flatten.length := by
  unfold ofAll
  split
  · rw [List.flatten_singleton]
  · exact (List.mergeSort_perm _ _).length_eq

def RunFault.ofLoad (cause : Trace.LoadFault) : List Path → RunFault
  | [_] => .load cause
  | _ => .merge (.load cause)

namespace Run

variable {merged : Option Path} {cause : Trace.LoadFault} {fault : RunFault}
  {histories : List History} {before after : List Path}

/-- The run as it is told of without a page. -/
def withoutPage (result : Run) : Run :=
  { result with report := { result.report with page := none } }

theorem spares_gather (tree : FileTree) (paths : List Path) :
    Spares ((gather tree paths).2.placesOf (Trace.mergedPath? paths).toList) tree
      (gather tree paths).2 := by
  match paths with
  | [] => exact .refl _ _
  | [path] =>
    rw [gather]
    split <;> exact .refl _ _
  | first :: second :: rest =>
    unfold gather Trace.mergeFiles
    dsimp only
    cases Trace.loadAll tree (first :: second :: rest) with
    | error cause => exact .refl _ _
    | ok histories =>
      have hw := (Trace.spares_write tree (Trace.mergedPath first) (History.merge histories)).mono
        fun _ => mem_placesOf_singleton.mpr
      dsimp only
      cases hm : Trace.write tree (Trace.mergedPath first) (History.merge histories) with
      | mk written tree' =>
        rw [hm] at hw
        cases written with
        | error cause => exact hw
        | ok => exact hw

theorem gather_of_error (hb : Trace.loadAll tree before = .ok histories)
    (hf : Trace.load tree path = .error cause) :
    gather tree (before ++ path :: after) =
      (.error (.ofLoad cause (before ++ path :: after)), tree) := by
  have hl : Trace.loadAll tree (before ++ path :: after) = .error cause :=
    Trace.loadAll_of_error hb hf
  match before, after with
  | [], [] => simp [gather, hf, RunFault.ofLoad]
  | [], second :: after =>
    simp only [List.nil_append] at hl ⊢
    simp [gather, Trace.mergeFiles, hl, RunFault.ofLoad]
  | [first], after | first :: second :: before, after =>
    simp only [List.cons_append, List.nil_append] at hl ⊢
    simp [gather, Trace.mergeFiles, hl, RunFault.ofLoad]

theorem exists_loadAll_of_gather (h : gather tree paths = (.ok (merged, history, source), tree')) :
    ∃ histories, Trace.loadAll tree paths = .ok histories := by
  match paths with
  | [] => cases h
  | [path] =>
    rw [gather] at h
    split at h
    · cases h
    · rename_i loaded hl
      exact ⟨[loaded], by simp [Trace.loadAll, hl, Except.map]⟩
  | first :: second :: rest =>
    unfold gather Trace.mergeFiles at h
    cases hl : Trace.loadAll tree (first :: second :: rest) with
    | error cause => simp [hl] at h
    | ok histories => exact ⟨histories, rfl⟩

/-- What is gathered is the history of all that is loaded. -/
theorem gather_eq_ok (hl : Trace.loadAll tree paths = .ok histories)
    (h : gather tree paths = (.ok (merged, history, source), tree')) :
    merged = Trace.mergedPath? paths ∧ history = .ofAll histories ∧
      source = Trace.checkedPath paths := by
  match paths with
  | [] => cases h
  | [path] =>
    rw [gather] at h
    rw [Trace.loadAll] at hl
    cases hp : Trace.load tree path with
    | error cause => simp [hp] at h
    | ok loaded =>
      rw [hp] at h hl
      cases h
      cases hl
      exact ⟨rfl, rfl, rfl⟩
  | first :: second :: rest =>
    have hlength := Trace.length_of_loadAll hl
    unfold gather Trace.mergeFiles at h
    simp only [hl] at h
    cases hw : Trace.write tree (Trace.mergedPath first) (History.merge histories) with
    | mk written tree₁ =>
      rw [hw] at h
      cases written with
      | error cause => cases h
      | ok =>
        cases h
        cases histories with
        | nil => simp at hlength
        | cons loaded histories =>
          cases histories with
          | nil => simp at hlength
          | cons loaded' histories => exact ⟨rfl, rfl, rfl⟩

end Run

section

variable {engine : Engine Id} {config : Config} {conclusion : Conclusion} {page : Option Path}
  {report : Report} {merged : Option Path} {tree₁ : FileTree} {fault : RunFault}
  {result : Except RunFault Run} {p : Path}

theorem checkHistory_of_ne_nil (h : history ≠ [])
    (hc : (engine history config.timeout).run = conclusion)
    (hr : config.render tree source history conclusion = (page, tree')) :
    ((checkHistory engine config history source).run tree).run =
      (⟨source, page, conclusion.verdict, history.length, conclusion.longestLength⟩, tree') := by
  cases history with
  | nil => exact absurd rfl h
  | cons record history =>
    subst hc
    simp only [checkHistory, List.isEmpty_cons]
    simp [hr]

/-- An empty history is not looked at, and has no page. -/
theorem checkHistory_cases
    (h : ((checkHistory engine config history source).run tree).run = (report, tree')) :
    (history = [] ∧ report = ⟨source, none, .linearizable, 0, 0⟩ ∧ tree' = tree) ∨
      history ≠ [] ∧ ∃ conclusion page, (engine history config.timeout).run = conclusion ∧
        config.render tree source history conclusion = (page, tree') ∧
        report = ⟨source, page, conclusion.verdict, history.length, conclusion.longestLength⟩ := by
  by_cases hn : history = []
  · subst hn
    cases h
    exact .inl ⟨rfl, rfl, rfl⟩
  · cases hr : config.render tree source history (engine history config.timeout).run with
    | mk page tree₁ =>
      rw [checkHistory_of_ne_nil hn rfl hr] at h
      cases h
      exact .inr ⟨hn, _, page, rfl, hr, rfl⟩

theorem run_of_gather_error (h : Run.gather tree paths = (.error fault, tree')) :
    ((run engine config paths).run tree).run = (.error fault, tree') := by
  simp only [run, StateT.run_bind, StateT.run_modifyGet, h]
  rfl

theorem run_of_gather_ok (h : Run.gather tree paths = (.ok (merged, history, source), tree₁))
    (hc : ((checkHistory engine config history source).run tree₁).run = (report, tree')) :
    ((run engine config paths).run tree).run = (.ok ⟨merged, report⟩, tree') := by
  simp only [run, StateT.run_bind, StateT.run_modifyGet, h]
  simp [hc]

theorem run_cases (h : ((run engine config paths).run tree).run = (result, tree')) :
    (∃ fault, Run.gather tree paths = (.error fault, tree') ∧ result = .error fault) ∨
      ∃ merged history source tree₁ report,
        Run.gather tree paths = (.ok (merged, history, source), tree₁) ∧
        ((checkHistory engine config history source).run tree₁).run = (report, tree') ∧
        result = .ok ⟨merged, report⟩ := by
  cases hg : Run.gather tree paths with
  | mk gathered tree₁ =>
    cases gathered with
    | error fault =>
      rw [run_of_gather_error hg] at h
      cases h
      exact .inl ⟨fault, rfl, rfl⟩
    | ok gathered =>
      obtain ⟨merged, history, source⟩ := gathered
      cases hc : ((checkHistory engine config history source).run tree₁).run with
      | mk report tree₂ =>
        rw [run_of_gather_ok hg hc] at h
        cases h
        exact .inr ⟨merged, history, source, tree₁, report, rfl, hc, rfl⟩

theorem spares_checkHistory
    (h : ((checkHistory engine config history source).run tree).run = (report, tree')) :
    Spares (tree'.placesOf (config.pages source history.length)) tree tree' := by
  obtain ⟨-, -, rfl⟩ | ⟨hn, conclusion, page, -, hr, -⟩ := checkHistory_cases h
  · exact .refl _ _
  · exact Config.spares_render tree source hn hr

theorem spares_run {histories : List History} (hl : Trace.loadAll tree paths = .ok histories)
    (h : ((run engine config paths).run tree).run = (result, tree')) :
    Spares (tree'.placesOf (config.artifacts paths histories.flatten.length)) tree tree' := by
  rw [Config.artifacts, placesOf_append]
  have hgather := Run.spares_gather tree paths
  obtain ⟨fault, hg, -⟩ | ⟨merged, history, source, tree₁, report, hg, hc, -⟩ := run_cases h
  · rw [hg] at hgather
    exact hgather.mono Set.subset_union_left
  · obtain ⟨rfl, rfl, rfl⟩ := Run.gather_eq_ok hl hg
    rw [hg] at hgather
    have hcheck := spares_checkHistory hc
    rw [History.length_ofAll] at hcheck
    have hsub := hcheck.placesOf_subset (Trace.mergedPath? paths).toList
    exact (hgather.mono (hsub.trans Set.subset_union_left)).trans
      (hcheck.mono Set.subset_union_right)

theorem run_withoutPage (engine : Engine Id) (config : Config) (tree : FileTree)
    (paths : List Path) :
    ((run engine { config with visualize := false } paths).run tree).run.1 =
      ((run engine config paths).run tree).run.1.map Run.withoutPage := by
  cases hr : ((run engine config paths).run tree).run with
  | mk result tree' =>
    obtain ⟨fault, hg, rfl⟩ | ⟨merged, history, source, tree₁, report, hg, hc, rfl⟩ := run_cases hr
    · rw [run_of_gather_error hg]
      rfl
    · obtain ⟨rfl, rfl, rfl⟩ | ⟨hn, conclusion, page, he, -, rfl⟩ := checkHistory_cases hc
      · rw [run_of_gather_ok hg rfl]
        rfl
      · have hoff : ((checkHistory engine { config with visualize := false } history
            source).run tree₁).run = (⟨source, none, conclusion.verdict, history.length,
              conclusion.longestLength⟩, tree₁) :=
          checkHistory_of_ne_nil hn he rfl
        rw [run_of_gather_ok hg hoff]
        rfl

theorem entryAt_page_of_run {histories : List History} {result : Run}
    (hl : Trace.loadAll tree paths = .ok histories)
    (h : ((run engine config paths).run tree).run = (.ok result, tree'))
    (hp : result.report.page = some p) :
    p = config.pagePath (Trace.checkedPath paths) ∧ tree'.entryAt p = .ok (.file (.ofString
      (Page.of Store.model (History.ofAll histories)
        (engine (History.ofAll histories) config.timeout).run.findings).write)) := by
  obtain ⟨_, -, hr⟩ | ⟨merged, history, source, tree₁, report, hg, hc, hr⟩ := run_cases h
  · cases hr
  · obtain ⟨rfl, rfl, rfl⟩ := Run.gather_eq_ok hl hg
    cases hr
    obtain ⟨-, rfl, -⟩ | ⟨-, conclusion, page, rfl, hd, rfl⟩ := checkHistory_cases hc
    · cases hp
    · obtain rfl : page = some p := hp
      exact Config.entryAt_of_render hd

end

/-- A run that cannot load one of its histories tells of the first one, and changes nothing. Every
other run changes the merged history, if there are several to merge, and the page, if it is wanted
and there is something to show; apart from them it only makes directories. Whatever becomes of the
page, nothing else that is told depends on it, and if it is told of, all of it is there. -/
theorem run_leaves (engine : Engine Id) (config : Config) :
    (∀ tree before path after histories cause, Trace.loadAll tree before = .ok histories →
      Trace.load tree path = .error cause →
      ((run engine config (before ++ path :: after)).run tree).run =
        (.error (.ofLoad cause (before ++ path :: after)), tree)) ∧
    (∀ tree paths histories result tree', Trace.loadAll tree paths = .ok histories →
      ((run engine config paths).run tree).run = (result, tree') →
      Spares (tree'.placesOf (config.artifacts paths histories.flatten.length)) tree tree') ∧
    (∀ tree paths, ((run engine { config with visualize := false } paths).run tree).run.1 =
      ((run engine config paths).run tree).run.1.map Run.withoutPage) ∧
    ∀ tree paths histories result tree' page, Trace.loadAll tree paths = .ok histories →
      ((run engine config paths).run tree).run = (.ok result, tree') →
      result.report.page = some page →
      page = config.pagePath (Trace.checkedPath paths) ∧
        FileTree.entryAt tree' page = .ok (.file (.ofString
          (Page.of Store.model (History.ofAll histories)
            (engine (History.ofAll histories) config.timeout).run.findings).write)) := by
  refine ⟨?_, fun _ _ _ _ _ => spares_run, run_withoutPage engine config,
    fun _ _ _ _ _ _ => entryAt_page_of_run⟩
  intro tree before path after histories cause hb hf
  exact run_of_gather_error (Run.gather_of_error hb hf)

namespace OddTexts

def stopped : Engine Id := fun _ _ => ⟨.unknown, []⟩

def missing : Path := ⟨"missing.json"⟩

def checked : Except RunFault Run × FileTree :=
  ((run stopped {} [first]).run OddTexts.tree).run

end OddTexts

open OddTexts in
theorem run_leaves_oddTexts :
    ((run stopped {} [first, missing, second]).run OddTexts.tree).run =
        (.error (.merge (.load (.unopened missing .notFound))), OddTexts.tree) ∧
      FileTree.entry? checked.2 ⟨["first.json"]⟩ =
        OddTexts.tree.entry? ⟨["first.json"]⟩ ∧
      ∃ content, checked.2.entryAt ⟨"first.html"⟩ = .ok (.file content) := by
  obtain ⟨hfail, hspare, -, hpage⟩ := run_leaves stopped {}
  have hl : Trace.loadAll OddTexts.tree [first] = .ok [records] :=
    eq_ok_of_toOption (by decide +kernel)
  refine ⟨hfail OddTexts.tree [first] missing [second] _ _ hl rfl, ?_, ?_⟩
  · have hp : checked.2.locate ⟨"first.html"⟩ = .ok ⟨["first.html"]⟩ :=
      eq_ok_of_toOption (by decide +kernel)
    have hs := (hspare OddTexts.tree [first] _ _ _ hl rfl).other ⟨["first.json"]⟩ ?_
    · refine hs.resolve_right fun ⟨hn, _⟩ => ?_
      exact absurd hn (by decide +kernel)
    · rintro ⟨artifact, hm, h⟩
      obtain rfl : artifact = ⟨"first.html"⟩ := List.mem_singleton.mp hm
      exact absurd (Except.ok.inj (hp.symm.trans h)) (by decide)
  · have hpath : checked.1.toOption.bind (·.report.page) = some ⟨"first.html"⟩ := by
      decide +kernel
    obtain ⟨result, hr, hpath⟩ := Option.bind_eq_some_iff.mp hpath
    have hrun : ((run stopped {} [first]).run OddTexts.tree).run = (.ok result, checked.2) :=
      Prod.ext (eq_ok_of_toOption hr) rfl
    exact ⟨_, (hpage _ _ _ _ _ _ hl hrun hpath).2⟩

end Linearizability
