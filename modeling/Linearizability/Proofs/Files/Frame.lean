import Linearizability.Proofs.Files.Tree
import Mathlib.Data.Set.Insert

/-! # What changes of a tree leave alone

Making and writing a file changes what is at one place. Making directories changes nothing that is
there, and only adds directories. No directory is lost, so that paths lead where they did, and what
is written to a file is found at its path.
-/

namespace Linearizability

namespace FileTree

variable {tree tree' tree₁ : FileTree} {location l : Location} {entry : Entry} {path : Path}
  {names : List String} {touched touched' : Set Location} {pieces : List Bytes}

def places (tree : FileTree) (path : Path) : Set Location := {l | tree.locate path = .ok l}

def placesOf (tree : FileTree) (paths : List Path) : Set Location :=
  {l | ∃ path ∈ paths, l ∈ tree.places path}

/-- Only what is at the given places differs between two trees, apart from directories where
nothing was. -/
structure Spares (touched : Set Location) (tree tree' : FileTree) : Prop where
  workingDirectory : tree'.workingDirectory = tree.workingDirectory
  limit : tree'.limit = tree.limit
  directory : ∀ l, tree.entry? l = some .directory → tree'.entry? l = some .directory
  other : ∀ l ∉ touched, tree'.entry? l = tree.entry? l ∨
    tree.entry? l = none ∧ tree'.entry? l = some .directory

theorem placesOf_append (tree : FileTree) (paths paths' : List Path) :
    tree.placesOf (paths ++ paths') = tree.placesOf paths ∪ tree.placesOf paths' := by
  ext l
  simp [placesOf, or_and_right, exists_or]

theorem mem_placesOf_singleton : l ∈ tree.placesOf [path] ↔ l ∈ tree.places path := by
  simp [placesOf]

namespace Spares

theorem refl (touched : Set Location) (tree : FileTree) : Spares touched tree tree :=
  ⟨rfl, rfl, fun _ => id, fun _ _ => .inl rfl⟩

theorem mono (h : Spares touched tree tree') (hp : touched ⊆ touched') :
    Spares touched' tree tree' :=
  ⟨h.workingDirectory, h.limit, h.directory, fun l hl => h.other l fun hm => hl (hp hm)⟩

theorem trans (h : Spares touched tree tree₁) (h' : Spares touched tree₁ tree') :
    Spares touched tree tree' := by
  refine ⟨h'.workingDirectory.trans h.workingDirectory, h'.limit.trans h.limit,
    fun l hd => h'.directory l (h.directory l hd), fun l hl => ?_⟩
  rcases h.other l hl with h₁ | ⟨hn, hd⟩
  · rcases h'.other l hl with h₂ | ⟨hn, hd⟩
    · exact .inl (h₂.trans h₁)
    · exact .inr ⟨h₁.symm.trans hn, hd⟩
  · exact .inr ⟨hn, h'.directory l hd⟩

theorem start_eq (h : Spares touched tree tree') (path : Path) :
    tree'.start path = tree.start path := by
  rw [start, start, h.workingDirectory]

theorem leadsThrough_eq (h : Spares touched tree tree') (l : Location) :
    tree'.leadsThrough l = tree.leadsThrough l := by
  rw [leadsThrough, leadsThrough, h.workingDirectory]

theorem walk (h : Spares touched tree tree') (hw : tree.walk l names = .ok location) :
    tree'.walk l names = .ok location := by
  induction names generalizing l with
  | nil => exact hw
  | cons name names ih =>
    rw [walk_cons] at hw ⊢
    split at hw
    · cases hw
    · rename_i hd
      rw [h.directory l hd]
      cases he : l.enter name with
      | error fault => simp [he, Except.bind] at hw
      | ok m =>
        rw [he] at hw
        exact ih hw
    · cases hw

theorem locate (h : Spares touched tree tree') (hl : tree.locate path = .ok location) :
    tree'.locate path = .ok location := by
  obtain ⟨start, hs, hw⟩ := exists_of_bind_eq_ok hl
  rw [FileTree.locate, h.start_eq, hs]
  exact h.walk hw

theorem placesOf_subset (h : Spares touched tree tree') (paths : List Path) :
    tree.placesOf paths ⊆ tree'.placesOf paths := by
  rintro l ⟨path, hp, hl⟩
  exact ⟨path, hp, h.locate hl⟩

/-- What is there and is not at one of the places is found as before. -/
theorem entryAt_eq (h : Spares touched tree tree') (hl : tree.locate path = .ok location)
    (hn : location ∉ touched) (ho : tree.entryAt path = .ok entry) :
    tree'.entryAt path = .ok entry := by
  have he : tree.entry? location = some entry := by
    rw [entryAt] at ho
    simp only [hl, bind, Except.bind] at ho
    split at ho
    · cases ho
    · cases ho
      assumption
  refine entryAt_of_locate (h.locate hl) ?_
  rcases h.other location hn with heq | ⟨hnone, -⟩
  · exact heq.trans he
  · cases he.symm.trans hnone

end Spares

theorem spares_put (h : tree.entry? location ≠ some .directory) (entry : Entry) :
    Spares {location} tree (tree.put location entry) := by
  have hne : ∀ {l}, l ≠ location → FileTree.entry? (tree.put location entry) l = tree.entry? l :=
    fun hl => lookup_put_of_ne hl tree entry
  refine ⟨rfl, rfl, fun l hd => ?_, fun l hl => .inl (hne hl)⟩
  rw [hne (by rintro rfl; exact h hd), hd]

theorem spares_put_directory (h : tree.entry? location = none) :
    Spares ∅ tree (tree.put location .directory) := by
  have hd : tree.entry? location ≠ some .directory := by simp [h]
  obtain ⟨hworking, hlimit, hdirectory, hother⟩ := spares_put hd .directory
  refine ⟨hworking, hlimit, hdirectory, fun l _ => ?_⟩
  by_cases hl : l = location
  · exact .inr ⟨hl ▸ h, hl ▸ lookup_put_self (leadsThrough_eq_false hd) _⟩
  · exact hother l hl

theorem spares_create (h : tree.create path = .ok (location, tree')) :
    Spares {location} tree tree' ∧ tree'.entry? location ≠ some .directory := by
  obtain ⟨-, hd, ⟨-, rfl⟩ | rfl⟩ := create_cases h
  · exact ⟨.refl _ _, hd⟩
  · exact ⟨spares_put hd _, by rw [lookup_put_self (leadsThrough_eq_false hd)]; simp⟩

theorem spares_write (h : tree.entry? location ≠ some .directory) (pieces : List Bytes) :
    Spares {location} tree (tree.write location pieces).1 := by
  unfold write
  split
  · exact .refl _ _
  · exact spares_put h _
  · exact spares_put h _

theorem spares_write_of_create (hc : tree.create path = .ok (location, tree₁))
    (pieces : List Bytes) :
    Spares ((tree₁.write location pieces).1.places path) tree (tree₁.write location pieces).1 := by
  obtain ⟨hcreate, hd⟩ := spares_create hc
  have hs := hcreate.trans (spares_write hd pieces)
  refine hs.mono (Set.singleton_subset_iff.mpr ?_)
  exact hs.locate (create_cases hc).1

theorem entryAt_put_of_create (hc : tree.create path = .ok (location, tree')) (content : Bytes) :
    (tree'.put location (.file content)).entryAt path = .ok (.file content) := by
  obtain ⟨hl, -⟩ := create_cases hc
  obtain ⟨hcreate, hd⟩ := spares_create hc
  exact entryAt_of_locate ((hcreate.trans (spares_put hd _)).locate hl)
    (lookup_put_self (leadsThrough_eq_false hd) _)

/-- What is written to a file just made is found at its path. -/
theorem entryAt_of_write (hc : tree.create path = .ok (location, tree'))
    (hw : tree'.write location pieces = (tree₁, none)) (hp : pieces.flatten ≠ []) :
    tree₁.entryAt path = .ok (.file pieces.flatten) := by
  have hf : tree'.entry? location ≠ some .full :=
    fun hf => hp (flatten_eq_nil_of_write hf hw)
  rw [write_eq hf hw]
  exact entryAt_put_of_create hc _

theorem spares_makeDirectory (h : tree.makeDirectory path = .ok tree') : Spares ∅ tree tree' := by
  obtain ⟨place, -, h⟩ := exists_of_bind_eq_ok h
  cases place with
  | none => cases h
  | some l =>
    dsimp only at h
    split at h
    · cases h
    · cases h
      exact spares_put_directory ‹_›

theorem spares_ensureDirectory (h : tree.ensureDirectory path = .ok tree') :
    Spares ∅ tree tree' := by
  unfold ensureDirectory at h
  split at h
  · cases h
    exact spares_makeDirectory ‹_›
  · split at h <;> cases h
    exact .refl _ _

theorem spares_makeDirectoriesWithin (tree : FileTree) (path : Path) (depth : Nat) :
    Spares ∅ tree (tree.makeDirectoriesWithin path depth).2 := by
  induction depth generalizing path with
  | zero => exact .refl _ _
  | succ depth ih =>
    unfold makeDirectoriesWithin
    split
    · exact .refl _ _
    · split
      · exact spares_ensureDirectory ‹_›
      · rename_i parent _ _
        have hp := ih parent
        split
        · rename_i hm
          rwa [hm] at hp
        · rename_i hm
          rw [hm] at hp
          split
          · exact hp.trans (spares_ensureDirectory ‹_›)
          · exact hp
      · exact .refl _ _

theorem spares_prepareDirectory (tree : FileTree) (path : Path) :
    Spares ∅ tree (tree.prepareDirectory path).2 :=
  spares_makeDirectoriesWithin tree path _

end FileTree

end Linearizability
