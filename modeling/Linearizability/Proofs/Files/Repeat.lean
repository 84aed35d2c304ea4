import Linearizability.Proofs.Files.Frame
import Linearizability.Proofs.Files.Path

/-! # Doing the same again

What has been written to a file is written again without any change, and so are directories made
again, whether they could all be made or not.
-/

namespace Linearizability.FileTree

variable {tree tree' tree₁ tree₂ : FileTree} {location l : Location} {entry : Entry}
  {path p : Path} {touched : Set Location} {pieces : List Bytes} {fault : FileFault}

theorem put_eq_self (hn : tree.leadsThrough location = false)
    (h : tree.entry? location = some entry) : tree.put location entry = tree := by
  have hl : tree.entries.lookup location = some entry := by
    rwa [ entry?, hn, if_neg Bool.false_ne_true] at h
  have hr : ∀ entries : List (Location × Entry), entries.lookup location = some entry →
      put.replace location entry entries = entries := by
    intro entries he
    induction entries with
    | nil => cases he
    | cons old rest ih =>
      obtain ⟨l, e⟩ := old
      rw [put.replace]
      rw [List.lookup_cons] at he
      split
      · rename_i heq
        cases heq
        simp only [beq_self_eq_true, Option.some.injEq] at he
        rw [he]
      · rename_i hne
        have hb : (location == l) = false := beq_eq_false_iff_ne.mpr (Ne.symm hne)
        rw [hb] at he
        rw [ih he]
  rw [put, hr _ hl]

theorem put_put (tree : FileTree) (location : Location) (entry entry' : Entry) :
    (tree.put location entry).put location entry' = tree.put location entry' := by
  have hr : ∀ entries : List (Location × Entry),
      put.replace location entry' (put.replace location entry entries) =
        put.replace location entry' entries := by
    intro entries
    induction entries with
    | nil => simp [put.replace]
    | cons old rest ih =>
      simp only [put.replace]
      by_cases ho : old.1 = location
      · simp [ho, put.replace]
      · simp [ho, put.replace, ih]
  simp only [put, hr]

theorem Spares.place (h : Spares touched tree tree') (hp : tree.place path = .ok (some location)) :
    tree'.place path = .ok (some location) := by
  obtain ⟨start, hs, hp⟩ := exists_of_bind_eq_ok hp
  rw [FileTree.place, h.start_eq, hs]
  split at hp
  · cases hp
  · rename_i name hname
    obtain ⟨directory, hd, hp⟩ := exists_of_bind_eq_ok hp
    obtain ⟨l, hl, hp⟩ := exists_of_bind_eq_ok hp
    simp only [bind, Except.bind, h.walk hd, h.walk hl]
    exact hp

theorem place_of_create (h : tree.create path = .ok (location, tree')) :
    tree.place path = .ok (some location) ∧ path.endsInSlash = false := by
  obtain ⟨place, hp, h⟩ := exists_of_bind_eq_ok h
  cases place with
  | none => cases h
  | some l =>
    dsimp only at h
    split at h
    · cases h
    · rename_i hslash
      have hl : l = location := by
        split at h <;> cases h <;> rfl
      exact ⟨hl ▸ hp, by simpa using hslash⟩

theorem create_of_place (hp : tree.place path = .ok (some location))
    (hs : path.endsInSlash = false) : tree.create path =
      match tree.entry? location with
      | some .directory => .error .isADirectory
      | some .full => .ok (location, tree)
      | some (.file _) | none => .ok (location, tree.put location (.file [])) := by
  simp only [create, hp, hs, bind, Except.bind]
  rfl

theorem write_congr {content content' : Bytes} (h : tree.entry? location = some (.file content))
    (h' : tree'.entry? location = some (.file content')) (hl : tree'.limit = tree.limit)
    (pieces : List Bytes) : ∃ written outcome,
      tree.write location pieces = (tree.put location (.file written), outcome) ∧
        tree'.write location pieces = (tree'.put location (.file written), outcome) := by
  simp only [write, h, h', hl]
  cases tree.limit with
  | none => exact ⟨_, _, rfl, rfl⟩
  | some room => exact ⟨_, _, rfl, rfl⟩

/-- A file that is there is made and written to again, and holds what it held. -/
theorem write_again (hc : tree.create path = .ok (location, tree₁))
    {outcome : Option (Buffer.Stage × FileFault)}
    (hw : tree₁.write location pieces = (tree₂, outcome)) (hs : Spares touched tree₂ tree')
    (hl : location ∉ touched) : ∃ tree₃, tree'.create path = .ok (location, tree₃) ∧
      tree₃.write location pieces = (tree', outcome) := by
  obtain ⟨hplace, hslash⟩ := place_of_create hc
  obtain ⟨hcreate, hd⟩ := spares_create hc
  have hspares : Spares Set.univ tree tree' := by
    have hwrite := spares_write hd pieces
    rw [hw] at hwrite
    exact ((hcreate.trans hwrite).mono (Set.subset_univ _)).trans (hs.mono (Set.subset_univ _))
  have hplace' := create_of_place (hspares.place hplace) hslash
  have hkept : ∀ {entry}, tree₂.entry? location = some entry →
      tree'.entry? location = some entry := by
    intro entry he
    rcases hs.other location hl with h | ⟨hn, -⟩
    · exact h.trans he
    · cases he.symm.trans hn
  obtain ⟨-, hn, ⟨hf, rfl⟩ | rfl⟩ := create_cases hc
  · have hwrite : ∀ {t : FileTree}, t.entry? location = some .full → t.write location pieces =
        (t, (Buffer.overflow? 0 0 0 (pieces.map List.length)).map (·, .noSpace)) :=
      fun h => by simp only [write, h]
    rw [hwrite hf] at hw
    cases hw
    rw [hkept hf] at hplace'
    exact ⟨tree', hplace', hwrite (hkept hf)⟩
  · have hout : tree.leadsThrough location = false := leadsThrough_eq_false hn
    have hout' : tree'.leadsThrough location = false := (hspares.leadsThrough_eq _).trans hout
    obtain ⟨written, outcome', hw₁, hw₂⟩ := write_congr (lookup_put_self hout (.file []))
      (lookup_put_self hout' (.file [])) hspares.limit pieces
    rw [hw] at hw₁
    cases hw₁
    have he := hkept (lookup_put_self ((leadsThrough_put _ _ _ _).trans hout) _)
    rw [he] at hplace'
    refine ⟨_, hplace', hw₂.trans ?_⟩
    rw [put_put, put_eq_self hout' he]

/-! ## Directories -/

theorem isDirectory_iff : tree.isDirectory path = true ↔
    ∃ l, tree.locate path = .ok l ∧ tree.entry? l = some .directory := by
  rw [isDirectory, entryAt]
  cases tree.locate path with
  | error fault => simp [bind, Except.bind]
  | ok l =>
    simp only [bind, Except.bind, Except.ok.injEq, exists_eq_left']
    cases tree.entry? l with
    | none => simp
    | some entry => cases entry <;> simp

theorem Spares.isDirectory (h : Spares touched tree tree') (hd : tree.isDirectory path = true) :
    tree'.isDirectory path = true := by
  obtain ⟨l, hl, he⟩ := isDirectory_iff.mp hd
  exact isDirectory_iff.mpr ⟨l, h.locate hl, h.directory l he⟩

/-- A path leads where its names do, also if it ends in a slash. -/
theorem isDirectory_of_walk {start : Location} (hs : tree.start path = .ok start)
    (hw : tree.walk start path.names = .ok l) (he : tree.entry? l = some .directory) :
    tree.isDirectory path = true := by
  refine isDirectory_iff.mpr ⟨l, ?_, he⟩
  simp only [locate, hs, bind, Except.bind, walk_append, hw]
  split
  · simp [he, walk]
  · rfl

theorem walk_of_isDirectory (h : tree.isDirectory path = true) : ∃ start l,
    tree.start path = .ok start ∧ tree.walk start path.names = .ok l ∧
      tree.entry? l = some .directory := by
  obtain ⟨l', hl, he⟩ := isDirectory_iff.mp h
  obtain ⟨start, hs, hw⟩ := exists_of_bind_eq_ok hl
  rw [walk_append] at hw
  obtain ⟨l, hl, hw⟩ := exists_of_bind_eq_ok hw
  refine ⟨start, l, hs, hl, ?_⟩
  split at hw
  · rw [walk_cons] at hw
    split at hw
    · cases hw
    · assumption
    · cases hw
  · cases hw
    exact he

theorem exists_of_makeDirectory (h : tree.makeDirectory path = .ok tree') : ∃ start l,
    tree.start path = .ok start ∧ tree.walk start path.names = .ok l ∧
      tree.entry? l = none ∧ tree' = tree.put l .directory := by
  obtain ⟨place, hp, h⟩ := exists_of_bind_eq_ok h
  cases place with
  | none => cases h
  | some l =>
    obtain ⟨start, hs, hw⟩ := exists_of_place hp
    dsimp only at h
    split at h
    · cases h
    · cases h
      exact ⟨start, l, hs, hw, ‹_›, rfl⟩

theorem ensureDirectory_of_isDirectory (h : tree.isDirectory path = true) :
    tree.ensureDirectory path = .ok tree := by
  unfold ensureDirectory
  split
  · rename_i hm
    obtain ⟨start, l, hs, hw, he⟩ := walk_of_isDirectory h
    obtain ⟨start', l', hs', hw', hn, -⟩ := exists_of_makeDirectory hm
    cases hs.symm.trans hs'
    cases hw.symm.trans hw'
    cases he.symm.trans hn
  · rw [if_pos h]

theorem isDirectory_of_ensureDirectory (h : tree.ensureDirectory path = .ok tree') :
    tree'.isDirectory path = true := by
  have hspares := spares_ensureDirectory h
  unfold ensureDirectory at h
  split at h
  · rename_i hm
    cases h
    obtain ⟨start, l, hs, hw, hn, rfl⟩ := exists_of_makeDirectory hm
    have hout : tree.leadsThrough l = false := leadsThrough_eq_false (by simp [hn])
    exact isDirectory_of_walk hs (hspares.walk hw) (lookup_put_self hout _)
  · split at h <;> cases h
    assumption

theorem start_of_initial (h : tree.start path = .ok l)
    (hp : p.text.toList <+: path.text.toList) (hne : p.text ≠ "") : tree.start p = .ok l := by
  obtain ⟨cs, hcs⟩ := hp
  have htext : path.text = p.text ++ String.ofList cs := by
    rw [← String.toList_inj, ← hcs]
    simp
  have hsize : p.text.utf8ByteSize ≤ path.text.utf8ByteSize := by
    rw [htext, String.utf8ByteSize_append]
    exact Nat.le_add_right _ _
  have hroot : path.isAbsolute = p.isAbsolute := by
    obtain ⟨c, ds, hds⟩ := List.exists_cons_of_ne_nil (mt String.toList_eq_nil_iff.mp hne)
    rw [Path.isAbsolute, Path.isAbsolute, ← hcs, hds]
    rfl
  unfold start at h ⊢
  rw [← hcs, hroot] at h
  split at h
  · cases h
  · rename_i hzero
    have hz : ¬ p.text.toList.contains '\x00' = true := fun hm =>
      hzero (by simpa using Or.inl (by simpa using hm))
    split at h
    · cases h
    · split at h
      · cases h
      · rwa [if_neg hz, if_neg hne, if_neg (by omega)]

/-- The bound on the number of directories is never reached: each path is longer than what it is
in. -/
theorem makeDirectoriesWithin_eq {m n : Nat} (hm : path.text.length < m)
    (hn : path.text.length < n) :
    tree.makeDirectoriesWithin path m = tree.makeDirectoriesWithin path n := by
  induction m generalizing path n with
  | zero => omega
  | succ m ih =>
    obtain ⟨n, rfl⟩ : ∃ k, n = k + 1 := ⟨n - 1, by omega⟩
    rw [makeDirectoriesWithin, makeDirectoriesWithin]
    split
    · rfl
    · rename_i hne
      split
      · rfl
      · rename_i parent _ hparent
        have hlt := Path.length_lt_of_parent? hparent hne
        rw [ih (by omega) (by omega : parent.text.length < n)]
      · rfl

theorem isDirectory_parent (h : tree.ensureDirectory path = .ok tree')
    (hp : path.parent? = some p) : p.text = "" ∨ tree.isDirectory p = true := by
  rcases Path.parent?_cases hp with he | ⟨hinit, name, rest, hnames⟩
  · exact .inl he
  by_cases hne : p.text = ""
  · exact .inl hne
  obtain ⟨start, l, hs, hw⟩ : ∃ start l, tree.start path = .ok start ∧
      tree.walk start path.names = .ok l := by
    unfold ensureDirectory at h
    split at h
    · obtain ⟨start, l, hs, hw, -⟩ := exists_of_makeDirectory ‹_›
      exact ⟨start, l, hs, hw⟩
    · split at h
      · obtain ⟨start, l, hs, hw, -⟩ := walk_of_isDirectory ‹_›
        exact ⟨start, l, hs, hw⟩
      · cases h
  right
  rw [hnames, walk_append] at hw
  obtain ⟨d, hd, hw⟩ := exists_of_bind_eq_ok hw
  have he : tree.entry? d = some .directory := by
    rw [walk_cons] at hw
    split at hw
    · cases hw
    · assumption
    · cases hw
  exact isDirectory_of_walk (start_of_initial hs hinit hne) hd he

theorem makeDirectoriesWithin_of_isDirectory (h : p.text = "" ∨ tree.isDirectory p = true)
    (depth : Nat) : tree.makeDirectoriesWithin p (depth + 1) = (.ok (), tree) := by
  rw [makeDirectoriesWithin]
  split
  · rfl
  · rename_i hne
    rw [ensureDirectory_of_isDirectory (h.resolve_left hne)]

theorem isDirectory_of_makeDirectoriesWithin {depth : Nat}
    (h : tree.makeDirectoriesWithin path depth = (.ok (), tree')) :
    path.text = "" ∨ tree'.isDirectory path = true := by
  cases depth with
  | zero => cases h
  | succ depth =>
    rw [makeDirectoriesWithin] at h
    split at h
    · exact .inl ‹_›
    · right
      split at h
      · rename_i he
        cases h
        exact isDirectory_of_ensureDirectory he
      · split at h
        · cases h
        · split at h
          · rename_i he
            cases h
            exact isDirectory_of_ensureDirectory he
          · cases h
      · cases h

/-- Directories that could not all be made cannot be made afterwards either. -/
theorem makeDirectoriesWithin_again {depth : Nat}
    (h : tree.makeDirectoriesWithin path depth = (.error fault, tree')) :
    ∃ fault', tree'.makeDirectoriesWithin path depth = (.error fault', tree') := by
  induction depth generalizing path fault with
  | zero =>
    cases h
    exact ⟨_, rfl⟩
  | succ depth ih =>
    have hsame : tree' = tree → ∃ fault', tree'.makeDirectoriesWithin path (depth + 1) =
        (.error fault', tree') := by
      rintro rfl
      exact ⟨fault, h⟩
    rw [makeDirectoriesWithin] at h
    split at h
    · cases h
    · rename_i hne
      split at h
      · cases h
      · rename_i parent hensure hparent
        rw [makeDirectoriesWithin, if_neg hne, hparent]
        split at h
        · -- what the path is in cannot be made, so that the path still leads nowhere
          rename_i hm
          cases h
          obtain ⟨fault', hagain⟩ := ih hm
          cases he : tree'.ensureDirectory path with
          | error fault'' => cases fault'' <;> simp [hagain]
          | ok t =>
            cases depth with
            | zero =>
              cases hm
              cases he.symm.trans hensure
            | succ depth =>
              have hp := isDirectory_parent he hparent
              cases hagain.symm.trans (makeDirectoriesWithin_of_isDirectory hp depth)
        · rename_i hm
          split at h
          · cases h
          · rename_i he
            cases h
            have hp := isDirectory_of_makeDirectoriesWithin hm
            cases depth with
            | zero => cases hm
            | succ depth =>
              have hagain := makeDirectoriesWithin_of_isDirectory hp depth
              rw [he]
              cases fault <;> simp [hagain, he]
      · cases h
        exact hsame rfl

theorem prepareDirectory_again (h : tree.prepareDirectory path = (.error fault, tree')) :
    ∃ fault', tree'.prepareDirectory path = (.error fault', tree') :=
  makeDirectoriesWithin_again h

theorem prepareDirectory_of_spares (h : tree.prepareDirectory path = (.ok (), tree₁))
    (hs : Spares touched tree₁ tree') : tree'.prepareDirectory path = (.ok (), tree') :=
  makeDirectoriesWithin_of_isDirectory
    ((isDirectory_of_makeDirectoriesWithin h).imp_right hs.isDirectory) _

end Linearizability.FileTree
