import Linearizability.Files.Tree

/-! # Walks, and files made anew

A file is made where its path leads. If it takes all that is written to it, it holds just that;
otherwise it holds what there is room for.
-/

namespace Linearizability

theorem exists_of_bind_eq_ok {ε α β : Type} {x : Except ε α} {f : α → Except ε β} {b : β}
    (h : (x >>= f) = .ok b) : ∃ a, x = .ok a ∧ f a = .ok b := by
  cases x with
  | error e => cases h
  | ok a => exact ⟨a, rfl, h⟩

theorem bind_ne_error {ε α β : Type} {x : Except ε α} {f : α → Except ε β} {e : ε}
    (hx : x ≠ .error e) (hf : ∀ a, f a ≠ .error e) : (x >>= f) ≠ .error e := by
  cases x with
  | error e' =>
    rintro ⟨⟩
    exact hx rfl
  | ok a => exact hf a

theorem Buffer.le_of_overflow?_eq_none {room written held : Nat} {pieces : List Bytes}
    (h : overflow? room written held (pieces.map List.length) = none) :
    written + held + pieces.flatten.length ≤ room := by
  induction pieces generalizing written held with
  | nil => simpa [overflow?] using h
  | cons piece pieces ih =>
    rw [List.map_cons, overflow?] at h
    rw [List.flatten_cons, List.length_append]
    split at h
    · have := ih h
      omega
    · split at h
      · split at h
        · have := ih h
          omega
        · cases h
      · split at h
        · have := ih h
          omega
        · cases h

theorem Buffer.lt_of_overflow?_eq_some {room written held : Nat} {stage : Stage}
    {pieces : List Bytes}
    (h : overflow? room written held (pieces.map List.length) = some stage) :
    room < written + held + pieces.flatten.length := by
  induction pieces generalizing written held with
  | nil =>
    rw [List.map_nil, overflow?] at h
    split at h
    · cases h
    · simp only [List.flatten_nil, List.length_nil]
      omega
  | cons piece pieces ih =>
    rw [List.map_cons, overflow?] at h
    rw [List.flatten_cons, List.length_append]
    split at h
    · have := ih h
      omega
    · split at h
      · split at h
        · have := ih h
          omega
        · omega
      · split at h
        · have := ih h
          omega
        · omega

def Location.enter (l : Location) (name : String) : Except FileFault Location :=
  if name = "." then .ok l
  else if name = ".." then .ok l.parent
  else if FileTree.greatestName < name.utf8ByteSize then .error .nameTooLong
  else .ok (l.child name)

namespace FileTree

variable {tree tree' tree₁ : FileTree} {location l l' : Location} {entry : Entry}
  {path : Path} {names : List String} {pieces : List Bytes}

theorem lookup_replace_self (location : Location) (entry : Entry)
    (entries : List (Location × Entry)) :
    (put.replace location entry entries).lookup location = some entry := by
  induction entries with
  | nil => simp [put.replace]
  | cons old rest ih =>
    rw [put.replace]
    split
    · simp
    · rename_i hne
      have hb : (location == old.1) = false := beq_eq_false_iff_ne.mpr (Ne.symm hne)
      rw [List.lookup_cons, hb]
      exact ih

theorem lookup_replace_of_ne (h : l ≠ location) (entry : Entry)
    (entries : List (Location × Entry)) :
    (put.replace location entry entries).lookup l = entries.lookup l := by
  have hb : (l == location) = false := beq_eq_false_iff_ne.mpr h
  induction entries with
  | nil => rw [put.replace, List.lookup_cons, hb]
  | cons old rest ih =>
    rw [put.replace, List.lookup_cons]
    split
    · rename_i heq
      rw [List.lookup_cons, heq, hb]
    · rw [List.lookup_cons, ih]

theorem leadsThrough_put (tree : FileTree) (l location : Location) (entry : Entry) :
    (tree.put l entry).leadsThrough location = tree.leadsThrough location :=
  rfl

theorem directory_of_leadsThrough (h : tree.leadsThrough location = true) :
    tree.entry? location = some .directory :=
  if_pos h

theorem leadsThrough_eq_false (h : tree.entry? location ≠ some .directory) :
    tree.leadsThrough location = false :=
  Bool.eq_false_iff.mpr fun hl => h (directory_of_leadsThrough hl)

theorem lookup_put_self (h : tree.leadsThrough location = false) (entry : Entry) :
    FileTree.entry? (tree.put location entry) location = some entry := by
  rw [ entry?, leadsThrough_put, h, if_neg Bool.false_ne_true]
  exact lookup_replace_self location entry tree.entries

theorem lookup_put_of_ne (h : l ≠ location) (tree : FileTree) (entry : Entry) :
    FileTree.entry? (tree.put location entry) l = tree.entry? l := by
  rw [ entry?, entry?, leadsThrough_put, ← lookup_replace_of_ne h entry tree.entries]
  rfl

theorem walk_cons (tree : FileTree) (l : Location) (name : String) (names : List String) :
    tree.walk l (name :: names) =
      match tree.entry? l with
      | none => .error .notFound
      | some .directory => (l.enter name).bind fun l' => tree.walk l' names
      | some _ => .error .notADirectory := by
  rw [walk, Location.enter]
  cases tree.entry? l with
  | none => rfl
  | some entry =>
    cases entry with
    | directory =>
      by_cases hdot : name = "."
      · simp [hdot, Except.bind]
      · by_cases hup : name = ".."
        · simp [hup, Except.bind]
        · by_cases hlen : greatestName < name.utf8ByteSize
          · simp [hdot, hup, hlen, Except.bind]
          · simp [hdot, hup, hlen, Except.bind]
    | file | full => rfl

theorem walk_append (tree : FileTree) (l : Location) (names names' : List String) :
    tree.walk l (names ++ names') = (tree.walk l names).bind fun l' => tree.walk l' names' := by
  induction names generalizing l with
  | nil => rfl
  | cons name names ih =>
    rw [List.cons_append, walk_cons, walk_cons]
    split
    · rfl
    · cases l.enter name with
      | error fault => rfl
      | ok l' => exact ih l'
    · rfl

theorem exists_of_place (h : tree.place path = .ok (some location)) :
    ∃ start, tree.start path = .ok start ∧ tree.walk start path.names = .ok location := by
  obtain ⟨start, hs, h⟩ := exists_of_bind_eq_ok h
  split at h
  · cases h
  · rename_i name hname
    obtain ⟨directory, hd, h⟩ := exists_of_bind_eq_ok h
    obtain ⟨l, hl, h⟩ := exists_of_bind_eq_ok h
    simp only [Except.ok.injEq, Option.ite_none_left_eq_some, Option.some.injEq, not_or] at h
    obtain ⟨-, rfl⟩ := h
    obtain ⟨names, hnames⟩ := List.getLast?_eq_some_iff.mp hname
    rw [hnames, List.dropLast_concat] at hd
    refine ⟨start, hs, ?_⟩
    rw [hnames, walk_append, hd]
    exact hl

/-- A file just made is found at its path, and nothing else has changed. -/
theorem create_cases (h : tree.create path = .ok (location, tree')) :
    tree.locate path = .ok location ∧ tree.entry? location ≠ some .directory ∧
      ( tree.entry? location = some .full ∧ tree' = tree ∨
        tree' = tree.put location (.file [])) := by
  obtain ⟨place, hp, h⟩ := exists_of_bind_eq_ok h
  cases place with
  | none => cases h
  | some l =>
    obtain ⟨start, hs, hw⟩ := exists_of_place hp
    simp only at h
    split at h
    · cases h
    · rename_i hslash
      have hl : tree.locate path = .ok l := by
        rw [locate, hs, if_neg hslash, List.append_nil]
        exact hw
      split at h
      · cases h
      · cases h
        exact ⟨hl, by simp [*], .inl ⟨‹_›, rfl⟩⟩
      · cases h
        exact ⟨hl, by simp [*], .inr rfl⟩
      · cases h
        exact ⟨hl, by simp [*], .inr rfl⟩

theorem entryAt_of_locate (hl : tree.locate path = .ok location)
    (he : tree.entry? location = some entry) : tree.entryAt path = .ok entry := by
  simp [entryAt, hl, he, bind, Except.bind]

theorem write_eq (he : tree.entry? location ≠ some .full)
    (hw : tree.write location pieces = (tree', none)) :
    tree' = tree.put location (.file pieces.flatten) := by
  rw [write] at hw
  split at hw
  · exact absurd ‹_› he
  · cases hw
    rfl
  · rename_i room _ _
    simp only [Prod.mk.injEq, Option.map_eq_none_iff] at hw
    have hle := Buffer.le_of_overflow?_eq_none hw.2
    rw [← hw.1, List.take_of_length_le (by omega)]

/-- A device that takes no byte does not take what is written to it. -/
theorem flatten_eq_nil_of_write (he : tree.entry? location = some .full)
    (hw : tree.write location pieces = (tree', none)) : pieces.flatten = [] := by
  simp only [write, he, Prod.mk.injEq, Option.map_eq_none_iff] at hw
  have hle := Buffer.le_of_overflow?_eq_none hw.2
  rw [← List.length_eq_zero_iff]
  omega

/-- A file that does not take all that is written to it keeps what there is room for. -/
theorem write_eq_of_tooLarge {stage : Buffer.Stage}
    (hw : tree.write location pieces = (tree', some (stage, .tooLarge))) :
    ∃ room < pieces.flatten.length,
      tree' = tree.put location (.file (pieces.flatten.take room)) := by
  rw [write] at hw
  split at hw
  · obtain ⟨_, _, heq⟩ := Option.map_eq_some_iff.mp (congrArg Prod.snd hw)
    cases heq
  · cases hw
  · rename_i room _ _
    obtain ⟨_, hover, _⟩ := Option.map_eq_some_iff.mp (congrArg Prod.snd hw)
    have hlt := Buffer.lt_of_overflow?_eq_some hover
    exact ⟨room, by omega, (congrArg Prod.fst hw).symm⟩

theorem walk_ne_tooLarge (tree : FileTree) (l : Location) (names : List String) :
    tree.walk l names ≠ .error .tooLarge := by
  induction names generalizing l with
  | nil => exact nofun
  | cons name names ih =>
    rw [walk]
    repeat' split
    all_goals first | exact ih _ | exact nofun

theorem place_ne_tooLarge (tree : FileTree) (path : Path) :
    tree.place path ≠ .error .tooLarge := by
  have hstart : tree.start path ≠ .error .tooLarge := by
    unfold start
    repeat' split
    all_goals exact nofun
  refine bind_ne_error hstart fun l => ?_
  split
  · exact nofun
  · refine bind_ne_error (walk_ne_tooLarge tree _ _) fun directory => ?_
    exact bind_ne_error (walk_ne_tooLarge tree _ _) fun _ => nofun

/-- Only writing can exceed the room for a file, not making it. -/
theorem create_ne_tooLarge (tree : FileTree) (path : Path) :
    tree.create path ≠ .error .tooLarge := by
  refine bind_ne_error (place_ne_tooLarge tree path) fun place => ?_
  cases place with
  | none => exact nofun
  | some l =>
    dsimp only
    repeat' split
    all_goals exact nofun

end FileTree

end Linearizability
