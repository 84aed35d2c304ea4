import Linearizability.Proofs.Files.Path
import Linearizability.Proofs.Files.Tree

/-! # The working directory

A path that does not start at the root leads where a path from the root does that goes through the
working directory. So a file there is at one place, by whatever path it is named.
-/

namespace Linearizability

namespace Path

variable {dir : Path} {parts : List (List Char)}

theorem namesOf_intercalate (hslash : ∀ part ∈ parts, '/' ∉ part) (hne : [] ∉ parts) :
    namesOf (['/'].intercalate parts) = parts.map String.ofList := by
  by_cases hp : parts = []
  · subst hp
    rfl
  · have hkept : parts.filter (· != []) = parts := by
      refine List.filter_eq_self.mpr fun part hm => ?_
      rw [bne_iff_ne]
      rintro rfl
      exact hne hm
    rw [namesOf, segments_eq_splitOn, List.splitOn_intercalate _ hslash hp, hkept]

theorem names_join (h : dir.text ≠ "") (name : String) :
    (dir.join name).names = dir.names ++ namesOf name.toList := by
  have hdir : dir.names = namesOf dir.text.toList := rfl
  have hjoin : (dir.join name).names = namesOf (dir.join name).text.toList := rfl
  rw [hdir, hjoin, join]
  split
  · rename_i hl
    rw [List.getLast?_eq_none_iff, String.toList_eq_nil_iff] at hl
    exact absurd hl h
  · rename_i hl
    obtain ⟨cs, hcs⟩ := List.getLast?_eq_some_iff.mp hl
    have hcs' : namesOf (cs ++ ['/']) = namesOf cs := by
      rw [namesOf_append]
      exact List.append_nil _
    rw [String.toList_append, hcs, List.append_assoc, List.singleton_append, namesOf_append, hcs']
  · simp only [String.toList_append]
    exact (congrArg namesOf (List.append_assoc ..)).trans (namesOf_append _ _)

theorem endsInSlash_join {name : String} (h : name ≠ "") :
    (dir.join name).endsInSlash = Path.endsInSlash ⟨name⟩ := by
  have hne : name.toList ≠ [] := mt String.toList_eq_nil_iff.mp h
  obtain ⟨c, hc⟩ := Option.isSome_iff_exists.mp (List.getLast?_isSome.mpr hne)
  simp only [endsInSlash, getLast?_join hc, hc]

end Path

namespace Location

/-- The path to a place from the root. -/
def path (location : Location) : Path :=
  ⟨String.ofList ('/' :: ['/'].intercalate (location.names.map String.toList))⟩

/-- The names are those of files and directories, and can stand in a path. -/
structure Named (location : Location) : Prop where
  ne_empty : "" ∉ location.names
  ne_dot : "." ∉ location.names
  ne_up : ".." ∉ location.names
  no_slash : ∀ name ∈ location.names, '/' ∉ name.toList
  short : ∀ name ∈ location.names, name.utf8ByteSize ≤ FileTree.greatestName

variable {location : Location} {name : String}

theorem Named.names_path (h : location.Named) : location.path.names = location.names := by
  have hslash : ∀ part ∈ location.names.map String.toList, '/' ∉ part := by
    intro part hp
    obtain ⟨name, hn, rfl⟩ := List.mem_map.mp hp
    exact h.no_slash name hn
  have hne : [] ∉ location.names.map String.toList := by
    intro hp
    obtain ⟨name, hn, he⟩ := List.mem_map.mp hp
    exact h.ne_empty (String.toList_eq_nil_iff.mp he ▸ hn)
  have htext : location.path.names =
      Path.namesOf ([] ++ '/' :: ['/'].intercalate (location.names.map String.toList)) := by
    simp [Path.names, Path.namesOf, path]
  rw [htext, Path.namesOf_append, Path.namesOf_intercalate hslash hne, List.map_map]
  simp [Path.namesOf, Path.segments, Function.comp_def]

theorem Named.enter (h : location.Named) (hn : name ∈ location.names) (l : Location) :
    l.enter name = .ok (l.child name) := by
  have hdot : name ≠ "." := fun he => h.ne_dot (he ▸ hn)
  have hup : name ≠ ".." := fun he => h.ne_up (he ▸ hn)
  rw [Location.enter, if_neg hdot, if_neg hup, if_neg (Nat.not_lt.mpr (h.short name hn))]

end Location

namespace FileTree

variable {tree : FileTree} {path : Path}

theorem walk_workingDirectory (h : tree.workingDirectory.Named) :
    tree.walk .root tree.workingDirectory.names = .ok tree.workingDirectory := by
  have hfrom : ∀ back front, front ++ back = tree.workingDirectory.names →
      tree.walk ⟨front⟩ back = .ok tree.workingDirectory := by
    intro back
    induction back with
    | nil =>
      intro front hf
      rw [List.append_nil] at hf
      rw [walk, hf]
    | cons name back ih =>
      intro front hf
      have hlead : tree.leadsThrough ⟨front⟩ = true :=
        List.isPrefixOf_iff_prefix.mpr ⟨_, hf⟩
      have hn : name ∈ tree.workingDirectory.names := by simp [← hf]
      rw [walk_cons, directory_of_leadsThrough hlead, h.enter hn]
      exact ih (front ++ [name]) (by simpa using hf)
  exact hfrom _ [] rfl

/-- A path from the working directory leads to the same place from the root. -/
theorem locate_join_workingDirectory (h : tree.workingDirectory.Named)
    (hp : tree.start path = .ok tree.workingDirectory)
    (hj : tree.start (tree.workingDirectory.path.join path.text) = .ok .root) :
    tree.locate (tree.workingDirectory.path.join path.text) = tree.locate path := by
  have hne : path.text ≠ "" := by
    rintro he
    simp [start, he] at hp
  have hdir : tree.workingDirectory.path.text ≠ "" := by simp [Location.path]
  have hnames : Path.namesOf path.text.toList = path.names := rfl
  rw [locate, locate, hj, hp, Path.endsInSlash_join hne, Path.names_join hdir, h.names_path, hnames,
    List.append_assoc]
  simp only [bind, Except.bind, walk_append, walk_workingDirectory h]

/-- One file by three paths. -/
example : ["history.json", "/work/history.json", "../work/history.json"].map
      (fun text => (locate (.empty ⟨["work"]⟩) ⟨text⟩).toOption) =
    List.replicate 3 (some ⟨["work", "history.json"]⟩) := by
  decide +kernel

end FileTree

end Linearizability
