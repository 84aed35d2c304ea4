import Linearizability.Files.Path

/-! # The names of a path and of what it is in

The parts of a path between slashes are those of its text. The names of what a path is in come
first among its own, and the last name ends as the path does.
-/

namespace Linearizability.Path

variable {path dir p : Path} {cs ds lead rest : List Char} {c : Char} {name : String}

theorem segments_eq_splitOn (cs : List Char) : segments cs = cs.splitOn '/' := by
  induction cs with
  | nil => rfl
  | cons c cs ih =>
    rw [segments, List.splitOn_cons_eq_if_modifyHead, ih]
    by_cases hc : c = '/'
    · simp [hc]
    · rw [if_neg hc, if_neg (by simpa using hc)]
      cases hs : cs.splitOn '/' with
      | nil => exact absurd hs (List.splitOn_ne_nil _ _)
      | cons segment more => rfl

theorem not_mem_of_mem_segments {segment : List Char} (h : segment ∈ segments cs) :
    '/' ∉ segment := by
  induction cs generalizing segment with
  | nil =>
    obtain rfl : segment = [] := by simpa [segments] using h
    exact List.not_mem_nil
  | cons c cs ih =>
    rw [segments] at h
    split at h
    · rcases List.mem_cons.mp h with rfl | h
      · exact List.not_mem_nil
      · exact ih h
    · rename_i hc
      split at h
      · obtain rfl := List.mem_singleton.mp h
        simpa using Ne.symm hc
      · rename_i first more hs
        rcases List.mem_cons.mp h with rfl | h
        · have hf : '/' ∉ first := ih (by simp [hs])
          simp [Ne.symm hc, hf]
        · exact ih (by simp [hs, h])

def namesOf (cs : List Char) : List String := ((segments cs).filter (· != [])).map String.ofList

theorem namesOf_append (cs ds : List Char) :
    namesOf (cs ++ '/' :: ds) = namesOf cs ++ namesOf ds := by
  simp [namesOf, segments_eq_splitOn, List.splitOn_append_cons_self]

theorem namesOf_ne_nil {segment : List Char} (h : segment ∈ segments cs) (hne : segment ≠ []) :
    namesOf cs ≠ [] := by
  have hm : segment ∈ (segments cs).filter (· != []) := List.mem_filter.mpr ⟨h, by simpa using hne⟩
  simpa [namesOf] using List.ne_nil_of_mem hm

theorem intercalate_append {segments more : List (List Char)} (hs : segments ≠ [])
    (hm : more ≠ []) : ['/'].intercalate (segments ++ more) =
      ['/'].intercalate segments ++ '/' :: ['/'].intercalate more := by
  induction segments with
  | nil => exact absurd rfl hs
  | cons segment segments ih =>
    cases segments with
    | nil => simp [List.intercalate_cons_of_ne_nil hm]
    | cons => simpa using ih (List.cons_ne_nil _ _)

theorem split_append (cs : List Char) : (split cs).1 ++ (split cs).2 = cs := by
  unfold split
  split <;> rfl

/-- A text that starts with a dot goes on with a slash, if it goes on at all. -/
theorem split_cases (cs : List Char) :
    (split cs).1 = [] ∨ (split cs).1 = ['/'] ∨
      (split cs).1 = ['.'] ∧ ((split cs).2 = [] ∨ ∃ ds, (split cs).2 = '/' :: ds) := by
  unfold split
  split <;> simp

theorem names_of_append (h : path.text.toList = cs ++ '/' :: ds) (hp : p.names = namesOf cs)
    {segment : List Char} (hm : segment ∈ segments ds) (hne : segment ≠ []) :
    ∃ name rest, path.names = p.names ++ name :: rest := by
  obtain ⟨name, rest, hn⟩ := List.exists_cons_of_ne_nil (namesOf_ne_nil hm hne)
  refine ⟨name, rest, ?_⟩
  have hnames : path.names = namesOf path.text.toList := rfl
  rw [hnames, h, namesOf_append, hn, hp]

/-- Behind what a path is in there is a part that is not passed over. -/
theorem segments_of_trimmed {last : List Char} {above : List (List Char)}
    (h : trimmed rest = last :: above) : ∃ more, last ∈ more ∧ last ≠ [] ∧
      segments rest = (above.dropWhile isBlank).reverse ++ more := by
  obtain ⟨behind, hb⟩ := List.dropWhile_suffix (l := (segments rest).reverse) isBlank
  obtain ⟨between, hn⟩ := List.dropWhile_suffix (l := above) isBlank
  have hl := List.head?_dropWhile_not isBlank (segments rest).reverse
  rw [← trimmed, h] at hb hl
  refine ⟨between.reverse ++ last :: behind.reverse, by simp, ?_, ?_⟩
  · rintro rfl
    simp [isBlank] at hl
  · have hr := congrArg List.reverse hb.symm
    rw [← hn] at hr
    simpa using hr

/-- What a path is in is the empty path, or comes before the last names of the path. -/
theorem parent?_cases (h : path.parent? = some p) :
    p.text = "" ∨ p.text.toList <+: path.text.toList ∧
      ∃ name rest, path.names = p.names ++ name :: rest := by
  have happ := split_append path.text.toList
  have hlead := split_cases path.text.toList
  unfold parent? at h
  generalize split path.text.toList = parts at h happ hlead
  obtain ⟨lead, rest⟩ := parts
  dsimp only at h happ hlead
  split at h
  · rename_i last above ht
    obtain ⟨more, hm, hne, hs⟩ := segments_of_trimmed ht
    cases h
    generalize (above.dropWhile isBlank).reverse = kept at hs
    by_cases hk : kept = []
    · subst hk
      have hlast : last ∈ segments rest := hs ▸ hm
      obtain rfl | rfl | ⟨rfl, rfl | ⟨ds, rfl⟩⟩ := hlead
      · exact .inl rfl
      · have hroot : path.text.toList = [] ++ '/' :: rest := happ.symm
        exact .inr ⟨⟨rest, by simpa using happ⟩, names_of_append hroot rfl hlast hne⟩
      · exact absurd (by simpa [segments] using hlast) hne
      · have hds : last ∈ segments ds := (List.mem_cons.mp hlast).resolve_left hne
        exact .inr ⟨⟨_, by simpa using happ⟩, names_of_append happ.symm rfl hds hne⟩
    · have hmore : more ≠ [] := List.ne_nil_of_mem hm
      have hrest : rest = ['/'].intercalate kept ++ '/' :: ['/'].intercalate more := by
        rw [← intercalate_append hk hmore, ← hs, segments_eq_splitOn, List.intercalate_splitOn]
      have hslash : ∀ segment ∈ more, '/' ∉ segment := by
        intro segment hsm
        have hseg : segment ∈ segments rest := hs ▸ List.mem_append_right kept hsm
        exact not_mem_of_mem_segments hseg
      have hlast : last ∈ segments (['/'].intercalate more) := by
        rwa [segments_eq_splitOn, List.splitOn_intercalate _ hslash hmore]
      rw [hrest, ← List.append_assoc] at happ
      exact .inr ⟨⟨_, by simpa using happ⟩,
        names_of_append happ.symm (by simp [names, namesOf]) hlast hne⟩
  · split at h <;> cases h
    exact .inl rfl

theorem length_lt_of_parent? (h : path.parent? = some p) (hne : path.text ≠ "") :
    p.text.length < path.text.length := by
  rw [← String.length_toList, ← String.length_toList]
  rcases parent?_cases h with he | ⟨hinit, name, rest, hnames⟩
  · rw [he]
    exact List.length_pos_iff.mpr (mt String.toList_eq_nil_iff.mp hne)
  · refine Nat.lt_of_le_of_ne hinit.length_le fun heq => ?_
    have hsame : p = path := by
      cases p
      cases path
      exact congrArg _ (String.toList_inj.mp (hinit.eq_of_length heq))
    rw [hsame] at hnames
    simp at hnames

theorem getLast?_names (h : path.text.toList.getLast? = some c) (hc : c ≠ '/') :
    ∃ name, path.names.getLast? = some name ∧ name.toList.getLast? = some c := by
  obtain ⟨before, segment, hs⟩ : ∃ before segment,
      segments path.text.toList = before ++ [segment] := by
    have hne := List.splitOn_ne_nil '/' path.text.toList
    rw [← segments_eq_splitOn] at hne
    exact ⟨_, _, (List.dropLast_concat_getLast hne).symm⟩
  have htext : path.text.toList = ['/'].intercalate (before ++ [segment]) := by
    rw [← hs, segments_eq_splitOn, List.intercalate_splitOn]
  have hl : segment.getLast? = some c := by
    by_cases hb : before = []
    · rw [htext, hb] at h
      simpa using h
    · rw [htext, intercalate_append hb (by simp), List.intercalate_singleton,
        List.getLast?_append, List.getLast?_cons] at h
      cases hg : segment.getLast? with
      | none => simp [hg, Ne.symm hc] at h
      | some d => simpa [hg] using h
  have hne : segment ≠ [] := by
    rintro rfl
    cases hl
  have hnames : path.names = namesOf path.text.toList := rfl
  refine ⟨String.ofList segment, ?_, by simpa using hl⟩
  simp [hnames, namesOf, hs, hne]

theorem getLast?_join (h : name.toList.getLast? = some c) :
    (dir.join name).text.toList.getLast? = some c := by
  unfold join
  split <;> simp [h, List.getLast?_cons]

end Linearizability.Path
