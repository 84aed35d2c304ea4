import Linearizability.Html
import Mathlib.Data.List.TakeWhile

/-! # Reading HTML

The tags of a page are found again in its text, each with the text behind it: what is escaped holds
no angle brackets, and its references stand for the characters that were escaped. Elements that are
not nested are found by their tags.
-/

namespace Linearizability.Html

/-! ## References -/

/-- The character that a reference stands for, by what is between ampersand and semicolon. -/
def referenced? : List Char → Option Char
  | ['a', 'm', 'p'] => some '&'
  | ['l', 't'] => some '<'
  | ['g', 't'] => some '>'
  | ['q', 'u', 'o', 't'] => some '"'
  | ['a', 'p', 'o', 's'] => some '\''
  | '#' :: digits =>
    if digits ≠ [] ∧ digits.all Char.isDigit then
      some (Char.ofNat (digits.foldl (fun n c => n * 10 + (c.toNat - 48)) 0))
    else none
  | _ => none

def reference? (s : List Char) : Option (Char × List Char) :=
  match s.dropWhile (· ≠ ';') with
  | [] => none
  | _ :: rest => (referenced? (s.takeWhile (· ≠ ';'))).map fun c => (c, rest)

theorem length_lt_of_reference? {s rest : List Char} {c : Char}
    (h : reference? s = some (c, rest)) : rest.length < s.length := by
  unfold reference? at h
  split at h
  · cases h
  · rename_i hs
    obtain ⟨_, _, he⟩ := Option.map_eq_some_iff.mp h
    obtain rfl := congrArg Prod.snd he
    have := (List.dropWhile_sublist (l := s) (· ≠ ';')).length_le
    rw [hs, List.length_cons] at this
    exact this

/-- A text with its references replaced by the characters they stand for. -/
def decode : List Char → List Char
  | [] => []
  | c :: s =>
    if c = '&' then
      match _h : reference? s with
      | some (d, rest) => d :: decode rest
      | none => c :: decode s
    else c :: decode s
termination_by s => s.length
decreasing_by
  · have := length_lt_of_reference? ‹_›
    simp only [List.length_cons]
    omega
  · simp
  · simp

theorem decode_reference {s rest : List Char} {c : Char} (h : reference? s = some (c, rest)) :
    decode ('&' :: s) = c :: decode rest := by
  rw [decode, if_pos rfl]
  split <;> rename_i hs <;> cases h.symm.trans hs
  rfl

theorem decode_cons_of_ne {c : Char} (h : c ≠ '&') (s : List Char) :
    decode (c :: s) = c :: decode s := by
  rw [decode, if_neg h]

theorem escapeChar_cases (c : Char) :
    (∃ name, escapeChar c = '&' :: name ∧ '<' ∉ name ∧
        ∀ s, reference? (name ++ s) = some (c, s)) ∨
      escapeChar c = [c] ∧ c ≠ '&' ∧ c ≠ '<' := by
  unfold escapeChar
  split
  · exact .inl ⟨_, rfl, by decide, fun _ => rfl⟩
  · exact .inl ⟨_, rfl, by decide, fun _ => rfl⟩
  · exact .inl ⟨_, rfl, by decide, fun _ => rfl⟩
  · exact .inl ⟨_, rfl, by decide, fun _ => rfl⟩
  · exact .inl ⟨_, rfl, by decide, fun _ => rfl⟩
  · rename_i hamp hlt _ _ _
    exact .inr ⟨rfl, hamp, hlt⟩

theorem decode_escape_append (s t : List Char) :
    decode (s.flatMap escapeChar ++ t) = s ++ decode t := by
  induction s with
  | nil => rfl
  | cons c s ih =>
    rw [List.flatMap_cons, List.append_assoc]
    rcases escapeChar_cases c with ⟨name, he, _, hr⟩ | ⟨he, hne, _⟩
    · rw [he, List.cons_append, decode_reference (hr _), ih, List.cons_append]
    · rw [he, List.singleton_append, decode_cons_of_ne hne, ih, List.cons_append]

theorem notMem_escape (s : List Char) : '<' ∉ s.flatMap escapeChar := by
  rw [List.mem_flatMap]
  rintro ⟨c, _, hc⟩
  rcases escapeChar_cases c with ⟨name, he, hn, _⟩ | ⟨he, _, hne⟩
  · rw [he] at hc
    exact hn (by simpa using hc)
  · rw [he, List.mem_singleton] at hc
    exact hne hc.symm

/-! ## Tags -/

/-- A tag, by what stands between its angle brackets, and the text behind it up to the next tag. -/
structure Mark where
  tag : String
  text : String
  deriving DecidableEq

/-- The next tag, from an opening angle bracket to the next closing one, and what follows it. -/
def nextTag? (s : List Char) : Option (List Char × List Char) :=
  let opened := (s.dropWhile (· ≠ '<')).drop 1
  match opened.dropWhile (· ≠ '>') with
  | [] => none
  | _ :: rest => some (opened.takeWhile (· ≠ '>'), rest)

theorem length_lt_of_nextTag? {s content rest : List Char} (h : nextTag? s = some (content, rest)) :
    rest.length < s.length := by
  unfold nextTag? at h
  dsimp only at h
  split at h
  · cases h
  · rename_i hr
    obtain ⟨-, rfl⟩ := Prod.mk.inj (Option.some.inj h)
    have hs := (List.dropWhile_sublist (l := s) (· ≠ '<')).length_le
    have ho := (List.dropWhile_sublist (l := (s.dropWhile (· ≠ '<')).drop 1) (· ≠ '>')).length_le
    rw [hr, List.length_cons, List.length_drop] at ho
    omega

def marksOf (s : List Char) : List Mark :=
  match _h : nextTag? s with
  | none => []
  | some (content, rest) =>
    ⟨.ofList content, .ofList (decode (rest.takeWhile (· ≠ '<')))⟩ :: marksOf rest
termination_by s.length
decreasing_by exact length_lt_of_nextTag? ‹_›

def marks (s : String) : List Mark := marksOf s.toList

/-- The text in front of the first tag. -/
def lead : List Html → String
  | text s :: rest => s ++ lead rest
  | _ => ""

def toMarks : List Html → List Mark
  | [] => []
  | tag content :: rest => ⟨content, lead rest⟩ :: toMarks rest
  | text _ :: rest => toMarks rest

theorem dropWhile_ne_append {c : Char} {s t : List Char} (h : c ∉ s) :
    (s ++ c :: t).dropWhile (· ≠ c) = c :: t ∧ (s ++ c :: t).takeWhile (· ≠ c) = s := by
  have hs : ∀ d ∈ s, decide (d ≠ c) = true := fun d hd =>
    decide_eq_true fun he => h (he ▸ hd)
  rw [List.dropWhile_append_of_pos hs, List.takeWhile_append_of_pos hs]
  simp

theorem marksOf_of_none {s : List Char} (h : nextTag? s = none) : marksOf s = [] := by
  rw [marksOf]
  split <;> rename_i hs <;> cases h.symm.trans hs
  rfl

theorem marksOf_of_some {s content rest : List Char} (h : nextTag? s = some (content, rest)) :
    marksOf s =
      ⟨.ofList content, .ofList (decode (rest.takeWhile (· ≠ '<')))⟩ :: marksOf rest := by
  rw [marksOf]
  split <;> rename_i hs <;> cases h.symm.trans hs
  rfl

theorem nextTag?_tag {content : List Char} (h : '>' ∉ content) (t : List Char) :
    nextTag? ('<' :: (content ++ '>' :: t)) = some (content, t) := by
  obtain ⟨hdrop, htake⟩ := dropWhile_ne_append (t := t) h
  have hopened : (('<' :: (content ++ '>' :: t)).dropWhile (· ≠ '<')).drop 1 =
      content ++ '>' :: t := by
    simp
  rw [nextTag?, hopened]
  simp only [hdrop, htake]

theorem marksOf_append {s : List Char} (h : '<' ∉ s) (t : List Char) :
    marksOf (s ++ t) = marksOf t := by
  have hs : (s ++ t).dropWhile (· ≠ '<') = t.dropWhile (· ≠ '<') :=
    List.dropWhile_append_of_pos fun c hc => decide_eq_true fun he => h (he ▸ hc)
  have hn : nextTag? (s ++ t) = nextTag? t := by rw [nextTag?, hs, nextTag?]
  cases ht : nextTag? t with
  | none => rw [marksOf_of_none ht, marksOf_of_none (hn.trans ht)]
  | some found => rw [marksOf_of_some ht, marksOf_of_some (hn.trans ht)]

@[simp] theorem toList_writeAll_nil : (writeAll []).toList = [] := rfl

theorem toList_writeAll_cons (h : Html) (page : List Html) :
    (writeAll (h :: page)).toList = h.write.toList ++ (writeAll page).toList := by
  simp [writeAll, String.join_cons]

theorem toList_write_tag (content : String) :
    (write (tag content)).toList = '<' :: (content.toList ++ ['>']) := by
  simp [write]

theorem toList_write_text (s : String) : (write (text s)).toList = s.toList.flatMap escapeChar := by
  simp [write, escape]

theorem decode_takeWhile_writeAll (page : List Html) :
    decode ((writeAll page).toList.takeWhile (· ≠ '<')) = (lead page).toList := by
  induction page with
  | nil => simp [decode, lead]
  | cons h page ih =>
    rw [toList_writeAll_cons]
    cases h with
    | tag content =>
      rw [toList_write_tag]
      simp [decode, lead]
    | text s =>
      have hs : ∀ c ∈ s.toList.flatMap escapeChar, decide (c ≠ '<') = true := fun c hc =>
        decide_eq_true fun he => notMem_escape s.toList (he ▸ hc)
      rw [toList_write_text, List.takeWhile_append_of_pos hs, decode_escape_append, ih, lead,
        String.toList_append]

/-- The tags of a page are found in its text, if none holds a closing bracket. -/
theorem marks_writeAll {page : List Html}
    (h : ∀ content, tag content ∈ page → '>' ∉ content.toList) :
    marks (writeAll page) = toMarks page := by
  rw [marks]
  induction page with
  | nil => exact marksOf_of_none rfl
  | cons head page ih =>
    have hpage := ih fun content hc => h content (List.mem_cons_of_mem _ hc)
    rw [toList_writeAll_cons]
    cases head with
    | tag content =>
      have hn := nextTag?_tag (h content List.mem_cons_self) (writeAll page).toList
      rw [toList_write_tag, List.cons_append, List.append_assoc, List.singleton_append,
        marksOf_of_some hn, decode_takeWhile_writeAll, hpage, toMarks, String.ofList_toList,
        String.ofList_toList]
    | text s => rw [toList_write_text, marksOf_append (notMem_escape _), hpage, toMarks]

section ToMarks

variable {α : Type} {a b page : List Html} {f : α → List Html} {l : List α}

theorem lead_append (h : lead b = "") : lead (a ++ b) = lead a := by
  induction a with
  | nil => exact h
  | cons head a ih =>
    cases head with
    | tag => rfl
    | text s => rw [List.cons_append, lead, lead, ih]

theorem toMarks_append (h : lead b = "") : toMarks (a ++ b) = toMarks a ++ toMarks b := by
  induction a with
  | nil => rfl
  | cons head a ih =>
    cases head with
    | tag content => rw [List.cons_append, toMarks, toMarks, lead_append h, ih, List.cons_append]
    | text => rw [List.cons_append, toMarks, toMarks, ih]

theorem lead_flatMap (h : ∀ x ∈ l, lead (f x) = "") : lead (l.flatMap f) = "" := by
  induction l with
  | nil => rfl
  | cons x l ih =>
    rw [List.forall_mem_cons] at h
    rw [List.flatMap_cons, lead_append (ih h.2), h.1]

theorem toMarks_flatMap (h : ∀ x ∈ l, lead (f x) = "") :
    toMarks (l.flatMap f) = l.flatMap fun x => toMarks (f x) := by
  induction l with
  | nil => rfl
  | cons x l ih =>
    rw [List.forall_mem_cons] at h
    rw [List.flatMap_cons, toMarks_append (lead_flatMap h.2), ih h.2, List.flatMap_cons]

theorem mem_map_tag_toMarks {content : String} :
    content ∈ (toMarks page).map Mark.tag ↔ tag content ∈ page := by
  induction page with
  | nil => simp [toMarks]
  | cons head page ih => cases head <;> simp [toMarks, ih]

end ToMarks

/-! ## Elements -/

/-- The name of a tag is what stands in front of its first blank. -/
def nameOf (tag : String) : String := .ofList (tag.toList.takeWhile (· ≠ ' '))

/-- An element that has no element of its own name in it: its opening tag, and the tags up to its
closing one. -/
structure Element where
  opening : Mark
  contents : List Mark

def elements (names : List String) : List Mark → List Element
  | [] => []
  | m :: rest =>
    if nameOf m.tag ∈ names then
      ⟨m, rest.takeWhile (·.tag ≠ "/" ++ nameOf m.tag)⟩ :: elements names rest
    else elements names rest

structure Row where
  opening : String
  cells : List String
  deriving DecidableEq

def rows (table : List Mark) : List Row :=
  (elements ["tr"] table).map fun e =>
    ⟨e.opening.tag, (elements ["td", "th"] e.contents).map (·.opening.text)⟩

section Elements

variable {names : List String} {m : Mark} {l l' : List Mark}

def Without (names : List String) (l : List Mark) : Prop := ∀ m ∈ l, nameOf m.tag ∉ names

theorem elements_append_of_without (h : Without names l) (l' : List Mark) :
    elements names (l ++ l') = elements names l' := by
  induction l with
  | nil => rfl
  | cons m l ih =>
    rw [Without, List.forall_mem_cons] at h
    rw [List.cons_append, elements, if_neg h.1, ih h.2]

theorem elements_element (names : List String) (opening closing : Mark)
    (ho : nameOf opening.tag ∈ names) (hl : Without names l)
    (hc : closing.tag = "/" ++ nameOf opening.tag) (hn : nameOf closing.tag ∉ names)
    (hnot : ∀ m ∈ l, m.tag ≠ closing.tag) (l' : List Mark) :
    elements names (opening :: (l ++ closing :: l')) = ⟨opening, l⟩ :: elements names l' := by
  have ht : (l ++ closing :: l').takeWhile (·.tag ≠ "/" ++ nameOf opening.tag) = l := by
    rw [List.takeWhile_append_of_pos fun m hm => decide_eq_true (hc ▸ hnot m hm)]
    simp [hc]
  rw [elements, if_pos ho, ht, elements_append_of_without hl, elements, if_neg hn]

def cellMarks (cell : String) (texts : List String) : List Mark :=
  texts.flatMap fun s => [⟨cell, s⟩, ⟨"/" ++ cell, ""⟩]

theorem toMarks_row (opening cell : String) (texts : List String) :
    toMarks (row opening cell texts) =
      ⟨opening, ""⟩ :: (cellMarks cell texts ++ [⟨"/tr", "\n"⟩]) := by
  have hcell : ∀ s, toMarks (element cell [text s]) = [⟨cell, s⟩, ⟨"/" ++ cell, ""⟩] := by
    intro s
    simp [element, toMarks, lead]
  have hcells : lead (texts.flatMap fun s => element cell [text s]) = "" :=
    lead_flatMap fun _ _ => rfl
  have hend : toMarks [tag "/tr", text "\n"] = [⟨"/tr", "\n"⟩] := rfl
  have hrow : row opening cell texts = tag opening ::
      ((texts.flatMap fun s => element cell [text s]) ++ [tag "/tr", text "\n"]) := by
    simp [row, line]
  rw [hrow, toMarks, lead_append rfl, hcells, toMarks_append rfl, hend,
    toMarks_flatMap fun _ _ => rfl]
  simp only [hcell, cellMarks]

theorem tag_of_mem_cellMarks {cell : String} {texts : List String} (h : m ∈ cellMarks cell texts) :
    m.tag = cell ∨ m.tag = "/" ++ cell := by
  obtain ⟨s, _, hm⟩ := List.mem_flatMap.mp h
  simp only [List.mem_cons, List.not_mem_nil, or_false] at hm
  rcases hm with rfl | rfl
  · exact .inl rfl
  · exact .inr rfl

theorem elements_cellMarks {cell : String} (h : cell ∈ ["td", "th"]) (texts : List String) :
    (elements ["td", "th"] (cellMarks cell texts)).map (·.opening.text) = texts := by
  have hname : nameOf cell = cell ∧ nameOf ("/" ++ cell) ∉ ["td", "th"] := by
    simp only [List.mem_cons, List.not_mem_nil, or_false] at h
    rcases h with rfl | rfl
    · decide
    · decide
  induction texts with
  | nil => rfl
  | cons s texts ih =>
    have he := elements_element (l := []) ["td", "th"] ⟨cell, s⟩ ⟨"/" ++ cell, ""⟩
      (hname.1.symm ▸ h) (by simp [Without]) (congrArg ("/" ++ ·) hname.1.symm) hname.2 (by simp)
      (cellMarks cell texts)
    rw [List.nil_append] at he
    rw [cellMarks, List.flatMap_cons, ← cellMarks, List.cons_append, List.singleton_append, he,
      List.map_cons, ih]

theorem rows_row {opening cell : String} (ho : nameOf opening = "tr") (h : cell ∈ ["td", "th"])
    (texts : List String) (l : List Mark) :
    rows (toMarks (row opening cell texts) ++ l) = ⟨opening, texts⟩ :: rows l := by
  have hname : ∀ m ∈ cellMarks cell texts, nameOf m.tag ∉ ["tr"] ∧ m.tag ≠ "/tr" := by
    intro m hm
    have ht := tag_of_mem_cellMarks hm
    simp only [List.mem_cons, List.not_mem_nil, or_false] at h
    rcases h with rfl | rfl <;> rcases ht with ht | ht <;> rw [ht] <;> decide
  have he := elements_element ["tr"] ⟨opening, ""⟩ ⟨"/tr", "\n"⟩ (List.mem_singleton.mpr ho)
    (fun m hm => (hname m hm).1) (congrArg ("/" ++ ·) ho.symm) (by decide)
    (fun m hm => (hname m hm).2) l
  rw [toMarks_row, List.cons_append, List.append_assoc, List.singleton_append, rows, he,
    List.map_cons, elements_cellMarks h, rows]

theorem rows_flatMap_row {α : Type} (opening : α → String) (cell : String)
    (texts : α → List String) (ho : ∀ x, nameOf (opening x) = "tr") (h : cell ∈ ["td", "th"])
    (l : List α) :
    rows (l.flatMap fun x => toMarks (row (opening x) cell (texts x))) =
      l.map fun x => ⟨opening x, texts x⟩ := by
  induction l with
  | nil => rfl
  | cons x l ih => rw [List.flatMap_cons, rows_row (ho x) h, ih, List.map_cons]

end Elements

end Linearizability.Html
