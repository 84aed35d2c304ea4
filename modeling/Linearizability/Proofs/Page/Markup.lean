import Linearizability.Page
import Linearizability.Proofs.Html

/-! # What is read off a page

The tags of a page depend on the outcomes, on the rows that are marked and on the numbers of rows,
whatever texts the operations have. Its headings and tables are read off its text again, with all
texts in their cells as they are.
-/

namespace Linearizability

open Html

variable {S I O : Type}

namespace Page

/-! ## Tags -/

/-- What the tags of a section depend on. -/
structure Shape where
  outcome : Outcome
  /-- For each row of an operation, whether it is marked as linearized. -/
  marked : List Bool
  /-- The number of rows of the replay, but for the initial one. -/
  replayed : Nat

def shapeOf (s : GroupSection) : Shape :=
  ⟨s.outcome, s.operations.map OperationRow.linearized, s.replay.length⟩

def rowTags (opening cell : String) (cells : Nat) : List String :=
  opening :: (List.replicate cells [cell, "/" ++ cell]).flatten ++ ["/tr"]

def rowOpening (marked : Bool) : String := if marked then "tr class=\"linearized\"" else "tr"

def Shape.tags (shape : Shape) : List String :=
  ["h2", "span class=\"" ++ (outcomeLabel shape.outcome).1 ++ "\"", "/span", "/h2", "table"] ++
  rowTags "tr" "th" 5 ++
  shape.marked.flatMap (fun marked => rowTags (rowOpening marked) "td" 5) ++
  ["/table", "h3", "/h3", "table"] ++
  rowTags "tr" "th" 4 ++
  (List.replicate (shape.replayed + 1) (rowTags "tr" "td" 4)).flatten ++
  ["/table"]

/-- The tags of a page with sections of the given shapes. -/
def pageTags (shapes : List Shape) : List String :=
  ["!DOCTYPE html", "html", "head", "meta charset=\"utf-8\"", "title", "/title", "style", "/style",
    "/head", "body", "h1", "/h1", "p", "/p"] ++
  shapes.flatMap Shape.tags ++
  ["/body", "/html"]

def tagsOf (page : List Html) : List String := (toMarks page).map Mark.tag

theorem tagsOf_append (a b : List Html) : tagsOf (a ++ b) = tagsOf a ++ tagsOf b := by
  induction a with
  | nil => rfl
  | cons head a ih => cases head <;> simp_all [tagsOf, toMarks]

theorem tagsOf_flatMap {α : Type} (f : α → List Html) (l : List α) :
    tagsOf (l.flatMap f) = l.flatMap fun x => tagsOf (f x) := by
  induction l with
  | nil => rfl
  | cons x l ih => rw [List.flatMap_cons, tagsOf_append, ih, List.flatMap_cons]

theorem tagsOf_row (opening cell : String) (texts : List String) :
    tagsOf (row opening cell texts) = rowTags opening cell texts.length := by
  have hcells : (cellMarks cell texts).map Mark.tag =
      (List.replicate texts.length [cell, "/" ++ cell]).flatten := by
    rw [cellMarks, List.map_flatMap, List.flatMap_def, ← List.map_const']
    rfl
  rw [tagsOf, toMarks_row, List.map_cons, List.map_append, hcells]
  rfl

theorem tagsOf_operationRow (operation : OperationRow) :
    tagsOf (OperationRow.write operation) = rowTags (rowOpening operation.linearized) "td" 5 :=
  tagsOf_row ..

theorem tagsOf_replayRow (replayed : ReplayRow) :
    tagsOf (ReplayRow.write replayed) = rowTags "tr" "td" 4 :=
  tagsOf_row ..

theorem tagsOf_nil : tagsOf [] = [] := rfl

theorem tagsOf_tag (content : String) (page : List Html) :
    tagsOf (tag content :: page) = content :: tagsOf page := rfl

theorem tagsOf_text (t : String) (page : List Html) : tagsOf (text t :: page) = tagsOf page := rfl

theorem tagsOf_section (s : GroupSection) : tagsOf (GroupSection.write s) = (shapeOf s).tags := by
  have hreplay : tagsOf (s.replay.flatMap ReplayRow.write) =
      (List.replicate s.replay.length (rowTags "tr" "td" 4)).flatten := by
    rw [tagsOf_flatMap]
    simp only [tagsOf_replayRow, List.flatMap_def, List.map_const']
  have hoperations : tagsOf (s.operations.flatMap OperationRow.write) =
      (shapeOf s).marked.flatMap fun marked => rowTags (rowOpening marked) "td" 5 := by
    rw [tagsOf_flatMap, shapeOf, List.flatMap_map]
    simp only [tagsOf_operationRow]
  simp [GroupSection.write, Shape.tags, tableHead, line, element, tagsOf_append, tagsOf_nil,
    tagsOf_tag, tagsOf_text, tagsOf_row, hreplay, hoperations, List.replicate_succ]
  exact ⟨rfl, rfl⟩

theorem tagsOf_html (page : Page) : tagsOf page.html = pageTags (page.sections.map shapeOf) := by
  have hsections : tagsOf (page.sections.flatMap GroupSection.write) =
      (page.sections.map shapeOf).flatMap Shape.tags := by
    rw [tagsOf_flatMap, List.flatMap_map]
    simp only [tagsOf_section]
  simp [html, pageTags, line, element, tagsOf_append, tagsOf_nil, tagsOf_tag, tagsOf_text,
    hsections]

def Closed (tags : List String) : Prop := ∀ t ∈ tags, '>' ∉ t.toList

theorem closed_append {tags tags' : List String} :
    Closed (tags ++ tags') ↔ Closed tags ∧ Closed tags' :=
  List.forall_mem_append

theorem closed_rowTags {opening cell : String} (ho : opening ∈ [rowOpening true, rowOpening false])
    (hc : cell ∈ ["td", "th"]) (cells : Nat) : Closed (rowTags opening cell cells) := by
  have hopening : ∀ opening ∈ [rowOpening true, rowOpening false], '>' ∉ opening.toList := by decide
  have hcell : ∀ cell ∈ ["td", "th"], Closed [cell, "/" ++ cell] := by
    simp only [Closed]
    decide
  intro t ht
  simp only [rowTags, List.cons_append, List.mem_cons, List.mem_append, List.mem_flatten,
    List.not_mem_nil, or_false] at ht
  rcases ht with rfl | ⟨l, hl, ht⟩ | rfl
  · exact hopening t ho
  · rw [List.eq_of_mem_replicate hl] at ht
    exact hcell cell hc t ht
  · decide

theorem closed_tags (shape : Shape) : Closed shape.tags := by
  have hheading : Closed ["h2", "span class=\"" ++ (outcomeLabel shape.outcome).1 ++ "\"", "/span",
      "/h2", "table"] := by
    simp only [Closed]
    cases shape.outcome <;> decide
  have htables : Closed ["/table", "h3", "/h3", "table"] ∧ Closed ["/table"] := by
    simp only [Closed]
    decide
  have hhead : ∀ cells, Closed (rowTags "tr" "th" cells) :=
    closed_rowTags (by decide) (by decide)
  have hoperations : Closed
      (shape.marked.flatMap fun marked => rowTags (rowOpening marked) "td" 5) := by
    intro t ht
    obtain ⟨marked, _, ht⟩ := List.mem_flatMap.mp ht
    exact closed_rowTags (by cases marked <;> decide) (by decide) 5 t ht
  have hreplay : Closed (List.replicate (shape.replayed + 1) (rowTags "tr" "td" 4)).flatten := by
    intro t ht
    obtain ⟨l, hl, ht⟩ := List.mem_flatten.mp ht
    rw [List.eq_of_mem_replicate hl] at ht
    exact closed_rowTags (by decide) (by decide) 4 t ht
  simp only [Shape.tags, closed_append]
  exact ⟨⟨⟨⟨⟨⟨hheading, hhead 5⟩, hoperations⟩, htables.1⟩, hhead 4⟩, hreplay⟩, htables.2⟩

theorem closed_pageTags (shapes : List Shape) : Closed (pageTags shapes) := by
  have hframe : Closed ["!DOCTYPE html", "html", "head", "meta charset=\"utf-8\"", "title",
      "/title", "style", "/style", "/head", "body", "h1", "/h1", "p", "/p"] ∧
        Closed ["/body", "/html"] := by
    simp only [Closed]
    decide
  have hsections : Closed (shapes.flatMap Shape.tags) := by
    intro t ht
    obtain ⟨shape, _, ht⟩ := List.mem_flatMap.mp ht
    exact closed_tags shape t ht
  simp only [pageTags, closed_append]
  exact ⟨⟨hframe.1, hsections⟩, hframe.2⟩

/-- A page is found in its text, tag by tag. -/
theorem marks_write (page : Page) : marks page.write = toMarks page.html := by
  refine marks_writeAll fun content hc => ?_
  have hm : content ∈ tagsOf page.html := mem_map_tag_toMarks.mpr hc
  rw [tagsOf_html] at hm
  exact closed_pageTags _ content hm

/-! ## Headings and tables -/

/-- A heading or a table: its opening tag with the text behind it, and its rows. -/
structure Part where
  opening : Mark
  rows : List Row

def partsOf (l : List Mark) : List Part :=
  (elements ["h2", "table"] l).map fun e => ⟨e.opening, Html.rows e.contents⟩

/-- The headings and tables that are read off the text of a page. -/
def parts (s : String) : List Part := partsOf (marks s)

def operationRow (operation : OperationRow) : Row :=
  ⟨rowOpening operation.linearized, [Decimal.ofNat operation.index, operation.client.name,
    operation.call.text, operation.ret.text, operation.description]⟩

def replayRow (replayed : ReplayRow) : Row :=
  ⟨"tr", [Decimal.ofNat replayed.step, Decimal.ofNat replayed.index, replayed.description,
    replayed.state]⟩

def sectionParts (s : GroupSection) : List Part :=
  [⟨⟨"h2", "Partition " ++ Decimal.ofNat s.index ++ " "⟩, []⟩,
    ⟨⟨"table", ""⟩, ⟨"tr", ["#", "client", "call", "return", "operation"]⟩ ::
      s.operations.map operationRow⟩,
    ⟨⟨"table", ""⟩, ⟨"tr", ["step", "#", "operation", "state after"]⟩ ::
      ⟨"tr", ["", "", "(initial)", s.initial]⟩ :: s.replay.map replayRow⟩]

def tableNames : List String := ["tr", "/tr", "td", "/td", "th", "/th"]

theorem nameOf_rowOpening (marked : Bool) : nameOf (rowOpening marked) = "tr" := by
  cases marked <;> decide

theorem name_of_mem_row {opening cell : String} {texts : List String} {m : Mark}
    (ho : nameOf opening = "tr") (hc : cell ∈ ["td", "th"])
    (hm : m ∈ toMarks (row opening cell texts)) : nameOf m.tag ∈ tableNames := by
  have hcell : ∀ cell ∈ ["td", "th"],
      nameOf cell ∈ tableNames ∧ nameOf ("/" ++ cell) ∈ tableNames := by
    decide
  rw [toMarks_row, List.mem_cons, List.mem_append, List.mem_singleton] at hm
  rcases hm with rfl | hm | rfl
  · rw [ho]
    decide
  · rcases tag_of_mem_cellMarks hm with ht | ht <;> rw [ht]
    · exact (hcell cell hc).1
    · exact (hcell cell hc).2
  · decide

theorem partsOf_table {table : List Mark} (h : ∀ m ∈ table, nameOf m.tag ∈ tableNames)
    (behind : String) (l : List Mark) :
    partsOf (⟨"table", ""⟩ :: (table ++ ⟨"/table", behind⟩ :: l)) =
      ⟨⟨"table", ""⟩, Html.rows table⟩ :: partsOf l := by
  have hnames : ∀ name ∈ tableNames, name ∉ ["h2", "table"] ∧ name ≠ nameOf "/table" := by decide
  have hclosing : "/table" = "/" ++ nameOf "table" ∧ nameOf "/table" ∉ ["h2", "table"] := by decide
  have he := elements_element ["h2", "table"] ⟨"table", ""⟩ ⟨"/table", behind⟩ (by decide)
    (fun m hm => (hnames _ (h m hm)).1) hclosing.1 hclosing.2
    (fun m hm ht => (hnames _ (h m hm)).2 (congrArg nameOf ht)) l
  rw [partsOf, he, List.map_cons, partsOf]

def heading (s : GroupSection) : List Html :=
  line (element "h2" [text ("Partition " ++ Decimal.ofNat s.index ++ " "),
    tag ("span class=\"" ++ (outcomeLabel s.outcome).1 ++ "\""), text (outcomeLabel s.outcome).2,
    tag "/span"])

def replayHeading (s : GroupSection) : List Html :=
  line (element "h3" [text ("Longest partial linearization (" ++ Decimal.ofNat s.longest ++
    " of " ++ Decimal.ofNat s.total ++ ")")])

theorem partsOf_heading (s : GroupSection) (l : List Mark) :
    partsOf (toMarks (heading s) ++ l) =
      ⟨⟨"h2", "Partition " ++ Decimal.ofNat s.index ++ " "⟩, []⟩ :: partsOf l := by
  rcases hl : outcomeLabel s.outcome with ⟨kind, label⟩
  have hspan : nameOf ("span class=\"" ++ kind ++ "\"") = "span" := by
    obtain rfl : (outcomeLabel s.outcome).1 = kind := congrArg Prod.fst hl
    cases s.outcome <;> decide
  have hmarks : toMarks (heading s) ++ l =
      ⟨"h2", "Partition " ++ Decimal.ofNat s.index ++ " "⟩ ::
        ([⟨"span class=\"" ++ kind ++ "\"", label⟩, ⟨"/span", ""⟩] ++ ⟨"/h2", "\n"⟩ :: l) := by
    simp [heading, hl, line, element, toMarks, lead]
  have hnames : ∀ m ∈ ([⟨"span class=\"" ++ kind ++ "\"", label⟩, ⟨"/span", ""⟩] : List Mark),
      nameOf m.tag = "span" ∨ nameOf m.tag = "/span" := by
    simp only [List.forall_mem_cons, hspan, true_or, true_and]
    decide
  have hne : ∀ name, name = "span" ∨ name = "/span" →
      name ∉ ["h2", "table"] ∧ name ∉ ["tr"] ∧ name ≠ nameOf "/h2" := by
    rintro _ (rfl | rfl) <;> decide
  have hopening : nameOf "h2" ∈ ["h2", "table"] := by decide
  have hclosing : "/h2" = "/" ++ nameOf "h2" ∧ nameOf "/h2" ∉ ["h2", "table"] := by decide
  have he := elements_element ["h2", "table"]
    ⟨"h2", "Partition " ++ Decimal.ofNat s.index ++ " "⟩ ⟨"/h2", "\n"⟩
    hopening (fun m hm => (hne _ (hnames m hm)).1) hclosing.1 hclosing.2
    (fun m hm ht => (hne _ (hnames m hm)).2.2 (congrArg nameOf ht)) l
  have hspans : Without ["tr"] [⟨"span class=\"" ++ kind ++ "\"", label⟩, ⟨"/span", ""⟩] :=
    fun m hm => (hne _ (hnames m hm)).2.1
  have hrows := elements_append_of_without hspans []
  rw [List.append_nil] at hrows
  rw [hmarks, partsOf, he, List.map_cons, Html.rows, hrows, partsOf]
  rfl

theorem partsOf_replayHeading (s : GroupSection) (l : List Mark) :
    partsOf (toMarks (replayHeading s) ++ l) = partsOf l := by
  rw [partsOf, elements_append_of_without, partsOf]
  simp only [replayHeading, line, element, toMarks, Without, List.cons_append, List.nil_append,
    List.forall_mem_cons]
  decide

def operationTable (s : GroupSection) : List Html :=
  row "tr" "th" ["#", "client", "call", "return", "operation"] ++
    s.operations.flatMap OperationRow.write

def replayTable (s : GroupSection) : List Html :=
  row "tr" "th" ["step", "#", "operation", "state after"] ++
    (row "tr" "td" ["", "", "(initial)", s.initial] ++ s.replay.flatMap ReplayRow.write)

theorem write_section (s : GroupSection) : GroupSection.write s =
    heading s ++ (tag "table" :: operationTable s ++ (tag "/table" :: text "\n" ::
      (replayHeading s ++ (tag "table" :: replayTable s ++ [tag "/table", text "\n"])))) := by
  simp [GroupSection.write, heading, operationTable, replayHeading, replayTable, tableHead, line]

theorem toMarks_section (s : GroupSection) : toMarks (GroupSection.write s) =
    toMarks (heading s) ++ (⟨"table", ""⟩ :: (toMarks (operationTable s) ++ ⟨"/table", "\n"⟩ ::
      (toMarks (replayHeading s) ++ (⟨"table", ""⟩ ::
        (toMarks (replayTable s) ++ [⟨"/table", "\n"⟩]))))) := by
  have htable : ∀ table rest : List Html, lead (table ++ rest) = "" → lead rest = "" →
      toMarks (tag "table" :: table ++ rest) =
        ⟨"table", ""⟩ :: (toMarks table ++ toMarks rest) := by
    intro table rest ht hr
    rw [List.cons_append, toMarks, ht, toMarks_append hr]
  rw [write_section, toMarks_append rfl, htable _ _ rfl rfl, toMarks, toMarks, toMarks_append rfl,
    htable _ _ rfl rfl]
  rfl

theorem rows_operationTable (s : GroupSection) : Html.rows (toMarks (operationTable s)) =
    ⟨"tr", ["#", "client", "call", "return", "operation"]⟩ :: s.operations.map operationRow := by
  have hrows := rows_flatMap_row (fun operation => rowOpening (OperationRow.linearized operation))
    "td" (fun operation => (operationRow operation).cells)
    (fun _ => nameOf_rowOpening _) (by decide) s.operations
  rw [operationTable, toMarks_append (lead_flatMap fun _ _ => rfl),
    rows_row (by decide) (by decide), toMarks_flatMap fun _ _ => rfl]
  exact congrArg _ hrows

theorem rows_replayTable (s : GroupSection) : Html.rows (toMarks (replayTable s)) =
    ⟨"tr", ["step", "#", "operation", "state after"]⟩ ::
      ⟨"tr", ["", "", "(initial)", s.initial]⟩ :: s.replay.map replayRow := by
  have hrows := rows_flatMap_row (fun _ => "tr") "td" (fun replayed => (replayRow replayed).cells)
    (fun _ => by decide) (by decide) s.replay
  rw [replayTable, toMarks_append rfl, rows_row (by decide) (by decide),
    toMarks_append (lead_flatMap fun _ _ => rfl), rows_row (by decide) (by decide),
    toMarks_flatMap fun _ _ => rfl]
  exact congrArg _ (congrArg _ hrows)

theorem name_of_mem_operationTable {s : GroupSection} {m : Mark}
    (hm : m ∈ toMarks (operationTable s)) : nameOf m.tag ∈ tableNames := by
  rw [operationTable, toMarks_append (lead_flatMap fun _ _ => rfl), toMarks_flatMap fun _ _ => rfl,
    List.mem_append, List.mem_flatMap] at hm
  rcases hm with hm | ⟨operation, _, hm⟩
  · exact name_of_mem_row (by decide) (by decide) hm
  · exact name_of_mem_row (nameOf_rowOpening operation.linearized) (by decide) hm

theorem name_of_mem_replayTable {s : GroupSection} {m : Mark}
    (hm : m ∈ toMarks (replayTable s)) : nameOf m.tag ∈ tableNames := by
  rw [replayTable, toMarks_append rfl, toMarks_append (lead_flatMap fun _ _ => rfl),
    toMarks_flatMap fun _ _ => rfl, List.mem_append, List.mem_append, List.mem_flatMap] at hm
  rcases hm with hm | hm | ⟨replayed, _, hm⟩
  · exact name_of_mem_row (by decide) (by decide) hm
  · exact name_of_mem_row (by decide) (by decide) hm
  · exact name_of_mem_row (by decide) (by decide) hm

theorem partsOf_section (s : GroupSection) (l : List Mark) :
    partsOf (toMarks (GroupSection.write s) ++ l) = sectionParts s ++ partsOf l := by
  rw [toMarks_section]
  simp only [List.append_assoc, List.cons_append]
  rw [partsOf_heading, partsOf_table fun _ => name_of_mem_operationTable, partsOf_replayHeading,
    partsOf_table fun _ => name_of_mem_replayTable, rows_operationTable, rows_replayTable]
  rfl

theorem partsOf_flatMap_section (sections : List GroupSection) (l : List Mark) :
    partsOf (toMarks (sections.flatMap GroupSection.write) ++ l) =
      sections.flatMap sectionParts ++ partsOf l := by
  induction sections generalizing l with
  | nil => rfl
  | cons s sections ih =>
    rw [List.flatMap_cons, toMarks_append (lead_flatMap fun _ _ => rfl), List.append_assoc,
      partsOf_section, ih, List.flatMap_cons, List.append_assoc]

def top (page : Page) : List Html :=
  line [tag "!DOCTYPE html"] ++
  line [tag "html", tag "head", tag "meta charset=\"utf-8\""] ++
  line (element "title" [text "kvlin linearizability report"]) ++
  line (element "style" [text style] ++ [tag "/head", tag "body"]) ++
  line (element "h1" [text "Linearizability report"]) ++
  line (element "p" [text (Decimal.ofNat page.operations ++ " operations in " ++
    Decimal.ofNat page.sections.length ++ " partitions; longest partial linearization: " ++
    Decimal.ofNat page.longest)])

theorem without_top (page : Page) : Without ["h2", "table"] (toMarks (top page)) := by
  simp only [top, line, element, toMarks, Without, List.cons_append, List.nil_append,
    List.forall_mem_cons]
  decide

/-- The headings and tables of a page are found in its text. -/
theorem parts_write (page : Page) : parts page.write = page.sections.flatMap sectionParts := by
  have hhtml : page.html = top page ++ (page.sections.flatMap GroupSection.write ++
      line [tag "/body", tag "/html"]) := by
    simp [html, top]
  have hlead :
      lead (page.sections.flatMap GroupSection.write ++ line [tag "/body", tag "/html"]) = "" :=
    (lead_append rfl).trans (lead_flatMap fun _ _ => rfl)
  have hend : partsOf (toMarks (line [tag "/body", tag "/html"])) = [] := by decide
  rw [parts, marks_write, hhtml, toMarks_append hlead, partsOf,
    elements_append_of_without (without_top page), ← partsOf, toMarks_append rfl,
    partsOf_flatMap_section, hend, List.append_nil]

end Page

end Linearizability
