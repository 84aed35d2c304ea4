import Linearizability.Proofs.Linearization
import Linearizability.Proofs.Page.Markup

/-! # What the rows of a page show

The rows of a section show the operations of its finding, and the states that the model reaches
along the longest order linearized. Whatever texts they have, the page has the tags of its
outcomes, marks and numbers of rows, and its cells are read back as they are.
-/

namespace Linearizability

variable {S I O : Type}

/-- The longest order linearized, without operations if there is none. -/
def Finding.longest (finding : Finding) : List Nat := finding.longest?.getD []

structure OperationRow.Shows (model : Model S I O) (history : List (Operation I O))
    (operation : Operation I O) (row : OperationRow) : Prop where
  index : history[row.index]? = some operation
  client : row.client = operation.client
  call : row.call = operation.call
  ret : row.ret = operation.ret
  description : row.description = model.describeOperation operation.input operation.output

/-- A row shows the step at a place of an order, and the state after all steps up to it. -/
structure ReplayRow.Shows (model : Model S I O) (history : List (Operation I O))
    (order : List Nat) (k : Nat) (row : ReplayRow) : Prop where
  step : row.step = k + 1
  index : order[k]? = some row.index
  description : ∃ operation, history[row.index]? = some operation ∧
    row.description = model.describeOperation operation.input operation.output
  state : ∃ s, model.replay ((operationsAt history (order.take (k + 1))).map Operation.exchange) =
    .ok s ∧ row.state = model.describeState s

/-- A section shows a finding: its operations as far as they are in the history, those of its
longest order marked, and a replay of that order as far as it goes. -/
structure GroupSection.Shows (model : Model S I O) (history : List (Operation I O))
    (finding : Finding) (s : GroupSection) : Prop where
  outcome : s.outcome = finding.outcome
  indices : s.operations.map OperationRow.index = finding.operations.filter (· < history.length)
  operations : ∀ row ∈ s.operations, ∃ operation, OperationRow.Shows model history operation row
  marked : ∀ row ∈ s.operations, row.linearized = finding.longest.contains row.index
  initial : s.initial = model.describeState model.init
  replay : ∀ k row, s.replay[k]? = some row → ReplayRow.Shows model history finding.longest k row

namespace Page

variable {model : Model S I O} {history : List (Operation I O)} {longest indices order : List Nat}
  {operation : Operation I O} {i n : Nat} {s t : S}

theorem shows_of_mem_operationRows {row : OperationRow}
    (h : row ∈ operationRows model history.toArray longest indices) :
    (∃ operation, OperationRow.Shows model history operation row) ∧
      row.linearized = longest.contains row.index := by
  obtain ⟨i, -, hi⟩ := List.mem_filterMap.mp h
  obtain ⟨operation, ho, rfl⟩ := Option.map_eq_some_iff.mp hi
  rw [List.getElem?_toArray] at ho
  exact ⟨⟨operation, ho, rfl, rfl, rfl, rfl⟩, rfl⟩

theorem map_index_operationRows (model : Model S I O) (history : List (Operation I O))
    (longest indices : List Nat) :
    (operationRows model history.toArray longest indices).map OperationRow.index =
      indices.filter (· < history.length) := by
  rw [operationRows, List.map_filterMap, ← List.filterMap_eq_filter]
  refine List.filterMap_congr fun i _ => ?_
  by_cases hi : i < history.length
  · simp [hi, Option.guard]
  · simp [hi, Option.guard]

theorem replayRows_cons (hi : history[i]? = some operation)
    (ht : model.next? s operation.exchange = some t) (n : Nat) (order : List Nat) :
    replayRows model history.toArray n s (i :: order) =
      ⟨n, i, model.describeOperation operation.input operation.output, model.describeState t⟩ ::
        replayRows model history.toArray (n + 1) t order := by
  rw [Model.next?, Operation.exchange] at ht
  rw [replayRows, List.getElem?_toArray, hi]
  rcases hs : model.step s operation.input operation.output with ⟨_ | _, u⟩
  · simp [hs] at ht
  · simp_all

theorem replayRows_cons_eq_nil_or (model : Model S I O) (history : List (Operation I O)) (n : Nat)
    (s : S) (i : Nat) (order : List Nat) :
    replayRows model history.toArray n s (i :: order) = [] ∨
      ∃ operation t, history[i]? = some operation ∧
        model.next? s operation.exchange = some t := by
  rw [replayRows, List.getElem?_toArray]
  rcases history[i]? with _ | operation
  · exact .inl rfl
  · rcases hs : model.step s operation.input operation.output with ⟨_ | _, t⟩
    · simp [hs]
    · exact .inr ⟨operation, t, rfl, by simp [Model.next?, Operation.exchange, hs]⟩

theorem operationsAt_cons (hi : history[i]? = some operation) (order : List Nat) :
    operationsAt history (i :: order) = operation :: operationsAt history order := by
  rw [operationsAt, List.filterMap_cons_some hi, operationsAt]

theorem getElem?_replayRows {k : Nat} {row : ReplayRow}
    (h : (replayRows model history.toArray n s order)[k]? = some row) :
    row.step = n + k ∧ order[k]? = some row.index ∧
      (∃ operation, history[row.index]? = some operation ∧
        row.description = model.describeOperation operation.input operation.output) ∧
      ∃ t, model.after? s
          ((operationsAt history (order.take (k + 1))).map Operation.exchange) = some t ∧
        row.state = model.describeState t := by
  induction order generalizing n s k with
  | nil => simp [replayRows] at h
  | cons i order ih =>
    rcases replayRows_cons_eq_nil_or model history n s i order with hn | ⟨operation, t, hi, ht⟩
    · simp [hn] at h
    rw [replayRows_cons hi ht] at h
    rw [List.take_succ_cons, operationsAt_cons hi, List.map_cons, Model.after?_cons, ht,
      Option.bind_some]
    cases k with
    | zero =>
      obtain rfl := Option.some.inj h
      exact ⟨rfl, rfl, ⟨operation, hi, rfl⟩, t, by simp [operationsAt], rfl⟩
    | succ k =>
      obtain ⟨hs, hr⟩ := ih h
      exact ⟨by omega, hr⟩

theorem shows_sectionOf (model : Model S I O) (history : List (Operation I O)) (index : Nat)
    (finding : Finding) : (sectionOf model history.toArray index finding).Shows model history
      finding where
  outcome := rfl
  indices := map_index_operationRows ..
  operations _ hr := (shows_of_mem_operationRows hr).1
  marked _ hr := (shows_of_mem_operationRows hr).2
  initial := rfl
  replay := by
    intro k row hr
    obtain ⟨hs, hi, hd, t, ht, hst⟩ := getElem?_replayRows hr
    exact ⟨by omega, hi, hd, t, Model.replay_eq_ok_iff.mpr ht, hst⟩

theorem shows_of (model : Model S I O) (history : List (Operation I O)) (findings : List Finding) :
    List.Forall₂ (GroupSection.Shows model history) findings
      (Page.of model history findings).sections := by
  rw [Page.of, List.forall₂_iff_get]
  refine ⟨by simp, fun k _ _ => ?_⟩
  simp only [List.get_eq_getElem, List.getElem_mapIdx]
  exact shows_sectionOf ..

/-- The tags of a page depend on the outcomes, on the rows that are marked and on the numbers of
rows, and on no text. What its headings and tables hold is read back from its text as it is, and
it is what the model describes of each operation and of each state. -/
theorem texts_add_no_markup (model : Model S I O) (history : List (Operation I O))
    (findings : List Finding) :
    (Html.marks (Page.of model history findings).write).map Html.Mark.tag =
        pageTags ((Page.of model history findings).sections.map shapeOf) ∧
      parts (Page.of model history findings).write =
        (Page.of model history findings).sections.flatMap sectionParts ∧
      List.Forall₂ (GroupSection.Shows model history) findings
        (Page.of model history findings).sections := by
  refine ⟨?_, parts_write _, shows_of model history findings⟩
  rw [marks_write]
  exact tagsOf_html _

end Page

end Linearizability
