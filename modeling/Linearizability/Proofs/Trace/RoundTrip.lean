import Linearizability.Proofs.Files.Frame
import Linearizability.Proofs.Trace.Format
import Linearizability.Trace.File
import Mathlib.Order.Bounds.Basic

/-! # Trace files are read as they are written

A history that is written to a file is loaded from it, unless it has a record that returns before
it is called; then the first such record is found.
-/

namespace Linearizability

open Json Json.Reader Json.Decoder

/-- No record returns before it is called. -/
def History.Valid (history : History) : Prop := ∀ record ∈ history, record.call ≤ record.ret

instance (history : History) : Decidable history.Valid :=
  inferInstanceAs (Decidable (∀ record ∈ history, record.call ≤ record.ret))

namespace History

theorem takes_elements_pieces (layout : Layout) (level depth : Nat) (history : History) : ∃ t,
    (history.toJson.pieces layout level).flatten = 91 :: t ∧
      Takes (elements (Record.decoder (depth + 3))) t history :=
  takes_list fun record _ => ⟨solid_object _, record.reads_decoder.takes⟩

theorem decode_print (layout : Layout) (history : History) :
    decode decoder (history.toJson.print layout) = .ok history := by
  obtain ⟨t, ht, hl⟩ := history.takes_elements_pieces layout 0 123
  have hr : (decoder greatestDepth).run (91 :: t ++ []) = .ok (history, []) :=
    (reads_listOf hl).takes [] apart_nil
  rw [Value.print, ht, decode, ← List.append_nil (91 :: t), hr]
  rfl

theorem interval_eq_ok {record : Record} (h : record.call ≤ record.ret) :
    record.interval = .ok ⟨record.call, record.ret⟩ := by
  refine if_neg ?_
  rw [Timestamp.lt_iff, Int.not_lt, ← Timestamp.le_iff]
  exact h

theorem firstInverted?_of_valid {history : History} (h : history.Valid) :
    history.firstInverted? = none := by
  rw [firstInverted?, List.findSome?_eq_none_iff]
  rintro ⟨record, i⟩ hm
  have hr : record ∈ history := List.fst_mem_of_mem_zipIdx hm
  simp only [interval_eq_ok (h record hr)]

theorem firstInverted?_of_append {before after : History} {record : Record}
    (hb : before.Valid) (hr : record.ret < record.call) :
    firstInverted? (before ++ record :: after) =
      some (before.length, ⟨record.call, record.ret⟩) := by
  have hi : record.interval = .error ⟨record.call, record.ret⟩ := if_pos hr
  have hn := firstInverted?_of_valid hb
  rw [firstInverted?] at hn ⊢
  rw [List.zipIdx_append, List.findSome?_append, hn, List.zipIdx_cons, List.findSome?_cons]
  simp [hi]

theorem exists_firstInverted? {history : History} (h : ¬ history.Valid) :
    ∃ i, ∃ hi : i < history.length,
      history.firstInverted? = some (i, ⟨history[i].call, history[i].ret⟩) ∧
      IsLeast {j | ∃ hj : j < history.length, history[j].ret < history[j].call} i := by
  have hlt : ∀ record : Record, ¬ record.call ≤ record.ret ↔ record.ret < record.call := by
    intro record
    rw [Timestamp.le_iff, Timestamp.lt_iff, Int.not_le]
  obtain ⟨record, hm, hr⟩ : ∃ record ∈ history, ¬ record.call ≤ record.ret := by
    simpa [Valid] using h
  have hsome : (history.find? fun record => decide (record.ret < record.call)).isSome := by
    rw [List.find?_isSome]
    exact ⟨record, hm, decide_eq_true ((hlt record).mp hr)⟩
  obtain ⟨first, hf⟩ := Option.isSome_iff_exists.mp hsome
  obtain ⟨hinv, before, after, rfl, hb⟩ := List.find?_eq_some_iff_append.mp hf
  have hinv : first.ret < first.call := of_decide_eq_true hinv
  have hb : Valid before := by
    intro r hrm
    have hn : ¬ r.ret < r.call := by simpa using hb r hrm
    exact Decidable.not_not.mp (mt (hlt r).mp hn)
  obtain ⟨hi, hget⟩ : ∃ hi : before.length < (before ++ first :: after).length,
      (before ++ first :: after)[before.length] = first :=
    List.getElem?_eq_some_iff.mp (by simp)
  refine ⟨before.length, hi, ?_, ⟨hi, ?_⟩, ?_⟩
  · rw [hget, firstInverted?_of_append hb hinv]
  · rw [hget]
    exact hinv
  · rintro j ⟨hj, hinvj⟩
    by_contra hlt'
    have hjb : j < before.length := Nat.lt_of_not_le hlt'
    rw [List.getElem_append_left hjb] at hinvj
    exact (hlt _).mpr hinvj (hb _ (List.getElem_mem hjb))

end History

namespace Trace

variable {tree tree' : FileTree} {path : Path} {history : History} {merged : Merged}
  {paths : List Path}

/-- A file that has been written holds the printed history. -/
theorem entryAt_of_write (hw : write tree path history = (.ok (), tree')) :
    tree'.entryAt path = .ok (.file (history.toJson.print .pretty)) := by
  obtain ⟨location, tree₁, hc, hw⟩ : ∃ location tree₁, tree.create path = .ok (location, tree₁) ∧
      tree₁.write location (history.toJson.pieces .pretty 0) = (tree', none) := by
    rw [write] at hw
    split at hw
    · cases hw
    · rename_i location tree₁ hc
      refine ⟨location, tree₁, hc, ?_⟩
      split at hw
      · rename_i he
        cases hw
        exact he
      · cases hw
      · cases hw
  have hne : (history.toJson.pieces .pretty 0).flatten ≠ [] := by
    obtain ⟨t, ht, _⟩ := history.takes_elements_pieces .pretty 0 0
    simp [ht]
  exact FileTree.entryAt_of_write hc hw hne

theorem load_of_write (hw : write tree path history = (.ok (), tree')) :
    load tree' path = parse path (history.toJson.print .pretty) := by
  simp only [load, entryAt_of_write hw, FileTree.contentOf]

theorem parse_print_of_valid (path : Path) (h : history.Valid) :
    parse path (history.toJson.print .pretty) = .ok history := by
  simp only [parse, History.decode_print, History.firstInverted?_of_valid h]

theorem parse_print_of_some (path : Path) {index : Nat} {cause : Interval.Inverted}
    (h : history.firstInverted? = some (index, cause)) :
    parse path (history.toJson.print .pretty) = .error (.inverted path index cause) := by
  simp only [parse, History.decode_print, h]

theorem valid_of_parse {text : Bytes} (h : parse path text = .ok history) : history.Valid := by
  rw [parse] at h
  split at h
  · cases h
  · rename_i decoded _
    split at h
    · cases h
    · rename_i hn
      cases h
      by_contra hv
      obtain ⟨i, hi, hs, _⟩ := History.exists_firstInverted? hv
      cases hn.symm.trans hs

theorem valid_of_load (h : load tree path = .ok history) : history.Valid := by
  rw [load] at h
  split at h
  · cases h
  · split at h
    · cases h
    · exact valid_of_parse h

theorem map_load_of_loadAll {histories : List History} (h : loadAll tree paths = .ok histories) :
    paths.map (load tree) = histories.map .ok := by
  induction paths generalizing histories with
  | nil =>
    cases h
    rfl
  | cons path paths ih =>
    rw [loadAll] at h
    split at h
    · cases h
    · rename_i history hload
      cases hrest : loadAll tree paths with
      | error fault => simp [hrest, Except.map] at h
      | ok others =>
        rw [hrest] at h
        cases h
        rw [List.map_cons, List.map_cons, hload, ih hrest]

theorem valid_of_loadAll {histories : List History} (h : loadAll tree paths = .ok histories) :
    ∀ history ∈ histories, history.Valid := by
  intro history hm
  have hload : .ok history ∈ paths.map (load tree) := by
    rw [map_load_of_loadAll h]
    exact List.mem_map_of_mem hm
  obtain ⟨path, -, hload⟩ := List.mem_map.mp hload
  exact valid_of_load hload

theorem valid_merge {histories : List History} (h : ∀ history ∈ histories, history.Valid) :
    (History.merge histories).Valid := by
  intro record hm
  obtain ⟨history, hh, hr⟩ := List.mem_flatten.mp ((List.mergeSort_perm _ _).mem_iff.mp hm)
  exact h history hh record hr

theorem write_of_mergeFiles (h : mergeFiles tree paths = (.ok merged, tree')) :
    write tree merged.path merged.history = (.ok (), tree') ∧ merged.history.Valid := by
  unfold mergeFiles at h
  split at h
  · split at h
    · cases h
    · rename_i hl
      simp only at h
      split at h
      · cases h
      · rename_i hw
        cases h
        exact ⟨hw, valid_merge (valid_of_loadAll hl)⟩
  · cases h

/-- A history that has been written to a file is loaded from it, in its order, if no record
returns before it is called; otherwise the first record that does is found. What a merge has
written is loaded as what the merge returned. -/
theorem write_then_load :
    (∀ tree path history tree', write tree path history = (.ok (), tree') →
      (history.Valid → load tree' path = .ok history) ∧
      (¬ history.Valid → ∃ i, ∃ hi : i < history.length,
        load tree' path = .error (.inverted path i ⟨history[i].call, history[i].ret⟩) ∧
        IsLeast {j | ∃ hj : j < history.length, history[j].ret < history[j].call} i)) ∧
    ∀ tree paths merged tree', mergeFiles tree paths = (.ok merged, tree') →
      load tree' merged.path = .ok merged.history := by
  have hload : ∀ tree path (history : History) tree', write tree path history = (.ok (), tree') →
      history.Valid → load tree' path = .ok history := by
    intro tree path history tree' hw hv
    rw [load_of_write hw, parse_print_of_valid path hv]
  refine ⟨fun tree path history tree' hw => ⟨hload _ _ _ _ hw, fun hv => ?_⟩, ?_⟩
  · obtain ⟨i, hi, hs, hleast⟩ := History.exists_firstInverted? hv
    refine ⟨i, hi, ?_, hleast⟩
    rw [load_of_write hw, parse_print_of_some path hs]
  · intro tree paths merged tree' hm
    obtain ⟨hw, hv⟩ := write_of_mergeFiles hm
    exact hload _ _ _ _ hw hv

end Trace

namespace OddTexts

/-- Escapes in texts, the ends of time, absent and empty parts of answers. -/
def records : History :=
  [⟨⟨.minValue⟩, .put "\n\"é\t" "\x00", ⟨.minValue⟩, .none, ⟨.maxValue⟩⟩,
    ⟨⟨-1⟩, .get "\n\"é\t", ⟨-9⟩, ⟨some "", some "\\u"⟩, ⟨10⟩⟩]

def inverted : History :=
  records ++ [⟨⟨0⟩, .delete "", ⟨3⟩, .ok, ⟨2⟩⟩, ⟨⟨0⟩, .get "k", ⟨3⟩, .ok, ⟨0⟩⟩]

def first : Path := ⟨"first.json"⟩

def second : Path := ⟨"second.json"⟩

def tree : FileTree :=
  (Trace.write (Trace.write (.empty .root) first records).2 second []).2

end OddTexts

open OddTexts in
theorem Trace.write_then_load_oddTexts :
    (∃ tree, write (.empty .root) first records = (.ok (), tree) ∧ load tree first = .ok records) ∧
      (∃ tree, write (.empty .root) first inverted = (.ok (), tree) ∧
        load tree first = .error (.inverted first 2 ⟨⟨3⟩, ⟨2⟩⟩)) ∧
      ∃ merged tree', mergeFiles tree [first, second] = (.ok merged, tree') ∧
        load tree' merged.path = .ok merged.history := by
  obtain ⟨hwrite, hmerge⟩ := write_then_load
  have hw : ∀ history, write (.empty .root) first history =
      (.ok (), (write (.empty .root) first history).2) := fun _ => rfl
  refine ⟨⟨_, hw _, (hwrite _ _ _ _ (hw _)).1 (by decide)⟩, ⟨_, hw _, ?_⟩, ?_⟩
  · obtain ⟨i, hi, hload, hmem, hleast⟩ := (hwrite _ _ _ _ (hw inverted)).2 (by decide)
    have hle : i ≤ 2 := hleast ⟨by decide, by decide⟩
    obtain ⟨_, hinv⟩ := hmem
    obtain rfl : i = 2 := by
      match i, hle with
      | 0, _ | 1, _ => exact absurd hinv (by decide +revert)
      | 2, _ => rfl
    exact hload
  · cases hm : mergeFiles tree [first, second] with
    | mk result tree' =>
      cases result with
      | ok merged => exact ⟨merged, tree', rfl, hmerge _ _ _ _ hm⟩
      | error fault =>
        have hok : (mergeFiles tree [first, second]).1.toOption.isSome = true := by decide +kernel
        rw [hm] at hok
        cases hok

end Linearizability
