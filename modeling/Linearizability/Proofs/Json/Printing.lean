import Linearizability.Proofs.Json.Number
import Linearizability.Proofs.Json.Text

/-! # Reading what is printed

Decoders find in a printed value what was printed, if they do so for its parts.
-/

namespace Linearizability.Json

open Reader

namespace Reader

variable {ws t : Bytes} {s : String}

theorem run_head_list (h : Blank ws) (r : Bytes) : head.run (ws ++ 91 :: r) = .ok (.list, r) := by
  rw [head, run_bind (run_peek h rfl r)]
  rfl

theorem run_head_object (h : Blank ws) (r : Bytes) :
    head.run (ws ++ 123 :: r) = .ok (.object, r) := by
  rw [head, run_bind (run_peek h rfl r)]
  rfl

theorem reads_head_text (h : Text.Spells t (Bytes.ofString s)) :
    Reads head (34 :: (t ++ [34])) (.text s) := by
  intro ws hws rest hr
  rw [List.append_assoc, List.cons_append, head, run_bind (run_peek hws rfl _)]
  exact run_map Head.text (h.takes rest hr)

theorem run_head_eq_number {b : UInt8} (h : Blank ws) (hb : b = 45 ∨ ∃ d < 10, b = digitByte d)
    (r : Bytes) : head.run (ws ++ b :: r) = (Head.number <$> Number.reader).run (b :: r) := by
  have hc : isBlank b = false ∧ Char.ofUInt8 b ∉ ['n', 't', 'f', '"', '[', '\x7b'] ∧
      (Char.ofUInt8 b = '-' ∨ (Char.ofUInt8 b).isDigit = true) := by
    have hd : ∀ d < 10, isBlank (digitByte d) = false ∧
        Char.ofUInt8 (digitByte d) ∉ ['n', 't', 'f', '"', '[', '\x7b'] ∧
        (Char.ofUInt8 (digitByte d) = '-' ∨ (Char.ofUInt8 (digitByte d)).isDigit = true) := by
      decide
    rcases hb with rfl | ⟨d, hlt, rfl⟩
    · decide
    · exact hd d hlt
  obtain ⟨hblank, hnot, hnum⟩ := hc
  rw [head, run_bind (run_peek h hblank r)]
  split <;> rename_i heq
  case h_1 => cases heq
  case h_8 =>
    cases Option.some.inj heq
    rw [if_pos hnum]
  all_goals
    rw [Option.some.inj heq] at hnot
    exact absurd (by decide) hnot

theorem reads_head_integer {z : Int} (hl : Int64.minValue.toInt ≤ z) (hu : z < UInt64.size) :
    Reads head (numberPiece (.integer z)) (.number (.integer z)) := by
  intro ws hws rest hr
  have ht := takes_number hl hu rest hr
  obtain ⟨b, r, he, hb⟩ : ∃ b r, numberPiece (.integer z) = b :: r ∧
      (b = 45 ∨ ∃ d < 10, b = digitByte d) := by
    have hw := Literal.whole_digits z.natAbs
    rw [numberPiece, piece, ofString_ofInt]
    split
    · exact ⟨45, _, rfl, .inl rfl⟩
    · cases hd : Decimal.digits z.natAbs with
      | nil => exact absurd hd hw.2.1
      | cons d ds => exact ⟨_, _, rfl, .inr ⟨d, hw.1 d (by simp [hd]), rfl⟩⟩
  rw [he, List.cons_append] at ht
  rw [he, List.append_assoc, List.cons_append]
  rw [run_head_eq_number hws hb]
  exact run_map Head.number ht

end Reader

namespace Layout

/-- The blanks in front of elements, members and closing brackets. -/
def gap : Layout → Nat → Bytes
  | compact, _ => []
  | pretty, level => 10 :: (List.replicate level (piece "  ")).flatten

def space : Layout → Bytes
  | compact => []
  | pretty => [32]

variable (layout : Layout) (level : Nat)

theorem blank_gap : Blank (layout.gap level) := by
  cases layout with
  | compact => exact blank_nil
  | pretty =>
    intro b hb
    have hp : piece "  " = [32, 32] := rfl
    rcases List.mem_cons.mp hb with rfl | hb
    · rfl
    · obtain ⟨l, hl, hm⟩ := List.mem_flatten.mp hb
      rw [List.eq_of_mem_replicate hl, hp] at hm
      obtain rfl : b = 32 := by simpa using hm
      rfl

theorem blank_space : Blank layout.space := by
  cases layout with
  | compact => exact blank_nil
  | pretty => simp [space, Blank, isBlank]

theorem flatten_separator_first : (layout.separator level true).flatten = layout.gap level := by
  cases layout <;> rfl

theorem flatten_separator : (layout.separator level false).flatten = 44 :: layout.gap level := by
  cases layout <;> rfl

theorem flatten_closing : (layout.closing level false).flatten = layout.gap level := by
  cases layout <;> rfl

theorem colon_eq : layout.colon = 58 :: layout.space := by
  cases layout <;> rfl

end Layout

section Elements

variable {α : Type} {x : Reader α} {toJson : α → Value} {layout : Layout} {level : Nat} {a : α}
  {as : List α}

theorem elements_pieces
    (h : ∀ b ∈ a :: as, Solid ((toJson b).pieces layout level).flatten ∧
      Takes x ((toJson b).pieces layout level).flatten b) {ws : Bytes} (hws : Blank ws) :
    Elements x (((toJson a).pieces layout level).flatten ++
      ((Value.elementPieces layout level false (as.map toJson)).flatten ++ (ws ++ [93])))
      (a :: as) := by
  induction as generalizing a with
  | nil =>
    obtain ⟨solid, takes⟩ := h a List.mem_cons_self
    exact .last solid takes hws
  | cons b as ih =>
    obtain ⟨solid, takes⟩ := h a List.mem_cons_self
    have hrest := ih fun c hc => h c (List.mem_cons_of_mem a hc)
    have hmore := Elements.more solid takes blank_nil (layout.blank_gap level) hrest
    rw [List.map_cons, Value.elementPieces]
    simpa [Layout.flatten_separator] using hmore

theorem takes_list (h : ∀ a ∈ as, Solid ((toJson a).pieces layout (level + 1)).flatten ∧
      Takes x ((toJson a).pieces layout (level + 1)).flatten a) :
    ∃ t, ((Value.list (as.map toJson)).pieces layout level).flatten = 91 :: t ∧
      Takes (elements x) t as := by
  have hopen : piece "[" = [91] := rfl
  have hclose : piece "]" = [93] := rfl
  cases as with
  | nil =>
    refine ⟨[93], ?_, takes_elements_nil x blank_nil⟩
    cases layout <;> rfl
  | cons a as =>
    refine ⟨_, ?_, (elements_pieces h (layout.blank_gap level)).takes
      (layout.blank_gap (level + 1))⟩
    simp [Value.pieces, Value.elementPieces, hopen, hclose, Layout.flatten_separator_first,
      Layout.flatten_closing]

end Elements

section Members

variable {σ : Type} {member : String → σ → Reader σ} {layout : Layout} {level : Nat} {g g' : σ}
  {members : List (String × Value)}

/-- Reading printed members one after another brings what was gathered from one state to
another. -/
inductive Gathers (member : String → σ → Reader σ) (layout : Layout) (level : Nat) :
    List (String × Value) → σ → σ → Prop where
  | nil (g : σ) : Gathers member layout level [] g g
  | cons {key : String} {v : Value} {members : List (String × Value)} {g g' g'' : σ}
      (value : Takes (member key g) (58 :: (layout.space ++ (v.pieces layout level).flatten)) g')
      (others : Gathers member layout level members g' g'') :
    Gathers member layout level ((key, v) :: members) g g''

theorem members_pieces {key : String} {v : Value}
    (h : Gathers member layout level ((key, v) :: members) g g') {ws : Bytes} (hws : Blank ws) :
    Members member (escaped (Bytes.ofString key) ++ ([34] ++
      (58 :: (layout.space ++ (v.pieces layout level).flatten) ++
        ((Value.memberPieces layout level false members).flatten ++ (ws ++ [125]))))) g g' := by
  have hkey : ∀ key, Takes Text.reader (escaped (Bytes.ofString key) ++ [34]) key :=
    fun key => (Text.spells_escaped _).takes
  have hapart : ∀ v : Value,
      Apart (58 :: (layout.space ++ (v.pieces layout level).flatten)) :=
    fun v => apart_append_cons blank_nil (by decide) _
  induction members generalizing g key v with
  | nil =>
    cases h with
    | cons value others =>
      cases others
      simpa [Value.memberPieces] using Members.last (hkey key) value (hapart v) hws
  | cons m members ih =>
    cases h with
    | cons value others =>
      have hmore := Members.more (hkey key) value (hapart v) blank_nil (layout.blank_gap level)
        (ih others)
      rw [Value.memberPieces]
      simpa [Layout.flatten_separator, flatten_textPieces, Layout.colon_eq] using hmore

theorem takes_object (h : Gathers member layout (level + 1) members g g') :
    ∃ t, ((Value.object members).pieces layout level).flatten = 123 :: t ∧
      Takes (Reader.members member g) t g' := by
  have hopen : piece "\x7b" = [123] := rfl
  have hclose : piece "\x7d" = [125] := rfl
  cases h with
  | nil =>
    refine ⟨[125], ?_, takes_members_nil member g blank_nil⟩
    cases layout <;> rfl
  | cons value others =>
    refine ⟨_, ?_, (members_pieces (.cons value others) (layout.blank_gap level)).takes
      (layout.blank_gap (level + 1))⟩
    simp [Value.pieces, Value.memberPieces, hopen, hclose, Layout.flatten_separator_first,
      Layout.flatten_closing, flatten_textPieces, Layout.colon_eq]

theorem solid_object (members : List (String × Value)) :
    Solid ((Value.object members).pieces layout level).flatten := by
  refine ⟨123, _, rfl, rfl, by decide⟩

end Members

end Linearizability.Json
