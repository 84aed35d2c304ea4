import Linearizability.Proofs.Json.Printing

/-! # Decoders find values

What decoders of numbers, texts, lists and objects find, behind any blanks.
-/

namespace Linearizability.Json

open Reader

variable {α : Type} {decoder : Decoder α} {t u ws : Bytes} {a : α} {s : String}

theorem flatten_pieces_text (layout : Layout) (level : Nat) (s : String) :
    ((Value.text s).pieces layout level).flatten =
      34 :: (escaped (Bytes.ofString s) ++ [34]) := by
  rw [Value.pieces, flatten_textPieces]

theorem flatten_pieces_integer (layout : Layout) (level : Nat) (z : Int) :
    ((Value.number (.integer z)).pieces layout level).flatten = numberPiece (.integer z) := by
  simp [Value.pieces]

namespace Decoder

theorem reads_container {kind : Kind} {list object : Decoder α} {depth : Nat}
    (h : Takes (object depth) u a) :
    Reads (container kind list object (depth + 1)) (123 :: u) a := by
  intro ws hws rest hr
  rw [List.append_assoc, List.cons_append, container, run_bind (run_head_object hws _)]
  exact h rest hr

theorem reads_listOf {as : List α} {depth : Nat} (h : Takes (elements (decoder depth)) u as) :
    Reads (listOf decoder (depth + 1)) (91 :: u) as := by
  intro ws hws rest hr
  rw [List.append_assoc, List.cons_append, listOf, run_bind (run_head_list hws _)]
  exact h rest hr

theorem reads_int64 (n : Int64) (depth : Nat) :
    Reads (int64 depth) (numberPiece (.integer n.toInt)) n := by
  have hl : Int64.minValue.toInt ≤ n.toInt := n.minValue_le_toInt
  have hu : n.toInt ≤ Int64.maxValue.toInt := n.toInt_le
  have hsize : Int64.maxValue.toInt < UInt64.size := by decide
  have hi : Reads (integer .int64 Int64.minValue.toInt Int64.maxValue.toInt depth)
      (numberPiece (.integer n.toInt)) n.toInt :=
    (reads_head_integer hl (Int.lt_of_le_of_lt hu hsize)).bind_pure (if_pos ⟨hl, hu⟩)
  have hm := hi.map Int64.ofInt
  rwa [Int64.ofInt_toInt] at hm

theorem reads_textAs (kind : Kind) (s : String) (depth : Nat) :
    Reads (textAs kind depth) (34 :: (escaped (Bytes.ofString s) ++ [34])) s :=
  (reads_head_text (Text.spells_escaped _)).bind_pure rfl

theorem reads_value_text (s : String) (depth : Nat) :
    Reads (value depth) (34 :: (escaped (Bytes.ofString s) ++ [34])) (.text s) := by
  have h := reads_head_text (Text.spells_escaped (Bytes.ofString s))
  cases depth with
  | zero => exact h.bind_pure rfl
  | succ depth => exact h.bind_pure rfl

theorem reads_nullable {b : UInt8} {depth : Nat} (h : Reads (decoder depth) (b :: t) a)
    (hb : isBlank b = false) (hn : b ≠ 110) : Reads (nullable decoder depth) (b :: t) (some a) := by
  intro ws hws rest hr
  rw [List.append_assoc, List.cons_append, nullable, run_bind (run_peek hws hb _)]
  split
  · rename_i heq
    exact absurd (ofUInt8_inj.mp (Option.some.inj heq)) hn
  · exact run_map some (h.takes rest hr)

theorem reads_nullable_null (decoder : Decoder α) (depth : Nat) :
    Reads (nullable decoder depth) (Bytes.ofString "null") none := by
  intro ws hws rest _
  have hn : ws ++ Bytes.ofString "null" ++ rest = ws ++ 110 :: ([117, 108, 108] ++ rest) := by
    rw [List.append_assoc]
    rfl
  rw [hn, nullable, run_bind (run_peek hws rfl _)]
  rfl

theorem takes_once {x : Reader α} (h : Reads x t a) (hws : Blank ws) (name : String) :
    Takes (once name none x) (58 :: (ws ++ t)) (some a) :=
  takes_colon_bind (h.map some) hws

theorem takes_member {σ : Type} {x : Reader α} (note : Option α → σ) (h : Reads x t a)
    (hws : Blank ws) (name : String) :
    Takes (once name none x >>= fun value => pure (note value)) (58 :: (ws ++ t))
      (note (some a)) :=
  (takes_once h hws name).bind_pure rfl

end Decoder

end Linearizability.Json
