import Linearizability.Json.Printer
import Linearizability.Proofs.Json.Reading

/-! # Reading strings

Between its quotation marks a string is spelled with bytes that stand for themselves and with
escapes. A printed string spells its own bytes.
-/

namespace Linearizability.Json

open Reader

namespace Text

/-- A text between quotation marks spells some bytes. -/
inductive Spells : Bytes → Bytes → Prop where
  | nil : Spells [] []
  | plain {b : UInt8} {t bytes : Bytes} (mark : b ≠ 34) (backslash : b ≠ 92) (control : ¬ b < 32)
      (rest : Spells t bytes) : Spells (b :: t) (b :: bytes)
  | escape {e c t bytes : Bytes} (run : ∀ s, escape.run (e ++ s) = .ok (c, s))
      (rest : Spells t bytes) : Spells (92 :: (e ++ t)) (c ++ bytes)

variable {x : Reader Bytes} {b : UInt8} {read s t r bytes : Bytes}

theorem body_mark (x : Reader Bytes) (read s : Bytes) :
    body x read (34 :: s) = .ok (read.reverse, s) := by
  rw [body, if_pos rfl]

theorem body_plain (x : Reader Bytes) (mark : b ≠ 34) (backslash : b ≠ 92) (control : ¬ b < 32)
    (read s : Bytes) : body x read (b :: s) = body x (b :: read) s := by
  rw [body, if_neg mark, if_neg backslash, if_neg control]

theorem body_escape (h : x.run s = .ok (bytes, r)) (read : Bytes) :
    body x read (92 :: s) = body x (bytes.reverse ++ read) r := by
  rw [body, if_neg (by decide), if_pos rfl]
  split
  · rename_i he
    cases h.symm.trans he
  · rename_i he
    cases h.symm.trans he
    rw [List.reverseAux_eq]

theorem Spells.body_eq (h : Spells t bytes) (read s : Bytes) :
    body Text.escape read (t ++ 34 :: s) = .ok (read.reverse ++ bytes, s) := by
  induction h generalizing read with
  | nil => simp [body_mark]
  | plain mark backslash control _ ih =>
    rw [List.cons_append, body_plain _ mark backslash control, ih]
    simp
  | @escape e c t bytes run _ ih =>
    have hr : Text.escape.run (e ++ (t ++ 34 :: s)) = .ok (c, t ++ 34 :: s) := run _
    rw [List.cons_append, List.append_assoc, body_escape hr, ih]
    simp

theorem Spells.takes {string : String} (h : Spells t (Bytes.ofString string)) :
    Takes reader (t ++ [34]) string := by
  intro rest _
  have hb := h.body_eq [] rest
  rw [List.append_assoc, List.singleton_append]
  refine (run_bind hb).trans ?_
  simp [Bytes.toString?_ofString]

end Text

def escaped (bytes : Bytes) : Bytes := bytes.flatMap fun b => (escape? b).getD [b]

theorem flatten_contents (unfinished bytes : Bytes) :
    (contents unfinished bytes).flatten = unfinished.reverse ++ escaped bytes := by
  have hrun : ∀ l, (run l).flatten = l := by
    intro l
    cases l <;> simp [run]
  induction bytes generalizing unfinished with
  | nil => simp [contents, hrun, escaped]
  | cons b bytes ih =>
    rw [contents, escaped, List.flatMap_cons, ← escaped]
    cases escape? b with
    | none => simp [ih]
    | some e => simp [ih, hrun]

theorem flatten_textPieces (s : String) :
    (textPieces s).flatten = 34 :: (escaped (Bytes.ofString s) ++ [34]) := by
  have hmark : piece "\"" = [34] := rfl
  simp [textPieces, flatten_contents, hmark]

namespace Text

theorem hexValue?_digitChar :
    ∀ d < 16, hexValue? (Char.ofUInt8 (Nat.digitChar d).toUInt8) = some d := by
  decide

theorem encode_of_lt : ∀ n < 32, encode n = [UInt8.ofNat n] := by
  decide

theorem run_unit {a b c d : UInt8} {i j k l : Nat} (ha : hexValue? (Char.ofUInt8 a) = some i)
    (hb : hexValue? (Char.ofUInt8 b) = some j) (hc : hexValue? (Char.ofUInt8 c) = some k)
    (hd : hexValue? (Char.ofUInt8 d) = some l) (s : Bytes) :
    unit.run (a :: b :: c :: d :: s) = .ok (((i * 16 + j) * 16 + k) * 16 + l, s) := by
  simp [unit, run_bind (run_take ..), ha, hb, hc, hd]

theorem run_codePoint {n : Nat} (h : n < 32) (s : Bytes) :
    codePoint.run (48 :: 48 :: (Nat.digitChar (n / 16)).toUInt8 ::
      (Nat.digitChar (n % 16)).toUInt8 :: s) = .ok ([UInt8.ofNat n], s) := by
  have hz : hexValue? (Char.ofUInt8 48) = some 0 := rfl
  have hu := run_unit hz hz (hexValue?_digitChar (n / 16) (by omega))
    (hexValue?_digitChar (n % 16) (by omega)) s
  have hn : ((0 * 16 + 0) * 16 + n / 16) * 16 + n % 16 = n := by omega
  rw [hn] at hu
  have hl : isLowSurrogate n = false := by
    simp only [isLowSurrogate, Bool.and_eq_false_iff, decide_eq_false_iff_not]
    omega
  have hh : isHighSurrogate n = false := by
    simp only [isHighSurrogate, Bool.and_eq_false_iff, decide_eq_false_iff_not]
    omega
  rw [codePoint, run_bind hu]
  simp [hl, hh, encode_of_lt n h]

theorem escape?_cases (b : UInt8) :
    escape? b = none ∧ b ≠ 34 ∧ b ≠ 92 ∧ ¬ b < 32 ∨
      ∃ e, escape? b = some (92 :: e) ∧ ∀ s, Text.escape.run (e ++ s) = .ok ([b], s) := by
  obtain ⟨n, hn, rfl⟩ : ∃ n < 256, b = UInt8.ofNat n := ⟨b.toNat, b.toNat_lt, by simp⟩
  have hb : (UInt8.ofNat n).toNat = n := by simp [Nat.mod_eq_of_lt hn]
  rw [escape?, hb]
  split
  · exact .inr ⟨[34], rfl, fun _ => rfl⟩
  · exact .inr ⟨[92], rfl, fun _ => rfl⟩
  · exact .inr ⟨[98], rfl, fun _ => rfl⟩
  · exact .inr ⟨[116], rfl, fun _ => rfl⟩
  · exact .inr ⟨[110], rfl, fun _ => rfl⟩
  · exact .inr ⟨[102], rfl, fun _ => rfl⟩
  · exact .inr ⟨[114], rfl, fun _ => rfl⟩
  · split
    · rename_i h
      exact .inr ⟨_, rfl, fun s => run_codePoint h s⟩
    · rename_i hmark hbackslash _ _ _ _ _ hcontrol
      refine .inl ⟨rfl, fun h => hmark ?_, fun h => hbackslash ?_, fun h => hcontrol ?_⟩
      · exact hb ▸ congrArg UInt8.toNat h
      · exact hb ▸ congrArg UInt8.toNat h
      · exact hb ▸ UInt8.lt_iff_toNat_lt.mp h

theorem spells_escaped (bytes : Bytes) : Spells (escaped bytes) bytes := by
  induction bytes with
  | nil => exact .nil
  | cons b bytes ih =>
    rw [escaped, List.flatMap_cons, ← escaped]
    rcases escape?_cases b with ⟨he, mark, backslash, control⟩ | ⟨e, he, hrun⟩
    · rw [he]
      exact .plain mark backslash control ih
    · rw [he]
      exact .escape hrun ih

end Text

end Linearizability.Json
