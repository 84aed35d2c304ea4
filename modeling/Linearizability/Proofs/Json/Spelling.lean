import Linearizability.Proofs.Json.Decoder

/-! # Spellings of strings

A string can be spelled in many ways: a character stands for itself, or it is escaped, by a letter
or by its number. A number beyond 16 bits takes two escapes, the halves of a surrogate pair. All
spellings of a string are read as that string.
-/

namespace Linearizability.Json

open Reader

namespace Text

/-- The digits to base 16, in either case. -/
def HexDigit (d : Nat) (b : UInt8) : Prop :=
  d < 16 ∧ b ∈ [(Nat.digitChar d).toUInt8, (Nat.digitChar d).toUpper.toUInt8]

/-- A number of 16 bits, written with four digits to base 16. -/
inductive UnitSpelled : Nat → Bytes → Prop where
  | mk {i j k l : Nat} {a b c d : UInt8} (first : HexDigit i a) (second : HexDigit j b)
      (third : HexDigit k c) (fourth : HexDigit l d) :
    UnitSpelled (((i * 16 + j) * 16 + k) * 16 + l) [a, b, c, d]

def letters : List (Char × UInt8) :=
  [('"', 34), ('\\', 92), ('/', 47), ('\x08', 98), ('\x0c', 102), ('\n', 110), ('\r', 114),
    ('\t', 116)]

inductive CharSpelled : Char → Bytes → Prop where
  | plain {c : Char} (mark : c ≠ '"') (backslash : c ≠ '\\') (control : 32 ≤ c.toNat) :
    CharSpelled c (String.utf8EncodeChar c)
  | letter {c : Char} {b : UInt8} (mem : (c, b) ∈ letters) : CharSpelled c [92, b]
  | unit {c : Char} {t : Bytes} (unit : UnitSpelled c.toNat t) : CharSpelled c (92 :: 117 :: t)
  | pair {c : Char} {high low : Nat} {t u : Bytes} (isHigh : 0xD800 ≤ high ∧ high ≤ 0xDBFF)
      (isLow : 0xDC00 ≤ low ∧ low ≤ 0xDFFF)
      (number : c.toNat = (high - 0xD800) * 0x400 + (low - 0xDC00) + 0x10000)
      (first : UnitSpelled high t) (second : UnitSpelled low u) :
    CharSpelled c (92 :: 117 :: (t ++ 92 :: 117 :: u))

inductive CharsSpelled : List Char → Bytes → Prop where
  | nil : CharsSpelled [] []
  | cons {c : Char} {cs : List Char} {t u : Bytes} (first : CharSpelled c t)
      (others : CharsSpelled cs u) : CharsSpelled (c :: cs) (t ++ u)

inductive StringSpelled : String → Bytes → Prop where
  | mk {s : String} {t : Bytes} (chars : CharsSpelled s.toList t) :
    StringSpelled s (34 :: (t ++ [34]))

variable {c : Char} {cs : List Char} {n : Nat} {s : String} {t u bytes : Bytes}

theorem hexValue?_eq {d : Nat} {b : UInt8} (h : HexDigit d b) :
    hexValue? (Char.ofUInt8 b) = some d := by
  have hall : ∀ d < 16, ∀ b ∈ [(Nat.digitChar d).toUInt8, (Nat.digitChar d).toUpper.toUInt8],
      hexValue? (Char.ofUInt8 b) = some d := by
    decide +kernel
  exact hall d h.1 b h.2

theorem UnitSpelled.run (h : UnitSpelled n t) (rest : Bytes) :
    unit.run (t ++ rest) = .ok (n, rest) := by
  obtain ⟨first, second, third, fourth⟩ := h
  exact run_unit (hexValue?_eq first) (hexValue?_eq second) (hexValue?_eq third)
    (hexValue?_eq fourth) rest

theorem not_surrogate (c : Char) :
    isLowSurrogate c.toNat = false ∧ isHighSurrogate c.toNat = false := by
  have hv : c.toNat.isValidChar := c.valid
  simp only [isLowSurrogate, isHighSurrogate, Bool.and_eq_false_iff, decide_eq_false_iff_not]
  unfold Nat.isValidChar at hv
  omega

theorem encode_toNat (c : Char) : encode c.toNat = String.utf8EncodeChar c := by
  rw [encode, Char.ofNat_toNat]

theorem run_codePoint_unit (h : UnitSpelled c.toNat t) (rest : Bytes) :
    codePoint.run (t ++ rest) = .ok (String.utf8EncodeChar c, rest) := by
  obtain ⟨hl, hh⟩ := not_surrogate c
  rw [codePoint, run_bind (h.run rest)]
  simp only [hl, hh, Bool.false_eq_true, if_false, encode_toNat, run_pure]

theorem run_codePoint_pair {high low : Nat} (isHigh : 0xD800 ≤ high ∧ high ≤ 0xDBFF)
    (isLow : 0xDC00 ≤ low ∧ low ≤ 0xDFFF)
    (number : c.toNat = (high - 0xD800) * 0x400 + (low - 0xDC00) + 0x10000)
    (first : UnitSpelled high t) (second : UnitSpelled low u) (rest : Bytes) :
    codePoint.run (t ++ 92 :: 117 :: (u ++ rest)) = .ok (String.utf8EncodeChar c, rest) := by
  have hnotLow : isLowSurrogate high = false := by
    simp only [isLowSurrogate, Bool.and_eq_false_iff, decide_eq_false_iff_not]
    omega
  have hhigh : isHighSurrogate high = true := by
    simp only [isHighSurrogate, Bool.and_eq_true, decide_eq_true_eq]
    exact isHigh
  have hlow : isLowSurrogate low = true := by
    simp only [isLowSurrogate, Bool.and_eq_true, decide_eq_true_eq]
    exact isLow
  have hword : (word .endInText .unfinishedSurrogate ['\\', 'u']).run
      (92 :: 117 :: (u ++ rest)) = .ok ((), u ++ rest) := rfl
  rw [codePoint, run_bind (first.run _)]
  simp only [hnotLow, hhigh, Bool.false_eq_true, if_false, if_true]
  rw [run_bind hword, run_bind (second.run rest)]
  simp only [hlow, if_true, run_pure, ← number, encode_toNat]

theorem eq_or_le_of_mem_utf8EncodeChar {b : UInt8} (h : b ∈ String.utf8EncodeChar c) :
    b.toNat = c.toNat ∨ 128 ≤ b.toNat := by
  have hn : c.val.toNat = c.toNat := rfl
  rw [String.utf8EncodeChar] at h
  simp only [hn] at h
  split at h
  · left
    rw [List.mem_singleton.mp h, UInt8.toNat_ofNat']
    omega
  · right
    split at h
    · simp only [List.mem_cons, List.not_mem_nil, or_false] at h
      rcases h with rfl | rfl <;> simp only [UInt8.toNat_ofNat'] <;> omega
    · split at h
      · simp only [List.mem_cons, List.not_mem_nil, or_false] at h
        rcases h with rfl | rfl | rfl <;> simp only [UInt8.toNat_ofNat'] <;> omega
      · simp only [List.mem_cons, List.not_mem_nil, or_false] at h
        rcases h with rfl | rfl | rfl | rfl <;> simp only [UInt8.toNat_ofNat'] <;> omega

theorem Spells.plain_append {plain : Bytes}
    (h : ∀ b ∈ plain, b ≠ 34 ∧ b ≠ 92 ∧ ¬ b < 32) (ht : Spells t bytes) :
    Spells (plain ++ t) (plain ++ bytes) := by
  induction plain with
  | nil => exact ht
  | cons b plain ih =>
    rw [List.forall_mem_cons] at h
    exact .plain h.1.1 h.1.2.1 h.1.2.2 (ih h.2)

/-- No byte of a character that stands for itself ends the string or is refused. -/
theorem plain_of_mem_utf8EncodeChar (mark : c ≠ '"') (backslash : c ≠ '\\')
    (control : 32 ≤ c.toNat) {b : UInt8} (h : b ∈ String.utf8EncodeChar c) :
    b ≠ 34 ∧ b ≠ 92 ∧ ¬ b < 32 := by
  have hc : c.toNat ≠ 34 ∧ c.toNat ≠ 92 :=
    ⟨fun h => mark (Char.toNat_inj.mp h), fun h => backslash (Char.toNat_inj.mp h)⟩
  have hn := eq_or_le_of_mem_utf8EncodeChar h
  rw [ne_eq, ne_eq, ← UInt8.toNat_inj, ← UInt8.toNat_inj, UInt8.lt_iff_toNat_lt]
  simp only [UInt8.reduceToNat]
  omega

theorem run_escape_letter {b : UInt8} (h : (c, b) ∈ letters) (rest : Bytes) :
    escape.run (b :: rest) = .ok (String.utf8EncodeChar c, rest) := by
  have hall : ∀ l ∈ letters, escape.run (l.2 :: rest) = .ok (String.utf8EncodeChar l.1, rest) := by
    simp only [letters, List.forall_mem_cons]
    exact ⟨rfl, rfl, rfl, rfl, rfl, rfl, rfl, rfl, by simp⟩
  exact hall _ h

theorem CharSpelled.spells (h : CharSpelled c t) (hu : Spells u bytes) :
    Spells (t ++ u) (String.utf8EncodeChar c ++ bytes) := by
  cases h with
  | plain mark backslash control =>
    exact .plain_append (fun b => plain_of_mem_utf8EncodeChar mark backslash control) hu
  | @letter b mem => exact .escape (e := [b]) (run_escape_letter mem) hu
  | @unit t unit => exact .escape (e := 117 :: t) (run_codePoint_unit unit) hu
  | @pair high low t v isHigh isLow number first second =>
    have he : 92 :: 117 :: (t ++ 92 :: 117 :: v) ++ u =
        92 :: ((117 :: (t ++ 92 :: 117 :: v)) ++ u) := rfl
    rw [he]
    refine .escape (fun s => ?_) hu
    have hp := run_codePoint_pair isHigh isLow number first second s
    have hs : t ++ 92 :: 117 :: v ++ s = t ++ 92 :: 117 :: (v ++ s) := by simp
    exact (congrArg codePoint.run hs).trans hp

theorem CharsSpelled.spells (h : CharsSpelled cs t) :
    Spells t (cs.flatMap String.utf8EncodeChar) := by
  induction h with
  | nil => exact .nil
  | cons first _ ih => exact first.spells ih

theorem CharsSpelled.spells_ofString (h : CharsSpelled s.toList t) :
    Spells t (Bytes.ofString s) := by
  have hs := h.spells
  rwa [← Bytes.ofString_ofList, String.ofList_toList] at hs

def isPlain (c : Char) : Bool := c != '"' && c != '\\' && 32 ≤ c.toNat

theorem charsSpelled_plain (h : cs.all isPlain = true) :
    CharsSpelled cs (cs.flatMap String.utf8EncodeChar) := by
  induction cs with
  | nil => exact .nil
  | cons c cs ih =>
    rw [List.all_cons, Bool.and_eq_true] at h
    have hc := h.1
    simp only [isPlain, Bool.and_eq_true, bne_iff_ne, decide_eq_true_eq] at hc
    exact .cons (.plain hc.1.1 hc.1.2 hc.2) (ih h.2)

theorem stringSpelled_plain (h : s.toList.all isPlain = true) :
    StringSpelled s (34 :: (Bytes.ofString s ++ [34])) := by
  have hs := charsSpelled_plain h
  rw [← Bytes.ofString_ofList, String.ofList_toList] at hs
  exact ⟨hs⟩

theorem StringSpelled.reads_head (h : StringSpelled s t) : Reads head t (.text s) := by
  obtain ⟨chars⟩ := h
  exact reads_head_text chars.spells_ofString

end Text

end Linearizability.Json
