import Linearizability.Json.Reader

/-! # JSON strings

A string is read byte by byte up to its closing quotation mark. Only then are its bytes taken as
UTF-8.
-/

namespace Linearizability.Json

namespace Text

open Reader

def hexValue? (c : Char) : Option Nat :=
  if '0' ≤ c ∧ c ≤ '9' then some (c.toNat - 48)
  else if 'a' ≤ c ∧ c ≤ 'f' then some (c.toNat - 87)
  else if 'A' ≤ c ∧ c ≤ 'F' then some (c.toNat - 55)
  else none

/-- The number written with four digits to base 16. -/
def unit : Reader Nat := do
  match ← take, ← take, ← take, ← take with
  | some a, some b, some c, some d =>
    match hexValue? a, hexValue? b, hexValue? c, hexValue? d with
    | some a, some b, some c, some d => pure (((a * 16 + b) * 16 + c) * 16 + d)
    | _, _, _, _ => fail .invalidEscape
  | _, _, _, _ => fail .endInText

def isHighSurrogate (n : Nat) : Bool := 0xD800 ≤ n && n ≤ 0xDBFF

def isLowSurrogate (n : Nat) : Bool := 0xDC00 ≤ n && n ≤ 0xDFFF

/-- The bytes of a code point. -/
def encode (n : Nat) : Bytes := String.utf8EncodeChar (Char.ofNat n)

/-- A character given by one escaped unit, or by two that are surrogates of each other. -/
def codePoint : Reader Bytes := do
  let high ← unit
  if isLowSurrogate high then fail .loneSurrogate
  else if isHighSurrogate high then
    word .endInText .unfinishedSurrogate ['\\', 'u']
    let low ← unit
    if isLowSurrogate low then
      pure (encode ((high - 0xD800) * 0x400 + (low - 0xDC00) + 0x10000))
    else fail .loneSurrogate
  else pure (encode high)

/-- The bytes that an escape stands for, behind its backslash. -/
def escape : Reader Bytes := do
  match ← take with
  | none => fail .endInText
  | some '"' => pure [34]
  | some '\\' => pure [92]
  | some '/' => pure [47]
  | some 'b' => pure [8]
  | some 'f' => pure [12]
  | some 'n' => pure [10]
  | some 'r' => pure [13]
  | some 't' => pure [9]
  | some 'u' => codePoint
  | some _ => fail .invalidEscape

/-- An escape in a string that is skipped: surrogates may stand alone in it. -/
def skippedEscape : Reader Bytes := do
  match ← take with
  | none => fail .endInText
  | some 'u' =>
    let _ ← unit
    pure []
  | some c =>
    if c ∈ ['"', '\\', '/', 'b', 'f', 'n', 'r', 't'] then pure [] else fail .invalidEscape

/-- The bytes of a string up to its closing quotation mark, behind the opening one; those read
already are given in the reverse order. -/
def body (escape : Reader Bytes) (read : Bytes) (s : Bytes) : Except Fault (Bytes × Bytes) :=
  match s with
  | [] => .error .endInText
  | b :: r =>
    if b = 34 then .ok (read.reverse, r)
    else if b = 92 then
      match _h : escape.run r with
      | .error fault => .error fault
      | .ok (bytes, r') => body escape (bytes.reverseAux read) r'
    else if b < 32 then .error .controlCharacter
    else body escape (b :: read) r
termination_by s.length
decreasing_by
  · have := escape.shrinks ‹escape.run _ = _›
    simp only [List.length_cons]
    omega
  · simp

theorem length_body_le {escape : Reader Bytes} {read s bytes r : Bytes}
    (h : body escape read s = .ok (bytes, r)) : r.length ≤ s.length := by
  fun_induction body escape read s with
  | case1 => cases h
  | case2 =>
    simp only [Except.ok.injEq, Prod.mk.injEq] at h
    simp [← h.2]
  | case3 => cases h
  | case4 =>
    rename_i hrun _ ih
    have := ih h
    have := escape.shrinks hrun
    simp only [List.length_cons]
    omega
  | case5 => cases h
  | case6 =>
    rename_i ih
    have := ih h
    simp only [List.length_cons]
    omega

/-- A string, behind its opening quotation mark. -/
def reader : Reader String := do
  let bytes ← (⟨body escape [], length_body_le⟩ : Reader Bytes)
  match bytes.toString? with
  | none => fail .invalidUtf8
  | some s => pure s

/-- A string that is skipped, behind its opening quotation mark: its bytes need not be UTF-8. -/
def skip : Reader Unit := do
  let _ ← (⟨body skippedEscape [], length_body_le⟩ : Reader Bytes)
  pure ()

end Text

end Linearizability.Json
