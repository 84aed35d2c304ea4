import Linearizability.Json.Number
import Linearizability.Json.Text

/-! # Skipping values

A value that nobody wants is still read to its end, but only its grammar is checked: its numbers
may be of any size, its strings may be no UTF-8, and its nesting may be of any depth. The brackets
that are open are kept in a list, the innermost first.
-/

namespace Linearizability.Json

/-- A list or an object that is open. -/
inductive Bracket where
  | list
  | object
  deriving DecidableEq

namespace Bracket

/-- The byte that closes a bracket. -/
def closing : Bracket → UInt8
  | list => 93
  | object => 125

def ending : Bracket → Fault
  | list => .endInList
  | object => .endInObject

/-- The fault of an element or a member that neither a comma nor the closing bracket follows. -/
def unclosed : Bracket → Fault
  | list => .expectedListEnd
  | object => .expectedObjectEnd

end Bracket

namespace Skip

open Reader

/-- A value that is neither a list nor an object. -/
def scalar : Reader Unit := do
  match ← peek with
  | none => fail .endInValue
  | some '"' =>
    advance
    Text.skip
  | some 'n' => word .endInValue .expectedIdent ['n', 'u', 'l', 'l']
  | some 't' => word .endInValue .expectedIdent ['t', 'r', 'u', 'e']
  | some 'f' => word .endInValue .expectedIdent ['f', 'a', 'l', 's', 'e']
  | some c =>
    if c = '-' ∨ c.isDigit = true then
      let _ ← Literal.reader .invalidNumber
      pure ()
    else fail .expectedValue

/-- The key of a member, and the colon behind it. -/
def key : Reader Unit := do
  match ← peek with
  | none => fail .endInObject
  | some '"' =>
    advance
    Text.skip
    match ← peek with
    | none => fail .endInObject
    | some ':' => advance
    | some _ => fail .expectedColon
  | some _ => fail .expectedKey

/-- What comes before the value of an element or a member. -/
def lead : Bracket → Reader Unit
  | .list => pure ()
  | .object => key

/-- Where skipping stands. -/
inductive Stage where
  /-- In front of a value. -/
  | value
  /-- Behind a bracket just opened. -/
  | opened (bracket : Bracket)
  /-- Behind a value. -/
  | behind
  deriving DecidableEq

/-- The order in which stages follow each other without taking anything off the text. -/
def Stage.rank : Stage → Nat
  | opened _ => 2
  | value => 1
  | behind => 0

def skip (stage : Stage) (brackets : List Bracket) (s : Bytes) : Except Fault Bytes :=
  match stage with
  | .value =>
    match _hs : dropBlank s with
    | [] => .error .endInValue
    | b :: r =>
      if b = 91 then skip (.opened .list) brackets r
      else if b = 123 then skip (.opened .object) brackets r
      else
        match _h : scalar.run (b :: r) with
        | .error fault => .error fault
        | .ok (_, r') => skip .behind brackets r'
  | .opened bracket =>
    match _hs : dropBlank s with
    | [] => .error bracket.ending
    | b :: r =>
      if b = bracket.closing then skip .behind brackets r
      else
        match _h : (lead bracket).run (b :: r) with
        | .error fault => .error fault
        | .ok (_, r') => skip .value (bracket :: brackets) r'
  | .behind =>
    match brackets with
    | [] => .ok s
    | bracket :: rest =>
      match _hs : dropBlank s with
      | [] => .error bracket.ending
      | b :: r =>
        if b = bracket.closing then skip .behind rest r
        else if b = 44 then
          match _h : (lead bracket).run r with
          | .error fault => .error fault
          | .ok (_, r') => skip .value (bracket :: rest) r'
        else .error bracket.unclosed
termination_by (s.length, stage.rank)
decreasing_by
  all_goals have hlt := length_lt_of_dropBlank ‹dropBlank _ = _›
  · exact .left _ _ hlt
  · exact .left _ _ hlt
  · have := scalar.shrinks ‹scalar.run _ = _›
    simp only [List.length_cons] at this
    rcases Nat.lt_or_eq_of_le (Nat.le_trans this hlt) with h | h
    · exact .left _ _ h
    · exact h ▸ .right _ (by decide)
  · exact .left _ _ hlt
  · have := (lead _).shrinks ‹(lead _).run _ = _›
    simp only [List.length_cons] at this
    rcases Nat.lt_or_eq_of_le (Nat.le_trans this hlt) with h | h
    · exact .left _ _ h
    · exact h ▸ .right _ (by simp [Stage.rank])
  · exact .left _ _ hlt
  · exact .left _ _ (Nat.lt_of_le_of_lt ((lead _).shrinks ‹(lead _).run _ = _›) hlt)

theorem length_skip_le {stage : Stage} {brackets : List Bracket} {s r : Bytes}
    (h : skip stage brackets s = .ok r) : r.length ≤ s.length := by
  fun_induction skip stage brackets s with
  | case1 | case4 | case6 | case8 | case11 | case13 | case15 => cases h
  | case2 | case3 | case7 | case12 =>
    rename_i ih
    exact Nat.le_trans (ih h) (Nat.le_of_lt (length_lt_of_dropBlank ‹dropBlank _ = _›))
  | case5 =>
    rename_i ih
    have := scalar.shrinks ‹scalar.run _ = _›
    exact Nat.le_trans (ih h)
      (Nat.le_trans this (length_lt_of_dropBlank ‹dropBlank _ = _›))
  | case9 =>
    rename_i ih
    have := (lead _).shrinks ‹(lead _).run _ = _›
    exact Nat.le_trans (ih h)
      (Nat.le_trans this (length_lt_of_dropBlank ‹dropBlank _ = _›))
  | case10 => cases h; exact Nat.le_refl _
  | case14 =>
    rename_i ih
    have := (lead _).shrinks ‹(lead _).run _ = _›
    exact Nat.le_trans (ih h)
      (Nat.le_trans this (Nat.le_of_lt (length_lt_of_dropBlank ‹dropBlank _ = _›)))

/-- A whole value that is skipped. -/
def reader : Reader Unit := ⟨fun s => (skip .value [] s).map fun r => ((), r), by
  intro s a r h
  cases hs : skip .value [] s with
  | error fault => rw [hs] at h; cases h
  | ok r' => rw [hs] at h; cases h; exact length_skip_le hs⟩

end Skip

end Linearizability.Json
