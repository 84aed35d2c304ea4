import Linearizability.Bytes
import Linearizability.Json.Fault

/-! # Readers

A reader takes something off the front of a text, or finds a fault in it. What it leaves is never
longer than what it was given, so that repeated reading ends.
-/

namespace Linearizability.Json

structure Reader (α : Type) where
  run : Bytes → Except Fault (α × Bytes)
  shrinks : ∀ {s : Bytes} {a : α} {r : Bytes}, run s = .ok (a, r) → r.length ≤ s.length

namespace Reader

variable {α β : Type}

instance : Monad Reader where
  pure a := ⟨fun s => .ok (a, s), by
    intro s b r h
    simp only [Except.ok.injEq, Prod.mk.injEq] at h
    exact Nat.le_of_eq (congrArg List.length h.2.symm)⟩
  bind x f := ⟨fun s =>
      match x.run s with
      | .error fault => .error fault
      | .ok (a, r) => (f a).run r, by
    intro s b r h
    split at h
    · cases h
    · rename_i hx
      exact Nat.le_trans ((f _).shrinks h) (x.shrinks hx)⟩

def fail (fault : Fault) : Reader α := ⟨fun _ => .error fault, by simp⟩

/-- What is computed from values read already. -/
def lift : Except Fault α → Reader α
  | .ok a => pure a
  | .error fault => fail fault

/-- The next byte as a character, which stays where it is. -/
def glance : Reader (Option Char) := ⟨fun s => .ok (s.head?.map Char.ofUInt8, s), by
  intro s a r h
  simp only [Except.ok.injEq, Prod.mk.injEq] at h
  exact Nat.le_of_eq (congrArg List.length h.2.symm)⟩

/-- Leave out the next byte. -/
def advance : Reader Unit := ⟨fun s => .ok ((), s.drop 1), by
  intro s a r h
  simp only [Except.ok.injEq, Prod.mk.injEq] at h
  simp [← h.2]⟩

/-- The next byte as a character. -/
def take : Reader (Option Char) := do
  let c ← glance
  advance
  pure c

def isBlank (b : UInt8) : Bool := b == 32 || b == 9 || b == 10 || b == 13

/-- A text without the blanks at its front. -/
def dropBlank (s : Bytes) : Bytes := s.dropWhile isBlank

theorem length_dropBlank_le (s : Bytes) : (dropBlank s).length ≤ s.length :=
  (List.dropWhile_sublist _).length_le

theorem length_lt_of_dropBlank {s r : Bytes} {b : UInt8} (h : dropBlank s = b :: r) :
    r.length < s.length := by
  have := length_dropBlank_le s
  rw [h, List.length_cons] at this
  omega

def blank : Reader Unit := ⟨fun s => .ok ((), dropBlank s), by
  intro s a r h
  simp only [Except.ok.injEq, Prod.mk.injEq] at h
  exact h.2 ▸ length_dropBlank_le s⟩

/-- The next byte that is not blank, as a character, which stays where it is. -/
def peek : Reader (Option Char) := do
  blank
  glance

def isDigit (b : UInt8) : Bool := 48 ≤ b && b ≤ 57

/-- The digits at the front of a text. -/
def digits : Reader (List Nat) :=
  ⟨fun s => .ok ((s.takeWhile isDigit).map fun b => b.toNat - 48, s.dropWhile isDigit), by
    intro s a r h
    simp only [Except.ok.injEq, Prod.mk.injEq] at h
    exact h.2 ▸ (List.dropWhile_sublist _).length_le⟩

/-- The given characters one after another; a text that ends before them and a text that goes on
differently have different faults. -/
def word (ending other : Fault) : List Char → Reader Unit
  | [] => pure ()
  | c :: rest => do
    match ← take with
    | none => fail ending
    | some d => if c = d then word ending other rest else fail other

end Reader

end Linearizability.Json
