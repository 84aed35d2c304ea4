import Linearizability.Decimal.Digits

/-! # Styled text

Text for a terminal, parts of which are coloured. On a terminal without colours only the text
remains.
-/

namespace Linearizability.Text

inductive Colour where
  | red
  | green
  | yellow
  | blue
  | cyan
  deriving DecidableEq

/-- The number of a colour among those of a terminal. -/
def Colour.number : Colour → Nat
  | red => 1
  | green => 2
  | yellow => 3
  | blue => 4
  | cyan => 6

/-- A part of a text in one style; plain text has no colour. -/
structure Span where
  text : String
  colour : Option Colour := none
  isBold : Bool := false
  deriving DecidableEq

namespace Span

/-- The sequence that sets the style with a number. -/
def setting (number : Nat) : String := "\x1b[" ++ Decimal.ofNat number ++ "m"

/-- A part of a text as a terminal takes it. -/
def write (coloured : Bool) (span : Span) : String :=
  match coloured, span.colour with
  | true, some colour =>
    setting (30 + colour.number) ++ (if span.isBold then setting 1 else "") ++ span.text ++ setting 0
  | _, _ => span.text

end Span

/-- A line, in its parts. -/
abbrev Line := List Span

namespace Line

def plain (text : String) : Line := [⟨text, none, false⟩]

def painted (colour : Colour) (text : String) : Line := [⟨text, some colour, false⟩]

def bold (colour : Colour) (text : String) : Line := [⟨text, some colour, true⟩]

def indent (line : Line) : Line := ⟨"  ", none, false⟩ :: line

def write (coloured : Bool) (line : Line) : String :=
  String.join (line.map (Span.write coloured)) ++ "\n"

end Line

/-- Lines as a terminal takes them. -/
def writeLines (coloured : Bool) (lines : List Line) : String :=
  String.join (lines.map (Line.write coloured))

end Linearizability.Text
