import Linearizability.Json.Value

/-! # Printing JSON

A value is printed in pieces, the units in which it is handed to a file. A printed text is all of
its pieces, one after another.
-/

namespace Linearizability.Json

/-- How the parts of lists and objects are set apart. -/
inductive Layout where
  /-- Without any blanks. -/
  | compact
  /-- One element or member on a line, indented by two blanks for each bracket around it. -/
  | pretty
  deriving DecidableEq

/-- Printed bytes, in the units in which they are handed on. -/
abbrev Pieces := List Bytes

def piece (s : String) : Bytes := Bytes.ofString s

/-- The escape of a byte that may not stand in a string as it is. -/
def escape? (b : UInt8) : Option Bytes :=
  match b.toNat with
  | 34 => some (piece "\\\"")
  | 92 => some (piece "\\\\")
  | 8 => some (piece "\\b")
  | 9 => some (piece "\\t")
  | 10 => some (piece "\\n")
  | 12 => some (piece "\\f")
  | 13 => some (piece "\\r")
  | n =>
    if n < 32 then
      some (piece "\\u00" ++ [Nat.digitChar (n / 16), Nat.digitChar (n % 16)].map Char.toUInt8)
    else none

/-- A run of bytes, unless it is empty. -/
def run (bytes : Bytes) : Pieces := if bytes.isEmpty then [] else [bytes]

/-- The contents of a string, in escapes and the runs of bytes between them; the run that is not
finished is given in the reverse order. -/
def contents (unfinished : Bytes) : Bytes → Pieces
  | [] => run unfinished.reverse
  | b :: rest =>
    match escape? b with
    | none => contents (b :: unfinished) rest
    | some escape => run unfinished.reverse ++ [escape] ++ contents [] rest

def textPieces (s : String) : Pieces :=
  [piece "\""] ++ contents [] (Bytes.ofString s) ++ [piece "\""]

def numberPiece : Number → Bytes
  | .integer z => piece (Decimal.ofInt z)
  | .float x => piece (Decimal.FloatFormat.message.text x)

namespace Layout

/-- What stands in front of an element or a member; `level` is the number of brackets around it. -/
def separator (layout : Layout) (level : Nat) (isFirst : Bool) : Pieces :=
  match layout with
  | compact => if isFirst then [] else [piece ","]
  | pretty =>
    (if isFirst then piece "\n" else piece ",\n") :: List.replicate level (piece "  ")

/-- What stands in front of a closing bracket that `level` brackets are around. -/
def closing (layout : Layout) (level : Nat) (isEmpty : Bool) : Pieces :=
  match layout with
  | compact => []
  | pretty => if isEmpty then [] else piece "\n" :: List.replicate level (piece "  ")

def colon : Layout → Bytes
  | compact => piece ":"
  | pretty => piece ": "

end Layout

namespace Value

mutual

/-- The pieces of a value that `level` brackets are around. -/
def pieces (layout : Layout) (level : Nat) : Value → Pieces
  | null => [piece "null"]
  | flag true => [piece "true"]
  | flag false => [piece "false"]
  | number x => [numberPiece x]
  | text s => textPieces s
  | list elements =>
    [piece "["] ++ elementPieces layout (level + 1) true elements ++
      layout.closing level elements.isEmpty ++ [piece "]"]
  | object members =>
    [piece "\x7b"] ++ memberPieces layout (level + 1) true members ++
      layout.closing level members.isEmpty ++ [piece "\x7d"]

def elementPieces (layout : Layout) (level : Nat) (isFirst : Bool) : List Value → Pieces
  | [] => []
  | v :: rest =>
    layout.separator level isFirst ++ pieces layout level v ++
      elementPieces layout level false rest

def memberPieces (layout : Layout) (level : Nat) (isFirst : Bool) :
    List (String × Value) → Pieces
  | [] => []
  | (key, v) :: rest =>
    layout.separator level isFirst ++ textPieces key ++ [layout.colon] ++
      pieces layout level v ++ memberPieces layout level false rest

end

/-- The text of a value. -/
def print (layout : Layout) (v : Value) : Bytes := (v.pieces layout 0).flatten

end Value

end Linearizability.Json
