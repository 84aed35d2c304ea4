import Linearizability.Json.Value

/-! # Decoders

A decoder reads a value of a known kind, and finds fault with values of other kinds while it reads.
An object with known members may also be written as the list of their values.
-/

namespace Linearizability.Json

/-- Reads a value, in which lists and objects are nested to the given depth at most. -/
abbrev Decoder (α : Type) := Nat → Reader α

/-- The depth to which lists and objects may be nested in a whole text. -/
def greatestDepth : Nat := 127

/-- Decode a whole text: only blanks may follow the value. -/
def decode {α : Type} (decoder : Decoder α) (text : Bytes) : Except Fault α :=
  match (decoder greatestDepth).run text with
  | .error fault => .error fault
  | .ok (a, rest) =>
    if (Reader.dropBlank rest).isEmpty then .ok a else .error .trailingCharacters

namespace Decoder

open Reader

variable {α : Type}

/-- An integer of a kind that has the given bounds. -/
def integer (kind : Kind) (least greatest : Int) : Decoder Int := fun _ => do
  match ← head with
  | .number (.integer z) =>
    if least ≤ z ∧ z ≤ greatest then pure z else fail (.outOfRange z kind)
  | front => fail (.wrongKind front.found kind)

def int64 : Decoder Int64 := fun depth =>
  Int64.ofInt <$> integer .int64 Int64.minValue.toInt Int64.maxValue.toInt depth

def uint64 : Decoder UInt64 := fun depth =>
  (UInt64.ofNat ·.toNat) <$> integer .uint64 0 (UInt64.size - 1 : Nat) depth

def uint16 : Decoder UInt16 := fun depth =>
  (UInt16.ofNat ·.toNat) <$> integer .uint16 0 (UInt16.size - 1 : Nat) depth

def flag : Decoder Bool := fun _ => do
  match ← head with
  | .flag b => pure b
  | front => fail (.wrongKind front.found .flag)

/-- A text that is wanted as a text, as a path, or as the name of an alternative. -/
def textAs (kind : Kind) : Decoder String := fun _ => do
  match ← head with
  | .text s => pure s
  | front => fail (.wrongKind front.found kind)

def text : Decoder String := textAs .text

/-- A value, or null in its place. -/
def nullable (decoder : Decoder α) : Decoder (Option α) := fun depth => do
  match ← peek with
  | some 'n' =>
    word .endInValue .expectedIdent ['n', 'u', 'l', 'l']
    pure none
  | _ => some <$> decoder depth

/-- A list or an object, whose contents are read with the depth that remains. -/
def container (kind : Kind) (list object : Decoder α) : Decoder α := fun depth => do
  match ← head, depth with
  | .list, 0 | .object, 0 => fail .tooDeep
  | .list, depth + 1 => list depth
  | .object, depth + 1 => object depth
  | front, _ => fail (.wrongKind front.found kind)

def listOf (decoder : Decoder α) : Decoder (List α) := fun depth => do
  match ← head, depth with
  | .list, 0 => fail .tooDeep
  | .list, depth + 1 => elements (decoder depth)
  | front, _ => fail (.wrongKind front.found .list)

/-- The value of a member that may occur only once. -/
def once (name : String) (known : Option α) (decoder : Reader α) : Reader (Option α) := do
  if known.isSome then fail (.duplicateMember name)
  colon
  some <$> decoder

/-- The value of a member that nobody wants. -/
def ignored : Reader Unit := do
  colon
  Skip.reader

/-- A member that has to be there. -/
def required (name : String) : Option α → Reader α
  | none => fail (.missingMember name)
  | some a => pure a

/-- An element that has to be there, as the one at a position of a list of a known extent. -/
def elementAt (position : Nat) (extent : Extent) (decoder : Reader α) : Reader α := do
  match ← element? (position == 0) decoder with
  | none => fail (.wrongLength position extent)
  | some a => pure a

/-- An element that may be left out, with its value in that case. -/
def elementOr (isFirst : Bool) (default : α) (decoder : Reader α) : Reader α := do
  match ← element? isFirst decoder with
  | none => pure default
  | some a => pure a

end Decoder

end Linearizability.Json
