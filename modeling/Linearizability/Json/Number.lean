import Linearizability.Json.Reader

/-! # JSON numbers

A literal without fraction and exponent is an integer if it fits 64 bits. Every other literal
denotes a float: its digits are gathered in a significand of 64 bits, digits for which there is no
room are left out, and the significand is scaled by a power of ten.
-/

namespace Linearizability.Json

inductive Number where
  | integer (value : Int)
  | float (value : Float)

/-- The parts of a number as it is written. -/
structure Literal where
  negative : Bool
  whole : List Nat
  fraction : Option (List Nat)
  /-- The sign of the exponent, true if it is negative, and its digits. -/
  exponent : Option (Bool × List Nat)
  deriving DecidableEq

namespace Literal

open Reader

/-- At least one digit; `unfinished` is the fault of a text that ends before it. -/
def someDigits (unfinished : Fault) : Reader (List Nat) := do
  match ← digits with
  | [] => fail (if (← glance).isNone then unfinished else .invalidNumber)
  | ds => pure ds

/-- Digits without a leading zero. -/
def wholeDigits (unfinished : Fault) : Reader (List Nat) := do
  match ← someDigits unfinished with
  | 0 :: _ :: _ => fail .invalidNumber
  | ds => pure ds

/-- A sign, true if it is negative; a plus is understood only where it is `allowed`. -/
def sign (allowed : Bool) : Reader Bool := do
  match ← glance with
  | some '-' =>
    advance
    pure true
  | some '+' =>
    if allowed then advance
    pure false
  | _ => pure false

def fractionDigits (unfinished : Fault) : Reader (Option (List Nat)) := do
  match ← glance with
  | some '.' =>
    advance
    some <$> someDigits unfinished
  | _ => pure none

def exponentDigits (unfinished : Fault) : Reader (Option (Bool × List Nat)) := do
  match ← glance with
  | some 'e' | some 'E' =>
    advance
    let negative ← sign true
    let ds ← someDigits unfinished
    pure (some (negative, ds))
  | _ => pure none

/-- A number as it is written. -/
def reader (unfinished : Fault) : Reader Literal := do
  let negative ← sign false
  let whole ← wholeDigits unfinished
  let fraction ← fractionDigits unfinished
  let exponent ← exponentDigits unfinished
  pure ⟨negative, whole, fraction, exponent⟩

/-- Append digits to a significand as long as it fits 64 bits: the significand, and the number of
digits left out. -/
def gather (m : Nat) : List Nat → Nat × Nat
  | [] => (m, 0)
  | d :: ds => if m * 10 + d < UInt64.size then gather (m * 10 + d) ds else (m, ds.length + 1)

/-- The greatest power of ten among the floats. -/
def greatestPower : Nat := 308

def powerOfTen (k : Nat) : Float := Float.ofScientific 1 false k

/-- Divide by a power of ten, in steps that are powers of ten among the floats. -/
def divide (x : Float) (k : Nat) : Float :=
  if k ≤ greatestPower then x / powerOfTen k
  else if x == 0 then x
  else divide (x / powerOfTen greatestPower) (k - greatestPower)
termination_by k
decreasing_by
  simp only [greatestPower] at *
  omega

/-- A significand times a power of ten. -/
def scale (m : Nat) (exponent : Int) : Except Fault Float :=
  let x := m.toUInt64.toFloat
  if exponent < 0 then .ok (divide x exponent.natAbs)
  else if exponent.natAbs ≤ greatestPower then
    let y := x * powerOfTen exponent.natAbs
    if y.isInf then .error .numberOutOfRange else .ok y
  else if m = 0 then .ok x
  else .error .numberOutOfRange

/-- The greatest size of an exponent. -/
def greatestExponent : Nat := 2147483647

/-- The size of the float that a literal denotes. -/
def floatSize (literal : Literal) : Except Fault Float :=
  let (m, omitted) := gather 0 literal.whole
  let fraction := literal.fraction.getD []
  let (m, omittedFraction) := gather m fraction
  let exponent : Int := omitted - (fraction.length - omittedFraction : Nat)
  match literal.exponent with
  | none => scale m exponent
  | some (negative, ds) =>
    let size := Decimal.ofDigits 0 ds
    if greatestExponent < size then
      if m = 0 ∨ negative = true then .ok 0 else .error .numberOutOfRange
    else scale m (if negative then exponent - size else exponent + size)

/-- Whether a literal denotes an integer of 64 bits; minus zero is a float. -/
def integer? (literal : Literal) : Option Int :=
  match literal.fraction, literal.exponent with
  | none, none =>
    let m := Decimal.ofDigits 0 literal.whole
    if literal.negative then
      if 0 < m ∧ Int64.minValue.toInt ≤ -(m : Int) then some (-(m : Int)) else none
    else if m < UInt64.size then some m else none
  | _, _ => none

/-- The number that a literal denotes. -/
def value (literal : Literal) : Except Fault Number :=
  match literal.integer? with
  | some z => .ok (.integer z)
  | none =>
    match literal.floatSize with
    | .error fault => .error fault
    | .ok x => .ok (.float (if literal.negative then -x else x))

end Literal

namespace Number

def reader : Reader Number := do
  let literal ← Literal.reader .endInValue
  Reader.lift literal.value

def found : Number → Found
  | integer z => .integer z
  | float x => .float x

end Number

end Linearizability.Json
