import Linearizability.Decimal.Digits

/-! # Shortest decimals

A finite float is written with the fewest digits that read back as the same float, and of several
such decimals with the nearest one.
-/

namespace Linearizability.Decimal

/-- The size of a finite float as `mantissa * 2 ^ exponent`. -/
structure Binary where
  mantissa : Nat
  exponent : Int
  deriving DecidableEq

namespace Binary

/-- The least mantissa of a float that is not tiny, `2 ^ 52`. -/
def leadingBit : Nat := 0x10000000000000

/-- The exponent of the tiny floats. -/
def leastExponent : Int := -1074

/-- The bits of a float are a sign, eleven bits for the exponent, and the mantissa without its
leading bit. -/
def ofFloat (x : Float) : Binary :=
  let bits := x.toBits.toNat
  let fraction := bits % leadingBit
  match bits / leadingBit % 2048 with
  | 0 => ⟨fraction, leastExponent⟩
  | e + 1 => ⟨fraction + leadingBit, e + leastExponent⟩

/-- Whether the sign of a float is negative, as that of the negative zero is. -/
def isNegative (x : Float) : Bool := x.toBits.toNat / leadingBit / 2048 == 1

/-- The factor by which a power of a base scales a numerator. -/
def upper (base : Nat) (e : Int) : Nat := if 0 ≤ e then Nat.pow base e.toNat else 1

/-- The factor by which a power of a base scales a denominator. -/
def lower (base : Nat) (e : Int) : Nat := upper base (-e)

/-- The multiple of `10 ^ k` that rounds to the given float and is nearest to it, if there is one;
`k` is the grid and the result the factor. An exact tie goes to the even factor. -/
def onGrid? (b : Binary) (k : Int) : Option Nat :=
  let scale := upper 2 b.exponent * lower 10 k
  let unit := 4 * (lower 2 b.exponent * upper 10 k)
  let exact := 4 * b.mantissa * scale
  let below := if b.mantissa = leadingBit ∧ b.exponent ≠ leastExponent then 1 else 2
  let least := (4 * b.mantissa - below) * scale
  let greatest := (4 * b.mantissa + 2) * scale
  let hits (d : Nat) : Bool :=
    if b.mantissa % 2 = 0 then least ≤ d * unit && d * unit ≤ greatest
    else least < d * unit && d * unit < greatest
  let d := exact / unit
  match hits d, hits (d + 1) with
  | true, true =>
    let down := exact - d * unit
    let up := (d + 1) * unit - exact
    if down < up || (down == up && d % 2 == 0) then some d else some (d + 1)
  | true, false => some d
  | false, true => some (d + 1)
  | false, false => none

/-- Try `count` grids, coarse ones first, from `10 ^ k` on. -/
def firstHit (b : Binary) : Nat → Int → Nat × Int
  | 0, k => (b.mantissa, k)
  | count + 1, k =>
    match b.onGrid? k with
    | some d => (d, k)
    | none => b.firstHit count (k - 1)

/-- The shortest decimal `digits * 10 ^ exponent`: a float is less than `10 ^ 309`, and no float
needs more digits than the grid `10 ^ -400` gives it. -/
def shortest (b : Binary) : Nat × Int := b.firstHit 709 309

end Binary

/-- How floats are written: positionally if the exponent of the first digit is within the range,
and otherwise with one digit before the point and a signed exponent. -/
structure FloatFormat where
  leastPositional : Int
  greatestPositional : Int

/-- Floats in messages are positional from `0.00001` on and below `10 ^ 16`. -/
def FloatFormat.message : FloatFormat := ⟨-5, 15⟩

def FloatFormat.text (format : FloatFormat) (x : Float) : String :=
  let sign := if Binary.isNegative x then "-" else ""
  let b := Binary.ofFloat x
  if b.mantissa = 0 then sign ++ "0.0"
  else
    let (d, k) := b.shortest
    let ds := (digits d).map digitChar
    let zeros (n : Int) : List Char := List.replicate n.toNat '0'
    let exponent : Int := k + ds.length - 1
    let chars :=
      if exponent < format.leastPositional ∨ format.greatestPositional < exponent then
        let fraction := if ds.length = 1 then [] else '.' :: ds.drop 1
        let mark := if exponent < 0 then ['e', '-'] else ['e', '+']
        ds.take 1 ++ fraction ++ mark ++ (digits exponent.natAbs).map digitChar
      else if 0 ≤ k then ds ++ zeros k ++ ['.', '0']
      else if exponent < 0 then ['0', '.'] ++ zeros (-exponent - 1) ++ ds
      else ds.take (exponent + 1).toNat ++ ['.'] ++ ds.drop (exponent + 1).toNat
    sign ++ String.ofList chars

end Linearizability.Decimal
