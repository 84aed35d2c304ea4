import Linearizability.Model

/-! # The sequential model of a register

A register holds one integer, at first zero. Writes always succeed; a read is legal if it
observed the value held.
-/

namespace Linearizability.Register

inductive Command where
  | write (value : Int)
  | read
  deriving DecidableEq

def step (held : Int) : Command → Int → Bool × Int
  | .write value, _ => (true, value)
  | .read, observed => (observed == held, held)

def describeOperation : Command → Int → String
  | .write value, _ => s!"write({Decimal.ofInt value})"
  | .read, observed => s!"read() -> {Decimal.ofInt observed}"

def model : Model Int Command Int where
  init := 0
  step := step
  describeOperation := describeOperation
  describeState := Decimal.ofInt

end Linearizability.Register
