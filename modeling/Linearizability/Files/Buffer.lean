import Linearizability.Bytes

/-! # Buffered writing

Pieces are gathered in a buffer, which is handed on when the next piece does not fit into it, and
at the end. Large pieces are handed on without the buffer. A file that has room only for so many
bytes keeps as many of them.
-/

namespace Linearizability.Buffer

def size : Nat := 8192

/-- When a write fails: while there are pieces to come, or with the last flush. -/
inductive Stage where
  | writing
  | flushing
  deriving DecidableEq

/-- The stage at which pieces of the given lengths exceed the room, if they do; `written` bytes
have been handed on, and `held` bytes are in the buffer. -/
def overflow? (room written held : Nat) : List Nat → Option Stage
  | [] => if written + held ≤ room then none else some .flushing
  | length :: rest =>
    if length < size ∧ held + length ≤ size then overflow? room written (held + length) rest
    else if length < size then
      if written + held ≤ room then overflow? room (written + held) length rest
      else some .writing
    else
      if written + held + length ≤ room then overflow? room (written + held + length) 0 rest
      else some .writing

end Linearizability.Buffer
