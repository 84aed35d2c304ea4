/-! # The longest orders

For each operation the search keeps the first of the longest orders that contained it when the
search could not go on.
-/

namespace Linearizability

structure Longest (n : Nat) where
  best : Vector (Option (Array (Fin n))) n

namespace Longest

variable {n : Nat}

def empty : Longest n := ⟨Vector.replicate n none⟩

/-- Keep an order for one operation, unless one at least as long is kept already. -/
def offer (longest : Longest n) (order : Array (Fin n)) (i : Fin n) : Longest n :=
  match longest.best.get i with
  | some kept =>
    if kept.size < order.size then ⟨longest.best.set i (some order) i.isLt⟩ else longest
  | none => ⟨longest.best.set i (some order) i.isLt⟩

/-- Record an order for every operation in it. -/
def record (longest : Longest n) (order : Array (Fin n)) : Longest n :=
  order.foldl (fun longest i => longest.offer order i) longest

/-- Whether an order stands before another one, or is the same, in the order of dictionaries. -/
def precedes : List (Fin n) → List (Fin n) → Bool
  | [], _ => true
  | _ :: _, [] => false
  | i :: a, j :: b => i.val < j.val || (i.val == j.val && precedes a b)

/-- The orders kept, each once: longer ones first, and equally long ones in the order of
dictionaries. -/
def toList (longest : Longest n) : List (List (Fin n)) :=
  let kept := (longest.best.toList.filterMap id).map Array.toList
  let sorted := (kept.eraseReps.mergeSort precedes).eraseReps
  sorted.mergeSort fun a b => decide (b.length ≤ a.length)

end Longest

end Linearizability
