/-! # Linked places

A doubly linked list of places. A place taken out keeps its own links, so that places taken out
can be put back in the reverse order.
-/

namespace Linearizability

/-- Links between `m` places; no place before means that the first one is meant. -/
structure Links (m : Nat) where
  first : Option (Fin m)
  next : Vector (Option (Fin m)) m
  prev : Vector (Option (Fin m)) m
  deriving DecidableEq

namespace Links

variable {m : Nat}

/-- All places in their own order. -/
def all (m : Nat) : Links m where
  first := if h : 0 < m then some ⟨0, h⟩ else none
  next := Vector.ofFn fun p => if h : p + 1 < m then some ⟨p + 1, h⟩ else none
  prev := Vector.ofFn fun p => if p.val = 0 then none else some ⟨p - 1, by omega⟩

/-- Let `after` follow `before`. -/
def setNext (links : Links m) (before after : Option (Fin m)) : Links m :=
  match before with
  | none => { links with first := after }
  | some p => { links with next := links.next.set p after p.isLt }

/-- Let `before` precede `after`. -/
def setPrev (links : Links m) (before after : Option (Fin m)) : Links m :=
  match after with
  | none => links
  | some p => { links with prev := links.prev.set p before p.isLt }

/-- Take a place out: its neighbours become neighbours of each other. -/
def unlink (links : Links m) (p : Fin m) : Links m :=
  let before := links.prev.get p
  let after := links.next.get p
  (links.setNext before after).setPrev before after

/-- Put a place back between the neighbours it had when it was taken out. -/
def relink (links : Links m) (p : Fin m) : Links m :=
  let before := links.prev.get p
  let after := links.next.get p
  (links.setNext before (some p)).setPrev (some p) after

/-- Take out a call and its return. -/
def lift (links : Links m) (call ret : Fin m) : Links m :=
  (links.unlink call).unlink ret

/-- Put back a call and its return, if they are the last ones taken out. -/
def unlift (links : Links m) (call ret : Fin m) : Links m :=
  (links.relink ret).relink call

end Links

end Linearizability
