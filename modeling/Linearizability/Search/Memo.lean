import Linearizability.Search.OperationSet
import Std.Data.TreeMap

/-! # The memory of the search

Pairs of a set of linearized operations and the state they lead to. The search goes on from each
pair only once.
-/

namespace Linearizability

/-- The states met with each set; a set is represented by the number its bits denote. -/
structure Memo (n : Nat) (S : Type) where
  states : Std.TreeMap Nat (List S) compare

namespace Memo

variable {n : Nat} {S : Type}

def empty : Memo n S := ⟨∅⟩

/-- The states met with a set. -/
def statesOf (memo : Memo n S) (set : OperationSet n) : List S :=
  memo.states.getD set.bits.toNat []

/-- Remember a pair, unless it has been met. -/
def insertNew? [DecidableEq S] (memo : Memo n S) (set : OperationSet n) (s : S) :
    Option (Memo n S) :=
  let met := memo.statesOf set
  if s ∈ met then none else some ⟨memo.states.insert set.bits.toNat (s :: met)⟩

theorem insertNew?_eq_none_iff [DecidableEq S] {memo : Memo n S} {set : OperationSet n} {s : S} :
    memo.insertNew? set s = none ↔ s ∈ memo.statesOf set := by
  simp [insertNew?]

@[simp] theorem statesOf_empty (set : OperationSet n) :
    (empty : Memo n S).statesOf set = [] := by
  simp [empty, statesOf]

theorem statesOf_insertNew? [DecidableEq S] {memo memo' : Memo n S} {set : OperationSet n} {s : S}
    (h : memo.insertNew? set s = some memo') (set' : OperationSet n) :
    memo'.statesOf set' = if set' = set then s :: memo.statesOf set else memo.statesOf set' := by
  simp only [insertNew?, Option.ite_none_left_eq_some, Option.some.injEq] at h
  obtain ⟨_, rfl⟩ := h
  by_cases heq : set' = set
  · subst heq
    simp [statesOf]
  · have hne : ¬ set.bits.toNat = set'.bits.toNat := by
      intro h
      apply heq
      cases set
      cases set'
      exact congrArg _ (BitVec.eq_of_toNat_eq h.symm)
    simp [statesOf, Std.TreeMap.getD_insert, heq, hne]

end Memo

end Linearizability
