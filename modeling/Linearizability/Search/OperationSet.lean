/-! # Sets of operations

A set of the operations of one group, one bit for each.
-/

namespace Linearizability

structure OperationSet (n : Nat) where
  bits : BitVec n
  deriving DecidableEq

namespace OperationSet

variable {n : Nat}

def empty : OperationSet n := ⟨0#n⟩

instance : Membership (Fin n) (OperationSet n) := ⟨fun set i => set.bits.getLsbD i = true⟩

instance (set : OperationSet n) (i : Fin n) : Decidable (i ∈ set) :=
  inferInstanceAs (Decidable (set.bits.getLsbD i = true))

/-- The set with this one operation. -/
def single (i : Fin n) : OperationSet n := ⟨BitVec.twoPow n i⟩

def insert (set : OperationSet n) (i : Fin n) : OperationSet n := ⟨set.bits ||| (single i).bits⟩

def erase (set : OperationSet n) (i : Fin n) : OperationSet n := ⟨set.bits &&& ~~~(single i).bits⟩

theorem mem_iff {set : OperationSet n} {i : Fin n} : i ∈ set ↔ set.bits.getLsbD i = true := Iff.rfl

@[simp] theorem not_mem_empty (i : Fin n) : ¬ i ∈ (empty : OperationSet n) := by
  simp [mem_iff, empty]

@[simp] theorem mem_insert {set : OperationSet n} {i j : Fin n} :
    i ∈ set.insert j ↔ i = j ∨ i ∈ set := by
  simp only [mem_iff, insert, single, BitVec.getLsbD_or, Bool.or_eq_true, BitVec.getLsbD_twoPow,
    Bool.and_eq_true, decide_eq_true_eq, Fin.ext_iff]
  rw [or_comm, eq_comm, and_iff_right j.isLt]

@[simp] theorem mem_erase {set : OperationSet n} {i j : Fin n} :
    i ∈ set.erase j ↔ i ≠ j ∧ i ∈ set := by
  have hij : (j.val = i.val) ↔ i = j := by rw [eq_comm, Fin.ext_iff]
  simp only [mem_iff, erase, single, BitVec.getLsbD_and, BitVec.getLsbD_not,
    BitVec.getLsbD_twoPow, Bool.and_eq_true, decide_eq_true_eq, Bool.not_eq_true',
    Bool.and_eq_false_iff, decide_eq_false_iff_not, hij, i.isLt, j.isLt, not_true_eq_false,
    false_or, true_and]
  exact and_comm

theorem ext {s t : OperationSet n} (h : ∀ i, i ∈ s ↔ i ∈ t) : s = t := by
  cases s with | mk a =>
  cases t with | mk b =>
  congr 1
  apply BitVec.eq_of_getLsbD_eq
  intro i hi
  exact Bool.eq_iff_iff.mpr (h ⟨i, hi⟩)

end OperationSet

end Linearizability
