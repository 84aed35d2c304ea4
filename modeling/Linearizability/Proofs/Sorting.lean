import Linearizability.Time
import Mathlib.Data.List.Sort

/-! # Sorting

A stable sort is told by the order alone: merging sorted halves and inserting one element after
another come to the same list, also where the order does not tell elements apart. What is sorted
by a time keeps its order within each time.
-/

namespace Linearizability

variable {α : Type} {l : List α}

theorem orderedInsert_append {r : α → α → Prop} [DecidableRel r] {a : α} {before behind : List α}
    (hbefore : ∀ b ∈ before, ¬ r a b) (hbehind : ∀ b ∈ behind, r a b) :
    (before ++ behind).orderedInsert r a = before ++ a :: behind := by
  induction before with
  | nil =>
    cases behind with
    | nil => rfl
    | cons b behind =>
      rw [List.nil_append, List.orderedInsert_cons, if_pos (hbehind b List.mem_cons_self)]
      rfl
  | cons b before ih =>
    rw [List.forall_mem_cons] at hbefore
    rw [List.cons_append, List.orderedInsert_cons, if_neg hbefore.1, ih hbefore.2,
      List.cons_append]

section MergeSort

variable (le : α → α → Bool) (trans : ∀ a b c, le a b = true → le b c = true → le a c = true)
  (total : ∀ a b, (le a b || le b a) = true)

include trans total

/-- Unlike for `List.mergeSort_eq_insertionSort`, two elements can each come before the other: both
sorts leave them as they stand. -/
theorem mergeSort_eq_insertionSort (l : List α) :
    l.mergeSort le = l.insertionSort fun a b => le a b = true := by
  induction l with
  | nil => simp
  | cons a l ih =>
    obtain ⟨before, behind, ha, hl, hbefore⟩ := List.mergeSort_cons trans total a l
    have hsorted := List.pairwise_mergeSort trans total (a :: l)
    rw [ha, List.pairwise_append, List.pairwise_cons] at hsorted
    rw [List.insertionSort_cons, ← ih, hl, ha,
      orderedInsert_append (by simpa using hbefore) hsorted.2.1.1]

theorem filter_mergeSort {p : α → Bool}
    (h : ∀ a ∈ l, ∀ b ∈ l, p a = true → p b = true → le a b = true) :
    (l.mergeSort le).filter p = l.filter p := by
  have hsame : (l.filter p).Pairwise fun a b => le a b = true := by
    refine List.pairwise_of_forall_mem_list fun a ha b hb => ?_
    rw [List.mem_filter] at ha hb
    exact h a ha.1 b hb.1 ha.2 hb.2
  have hsub := (List.sublist_mergeSort trans total hsame List.filter_sublist).filter p
  simp only [List.filter_filter, Bool.and_self] at hsub
  exact (hsub.eq_of_length ((List.mergeSort_perm l le).symm.filter p).length_eq).symm

/-- A list that is in some order is, when sorted, in that order among what sorting does not tell
apart. -/
theorem pairwise_mergeSort_of_pairwise {R : α → α → Prop} (h : l.Pairwise R) :
    (l.mergeSort le).Pairwise fun a b => le a b = true ∧ (le b a = true → R a b) := by
  rw [List.pairwise_iff_forall_sublist]
  intro a b hs
  have hab : le a b = true :=
    List.pairwise_iff_forall_sublist.mp (List.pairwise_mergeSort trans total l) hs
  refine ⟨hab, fun hba => List.pairwise_iff_forall_sublist.mp h ?_⟩
  -- what sorting does not tell apart from `a` keeps its order
  let like (c : α) : Bool := le a c && le c a
  have hlike : (l.mergeSort le).filter like = l.filter like := by
    refine filter_mergeSort le trans total fun c _ d _ hc hd => ?_
    rw [Bool.and_eq_true] at hc hd
    exact trans c a d hc.2 hd.1
  have haa : le a a = true := by simpa using total a a
  have hkept : [a, b].filter like = [a, b] := by simp [like, hab, hba, haa]
  exact hkept ▸ (hlike ▸ hs.filter like).trans List.filter_sublist

end MergeSort

namespace Timestamp

variable {s t u : Timestamp}

theorem toInt_inj : s.raw.toInt = t.raw.toInt ↔ s = t := by
  cases s
  cases t
  simp [Int64.toInt_inj]

theorem le_refl (s : Timestamp) : s ≤ s :=
  le_iff.mpr (Int.le_refl _)

theorem le_trans (h : s ≤ t) (h' : t ≤ u) : s ≤ u := by
  rw [le_iff] at *
  omega

theorem le_antisymm (h : s ≤ t) (h' : t ≤ s) : s = t := by
  rw [le_iff] at h h'
  exact toInt_inj.mp (by omega)

end Timestamp

section Time

variable {β : Type} {time : α → Timestamp} {a b : α}

def notLater (time : α → Timestamp) (a b : α) : Bool := decide (time a ≤ time b)

/-- A list in the order of some times; what has the same time keeps its order. -/
def sortBy (time : α → Timestamp) (l : List α) : List α := l.mergeSort (notLater time)

theorem notLater_iff : notLater time a b = true ↔ time a ≤ time b :=
  decide_eq_true_iff

theorem notLater_trans (a b c : α) (hab : notLater time a b = true)
    (hbc : notLater time b c = true) : notLater time a c = true :=
  notLater_iff.mpr (Timestamp.le_trans (notLater_iff.mp hab) (notLater_iff.mp hbc))

theorem notLater_total (a b : α) : (notLater time a b || notLater time b a) = true := by
  rw [Bool.or_eq_true, notLater_iff, notLater_iff, Timestamp.le_iff, Timestamp.le_iff]
  omega

theorem perm_sortBy (time : α → Timestamp) (l : List α) : (sortBy time l).Perm l :=
  List.mergeSort_perm _ _

theorem pairwise_sortBy (time : α → Timestamp) (l : List α) :
    (sortBy time l).Pairwise fun a b => time a ≤ time b :=
  (List.pairwise_mergeSort notLater_trans notLater_total l).imp notLater_iff.mp

theorem sortBy_eq_self (h : l.Pairwise fun a b => time a ≤ time b) : sortBy time l = l :=
  List.mergeSort_of_pairwise (h.imp notLater_iff.mpr)

theorem sortBy_eq_insertionSort (time : α → Timestamp) (l : List α) :
    sortBy time l = l.insertionSort fun a b => notLater time a b = true :=
  mergeSort_eq_insertionSort _ notLater_trans notLater_total l

theorem map_sortBy (time : β → Timestamp) (f : α → β) (l : List α) :
    (sortBy (time ∘ f) l).map f = sortBy time (l.map f) :=
  List.map_mergeSort fun _ _ _ _ => rfl

theorem filter_sortBy (time : α → Timestamp) (l : List α) (t : Timestamp) :
    (sortBy time l).filter (time · = t) = l.filter (time · = t) := by
  refine filter_mergeSort _ notLater_trans notLater_total fun a _ b _ ha hb => ?_
  rw [decide_eq_true_eq] at ha hb
  rw [notLater_iff, ha, hb]
  exact t.le_refl

theorem pairwise_sortBy_of_pairwise {R : α → α → Prop} (h : l.Pairwise R) :
    (sortBy time l).Pairwise fun a b => time a < time b ∨ time a = time b ∧ R a b := by
  refine (pairwise_mergeSort_of_pairwise _ notLater_trans notLater_total h).imp ?_
  intro a b ⟨hab, hr⟩
  rw [notLater_iff] at hab hr
  by_cases hba : time b ≤ time a
  · exact .inr ⟨Timestamp.le_antisymm hab hba, hr hba⟩
  · simp only [Timestamp.le_iff, Timestamp.lt_iff] at hba ⊢
    exact .inl (Int.not_le.mp hba)

end Time

end Linearizability
