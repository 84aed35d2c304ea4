import Linearizability.Proofs.Search.Kept
import Linearizability.Proofs.Sorting
import Mathlib.Data.List.Induction
import Mathlib.Data.List.Lex

/-! # What is told of the orders recorded

For each operation the first of the longest recorded orders that have it is kept, and what is kept
is told: each order once, longer ones first, and equally long ones in the order of dictionaries.

Operations can share a copy of an order. Those that do are told apart from others by the address of
the copy, but an order that was recorded twice may have been copied twice: so what is left is
sorted, and what is repeated then is told once.
-/

namespace Linearizability

variable {n : Nat}

theorem pairwise_lt_eraseReps {α : Type} [LinearOrder α] [BEq α] [LawfulBEq α] {l : List α}
    (h : l.Pairwise (· ≤ ·)) :
    l.eraseReps.Pairwise (· < ·) := by
  induction l with
  | nil => exact .nil
  | cons a l ih =>
    cases l with
    | nil => exact List.pairwise_singleton _ a
    | cons b l =>
      rw [eraseReps_cons_cons]
      split
      · exact ih h.of_cons
      · rename_i hne
        obtain ⟨ha, hb⟩ := List.pairwise_cons.mp h
        have hab : a < b := lt_of_le_of_ne (ha b List.mem_cons_self) (by simpa using hne)
        refine List.pairwise_cons.mpr ⟨fun c hc => ?_, ih hb⟩
        rcases List.mem_cons.mp (mem_eraseReps.mp hc) with rfl | hc
        · exact hab
        · exact hab.trans_le ((List.pairwise_cons.mp hb).1 c hc)

namespace Longest

variable {order order' : List (Fin n)}
  {orders orders' : List (List (Fin n))} {i : Fin n}

/-- Longer, or equally long and earlier in the order of dictionaries. -/
def Ahead (a b : List (Fin n)) : Prop :=
  b.length < a.length ∨ a.length = b.length ∧ List.Lex (· < ·) a b

theorem Ahead.ne {a b : List (Fin n)} (h : Ahead a b) : a ≠ b := by
  rintro rfl
  rcases h with h | ⟨-, h⟩
  · exact Nat.lt_irrefl _ h
  · exact lt_irrefl a h

theorem precedes_iff {a b : List (Fin n)} : precedes a b = true ↔ a ≤ b := by
  induction a generalizing b with
  | nil =>
    cases b with
    | nil => simp [precedes]
    | cons j b =>
      have hlt : [] < j :: b := List.Lex.nil
      simp [precedes, hlt.le]
  | cons i a ih =>
    cases b with
    | nil =>
      have hlt : [] < i :: a := List.Lex.nil
      simp [precedes, hlt]
    | cons j b =>
      have hlt : i :: a < j :: b ↔ i < j ∨ i = j ∧ a < b := List.cons_lex_cons_iff
      simp only [precedes, Bool.or_eq_true, Bool.and_eq_true, decide_eq_true_eq, beq_iff_eq, ih,
        Fin.val_fin_lt, ← Fin.ext_iff]
      rw [le_iff_lt_or_eq, le_iff_lt_or_eq, hlt]
      grind

/-- The orders of a list, each once, in the order in which they are told. -/
def arrange (orders : List (List (Fin n))) : List (List (Fin n)) :=
  (orders.mergeSort precedes).eraseReps.mergeSort fun a b => decide (b.length ≤ a.length)

theorem toList_eq_arrange (longest : Longest n) : longest.toList =
    arrange ((longest.best.toList.filterMap id).map Array.toList).eraseReps :=
  rfl

theorem precedes_trans (a b c : List (Fin n)) (hab : precedes a b = true)
    (hbc : precedes b c = true) : precedes a c = true :=
  precedes_iff.mpr ((precedes_iff.mp hab).trans (precedes_iff.mp hbc))

theorem precedes_total (a b : List (Fin n)) : (precedes a b || precedes b a) = true := by
  rw [Bool.or_eq_true, precedes_iff, precedes_iff]
  exact le_total a b

theorem longer_trans (a b c : List (Fin n)) (hab : decide (b.length ≤ a.length) = true)
    (hbc : decide (c.length ≤ b.length) = true) : decide (c.length ≤ a.length) = true := by
  rw [decide_eq_true_eq] at *
  omega

theorem longer_total (a b : List (Fin n)) :
    (decide (b.length ≤ a.length) || decide (a.length ≤ b.length)) = true := by
  rw [Bool.or_eq_true, decide_eq_true_eq, decide_eq_true_eq]
  omega

theorem arrange_eq_insertionSort (orders : List (List (Fin n))) : arrange orders =
    (orders.insertionSort fun a b => precedes a b = true).eraseReps.insertionSort
      fun a b => decide (b.length ≤ a.length) = true := by
  rw [arrange, mergeSort_eq_insertionSort _ precedes_trans precedes_total,
    mergeSort_eq_insertionSort _ longer_trans longer_total]

theorem mem_arrange : order ∈ arrange orders ↔ order ∈ orders := by
  simp [arrange]

theorem pairwise_mergeSort_precedes (orders : List (List (Fin n))) :
    (orders.mergeSort precedes).Pairwise (· ≤ ·) :=
  (List.pairwise_mergeSort precedes_trans precedes_total orders).imp precedes_iff.mp

theorem pairwise_arrange (orders : List (List (Fin n))) : (arrange orders).Pairwise Ahead := by
  have hlt := pairwise_lt_eraseReps (pairwise_mergeSort_precedes orders)
  refine (pairwise_mergeSort_of_pairwise _ longer_trans longer_total hlt).imp ?_
  rintro a b ⟨hle, hlex⟩
  simp only [decide_eq_true_eq] at hle hlex
  rcases Nat.lt_or_eq_of_le hle with hlt | heq
  · exact .inl hlt
  · exact .inr ⟨heq.symm, hlex heq.ge⟩

/-- Only which orders there are matters, not how often or in which order. -/
theorem arrange_congr (h : ∀ order, order ∈ orders ↔ order ∈ orders') :
    arrange orders = arrange orders' := by
  have hlt := pairwise_lt_eraseReps (pairwise_mergeSort_precedes orders)
  have hlt' := pairwise_lt_eraseReps (pairwise_mergeSort_precedes orders')
  rw [arrange, arrange, hlt.eq_of_mem_iff hlt' fun order => by simp [h]]

/-- The first of the longest orders of a list that have an operation. -/
def FirstLongest (orders : List (List (Fin n))) (i : Fin n) (order : List (Fin n)) : Prop :=
  ∃ before behind, orders = before ++ order :: behind ∧ i ∈ order ∧
    (∀ other ∈ before, i ∈ other → other.length < order.length) ∧
    ∀ other ∈ behind, i ∈ other → other.length ≤ order.length

namespace FirstLongest

theorem length_le (h : FirstLongest orders i order) (ho : order' ∈ orders) (hi : i ∈ order') :
    order'.length ≤ order.length := by
  obtain ⟨before, behind, rfl, -, hb, ha⟩ := h
  rcases List.mem_append.mp ho with ho | ho
  · exact (hb order' ho hi).le
  · rcases List.mem_cons.mp ho with rfl | ho
    · exact le_rfl
    · exact ha order' ho hi

theorem mem (h : FirstLongest orders i order) : order ∈ orders ∧ i ∈ order := by
  obtain ⟨before, behind, rfl, hi, -⟩ := h
  exact ⟨by simp, hi⟩

theorem unique (h : FirstLongest orders i order) (h' : FirstLongest orders i order') :
    order = order' := by
  have hle := h.length_le h'.mem.1 h'.mem.2
  have hle' := h'.length_le h.mem.1 h.mem.2
  obtain ⟨before, behind, rfl, hi, hb, -⟩ := h
  obtain ⟨before', behind', heq, hi', hb', -⟩ := h'
  rcases Links.append_eq_append_cons heq with ⟨between, rfl, -⟩ | ⟨between, hc, rfl⟩
  · exact absurd (hb order' (by simp) hi') (Nat.not_lt.mpr hle')
  · cases between with
    | nil => exact (List.cons.inj hc).1
    | cons other between =>
      obtain ⟨rfl, -⟩ := List.cons.inj hc
      exact absurd (hb' order (by simp) hi) (Nat.not_lt.mpr hle)

end FirstLongest

theorem firstLongest_of_get {kept : Array (Fin n)}
    (h : (empty.recordAll orders).best.get i = some kept) :
    FirstLongest orders i kept.toList := by
  induction orders using List.reverseRecOn generalizing kept with
  | nil => simp [recordAll] at h
  | append_singleton orders order ih =>
    rw [recordAll_append, recordAll, List.foldl_cons, List.foldl_nil, get_record] at h
    split at h
    · rename_i ho
      cases h
      refine ⟨orders, [], rfl, ho.1, fun other hm hi => ?_, by simp⟩
      obtain ⟨kept, hk, hle⟩ := covers_recordAll hm i hi
      exact hle.trans_lt (ho.2 kept hk)
    · rename_i ho
      obtain ⟨before, behind, rfl, hi, hb, ha⟩ := ih h
      refine ⟨before, behind ++ [order], by simp, hi, hb, ?_⟩
      rw [List.forall_mem_append]
      refine ⟨ha, fun other hm hi' => ?_⟩
      obtain rfl := List.mem_singleton.mp hm
      have hle : other.length ≤ kept.size := by simpa [hi', h] using ho
      simpa using hle

theorem get_recordAll_eq_some_iff :
    (empty.recordAll orders).best.get i = some order.toArray ↔ FirstLongest orders i order := by
  constructor
  · exact firstLongest_of_get
  · intro h
    obtain ⟨kept, hk, -⟩ := covers_recordAll h.mem.1 i h.mem.2
    rw [hk, h.unique (firstLongest_of_get hk)]

theorem mem_toList_recordAll :
    order ∈ (empty.recordAll orders).toList ↔ ∃ i, FirstLongest orders i order := by
  simp only [mem_toList, get_recordAll_eq_some_iff]

end Longest

structure Copy (n : Nat) where
  address : Nat
  order : Array (Fin n)

/-- The copies kept, one for each operation; several operations can share one. -/
structure Copies (n : Nat) where
  best : Vector (Option (Copy n)) n

namespace Copies

variable {copies : Copies n} {copy kept : Copy n} {i : Fin n}

def empty : Copies n := ⟨Vector.replicate n none⟩

/-- Keep a copy for one operation, unless one of an order at least as long is kept already. -/
def offer (copies : Copies n) (copy : Copy n) (i : Fin n) : Copies n :=
  match copies.best.get i with
  | some kept =>
    if kept.order.size < copy.order.size then ⟨copies.best.set i (some copy) i.isLt⟩ else copies
  | none => ⟨copies.best.set i (some copy) i.isLt⟩

def record (copies : Copies n) (copy : Copy n) : Copies n :=
  copy.order.foldl (fun copies i => copies.offer copy i) copies

/-- The orders of some copies, those of each address once. -/
def distinct (seen : List Nat) : List (Copy n) → List (List (Fin n))
  | [] => []
  | copy :: rest =>
    if copy.address ∈ seen then distinct seen rest
    else copy.order.toList :: distinct (copy.address :: seen) rest

/-- The orders kept: copies are told apart by their addresses first, and then by what they say. -/
def toList (copies : Copies n) : List (List (Fin n)) :=
  Longest.arrange (distinct [] (copies.best.toList.filterMap id))

def longest (copies : Copies n) : Longest n := ⟨copies.best.map (·.map Copy.order)⟩

/-- Some orders have been recorded one after the other, each copied to an address where no copy
lies that is kept. -/
inductive Recorded : List (List (Fin n)) → Copies n → Prop where
  | start : Recorded [] empty
  | record {orders : List (List (Fin n))} {copies : Copies n} (recorded : Recorded orders copies)
      (address : Nat) (order : List (Fin n))
      (fresh : ∀ i kept, copies.best.get i = some kept → kept.address ≠ address) :
      Recorded (orders ++ [order]) (copies.record ⟨address, order.toArray⟩)

/-- Copies at one address are the same copy. -/
def Apart (copies : Copies n) : Prop :=
  ∀ i j a b, copies.best.get i = some a → copies.best.get j = some b → a.address = b.address →
    a = b

theorem get_empty (i : Fin n) : (empty : Copies n).best.get i = none :=
  Vector.getElem_replicate i.isLt

theorem get_longest (copies : Copies n) (i : Fin n) :
    copies.longest.best.get i = (copies.best.get i).map Copy.order :=
  Vector.getElem_map _ i.isLt

theorem longest_offer (copies : Copies n) (copy : Copy n) (i : Fin n) :
    (copies.offer copy i).longest = copies.longest.offer copy.order i := by
  rw [offer, Longest.offer, get_longest]
  cases copies.best.get i with
  | none => simp [longest, Vector.map_set]
  | some kept =>
    simp only [Option.map_some]
    split
    · simp [longest, Vector.map_set]
    · rfl

theorem longest_record (copies : Copies n) (copy : Copy n) :
    (copies.record copy).longest = copies.longest.record copy.order := by
  rw [record, Longest.record, ← Array.foldl_toList, ← Array.foldl_toList]
  generalize copy.order.toList = is
  induction is generalizing copies with
  | nil => rfl
  | cons i is ih => rw [List.foldl_cons, List.foldl_cons, ih, longest_offer]

theorem get_offer_cases {j : Fin n} (h : (copies.offer copy i).best.get j = some kept) :
    kept = copy ∨ copies.best.get j = some kept := by
  rw [offer] at h
  grind [Links.get_set]

/-- Recording keeps nothing new but the copy recorded. -/
theorem get_record_cases (h : (copies.record copy).best.get i = some kept) :
    kept = copy ∨ copies.best.get i = some kept := by
  rw [record, ← Array.foldl_toList] at h
  generalize copy.order.toList = is at h
  induction is generalizing copies with
  | nil => exact .inr h
  | cons j is ih =>
    rcases ih h with hk | hk
    · exact .inl hk
    · exact get_offer_cases hk

theorem Apart.record (h : copies.Apart)
    (fresh : ∀ i kept, copies.best.get i = some kept → kept.address ≠ copy.address) :
    (copies.record copy).Apart := by
  intro i j a b ha hb hab
  rcases get_record_cases ha with heq | ha <;> rcases get_record_cases hb with heq' | hb
  · exact heq.trans heq'.symm
  · exact absurd (hab.symm.trans (congrArg _ heq)) (fresh j b hb)
  · exact absurd (hab.trans (congrArg _ heq')) (fresh i a ha)
  · exact h i j a b ha hb hab

namespace Recorded

variable {orders : List (List (Fin n))}

theorem apart (h : Recorded orders copies) : copies.Apart := by
  induction h with
  | start =>
    intro i j a b ha
    simp [get_empty] at ha
  | record _ _ _ fresh ih => exact ih.record fresh

theorem longest_eq (h : Recorded orders copies) :
    copies.longest = Longest.empty.recordAll orders := by
  induction h with
  | start => simp [longest, empty, Longest.empty, Longest.recordAll]
  | record _ _ _ _ ih => rw [longest_record, ih, Longest.recordAll_append]; rfl

end Recorded

theorem mem_distinct {seen : List Nat} {l : List (Copy n)} {order : List (Fin n)}
    (h : ∀ a ∈ l, ∀ b ∈ l, a.address = b.address → a = b) :
    order ∈ distinct seen l ↔ ∃ copy ∈ l, copy.address ∉ seen ∧ copy.order.toList = order := by
  induction l generalizing seen with
  | nil => simp [distinct]
  | cons a l ih =>
    have hrest : ∀ b ∈ l, ∀ c ∈ l, b.address = c.address → b = c :=
      fun b hb c hc => h b (List.mem_cons_of_mem _ hb) c (List.mem_cons_of_mem _ hc)
    rw [distinct]
    split
    · rw [ih hrest]
      grind
    · rw [List.mem_cons, ih hrest]
      grind

/-- Telling copies apart by their addresses first makes no difference. -/
theorem toList_eq (h : copies.Apart) : copies.toList = copies.longest.toList := by
  refine Longest.arrange_congr fun order => ?_
  have hkept : ∀ a ∈ copies.best.toList.filterMap id, ∀ b ∈ copies.best.toList.filterMap id,
      a.address = b.address → a = b := by
    intro a ha b hb
    obtain ⟨i, ha⟩ := mem_filterMap_id.mp ha
    obtain ⟨j, hb⟩ := mem_filterMap_id.mp hb
    exact h i j a b ha hb
  rw [mem_distinct hkept, ← Longest.mem_arrange, ← Longest.toList_eq_arrange, Longest.mem_toList]
  simp only [mem_filterMap_id, get_longest, List.not_mem_nil, not_false_eq_true, true_and,
    Option.map_eq_some_iff]
  constructor
  · rintro ⟨copy, ⟨i, hi⟩, rfl⟩
    exact ⟨i, copy, hi, Array.toArray_toList.symm⟩
  · rintro ⟨i, copy, hi, ho⟩
    exact ⟨copy, ⟨i, hi⟩, by rw [ho]⟩

/-- Orders can always be recorded: what was recorded first lies at the first addresses, and the
next one is free. -/
theorem exists_recorded (orders : List (List (Fin n))) : ∃ copies, Recorded orders copies ∧
    ∀ i kept, copies.best.get i = some kept → kept.address < orders.length := by
  induction orders using List.reverseRecOn with
  | nil => exact ⟨empty, .start, fun i kept h => by simp [get_empty] at h⟩
  | append_singleton orders order ih =>
    obtain ⟨copies, hr, ha⟩ := ih
    refine ⟨_, hr.record orders.length order fun i kept h => (ha i kept h).ne, fun i kept h => ?_⟩
    rw [List.length_append]
    rcases get_record_cases h with rfl | h
    · exact Nat.lt_add_one _
    · exact Nat.lt_add_right 1 (ha i kept h)

end Copies

/-- After any orders have been recorded, the answer has those orders that are, for some operation,
the first of the longest recorded ones with it. It has each of them once, longer ones first and
equally long ones in the order of dictionaries. It makes no difference which addresses the copies
of the orders are given, and that they are told apart by these first. -/
theorem told_canonical (orders : List (List (Fin n))) :
    (Longest.empty.recordAll orders).toList.Nodup ∧
      (∀ order, order ∈ (Longest.empty.recordAll orders).toList ↔
        ∃ i, Longest.FirstLongest orders i order) ∧
      (Longest.empty.recordAll orders).toList.Pairwise Longest.Ahead ∧
      (∃ copies, Copies.Recorded orders copies) ∧
      ∀ copies, Copies.Recorded orders copies →
        copies.toList = (Longest.empty.recordAll orders).toList := by
  have hsorted : (Longest.empty.recordAll orders).toList.Pairwise Longest.Ahead :=
    Longest.pairwise_arrange _
  obtain ⟨copies, hr, -⟩ := Copies.exists_recorded orders
  refine ⟨hsorted.imp Longest.Ahead.ne, fun order => Longest.mem_toList_recordAll, hsorted,
    ⟨copies, hr⟩, fun copies h => ?_⟩
  rw [Copies.toList_eq h.apart, h.longest_eq]

end Linearizability
