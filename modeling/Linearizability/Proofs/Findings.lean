import Linearizability.Register
import Linearizability.Proofs.Check
import Linearizability.Proofs.Search.Partials

/-! # What findings tell

The orders told of a group are partial linearizations of its operations, whenever its search is
stopped. If the search refutes linearizability, they are the longest ones there are, for each
operation of the group. If it finds a linearization, nothing else is told, and otherwise nothing
as long.
-/

namespace Linearizability

variable {S I O : Type} {m : Nat}

def groupOperations (history : Vector (Operation I O) m) (group : List Nat) :
    Vector (Operation I O) (positionsWithin m group).length :=
  (positionsWithin m group).toArray.toVector.map history.get

theorem get_groupOperations (history : Vector (Operation I O) m) (group : List Nat)
    (i : Fin (positionsWithin m group).length) :
    (groupOperations history group).get i = history.get ((positionsWithin m group).get i) :=
  Vector.getElem_map history.get i.isLt

/-- An order of operations of a group, told in positions of the history. -/
def inHistory (m : Nat) (group : List Nat) (order : List (Fin (positionsWithin m group).length)) :
    List Nat :=
  order.map fun i => ((positionsWithin m group).get i).val

/-- The operations told of are those of the group, and the orders told are partial linearizations
of them. -/
structure Finding.Genuine (model : Model S I O) (history : Vector (Operation I O) m)
    (group : List Nat) (finding : Finding) : Prop where
  operations : finding.operations = (positionsWithin m group).map Fin.val
  partials : ∀ told ∈ finding.partials, told ≠ [] ∧
    ∃ order, PartialLinearization model (groupOperations history group).get order ∧
      told = inHistory m group order

/-- Groups are searched, each until a look at whether to stop ends its search, if one does. The
order of the searches is left open, and how many run at the same time. -/
structure Conclusion.Searched [DecidableEq S] (model : Model S I O)
    (history : List (Operation I O)) (conclusion : Conclusion) : Prop where
  verdict : conclusion.verdict = .combine (conclusion.findings.map Finding.outcome)
  findings : List.Forall₂
    (fun group finding => ∃ stop, finding = findGroup model history.toArray.toVector group stop)
    (model.partition history) conclusion.findings

/-- A linearization is told exactly if there is one, and then alone. -/
structure Finding.Consistent (finding : Finding) : Prop where
  linearizable_iff : finding.outcome = .linearizable ↔
    ∃ told ∈ finding.partials, told.Perm finding.operations
  alone : finding.outcome = .linearizable → ∃ told, finding.partials = [told]
  shorter : finding.outcome ≠ .linearizable →
    ∀ told ∈ finding.partials, told.length < finding.operations.length

@[simp] theorem length_inHistory (group : List Nat)
    (order : List (Fin (positionsWithin m group).length)) :
    (inHistory m group order).length = order.length :=
  List.length_map _

theorem isGreatest_foldl_max (l : List Nat) : IsGreatest {k | k = 0 ∨ k ∈ l} (l.foldl max 0) := by
  rw [List.foldl_max]
  cases h : l.max? with
  | none =>
    obtain rfl := List.max?_eq_none_iff.mp h
    simp [IsGreatest, upperBounds]
  | some k =>
    obtain ⟨hk, hle⟩ := List.max?_eq_some_iff.mp h
    simp only [Option.getD_some, Nat.zero_max]
    refine ⟨.inr hk, ?_⟩
    rintro j (rfl | hj)
    · exact Nat.zero_le _
    · exact hle j hj

theorem Finding.isGreatest_longestLength (finding : Finding) :
    IsGreatest {k | k = 0 ∨ ∃ told ∈ finding.partials, told.length = k} finding.longestLength := by
  simpa [longestLength] using isGreatest_foldl_max (finding.partials.map List.length)

namespace Finding.Consistent

variable {finding : Finding}

theorem longestLength_eq (h : finding.Consistent) (ho : finding.outcome = .linearizable) :
    finding.longestLength = finding.operations.length := by
  obtain ⟨told, ht⟩ := h.alone ho
  obtain ⟨told', ht', hp⟩ := h.linearizable_iff.mp ho
  obtain rfl : told' = told := by simpa [ht] using ht'
  simp [longestLength, ht, hp.length_eq]

theorem longestLength_lt (h : finding.Consistent) (hn : finding.operations ≠ [])
    (ho : finding.outcome ≠ .linearizable) :
    finding.longestLength < finding.operations.length := by
  rcases finding.isGreatest_longestLength.1 with hz | ⟨told, ht, hl⟩
  · rw [hz]
    exact List.length_pos_iff.mpr hn
  · rw [← hl]
    exact h.shorter ho told ht

end Finding.Consistent

section FindGroup

variable [DecidableEq S] {model : Model S I O} {history : Vector (Operation I O) m}
  {group : List Nat} {stop : Nat → Bool}
  {order : List (Fin (positionsWithin m group).length)}

theorem findGroup_eq (model : Model S I O) (history : Vector (Operation I O) m)
    (group : List Nat) (stop : Nat → Bool) : findGroup model history group stop =
    { operations := (positionsWithin m group).map Fin.val
      partials := ((Problem.of model (groupOperations history group)).search stop).2.map
        (inHistory m group)
      outcome := ((Problem.of model (groupOperations history group)).search stop).1 } :=
  rfl

theorem genuine_findGroup (model : Model S I O) (history : Vector (Operation I O) m)
    (group : List Nat) (stop : Nat → Bool) :
    (findGroup model history group stop).Genuine model history group := by
  refine ⟨rfl, fun told ht => ?_⟩
  rw [findGroup_eq] at ht
  obtain ⟨order, ho, rfl⟩ := List.mem_map.mp ht
  obtain ⟨hp, hn⟩ := Problem.partialLinearization_of_mem_search ho
  exact ⟨by simpa [inHistory] using hn, order, hp, rfl⟩

theorem forall₂_findGroups (model : Model S I O) (history : Vector (Operation I O) m)
    (clock : Clock) (stopOnFailure stopped : Bool) (index : Nat) (groups : List (List Nat)) :
    List.Forall₂ (fun group finding => ∃ stop, finding = findGroup model history group stop) groups
      (findGroups model history clock stopOnFailure stopped index groups) := by
  induction groups generalizing stopped index with
  | nil => exact .nil
  | cons group groups ih => exact .cons ⟨_, rfl⟩ (ih _ _)

theorem searched_check (model : Model S I O) (history : List (Operation I O)) (clock : Clock)
    (stopOnFailure : Bool) : (check model history clock stopOnFailure).Searched model history :=
  ⟨rfl, forall₂_findGroups model _ clock stopOnFailure false 0 _⟩

theorem findGroups_unlimited (model : Model S I O) (history : Vector (Operation I O) m)
    (index : Nat) (groups : List (List Nat)) :
    findGroups model history .unlimited false false index groups =
      groups.map fun group => findGroup model history group fun _ => false := by
  induction groups generalizing index with
  | nil => rfl
  | cons group groups ih =>
    have hs : ∀ visit, (false || Clock.unlimited index visit) = false := fun _ => rfl
    rw [findGroups, List.map_cons, ← ih (index + 1)]
    rcases outcome_findGroup model history group hs with ⟨ho, _⟩ | ⟨ho, _⟩
    · rw [ho]
      rfl
    · rw [ho]
      rfl

/-- All orders that are told of the groups of a history are partial linearizations, whenever the
searches are stopped. -/
theorem partials_genuine (model : Model S I O) (history : List (Operation I O)) :
    (∀ group stop, (findGroup model history.toArray.toVector group stop).Genuine model
        history.toArray.toVector group) ∧
      ∀ clock stopOnFailure, List.Forall₂ (Finding.Genuine model history.toArray.toVector)
        (model.partition history) (check model history clock stopOnFailure).findings := by
  refine ⟨genuine_findGroup model _, fun clock stopOnFailure => ?_⟩
  refine (searched_check model history clock stopOnFailure).findings.imp fun group finding => ?_
  rintro ⟨stop, rfl⟩
  exact genuine_findGroup model _ group stop

/-- A group that is refuted has been searched for all its partial linearizations. -/
theorem exists_mem_partials (hr : (findGroup model history group stop).outcome = .notLinearizable)
    (ho : PartialLinearization model (groupOperations history group).get order)
    {i : Fin (positionsWithin m group).length} (hi : i ∈ order) :
    ∃ kept, inHistory m group kept ∈ (findGroup model history group stop).partials ∧
      PartialLinearization model (groupOperations history group).get kept ∧ i ∈ kept ∧
      ∀ order', PartialLinearization model (groupOperations history group).get order' →
        i ∈ order' → order'.length ≤ kept.length := by
  rw [findGroup_eq] at hr
  obtain ⟨kept, hk, hik, hle⟩ := Problem.exists_mem_search hr ho hi
  exact ⟨kept, List.mem_map_of_mem hk, (Problem.partialLinearization_of_mem_search hk).1, hik, hle⟩

theorem exists_mem_of_mem_told {told : List Nat}
    (ht : told ∈ (findGroup model history group stop).partials)
    {i : Fin (positionsWithin m group).length}
    (hi : ((positionsWithin m group).get i).val ∈ told) :
    ∃ order, PartialLinearization model (groupOperations history group).get order ∧
      i ∈ order := by
  obtain ⟨_, order, ho, rfl⟩ := (genuine_findGroup model history group stop).partials told ht
  obtain ⟨j, hj, hji⟩ := List.mem_map.mp hi
  -- the group may have this position twice, then `j` need not be `i`
  have he : (groupOperations history group).get j = (groupOperations history group).get i := by
    rw [get_groupOperations, get_groupOperations, Fin.ext hji]
  exact ⟨_, ho.swap he, List.mem_map.mpr ⟨j, hj, Equiv.swap_apply_left j i⟩⟩

theorem partials_of_linearizable (hn : positionsWithin m group ≠ [])
    (h : (findGroup model history group stop).outcome = .linearizable) :
    ∃ told, (findGroup model history group stop).partials = [told] ∧
      told.Perm (findGroup model history group stop).operations := by
  rw [findGroup_eq] at h ⊢
  obtain ⟨order, hs, hp⟩ := Problem.search_of_linearizable (List.length_pos_iff.mpr hn) h
  refine ⟨inHistory m group order, by rw [hs]; rfl, ?_⟩
  have hall : inHistory m group (List.finRange _) = (positionsWithin m group).map Fin.val := by
    rw [inHistory, ← Function.comp_def Fin.val, ← List.map_map, List.map_get_finRange]
  rw [← hall]
  exact hp.map _

theorem length_lt_of_mem_partials {told : List Nat}
    (h : (findGroup model history group stop).outcome ≠ .linearizable)
    (ht : told ∈ (findGroup model history group stop).partials) :
    told.length < (findGroup model history group stop).operations.length := by
  rw [findGroup_eq] at h ht ⊢
  obtain ⟨order, ho, rfl⟩ := List.mem_map.mp ht
  simpa using Problem.length_lt_of_mem_search h ho

theorem consistent_findGroup (hn : (findGroup model history group stop).operations ≠ []) :
    (findGroup model history group stop).Consistent := by
  have hg : positionsWithin m group ≠ [] := by simpa [findGroup_eq] using hn
  constructor
  case linearizable_iff =>
    constructor
    · intro h
      obtain ⟨told, ht, hp⟩ := partials_of_linearizable hg h
      exact ⟨told, ht ▸ List.mem_singleton_self told, hp⟩
    · rintro ⟨told, ht, hp⟩
      by_contra h
      exact (length_lt_of_mem_partials h ht).ne hp.length_eq
  case alone =>
    intro h
    obtain ⟨told, ht, _⟩ := partials_of_linearizable hg h
    exact ⟨told, ht⟩
  case shorter => exact fun h told ht => length_lt_of_mem_partials h ht

/-- Unless its search is aborted, an order at least as long as any partial linearization of a
group is told. -/
theorem exists_length_le (h : (findGroup model history group stop).outcome ≠ .aborted)
    (ho : PartialLinearization model (groupOperations history group).get order)
    (hne : order ≠ []) :
    ∃ told ∈ (findGroup model history group stop).partials, order.length ≤ told.length := by
  obtain ⟨i, hi⟩ := List.exists_mem_of_ne_nil order hne
  cases hr : (findGroup model history group stop).outcome with
  | linearizable =>
    obtain ⟨told, ht, hp⟩ := partials_of_linearizable (List.ne_nil_of_length_pos i.pos) hr
    refine ⟨told, ht ▸ List.mem_singleton_self told, ho.length_le.trans ?_⟩
    rw [hp.length_eq, findGroup_eq, List.length_map]
  | notLinearizable =>
    obtain ⟨kept, hk, _, _, hle⟩ := exists_mem_partials hr ho hi
    exact ⟨_, hk, by simpa using hle order ho hi⟩
  | aborted => exact absurd hr h

/-- Unless its search is aborted, the longest order told is the longest partial linearization. -/
theorem isGreatest_partialLengths (h : (findGroup model history group stop).outcome ≠ .aborted) :
    IsGreatest (partialLengths model (groupOperations history group).get)
      (findGroup model history group stop).longestLength := by
  have hg := genuine_findGroup model history group stop
  obtain ⟨hm, hle⟩ := (findGroup model history group stop).isGreatest_longestLength
  constructor
  · rcases hm with hz | ⟨told, ht, hl⟩
    · rw [hz]
      exact zero_mem_partialLengths _ _
    · obtain ⟨_, order, ho, rfl⟩ := hg.partials told ht
      exact ⟨order, ho, by rw [← hl, length_inHistory]⟩
  · rintro _ ⟨order, ho, rfl⟩
    by_cases hne : order = []
    · simp [hne]
    · obtain ⟨told, ht, hlt⟩ := exists_length_le h ho hne
      exact hlt.trans (hle (.inr ⟨told, ht, rfl⟩))

/-- Of a refuted group the longest partial linearizations are told: for each operation that has a
place in some, one of the longest that have it, and none for the other operations. The longest
order told is the longest partial linearization. -/
theorem partials_maximal
    (hr : (findGroup model history group stop).outcome = .notLinearizable) :
    (∀ i order, PartialLinearization model (groupOperations history group).get order → i ∈ order →
      ∃ kept, inHistory m group kept ∈ (findGroup model history group stop).partials ∧
        PartialLinearization model (groupOperations history group).get kept ∧ i ∈ kept ∧
        ∀ order', PartialLinearization model (groupOperations history group).get order' →
          i ∈ order' → order'.length ≤ kept.length) ∧
      (∀ i, (∀ order, PartialLinearization model (groupOperations history group).get order →
        i ∉ order) → ∀ told ∈ (findGroup model history group stop).partials,
          ((positionsWithin m group).get i).val ∉ told) ∧
      IsGreatest (partialLengths model (groupOperations history group).get)
        (findGroup model history group stop).longestLength := by
  refine ⟨fun i order ho hi => exists_mem_partials hr ho hi, fun i hi told ht hm => ?_,
    isGreatest_partialLengths (by simp [hr])⟩
  obtain ⟨order, ho, hio⟩ := exists_mem_of_mem_told ht hm
  exact hi order ho hio

end FindGroup

namespace Stale

/-- A value is read that has been overwritten at the latest when the first write returned. -/
def history : Vector (Operation Register.Command Int) 3 :=
  #v[⟨⟨1⟩, .write 1, ⟨0⟩, 0, ⟨3⟩⟩, ⟨⟨2⟩, .write 2, ⟨2⟩, 0, ⟨5⟩⟩, ⟨⟨3⟩, .read, ⟨4⟩, 0, ⟨6⟩⟩]

def group : List Nat := [0, 1, 2]

def finding : Finding := findGroup Register.model history group fun _ => false

def writes : List (Fin (positionsWithin 3 group).length) := [⟨1, by decide⟩, ⟨0, by decide⟩]

end Stale

theorem partials_maximal_stale :
    Stale.finding.outcome = .notLinearizable ∧
      PartialLinearization Register.model (groupOperations Stale.history Stale.group).get
        Stale.writes ∧
      (∃ kept, inHistory 3 Stale.group kept ∈ Stale.finding.partials ∧ 2 ≤ kept.length) ∧
      IsGreatest
        (partialLengths Register.model (groupOperations Stale.history Stale.group).get) 2 := by
  have hr : Stale.finding.outcome = .notLinearizable := by
    simp only [Stale.finding, findGroup, Finding.at, problemAt, Problem.of, Timeline.of,
      Event.mergeSort_notAfter]
    decide +kernel
  have hw : PartialLinearization Register.model (groupOperations Stale.history Stale.group).get
      Stale.writes := by decide +kernel
  obtain ⟨htold, _, hlongest⟩ := partials_maximal hr
  obtain ⟨kept, hk, _, _, hle⟩ := htold ⟨0, by decide⟩ Stale.writes hw (by decide)
  have hne : Stale.finding.operations ≠ [] := List.cons_ne_nil 0 [1, 2]
  have hlt : Stale.finding.longestLength < 3 :=
    (consistent_findGroup hne).longestLength_lt hne (hr.trans_ne (by decide))
  have hge : 2 ≤ Stale.finding.longestLength := hlongest.2 ⟨Stale.writes, hw, rfl⟩
  have hl : Stale.finding.longestLength = 2 := by omega
  exact ⟨hr, hw, ⟨kept, hk, hle _ hw (by decide)⟩, hl ▸ hlongest⟩

end Linearizability
