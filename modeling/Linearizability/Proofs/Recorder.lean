import Linearizability.Recorder
import Linearizability.Proofs.Trace.RoundTrip

/-! # The times a recorder gives

As long as the anchor stays, time does not go back, and no request is answered before it is
called. A new anchor may lie before the old one. A request that is pending while such an anchor is
set may return before its call, and then the exported file is not loaded.
-/

namespace Linearizability

namespace Recorder

inductive Act where
  | sync (millis : Int64)
  | call (request : Request)
  | complete (handle : Nat) (response : Response)
  deriving DecidableEq

def step (recorder : Recorder) (clock : Nat) : Act → Recorder
  | .sync millis => recorder.sync millis clock
  | .call request => (recorder.call request clock).2
  | .complete handle response => (recorder.complete handle response clock).2

/-- The recorder after some acts, each at a reading of the clock. -/
def run (recorder : Recorder) (acts : List (Nat × Act)) : Recorder :=
  acts.foldl (fun recorder act => recorder.step act.1 act.2) recorder

/-- An act does not set an anchor before the call of a request that is pending. -/
def Act.Keeps (recorder : Recorder) (handle : Nat) : Act → Prop
  | .sync millis => ∀ slot ∈ recorder.slots[handle]?,
      slot.completion = none → slot.call ≤ .ofMillis millis
  | .call _ | .complete _ _ => True

instance (recorder : Recorder) (handle : Nat) : (act : Act) → Decidable (act.Keeps recorder handle)
  | .sync millis => inferInstanceAs (Decidable (∀ slot ∈ recorder.slots[handle]?,
      slot.completion = none → slot.call ≤ .ofMillis millis))
  | .call _ | .complete _ _ => .isTrue trivial

def Steady (recorder : Recorder) (acts : List (Nat × Act)) (handle : Nat) : Prop :=
  ∀ before clock act, before ++ [(clock, act)] <+: acts → act.Keeps (recorder.run before) handle

/-- A request is pending, and its call is not after a time, or it has not been answered before its
call. -/
def Slot.OnTime (slot : Slot) (now : Timestamp) : Prop :=
  match slot.completion with
  | none => slot.call ≤ now
  | some (_, ret) => slot.call ≤ ret

variable {recorder : Recorder} {clock now : Nat} {act : Act} {acts : List (Nat × Act)}
  {handle : Nat} {record : Record}

theorem steady_nil : recorder.Steady [] handle := by
  intro before clock act h
  simp at h

theorem steady_cons : recorder.Steady ((clock, act) :: acts) handle ↔
    act.Keeps recorder handle ∧ (recorder.step clock act).Steady acts handle := by
  constructor
  · intro h
    refine ⟨h [] clock act (by simp), fun before clock' act' hp => ?_⟩
    exact h ((clock, act) :: before) clock' act' (List.cons_prefix_cons.mpr ⟨rfl, hp⟩)
  · rintro ⟨hkeep, hrest⟩ before clock' act' hp
    cases before with
    | nil =>
      obtain ⟨h, -⟩ := List.cons_prefix_cons.mp hp
      cases h
      exact hkeep
    | cons first before =>
      rw [List.cons_append, List.cons_prefix_cons] at hp
      obtain ⟨rfl, hp⟩ := hp
      exact hrest before clock' act' hp

instance decidableSteady (handle : Nat) :
    (recorder : Recorder) → (acts : List (Nat × Act)) → Decidable (recorder.Steady acts handle)
  | _, [] => .isTrue steady_nil
  | recorder, (clock, act) :: acts =>
    have := decidableSteady handle (recorder.step clock act) acts
    decidable_of_iff _ steady_cons.symm

theorem time_mono (recorder : Recorder) (h : now ≤ clock) :
    recorder.time now ≤ recorder.time clock := by
  refine Timestamp.shift_mono _ ?_
  have hpassed : (((now - recorder.started : Nat)) : Int) ≤ ((clock - recorder.started : Nat)) :=
    Int.ofNat_le.mpr (Nat.sub_le_sub_right h _)
  split <;> split <;> omega

theorem time_sync (recorder : Recorder) (millis : Int64) (clock : Nat) :
    (recorder.sync millis clock).time clock = .ofMillis millis := by
  have hmax : (0 : Int) ≤ Int64.maxValue.toInt := by decide
  simp only [time, sync, Nat.sub_self, Int.ofNat_zero, if_pos hmax, Timestamp.shift_zero]

theorem Slot.OnTime.mono {slot : Slot} {earlier later : Timestamp} (h : slot.OnTime earlier)
    (hle : earlier ≤ later) : slot.OnTime later := by
  unfold Slot.OnTime at h ⊢
  split
  · rename_i hpending
    rw [hpending, Timestamp.le_iff] at h
    rw [Timestamp.le_iff] at hle ⊢
    exact h.trans hle
  · rename_i hdone
    rwa [hdone] at h

/-- The answer to a request that is not pending changes nothing; the answer to one that is gets
into its slot. -/
theorem complete_cases (recorder : Recorder) (handle : Nat) (response : Response) (clock : Nat) :
    ((∀ slot ∈ recorder.slots[handle]?, slot.completion.isSome) ∧
      recorder.complete handle response clock = (false, recorder)) ∨
    ∃ slot, recorder.slots[handle]? = some slot ∧ slot.completion = none ∧
      recorder.complete handle response clock = (true, { recorder with
        slots := recorder.slots.setIfInBounds handle
          { slot with completion := some (response, recorder.time clock) } }) := by
  unfold complete
  cases hslot : recorder.slots[handle]? with
  | none => exact .inl ⟨by simp, rfl⟩
  | some slot =>
    cases hdone : slot.completion with
    | none => exact .inr ⟨slot, rfl, hdone, by simp [hdone]⟩
    | some answer => exact .inl ⟨by simp [hdone], by simp [hdone]⟩

/-- What one act does to the request of a handle. -/
theorem onTime_step (hle : now ≤ clock) (hkeep : act.Keeps recorder handle)
    (h : ∀ slot ∈ recorder.slots[handle]?, slot.OnTime (recorder.time now)) :
    ∀ slot ∈ (recorder.step clock act).slots[handle]?,
      slot.OnTime ((recorder.step clock act).time clock) := by
  have hlater := recorder.time_mono hle
  cases act with
  | sync millis =>
    -- the new anchor is the time, so what is pending is on time only if its call is not later
    intro slot hm
    have hold := h slot hm
    rw [step, time_sync]
    unfold Slot.OnTime at hold ⊢
    split
    · rename_i hpending
      exact hkeep slot hm hpending
    · rename_i hdone
      rwa [hdone] at hold
  | call request =>
    intro slot hm
    simp only [step, call, Array.getElem?_push] at hm
    split at hm
    · obtain rfl : _ = slot := Option.some.inj hm
      exact Timestamp.le_iff.mpr le_rfl
    · exact (h slot hm).mono hlater
  | complete handle' response =>
    intro slot hm
    obtain ⟨-, hsame⟩ | ⟨pending, hget, hpending, hset⟩ :=
      recorder.complete_cases handle' response clock
    · rw [step, hsame] at hm ⊢
      exact (h slot hm).mono hlater
    · rw [step, hset] at hm ⊢
      simp only [Array.getElem?_setIfInBounds] at hm
      split at hm
      · rename_i heq
        subst heq
        have hcall := (h pending hget).mono hlater
        rw [Slot.OnTime, hpending] at hcall
        split at hm
        · obtain rfl : _ = slot := Option.some.inj hm
          exact hcall
        · cases hm
      · exact (h slot hm).mono hlater

theorem onTime_run (hclock : (now :: acts.map Prod.fst).Pairwise (· ≤ ·))
    (hsteady : recorder.Steady acts handle)
    (h : ∀ slot ∈ recorder.slots[handle]?, slot.OnTime (recorder.time now)) :
    ∃ last, ∀ slot ∈ (recorder.run acts).slots[handle]?,
      slot.OnTime ((recorder.run acts).time last) := by
  induction acts generalizing recorder now with
  | nil => exact ⟨now, h⟩
  | cons first acts ih =>
    obtain ⟨clock, act⟩ := first
    obtain ⟨hkeep, hrest⟩ := steady_cons.mp hsteady
    obtain ⟨hle, hclock⟩ := List.pairwise_cons.mp hclock
    exact ih hclock hrest (onTime_step (hle clock (by simp)) hkeep h)

theorem mem_history : record ∈ recorder.history ↔
    ∃ (handle : Nat) (slot : Slot) (response : Response) (ret : Timestamp),
      recorder.slots[handle]? = some slot ∧ slot.completion = some (response, ret) ∧
      record = ⟨recorder.client, slot.request, slot.call, response, ret⟩ := by
  simp only [history, List.mem_filterMap, Array.mem_toList_iff, Array.mem_iff_getElem?,
    Option.map_eq_some_iff]
  constructor
  · rintro ⟨slot, ⟨handle, hget⟩, ⟨response, ret⟩, hdone, rfl⟩
    exact ⟨handle, slot, response, ret, hget, hdone, rfl⟩
  · rintro ⟨handle, slot, response, ret, hget, hdone, rfl⟩
    exact ⟨slot, ⟨handle, hget⟩, (response, ret), hdone, rfl⟩

/-- A request whose recorder is steady returns no earlier than it is called. If this is so for all
requests, what is exported is loaded again. -/
theorem load_of_export (client : Client) (anchor : Timestamp) (now : Nat)
    (acts : List (Nat × Act)) (hclock : (now :: acts.map Prod.fst).Pairwise (· ≤ ·)) :
    (∀ handle, (new client anchor now).Steady acts handle →
      ∀ slot response ret, ((new client anchor now).run acts).slots[handle]? = some slot →
        slot.completion = some (response, ret) → slot.call ≤ ret) ∧
    ((∀ handle < ((new client anchor now).run acts).operationCount,
        (new client anchor now).Steady acts handle) →
      ((new client anchor now).run acts).history.Valid ∧
      ∀ tree path tree',
        ((new client anchor now).run acts).exportTo tree path = (.ok (), tree') →
        Trace.load tree' path = .ok ((new client anchor now).run acts).history) := by
  have hslot : ∀ handle, (new client anchor now).Steady acts handle →
      ∀ slot response ret, ((new client anchor now).run acts).slots[handle]? = some slot →
        slot.completion = some (response, ret) → slot.call ≤ ret := by
    intro handle hsteady slot response ret hget hdone
    obtain ⟨last, hlast⟩ := onTime_run hclock hsteady (by simp [new])
    have hrun := hlast slot hget
    rwa [Slot.OnTime, hdone] at hrun
  refine ⟨hslot, fun hsteady => ?_⟩
  have hvalid : ((new client anchor now).run acts).history.Valid := by
    intro record hm
    obtain ⟨handle, slot, response, ret, hget, hdone, rfl⟩ := mem_history.mp hm
    obtain ⟨hlt, -⟩ := Array.getElem?_eq_some_iff.mp hget
    exact hslot handle (hsteady handle hlt) slot response ret hget hdone
  refine ⟨hvalid, fun tree path tree' hw => ?_⟩
  rw [Trace.load_of_write hw, Trace.parse_print_of_valid path hvalid]

namespace Resynced

/-- An anchor is set ahead while a request is pending, one at the end of time, and one back while
none is pending. The last request is not answered. -/
def ahead : List (Nat × Act) :=
  [(7, .call (.get "k")), (9, .sync 1), (9, .call (.put "k" "é")), (9, .complete 5 ⟨none, none⟩),
    (12, .complete 1 .ok), (12, .sync Int64.maxValue), (20, .complete 0 ⟨some "", some "\n"⟩),
    (20, .complete 0 .ok), (21, .sync (-5)), (30, .call (.delete ""))]

def back : List (Nat × Act) :=
  [(0, .sync 1000000), (0, .call (.get "k")), (1, .sync 0), (2, .complete 0 .ok)]

def file : Path := ⟨"r.json"⟩

theorem exportTo_eq_ok (recorder : Recorder) : recorder.exportTo (.empty .root) file =
    (.ok (), (recorder.exportTo (.empty .root) file).2) :=
  rfl

end Resynced

open Resynced in
theorem load_of_export_ahead :
    (7 :: ahead.map Prod.fst).Pairwise (· ≤ ·) ∧
    (∀ handle < ((new ⟨1⟩ ⟨5⟩ 7).run ahead).operationCount,
      (new ⟨1⟩ ⟨5⟩ 7).Steady ahead handle) ∧
    ((new ⟨1⟩ ⟨5⟩ 7).run ahead).history.map (fun record => (record.call, record.ret)) =
      [(⟨5⟩, ⟨.maxValue⟩), (⟨1000000⟩, ⟨1000003⟩)] ∧
    ∃ tree, ((new ⟨1⟩ ⟨5⟩ 7).run ahead).exportTo (.empty .root) file = (.ok (), tree) ∧
      Trace.load tree file = .ok ((new ⟨1⟩ ⟨5⟩ 7).run ahead).history := by
  have hclock : (7 :: ahead.map Prod.fst).Pairwise (· ≤ ·) := by decide
  have hsteady : ∀ handle < ((new ⟨1⟩ ⟨5⟩ 7).run ahead).operationCount,
      (new ⟨1⟩ ⟨5⟩ 7).Steady ahead handle := by decide +kernel
  obtain ⟨-, hload⟩ := load_of_export ⟨1⟩ ⟨5⟩ 7 ahead hclock
  obtain ⟨-, hload⟩ := hload hsteady
  exact ⟨hclock, hsteady, by decide +kernel, _, exportTo_eq_ok _, hload _ _ _ (exportTo_eq_ok _)⟩

open Resynced in
/-- What was exported is not loaded, though the clock did not go back. -/
theorem sync_inverts :
    (0 :: back.map Prod.fst).Pairwise (· ≤ ·) ∧
    ∃ tree, ((new ⟨1⟩ ⟨0⟩ 0).run back).exportTo (.empty .root) file = (.ok (), tree) ∧
      Trace.load tree file = .error (.inverted file 0 ⟨⟨1000000000000⟩, ⟨1⟩⟩) := by
  refine ⟨by decide, _, exportTo_eq_ok _, ?_⟩
  rw [Trace.load_of_write (exportTo_eq_ok _)]
  exact Trace.parse_print_of_some file (by decide +kernel)

end Recorder

end Linearizability
