import Linearizability.Proofs.Run

/-! # Relaxed histories

Operations that take longer leave more orders open, and a read that is left out changes no state.
So a history that is found linearizable is still found so after both.
-/

namespace Linearizability

/-- Calls moved to earlier times, returns to later ones, and any reads left out. -/
inductive Relaxed : History → History → Prop where
  | nil : Relaxed [] []
  | drop {a : Record} {key : String} {history history' : History} (read : a.input = .get key)
      (rest : Relaxed history history') : Relaxed (a :: history) history'
  | widen {a b : Record} {history history' : History} (call : b.call ≤ a.call)
      (ret : a.ret ≤ b.ret) (same : b.exchange = a.exchange) (rest : Relaxed history history') :
      Relaxed (a :: history) (b :: history')

namespace Relaxed

variable {history history' order order' : History} {a b : Record} {s t : Store}

/-- Another order of a history is relaxed to another order of what the history is relaxed to. -/
theorem exists_perm (h : Relaxed history history') (hp : history.Perm order) :
    ∃ order', history'.Perm order' ∧ Relaxed order order' := by
  induction hp generalizing history' with
  | nil => exact ⟨history', .rfl, h⟩
  | cons a _ ih =>
    cases h with
    | drop hr h =>
      obtain ⟨order', hp, ho⟩ := ih h
      exact ⟨order', hp, .drop hr ho⟩
    | @widen _ b _ _ hc hr hs h =>
      obtain ⟨order', hp, ho⟩ := ih h
      exact ⟨b :: order', hp.cons b, .widen hc hr hs ho⟩
  | swap a b l =>
    cases h with
    | drop hr h =>
      cases h with
      | drop hr' h => exact ⟨_, .rfl, .drop hr' (.drop hr h)⟩
      | widen hc' hr' hs' h => exact ⟨_, .rfl, .widen hc' hr' hs' (.drop hr h)⟩
    | widen hc hr hs h =>
      cases h with
      | drop hr' h => exact ⟨_, .rfl, .drop hr' (.widen hc hr hs h)⟩
      | widen hc' hr' hs' h => exact ⟨_, .swap _ _ _, .widen hc' hr' hs' (.widen hc hr hs h)⟩
  | trans _ _ ih ih' =>
    obtain ⟨order, hp, ho⟩ := ih h
    obtain ⟨order', hp', ho'⟩ := ih' ho
    exact ⟨order', hp.trans hp', ho'⟩

theorem exists_mem (h : Relaxed order order') (hb : b ∈ order') :
    ∃ a ∈ order, b.call ≤ a.call ∧ a.ret ≤ b.ret := by
  induction h with
  | nil => cases hb
  | drop _ _ ih =>
    obtain ⟨a, ha, hw⟩ := ih hb
    exact ⟨a, List.mem_cons_of_mem _ ha, hw⟩
  | widen hc hr _ _ ih =>
    rcases List.mem_cons.mp hb with rfl | hb
    · exact ⟨_, List.mem_cons_self, hc, hr⟩
    · obtain ⟨a, ha, hw⟩ := ih hb
      exact ⟨a, List.mem_cons_of_mem _ ha, hw⟩

theorem respectsTime (h : Relaxed order order') (ht : RespectsTime order) :
    RespectsTime order' := by
  induction h with
  | nil => exact ht
  | drop _ _ ih => exact ih (respectsTime_cons.mp ht).2
  | @widen a b order order' hc hr hs h ih =>
    obtain ⟨ha, ht⟩ := respectsTime_cons.mp ht
    rw [respectsTime_cons]
    refine ⟨fun d hd => ?_, ih ht⟩
    obtain ⟨c, hm, -, hw⟩ := (widen hc hr hs h).exists_mem hd
    have hn := ha c hm
    rw [Timestamp.lt_iff] at *
    rw [Timestamp.le_iff] at *
    omega

theorem eq_of_next?_get {key : String} {response : Response}
    (h : Store.model.next? s (.get key, response) = some t) : t = s := by
  rw [Model.next?_eq_ite, Option.ite_none_right_eq_some] at h
  exact (Option.some.inj h.2).symm

theorem after?_eq (h : Relaxed order order')
    (hs : Store.model.after? s (order.map Operation.exchange) = some t) :
    Store.model.after? s (order'.map Operation.exchange) = some t := by
  induction h generalizing s with
  | nil => exact hs
  | @drop a key order order' hread _ ih =>
    rw [List.map_cons, Model.after?_cons, Option.bind_eq_some_iff] at hs
    obtain ⟨u, hu, hs⟩ := hs
    rw [Operation.exchange, hread] at hu
    obtain rfl := eq_of_next?_get hu
    exact ih hs
  | widen _ _ hsame _ ih =>
    rw [List.map_cons, Model.after?_cons, Option.bind_eq_some_iff] at hs ⊢
    obtain ⟨u, hu, hs⟩ := hs
    exact ⟨u, hsame ▸ hu, ih hs⟩

theorem linearizable (h : Relaxed history history')
    (hl : Linearizable Store.model history) : Linearizable Store.model history' := by
  obtain ⟨order, hp, ht, s, hs⟩ := hl
  obtain ⟨order', hp', ho⟩ := h.exists_perm hp.symm
  refine ⟨order', hp'.symm, ho.respectsTime ht, s, ?_⟩
  rw [Model.replay_eq_ok_iff] at hs ⊢
  exact ho.after?_eq hs

end Relaxed

/-- With no deadline, a history found linearizable is still found so when operations take longer
and reads are left out. -/
theorem verdict_of_relaxed {history history' : History} (h : Relaxed history history')
    (stopOnFailure : Bool)
    (hl : (check Store.model history .unlimited stopOnFailure).verdict = .linearizable) :
    (check Store.model history' .unlimited stopOnFailure).verdict = .linearizable := by
  have ht := tells_clockedEngine (fun _ => .unlimited) stopOnFailure
  exact (ht history').linearizable_iff.mpr (h.linearizable ((ht history).linearizable_iff.mp hl))

namespace Relaxed

/-- A value is written and read one after the other; the key of another read is not used again. -/
def strict : History :=
  [⟨⟨1⟩, .put "k" "v", ⟨1⟩, .ok, ⟨2⟩⟩, ⟨⟨2⟩, .get "l", ⟨2⟩, .notFound, ⟨3⟩⟩,
    ⟨⟨2⟩, .get "k", ⟨3⟩, .found "v", ⟨4⟩⟩]

def loose : History :=
  [⟨⟨1⟩, .put "k" "v", ⟨1⟩, .ok, ⟨9⟩⟩,
    ⟨⟨2⟩, .get "k", ⟨.minValue⟩, .found "v", ⟨.maxValue⟩⟩]

end Relaxed

theorem verdict_of_relaxed_loose :
    (check Store.model Relaxed.strict).verdict = .linearizable ∧
      (check Store.model Relaxed.loose).verdict = .linearizable := by
  have hs : (check Store.model Relaxed.strict).verdict = .linearizable :=
    (tells_clockedEngine (fun _ => .unlimited) false Relaxed.strict).linearizable_iff.mpr
      ⟨Relaxed.strict, .rfl, by decide, _, rfl⟩
  have hr : Relaxed Relaxed.strict Relaxed.loose :=
    .widen (by decide) (by decide) rfl (.drop rfl (.widen (by decide) (by decide) rfl .nil))
  exact ⟨hs, verdict_of_relaxed hr false hs⟩

end Linearizability
