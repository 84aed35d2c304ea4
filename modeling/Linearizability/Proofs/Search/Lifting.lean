import Linearizability.Proofs.Search.Continuations
import Mathlib.Data.List.Induction

/-! # Lifting calls off the time line

A call can be lifted off a time line together with its return, and the call lifted last can be put
back. However often this is done, the links lead through the places of the operations that are not
lifted, in their order, and putting a call back leads to where its lift has started.
-/

namespace Linearizability

variable {I O : Type} {n : Nat}

/-- The links of a time line, and the calls lifted off it, the last one first. -/
structure Lifting (n : Nat) where
  links : Links (2 * n)
  lifted : List (Place n)

namespace Lifting

inductive Move (n : Nat) where
  | lift (call : Place n)
  | unlift

/-- Every call is put back after it has been lifted, and after all that are lifted in between. -/
inductive Nested : List (Move n) → Prop where
  | nil : Nested []
  | lift {inner rest : List (Move n)} (call : Place n) (nestedInner : Nested inner)
      (nestedRest : Nested rest) : Nested (.lift call :: inner ++ .unlift :: rest)

def start (n : Nat) : Lifting n := ⟨.all (2 * n), []⟩

def order (timeline : Timeline n) (l : Lifting n) : List (Fin n) :=
  l.lifted.reverse.map fun call => (timeline.events.get call).op

def lift (timeline : Timeline n) (l : Lifting n) (call : Place n) : Lifting n where
  links := l.links.lift call (timeline.returnOf.get (timeline.events.get call).op)
  lifted := call :: l.lifted

/-- Lift a call that the links meet, or put back the call lifted last. -/
def move? (timeline : Timeline n) (l : Lifting n) : Move n → Option (Lifting n)
  | .lift call =>
    if (timeline.events.get call).phase = .call ∧ call ∈ l.links.places then
      some (l.lift timeline call)
    else none
  | .unlift =>
    match l.lifted with
    | [] => none
    | call :: lifted =>
      some ⟨l.links.unlift call (timeline.returnOf.get (timeline.events.get call).op), lifted⟩

def moves? (timeline : Timeline n) (l : Lifting n) (moves : List (Move n)) : Option (Lifting n) :=
  moves.foldlM (move? timeline) l

inductive Descends (timeline : Timeline n) : Lifting n → Prop where
  | start : Descends timeline (start n)
  | lift {l : Lifting n} {call : Place n} (descends : Descends timeline l)
      (phase : (timeline.events.get call).phase = .call)
      (notLifted : (timeline.events.get call).op ∉ l.order timeline) :
      Descends timeline (l.lift timeline call)

section Moves

variable {timeline : Timeline n} {operations : Vector (Operation I O) n} {l l' : Lifting n}
  {call : Place n} {move : Move n} {moves : List (Move n)}

theorem order_lift (timeline : Timeline n) (l : Lifting n) (call : Place n) :
    (l.lift timeline call).order timeline =
      l.order timeline ++ [(timeline.events.get call).op] := by
  simp [order, lift]

namespace Descends

theorem threads (h : timeline.Lays operations) (hd : Descends timeline l) :
    l.links.Threads (timeline.pending (l.order timeline)) := by
  induction hd with
  | start => simpa [Timeline.pending, order, Lifting.start] using Links.threads_all (2 * n)
  | lift _ phase notLifted ih =>
    rw [order_lift]
    exact h.threads_lift ih phase notLifted

theorem places_eq (h : timeline.Lays operations) (hd : Descends timeline l) :
    l.links.places = timeline.pending (l.order timeline) :=
  (hd.threads h).places_eq

theorem move?_lift (h : timeline.Lays operations) (hd : Descends timeline l)
    (hm : l.move? timeline (.lift call) = some l') :
    l' = l.lift timeline call ∧ (timeline.events.get call).phase = .call ∧
      (timeline.events.get call).op ∉ l.order timeline := by
  rw [move?, hd.places_eq h, Option.ite_none_right_eq_some, Option.some.injEq,
    Timeline.mem_pending] at hm
  exact ⟨hm.2.symm, hm.1⟩

theorem move?_unlift_lift (h : timeline.Lays operations) (hd : Descends timeline l)
    (phase : (timeline.events.get call).phase = .call)
    (notLifted : (timeline.events.get call).op ∉ l.order timeline) :
    (l.lift timeline call).move? timeline .unlift = some l := by
  simp only [move?, Lifting.lift, h.unlift_lift (hd.threads h) phase notLifted]

/-- Putting back the call lifted last leads to where it was lifted. -/
theorem move?_unlift (h : timeline.Lays operations) (hd : Descends timeline l)
    (hm : l.move? timeline (.lift call) = some l') : l'.move? timeline .unlift = some l := by
  obtain ⟨rfl, phase, notLifted⟩ := hd.move?_lift h hm
  exact hd.move?_unlift_lift h phase notLifted

theorem step (h : timeline.Lays operations) (hd : Descends timeline l)
    (hm : l.move? timeline move = some l') : Descends timeline l' := by
  cases move with
  | lift call =>
    obtain ⟨rfl, phase, notLifted⟩ := hd.move?_lift h hm
    exact hd.lift phase notLifted
  | unlift =>
    cases hd with
    | start => cases hm
    | lift descends phase notLifted =>
      rw [descends.move?_unlift_lift h phase notLifted] at hm
      cases hm
      exact descends

end Descends

theorem moves?_concat (timeline : Timeline n) (l : Lifting n) (moves : List (Move n))
    (move : Move n) : l.moves? timeline (moves ++ [move]) =
      (l.moves? timeline moves).bind (·.move? timeline move) := by
  simp [moves?, List.foldlM_append]

theorem descends_of_moves (h : timeline.Lays operations)
    (hm : (start n).moves? timeline moves = some l) : Descends timeline l := by
  induction moves using List.reverseRecOn generalizing l with
  | nil =>
    cases hm
    exact .start
  | append_singleton moves move ih =>
    rw [moves?_concat, Option.bind_eq_some_iff] at hm
    obtain ⟨l', hl', hm⟩ := hm
    exact (ih hl').step h hm

theorem Nested.append {moves' : List (Move n)} (h : Nested moves) (h' : Nested moves') :
    Nested (moves ++ moves') := by
  induction h with
  | nil => exact h'
  | lift call nestedInner _ _ ih =>
    simpa using Nested.lift call nestedInner ih

/-- A call that is lifted was lifted by some move, and what was lifted since has been put back. -/
theorem exists_lift (h : timeline.Lays operations) {lifted : List (Place n)}
    (hm : (start n).moves? timeline moves = some l) (hl : l.lifted = call :: lifted) :
    ∃ outer inner l', moves = outer ++ .lift call :: inner ∧ Nested inner ∧
      (start n).moves? timeline outer = some l' ∧ l'.move? timeline (.lift call) = some l := by
  induction hlen : moves.length using Nat.strong_induction_on
    generalizing moves l call lifted with
  | _ k ih =>
    subst hlen
    rcases List.eq_nil_or_concat' moves with rfl | ⟨moves, move, rfl⟩
    · cases hm
      cases hl
    · rw [moves?_concat, Option.bind_eq_some_iff] at hm
      obtain ⟨last, hlast, hm⟩ := hm
      cases move with
      | lift call' =>
        obtain ⟨rfl, -⟩ := (descends_of_moves h hlast).move?_lift h hm
        obtain ⟨rfl, -⟩ := List.cons.inj hl
        exact ⟨moves, [], last, rfl, .nil, hlast, hm⟩
      | unlift =>
        cases hcalls : last.lifted with
        | nil => simp [move?, hcalls] at hm
        | cons call' calls =>
          -- the call put back was lifted, and in front of that the call looked for
          obtain ⟨outer', inner', l', rfl, hn', hl', hm'⟩ :=
            ih _ (by simp) hlast hcalls rfl
          obtain rfl : l' = l :=
            Option.some.inj (((descends_of_moves h hl').move?_unlift h hm').symm.trans hm)
          obtain ⟨outer, inner, l'', rfl, hn, hl'', hm''⟩ := ih _ (by simp) hl' hl rfl
          exact ⟨outer, inner ++ (.lift call' :: inner' ++ [.unlift]), l'', by simp,
            hn.append (.lift call' hn' .nil), hl'', hm''⟩

/-- Lifting is undone exactly. After any moves the links meet the places of the operations that
are not lifted, in their order. When a call is put back, everything is as it was just in front of
the move that lifted it: since then every other call that was lifted has been put back. -/
theorem lifting_undone (operations : Vector (Operation I O) n)
    (hm : (start n).moves? (Timeline.of operations) moves = some l) :
    l.links.places = (List.finRange (2 * n)).filter (fun place =>
        ((Timeline.of operations).events.get place).op ∉ l.order (Timeline.of operations)) ∧
      ∀ l', l.move? (Timeline.of operations) .unlift = some l' →
        ∃ outer call inner, l.lifted = call :: l'.lifted ∧
          moves = outer ++ .lift call :: inner ∧ Nested inner ∧
          (start n).moves? (Timeline.of operations) outer = some l' := by
  have h := Timeline.lays_of operations
  refine ⟨(descends_of_moves h hm).places_eq h, fun l' hl' => ?_⟩
  cases hcalls : l.lifted with
  | nil => simp [move?, hcalls] at hl'
  | cons call calls =>
    obtain ⟨outer, inner, last, rfl, hn, hlast, hm'⟩ := exists_lift h hm hcalls
    obtain rfl : last = l' :=
      Option.some.inj (((descends_of_moves h hlast).move?_unlift h hm').symm.trans hl')
    obtain ⟨rfl, -⟩ := (descends_of_moves h hlast).move?_lift h hm'
    exact ⟨outer, call, inner, hcalls.symm, rfl, hn, hlast⟩

end Moves

namespace Inverted

/-- The first operation returns before it is called, and the second one takes place in between. -/
def operations : Vector (Operation Unit Unit) 2 :=
  #v[⟨⟨1⟩, (), ⟨3⟩, (), ⟨0⟩⟩, ⟨⟨2⟩, (), ⟨1⟩, (), ⟨2⟩⟩]

/-- The second operation is lifted, and the first one is lifted and put back. -/
def moves : List (Move 2) := [.lift 1, .lift 3, .unlift]

def lifting : Lifting 2 := (start 2).lift (Timeline.of operations) 1

end Inverted

theorem lifting_undone_inverted :
    (start 2).moves? (Timeline.of Inverted.operations) Inverted.moves = some Inverted.lifting ∧
      Inverted.lifting.links.places = [0, 3] ∧
      Inverted.lifting.move? (Timeline.of Inverted.operations) .unlift = some (start 2) ∧
      ∃ outer call inner, Inverted.lifting.lifted = [call] ∧
        Inverted.moves = outer ++ .lift call :: inner ∧ Nested inner ∧
        (start 2).moves? (Timeline.of Inverted.operations) outer = some (start 2) := by
  have hm : (start 2).moves? (Timeline.of Inverted.operations) Inverted.moves =
      some Inverted.lifting := by
    simp only [Inverted.lifting, Timeline.of, Event.mergeSort_notAfter]
    rfl
  have hu : Inverted.lifting.move? (Timeline.of Inverted.operations) .unlift =
      some (start 2) := by
    simp only [Inverted.lifting, Timeline.of, Event.mergeSort_notAfter]
    rfl
  have hp : (List.finRange 4).filter (fun place =>
      ((Timeline.of Inverted.operations).events.get place).op ∉
        Inverted.lifting.order (Timeline.of Inverted.operations)) = [0, 3] := by
    simp only [Inverted.lifting, Timeline.of, Event.mergeSort_notAfter]
    decide +kernel
  obtain ⟨hplaces, hundone⟩ := lifting_undone Inverted.operations hm
  exact ⟨hm, hplaces.trans hp, hu, hundone (start 2) hu⟩

end Lifting

end Linearizability
