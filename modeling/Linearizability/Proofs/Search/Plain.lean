import Linearizability.Proofs.Search.Turns

/-! # The search on plain arrays

Places and operations can be plain numbers, and what is known of them can be kept in arrays that do
not know which numbers there are: a place has the slot behind its number, and slot 0 is the head of
the time line. From a slot outside an array nothing can be read, and nothing can be written there.
The search never uses one: where only calls have been chosen, a step on plain arrays does what a
step of the search does.
-/

namespace Linearizability.Plain

variable {S I O : Type} {n m : Nat}

section Arrays

variable {α β : Type}

/-- Write a slot of an array, if the array has it. -/
def put? (a : Array α) (slot : Nat) (x : α) : Option (Array α) :=
  if h : slot < a.size then some (a.set slot x h) else none

def number? (n id : Nat) : Option (Fin n) := if h : id < n then some ⟨id, h⟩ else none

def slot (p : Fin m) : Nat := p.val + 1

def slotOrHead (p : Option (Fin m)) : Nat := (p.map slot).getD 0

def headed (head : α) (v : Vector α m) : Array α := #[head] ++ v.toArray

theorem number?_val (i : Fin n) : number? n i.val = some i := by
  simp [number?]

theorem getElem?_toArray (v : Vector α m) (p : Fin m) : v.toArray[p.val]? = some (v.get p) := by
  simp [Vector.get]

theorem put?_toArray (v : Vector α m) (p : Fin m) (x : α) :
    put? v.toArray p.val x = some (v.set p x p.isLt).toArray := by
  simp [put?]

theorem getElem?_headed_zero (head : α) (v : Vector α m) : (headed head v)[0]? = some head := by
  rw [headed, Array.getElem?_append_left (by simp)]
  rfl

theorem getElem?_headed (head : α) (v : Vector α m) (p : Fin m) :
    (headed head v)[slot p]? = some (v.get p) := by
  rw [headed, slot, Array.getElem?_append_right (by simp)]
  exact getElem?_toArray v p

theorem getElem?_headed_map (head : β) (f : α → β) (v : Vector α m) (p : Fin m) :
    (headed head (v.map f))[slot p]? = some (f (v.get p)) :=
  (getElem?_headed head (v.map f) p).trans (congrArg some (Vector.getElem_map f p.isLt))

theorem put?_headed_zero (head : α) (v : Vector α m) (x : α) :
    put? (headed head v) 0 x = some (headed x v) := by
  simp [put?, headed]

theorem put?_headed (head : α) (v : Vector α m) (p : Fin m) (x : α) :
    put? (headed head v) (slot p) x = some (headed head (v.set p x p.isLt)) := by
  have hslot : slot p < (headed head v).size := by
    simp only [slot, headed, Array.size_append, List.size_toArray, List.length_singleton,
      Vector.size_toArray]
    omega
  rw [put?, dif_pos hslot]
  simp [headed, slot, Array.set_append_right]

end Arrays

/-- The time line and its links, by slots. -/
structure Board where
  op : Array Nat
  phase : Array Phase
  /-- The slot of the return of each call. -/
  returnOf : Array Nat
  prev : Array Nat
  next : Array (Option Nat)

namespace Board

def of (timeline : Timeline n) (links : Links (2 * n)) : Board where
  op := headed 0 (timeline.events.map (·.op.val))
  phase := headed .call (timeline.events.map (·.phase))
  returnOf := headed 0 (timeline.events.map fun event =>
    if event.phase = .call then slot (timeline.returnOf.get event.op) else 0)
  prev := headed 0 (links.prev.map slotOrHead)
  next := headed (links.first.map slot) (links.next.map (·.map slot))

def setNext? (board : Board) (before : Nat) (after : Option Nat) : Option Board := do
  let next ← put? board.next before after
  some { board with next }

def setPrev? (board : Board) (before : Nat) (after : Option Nat) : Option Board :=
  match after with
  | none => some board
  | some place => do
    let prev ← put? board.prev place before
    some { board with prev }

def unlink? (board : Board) (place : Nat) : Option Board := do
  let before ← board.prev[place]?
  let after ← board.next[place]?
  let board ← board.setNext? before after
  board.setPrev? before after

def relink? (board : Board) (place : Nat) : Option Board := do
  let before ← board.prev[place]?
  let after ← board.next[place]?
  let board ← board.setNext? before (some place)
  board.setPrev? place after

def lift? (board : Board) (call : Nat) : Option Board := do
  let board ← board.unlink? call
  let ret ← board.returnOf[call]?
  board.unlink? ret

def unlift? (board : Board) (call : Nat) : Option Board := do
  let ret ← board.returnOf[call]?
  let board ← board.relink? ret
  board.relink? call

variable (timeline : Timeline n) (links : Links (2 * n)) (p : Place n)

theorem getElem?_op : (of timeline links).op[slot p]? = some (timeline.events.get p).op.val := by
  rw [of, getElem?_headed_map]

theorem getElem?_phase :
    (of timeline links).phase[slot p]? = some (timeline.events.get p).phase := by
  rw [of, getElem?_headed_map]

theorem getElem?_returnOf (hp : (timeline.events.get p).phase = .call) :
    (of timeline links).returnOf[slot p]? =
      some (slot (timeline.returnOf.get (timeline.events.get p).op)) := by
  rw [of, getElem?_headed_map, if_pos hp]

theorem getElem?_prev :
    (of timeline links).prev[slot p]? = some (slotOrHead (links.prev.get p)) := by
  rw [of, getElem?_headed_map]

theorem getElem?_next : (of timeline links).next[slot p]? = some ((links.next.get p).map slot) := by
  rw [of, getElem?_headed_map]

theorem getElem?_next_zero : (of timeline links).next[0]? = some (links.first.map slot) := by
  rw [of, getElem?_headed_zero]

theorem setNext?_of (before after : Option (Place n)) :
    (of timeline links).setNext? (slotOrHead before) (after.map slot) =
      some (of timeline (links.setNext before after)) := by
  cases before with
  | none => simp [setNext?, slotOrHead, of, put?_headed_zero, Links.setNext]
  | some q => simp [setNext?, slotOrHead, of, put?_headed, Links.setNext, Vector.map_set]

theorem setPrev?_of (before after : Option (Place n)) :
    (of timeline links).setPrev? (slotOrHead before) (after.map slot) =
      some (of timeline (links.setPrev before after)) := by
  cases after with
  | none => rfl
  | some q => simp [setPrev?, of, put?_headed, Links.setPrev, Vector.map_set]

theorem unlink?_of :
    (of timeline links).unlink? (slot p) = some (of timeline (links.unlink p)) := by
  simp only [unlink?, getElem?_prev, getElem?_next, Option.bind_eq_bind, Option.bind_some,
    setNext?_of, setPrev?_of, Links.unlink]

theorem relink?_of :
    (of timeline links).relink? (slot p) = some (of timeline (links.relink p)) := by
  have hnext := setNext?_of timeline links (links.prev.get p) (some p)
  have hprev := setPrev?_of timeline (links.setNext (links.prev.get p) (some p)) (some p)
    (links.next.get p)
  simp only [slotOrHead, Option.map_some, Option.getD_some] at hnext hprev
  simp only [relink?, getElem?_prev, getElem?_next, Option.bind_eq_bind, Option.bind_some,
    slotOrHead, hnext, hprev, Links.relink]

variable {p} (hp : (timeline.events.get p).phase = .call)

include hp

theorem lift?_of : (of timeline links).lift? (slot p) = some (of timeline
    (links.lift p (timeline.returnOf.get (timeline.events.get p).op))) := by
  simp only [lift?, unlink?_of, getElem?_returnOf _ _ p hp, Option.bind_eq_bind, Option.bind_some,
    Links.lift]

theorem unlift?_of : (of timeline links).unlift? (slot p) = some (of timeline
    (links.unlift p (timeline.returnOf.get (timeline.events.get p).op))) := by
  simp only [unlift?, relink?_of, getElem?_returnOf _ _ p hp, Option.bind_eq_bind,
    Option.bind_some, Links.unlift]

end Board

def numbers (order : Array (Fin n)) : Array Nat := order.map Fin.val

def best (longest : Longest n) : Array (Option (Array Nat)) :=
  (longest.best.map (·.map numbers)).toArray

def offer? (order : Array Nat) (best : Array (Option (Array Nat))) (id : Nat) :
    Option (Array (Option (Array Nat))) := do
  match ← best[id]? with
  | some kept => if kept.size < order.size then put? best id (some order) else some best
  | none => put? best id (some order)

def record? (best : Array (Option (Array Nat))) (order : Array Nat) :
    Option (Array (Option (Array Nat))) :=
  order.foldlM (offer? order) best

theorem offer?_of (longest : Longest n) (order : Array (Fin n)) (i : Fin n) :
    offer? (numbers order) (best longest) i.val = some (best (longest.offer order i)) := by
  have hget : (best longest)[i.val]? = some ((longest.best.get i).map numbers) := by
    rw [best, getElem?_toArray]
    exact congrArg some (Vector.getElem_map _ i.isLt)
  have hput : put? (best longest) i.val (some (numbers order)) =
      some (best ⟨longest.best.set i (some order) i.isLt⟩) := by
    rw [best, put?_toArray, best, Vector.map_set, Option.map_some]
  rw [offer?, hget, Option.bind_eq_bind, Option.bind_some, hput, Longest.offer]
  cases longest.best.get i with
  | none => rfl
  | some kept =>
    simp only [Option.map_some, numbers, Array.size_map]
    split
    · rfl
    · rfl

theorem record?_of (longest : Longest n) (order : Array (Fin n)) :
    record? (best longest) (numbers order) = some (best (longest.record order)) := by
  rw [record?, Longest.record, ← Array.foldlM_toList, ← Array.foldl_toList]
  have hfold : ∀ is : List (Fin n),
      (is.map Fin.val).foldlM (offer? (numbers order)) (best longest) =
        some (best (is.foldl (fun longest i => longest.offer order i) longest)) := by
    intro is
    induction is generalizing longest with
    | nil => rfl
    | cons i is ih =>
      rw [List.map_cons, List.foldlM_cons, offer?_of, Option.bind_eq_bind, Option.bind_some, ih,
        List.foldl_cons]
  have hnumbers : (numbers order).toList = order.toList.map Fin.val := by simp [numbers]
  rw [hnumbers, hfold]

structure Configuration (n : Nat) (S : Type) where
  board : Board
  state : S
  linearized : OperationSet n
  memo : Memo n S
  choices : List (Nat × S)
  order : Array Nat
  best : Array (Option (Array Nat))
  cursor : Option Nat
  visits : Nat

inductive Progress (n : Nat) (S : Type) where
  | searching (configuration : Configuration n S)
  | finished (outcome : Outcome) (best : Array (Option (Array Nat)))

def Configuration.of (timeline : Timeline n) (c : Linearizability.Configuration n S) :
    Configuration n S where
  board := .of timeline c.links
  state := c.state
  linearized := c.linearized
  memo := c.memo
  choices := c.choices.map fun choice => (slot choice.1, choice.2)
  order := numbers c.order
  best := Plain.best c.longest
  cursor := c.cursor.map slot
  visits := c.visits

def Progress.of (timeline : Timeline n) : Linearizability.Progress n S → Progress n S
  | .searching c => .searching (.of timeline c)
  | .finished outcome longest => .finished outcome (Plain.best longest)

def pass? (c : Configuration n S) (place : Nat) : Option (Progress n S) := do
  let cursor ← c.board.next[place]?
  some (.searching { c with cursor })

def visitCall? [DecidableEq S] (problem : Problem S I O n) (c : Configuration n S)
    (place id : Nat) : Option (Progress n S) := do
  let operation ← problem.operations.toArray[id]?
  match problem.model.step c.state operation.input operation.output with
  | (false, _) => pass? c place
  | (true, state) =>
    let i ← number? n id
    let linearized := c.linearized.insert i
    match c.memo.insertNew? linearized state with
    | none => pass? c place
    | some memo =>
      let board ← c.board.lift? place
      let cursor ← board.next[0]?
      some (.searching
        { c with
          board
          state
          linearized
          memo
          choices := (place, c.state) :: c.choices
          order := c.order.push id
          cursor })

def visitReturn? (c : Configuration n S) : Option (Progress n S) := do
  let best ← record? c.best c.order
  match c.choices with
  | [] => some (.finished .notLinearizable best)
  | (place, state) :: choices =>
    let id ← c.board.op[place]?
    let i ← number? n id
    let board ← c.board.unlift? place
    let cursor ← board.next[place]?
    some (.searching
      { c with
        board
        state
        linearized := c.linearized.erase i
        choices
        order := c.order.pop
        best
        cursor })

/-- One step of the search, unless it uses a slot that an array does not have. -/
def step? [DecidableEq S] (problem : Problem S I O n) (stop : Nat → Bool)
    (c : Configuration n S) : Option (Progress n S) :=
  match c.cursor with
  | none => do
    let best ← record? c.best c.order
    some (.finished .linearizable best)
  | some place =>
    let c := { c with visits := c.visits + 1 }
    if c.visits % Problem.stopInterval = 0 ∧ stop c.visits = true then
      some (.finished .aborted c.best)
    else do
      let id ← c.board.op[place]?
      match ← c.board.phase[place]? with
      | .call => visitCall? problem c place id
      | .ret => visitReturn? c

section Step

variable {problem : Problem S I O n} {c : Linearizability.Configuration n S} {p : Place n}

theorem pass?_of (timeline : Timeline n) (c : Linearizability.Configuration n S) (p : Place n) :
    pass? (.of timeline c) (slot p) = some (.searching (.of timeline (Problem.pass c p))) := by
  rw [pass?, Configuration.of, Board.getElem?_next]
  rfl

theorem visitCall?_of [DecidableEq S] (hp : (problem.timeline.events.get p).phase = .call) :
    visitCall? problem (.of problem.timeline c) (slot p)
        (problem.timeline.events.get p).op.val =
      some (.searching (.of problem.timeline
        (problem.visitCall c p (problem.timeline.events.get p).op))) := by
  rw [visitCall?, getElem?_toArray, Option.bind_eq_bind, Option.bind_some, Problem.visitCall]
  simp only [Configuration.of]
  rcases problem.model.step c.state _ _ with ⟨_ | _, t⟩
  · exact pass?_of _ c p
  · simp only [number?_val, Option.bind_eq_bind, Option.bind_some]
    cases c.memo.insertNew? (c.linearized.insert (problem.timeline.events.get p).op) t with
    | none => exact pass?_of _ c p
    | some memo =>
      simp only [Board.lift?_of _ _ hp, Option.bind_some, Board.getElem?_next_zero]
      simp [numbers]

theorem visitReturn?_of
    (hc : ∀ choice ∈ c.choices, (problem.timeline.events.get choice.1).phase = .call) :
    visitReturn? (.of problem.timeline c) =
      some (.of problem.timeline (problem.visitReturn c)) := by
  rw [visitReturn?, Problem.visitReturn]
  simp only [Configuration.of, record?_of, Option.bind_eq_bind, Option.bind_some]
  cases hl : c.choices with
  | nil => rfl
  | cons choice choices =>
    have hp := hc choice (hl ▸ List.mem_cons_self)
    simp only [List.map_cons, Board.getElem?_op, number?_val, Option.bind_some,
      Board.unlift?_of _ _ hp, Board.getElem?_next]
    simp [Progress.of, Configuration.of, numbers]

/-- A step on plain arrays does what a step of the search does. -/
theorem step?_of [DecidableEq S] (stop : Nat → Bool)
    (hc : ∀ choice ∈ c.choices, (problem.timeline.events.get choice.1).phase = .call) :
    step? problem stop (.of problem.timeline c) =
      some (.of problem.timeline (problem.step stop c)) := by
  rw [step?, Problem.step]
  cases hcur : c.cursor with
  | none => simp [Configuration.of, hcur, record?_of, Progress.of]
  | some p =>
    let visiting : Linearizability.Configuration n S :=
      { c with cursor := some p, visits := c.visits + 1 }
    simp only [Configuration.of, hcur, Option.map_some]
    split
    · rfl
    · simp only [Board.getElem?_op, Board.getElem?_phase, Option.bind_eq_bind, Option.bind_some]
      cases hp : (problem.timeline.events.get p).phase with
      | call => exact visitCall?_of (c := visiting) hp
      | ret => exact visitReturn?_of (c := visiting) hc

end Step

end Linearizability.Plain
