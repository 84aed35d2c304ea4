import Linearizability.Trace.File

/-! # Recorders

A client of the store records its requests as it makes them, and their answers as they come. The
clock it reads counts nanoseconds and never goes back; a time is an anchor plus what has passed
since the anchor was set, so clients that set their anchors together share their times.
-/

namespace Linearizability

/-- A request that was made, and its answer with the time it came, if it came. -/
structure Recorder.Slot where
  request : Request
  call : Timestamp
  completion : Option (Response × Timestamp)
  deriving DecidableEq

structure Recorder where
  client : Client
  slots : Array Recorder.Slot
  anchor : Timestamp
  /-- The reading of the clock when the anchor was set. -/
  started : Nat
  deriving DecidableEq

namespace Recorder

/-- A recorder without requests, at a reading of the clock. -/
def new (client : Client) (anchor : Timestamp) (clock : Nat) : Recorder :=
  { client, slots := #[], anchor, started := clock }

/-- Set the anchor to a number of milliseconds. -/
def sync (recorder : Recorder) (millis : Int64) (clock : Nat) : Recorder :=
  { recorder with anchor := .ofMillis millis, started := clock }

/-- The time at a reading of the clock. -/
def time (recorder : Recorder) (clock : Nat) : Timestamp :=
  let passed : Int := (clock - recorder.started : Nat)
  recorder.anchor.shift (if passed ≤ Int64.maxValue.toInt then passed else Int64.maxValue.toInt)

/-- Record a request: its handle counts the requests before it. -/
def call (recorder : Recorder) (request : Request) (clock : Nat) : Nat × Recorder :=
  (recorder.slots.size,
    { recorder with slots := recorder.slots.push ⟨request, recorder.time clock, none⟩ })

/-- Record the answer to a request, unless there is no such request or it has been answered. -/
def complete (recorder : Recorder) (handle : Nat) (response : Response) (clock : Nat) :
    Bool × Recorder :=
  match recorder.slots[handle]? with
  | none => (false, recorder)
  | some slot =>
    if slot.completion.isSome then (false, recorder)
    else
      let slot := { slot with completion := some (response, recorder.time clock) }
      (true, { recorder with slots := recorder.slots.setIfInBounds handle slot })

def operationCount (recorder : Recorder) : Nat := recorder.slots.size

def completedCount (recorder : Recorder) : Nat :=
  recorder.slots.toList.countP (·.completion.isSome)

/-- The requests that have been answered, in the order in which they were made. -/
def history (recorder : Recorder) : History :=
  recorder.slots.toList.filterMap fun slot =>
    slot.completion.map fun (response, ret) =>
      { client := recorder.client, input := slot.request, call := slot.call, output := response, ret }

/-- Write the history to a trace file. -/
def exportTo (recorder : Recorder) (tree : FileTree) (path : Path) :
    Except Trace.WriteFault Unit × FileTree :=
  Trace.write tree path recorder.history

end Recorder

end Linearizability
