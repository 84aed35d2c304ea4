import Linearizability.Store.Basic
import Linearizability.Store.Record

/-! # The sequential model of a key-value store

Writes always succeed, whatever was observed of them. A read is legal if it was answered with
success and with exactly the value of its key. Requests on different keys do not affect each
other, so a history is checked key by key.
-/

namespace Linearizability.Store

def step (store : Store) : Request → Response → Bool × Store
  | .put key value, _ => (true, store.insert key value)
  | .get key, response => (response.isOk && response.value == store.get? key, store)
  | .delete key, _ => (true, store.erase key)

/-- The positions of the operations on one key. -/
def positionsOf (key : String) (history : List Record) : List Nat :=
  history.zipIdx.filterMap fun (record, i) => if record.input.key = key then some i else none

/-- The keys of a history in the order of their first appearance. -/
def keys (history : List Record) : List String :=
  (history.map (·.input.key)).eraseDups

/-- One group for each key, in the order of the keys' first appearance. -/
def partition (history : List Record) : List (List Nat) :=
  (keys history).map (positionsOf · history)

def describeOperation : Request → Response → String
  | .put key value, _ => s!"Put('{key}', '{value}')"
  | .delete key, _ => s!"Delete('{key}')"
  | .get key, response =>
    match response.status.filter (· != Response.okStatus), response.value with
    | some status, _ => s!"Get('{key}') failed: '{status}'"
    | none, some value => s!"Get('{key}') -> '{value}'"
    | none, none => s!"Get('{key}') -> nil"

def describeState (store : Store) : String :=
  let entries := store.entries.map fun (key, value) => s!"'{key}': '{value}'"
  "\x7b" ++ ", ".intercalate entries ++ "\x7d"

def model : Model Store Request Response where
  init := empty
  step := step
  partition := partition
  describeOperation := describeOperation
  describeState := describeState

end Linearizability.Store
