import Linearizability.Model

/-! # Records of a key-value store

What a client asks of the store, what it observed as the answer, and the record of both with the
times of the call and of the return.
-/

namespace Linearizability

inductive Request where
  | put (key value : String)
  | get (key : String)
  | delete (key : String)
  deriving DecidableEq

/-- The key a request is about. -/
def Request.key : Request → String
  | put key _ | get key | delete key => key

/-- An answer of the store. Either part may be absent; the value is absent if the key has none. -/
structure Response where
  status : Option String := none
  value : Option String := none
  deriving DecidableEq

namespace Response

/-- The status of a request that succeeded. -/
def okStatus : String := "ok"

def ok : Response := ⟨some okStatus, none⟩

def found (value : String) : Response := ⟨some okStatus, some value⟩

def notFound : Response := ok

def withStatus (status : String) : Response := ⟨some status, none⟩

def isOk (response : Response) : Bool := response.status == some okStatus

end Response

/-- One operation on a key-value store, as a client observed it. -/
abbrev Record := Operation Request Response

/-- The interval of an operation, unless it returns before it is called. -/
def Operation.interval {I O : Type} (operation : Operation I O) :
    Except Interval.Inverted Interval :=
  Interval.make operation.call operation.ret

end Linearizability
