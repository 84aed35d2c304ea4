import Linearizability.Decimal.Digits

/-! # Clients

A client of the observed object is known by a number, which has no meaning beyond telling clients
apart.
-/

namespace Linearizability

structure Client where
  id : Int64
  deriving DecidableEq, Inhabited

/-- The name of a client in reports. -/
def Client.name (client : Client) : String := "client_" ++ Decimal.ofInt client.id.toInt

end Linearizability
