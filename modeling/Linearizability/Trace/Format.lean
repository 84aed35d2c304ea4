import Linearizability.Json.Decoder
import Linearizability.Json.Printer
import Linearizability.Store.Record

/-! # The JSON form of records

A record is an object, in which the request is an object of its own, tagged with its kind, and
what was observed is another one. Decoders also take members in any order, leave out members they
do not know, and understand an object written as the list of its values.
-/

namespace Linearizability

open Json Json.Reader Json.Decoder

namespace Client

def toJson (client : Client) : Value := .number (.integer client.id.toInt)

def decoder : Decoder Client := fun depth => Client.mk <$> int64 depth

end Client

namespace Timestamp

def toJson (t : Timestamp) : Value := .number (.integer t.raw.toInt)

def decoder : Decoder Timestamp := fun depth => Timestamp.mk <$> int64 depth

end Timestamp

namespace Interval

def toJson (interval : Interval) : Value :=
  .object [("call", interval.call.toJson), ("return_time", interval.ret.toJson)]

/-- An interval as a list of its ends. -/
def ofList : Decoder Interval := fun depth => do
  let extent := .struct "Interval" 2
  let call ← elementAt 0 extent (Timestamp.decoder depth)
  let ret ← elementAt 1 extent (Timestamp.decoder depth)
  endList
  pure ⟨call, ret⟩

/-- The ends of an interval that are known. -/
structure Known where
  call : Option Timestamp := none
  ret : Option Timestamp := none

def member (depth : Nat) (key : String) (known : Known) : Reader Known := do
  match key with
  | "call" =>
    let call ← once key known.call (Timestamp.decoder depth)
    pure { known with call }
  | "return_time" =>
    let ret ← once key known.ret (Timestamp.decoder depth)
    pure { known with ret }
  | _ =>
    ignored
    pure known

def ofObject : Decoder Interval := fun depth => do
  let known ← members (member depth) {}
  let call ← required "call" known.call
  let ret ← required "return_time" known.ret
  pure ⟨call, ret⟩

/-- The decoded interval may return before it is called. -/
def decoder : Decoder Interval := container (.struct "Interval") ofList ofObject

end Interval

namespace Request

/-- The kinds of requests. -/
inductive Variant where
  | put
  | get
  | delete
  deriving DecidableEq

namespace Variant

def name : Variant → String
  | put => "Put"
  | get => "Get"
  | delete => "Delete"

def all : List Variant := [put, get, delete]

def reader : Reader Variant := do
  let name ← textAs .variant 0
  match all.find? (·.name == name) with
  | none => fail (.unknownVariant name (all.map Variant.name))
  | some variant => pure variant

/-- The number of members besides the kind. -/
def size : Variant → Nat
  | put => 2
  | get | delete => 1

def extent (variant : Variant) : Extent := .variant ("Input::" ++ variant.name) variant.size

end Variant

def toJson : Request → Value
  | put key value => .object [("type", .text "Put"), ("key", .text key), ("value", .text value)]
  | get key => .object [("type", .text "Get"), ("key", .text key)]
  | delete key => .object [("type", .text "Delete"), ("key", .text key)]

/-- A value that has to be a text. -/
def asText : Value → Except Fault String
  | .text s => .ok s
  | v => .error (.wrongKind v.found .text)

/-- The members of a request that are known, besides its kind. -/
structure Known where
  key : Option String := none
  value : Option String := none

/-- Take note of a member. The value is known only of a put; in other requests a member of that
name is left out like any other. -/
def note (variant : Variant) (known : Known) (name : String) (v : Value) :
    Except Fault Known :=
  if name = "key" then
    if known.key.isSome then .error (.duplicateMember name)
    else (asText v).map fun key => { known with key := some key }
  else if name = "value" ∧ variant = .put then
    if known.value.isSome then .error (.duplicateMember name)
    else (asText v).map fun value => { known with value := some value }
  else .ok known

/-- The request with the members known. -/
def ofKnown (variant : Variant) (known : Known) : Except Fault Request :=
  match variant, known.key, known.value with
  | _, none, _ => .error (.missingMember "key")
  | .put, some _, none => .error (.missingMember "value")
  | .put, some key, some value => .ok (.put key value)
  | .get, some key, _ => .ok (.get key)
  | .delete, some key, _ => .ok (.delete key)

/-- A request from its kind and its other members, which are looked at in their order. -/
def ofMembers (variant : Variant) (known : Known) : List (String × Value) → Except Fault Request
  | [] => ofKnown variant known
  | (name, v) :: rest =>
    match note variant known name v with
    | .error fault => .error fault
    | .ok known => ofMembers variant known rest

/-- A request from its kind and the list of its other values. -/
def ofElements (variant : Variant) (values : List Value) : Except Fault Request :=
  match variant, values with
  | _, [] => .error (.wrongLength 0 variant.extent)
  | .put, key :: rest =>
    match asText key, rest with
    | .error fault, _ => .error fault
    | .ok _, [] => .error (.wrongLength 1 variant.extent)
    | .ok key, value :: rest =>
      match asText value with
      | .error fault => .error fault
      | .ok value => full (.put key value) rest
  | .get, key :: rest =>
    match asText key with
    | .error fault => .error fault
    | .ok key => full (.get key) rest
  | .delete, key :: rest =>
    match asText key with
    | .error fault => .error fault
    | .ok key => full (.delete key) rest
where
  /-- A request to which no value is left over. -/
  full (request : Request) (rest : List Value) : Except Fault Request :=
    if rest.isEmpty then .ok request
    else .error (.wrongLength values.length (.exactly variant.size))

def member (depth : Nat) (key : String) (read : Option Variant × List (String × Value)) :
    Reader (Option Variant × List (String × Value)) := do
  if key = "type" then
    let variant ← once key read.1 Variant.reader
    pure (variant, read.2)
  else
    colon
    let v ← value depth
    pure (read.1, (key, v) :: read.2)

def ofObject : Decoder Request := fun depth => do
  let (variant, read) ← members (member depth) (none, [])
  let variant ← required "type" variant
  lift (ofMembers variant {} read.reverse)

def ofList : Decoder Request := fun depth => do
  let variant ← required "type" (← element? true Variant.reader)
  let values ← moreElements (value depth)
  lift (ofElements variant values)

def decoder : Decoder Request := container (.tagged "Input") ofList ofObject

end Request

namespace Response

/-- A member that is left out if it is absent. -/
def memberOf (name : String) (part : Option String) : List (String × Value) :=
  part.toList.map fun s => (name, .text s)

def toJson (response : Response) : Value :=
  .object (memberOf "status" response.status ++ memberOf "value" response.value)

def ofList : Decoder Response := fun depth => do
  let status ← elementOr true none (nullable text depth)
  let value ← elementOr false none (nullable text depth)
  endList
  pure ⟨status, value⟩

/-- The members that are known; null is known too. -/
structure Known where
  status : Option (Option String) := none
  value : Option (Option String) := none

def member (depth : Nat) (key : String) (known : Known) : Reader Known := do
  match key with
  | "status" =>
    let status ← once key known.status (nullable text depth)
    pure { known with status }
  | "value" =>
    let value ← once key known.value (nullable text depth)
    pure { known with value }
  | _ =>
    ignored
    pure known

def ofObject : Decoder Response := fun depth => do
  let known ← members (member depth) {}
  pure ⟨known.status.join, known.value.join⟩

def decoder : Decoder Response := container (.struct "Output") ofList ofObject

/-- The answer of which nothing was observed. -/
def none : Response := {}

/-- Null stands for an answer of which nothing was observed. -/
def orNull : Decoder Response := fun depth => (·.getD none) <$> nullable decoder depth

end Response

namespace Record

def toJson (record : Record) : Value :=
  .object [("client_id", record.client.toJson), ("input", record.input.toJson),
    ("call", record.call.toJson), ("output", record.output.toJson),
    ("return_time", record.ret.toJson)]

def ofList : Decoder Record := fun depth => do
  let extent := .struct "TraceRecord" 5
  let client ← elementAt 0 extent (Client.decoder depth)
  let input ← elementAt 1 extent (Request.decoder depth)
  let call ← elementAt 2 extent (Timestamp.decoder depth)
  let output ← elementOr false Response.none (Response.orNull depth)
  let ret ← elementAt 4 extent (Timestamp.decoder depth)
  endList
  pure { client, input, call, output, ret }

/-- The members of a record that are known. -/
structure Known where
  client : Option Client := none
  input : Option Request := none
  call : Option Timestamp := none
  output : Option Response := none
  ret : Option Timestamp := none

def member (depth : Nat) (key : String) (known : Known) : Reader Known := do
  match key with
  | "client_id" =>
    let client ← once key known.client (Client.decoder depth)
    pure { known with client }
  | "input" =>
    let input ← once key known.input (Request.decoder depth)
    pure { known with input }
  | "call" =>
    let call ← once key known.call (Timestamp.decoder depth)
    pure { known with call }
  | "output" =>
    let output ← once key known.output (Response.orNull depth)
    pure { known with output }
  | "return_time" =>
    let ret ← once key known.ret (Timestamp.decoder depth)
    pure { known with ret }
  | _ =>
    ignored
    pure known

def ofObject : Decoder Record := fun depth => do
  let known ← members (member depth) {}
  let client ← required "client_id" known.client
  let input ← required "input" known.input
  let call ← required "call" known.call
  let ret ← required "return_time" known.ret
  pure { client, input, call, output := known.output.getD Response.none, ret }

/-- The decoded record may return before it is called. -/
def decoder : Decoder Record := container (.struct "TraceRecord") ofList ofObject

end Record

end Linearizability
