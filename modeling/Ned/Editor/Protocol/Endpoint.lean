import Mathlib.Algebra.Group.Nat.Defs
import Mathlib.Logic.Function.Basic

/-!
# JSON values

The values that protocol messages are made of. An object is a list of entries with distinct keys.
-/

namespace Ned.Editor.Protocol

inductive Json where
  | null
  | boolean (value : Bool)
  | unsigned (value : Nat)
  | integer (value : Int)
  | float (bits : UInt64)
  | string (value : String)
  | binary (bytes : List UInt8)
  | array (items : List Json)
  | object (entries : List (String × Json))
  deriving BEq, Inhabited

namespace Json

def isObject : Json → Bool
  | .object _ => true
  | _ => false

def isNull : Json → Bool
  | .null => true
  | _ => false

/-- `find`, which finds nothing in a value that is not an object. -/
def find (value : Json) (key : String) : Option Json :=
  match value with
  | .object entries => entries.lookup key
  | _ => none

def contains (value : Json) (key : String) : Bool := (value.find key).isSome

/-- The value of `is_number_integer`, which holds of the unsigned numbers as well. -/
def asInteger : Json → Option Int
  | .unsigned value => some value
  | .integer value => some value
  | _ => none

def asString : Json → Option String
  | .string value => some value
  | _ => none

end Json

/-!
## One end of the host protocol

Requests and their answers, streamed chunks under credit, and cancellation, as in
`Editor/Protocol/Endpoint.cpp`. The `sink` of an endpoint holds the messages it has sent, oldest
first. A callback is a call handed back to the owner, together with what is left to do after it.
-/

/-! ## Constants -/

namespace error_code

def kMethodNotFound : Int := -32601
def kInternalError : Int := -32603
def kCancelled : Int := -32800
def kTimedOut : Int := -32098

end error_code

/-- Chunks a receiver lets a stream send ahead before granting more. -/
def kDefaultWindow : Nat := 16

/-- The greatest value of a `std::size_t`. -/
def sizeMax : Nat := 2 ^ 64 - 1

def kChunk : String := "$/chunk"
def kCredit : String := "$/credit"
def kCancel : String := "$/cancel"

/-! ## Messages -/

/-- A message that breaks the protocol. -/
structure ProtocolError where
  what : String
  deriving DecidableEq

structure RemoteError where
  code : Int
  message : String
  data : Json

def asUnsigned : Json → Option Nat
  | .unsigned value => some value
  | .integer value => if 0 ≤ value then some value.toNat else none
  | _ => none

def requiredUnsigned (object : Json) (field : String) : Except ProtocolError Nat :=
  match object.find field with
  | none => .error ⟨"ned: protocol message lacks '" ++ field ++ "'"⟩
  | some value =>
      match asUnsigned value with
      | none => .error ⟨"ned: protocol field '" ++ field ++ "' is not an unsigned integer"⟩
      | some n => .ok n

def errorResponse (id : Nat) (code : Int) (message : String) (data : Json) : Json :=
  let error := [("code", .integer code), ("message", .string message)] ++
    if data.isNull then [] else [("data", data)]
  .object [("id", .unsigned id), ("error", .object error)]

def resultResponse (id : Nat) (result : Json) : Json :=
  .object [("id", .unsigned id), ("result", result)]

def requestMessage (id : Nat) (method : String) (params : Json) : Json :=
  .object [("id", .unsigned id), ("method", .string method), ("params", params)]

def chunkMessage (id seq : Nat) (data : Json) : Json :=
  .object [("method", .string kChunk),
    ("params", .object [("id", .unsigned id), ("seq", .unsigned seq), ("data", data)])]

def creditMessage (id n : Nat) : Json :=
  .object [("method", .string kCredit),
    ("params", .object [("id", .unsigned id), ("n", .unsigned n)])]

def cancelMessage (id : Nat) : Json :=
  .object [("method", .string kCancel), ("params", .object [("id", .unsigned id)])]

/-! ## State -/

/-- Which handlers a request was made with. -/
structure ResponseHandlers where
  onResult : Bool := false
  onError : Bool := false
  onChunk : Bool := false
  grantsByHand : Bool := false
  deriving DecidableEq

structure Outgoing where
  handlers : ResponseHandlers
  cancelled : Bool := false
  nextSeq : Nat := 0
  /-- Chunks received since the last grant. -/
  consumed : Nat := 0
  /-- Of those, the ones `Grant` has released. -/
  granted : Nat := 0
  idleLimit : Option Int
  lastHeard : Int
  deriving DecidableEq

structure Incoming where
  credit : Nat
  nextSeq : Nat := 0
  queued : List Json := []
  /-- Held until `queued` finishes draining. -/
  response : Option Json := none
  onDrained : Bool := false

structure EndpointCore where
  sink : List Json := []
  window : Nat
  peerWindow : Nat := kDefaultWindow
  nextId : Nat := 1
  lastPeerId : Nat := 0
  outgoing : Nat → Option Outgoing := fun _ => none
  incoming : Nat → Option Incoming := fun _ => none
  requestHandlers : List String := []
  notificationHandlers : List String := []

/-- A callback of the owner, with what it is called with. -/
inductive Call where
  | requestHandler (id : Nat) (method : String) (params : Json)
  | notificationHandler (method : String) (params : Json)
  | onChunk (id : Nat) (data : Json)
  | onResult (id : Nat) (result : Json)
  | onError (id : Nat) (error : RemoteError)
  | onDrained (id : Nat)

namespace EndpointCore

/-- `Endpoint`'s constructor. -/
def create (window : Nat) : EndpointCore := { window := max window 1 }

def send (core : EndpointCore) (message : Json) : EndpointCore :=
  { core with sink := core.sink ++ [message] }

def setOutgoing (core : EndpointCore) (id : Nat) (entry : Option Outgoing) : EndpointCore :=
  { core with outgoing := Function.update core.outgoing id entry }

def setIncoming (core : EndpointCore) (id : Nat) (entry : Option Incoming) : EndpointCore :=
  { core with incoming := Function.update core.incoming id entry }

/-! ## Answering -/

def sendChunk (core : EndpointCore) (id : Nat) (entry : Incoming) (data : Json) :
    EndpointCore × Incoming :=
  (core.send (chunkMessage id entry.nextSeq data),
    { entry with nextSeq := entry.nextSeq + 1, credit := entry.credit - 1 })

def chunk (core : EndpointCore) (id : Nat) (data : Json) : EndpointCore :=
  match core.incoming id with
  | none => core
  | some entry =>
      if entry.credit > 0 ∧ entry.queued = [] then
        let (core, entry) := core.sendChunk id entry data
        core.setIncoming id (some entry)
      else
        core.setIncoming id (some { entry with queued := entry.queued ++ [data] })

def answer (core : EndpointCore) (id : Nat) (response : Json) : EndpointCore :=
  match core.incoming id with
  | none => core
  | some entry =>
      if entry.queued = [] then
        (core.setIncoming id none).send response
      else
        core.setIncoming id (some { entry with response := some response })

/-- The loop of `Flush`: sends what credit allows. -/
def drain (core : EndpointCore) (id : Nat) (entry : Incoming) : List Json → EndpointCore × Incoming
  | [] => (core, { entry with queued := [] })
  | data :: queued =>
      if entry.credit > 0 then
        let (core, entry) := core.sendChunk id entry data
        core.drain id entry queued
      else
        (core, { entry with queued := data :: queued })

def flush (core : EndpointCore) (id : Nat) : EndpointCore × Option Call :=
  match core.incoming id with
  | none => (core, none)
  | some entry =>
      let hadBacklog := entry.queued ≠ []
      let (core, entry) := core.drain id entry entry.queued
      if entry.queued ≠ [] then
        (core.setIncoming id (some entry), none)
      else
        match entry.response with
        | some response => ((core.setIncoming id none).send response, none)
        | none =>
            (core.setIncoming id (some entry),
              if hadBacklog ∧ entry.onDrained then some (.onDrained id) else none)

/-! ## Receiving -/

/-- `ReceiveRequest`, up to the call of the handler. -/
def receiveRequest (core : EndpointCore) (id : Nat) (method : String) (params : Json) :
    Except ProtocolError (EndpointCore × Option Call) :=
  if id ≤ core.lastPeerId then
    .error ⟨"ned: protocol request id did not increase"⟩
  else
    let core := { core with lastPeerId := id }
    if method ∈ core.requestHandlers then
      .ok (core.setIncoming id (some { credit := core.peerWindow }),
        some (.requestHandler id method params))
    else
      .ok (core.send (errorResponse id error_code.kMethodNotFound ("unknown method: " ++ method)
        .null), none)

/-- Returns credit for consumed chunks in batches of half the window. -/
def grantConsumed (core : EndpointCore) (id : Nat) (entry : Outgoing) (more : Nat) : EndpointCore :=
  let entry := { entry with granted := (entry.granted + more) % (sizeMax + 1) }
  let ready := if entry.handlers.grantsByHand then min entry.granted entry.consumed
    else entry.consumed
  if ready ≥ max (core.window / 2) 1 then
    let entry := { entry with
      consumed := entry.consumed - ready
      granted := entry.granted - if entry.handlers.grantsByHand then ready else 0 }
    (core.setOutgoing id (some entry)).send (creditMessage id ready)
  else
    core.setOutgoing id (some entry)

/-- The rest of `ReceiveChunk`, once `onChunk` has returned. -/
def chunkHandled (core : EndpointCore) (id : Nat) : EndpointCore :=
  match core.outgoing id with
  | none => core
  | some entry =>
      if entry.cancelled ∨ entry.handlers.grantsByHand then core
      else core.grantConsumed id entry 0

/-- `ReceiveChunk`, up to the call of `onChunk` when there is one. -/
def receiveChunk (core : EndpointCore) (now : Int) (params : Json) :
    Except ProtocolError (EndpointCore × Option Call) := do
  if params.isObject = false then
    throw ⟨"ned: protocol chunk params are not a map"⟩
  let id ← requiredUnsigned params "id"
  let seq ← requiredUnsigned params "seq"
  match core.outgoing id with
  | none => throw ⟨"ned: protocol chunk for an unknown request"⟩
  | some entry =>
      if seq ≠ entry.nextSeq then
        throw ⟨"ned: protocol chunk out of sequence"⟩
      let core := core.setOutgoing id (some { entry with
        nextSeq := entry.nextSeq + 1, consumed := entry.consumed + 1, lastHeard := now })
      if entry.cancelled = false ∧ entry.handlers.onChunk = true then
        return (core, some (.onChunk id ((params.find "data").getD .null)))
      else
        return (core.chunkHandled id, none)

def receiveNotification (core : EndpointCore) (now : Int) (method : String) (params : Json) :
    Except ProtocolError (EndpointCore × Option Call) := do
  if method = kChunk then
    core.receiveChunk now params
  else if method = kCredit then
    let id ← requiredUnsigned params "id"
    let n ← requiredUnsigned params "n"
    match core.incoming id with
    | none => return (core, none) -- a grant can cross the final response in flight
    | some entry =>
        let credit := if n > sizeMax - entry.credit then sizeMax else entry.credit + n
        return (core.setIncoming id (some { entry with credit := credit })).flush id
  else if method = kCancel then
    let id ← requiredUnsigned params "id"
    match core.incoming id with
    | none => return (core, none) -- as can a cancel
    | some _ =>
        return ((core.setIncoming id none).send
          (errorResponse id error_code.kCancelled "cancelled" .null), none)
  else
    return (core, if method ∈ core.notificationHandlers then
      some (.notificationHandler method params) else none)

def receiveResponse (core : EndpointCore) (id : Nat) (message : Json) :
    Except ProtocolError (EndpointCore × Option Call) :=
  match core.outgoing id with
  | none => .error ⟨"ned: protocol response for an unknown request"⟩
  | some entry =>
      let core := core.setOutgoing id none
      match message.find "result" with
      | some result =>
          .ok (core, if entry.handlers.onResult then some (.onResult id result) else none)
      | none =>
          let malformed : ProtocolError :=
            ⟨"ned: protocol response has neither a result nor a well-formed error"⟩
          match message.find "error" with
          | none => .error malformed
          | some error =>
              match (error.find "code").bind Json.asInteger,
                  (error.find "message").bind Json.asString with
              | some code, some text =>
                  .ok (core, if entry.handlers.onError then
                    some (.onError id ⟨code, text, (error.find "data").getD .null⟩) else none)
              | _, _ => .error malformed

def receive (core : EndpointCore) (now : Int) (message : Json) :
    Except ProtocolError (EndpointCore × Option Call) := do
  if message.isObject = false then
    throw ⟨"ned: protocol message is not a map"⟩
  match message.find "method" with
  | some method =>
      match method.asString with
      | none => throw ⟨"ned: protocol method is not a string"⟩
      | some name =>
          let params := (message.find "params").getD .null
          if message.contains "id" then
            core.receiveRequest (← requiredUnsigned message "id") name params
          else
            core.receiveNotification now name params
  | none =>
      if message.contains "id" then
        core.receiveResponse (← requiredUnsigned message "id") message
      else
        throw ⟨"ned: protocol message is neither a request, a response nor a notification"⟩

/-! ## The owner's calls -/

def setPeerWindow (core : EndpointCore) (window : Nat) : EndpointCore :=
  { core with peerWindow := max window 1 }

def handle (core : EndpointCore) (method : String) : EndpointCore :=
  { core with requestHandlers := method :: core.requestHandlers }

/-- The request's id is the `nextId` before. -/
def request (core : EndpointCore) (method : String) (params : Json) (handlers : ResponseHandlers)
    (idleLimit : Option Int) (now : Int) : EndpointCore :=
  let id := core.nextId
  let core := { core with nextId := id + 1 }
  let entry : Outgoing := { handlers := handlers, idleLimit := idleLimit, lastHeard := now }
  (core.setOutgoing id (some entry)).send (requestMessage id method params)

def grant (core : EndpointCore) (id n : Nat) : EndpointCore :=
  match core.outgoing id with
  | none => core
  | some entry =>
      if entry.cancelled = true ∨ entry.handlers.grantsByHand = false then core
      else core.grantConsumed id entry n

def cancel (core : EndpointCore) (id : Nat) : EndpointCore :=
  match core.outgoing id with
  | none => core
  | some entry =>
      if entry.cancelled then core
      else (core.setOutgoing id (some { entry with cancelled := true })).send (cancelMessage id)

structure Expired where
  id : Nat
  limit : Int
  handlers : ResponseHandlers
  deriving DecidableEq

/-- The first loop of `ExpireIdle`, over the requests in the order the table lists them. -/
def collectExpired (core : EndpointCore) (now : Int) : List Nat → EndpointCore × List Expired
  | [] => (core, [])
  | id :: ids =>
      match core.outgoing id with
      | none => core.collectExpired now ids
      | some entry =>
          match entry.idleLimit with
          | none => core.collectExpired now ids
          | some limit =>
              if entry.cancelled = false ∧ now - entry.lastHeard ≥ limit then
                let core := core.setOutgoing id
                  (some { entry with cancelled := true, handlers := {} })
                let (core, expired) := core.collectExpired now ids
                (core, ⟨id, limit, entry.handlers⟩ :: expired)
              else
                core.collectExpired now ids

/-- `ExpireIdle`, up to its calls of `onError`. -/
def expireIdle (core : EndpointCore) (now : Int) (ids : List Nat) :
    EndpointCore × List Expired :=
  let (core, expired) := core.collectExpired now ids
  (expired.foldl (fun core request => core.send (cancelMessage request.id)) core, expired)

/-- The error an expired request is failed with. -/
def Expired.error (request : Expired) : RemoteError :=
  ⟨error_code.kTimedOut, "no answer within " ++ toString request.limit ++ " ms", .null⟩

end EndpointCore

end Ned.Editor.Protocol
