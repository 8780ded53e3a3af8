import Ned.Editor.Lsp.Broker
import Ned.Library.Rows
import Mathlib.Data.List.Perm.Subperm

/-!
# What the broker puts on the wire

What each server has been sent since it was spawned, and what each client has asked and been told. A
frame of a server is taken for one of the server that was last spawned for its root and language.
-/

namespace Ned.Editor.Lsp

open Library (run)
open Protocol (Json)

/-- A client's request on its way to a server. -/
structure Relay where
  brokerId : Int
  connection : ConnectionId
  originalId : Json

/-- What a server has been sent, and which of its answers went on to a client. -/
structure ServerWire where
  initializes : List Int := []
  initializeds : Nat := 0
  relays : List Relay := []
  shutdowns : List Int := []
  routed : List Int := []

def methodOf (frame : Json) : Option String := (frame.find "method").bind Json.asString

def idOf (frame : Json) : Option Int := (frame.find "id").bind Json.asInteger

namespace ServerWire

variable (server : ServerWire)

/-- The ids that the broker has made. -/
def ids : List Int := server.initializes ++ server.relays.map (·.brokerId) ++ server.shutdowns

/-- The requests of a connection that wait for this server. -/
def unrouted (conn : ConnectionId) : List Json :=
  (server.relays.filter fun relay =>
    relay.connection = conn && relay.brokerId ∉ server.routed).map (·.originalId)

/-- A frame that a server is sent in the course of an event. -/
def receive (event : BrokerEvent) (frame : Json) : ServerWire :=
  match initializeId frame with
  | some brokerId => { server with initializes := brokerId :: server.initializes }
  | none =>
      if methodOf frame = some "initialized" then
        { server with initializeds := server.initializeds + 1 }
      else
        match event, idOf frame with
        | .clientFrame conn asked _, some brokerId =>
            match asked.find "id" with
            | some originalId =>
                { server with relays := ⟨brokerId, conn, originalId⟩ :: server.relays }
            | none => server
        | .serverFrame .., _ => server
        | _, some brokerId => { server with shutdowns := brokerId :: server.shutdowns }
        | _, none => server

end ServerWire

def BrokerAction.toClient : BrokerAction → Option (ConnectionId × Json)
  | .sendToClient conn frame => some (conn, frame)
  | _ => none

/-- The clients that actions send frames to, and the frames. -/
def toClients (actions : List BrokerAction) : List (ConnectionId × Json) :=
  actions.filterMap BrokerAction.toClient

/-- The requests that actions answer to a connection. -/
def answersTo (conn : ConnectionId) (actions : List BrokerAction) : List Json :=
  (toClients actions).filterMap fun sent => if sent.1 = conn then sent.2.find "id" else none

/-- The request that an event is for a connection. -/
def BrokerEvent.askedBy (conn : ConnectionId) : BrokerEvent → List Json
  | .clientFrame conn' frame _ => if conn' = conn then (frame.find "id").toList else []
  | _ => []

structure BrokerWire where
  router : BrokerRouter
  servers : String → ServerWire := fun _ => {}
  /-- The connections that have attached or disconnected. -/
  seen : List ConnectionId := []
  gone : List ConnectionId := []
  asked : ConnectionId → List Json := fun _ => []
  told : ConnectionId → List Json := fun _ => []

/-- What an action puts on the wire of a server. -/
def serve (event : BrokerEvent) (servers : String → ServerWire) :
    BrokerAction → String → ServerWire
  | .spawnServer root language _ => Function.update servers (makeKey root language) {}
  | .sendToServer root language frame =>
      let key := makeKey root language
      Function.update servers key ((servers key).receive event frame)
  | _ => servers

/-- The response of a server, with the id that it answers. -/
def responseId (frame : Json) : Option Int :=
  if frame.contains "method" then none else (frame.find "id").bind asInt

/-- The answer of a server that goes on to a client. -/
def BrokerEvent.routedBy (actions : List BrokerAction) (key : String) : BrokerEvent → List Int
  | .serverFrame root language frame _ =>
      if makeKey root language = key ∧ (toClients actions).isEmpty = false then
        (responseId frame).toList
      else []
  | _ => []

namespace BrokerWire

def create (maxConcurrentServers : Int) : BrokerWire :=
  { router := .create maxConcurrentServers }

variable (wire : BrokerWire)

def record (router : BrokerRouter) (event : BrokerEvent) (actions : List BrokerAction) :
    BrokerWire where
  router := router
  servers := actions.foldl (serve event) fun key =>
    { wire.servers key with
      routed := event.routedBy actions key ++ (wire.servers key).routed }
  seen :=
    match event with
    | .clientAttached conn .. => conn :: wire.seen
    | .clientDisconnected conn => conn :: wire.seen
    | _ => wire.seen
  gone :=
    match event with
    | .clientDisconnected conn => conn :: wire.gone
    | _ => wire.gone
  asked conn := event.askedBy conn ++ wire.asked conn
  told conn := answersTo conn actions ++ wire.told conn

/-- Connection ids are not used again. -/
def allows : BrokerEvent → Bool
  | .clientAttached conn .. => conn ∉ wire.seen
  | _ => true

def step (event : BrokerEvent) : Option BrokerWire :=
  if wire.allows event then do
    let (router, actions) ← wire.router.handle event
    some (wire.record router event actions)
  else none

end BrokerWire

/-! ## No crosstalk -/

/-- What the wires show after any run. -/
structure Untangled (wire : BrokerWire) : Prop where
  ids : ∀ key, (wire.servers key).ids.Nodup
  initializeOnce : ∀ key, (wire.servers key).initializes.length ≤ 1
  initializedOnce : ∀ key, (wire.servers key).initializeds ≤ 1
  routed : ∀ key, (wire.servers key).routed.Nodup
  told : ∀ conn, (wire.told conn).Subperm (wire.asked conn)

/-- What a call puts on the wires. -/
structure NoCrosstalk (wire : BrokerWire) (event : BrokerEvent) (actions : List BrokerAction) :
    Prop where
  response : ∀ root language frame now relay, event = .serverFrame root language frame now →
    relay ∈ (wire.servers (makeKey root language)).relays →
    responseId frame = some relay.brokerId →
    toClients actions = [] ∨
      relay.brokerId ∉ (wire.servers (makeKey root language)).routed ∧
        toClients actions = [(relay.connection, withId frame relay.originalId)]
  unrelated : ∀ root language frame now, event = .serverFrame root language frame now →
    frame.contains "id" = true → frame.contains "method" = false →
    (∀ relay ∈ (wire.servers (makeKey root language)).relays,
      responseId frame ≠ some relay.brokerId) →
    toClients actions = [] ∨ ∃ brokerId ∈ (wire.servers (makeKey root language)).initializes,
      responseId frame = some brokerId ∧
        brokerId ∉ (wire.servers (makeKey root language)).routed
  present : ∀ sent ∈ toClients actions, sent.1 ∉ wire.gone
  handshake : ∀ conn frame now root language sent, event = .clientFrame conn frame now →
    .sendToServer root language sent ∈ actions → initializeId sent = none →
    (wire.servers (makeKey root language)).initializes.length = 1 ∧
      (wire.servers (makeKey root language)).initializeds = 1

end Ned.Editor.Lsp
