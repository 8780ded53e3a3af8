import Ned.Editor.Protocol.Endpoint
import Ned.Library.Runs

/-!
# Two endpoints and the channels between them

Each side has an endpoint, the responders of the requests it was asked, and the callbacks that are
running. An owner may make any call at any time, also from within a callback, so a callback is a
frame that later returns or throws.
-/

namespace Ned.Editor.Protocol

inductive Side where
  | editor
  | host
  deriving DecidableEq

def Side.peer : Side → Side
  | .editor => .host
  | .host => .editor

/-- What is left to do after a callback. -/
inductive Frame where
  | requestHandler (id : Nat)
  | onChunk (id : Nat)
  /-- `ExpireIdle` has these requests left to fail. -/
  | expired (rest : List EndpointCore.Expired)

structure Party where
  core : EndpointCore
  /-- `answered_` of the responder of each incoming request. -/
  responders : Nat → Option Bool := fun _ => none
  frames : List Frame := []

/-- What the owners see and do, as far as streams are concerned. -/
inductive Event where
  /-- `Request` was called, and chose this id. -/
  | request (id : Nat) (handlers : ResponseHandlers)
  /-- `Cancel` was called for a request that had not finished. -/
  | cancel (id : Nat)
  /-- `ExpireIdle` gave a request up. -/
  | expired (id : Nat)
  /-- `Responder::Chunk` was called before the responder had answered. -/
  | chunk (id : Nat) (data : Json)
  | called (call : Call)

/-- What an owner does. -/
inductive Act where
  /-- Hands the oldest message of the peer to `Receive`. -/
  | receive (now : Int)
  | request (method : String) (params : Json) (handlers : ResponseHandlers)
      (idleLimit : Option Int) (now : Int)
  | cancel (id : Nat)
  | grant (id n : Nat)
  /-- The requests are looked at in the order in which the table happens to list them. -/
  | expireIdle (now : Int) (order : List Nat)
  | chunk (id : Nat) (data : Json)
  | result (id : Nat) (result : Json)
  | error (id : Nat) (code : Int) (message : String) (data : Json)
  | drop (id : Nat)
  | onDrained (id : Nat)
  | handle (method : String)
  | setPeerWindow (window : Nat)
  /-- The innermost callback returns. -/
  | returned
  /-- The innermost callback throws, a `std::exception` with this text or something else. -/
  | thrown (what : Option String)

namespace Party

def setResponder (party : Party) (id : Nat) (answered : Bool) : Party :=
  { party with responders := Function.update party.responders id (some answered) }

/-! ## Responders -/

/-- `Responder::Chunk`. -/
def chunk (party : Party) (id : Nat) (data : Json) : Party × List Event :=
  match party.responders id with
  | some false => ({ party with core := party.core.chunk id data }, [.chunk id data])
  | _ => (party, [])

/-- `Responder::Answer`. -/
def answer (party : Party) (id : Nat) (response : Json) : Party :=
  match party.responders id with
  | some false => { party.setResponder id true with core := party.core.answer id response }
  | _ => party

def result (party : Party) (id : Nat) (result : Json) : Party :=
  party.answer id (resultResponse id result)

def error (party : Party) (id : Nat) (code : Int) (message : String) (data : Json) : Party :=
  party.answer id (errorResponse id code message data)

/-- `~Responder`. -/
def drop (party : Party) (id : Nat) : Party :=
  party.error id error_code.kInternalError "request dropped without a response" .null

/-- `Responder::OnDrained`. -/
def onDrained (party : Party) (id : Nat) : Party :=
  match party.responders id, party.core.incoming id with
  | some false, some entry =>
      { party with core := party.core.setIncoming id (some { entry with onDrained := true }) }
  | _, _ => party

/-! ## Callbacks -/

/-- Starts a callback: a handler gets a responder of its own. -/
def call (party : Party) : Call → Party
  | .requestHandler id _ _ =>
      { party.setResponder id false with frames := .requestHandler id :: party.frames }
  | .onChunk id _ => { party with frames := .onChunk id :: party.frames }
  | _ => party

/-- The loop over the expired requests, up to the next call of `onError`. -/
def failExpired (party : Party) : List EndpointCore.Expired → Party × List Event
  | [] => (party, [])
  | request :: rest =>
      if request.handlers.onError then
        ({ party with frames := .expired rest :: party.frames },
          [.called (.onError request.id request.error)])
      else
        party.failExpired rest

def returned (party : Party) : Party × List Event :=
  match party.frames with
  | [] => (party, [])
  | .requestHandler _ :: frames => ({ party with frames := frames }, [])
  | .onChunk id :: frames =>
      ({ party with frames := frames, core := party.core.chunkHandled id }, [])
  | .expired rest :: frames => { party with frames := frames }.failExpired rest

def thrown (party : Party) (what : Option String) : Party :=
  match party.frames, what with
  | .requestHandler id :: frames, some what =>
      { party with
        frames := frames
        core := party.core.answer id (errorResponse id error_code.kInternalError what .null) }
  | _ :: frames, _ => { party with frames := frames }
  | [], _ => party

def receive (party : Party) (now : Int) (message : Json) :
    Except ProtocolError (Party × List Event) := do
  let (core, call) ← party.core.receive now message
  match call with
  | none => return ({ party with core := core }, [])
  | some call => return ({ party with core := core }.call call, [.called call])

/-! ## Requests -/

def request (party : Party) (method : String) (params : Json) (handlers : ResponseHandlers)
    (idleLimit : Option Int) (now : Int) : Party × List Event :=
  ({ party with core := party.core.request method params handlers idleLimit now },
    [.request party.core.nextId handlers])

def cancel (party : Party) (id : Nat) : Party × List Event :=
  ({ party with core := party.core.cancel id },
    if (party.core.outgoing id).isSome then [.cancel id] else [])

def expireIdle (party : Party) (now : Int) (order : List Nat) : Party × List Event :=
  let (core, expired) := party.core.expireIdle now order
  let (party, events) := { party with core := core }.failExpired expired
  (party, expired.map (fun request => .expired request.id) ++ events)

/-- Every act but `Receive`, which needs the channel. -/
def perform (party : Party) : Act → Party × List Event
  | .receive _ => (party, [])
  | .request method params handlers idleLimit now =>
      party.request method params handlers idleLimit now
  | .cancel id => party.cancel id
  | .grant id n => ({ party with core := party.core.grant id n }, [])
  | .expireIdle now order => party.expireIdle now order
  | .chunk id data => party.chunk id data
  | .result id result => (party.result id result, [])
  | .error id code message data => (party.error id code message data, [])
  | .drop id => (party.drop id, [])
  | .onDrained id => (party.onDrained id, [])
  | .handle method => ({ party with core := party.core.handle method }, [])
  | .setPeerWindow window => ({ party with core := party.core.setPeerWindow window }, [])
  | .returned => party.returned
  | .thrown what => (party.thrown what, [])

end Party

structure Connection where
  party : Side → Party
  /-- Everything so far, oldest first. -/
  log : List (Side × Event) := []

namespace Connection

/-- Two endpoints that have not talked yet. -/
def create (window : Side → Nat) : Connection :=
  { party := fun side => { core := EndpointCore.create (window side) } }

def set (c : Connection) (side : Side) (party : Party) (events : List Event) : Connection :=
  { party := Function.update c.party side party, log := c.log ++ events.map (side, ·) }

/-- A side receives the oldest message its peer has sent, when there is one. -/
def receive (c : Connection) (side : Side) (now : Int) : Except ProtocolError Connection :=
  let peer := c.party side.peer
  match peer.core.sink with
  | [] => .ok c
  | message :: sink => do
      let c := c.set side.peer { peer with core := { peer.core with sink := sink } } []
      let (party, events) ← (c.party side).receive now message
      return c.set side party events

def perform (c : Connection) : Side × Act → Except ProtocolError Connection
  | (side, .receive now) => c.receive side now
  | (side, act) =>
      let (party, events) := (c.party side).perform act
      .ok (c.set side party events)

/-- `none` when `Receive` throws. -/
def step (c : Connection) (act : Side × Act) : Option Connection := (c.perform act).toOption

/-! ## What the log says of one request -/

/-- The data passed to `onChunk` for a request made by `side`. -/
def received (log : List (Side × Event)) (side : Side) (id : Nat) : List Json :=
  log.filterMap fun
    | (s, .called (.onChunk i data)) => if s = side ∧ i = id then some data else none
    | _ => none

/-- The data `side` passed to the responder of a request, up to its answer. -/
def passed (log : List (Side × Event)) (side : Side) (id : Nat) : List Json :=
  log.filterMap fun
    | (s, .chunk i data) => if s = side ∧ i = id then some data else none
    | _ => none

end Connection

/-!
## Responses

What one endpoint answers, whoever its peer is. A ledger keeps what has happened to one request: the
credit its stream was given, the chunks its handler passed on, and the answer it owes.
-/

/-- The message answers a request of this id. -/
def Json.respondsTo (id : Nat) (message : Json) : Bool :=
  (message.find "method").isNone && decide ((message.find "id").bind asUnsigned = some id)

def sentResponses (id : Nat) (sink : List Json) : List Json := sink.filter (Json.respondsTo id)

/-- What a message means for the requests an endpoint serves. -/
inductive Arrival where
  | request (id : Nat) (method : String)
  | credit (id n : Nat)
  | cancel (id : Nat)
  | other
  deriving DecidableEq

def Json.arrival (message : Json) : Arrival :=
  match (message.find "method").bind Json.asString with
  | none => .other
  | some method =>
      if message.contains "id" then
        match (message.find "id").bind asUnsigned with
        | none => .other
        | some id => .request id method
      else
        let params := (message.find "params").getD .null
        match (params.find "id").bind asUnsigned with
        | none => .other
        | some id =>
            if method = kCredit then .credit id (((params.find "n").bind asUnsigned).getD 0)
            else if method = kCancel then .cancel id
            else .other

/-- What happens to an endpoint. -/
inductive Input where
  | message (now : Int) (message : Json)
  | act (act : Act)

/-- `none` when `Receive` throws. -/
def Party.step (party : Party) : Input → Option Party
  | .message now message => ((party.receive now message).toOption).map Prod.fst
  | .act act => some (party.perform act).1

/-! ## The ledger of a request -/

structure Ledger where
  asked : Bool := false
  /-- The window of the peer, and the credit that has arrived since. -/
  allowed : Nat := 0
  /-- The chunks passed to the responder. -/
  passed : Nat := 0
  /-- The first answer given, or that of the cancel that came before it was sent. -/
  due : Option Json := none
  /-- There was a second answer while the first was held. A responder answers once, so the handler
  has thrown. -/
  overridden : Bool := false

namespace Ledger

variable (ledger : Ledger) (party : Party) (id : Nat)

def answer (response : Json) : Ledger :=
  match party.core.incoming id, ledger.due with
  | none, _ => ledger
  | some _, none => { ledger with due := some response }
  | some _, some _ => { ledger with overridden := true }

/-- `Responder::Answer`, which answers once. -/
def respond (i : Nat) (response : Json) : Ledger :=
  if i = id ∧ party.responders id = some false then ledger.answer party id response else ledger

/-- A message has arrived. -/
def arrive : Arrival → Ledger
  | .request i method =>
      if i = id then
        if method ∈ party.core.requestHandlers then
          { ledger with asked := true, allowed := party.core.peerWindow }
        else
          { ledger with
            asked := true
            due := some (errorResponse id error_code.kMethodNotFound ("unknown method: " ++ method)
              .null) }
      else ledger
  | .credit i n =>
      if i = id ∧ (party.core.incoming id).isSome then { ledger with allowed := ledger.allowed + n }
      else ledger
  | .cancel i =>
      if i = id ∧ (party.core.incoming id).isSome then
        { ledger with
          due := some (errorResponse id error_code.kCancelled "cancelled" .null)
          overridden := false }
      else ledger
  | .other => ledger

/-- The owner has acted. -/
def act : Act → Ledger
  | .chunk i _ =>
      if i = id ∧ party.responders id = some false ∧ (party.core.incoming id).isSome then
        { ledger with passed := ledger.passed + 1 }
      else ledger
  | .result i result => ledger.respond party id i (resultResponse i result)
  | .error i code message data => ledger.respond party id i (errorResponse i code message data)
  | .drop i =>
      ledger.respond party id i
        (errorResponse i error_code.kInternalError "request dropped without a response" .null)
  | .thrown what =>
      match party.frames, what with
      | .requestHandler i :: _, some what =>
          if i = id then
            ledger.answer party id (errorResponse id error_code.kInternalError what .null)
          else ledger
      | _, _ => ledger
  | _ => ledger

def next : Input → Ledger
  | .message _ message => ledger.arrive party id message.arrival
  | .act act => ledger.act party id act

/-- One step of an endpoint, with the ledger of one request kept alongside. -/
def step (s : Party × Ledger) (input : Input) : Option (Party × Ledger) :=
  (s.1.step input).map fun party => (party, s.2.next s.1 id input)

end Ledger

end Ned.Editor.Protocol
