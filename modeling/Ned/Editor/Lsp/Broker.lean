import Ned.Editor.Protocol.Endpoint
import Ned.Library.Assoc
import Ned.Library.Runs
import Mathlib.Algebra.Ring.Int.Defs
import Mathlib.Logic.Function.Basic

/-!
# The language-server broker

One daemon keeps every project's language servers alive, as in `Editor/Lsp/Broker.cpp`. The router
turns what happens into actions for the daemon. A call gives `none` where it would throw, or count
past the greatest `int`. The tables are hashed, so a call that walks one is given the keys in the
order in which it happens to list them.
-/

namespace Ned.Editor.Lsp

open Library (assign erase)
open Protocol (Json)

abbrev ConnectionId := Nat

/-- The greatest value of an `int`. -/
def intMax : Int := 2 ^ 31 - 1

/-- The conversion to `int`. -/
def int32 (n : Int) : Int := (n + 2 ^ 31) % 2 ^ 32 - 2 ^ 31

/-- `std::chrono::steady_clock::time_point::max()`, in nanoseconds. -/
def timeMax : Int := 2 ^ 63 - 1

/-! ## Frames -/

/-- `frame.value(key, otherwise)` for a string, which throws on what is not an object and on what is
not a string. -/
def stringValue (frame : Json) (key otherwise : String) : Option String :=
  match frame with
  | .object _ =>
      match frame.find key with
      | none => some otherwise
      | some value => value.asString
  | _ => none

/-- `get<int>` of a value that is an integer. -/
def asInt (value : Json) : Option Int := value.asInteger.map int32

/-- `frame["id"] = id`. -/
def withId (frame id : Json) : Json :=
  match frame with
  | .object entries => .object (assign entries "id" id)
  | _ => frame

def errorResponse (id : Json) (message : String) : Json :=
  .object [("jsonrpc", .string "2.0"), ("id", id),
    ("error", .object [("code", .integer (-32603)), ("message", .string message)])]

def successResponse (id result : Json) : Json :=
  .object [("jsonrpc", .string "2.0"), ("id", id), ("result", result)]

def initializeRequest (id : Int) (params : Json) : Json :=
  .object [("jsonrpc", .string "2.0"), ("id", .integer id), ("method", .string "initialize"),
    ("params", params)]

def initializedNotification : Json :=
  .object [("jsonrpc", .string "2.0"), ("method", .string "initialized"), ("params", .object [])]

def shutdownRequest (id : Int) : Json :=
  .object [("jsonrpc", .string "2.0"), ("id", .integer id), ("method", .string "shutdown")]

def exitNotification : Json :=
  .object [("jsonrpc", .string "2.0"), ("method", .string "exit")]

/-! ## State -/

inductive BrokerLanguageStatus
  | notStarted
  | spawningProcess
  | awaitingRealHandshake
  | ready
  | failed
  deriving DecidableEq

inductive BrokerAction
  | spawnServer (root language : String) (argv : List String)
  | sendToServer (root language : String) (frame : Json)
  | sendToClient (connection : ConnectionId) (frame : Json)
  | closeClient (connection : ConnectionId)
  | closeServer (root language : String)

structure PendingRequest where
  connection : ConnectionId
  originalId : Json

structure QueuedInitialize where
  connection : ConnectionId
  originalId : Json
  params : Json

structure LanguageState where
  root : String := ""
  language : String := ""
  status : BrokerLanguageStatus := .notStarted
  argv : List String := []
  processRunning : Bool := false
  pendingInitializeRequests : List QueuedInitialize := []
  cachedInitializeResult : Option Json := none
  failureReason : String := ""
  nextBrokerId : Int := 1
  /-- The id of the broker's own `initialize` while its answer is awaited. -/
  handshakeBrokerId : Int := 0
  pendingByBrokerId : Int → Option PendingRequest := fun _ => none
  attached : List ConnectionId := []
  lastActive : Int := 0

structure BrokerRouter where
  maxConcurrentServers : Int
  languages : List (String × LanguageState) := []
  connectionKey : ConnectionId → Option String := fun _ => none

def makeKey (root language : String) : String := root ++ "\x1f" ++ language

/-! ## One entry -/

namespace LanguageState

variable (state : LanguageState)

/-- Nobody is attached or waits for an answer to `initialize`. -/
def isIdle : Bool := state.attached.isEmpty && state.pendingInitializeRequests.isEmpty

/-- `nextBrokerId++`. -/
def takeBrokerId : Option (Int × LanguageState) :=
  if state.nextBrokerId < intMax then
    some (state.nextBrokerId, { state with nextBrokerId := state.nextBrokerId + 1 })
  else none

def toServer (frame : Json) : BrokerAction := .sendToServer state.root state.language frame

def maybeStartRealHandshake : Option (LanguageState × List BrokerAction) :=
  match state.pendingInitializeRequests with
  | [] => some (state, [])
  | queued :: _ =>
      if state.status = .spawningProcess ∧ state.processRunning = true then do
        let (brokerId, state) ← state.takeBrokerId
        some ({ state with handshakeBrokerId := brokerId, status := .awaitingRealHandshake },
          [state.toServer (initializeRequest brokerId queued.params)])
      else some (state, [])

/-- The answer to a queued `initialize`. -/
def initializeResponse (id : Json) : Json :=
  if state.status = .ready then successResponse id (state.cachedInitializeResult.getD .null)
  else errorResponse id state.failureReason

def flushPendingInitializeRequests : LanguageState × List BrokerAction :=
  ({ state with pendingInitializeRequests := [] },
    state.pendingInitializeRequests.map fun queued =>
      .sendToClient queued.connection (state.initializeResponse queued.originalId))

/-- The part of `ClientFrame` that is about a client's own `initialize`. -/
def clientInitialize (conn : ConnectionId) (id params : Json) :
    Option (LanguageState × List BrokerAction) :=
  if state.status = .ready ∨ state.status = .failed then
    some (state, [.sendToClient conn (state.initializeResponse id)])
  else
    maybeStartRealHandshake
      { state with
        pendingInitializeRequests := state.pendingInitializeRequests ++ [⟨conn, id, params⟩] }

/-- The part of `ClientFrame` that is about the traffic after the handshake. -/
def clientTraffic (conn : ConnectionId) (frame : Json) :
    Option (LanguageState × List BrokerAction) :=
  if conn ∉ state.attached ∨ state.status ≠ .ready then some (state, [.closeClient conn])
  else
    match frame.find "id" with
    | some id => do
        let (brokerId, state) ← state.takeBrokerId
        let pending := Function.update state.pendingByBrokerId brokerId (some ⟨conn, id⟩)
        some ({ state with pendingByBrokerId := pending },
          [state.toServer (withId frame (.integer brokerId))])
    | none => some (state, [state.toServer frame])

/-- A client's own `initialized`, which goes no further. -/
def clientInitialized (conn : ConnectionId) : LanguageState :=
  if state.status = .ready then { state with attached := state.attached.insert conn } else state

def clientFrame (conn : ConnectionId) (frame : Json) :
    Option (LanguageState × List BrokerAction) := do
  let method ← stringValue frame "method" ""
  if method = "initialize" ∧ frame.contains "id" = true then
    state.clientInitialize conn ((frame.find "id").getD .null)
      ((frame.find "params").getD (.object []))
  else if method = "initialized" then some (state.clientInitialized conn, [])
  else state.clientTraffic conn frame

def forget (conn : ConnectionId) : LanguageState :=
  { state with
    attached := state.attached.filter (· ≠ conn)
    pendingInitializeRequests := state.pendingInitializeRequests.filter (·.connection ≠ conn)
    pendingByBrokerId := fun brokerId =>
      (state.pendingByBrokerId brokerId).filter (·.connection ≠ conn) }

/-- Whether a frame has the id of the broker's own `initialize`. -/
def isHandshakeAnswer (frame : Json) : Bool :=
  state.status = .awaitingRealHandshake &&
    (frame.find "id").bind asInt == some state.handshakeBrokerId

/-- Why a server says that it cannot be initialized. -/
def rejectionReason (frame : Json) : Option String :=
  match frame.find "error" with
  | some error => stringValue error "message" "unknown error"
  | none => some "unknown error"

/-- The part of `ServerFrame` that is about the answer to the broker's own `initialize`. -/
def handshakeAnswer (root language : String) (frame : Json) :
    Option (LanguageState × List BrokerAction) :=
  match frame.find "result" with
  | some result =>
      let state := { state with cachedInitializeResult := some result, status := .ready }
      let (state, answers) := state.flushPendingInitializeRequests
      some (state, .sendToServer root language initializedNotification :: answers)
  | none => do
      let reason ← rejectionReason frame
      some (flushPendingInitializeRequests { state with status := .failed, failureReason := reason })

def serverFrame (root language : String) (frame : Json) :
    Option (LanguageState × List BrokerAction) :=
  if state.isHandshakeAnswer frame then state.handshakeAnswer root language frame
  else
    match frame.find "id" with
    | some id =>
        if frame.contains "method" then
          some (state, [.sendToServer root language (successResponse id .null)])
        else
          let brokerId := (asInt id).getD (-1)
          match state.pendingByBrokerId brokerId with
          | some pending =>
              some ({ state with
                  pendingByBrokerId := Function.update state.pendingByBrokerId brokerId none },
                [.sendToClient pending.connection (withId frame pending.originalId)])
          | none => some (state, [])
    | none => some (state, state.attached.map (.sendToClient · frame))

/-- What a server is told before its entry goes. -/
def farewell : Option (List BrokerAction) :=
  if state.status = .ready then do
    let (shutdownId, _) ← state.takeBrokerId
    some [state.toServer (shutdownRequest shutdownId), state.toServer exitNotification]
  else some []

/-- The clients that go with an entry. -/
def clients : List ConnectionId :=
  state.attached ++ state.pendingInitializeRequests.map (·.connection)

end LanguageState

/-! ## The router -/

namespace BrokerRouter

def create (maxConcurrentServers : Int) : BrokerRouter :=
  { maxConcurrentServers := maxConcurrentServers }

variable (router : BrokerRouter)

/-- `languages_[key]`, which makes an entry that there is not. -/
def languageAt (key : String) : LanguageState := (router.languages.lookup key).getD {}

def setLanguage (key : String) (state : LanguageState) : BrokerRouter :=
  { router with languages := assign router.languages key state }

def tearDownEntry (key : String) : Option (BrokerRouter × List BrokerAction) :=
  match router.languages.lookup key with
  | none => some (router, [])
  | some state => do
      let farewell ← state.farewell
      let closing := if state.status ≠ .notStarted then
        [BrokerAction.closeServer state.root state.language] else []
      some ({ router with
          languages := erase router.languages key
          connectionKey := fun conn =>
            if conn ∈ state.clients then none else router.connectionKey conn },
        farewell ++ closing ++ state.clients.map .closeClient)

def tearDownEntries : BrokerRouter → List String → Option (BrokerRouter × List BrokerAction)
  | router, [] => some (router, [])
  | router, key :: keys => do
      let (router, actions) ← router.tearDownEntry key
      let (router, more) ← tearDownEntries router keys
      some (router, actions ++ more)

/-- The older of an entry found so far and another that may go. -/
def olderIdle (oldest : String × Int) (key : String) : String × Int :=
  match router.languages.lookup key with
  | some state =>
      if state.isIdle && state.lastActive < oldest.2 then (key, state.lastActive) else oldest
  | none => oldest

/-- The key and the age of the oldest entry that may go, an empty key for none. -/
def oldestIdle (order : List String) : String × Int := order.foldl router.olderIdle ("", timeMax)

/-- The entries that make room for another. -/
def evicted (order : List String) : List String :=
  if router.maxConcurrentServers ≤ 0 ∨
      (router.languages.length : Int) < router.maxConcurrentServers then []
  else
    let oldestKey := (router.oldestIdle order).1
    if oldestKey.isEmpty then [] else [oldestKey]

def maybeEvictForCapacity (order : List String) : Option (BrokerRouter × List BrokerAction) :=
  router.tearDownEntries (router.evicted order)

def clientAttached (conn : ConnectionId) (root language : String) (argv : List String) (now : Int)
    (order : List String) : Option (BrokerRouter × List BrokerAction) :=
  let key := makeKey root language
  let router := { router with connectionKey := Function.update router.connectionKey conn (some key) }
  match router.languages.lookup key with
  | none => do
      let (router, actions) ← router.maybeEvictForCapacity order
      let state : LanguageState :=
        { root := root, language := language, argv := argv, status := .spawningProcess,
          lastActive := now }
      some (router.setLanguage key state, actions ++ [.spawnServer root language argv])
  | some state => some (router.setLanguage key { state with lastActive := now }, [])

def clientFrame (conn : ConnectionId) (frame : Json) (now : Int) :
    Option (BrokerRouter × List BrokerAction) :=
  match router.connectionKey conn with
  | none => some (router, [])
  | some key => do
      let (state, actions) ← { router.languageAt key with lastActive := now }.clientFrame conn frame
      some (router.setLanguage key state, actions)

def clientDisconnected (conn : ConnectionId) : BrokerRouter :=
  match router.connectionKey conn with
  | none => router
  | some key =>
      { router.setLanguage key ((router.languageAt key).forget conn) with
        connectionKey := Function.update router.connectionKey conn none }

def serverSpawned (root language : String) : Option (BrokerRouter × List BrokerAction) := do
  let key := makeKey root language
  let (state, actions) ←
    { router.languageAt key with
      root := root, language := language, processRunning := true }.maybeStartRealHandshake
  some (router.setLanguage key state, actions)

def serverSpawnFailed (root language reason : String) : BrokerRouter × List BrokerAction :=
  let key := makeKey root language
  let (state, actions) :=
    { router.languageAt key with
      root := root, language := language, status := .failed,
      failureReason := reason }.flushPendingInitializeRequests
  (router.setLanguage key state, actions)

def serverFrame (root language : String) (frame : Json) (now : Int) :
    Option (BrokerRouter × List BrokerAction) :=
  let key := makeKey root language
  match router.languages.lookup key with
  | none => some (router, [])
  | some state => do
      let (state, actions) ← { state with lastActive := now }.serverFrame root language frame
      some (router.setLanguage key state, actions)

def serverDisconnected (root language : String) : Option (BrokerRouter × List BrokerAction) :=
  router.tearDownEntry (makeKey root language)

/-- The entries that have been idle for too long. -/
def idleKeys (now idleTimeout : Int) (order : List String) : List String :=
  order.filter fun key =>
    match router.languages.lookup key with
    | some state => state.isIdle && now - state.lastActive ≥ idleTimeout
    | none => false

def idleSweep (now idleTimeout : Int) (order : List String) :
    Option (BrokerRouter × List BrokerAction) :=
  router.tearDownEntries (router.idleKeys now idleTimeout order)

end BrokerRouter

/-! ## Events -/

/-- A call of the router. -/
inductive BrokerEvent
  | clientAttached (conn : ConnectionId) (root language : String) (argv : List String) (now : Int)
      (order : List String)
  | clientFrame (conn : ConnectionId) (frame : Json) (now : Int)
  | clientDisconnected (conn : ConnectionId)
  | serverSpawned (root language : String)
  | serverSpawnFailed (root language reason : String)
  | serverFrame (root language : String) (frame : Json) (now : Int)
  | serverDisconnected (root language : String)
  | idleSweep (now idleTimeout : Int) (order : List String)

def BrokerRouter.handle (router : BrokerRouter) :
    BrokerEvent → Option (BrokerRouter × List BrokerAction)
  | .clientAttached conn root language argv now order =>
      router.clientAttached conn root language argv now order
  | .clientFrame conn frame now => router.clientFrame conn frame now
  | .clientDisconnected conn => some (router.clientDisconnected conn, [])
  | .serverSpawned root language => router.serverSpawned root language
  | .serverSpawnFailed root language reason => some (router.serverSpawnFailed root language reason)
  | .serverFrame root language frame now => router.serverFrame root language frame now
  | .serverDisconnected root language => router.serverDisconnected root language
  | .idleSweep now idleTimeout order => router.idleSweep now idleTimeout order

end Ned.Editor.Lsp

/-!
## The daemon around the broker

What the daemon sees of its sockets and servers: which connections have attached, which spawn is to
be answered, which servers run, and which `initialize` they have not answered yet.
-/

namespace Ned.Editor.Lsp

open Protocol (Json)

structure BrokerHost where
  router : BrokerRouter
  /-- The connections that have attached, whether they are still there or not. -/
  used : List ConnectionId := []
  /-- The spawn that is to be answered before anything else happens. -/
  spawning : Option (String × String) := none
  /-- The keys of the servers that run. -/
  live : List String := []
  /-- The `initialize` that a server has been sent and has not answered. -/
  outstanding : String → Option Int := fun _ => none

/-- The id of a request to initialize. -/
def initializeId (frame : Json) : Option Int :=
  if (frame.find "method").bind Json.asString = some "initialize" then
    (frame.find "id").bind Json.asInteger
  else none

namespace BrokerHost

def create (maxConcurrentServers : Int) : BrokerHost :=
  { router := .create maxConcurrentServers }

variable (host : BrokerHost)

/-- What can happen next. A connection id is used once, a spawn is answered at once, and only a server
that runs is heard from. -/
def expects (event : BrokerEvent) : Bool :=
  match host.spawning with
  | some (root, language) =>
      match event with
      | .serverSpawned root' language' => root' = root && language' = language
      | .serverSpawnFailed root' language' _ => root' = root && language' = language
      | _ => false
  | none =>
      match event with
      | .clientAttached conn _ _ _ _ _ => conn ∉ host.used
      | .serverSpawned _ _ => false
      | .serverSpawnFailed _ _ _ => false
      | .serverFrame root language _ _ => makeKey root language ∈ host.live
      | .serverDisconnected root language => makeKey root language ∈ host.live
      | _ => true

/-- What an event says of itself. -/
def notice : BrokerEvent → BrokerHost
  | .clientAttached conn _ _ _ _ _ => { host with used := conn :: host.used }
  | .serverSpawned root language =>
      { host with spawning := none, live := makeKey root language :: host.live }
  | .serverSpawnFailed _ _ _ => { host with spawning := none }
  | .serverFrame root language frame _ =>
      let key := makeKey root language
      if (frame.find "id").bind asInt = host.outstanding key then
        { host with outstanding := Function.update host.outstanding key none }
      else host
  | _ => host

/-- What an action does to the servers. -/
def perform : BrokerAction → BrokerHost
  | .spawnServer root language _ => { host with spawning := some (root, language) }
  | .sendToServer root language frame =>
      match initializeId frame with
      | some id =>
          { host with
            outstanding := Function.update host.outstanding (makeKey root language) (some id) }
      | none => host
  | .closeServer root language =>
      let key := makeKey root language
      { host with
        live := host.live.filter (· ≠ key)
        outstanding := Function.update host.outstanding key none }
  | _ => host

def performAll (actions : List BrokerAction) : BrokerHost := actions.foldl perform host

/-- The daemon once a call of the router is carried out. -/
def carryOut (router : BrokerRouter) (actions : List BrokerAction) : BrokerHost :=
  { host with router := router }.performAll actions

def step (event : BrokerEvent) : Option BrokerHost :=
  if host.expects event then do
    let (router, actions) ← host.router.handle event
    some ((host.notice event).carryOut router actions)
  else none

end BrokerHost

/-! ## Clients that are stranded -/

/-- What a queued client gets once its server answers the handshake, cannot be spawned, or is gone. -/
structure Answered (router : BrokerRouter) (key : String) (state : LanguageState)
    (queued : QueuedInitialize) : Prop where
  answer : ∀ root language frame now router' actions, makeKey root language = key →
    state.isHandshakeAnswer frame = true →
    router.handle (.serverFrame root language frame now) = some (router', actions) →
    ∃ response, BrokerAction.sendToClient queued.connection response ∈ actions ∧
      response.find "id" = some queued.originalId
  failure : ∀ root language reason router' actions, makeKey root language = key →
    router.handle (.serverSpawnFailed root language reason) = some (router', actions) →
    ∃ response, BrokerAction.sendToClient queued.connection response ∈ actions ∧
      response.find "id" = some queued.originalId
  disconnect : ∀ root language router' actions, makeKey root language = key →
    router.handle (.serverDisconnected root language) = some (router', actions) →
    BrokerAction.closeClient queued.connection ∈ actions

/-- Every connection has an entry that was started, and every queued client waits for a spawn or for a
server that has not answered its handshake yet. -/
structure NoneStranded (host : BrokerHost) : Prop where
  known : ∀ conn key, host.router.connectionKey conn = some key →
    ∃ state, host.router.languages.lookup key = some state ∧ state.status ≠ .notStarted
  waiting : ∀ key state, host.router.languages.lookup key = some state →
    state.pendingInitializeRequests ≠ [] →
    (state.status = .spawningProcess ∧
      ∃ root language, host.spawning = some (root, language) ∧ makeKey root language = key) ∨
      state.status = .awaitingRealHandshake ∧ key ∈ host.live ∧
        host.outstanding key = some state.handshakeBrokerId
  answered : ∀ key state, host.router.languages.lookup key = some state →
    ∀ queued ∈ state.pendingInitializeRequests, Answered host.router key state queued

/-! ## What keeps them -/

/-- The entries that an event tears down. -/
def BrokerRouter.tornDown (router : BrokerRouter) : BrokerEvent → List String
  | .clientAttached _ root language _ _ order =>
      if (router.languages.lookup (makeKey root language)).isNone then router.evicted order else []
  | .serverDisconnected root language => [makeKey root language]
  | .idleSweep now idleTimeout order => router.idleKeys now idleTimeout order
  | _ => []

/-- Every connection to an entry that is torn down is attached to it or queued at it. -/
def KeepsClients (host : BrokerHost) (event : BrokerEvent) : Prop :=
  ∀ key ∈ host.router.tornDown event, ∀ conn, host.router.connectionKey conn = some key →
    conn ∈ (host.router.languageAt key).clients

end Ned.Editor.Lsp
