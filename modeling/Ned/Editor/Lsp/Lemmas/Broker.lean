import Ned.Editor.Lsp.Broker

/-!
# What a call of the router does

One case for each way through a call. Later proofs go by these cases and unfold no call.
-/

namespace Ned.Editor.Lsp

open Library (assign erase)
open Protocol (Json)

variable {state state' : LanguageState} {actions : List BrokerAction} {conn : ConnectionId}
  {frame : Json} {root language key : String}

/-! ## One entry -/

/-- What `MaybeStartRealHandshake` does. -/
inductive StartStep (state : LanguageState) : LanguageState → List BrokerAction → Prop
  | waits (h : state.pendingInitializeRequests = [] ∨ state.status ≠ .spawningProcess ∨
      state.processRunning = false) : StartStep state state []
  | starts {queued : QueuedInitialize} {rest : List QueuedInitialize}
      (hqueue : state.pendingInitializeRequests = queued :: rest)
      (hstatus : state.status = .spawningProcess) (hrunning : state.processRunning = true)
      (hid : state.nextBrokerId < intMax) :
      StartStep state
        { state with
          nextBrokerId := state.nextBrokerId + 1
          handshakeBrokerId := state.nextBrokerId
          status := .awaitingRealHandshake }
        [state.toServer (initializeRequest state.nextBrokerId queued.params)]

theorem takeBrokerId_eq_some {brokerId : Int} (h : state.takeBrokerId = some (brokerId, state')) :
    state.nextBrokerId < intMax ∧ brokerId = state.nextBrokerId ∧
      state' = { state with nextBrokerId := state.nextBrokerId + 1 } := by
  unfold LanguageState.takeBrokerId at h
  split at h
  · rename_i hlt
    cases h
    exact ⟨hlt, rfl, rfl⟩
  · cases h

theorem StartStep.of_eq (h : state.maybeStartRealHandshake = some (state', actions)) :
    StartStep state state' actions := by
  unfold LanguageState.maybeStartRealHandshake at h
  split at h
  · rename_i hqueue
    cases h
    exact .waits (Or.inl hqueue)
  · rename_i queued rest hqueue
    split at h
    · rename_i hready
      obtain ⟨⟨brokerId, next⟩, htake, h⟩ := Option.bind_eq_some_iff.1 h
      obtain ⟨hid, rfl, rfl⟩ := takeBrokerId_eq_some htake
      cases h
      exact .starts hqueue hready.1 hready.2 hid
    · rename_i hnot
      cases h
      rw [not_and_or, Bool.not_eq_true] at hnot
      exact .waits (Or.inr hnot)

theorem find_id_initializeResponse (state : LanguageState) (id : Json) :
    (state.initializeResponse id).find "id" = some id := by
  unfold LanguageState.initializeResponse
  split <;> rfl

/-- What `ClientFrame` does with the entry of the client. -/
inductive ClientStep (state : LanguageState) (conn : ConnectionId) (frame : Json) :
    LanguageState → List BrokerAction → Prop
  | answered {id : Json} (hid : frame.find "id" = some id)
      (hstatus : state.status = .ready ∨ state.status = .failed) :
      ClientStep state conn frame state [.sendToClient conn (state.initializeResponse id)]
  | queued {id params : Json} {state' : LanguageState} {actions : List BrokerAction}
      (hid : frame.find "id" = some id) (hready : state.status ≠ .ready)
      (hfailed : state.status ≠ .failed)
      (hstart : StartStep { state with
        pendingInitializeRequests := state.pendingInitializeRequests ++ [⟨conn, id, params⟩] }
        state' actions) : ClientStep state conn frame state' actions
  | initialized : ClientStep state conn frame (state.clientInitialized conn) []
  | refused : ClientStep state conn frame state [.closeClient conn]
  | request {id : Json} (hid : frame.find "id" = some id) (hattached : conn ∈ state.attached)
      (hready : state.status = .ready) (hlt : state.nextBrokerId < intMax)
      (hmethod : (frame.find "method").bind Json.asString ≠ some "initialize")
      (hinitialized : (frame.find "method").bind Json.asString ≠ some "initialized") :
      ClientStep state conn frame
        { state with
          nextBrokerId := state.nextBrokerId + 1
          pendingByBrokerId :=
            Function.update state.pendingByBrokerId state.nextBrokerId (some ⟨conn, id⟩) }
        [state.toServer (withId frame (.integer state.nextBrokerId))]
  | notification (hid : frame.find "id" = none) (hattached : conn ∈ state.attached)
      (hready : state.status = .ready)
      (hinitialized : (frame.find "method").bind Json.asString ≠ some "initialized") :
      ClientStep state conn frame state [state.toServer frame]

theorem asString_of_stringValue {method : String} (h : stringValue frame "method" "" = some method) :
    (frame.find "method").bind Json.asString = some method ∨
      (frame.find "method").bind Json.asString = none ∧ method = "" := by
  unfold stringValue at h
  split at h
  · split at h
    · rename_i hnone
      rw [hnone]
      exact Or.inr ⟨rfl, (Option.some.inj h).symm⟩
    · rename_i value hvalue
      rw [hvalue]
      exact Or.inl h
  · cases h

theorem ne_of_stringValue {method other : String} (h : stringValue frame "method" "" = some method)
    (hne : method ≠ other) :
    (frame.find "method").bind Json.asString ≠ some other := by
  intro hother
  rcases asString_of_stringValue h with hstring | ⟨hstring, -⟩
  · exact hne (Option.some.inj (hstring.symm.trans hother))
  · cases hstring.symm.trans hother

theorem ClientStep.of_eq (h : state.clientFrame conn frame = some (state', actions)) :
    ClientStep state conn frame state' actions := by
  obtain ⟨method, hmethod, h⟩ := Option.bind_eq_some_iff.1 h
  split at h
  · rename_i hinitialize
    obtain ⟨id, hid⟩ := Option.isSome_iff_exists.1 hinitialize.2
    rw [hid] at h
    unfold LanguageState.clientInitialize at h
    split at h
    · rename_i hstatus
      cases h
      exact .answered hid hstatus
    · rename_i hstatus
      rw [not_or] at hstatus
      exact .queued hid hstatus.1 hstatus.2 (.of_eq h)
  · rename_i hnot
    split at h
    · cases h
      exact .initialized
    · rename_i hinitialized
      unfold LanguageState.clientTraffic at h
      split at h
      · cases h
        exact .refused
      · rename_i hallowed
        rw [not_or, not_not, ne_eq, not_not] at hallowed
        split at h
        · rename_i id hid
          obtain ⟨⟨brokerId, next⟩, htake, h⟩ := Option.bind_eq_some_iff.1 h
          obtain ⟨hlt, rfl, rfl⟩ := takeBrokerId_eq_some htake
          cases h
          refine .request hid hallowed.1 hallowed.2 hlt (ne_of_stringValue hmethod ?_)
            (ne_of_stringValue hmethod hinitialized)
          exact fun heq => hnot ⟨heq, Option.isSome_iff_exists.2 ⟨id, hid⟩⟩
        · rename_i hid
          cases h
          exact .notification hid hallowed.1 hallowed.2
            (ne_of_stringValue hmethod hinitialized)

/-- What `ServerFrame` does with the entry of the server. -/
inductive ServerStep (state : LanguageState) (root language : String) (frame : Json) :
    LanguageState → List BrokerAction → Prop
  | accepted {result : Json} (hanswer : state.isHandshakeAnswer frame = true) :
      ServerStep state root language frame
        { state with
          cachedInitializeResult := some result
          status := .ready
          pendingInitializeRequests := [] }
        (.sendToServer root language initializedNotification ::
          state.pendingInitializeRequests.map fun queued =>
            .sendToClient queued.connection (successResponse queued.originalId result))
  | rejected {reason : String} (hanswer : state.isHandshakeAnswer frame = true) :
      ServerStep state root language frame
        { state with
          status := .failed
          failureReason := reason
          pendingInitializeRequests := [] }
        (state.pendingInitializeRequests.map fun queued =>
          .sendToClient queued.connection (errorResponse queued.originalId reason))
  | response {id : Json} {pending : PendingRequest} (hnot : state.isHandshakeAnswer frame = false)
      (hid : frame.find "id" = some id) (hmethod : frame.contains "method" = false)
      (hpending : state.pendingByBrokerId ((asInt id).getD (-1)) = some pending) :
      ServerStep state root language frame
        { state with
          pendingByBrokerId :=
            Function.update state.pendingByBrokerId ((asInt id).getD (-1)) none }
        [.sendToClient pending.connection (withId frame pending.originalId)]
  | unknown (hnot : state.isHandshakeAnswer frame = false) :
      ServerStep state root language frame state []
  | request {id : Json} (hnot : state.isHandshakeAnswer frame = false)
      (hid : frame.find "id" = some id) :
      ServerStep state root language frame state
        [.sendToServer root language (successResponse id .null)]
  | notification (hnot : state.isHandshakeAnswer frame = false) (hid : frame.find "id" = none) :
      ServerStep state root language frame state (state.attached.map (.sendToClient · frame))

theorem ServerStep.of_eq (h : state.serverFrame root language frame = some (state', actions)) :
    ServerStep state root language frame state' actions := by
  unfold LanguageState.serverFrame at h
  split at h
  · rename_i hanswer
    unfold LanguageState.handshakeAnswer at h
    split at h
    · cases h
      exact .accepted hanswer
    · obtain ⟨reason, -, h⟩ := Option.bind_eq_some_iff.1 h
      cases h
      exact .rejected hanswer
  · rename_i hnot
    rw [Bool.not_eq_true] at hnot
    split at h
    · rename_i id hid
      split at h
      · cases h
        exact .request hnot hid
      · rename_i hmethod
        rw [Bool.not_eq_true] at hmethod
        simp only at h
        split at h
        · rename_i pending hpending
          cases h
          exact .response hnot hid hmethod hpending
        · cases h
          exact .unknown hnot
    · rename_i hid
      cases h
      exact .notification hnot hid

end Ned.Editor.Lsp
