import Ned.Editor.Lsp.Lemmas.Multiplexing

/-!
# Theorems about crosstalk

What clients and servers are sent in any run, in whatever order things happen.
-/

namespace Ned.Editor.Lsp

open Library (run)
open Protocol (Json)

variable {wire wire' : BrokerWire} {router router' : BrokerRouter} {state state' : LanguageState}
  {server : ServerWire} {actions : List BrokerAction} {conn : ConnectionId} {frame : Json}
  {root language key : String} {now : Int} {event : BrokerEvent}
  {connections : ConnectionId → Option String}

/-! ## Runs -/

theorem wireSound_create (maxConcurrentServers : Int) : WireSound (.create maxConcurrentServers) where
  entries key state hstate := by cases hstate
  servers key := serverSound_empty
  relays key relay hrelay := by cases hrelay
  present conn key hconn := by cases hconn
  gone conn hconn := by cases hconn
  told conn := List.Subperm.refl _

theorem WireSound.step (h : WireSound wire) (hstep : wire.step event = some wire') :
    WireSound wire' := by
  unfold BrokerWire.step at hstep
  split at hstep
  · rename_i hallows
    obtain ⟨⟨router, actions⟩, hhandle, hstep⟩ := Option.bind_eq_some_iff.1 hstep
    cases hstep
    cases event with
    | clientAttached conn root language argv now order =>
        exact h.clientAttached (of_decide_eq_true hallows) hhandle
    | clientFrame conn frame now => exact h.clientFrame hhandle
    | clientDisconnected conn =>
        cases hhandle
        exact h.clientDisconnected
    | serverSpawned root language => exact h.serverSpawned hhandle
    | serverSpawnFailed root language reason => exact h.serverSpawnFailed (Option.some.inj hhandle)
    | serverFrame root language frame now => exact h.serverFrame hhandle
    | serverDisconnected root language =>
        have hevent : (BrokerEvent.serverDisconnected root language).Relayless := trivial
        obtain ⟨hsound, hsilent⟩ := h.tearDown hevent (.of_eq hhandle)
        exact hsound.record_carry trivial trivial hsilent
    | idleSweep now idleTimeout order =>
        have hevent : (BrokerEvent.idleSweep now idleTimeout order).Relayless := trivial
        obtain ⟨hsound, hsilent⟩ := h.tearDownEntries hevent hhandle
        exact hsound.record_carry trivial trivial hsilent
  · cases hstep

theorem WireSound.untangled (h : WireSound wire) : Untangled wire where
  ids key := (h.servers key).ids
  initializeOnce key := (h.servers key).initializeOnce
  initializedOnce key := (h.servers key).initializedOnce
  routed key := (h.servers key).routed
  told conn := (List.sublist_append_left _ _).subperm.trans (h.told conn)

/-! ## Calls and the wires -/

/-- Who is sent a frame when an entry's queue is flushed. -/
theorem EntrySound.flushed (h : EntrySound connections server key state) (answer : Json → Json) :
    ∀ sent ∈ toClients (state.pendingInitializeRequests.map fun queued =>
      BrokerAction.sendToClient queued.connection (answer queued.originalId)),
      connections sent.1 = some key := by
  intro sent hsent
  rw [toClients_flush] at hsent
  obtain ⟨queued, hqueued, rfl⟩ := List.mem_map.1 hsent
  exact h.queued queued hqueued

theorem ClientStep.heard (hstep : ClientStep state conn frame state' actions) :
    ∀ sent ∈ toClients actions, sent.1 = conn := by
  intro sent hsent
  cases hstep with
  | answered _ _ =>
      rw [List.mem_singleton.1 hsent]
  | queued _ _ _ hstart => cases hstart <;> cases hsent
  | initialized => cases hsent
  | refused => cases hsent
  | request _ _ _ _ _ _ => cases hsent
  | notification _ _ _ _ => cases hsent

theorem EntrySound.heard (h : EntrySound connections server key state)
    (hstep : ServerStep state root language frame state' actions) :
    ∀ sent ∈ toClients actions, connections sent.1 = some key := by
  intro sent hsent
  cases hstep with
  | @accepted result _ => exact h.flushed (successResponse · result) sent hsent
  | @rejected reason _ => exact h.flushed (errorResponse · reason) sent hsent
  | response _ _ _ hpending =>
      rw [List.mem_singleton.1 hsent]
      exact (h.pending _ _ hpending).1
  | unknown _ => cases hsent
  | request _ _ => cases hsent
  | notification _ _ =>
      obtain ⟨action, haction, hsent⟩ := List.mem_filterMap.1 hsent
      obtain ⟨conn, hconn, rfl⟩ := List.mem_map.1 haction
      cases hsent
      exact h.attached conn hconn

theorem WireSound.connected (h : WireSound wire)
    (hcall : wire.router.handle event = some (router', actions)) :
    ∀ sent ∈ toClients actions, ∃ key, wire.router.connectionKey sent.1 = some key := by
  intro sent hsent
  cases event with
  | clientAttached conn root language argv now order =>
      cases AttachStep.of_eq hcall with
      | known _ => cases hsent
      | started _ htear =>
          have hevent : (BrokerEvent.clientAttached conn root language argv now order).Relayless :=
            trivial
          rw [toClients_append, (h.tearDownEntries hevent htear).2] at hsent
          cases hsent
  | clientFrame conn frame now =>
      simp only [BrokerRouter.handle, BrokerRouter.clientFrame] at hcall
      split at hcall
      · cases hcall
        cases hsent
      · rename_i key hconn
        obtain ⟨⟨next, sent'⟩, hframe, hcall⟩ := Option.bind_eq_some_iff.1 hcall
        cases hcall
        exact ⟨key, (ClientStep.heard (.of_eq hframe) sent hsent) ▸ hconn⟩
  | clientDisconnected conn =>
      cases hcall
      cases hsent
  | serverSpawned root language =>
      obtain ⟨⟨next, sent'⟩, hstart, hcall⟩ := Option.bind_eq_some_iff.1 hcall
      cases hcall
      cases StartStep.of_eq hstart <;> cases hsent
  | serverSpawnFailed root language reason =>
      cases hcall
      exact ⟨_, (h.languageAt _).flushed (errorResponse · reason) sent hsent⟩
  | serverFrame root language frame now =>
      simp only [BrokerRouter.handle, BrokerRouter.serverFrame] at hcall
      split at hcall
      · cases hcall
        cases hsent
      · rename_i state hstate
        obtain ⟨⟨next, sent'⟩, hframe, hcall⟩ := Option.bind_eq_some_iff.1 hcall
        cases hcall
        exact ⟨_, ((h.entries _ state hstate).touch now).heard (.of_eq hframe) sent hsent⟩
  | serverDisconnected root language =>
      have hevent : (BrokerEvent.serverDisconnected root language).Relayless := trivial
      rw [(h.tearDown hevent (.of_eq hcall)).2] at hsent
      cases hsent
  | idleSweep now idleTimeout order =>
      have hevent : (BrokerEvent.idleSweep now idleTimeout order).Relayless := trivial
      rw [(h.tearDownEntries hevent hcall).2] at hsent
      cases hsent

/-- What a response of a server comes to. -/
theorem EntrySound.response {id : Json} (h : EntrySound connections server key state)
    (hserver : ServerSound server) (hid : frame.find "id" = some id)
    (hmethod : frame.contains "method" = false)
    (hstep : ServerStep state root language frame state' actions) :
    toClients actions = [] ∨
      (∃ relay ∈ server.relays, responseId frame = some relay.brokerId ∧
        relay.brokerId ∉ server.routed ∧
        toClients actions = [(relay.connection, withId frame relay.originalId)]) ∨
      ∃ brokerId ∈ server.initializes, responseId frame = some brokerId ∧
        brokerId ∉ server.routed := by
  have hhandshake : state.isHandshakeAnswer frame = true →
      ∃ brokerId ∈ server.initializes, responseId frame = some brokerId ∧
        brokerId ∉ server.routed := by
    intro hanswer
    obtain ⟨hstatus, hresponse⟩ := responseId_of_isHandshakeAnswer hanswer
    obtain ⟨heq, -⟩ := h.awaiting hstatus
    have hsome : responseId frame = some state.handshakeBrokerId := by
      rw [LanguageState.isHandshakeAnswer, Bool.and_eq_true, beq_iff_eq] at hanswer
      rw [responseId, hmethod]
      exact hanswer.2
    rw [heq]
    exact ⟨_, List.mem_singleton.2 rfl, hsome, by simp⟩
  cases hstep with
  | accepted hanswer => exact Or.inr (Or.inr (hhandshake hanswer))
  | rejected hanswer => exact Or.inr (Or.inr (hhandshake hanswer))
  | @response id' pending _ hid' _ hpending =>
      obtain ⟨-, hmem, hnot⟩ := h.pending _ pending hpending
      refine Or.inr (Or.inl ⟨_, hmem, ?_, hnot, rfl⟩)
      exact responseId_of_pending hid' hmethod (hserver.positive _ (mem_ids_of_relay hmem))
  | unknown _ => exact Or.inl rfl
  | request _ _ => exact Or.inl rfl
  | notification _ hnone => cases hid.symm.trans hnone

theorem relay_eq_of_brokerId {relay relay' : Relay} (h : ServerSound server)
    (hrelay : relay ∈ server.relays) (hrelay' : relay' ∈ server.relays)
    (heq : relay.brokerId = relay'.brokerId) : relay = relay' := by
  have hids := h.ids
  rw [ServerWire.ids, List.append_assoc] at hids
  exact List.inj_on_of_nodup_map (List.nodup_append'.1 (List.nodup_append'.1 hids).2.1).1 hrelay
    hrelay' heq

theorem not_mem_initializes_of_relay {relay : Relay} (h : ServerSound server)
    (hrelay : relay ∈ server.relays) : relay.brokerId ∉ server.initializes := by
  have hids := h.ids
  rw [ServerWire.ids, List.append_assoc] at hids
  intro hmem
  refine (List.nodup_append'.1 hids).2.2 hmem (List.mem_append_left _ ?_)
  exact List.mem_map.2 ⟨relay, hrelay, rfl⟩

theorem WireSound.response {id : Json} (h : WireSound wire) (hid : frame.find "id" = some id)
    (hmethod : frame.contains "method" = false)
    (hcall : wire.router.serverFrame root language frame now = some (router', actions)) :
    toClients actions = [] ∨
      (∃ relay ∈ (wire.servers (makeKey root language)).relays,
        responseId frame = some relay.brokerId ∧
        relay.brokerId ∉ (wire.servers (makeKey root language)).routed ∧
        toClients actions = [(relay.connection, withId frame relay.originalId)]) ∨
      ∃ brokerId ∈ (wire.servers (makeKey root language)).initializes,
        responseId frame = some brokerId ∧
        brokerId ∉ (wire.servers (makeKey root language)).routed := by
  unfold BrokerRouter.serverFrame at hcall
  simp only at hcall
  split at hcall
  · cases hcall
    exact Or.inl rfl
  · rename_i state hstate
    obtain ⟨⟨next, sent⟩, hframe, hcall⟩ := Option.bind_eq_some_iff.1 hcall
    cases hcall
    exact ((h.entries _ state hstate).touch now).response (h.servers _) hid hmethod (.of_eq hframe)

theorem id_of_responseId {brokerId : Int} (h : responseId frame = some brokerId) :
    frame.contains "method" = false ∧ ∃ id, frame.find "id" = some id := by
  unfold responseId at h
  split at h
  · cases h
  · rename_i hmethod
    obtain ⟨id, hid, -⟩ := Option.bind_eq_some_iff.1 h
    exact ⟨Bool.not_eq_true _ ▸ hmethod, id, hid⟩

theorem WireSound.noCrosstalk (h : WireSound wire)
    (hcall : wire.router.handle event = some (router', actions)) :
    NoCrosstalk wire event actions where
  response root language frame now relay hevent hrelay hid := by
    subst hevent
    obtain ⟨hmethod, id, hfield⟩ := id_of_responseId hid
    rcases h.response hfield hmethod hcall with
      hnone | ⟨relay', hrelay', hid', hnot, hsent⟩ | ⟨brokerId, hmem, hid', -⟩
    · exact Or.inl hnone
    · rw [relay_eq_of_brokerId (h.servers _) hrelay hrelay' (Option.some.inj (hid.symm.trans hid'))]
      exact Or.inr ⟨hnot, hsent⟩
    · rw [← Option.some.inj (hid.symm.trans hid')] at hmem
      exact absurd hmem (not_mem_initializes_of_relay (h.servers _) hrelay)
  unrelated root language frame now hevent hid hmethod hother := by
    subst hevent
    obtain ⟨id, hfield⟩ := Option.isSome_iff_exists.1 hid
    rcases h.response hfield hmethod hcall with
      hnone | ⟨relay, hrelay, hid', -⟩ | hhandshake
    · exact Or.inl hnone
    · exact absurd hid' (hother relay hrelay)
    · exact Or.inr hhandshake
  present sent hsent := by
    obtain ⟨key, hconn⟩ := h.connected hcall sent hsent
    exact (h.present sent.1 key hconn).2
  handshake conn frame now root language sent hevent hsent hrelay := by
    subst hevent
    simp only [BrokerRouter.handle, BrokerRouter.clientFrame] at hcall
    split at hcall
    · cases hcall
      cases hsent
    · rename_i key hconn
      obtain ⟨⟨next, sent'⟩, hframe, hcall⟩ := Option.bind_eq_some_iff.1 hcall
      cases hcall
      have hentry := (h.languageAt key).touch now
      have hready : ∀ {frame}, { wire.router.languageAt key with lastActive := now }.status = .ready →
          BrokerAction.sendToServer root language sent =
            { wire.router.languageAt key with lastActive := now }.toServer frame →
          (wire.servers (makeKey root language)).initializes.length = 1 ∧
            (wire.servers (makeKey root language)).initializeds = 1 := by
        intro frame hstatus heq
        cases heq
        rw [hentry.key_eq (by rw [hstatus]; simp)]
        exact ⟨(hentry.ready hstatus).1, (hentry.ready hstatus).2.1⟩
      cases ClientStep.of_eq hframe with
      | answered _ _ => simp at hsent
      | queued _ _ _ hstart =>
          cases hstart with
          | waits _ => cases hsent
          | starts _ _ _ _ =>
              cases List.mem_singleton.1 hsent
              cases hrelay
      | initialized => cases hsent
      | refused => simp at hsent
      | request _ _ hstatus _ _ _ => exact hready hstatus (List.mem_singleton.1 hsent)
      | notification _ _ hstatus _ => exact hready hstatus (List.mem_singleton.1 hsent)

/-! ## Multiplexing -/

/-- In every run of the broker whose clients have ids of their own, the wires are untangled and the
next call keeps them so. -/
theorem broker_multiplexes {maxConcurrentServers : Int} {events : List BrokerEvent}
    (hrun : run BrokerWire.step (.create maxConcurrentServers) events = some wire) :
    Untangled wire ∧ ∀ event router actions, wire.router.handle event = some (router, actions) →
      NoCrosstalk wire event actions := by
  have hsound := Library.run_invariant WireSound (fun _ _ _ h hstep => h.step hstep)
    (wireSound_create maxConcurrentServers) hrun
  exact ⟨hsound.untangled, fun _ _ _ hcall => hsound.noCrosstalk hcall⟩

/-- A client whose request comes back, and another that has gone by then. -/
def twoClients : List BrokerEvent :=
  [.clientAttached 1 "/a" "cpp" ["clangd"] 0 [],
    .serverSpawned "/a" "cpp",
    .clientFrame 1 (initializeRequest 7 (.object [])) 1,
    .serverFrame "/a" "cpp" (successResponse (.integer 1) .null) 2,
    .clientFrame 1 initializedNotification 3,
    .clientAttached 2 "/a" "cpp" ["clangd"] 4 [],
    .clientFrame 2 (initializeRequest 7 (.object [])) 5,
    .clientFrame 2 initializedNotification 6,
    .clientFrame 1 (shutdownRequest 8) 7,
    .clientFrame 2 (shutdownRequest 8) 8,
    .clientDisconnected 2,
    .serverFrame "/a" "cpp" (successResponse (.integer 3) .null) 9,
    .serverFrame "/a" "cpp" (successResponse (.integer 2) .null) 10]

theorem two_clients_multiplexed :
    ∃ wire, run BrokerWire.step (.create 1) twoClients = some wire ∧ Untangled wire ∧
      ∀ event router actions, wire.router.handle event = some (router, actions) →
        NoCrosstalk wire event actions := by
  have hsome : (run BrokerWire.step (.create 1) twoClients).isSome = true := rfl
  obtain ⟨wire, hrun⟩ := Option.isSome_iff_exists.1 hsome
  exact ⟨wire, hrun, broker_multiplexes hrun⟩

/-- A server whose only client goes before it has said anything. -/
theorem spawned_without_initialize :
    ¬ ∀ maxConcurrentServers events wire,
      run BrokerWire.step (.create maxConcurrentServers) events = some wire →
      ∀ root language, .serverSpawned root language ∈ events →
        (wire.servers (makeKey root language)).initializes.length = 1 := by
  intro h
  have hserver := h 1 [.clientAttached 1 "/a" "cpp" ["clangd"] 0 [], .serverSpawned "/a" "cpp",
    .clientDisconnected 1] _ rfl "/a" "cpp" (by simp)
  cases hserver

end Ned.Editor.Lsp
