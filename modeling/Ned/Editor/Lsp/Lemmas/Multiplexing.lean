import Ned.Editor.Lsp.Lemmas.BrokerWire

/-!
# What each call puts on the wires

Every call of the router keeps the wires sound, whatever it comes after.
-/

namespace Ned.Editor.Lsp

open Library (assign erase lookup_assign_self lookup_assign_of_ne lookup_erase_self
  lookup_erase_of_ne)
open Protocol (Json)

variable {wire wire' : BrokerWire} {router router' : BrokerRouter} {state state' : LanguageState}
  {server : ServerWire} {actions : List BrokerAction} {conn : ConnectionId} {frame : Json}
  {root language key : String} {argv order : List String} {now idleTimeout : Int}
  {event : BrokerEvent} {connections : ConnectionId → Option String}
  {servers : String → ServerWire}

/-! ## Frames to servers -/

theorem serve_sendToServer (hkey : makeKey root language = key) (event : BrokerEvent)
    (servers : String → ServerWire) (frame : Json) :
    serve event servers (.sendToServer root language frame) =
      Function.update servers key ((servers key).receive event frame) := by
  rw [← hkey]
  rfl

theorem receive_initializeRequest (server : ServerWire) (brokerId : Int) (params : Json) :
    server.receive event (initializeRequest brokerId params) =
      { server with initializes := brokerId :: server.initializes } := rfl

theorem idOf_withId {id : Json} (hid : frame.find "id" = some id) (brokerId : Int) :
    idOf (withId frame (.integer brokerId)) = some brokerId := by
  rw [idOf, find_withId hid]
  rfl

theorem receive_relay {id : Json} (server : ServerWire) (hid : frame.find "id" = some id)
    (hmethod : (frame.find "method").bind Json.asString ≠ some "initialize")
    (hinitialized : (frame.find "method").bind Json.asString ≠ some "initialized")
    (brokerId : Int) :
    server.receive (.clientFrame conn frame now) (withId frame (.integer brokerId)) =
      { server with relays := ⟨brokerId, conn, id⟩ :: server.relays } := by
  have hfield := find_method_withId frame (.integer brokerId)
  have hrequest : initializeId (withId frame (.integer brokerId)) = none := by
    refine initializeId_of_method ?_
    rw [hfield]
    exact hmethod
  have hnotification : methodOf (withId frame (.integer brokerId)) ≠ some "initialized" := by
    rw [methodOf, hfield]
    exact hinitialized
  simp only [ServerWire.receive, hrequest, if_neg hnotification, idOf_withId hid, hid]

theorem receive_notification (server : ServerWire) (hid : frame.find "id" = none)
    (hinitialized : (frame.find "method").bind Json.asString ≠ some "initialized") :
    server.receive (.clientFrame conn frame now) frame = server := by
  have hnone : idOf frame = none := by rw [idOf, hid]; rfl
  have hnotification : methodOf frame ≠ some "initialized" := hinitialized
  simp only [ServerWire.receive, initializeId_of_no_id hid, if_neg hnotification, hnone]

theorem receive_acknowledgement (server : ServerWire) (id : Json) (frame : Json) :
    server.receive (.serverFrame root language frame now) (successResponse id .null) = server := rfl

/-! ## One entry -/

theorem EntrySound.touch (h : EntrySound connections server key state) (now : Int) :
    EntrySound connections server key { state with lastActive := now } :=
  ⟨h.key_eq, h.positive, h.attached, h.queued, h.pending, h.spawning, h.awaiting, h.ready⟩

theorem unrouted_of_no_relays (h : server.relays = []) (conn : ConnectionId) :
    server.unrouted conn = [] := by
  rw [ServerWire.unrouted, h]
  rfl

theorem queuedOf_append (state : LanguageState) (queued : QueuedInitialize) (conn : ConnectionId) :
    { state with
      pendingInitializeRequests := state.pendingInitializeRequests ++ [queued] }.queuedOf conn =
      state.queuedOf conn ++ if queued.connection = conn then [queued.originalId] else [] := by
  by_cases hconn : queued.connection = conn <;>
    simp [LanguageState.queuedOf, List.filter_append, hconn]

theorem serverSound_initializing {brokerId : Int} (hpositive : 0 < brokerId) :
    ServerSound { initializes := [brokerId] } := by
  constructor <;> simp [ServerWire.ids, hpositive]

theorem relay_ids_perm (server : ServerWire) (brokerId : Int) (conn : ConnectionId) (id : Json) :
    ({ server with relays := ⟨brokerId, conn, id⟩ :: server.relays } : ServerWire).ids.Perm
      (brokerId :: server.ids) := by
  simp only [ServerWire.ids, List.map_cons, List.append_assoc, List.cons_append]
  exact List.perm_middle

theorem unrouted_relay {brokerId : Int} {id : Json} (hnot : brokerId ∉ server.routed)
    (conn' : ConnectionId) :
    ({ server with relays := ⟨brokerId, conn, id⟩ :: server.relays } : ServerWire).unrouted conn' =
      (if conn = conn' then [id] else []) ++ server.unrouted conn' := by
  by_cases hconn : conn = conn' <;> simp [ServerWire.unrouted, hconn, hnot]

theorem ServerSound.relay {brokerId : Int} {id : Json} (h : ServerSound server)
    (hpositive : 0 < brokerId) (hfresh : ∀ issued ∈ server.ids, issued < brokerId) :
    ServerSound { server with relays := ⟨brokerId, conn, id⟩ :: server.relays } := by
  have hperm := relay_ids_perm server brokerId conn id
  have hnot : brokerId ∉ server.ids := fun hmem => Int.lt_irrefl _ (hfresh brokerId hmem)
  refine ⟨hperm.nodup_iff.2 (List.nodup_cons.2 ⟨hnot, h.ids⟩), fun issued hmem => ?_,
    h.initializeOnce, h.initializedOnce, h.routed, fun issued hmem => ?_⟩
  · rcases List.mem_cons.1 (hperm.mem_iff.1 hmem) with rfl | hmem
    · exact hpositive
    · exact h.positive issued hmem
  · exact hperm.mem_iff.2 (List.mem_cons_of_mem _ (h.routed_mem issued hmem))

theorem WireSound.startStep (h : WireSound wire) (hstep : StartStep state state' actions)
    (hsettled : event.Settled)
    (hrouted : ∀ key, event.routedBy actions key = [])
    (hentry : EntrySound wire.router.connectionKey (wire.servers key) key state)
    (hflow : ∀ conn, (state.queuedOf conn).Subperm
      (event.askedBy conn ++ (wire.router.languageAt key).queuedOf conn)) :
    WireSound (wire.record (wire.router.setLanguage key state') event actions) := by
  have hservers : ∀ servers, actions.foldl (serve event) wire.servers = servers →
      (wire.record (wire.router.setLanguage key state') event actions).servers = servers := by
    intro servers heq
    rw [← heq]
    simp only [BrokerWire.record, hrouted, List.nil_append]
  cases hstep with
  | waits _ =>
      have hsame := hservers wire.servers rfl
      refine h.setLanguage hsettled (fun key' _ => congrFun hsame key') (congrFun hsame key) hentry
        (h.servers key) (h.relays key) (fun conn _ => ?_) fun _ _ => rfl
      rw [← List.append_assoc, ← List.append_assoc]
      exact (List.subperm_append_right _).2 (hflow conn)
  | @starts first rest _ hstatus _ hlt =>
      have hkey := hentry.key_eq (by rw [hstatus]; simp)
      have hnone := hentry.spawning hstatus
      have hserve := hservers _ (serve_sendToServer hkey event wire.servers
        (initializeRequest state.nextBrokerId first.params))
      refine h.setLanguage hsettled (fun key' hne => ?_) ?_ ?_
        (serverSound_initializing hentry.positive) (fun relay hrelay => ?_) (fun conn _ => ?_)
        fun _ _ => rfl
      · exact (congrFun hserve key').trans (Function.update_of_ne hne _ _)
      · refine (congrFun hserve key).trans ((Function.update_self ..).trans ?_)
        rw [receive_initializeRequest, hnone]
      · refine ⟨fun _ => hkey, ?_, hentry.attached, hentry.queued, fun brokerId pending hpending => ?_,
          by simp, fun _ => ⟨rfl, ?_⟩, by simp⟩
        · exact Int.lt_trans hentry.positive (Int.lt_succ _)
        · have hmem := (hentry.pending brokerId pending hpending).2.1
          rw [hnone] at hmem
          cases hmem
        · exact Int.lt_succ _
      · cases hrelay
      · rw [hnone, unrouted_of_no_relays rfl, unrouted_of_no_relays rfl, List.append_nil,
          List.append_nil]
        exact hflow conn

theorem WireSound.clientStep (h : WireSound wire)
    (hconn : wire.router.connectionKey conn = some key)
    (hentry : EntrySound wire.router.connectionKey (wire.servers key) key state)
    (hqueue : ∀ conn', state.queuedOf conn' = (wire.router.languageAt key).queuedOf conn')
    (hstep : ClientStep state conn frame state' actions) :
    WireSound (wire.record (wire.router.setLanguage key state') (.clientFrame conn frame now)
      actions) := by
  have hnobody : ∀ conn', wire.router.connectionKey conn' ≠ some key → conn ≠ conn' := by
    rintro conn' hother rfl
    exact hother hconn
  -- a frame that no server is sent
  have hquiet : ∀ {state' actions}, actions.foldl (serve (.clientFrame conn frame now)) wire.servers =
        wire.servers → EntrySound wire.router.connectionKey (wire.servers key) key state' →
      (∀ conn', conn ≠ conn' → answersTo conn' actions = []) →
      (∀ conn', (answersTo conn' actions ++ state'.queuedOf conn').Subperm
        (BrokerEvent.askedBy conn' (.clientFrame conn frame now) ++ state.queuedOf conn')) →
      WireSound (wire.record (wire.router.setLanguage key state') (.clientFrame conn frame now)
        actions) := by
    intro state' actions hservers hnext hsilent hflow
    refine h.setLanguage trivial (fun key' _ => congrFun hservers key') (congrFun hservers key) hnext
      (h.servers key) (h.relays key) (fun conn' _ => ?_) fun conn' hother =>
        hsilent conn' (hnobody conn' hother)
    rw [← List.append_assoc, ← List.append_assoc, ← hqueue]
    exact (List.subperm_append_right _).2 (hflow conn')
  have hasked : ∀ {id}, frame.find "id" = some id → ∀ conn',
      BrokerEvent.askedBy conn' (.clientFrame conn frame now) = if conn = conn' then [id] else [] := by
    intro id hid conn'
    rw [BrokerEvent.askedBy, hid]
    rfl
  cases hstep with
  | answered hid hstatus =>
      refine hquiet rfl hentry (fun conn' hne => ?_) fun conn' => ?_
      · rw [answersTo_singleton (find_id_initializeResponse _ _), if_neg hne]
      · rw [answersTo_singleton (find_id_initializeResponse _ _), hasked hid]
  | @queued id params _ _ hid hready hfailed hstart =>
      have hflow : ∀ conn', ({ state with pendingInitializeRequests :=
          state.pendingInitializeRequests ++ [⟨conn, id, params⟩] } : LanguageState).queuedOf conn'
          |>.Subperm (BrokerEvent.askedBy conn' (.clientFrame conn frame now) ++
            (wire.router.languageAt key).queuedOf conn') := by
        intro conn'
        rw [queuedOf_append, hasked hid, hqueue]
        exact List.perm_append_comm.subperm
      refine h.startStep hstart trivial (fun _ => rfl) ⟨hentry.key_eq, hentry.positive, hentry.attached, ?_,
        hentry.pending, hentry.spawning, hentry.awaiting, hentry.ready⟩ hflow
      intro queued hmem
      rcases List.mem_append.1 hmem with hmem | hmem
      · exact hentry.queued queued hmem
      · rw [List.mem_singleton.1 hmem]
        exact hconn
  | initialized =>
      refine hquiet rfl ?_ (fun _ _ => rfl) fun conn' => ?_
      · unfold LanguageState.clientInitialized
        split
        · refine ⟨hentry.key_eq, hentry.positive, fun conn' hmem => ?_, hentry.queued, hentry.pending,
            hentry.spawning, hentry.awaiting, hentry.ready⟩
          rcases List.mem_insert_iff.1 hmem with rfl | hmem
          · exact hconn
          · exact hentry.attached conn' hmem
        · exact hentry
      · have hsame : (state.clientInitialized conn).queuedOf conn' = state.queuedOf conn' := by
          unfold LanguageState.clientInitialized
          split <;> rfl
        rw [hsame]
        exact (List.sublist_append_right _ _).subperm
  | refused => exact hquiet rfl hentry (fun _ _ => rfl) fun conn' =>
      (List.sublist_append_right _ _).subperm
  | @request id hid hattached hready hlt hmethod hinitialized =>
      have hkey := hentry.key_eq (by rw [hready]; simp)
      obtain ⟨honce, honce', hshutdowns, hfresh⟩ := hentry.ready hready
      have hunrouted : state.nextBrokerId ∉ (wire.servers key).routed := by
        intro hmem
        exact Int.lt_irrefl _ (hfresh _ ((h.servers key).routed_mem _ hmem))
      have hserve := serve_sendToServer hkey (.clientFrame conn frame now) wire.servers
        (withId frame (.integer state.nextBrokerId))
      rw [receive_relay _ hid hmethod hinitialized] at hserve
      refine h.setLanguage trivial (fun key' hne => ?_)
        ((congrFun hserve key).trans (Function.update_self ..)) ?_
        ((h.servers key).relay hentry.positive hfresh) (fun relay hrelay => ?_) (fun conn' _ => ?_)
        fun _ _ => rfl
      · exact (congrFun hserve key').trans (Function.update_of_ne hne _ _)
      · refine ⟨fun _ => hkey, Int.lt_trans hentry.positive (Int.lt_succ _), hentry.attached,
          hentry.queued, fun brokerId pending hpending => ?_, fun hstatus => ?_, fun hstatus => ?_,
          fun _ => ⟨honce, honce', hshutdowns, fun brokerId hmem => ?_⟩⟩
        · by_cases heq : brokerId = state.nextBrokerId
          · subst heq
            simp only [Function.update_self, Option.some.injEq] at hpending
            subst hpending
            exact ⟨hconn, List.mem_cons_self, hunrouted⟩
          · simp only [Function.update_of_ne heq] at hpending
            obtain ⟨hknown, hmem, hnot⟩ := hentry.pending brokerId pending hpending
            exact ⟨hknown, List.mem_cons_of_mem _ hmem, hnot⟩
        · cases hready.symm.trans hstatus
        · cases hready.symm.trans hstatus
        · rcases List.mem_cons.1 ((relay_ids_perm _ _ _ _).mem_iff.1 hmem) with rfl | hmem
          · exact Int.lt_succ _
          · exact Int.lt_trans (hfresh brokerId hmem) (Int.lt_succ _)
      · rcases List.mem_cons.1 hrelay with rfl | hrelay
        · exact (h.present conn key hconn).1
        · exact h.relays key relay hrelay
      · rw [unrouted_relay hunrouted, hasked hid, ← hqueue]
        exact (List.perm_append_comm_assoc (state.queuedOf conn') _ _).subperm
  | notification hid hattached hready hinitialized =>
      have hkey := hentry.key_eq (by rw [hready]; simp)
      refine hquiet ?_ hentry (fun _ _ => rfl) fun conn' => (List.sublist_append_right _ _).subperm
      refine (serve_sendToServer hkey _ _ _).trans ?_
      rw [receive_notification _ hid hinitialized, Function.update_eq_self]

/-! ## Calls -/

theorem WireSound.clientFrame (h : WireSound wire)
    (hcall : wire.router.clientFrame conn frame now = some (router', actions)) :
    WireSound (wire.record router' (.clientFrame conn frame now) actions) := by
  unfold BrokerRouter.clientFrame at hcall
  split at hcall
  · cases hcall
    refine ⟨h.entries, h.servers, h.relays, h.present, h.gone, fun conn' => ?_⟩
    exact subperm_flow (h.told conn') (List.sublist_append_right _ _).subperm
  · rename_i key hconn
    obtain ⟨⟨next, sent⟩, hframe, hcall⟩ := Option.bind_eq_some_iff.1 hcall
    cases hcall
    exact h.clientStep hconn ((h.languageAt key).touch now) (fun _ => rfl) (.of_eq hframe)

theorem WireSound.serverSpawned (h : WireSound wire)
    (hcall : wire.router.serverSpawned root language = some (router', actions)) :
    WireSound (wire.record router' (.serverSpawned root language) actions) := by
  obtain ⟨⟨next, sent⟩, hstart, hcall⟩ := Option.bind_eq_some_iff.1 hcall
  cases hcall
  obtain ⟨-, hpositive, hattached, hqueued, hpending, hspawning, hawaiting, hready⟩ :=
    h.languageAt (makeKey root language)
  exact h.startStep (.of_eq hstart) trivial (fun _ => rfl) ⟨fun _ => rfl, hpositive, hattached, hqueued,
    hpending, hspawning, hawaiting, hready⟩ fun conn => List.Subperm.refl _

theorem foldl_serve_clients {α : Type} (event : BrokerEvent) (servers : String → ServerWire)
    (frames : List α) (conn : α → ConnectionId) (frame : α → Json) :
    (frames.map fun sent => BrokerAction.sendToClient (conn sent) (frame sent)).foldl (serve event)
      servers = servers := by
  induction frames with
  | nil => rfl
  | cons sent frames ih => exact ih

theorem EntrySound.queuedOf_of_ne (h : EntrySound connections server key state)
    (hconn : connections conn ≠ some key) : state.queuedOf conn = [] := by
  rw [LanguageState.queuedOf, List.map_eq_nil_iff, List.filter_eq_nil_iff]
  intro queued hmem heq
  rw [decide_eq_true_eq] at heq
  exact hconn (heq ▸ h.queued queued hmem)

theorem WireSound.serverSpawnFailed {reason : String} (h : WireSound wire)
    (hcall : wire.router.serverSpawnFailed root language reason = (router', actions)) :
    WireSound (wire.record router' (.serverSpawnFailed root language reason) actions) := by
  cases hcall
  have hentry := h.languageAt (makeKey root language)
  obtain ⟨-, hpositive, hattached, hqueued, hpending, -, -, -⟩ := hentry
  have hservers := foldl_serve_clients (.serverSpawnFailed root language reason) wire.servers
    (wire.router.languageAt (makeKey root language)).pendingInitializeRequests (·.connection)
    fun queued => errorResponse queued.originalId reason
  have hanswers : ∀ conn, answersTo conn _ = _ :=
    answersTo_flush (wire.router.languageAt (makeKey root language))
      (errorResponse · reason) fun _ => rfl
  refine h.setLanguage trivial (fun key' _ => congrFun hservers key') (congrFun hservers _)
    ⟨fun _ => rfl, hpositive, hattached, by simp, hpending, by simp, by simp, by simp⟩
    (h.servers _) (h.relays _) (fun conn _ => ?_) fun conn hconn => ?_
  · exact (List.Perm.of_eq (congrArg (· ++ (wire.servers _).unrouted conn) (hanswers conn))).subperm
  · exact (hanswers conn).trans ((h.languageAt _).queuedOf_of_ne hconn)

/-! ## Frames of servers -/

theorem unrouted_routed {relay : Relay} (hids : (server.relays.map (·.brokerId)).Nodup)
    (hmem : relay ∈ server.relays) (hnot : relay.brokerId ∉ server.routed) (conn : ConnectionId) :
    (server.unrouted conn).Perm
      ((if relay.connection = conn then [relay.originalId] else []) ++
        ({ server with routed := relay.brokerId :: server.routed } : ServerWire).unrouted conn) := by
  have hsplit : ∀ other : Relay, (other.connection = conn &&
      decide (other.brokerId ∉ relay.brokerId :: server.routed)) =
        (other.connection = conn && decide (other.brokerId ∉ server.routed) &&
          decide (other.brokerId ≠ relay.brokerId)) := by
    intro other
    by_cases heq : other.brokerId = relay.brokerId <;> simp [heq]
  unfold ServerWire.unrouted
  simp only [hsplit]
  by_cases hconn : relay.connection = conn
  · rw [if_pos hconn]
    exact (Library.filter_perm_cons hids hmem (by simp [hconn, hnot])).map _
  · rw [if_neg hconn, List.nil_append]
    refine List.Perm.of_eq (congrArg _ (List.filter_congr fun other hother => ?_))
    by_cases heq : other.brokerId = relay.brokerId
    · rw [List.inj_on_of_nodup_map hids hother hmem heq]
      simp [hconn]
    · simp [heq]


theorem routedBy_of_silent (h : toClients actions = []) (key : String) :
    event.routedBy actions key = [] := by
  cases event <;> simp [BrokerEvent.routedBy, h]

theorem routedBy_of_no_response (h : responseId frame = none) (key : String) :
    BrokerEvent.routedBy actions key (.serverFrame root language frame now) = [] := by
  simp [BrokerEvent.routedBy, h]

theorem routedBy_of_ne (hne : key ≠ makeKey root language) :
    BrokerEvent.routedBy actions key (.serverFrame root language frame now) = [] := by
  simp [BrokerEvent.routedBy, hne.symm]

theorem responseId_of_isHandshakeAnswer (h : state.isHandshakeAnswer frame = true) :
    state.status = .awaitingRealHandshake ∧
      (responseId frame = none ∨ responseId frame = some state.handshakeBrokerId) := by
  rw [LanguageState.isHandshakeAnswer, Bool.and_eq_true, decide_eq_true_eq, beq_iff_eq] at h
  refine ⟨h.1, ?_⟩
  unfold responseId
  split
  · exact Or.inl rfl
  · exact Or.inr h.2

theorem responseId_of_pending {id : Json} (hid : frame.find "id" = some id)
    (hmethod : frame.contains "method" = false) (hpositive : 0 < (asInt id).getD (-1)) :
    responseId frame = some ((asInt id).getD (-1)) := by
  rw [responseId, hmethod, hid]
  cases hint : asInt id with
  | none => simp [hint] at hpositive
  | some brokerId => simp [hint]

theorem mem_ids_of_relay {relay : Relay} (h : relay ∈ server.relays) :
    relay.brokerId ∈ server.ids := by
  refine List.mem_append_left _ (List.mem_append_right _ ?_)
  exact List.mem_map.2 ⟨relay, h, rfl⟩

theorem serverSound_answered {brokerId : Int} {routed : List Int} (hpositive : 0 < brokerId)
    (hrouted : routed = [] ∨ routed = [brokerId]) {initializeds : Nat} (hle : initializeds ≤ 1) :
    ServerSound { initializes := [brokerId], initializeds := initializeds, routed := routed } := by
  rcases hrouted with rfl | rfl <;> constructor <;> simp [ServerWire.ids, hpositive, hle]

theorem WireSound.handshakeAnswered (h : WireSound wire) (answer : Json → Json)
    (told : List BrokerAction) (initializeds : Nat) (hkey : makeKey root language = key)
    (hentry : EntrySound wire.router.connectionKey (wire.servers key) key state)
    (hqueue : ∀ conn, state.queuedOf conn = (wire.router.languageAt key).queuedOf conn)
    (hhandshake : state.isHandshakeAnswer frame = true)
    (hid : ∀ id, (answer id).find "id" = some id) (htold : toClients told = [])
    (hle : initializeds ≤ 1)
    (hserve : ∀ servers, (told ++ state.pendingInitializeRequests.map fun queued =>
        BrokerAction.sendToClient queued.connection (answer queued.originalId)).foldl
          (serve (.serverFrame root language frame now)) servers =
      Function.update servers key
        { servers key with initializeds := (servers key).initializeds + initializeds })
    (hempty : state'.pendingInitializeRequests = [])
    (hnext : ∀ routed, EntrySound wire.router.connectionKey
      { initializes := [state.handshakeBrokerId], initializeds := initializeds, routed := routed }
      key state') :
    WireSound (wire.record (wire.router.setLanguage key state')
      (.serverFrame root language frame now)
      (told ++ state.pendingInitializeRequests.map fun queued =>
        BrokerAction.sendToClient queued.connection (answer queued.originalId))) := by
  obtain ⟨hstatus, hresponse⟩ := responseId_of_isHandshakeAnswer hhandshake
  obtain ⟨hserver, hlt⟩ := hentry.awaiting hstatus
  have hanswers : ∀ conn, answersTo conn (told ++ state.pendingInitializeRequests.map fun queued =>
      BrokerAction.sendToClient queued.connection (answer queued.originalId)) =
      state.queuedOf conn := by
    intro conn
    rw [answersTo_append, answersTo_of_silent htold, answersTo_flush state answer hid, List.nil_append]
  generalize hactions : (told ++ state.pendingInitializeRequests.map fun queued =>
    BrokerAction.sendToClient queued.connection (answer queued.originalId)) = actions at *
  have hrouted : BrokerEvent.routedBy actions key (.serverFrame root language frame now) = [] ∨
      BrokerEvent.routedBy actions key (.serverFrame root language frame now) =
        [state.handshakeBrokerId] := by
    simp only [BrokerEvent.routedBy]
    split
    · rcases hresponse with hnone | hsome
      · exact Or.inl (by rw [hnone]; rfl)
      · exact Or.inr (by rw [hsome]; rfl)
    · exact Or.inl rfl
  have hpositive : 0 < state.handshakeBrokerId := by
    refine (h.servers key).positive _ ?_
    rw [hserver]
    exact List.mem_singleton.2 rfl
  refine h.setLanguage trivial (fun key' hne => ?_) ?_ (hnext _)
    (serverSound_answered hpositive hrouted hle) (fun relay hrelay => ?_) (fun conn _ => ?_)
    fun conn hconn => ?_
  · simp only [BrokerWire.record, hserve]
    rw [Function.update_of_ne hne, routedBy_of_ne (hkey ▸ hne), List.nil_append]
  · simp only [BrokerWire.record, hserve, Function.update_self, hserver, Nat.zero_add,
      List.append_nil]
  · cases hrelay
  · rw [hanswers, ← hqueue, hserver, unrouted_of_no_relays rfl, unrouted_of_no_relays rfl,
      LanguageState.queuedOf, LanguageState.queuedOf, hempty]
    simp only [List.filter_nil, List.map_nil, List.append_nil]
    exact (List.sublist_append_right _ _).subperm
  · rw [hanswers]
    exact hentry.queuedOf_of_ne hconn

theorem WireSound.serverStep (h : WireSound wire) (hkey : makeKey root language = key)
    (hentry : EntrySound wire.router.connectionKey (wire.servers key) key state)
    (hqueue : ∀ conn, state.queuedOf conn = (wire.router.languageAt key).queuedOf conn)
    (hstep : ServerStep state root language frame state' actions) :
    WireSound (wire.record (wire.router.setLanguage key state')
      (.serverFrame root language frame now) actions) := by
  -- a frame of which no server hears, and which answers nothing
  have hquiet : ∀ {actions}, (∀ key, BrokerEvent.routedBy actions key
        (.serverFrame root language frame now) = []) →
      actions.foldl (serve (.serverFrame root language frame now)) wire.servers = wire.servers →
      (∀ conn, answersTo conn actions = []) →
      WireSound (wire.record (wire.router.setLanguage key state)
        (.serverFrame root language frame now) actions) := by
    intro actions hrouted hservers hsilent
    have hsame : (wire.record (wire.router.setLanguage key state)
        (.serverFrame root language frame now) actions).servers = wire.servers := by
      simp only [BrokerWire.record, hrouted, List.nil_append]
      exact hservers
    refine h.setLanguage trivial (fun key' _ => congrFun hsame key') (congrFun hsame key) hentry
      (h.servers key) (h.relays key) (fun conn _ => ?_) fun conn _ => hsilent conn
    rw [hsilent, hqueue]
    exact List.Subperm.refl _
  have hclients : ∀ (answer : Json → Json) (servers : String → ServerWire),
      (state.pendingInitializeRequests.map fun queued =>
        BrokerAction.sendToClient queued.connection (answer queued.originalId)).foldl
          (serve (.serverFrame root language frame now)) servers = servers :=
    fun answer servers => foldl_serve_clients _ _ _ _ _
  cases hstep with
  | @accepted result hanswer =>
      obtain ⟨hstatus, -⟩ := responseId_of_isHandshakeAnswer hanswer
      obtain ⟨hserver, hlt⟩ := hentry.awaiting hstatus
      refine h.handshakeAnswered (successResponse · result)
        [.sendToServer root language initializedNotification] 1 hkey hentry hqueue hanswer
        (fun _ => rfl) rfl (Nat.le_refl 1) (fun servers => ?_) rfl fun routed => ?_
      · rw [List.foldl_append, List.foldl_cons, List.foldl_nil, serve_sendToServer hkey]
        exact hclients (successResponse · result) _
      · refine ⟨fun _ => hentry.key_eq (by rw [hstatus]; simp), hentry.positive, hentry.attached,
          by simp, fun brokerId pending hpending => ?_, by simp, by simp, fun _ => ?_⟩
        · have hmem := (hentry.pending brokerId pending hpending).2.1
          rw [hserver] at hmem
          cases hmem
        · refine ⟨rfl, rfl, rfl, fun brokerId hmem => ?_⟩
          rw [List.mem_singleton.1 hmem]
          exact hlt
  | @rejected reason hanswer =>
      obtain ⟨hstatus, -⟩ := responseId_of_isHandshakeAnswer hanswer
      obtain ⟨hserver, hlt⟩ := hentry.awaiting hstatus
      refine h.handshakeAnswered (errorResponse · reason) [] 0 hkey hentry hqueue hanswer
        (fun _ => rfl) rfl (Nat.zero_le 1) (fun servers => ?_) rfl fun routed => ?_
      · refine (hclients (errorResponse · reason) servers).trans ?_
        exact (Function.update_eq_self _ _).symm
      · refine ⟨fun _ => hentry.key_eq (by rw [hstatus]; simp), hentry.positive, hentry.attached,
          by simp, fun brokerId pending hpending => ?_, by simp, by simp, by simp⟩
        have hmem := (hentry.pending brokerId pending hpending).2.1
        rw [hserver] at hmem
        cases hmem
  | @response id pending hnot hid hmethod hpending =>
      obtain ⟨hconn, hmem, hunrouted⟩ := hentry.pending _ pending hpending
      have hresponse := responseId_of_pending hid hmethod
        ((h.servers key).positive _ (mem_ids_of_relay hmem))
      generalize (asInt id).getD (-1) = brokerId at *
      have hrouted : BrokerEvent.routedBy
          [.sendToClient pending.connection (withId frame pending.originalId)] key
          (.serverFrame root language frame now) = [brokerId] := by
        simp [BrokerEvent.routedBy, toClients, BrokerAction.toClient, hkey, hresponse]
      have hnever : ∀ {initializes : List Int}, wire.servers key ≠ { initializes := initializes } := by
        intro initializes heq
        rw [heq] at hmem
        cases hmem
      have hids := (h.servers key).ids
      rw [ServerWire.ids, List.append_assoc] at hids
      have hserver : ∀ router, (wire.record router (.serverFrame root language frame now)
          [.sendToClient pending.connection (withId frame pending.originalId)]).servers key =
          { wire.servers key with routed := brokerId :: (wire.servers key).routed } := by
        intro router
        change ({ wire.servers key with routed := _ ++ _ } : ServerWire) = _
        rw [hrouted]
        rfl
      refine h.setLanguage trivial (fun key' hne => ?_) (hserver _) ?_ ?_ (h.relays key)
        (fun conn _ => ?_) fun conn hother => ?_
      · change ({ wire.servers key' with routed := _ ++ _ } : ServerWire) = _
        rw [routedBy_of_ne (hkey ▸ hne)]
        rfl
      · refine ⟨hentry.key_eq, hentry.positive, hentry.attached, hentry.queued,
          fun other waiting hother => ?_, fun hstatus => absurd (hentry.spawning hstatus) hnever,
          fun hstatus => absurd (hentry.awaiting hstatus).1 hnever, hentry.ready⟩
        have hne : other ≠ brokerId := by
          rintro rfl
          simp at hother
        simp only [Function.update_of_ne hne] at hother
        obtain ⟨hknown, hrelay, hnot⟩ := hentry.pending other waiting hother
        exact ⟨hknown, hrelay, fun hmem => (List.mem_cons.1 hmem).elim hne hnot⟩
      · refine ⟨(h.servers key).ids, (h.servers key).positive, (h.servers key).initializeOnce,
          (h.servers key).initializedOnce, List.nodup_cons.2 ⟨hunrouted, (h.servers key).routed⟩,
          List.forall_mem_cons.2 ⟨mem_ids_of_relay hmem, (h.servers key).routed_mem⟩⟩
      · rw [answersTo_singleton (find_withId hid)]
        have hflow := unrouted_routed (List.nodup_append'.1 (List.nodup_append'.1 hids).2.1).1 hmem
          hunrouted conn
        refine List.Perm.subperm ?_
        refine (List.perm_append_comm_assoc _ _ _).trans ?_
        exact (List.Perm.of_eq (hqueue conn)).append hflow.symm
      · refine (answersTo_singleton (find_withId hid) _ conn).trans (if_neg ?_)
        rintro rfl
        exact hother hconn
  | unknown _ => exact hquiet (routedBy_of_silent rfl) rfl fun _ => rfl
  | @request id hnot hid =>
      refine hquiet (routedBy_of_silent rfl) ?_ fun _ => rfl
      refine (serve_sendToServer hkey _ _ _).trans ?_
      rw [receive_acknowledgement _ _ frame, Function.update_eq_self]
  | notification hnot hid =>
      refine hquiet (routedBy_of_no_response ?_) ?_ (answersTo_broadcast hid state.attached)
      · simp [responseId, hid]
      · exact foldl_serve_clients _ _ _ _ _

theorem WireSound.serverFrame (h : WireSound wire)
    (hcall : wire.router.serverFrame root language frame now = some (router', actions)) :
    WireSound (wire.record router' (.serverFrame root language frame now) actions) := by
  unfold BrokerRouter.serverFrame at hcall
  simp only at hcall
  split at hcall
  · cases hcall
    have hrecord : wire.record wire.router (.serverFrame root language frame now) [] = wire := by
      simp only [BrokerWire.record, routedBy_of_silent (show toClients [] = [] from rfl),
        List.nil_append]
      rfl
    rw [hrecord]
    exact h
  · rename_i state hstate
    obtain ⟨⟨next, sent⟩, hframe, hcall⟩ := Option.bind_eq_some_iff.1 hcall
    cases hcall
    refine h.serverStep rfl ((h.entries _ state hstate).touch now) (fun conn => ?_) (.of_eq hframe)
    rw [languageAt_eq hstate]
    rfl

/-! ## Clients that go -/

theorem queuedOf_forget {conn' : ConnectionId} (hne : conn' ≠ conn) :
    (state.forget conn).queuedOf conn' = state.queuedOf conn' := by
  simp only [LanguageState.queuedOf, LanguageState.forget, List.filter_filter]
  refine congrArg _ (List.filter_congr fun queued _ => ?_)
  by_cases heq : queued.connection = conn' <;> simp [heq, hne]

theorem WireSound.clientDisconnected (h : WireSound wire) :
    WireSound (wire.record (wire.router.clientDisconnected conn) (.clientDisconnected conn) []) := by
  have hgone : ∀ conn' ∈ conn :: wire.gone, conn' ∈ conn :: wire.seen ∧
      (conn' ∈ wire.gone ∨ conn' = conn) := by
    intro conn' hmem
    rcases List.mem_cons.1 hmem with rfl | hmem
    · exact ⟨List.mem_cons_self, Or.inr rfl⟩
    · exact ⟨List.mem_cons_of_mem _ (h.gone conn' hmem), Or.inl hmem⟩
  unfold BrokerRouter.clientDisconnected
  split
  · rename_i hnone
    refine ⟨h.entries, h.servers, fun key relay hrelay => List.mem_cons_of_mem _
      (h.relays key relay hrelay), fun conn' key hconn => ?_, fun conn' hmem => (hgone conn' hmem).1,
      h.told⟩
    obtain ⟨hin, hnot⟩ := h.present conn' key hconn
    refine ⟨List.mem_cons_of_mem _ hin, fun hmem => ?_⟩
    rcases (hgone conn' hmem).2 with hold | rfl
    · exact hnot hold
    · cases hnone.symm.trans hconn
  · rename_i key hknown
    have hothers : ∀ {conn' key'}, Function.update wire.router.connectionKey conn none conn' =
        some key' ↔ wire.router.connectionKey conn' = some key' ∧ conn' ≠ conn := by
      intro conn' key'
      by_cases heq : conn' = conn
      · simp [heq]
      · simp [heq]
    have hentry := h.languageAt key
    refine h.update (fun key' (hne : key' ≠ key) => lookup_setLanguage_of_ne hne) (fun _ _ => rfl)
      (fun conn' key' hne => ?_) (fun conn' hconn' => ?_)
      (fun _ hmem => List.mem_cons_of_mem _ hmem) (fun conn' hmem => ?_) (fun state hstate => ?_)
      (h.servers key) (fun relay hrelay => List.mem_cons_of_mem _ (h.relays key relay hrelay))
      fun conn' => ?_
    · refine hothers.trans ⟨And.left, fun hconn' => ⟨hconn', ?_⟩⟩
      rintro rfl
      exact hne (Option.some.inj (hconn'.symm.trans hknown))
    · obtain ⟨hconn', hne⟩ := hothers.1 hconn'
      obtain ⟨hin, hnot⟩ := h.present conn' key hconn'
      exact ⟨List.mem_cons_of_mem _ hin, fun hmem => (List.mem_cons.1 hmem).elim hne hnot⟩
    · obtain ⟨hin, hold | rfl⟩ := hgone conn' hmem
      · exact ⟨hin, Or.inl hold⟩
      · exact ⟨hin, Or.inr (Function.update_self ..)⟩
    · cases (lookup_setLanguage_self wire.router key _).symm.trans hstate
      refine ⟨hentry.key_eq, hentry.positive, fun conn' hmem => ?_, fun queued hmem => ?_,
        fun brokerId pending hpending => ?_, hentry.spawning, hentry.awaiting, hentry.ready⟩
      · obtain ⟨hmem, hne⟩ := List.mem_filter.1 hmem
        exact hothers.2 ⟨hentry.attached conn' hmem, of_decide_eq_true hne⟩
      · obtain ⟨hmem, hne⟩ := List.mem_filter.1 hmem
        exact hothers.2 ⟨hentry.queued queued hmem, of_decide_eq_true hne⟩
      · obtain ⟨hpending, hne⟩ := Option.filter_eq_some_iff.1 hpending
        obtain ⟨hconn', hrelay⟩ := hentry.pending brokerId pending hpending
        exact ⟨hothers.2 ⟨hconn', of_decide_eq_true hne⟩, hrelay⟩
    · have hwaiting : (wire.record { wire.router.setLanguage key
          ((wire.router.languageAt key).forget conn) with
            connectionKey := Function.update wire.router.connectionKey conn none }
          (.clientDisconnected conn) []).waiting conn' =
            if conn' = conn then [] else wire.waiting conn' := by
        split
        · rename_i heq
          rw [heq]
          exact waiting_of_none (Function.update_self ..)
        · rename_i hne
          have hsame := Function.update_of_ne hne none wire.router.connectionKey
          by_cases hkey : wire.router.connectionKey conn' = some key
          · rw [waiting_of_some hkey, ← queuedOf_forget hne]
            refine (waiting_of_some (hsame.trans hkey)).trans ?_
            exact congrArg (fun state => LanguageState.queuedOf state conn' ++ _)
              (languageAt_eq (lookup_setLanguage_self _ _ _))
          · refine waiting_congr hsame fun key' hkey' => ⟨lookup_setLanguage_of_ne ?_, rfl⟩
            rintro rfl
            exact hkey hkey'
      rw [hwaiting]
      refine subperm_flow (h.told conn') (?_ : ([] ++ _ : List Json).Subperm ([] ++ wire.waiting conn'))
      split
      · exact (List.nil_sublist _).subperm
      · exact List.Subperm.refl _

/-! ## Entries that go -/

/-- An event in which no frame is handed on. -/
def BrokerEvent.Relayless : BrokerEvent → Prop
  | .clientFrame .. => False
  | .serverFrame .. => False
  | _ => True

/-- The wires after some of the actions of an event. -/
def BrokerWire.carry (wire : BrokerWire) (event : BrokerEvent) (router : BrokerRouter)
    (actions : List BrokerAction) : BrokerWire :=
  { wire with router := router, servers := actions.foldl (serve event) wire.servers }

theorem receive_shutdownRequest (hevent : event.Relayless) (server : ServerWire) (brokerId : Int) :
    server.receive event (shutdownRequest brokerId) =
      { server with shutdowns := brokerId :: server.shutdowns } := by
  cases event <;> first | rfl | exact hevent.elim

theorem receive_exitNotification (server : ServerWire) :
    server.receive event exitNotification = server := by
  cases event <;> rfl

theorem closings_silent (event : BrokerEvent) (state : LanguageState)
    (servers : String → ServerWire) :
    toClients ((if state.status ≠ .notStarted then
        [BrokerAction.closeServer state.root state.language] else []) ++
        state.clients.map .closeClient) = [] ∧
      ((if state.status ≠ BrokerLanguageStatus.notStarted then
        [BrokerAction.closeServer state.root state.language] else []) ++
        state.clients.map BrokerAction.closeClient).foldl (serve event) servers = servers := by
  have hclients : ∀ conns : List ConnectionId, toClients (conns.map .closeClient) = [] ∧
      (conns.map BrokerAction.closeClient).foldl (serve event) servers = servers := by
    intro conns
    induction conns with
    | nil => exact ⟨rfl, rfl⟩
    | cons conn conns ih => exact ih
  split
  · exact hclients state.clients
  · exact hclients state.clients

theorem EntrySound.farewell {farewell : List BrokerAction} (hevent : event.Relayless)
    (h : EntrySound connections (servers key) key state) (hfarewell : state.farewell = some farewell) :
    toClients farewell = [] ∧ ∃ shutdowns, (shutdowns = [] ∨
        shutdowns = [state.nextBrokerId] ∧ state.status = .ready) ∧
      farewell.foldl (serve event) servers = Function.update servers key
        { servers key with shutdowns := shutdowns ++ (servers key).shutdowns } := by
  unfold LanguageState.farewell at hfarewell
  split at hfarewell
  · rename_i hready
    obtain ⟨⟨shutdownId, next⟩, htake, hfarewell⟩ := Option.bind_eq_some_iff.1 hfarewell
    obtain ⟨-, rfl, -⟩ := takeBrokerId_eq_some htake
    cases hfarewell
    have hkey := h.key_eq (by rw [hready]; simp)
    refine ⟨rfl, [state.nextBrokerId], Or.inr ⟨rfl, hready⟩, ?_⟩
    rw [List.foldl_cons, List.foldl_cons, List.foldl_nil, LanguageState.toServer,
      serve_sendToServer hkey, receive_shutdownRequest hevent, LanguageState.toServer,
      serve_sendToServer hkey, receive_exitNotification, Function.update_eq_self]
    rfl
  · cases hfarewell
    exact ⟨rfl, [], Or.inl rfl, (Function.update_eq_self _ _).symm⟩

theorem ServerSound.shutdown {shutdowns : List Int} (h : ServerSound server)
    (hentry : EntrySound connections server key state)
    (hshutdowns : shutdowns = [] ∨ shutdowns = [state.nextBrokerId] ∧ state.status = .ready) :
    ServerSound { server with shutdowns := shutdowns ++ server.shutdowns } := by
  rcases hshutdowns with rfl | ⟨rfl, hready⟩
  · exact h
  · obtain ⟨-, -, -, hfresh⟩ := hentry.ready hready
    have hperm : ({ server with shutdowns := [state.nextBrokerId] ++ server.shutdowns } :
        ServerWire).ids.Perm (state.nextBrokerId :: server.ids) := by
      simp only [ServerWire.ids, List.cons_append, List.nil_append]
      exact List.perm_middle
    have hnot : state.nextBrokerId ∉ server.ids := fun hmem => Int.lt_irrefl _ (hfresh _ hmem)
    refine ⟨hperm.nodup_iff.2 (List.nodup_cons.2 ⟨hnot, h.ids⟩), fun issued hmem => ?_,
      h.initializeOnce, h.initializedOnce, h.routed, fun issued hmem => ?_⟩
    · rcases List.mem_cons.1 (hperm.mem_iff.1 hmem) with rfl | hmem
      · exact hentry.positive
      · exact h.positive issued hmem
    · exact hperm.mem_iff.2 (List.mem_cons_of_mem _ (h.routed_mem issued hmem))

theorem WireSound.tearDown (h : WireSound wire) (hevent : event.Relayless)
    (htear : TearDown wire.router key router' actions) :
    WireSound (wire.carry event router' actions) ∧ toClients actions = [] := by
  cases htear with
  | absent _ => exact ⟨h, rfl⟩
  | @present state farewell hstate hfarewell =>
      have hentry := h.entries key state hstate
      obtain ⟨hsilent, shutdowns, hshutdowns, hserve⟩ := hentry.farewell hevent hfarewell
      obtain ⟨hunheard, hclosing⟩ := closings_silent event state
        (farewell.foldl (serve event) wire.servers)
      have hclients : ∀ conn key', (if conn ∈ state.clients then none
          else wire.router.connectionKey conn) = some key' →
          wire.router.connectionKey conn = some key' := by
        intro conn key' hconn
        split at hconn
        · cases hconn
        · exact hconn
      have hmembers : ∀ conn ∈ state.clients, wire.router.connectionKey conn = some key := by
        intro conn hmem
        rcases List.mem_append.1 hmem with hmem | hmem
        · exact hentry.attached conn hmem
        · obtain ⟨queued, hqueued, rfl⟩ := List.mem_map.1 hmem
          exact hentry.queued queued hqueued
      have hservers : (farewell ++ (if state.status ≠ BrokerLanguageStatus.notStarted then
          [BrokerAction.closeServer state.root state.language] else []) ++
          state.clients.map BrokerAction.closeClient).foldl (serve event) wire.servers =
          Function.update wire.servers key
            { wire.servers key with shutdowns := shutdowns ++ (wire.servers key).shutdowns } := by
        rw [List.append_assoc, List.foldl_append, hclosing, hserve]
      have hserver := (congrFun hservers key).trans (Function.update_self ..)
      refine ⟨h.update (fun key' (hne : key' ≠ key) => lookup_erase_of_ne hne _) (fun key' hne => ?_)
        (fun conn key' hne => ⟨hclients conn key', fun hconn => ?_⟩)
        (fun conn hconn => h.present conn key (hclients conn key hconn)) (fun _ hmem => hmem)
        (fun conn hmem => ⟨h.gone conn hmem, Or.inl hmem⟩) (fun state' hstate' => ?_) ?_
        (fun relay hrelay => ?_) fun conn => ?_, ?_⟩
      · exact (congrFun hservers key').trans (Function.update_of_ne hne _ _)
      · refine (if_neg fun hmem => ?_).trans hconn
        exact hne (Option.some.inj (hconn.symm.trans (hmembers conn hmem)))
      · cases (lookup_erase_self wire.router.languages key).symm.trans hstate'
      · refine (congrArg ServerSound hserver).mpr ?_
        exact (h.servers key).shutdown hentry hshutdowns
      · have hrelays := congrArg ServerWire.relays hserver
        exact h.relays key relay (hrelays ▸ hrelay)
      · refine List.Subperm.trans ((List.subperm_append_left _).2 ?_) (h.told conn)
        refine (waiting_sublist fun key' hconn => ⟨hclients conn key' hconn, ?_, ?_⟩).subperm
        · by_cases hne : key' = key
          · have hgone : ({ wire.router with
                languages := erase wire.router.languages key
                connectionKey := fun conn => if conn ∈ state.clients then none
                  else wire.router.connectionKey conn } : BrokerRouter).languageAt key' = {} := by
              rw [BrokerRouter.languageAt, hne, lookup_erase_self]
              rfl
            exact (congrArg (LanguageState.queuedOf · conn) hgone) ▸ List.nil_sublist _
          · have hsame := congrArg (fun found => LanguageState.queuedOf (found.getD {}) conn)
              (lookup_erase_of_ne hne wire.router.languages)
            exact hsame ▸ List.Sublist.refl _
        · by_cases hne : key' = key
          · rw [hne]
            exact (congrArg (ServerWire.unrouted · conn) hserver) ▸ List.Sublist.refl _
          · have hsame := (congrFun hservers key').trans (Function.update_of_ne hne _ _)
            exact (congrArg (ServerWire.unrouted · conn) hsame) ▸ List.Sublist.refl _
      · rw [List.append_assoc, toClients_append, hsilent, hunheard]
        rfl

theorem carry_append (wire : BrokerWire) (event : BrokerEvent) (router router' : BrokerRouter)
    (actions more : List BrokerAction) :
    wire.carry event router' (actions ++ more) =
      (wire.carry event router actions).carry event router' more := by
  simp only [BrokerWire.carry, List.foldl_append]

theorem WireSound.tearDownEntries {keys : List String} (h : WireSound wire)
    (hevent : event.Relayless)
    (htear : wire.router.tearDownEntries keys = some (router', actions)) :
    WireSound (wire.carry event router' actions) ∧ toClients actions = [] := by
  induction keys generalizing wire actions with
  | nil =>
      cases htear
      exact ⟨h, rfl⟩
  | cons key keys ih =>
      obtain ⟨⟨next, first⟩, hfirst, htear⟩ := Option.bind_eq_some_iff.1 htear
      obtain ⟨⟨last, rest⟩, hrest, htear⟩ := Option.bind_eq_some_iff.1 htear
      cases htear
      obtain ⟨hsound, hsilent⟩ := h.tearDown hevent (.of_eq hfirst)
      obtain ⟨hsound', hsilent'⟩ := ih hsound hrest
      rw [carry_append wire event next, toClients_append, hsilent, hsilent']
      exact ⟨hsound', rfl⟩

theorem WireSound.record_carry (h : WireSound (wire.carry event router' actions))
    (hsettled : event.Settled) (hevent : event.Relayless) (hsilent : toClients actions = []) :
    WireSound (wire.record router' event actions) := by
  have hrecord : wire.record router' event actions = wire.carry event router' actions := by
    cases event <;> simp_all [BrokerEvent.Settled, BrokerEvent.Relayless, BrokerWire.record,
      BrokerWire.carry, BrokerEvent.routedBy, BrokerEvent.askedBy, answersTo_of_silent]
  rw [hrecord]
  exact h

/-! ## Clients that come -/

theorem WireSound.unseen (h : WireSound wire) (hfresh : conn ∉ wire.seen) (key : String) :
    wire.router.connectionKey conn = none ∧ (wire.router.languageAt key).queuedOf conn = [] ∧
      (wire.servers key).unrouted conn = [] := by
  have hnone : wire.router.connectionKey conn = none := by
    cases hconn : wire.router.connectionKey conn with
    | none => rfl
    | some key => exact absurd (h.present conn key hconn).1 hfresh
  refine ⟨hnone, (h.languageAt key).queuedOf_of_ne (by simp [hnone]), ?_⟩
  rw [ServerWire.unrouted, List.map_eq_nil_iff, List.filter_eq_nil_iff]
  intro relay hrelay heq
  rw [Bool.and_eq_true, decide_eq_true_eq] at heq
  exact hfresh (heq.1 ▸ h.relays key relay hrelay)

/-- The wires once a client has come to an entry. -/
def BrokerWire.attach (wire : BrokerWire) (conn : ConnectionId) (key : String) (state : LanguageState)
    (server : ServerWire) : BrokerWire :=
  { wire with
    router :=
      { wire.router.setLanguage key state with
        connectionKey := Function.update wire.router.connectionKey conn (some key) }
    servers := Function.update wire.servers key server
    seen := conn :: wire.seen }

theorem languageAt_attach (wire : BrokerWire) (conn : ConnectionId) (key : String)
    (state : LanguageState) (server : ServerWire) :
    (wire.attach conn key state server).router.languageAt key = state :=
  languageAt_eq (lookup_setLanguage_self _ _ _)

theorem languageAt_attach_of_ne {key' : String} (hne : key' ≠ key) (wire : BrokerWire)
    (conn : ConnectionId) (state : LanguageState) (server : ServerWire) :
    (wire.attach conn key state server).router.languageAt key' = wire.router.languageAt key' :=
  congrArg (fun found => found.getD {}) (lookup_setLanguage_of_ne hne)

theorem WireSound.waiting_attach (h : WireSound wire) (hfresh : conn ∉ wire.seen)
    (hqueued : ∀ conn, (state.queuedOf conn).Sublist ((wire.router.languageAt key).queuedOf conn))
    (hunrouted : ∀ conn, (server.unrouted conn).Sublist ((wire.servers key).unrouted conn))
    (conn' : ConnectionId) :
    ((wire.attach conn key state server).waiting conn').Sublist (wire.waiting conn') := by
  obtain ⟨hnone, hempty, hempty'⟩ := h.unseen hfresh key
  have hself := Function.update_self key server wire.servers
  by_cases heq : conn' = conn
  · subst heq
    have hat : (wire.attach conn' key state server).router.connectionKey conn' = some key :=
      Function.update_self ..
    rw [waiting_of_some hat, languageAt_attach]
    have hserver : (wire.attach conn' key state server).servers key = server := hself
    have hnobody : state.queuedOf conn' = [] := List.sublist_nil.1 (hempty ▸ hqueued conn')
    have hnothing : server.unrouted conn' = [] := List.sublist_nil.1 (hempty' ▸ hunrouted conn')
    rw [hserver, hnobody, hnothing]
    exact List.nil_sublist _
  · refine waiting_sublist fun key' hconn' => ?_
    have hknown := (Function.update_of_ne heq _ _).symm.trans hconn'
    by_cases hkey : key' = key
    · subst hkey
      rw [languageAt_attach]
      exact ⟨hknown, hqueued conn', (congrArg (ServerWire.unrouted · conn') hself) ▸ hunrouted conn'⟩
    · have hserver := Function.update_of_ne hkey server wire.servers
      rw [languageAt_attach_of_ne hkey]
      exact ⟨hknown, List.Sublist.refl _,
        (congrArg (ServerWire.unrouted · conn') hserver) ▸ List.Sublist.refl _⟩

theorem WireSound.attach (h : WireSound wire) (hfresh : conn ∉ wire.seen)
    (hentry : EntrySound (Function.update wire.router.connectionKey conn (some key)) server key state)
    (hserver : ServerSound server)
    (hrelays : ∀ relay ∈ server.relays, relay.connection ∈ wire.seen)
    (hqueued : ∀ conn, (state.queuedOf conn).Sublist ((wire.router.languageAt key).queuedOf conn))
    (hunrouted : ∀ conn, (server.unrouted conn).Sublist ((wire.servers key).unrouted conn)) :
    WireSound (wire.attach conn key state server) := by
  obtain ⟨hnone, -, -⟩ := h.unseen hfresh key
  have hgone : conn ∉ wire.gone := fun hmem => hfresh (h.gone conn hmem)
  have hself : (wire.attach conn key state server).servers key = server := Function.update_self ..
  refine h.update (fun key' (hne : key' ≠ key) => lookup_setLanguage_of_ne hne)
    (fun key' hne => Function.update_of_ne hne _ _) (fun conn' key' hne => ?_)
    (fun conn' hconn' => ?_) (fun _ hmem => List.mem_cons_of_mem _ hmem)
    (fun conn' hmem => ⟨List.mem_cons_of_mem _ (h.gone conn' hmem), Or.inl hmem⟩)
    (fun state' hstate' => ?_) (hself.symm ▸ hserver) (fun relay hrelay => ?_) fun conn' => ?_
  · by_cases heq : conn' = conn
    · rw [heq]
      simp [BrokerWire.attach, hnone, hne.symm]
    · simp [BrokerWire.attach, heq]
  · rcases update_connections hconn' with ⟨hknown, -⟩ | ⟨-, rfl⟩
    · obtain ⟨hin, hnot⟩ := h.present conn' key hknown
      exact ⟨List.mem_cons_of_mem _ hin, hnot⟩
    · exact ⟨List.mem_cons_self, hgone⟩
  · cases (lookup_setLanguage_self wire.router key state).symm.trans hstate'
    exact hself.symm ▸ hentry
  · exact List.mem_cons_of_mem _ (hrelays relay (hself ▸ hrelay))
  · refine List.Subperm.trans ((List.subperm_append_left _).2 ?_) (h.told conn')
    exact (h.waiting_attach hfresh hqueued hunrouted conn').subperm

theorem EntrySound.connect (h : EntrySound connections server key state)
    (hnone : connections conn = none) :
    EntrySound (Function.update connections conn (some key)) server key state := by
  have hstill : ∀ {conn'}, connections conn' = some key →
      Function.update connections conn (some key) conn' = some key := by
    intro conn' hconn'
    rw [Function.update_of_ne, hconn']
    rintro rfl
    cases hnone.symm.trans hconn'
  exact ⟨h.key_eq, h.positive, fun conn' hmem => hstill (h.attached conn' hmem),
    fun queued hmem => hstill (h.queued queued hmem),
    fun brokerId pending hpending => (h.pending brokerId pending hpending).imp_left hstill,
    h.spawning, h.awaiting, h.ready⟩

theorem WireSound.clientAttached (h : WireSound wire) (hfresh : conn ∉ wire.seen)
    (hcall : wire.router.clientAttached conn root language argv now order =
      some (router', actions)) :
    WireSound (wire.record router' (.clientAttached conn root language argv now order) actions) := by
  cases AttachStep.of_eq hcall with
  | @known state hstate =>
      have hentry := ((h.entries _ state hstate).touch now).connect
        (h.unseen hfresh (makeKey root language)).1
      have hsound := h.attach hfresh hentry (h.servers _) (h.relays _) (fun conn' => ?_)
        fun _ => List.Sublist.refl _
      · rw [BrokerWire.attach, Function.update_eq_self] at hsound
        exact hsound
      · rw [languageAt_eq hstate]
        exact List.Sublist.refl _
  | @started roomy gone hnone htear =>
      have hevent : (BrokerEvent.clientAttached conn root language argv now order).Relayless := trivial
      obtain ⟨hgone, hsilent⟩ := h.tearDownEntries hevent htear
      have hentry : EntrySound (Function.update roomy.connectionKey conn
          (some (makeKey root language))) {} (makeKey root language)
          { root := root, language := language, argv := argv, status := .spawningProcess,
            lastActive := now } := by
        constructor <;> simp
      have hsound := hgone.attach hfresh hentry serverSound_empty (fun relay hrelay => by cases hrelay)
        (fun conn' => List.nil_sublist _) fun conn' => List.nil_sublist _
      have hanswers : ∀ conn', answersTo conn' (gone ++ [.spawnServer root language argv]) = [] := by
        intro conn'
        rw [answersTo_append, answersTo_of_silent hsilent]
        rfl
      simp only [BrokerWire.record, hanswers, List.nil_append, List.foldl_append]
      rw [← (tearDownEntries_idle (evicted_allIdle order) htear).1]
      exact hsound

end Ned.Editor.Lsp
