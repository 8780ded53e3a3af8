import Ned.Editor.Lsp.BrokerWire
import Ned.Editor.Lsp.Lemmas.BrokerHost

/-!
# What the wires keep

Every id that the broker has made for a server is below the next one, every client that an entry knows
is connected to it, and what is told and what is still to be told was asked for.
-/

namespace Ned.Editor.Lsp

open Library (assign erase lookup_assign_self lookup_assign_of_ne lookup_erase_self
  lookup_erase_of_ne)
open Protocol (Json)

variable {wire wire' : BrokerWire} {router router' : BrokerRouter} {state state' : LanguageState}
  {server server' : ServerWire} {actions more : List BrokerAction} {conn : ConnectionId} {frame : Json}
  {root language key : String} {event : BrokerEvent} {connections : ConnectionId → Option String}

/-! ## Frames to clients -/

theorem toClients_append (actions more : List BrokerAction) :
    toClients (actions ++ more) = toClients actions ++ toClients more := List.filterMap_append

theorem answersTo_append (conn : ConnectionId) (actions more : List BrokerAction) :
    answersTo conn (actions ++ more) = answersTo conn actions ++ answersTo conn more := by
  rw [answersTo, toClients_append, List.filterMap_append]
  rfl

theorem answersTo_of_silent (h : toClients actions = []) (conn : ConnectionId) :
    answersTo conn actions = [] := by
  rw [answersTo, h]
  rfl

/-- The requests that an entry has queued for a connection. -/
def LanguageState.queuedOf (state : LanguageState) (conn : ConnectionId) : List Json :=
  (state.pendingInitializeRequests.filter (·.connection = conn)).map (·.originalId)

theorem toClients_flush (queue : List QueuedInitialize) (answer : Json → Json) :
    toClients (queue.map fun queued =>
        BrokerAction.sendToClient queued.connection (answer queued.originalId)) =
      queue.map fun queued => (queued.connection, answer queued.originalId) := by
  rw [toClients, List.filterMap_map]
  exact congrFun List.filterMap_eq_map queue

theorem answersTo_flush (state : LanguageState) (answer : Json → Json)
    (hanswer : ∀ id, (answer id).find "id" = some id) (conn : ConnectionId) :
    answersTo conn (state.pendingInitializeRequests.map fun queued =>
        .sendToClient queued.connection (answer queued.originalId)) = state.queuedOf conn := by
  rw [answersTo, toClients_flush, LanguageState.queuedOf]
  induction state.pendingInitializeRequests with
  | nil => rfl
  | cons queued queue ih =>
      rw [List.map_cons, List.filterMap_cons, ih]
      by_cases hconn : queued.connection = conn <;> simp [hconn, hanswer]

theorem answersTo_singleton {id : Json} (hid : frame.find "id" = some id) (conn conn' : ConnectionId) :
    answersTo conn' [.sendToClient conn frame] = if conn = conn' then [id] else [] := by
  by_cases hconn : conn = conn' <;> simp [answersTo, toClients, BrokerAction.toClient, hconn, hid]

theorem answersTo_broadcast (hid : frame.find "id" = none) (conns : List ConnectionId)
    (conn : ConnectionId) : answersTo conn (conns.map (.sendToClient · frame)) = [] := by
  simp [answersTo, toClients, BrokerAction.toClient, List.filterMap_map, Function.comp_def, hid]

theorem find_withId {field id : Json} (h : frame.find "id" = some field) :
    (withId frame id).find "id" = some id := by
  cases frame <;> simp [Json.find] at h
  exact lookup_assign_self _ _ _

/-! ## What an entry keeps -/

structure EntrySound (connections : ConnectionId → Option String) (server : ServerWire) (key : String)
    (state : LanguageState) : Prop where
  key_eq : state.status ≠ .notStarted → makeKey state.root state.language = key
  positive : 0 < state.nextBrokerId
  attached : ∀ conn ∈ state.attached, connections conn = some key
  queued : ∀ queued ∈ state.pendingInitializeRequests, connections queued.connection = some key
  pending : ∀ brokerId pending, state.pendingByBrokerId brokerId = some pending →
    connections pending.connection = some key ∧
      ⟨brokerId, pending.connection, pending.originalId⟩ ∈ server.relays ∧
      brokerId ∉ server.routed
  spawning : state.status = .spawningProcess → server = {}
  awaiting : state.status = .awaitingRealHandshake →
    server = { initializes := [state.handshakeBrokerId] } ∧
      state.handshakeBrokerId < state.nextBrokerId
  ready : state.status = .ready → server.initializes.length = 1 ∧ server.initializeds = 1 ∧
    server.shutdowns = [] ∧ ∀ brokerId ∈ server.ids, brokerId < state.nextBrokerId

structure ServerSound (server : ServerWire) : Prop where
  ids : server.ids.Nodup
  positive : ∀ brokerId ∈ server.ids, 0 < brokerId
  initializeOnce : server.initializes.length ≤ 1
  initializedOnce : server.initializeds ≤ 1
  routed : server.routed.Nodup
  routed_mem : ∀ brokerId ∈ server.routed, brokerId ∈ server.ids

namespace BrokerWire

/-- What a connection may still be told. -/
def waiting (wire : BrokerWire) (conn : ConnectionId) : List Json :=
  match wire.router.connectionKey conn with
  | some key => (wire.router.languageAt key).queuedOf conn ++ (wire.servers key).unrouted conn
  | none => []

end BrokerWire

structure WireSound (wire : BrokerWire) : Prop where
  entries : ∀ key state, wire.router.languages.lookup key = some state →
    EntrySound wire.router.connectionKey (wire.servers key) key state
  servers : ∀ key, ServerSound (wire.servers key)
  relays : ∀ key, ∀ relay ∈ (wire.servers key).relays, relay.connection ∈ wire.seen
  present : ∀ conn key, wire.router.connectionKey conn = some key →
    conn ∈ wire.seen ∧ conn ∉ wire.gone
  gone : ∀ conn ∈ wire.gone, conn ∈ wire.seen
  told : ∀ conn, (wire.told conn ++ wire.waiting conn).Subperm (wire.asked conn)

theorem serverSound_empty : ServerSound {} := by
  constructor <;> simp [ServerWire.ids]

theorem entrySound_empty (connections : ConnectionId → Option String) (server : ServerWire)
    (key : String) : EntrySound connections server key {} := by
  constructor <;> simp

theorem WireSound.languageAt (h : WireSound wire) (key : String) :
    EntrySound wire.router.connectionKey (wire.servers key) key (wire.router.languageAt key) := by
  unfold BrokerRouter.languageAt
  cases hstate : wire.router.languages.lookup key with
  | some state => exact h.entries key state hstate
  | none => exact entrySound_empty _ _ _

theorem waiting_of_none (h : wire.router.connectionKey conn = none) : wire.waiting conn = [] := by
  rw [BrokerWire.waiting, h]

theorem waiting_of_some (h : wire.router.connectionKey conn = some key) :
    wire.waiting conn =
      (wire.router.languageAt key).queuedOf conn ++ (wire.servers key).unrouted conn := by
  rw [BrokerWire.waiting, h]

theorem waiting_congr (hconn : wire'.router.connectionKey conn = wire.router.connectionKey conn)
    (h : ∀ key, wire.router.connectionKey conn = some key →
      wire'.router.languages.lookup key = wire.router.languages.lookup key ∧
        wire'.servers key = wire.servers key) : wire'.waiting conn = wire.waiting conn := by
  cases hkey : wire.router.connectionKey conn with
  | none => rw [waiting_of_none hkey, waiting_of_none (hconn.trans hkey)]
  | some key =>
      obtain ⟨hlookup, hserver⟩ := h key hkey
      rw [waiting_of_some hkey, waiting_of_some (hconn.trans hkey), BrokerRouter.languageAt, hlookup,
        hserver]
      rfl

theorem waiting_sublist (h : ∀ key, wire'.router.connectionKey conn = some key →
      wire.router.connectionKey conn = some key ∧
        ((wire'.router.languageAt key).queuedOf conn).Sublist
          ((wire.router.languageAt key).queuedOf conn) ∧
        ((wire'.servers key).unrouted conn).Sublist ((wire.servers key).unrouted conn)) :
    (wire'.waiting conn).Sublist (wire.waiting conn) := by
  cases hconn : wire'.router.connectionKey conn with
  | none =>
      rw [waiting_of_none hconn]
      exact List.nil_sublist _
  | some key =>
      obtain ⟨hknown, hqueued, hunrouted⟩ := h key hconn
      rw [waiting_of_some hconn, waiting_of_some hknown]
      exact hqueued.append hunrouted

theorem WireSound.update (h : WireSound wire)
    (hlookup : ∀ key', key' ≠ key →
      wire'.router.languages.lookup key' = wire.router.languages.lookup key')
    (hservers : ∀ key', key' ≠ key → wire'.servers key' = wire.servers key')
    (hconnections : ∀ conn key', key' ≠ key →
      (wire'.router.connectionKey conn = some key' ↔ wire.router.connectionKey conn = some key'))
    (hpresent : ∀ conn, wire'.router.connectionKey conn = some key →
      conn ∈ wire'.seen ∧ conn ∉ wire'.gone)
    (hseen : ∀ conn ∈ wire.seen, conn ∈ wire'.seen)
    (hgone : ∀ conn ∈ wire'.gone, conn ∈ wire'.seen ∧
      (conn ∈ wire.gone ∨ wire'.router.connectionKey conn = none))
    (hentry : ∀ state, wire'.router.languages.lookup key = some state →
      EntrySound wire'.router.connectionKey (wire'.servers key) key state)
    (hserver : ServerSound (wire'.servers key))
    (hrelays : ∀ relay ∈ (wire'.servers key).relays, relay.connection ∈ wire'.seen)
    (htold : ∀ conn, (wire'.told conn ++ wire'.waiting conn).Subperm (wire'.asked conn)) :
    WireSound wire' where
  entries key' state hstate := by
    by_cases hkey : key' = key
    · subst hkey
      exact hentry state hstate
    · rw [hlookup key' hkey] at hstate
      obtain ⟨hkey_eq, hpositive, hattached, hqueued, hpending, hspawning, hawaiting, hready⟩ :=
        h.entries key' state hstate
      rw [hservers key' hkey]
      refine ⟨hkey_eq, hpositive, fun conn hconn => ?_, fun queued hqueue => ?_,
        fun brokerId pending hsome => ?_, hspawning, hawaiting, hready⟩
      · exact (hconnections conn key' hkey).2 (hattached conn hconn)
      · exact (hconnections _ key' hkey).2 (hqueued queued hqueue)
      · exact (hpending brokerId pending hsome).imp_left (hconnections _ key' hkey).2
  servers key' := by
    by_cases hkey : key' = key
    · exact hkey ▸ hserver
    · exact hservers key' hkey ▸ h.servers key'
  relays key' relay hrelay := by
    by_cases hkey : key' = key
    · exact hrelays relay (hkey ▸ hrelay)
    · exact hseen _ (h.relays key' relay (hservers key' hkey ▸ hrelay))
  present conn key' hconn := by
    by_cases hkey : key' = key
    · exact hpresent conn (hkey ▸ hconn)
    · obtain ⟨hin, hnot⟩ := h.present conn key' ((hconnections conn key' hkey).1 hconn)
      refine ⟨hseen conn hin, fun hmem => ?_⟩
      rcases (hgone conn hmem).2 with hold | hnone
      · exact hnot hold
      · cases hnone.symm.trans hconn
  gone conn hconn := (hgone conn hconn).1
  told := htold

/-! ## What is told -/

theorem subperm_flow {told waiting waiting' asked answered new : List Json}
    (h : (told ++ waiting).Subperm asked)
    (hflow : (answered ++ waiting').Subperm (new ++ waiting)) :
    (answered ++ told ++ waiting').Subperm (new ++ asked) := by
  have hleft : (answered ++ told ++ waiting').Perm (told ++ (answered ++ waiting')) := by
    rw [← List.append_assoc]
    exact List.perm_append_comm.append_right _
  have hright : (told ++ (new ++ waiting)).Perm (new ++ (told ++ waiting)) := by
    rw [← List.append_assoc, ← List.append_assoc]
    exact List.perm_append_comm.append_right _
  exact hleft.subperm.trans
    ((((List.subperm_append_left told).2 hflow).trans hright.subperm).trans
      ((List.subperm_append_left new).2 h))

/-- An event that neither attaches nor disconnects a client. -/
def BrokerEvent.Settled : BrokerEvent → Prop
  | .clientAttached .. => False
  | .clientDisconnected _ => False
  | _ => True

theorem record_seen (hsettled : event.Settled) (wire : BrokerWire) (router : BrokerRouter)
    (actions : List BrokerAction) :
    (wire.record router event actions).seen = wire.seen ∧
      (wire.record router event actions).gone = wire.gone := by
  cases event <;> first | exact ⟨rfl, rfl⟩ | exact hsettled.elim

theorem WireSound.setLanguage (h : WireSound wire) (hsettled : event.Settled)
    (hothers : ∀ key', key' ≠ key →
      (wire.record (wire.router.setLanguage key state') event actions).servers key' =
        wire.servers key')
    (hserver' : (wire.record (wire.router.setLanguage key state') event actions).servers key =
      server')
    (hentry : EntrySound wire.router.connectionKey server' key state') (hserver : ServerSound server')
    (hrelays : ∀ relay ∈ server'.relays, relay.connection ∈ wire.seen)
    (hflow : ∀ conn, wire.router.connectionKey conn = some key →
      (answersTo conn actions ++ (state'.queuedOf conn ++ server'.unrouted conn)).Subperm
        (event.askedBy conn ++
          ((wire.router.languageAt key).queuedOf conn ++ (wire.servers key).unrouted conn)))
    (hsilent : ∀ conn, wire.router.connectionKey conn ≠ some key → answersTo conn actions = []) :
    WireSound (wire.record (wire.router.setLanguage key state') event actions) := by
  obtain ⟨hseen, hgone⟩ := record_seen hsettled wire (wire.router.setLanguage key state') actions
  have hwaiting : ∀ conn, wire.router.connectionKey conn ≠ some key →
      (wire.record (wire.router.setLanguage key state') event actions).waiting conn =
        wire.waiting conn := by
    intro conn hconn
    refine waiting_congr rfl fun key' hkey' => ?_
    have hne : key' ≠ key := fun heq => hconn (heq ▸ hkey')
    exact ⟨lookup_setLanguage_of_ne hne, hothers key' hne⟩
  have hat : (wire.router.setLanguage key state').languageAt key = state' :=
    languageAt_eq (lookup_setLanguage_self _ _ _)
  subst hserver'
  refine h.update (fun key' hne => lookup_setLanguage_of_ne hne) hothers (fun _ _ _ => Iff.rfl)
    (fun conn hconn => ?_) (fun conn hconn => hseen ▸ hconn) (fun conn hconn => ?_)
    (fun state hstate => ?_) hserver (fun relay hrelay => hseen ▸ hrelays relay hrelay)
    fun conn => ?_
  · rw [hseen, hgone]
    exact h.present conn key hconn
  · rw [hgone] at hconn
    exact ⟨hseen ▸ h.gone conn hconn, Or.inl hconn⟩
  · cases (lookup_setLanguage_self wire.router key state').symm.trans hstate
    exact hentry
  · have htold := h.told conn
    by_cases hconn : wire.router.connectionKey conn = some key
    · have hconn' : (wire.record (wire.router.setLanguage key state') event
          actions).router.connectionKey conn = some key := hconn
      have hwait : (wire.record (wire.router.setLanguage key state') event actions).waiting conn =
          state'.queuedOf conn ++
            ((wire.record (wire.router.setLanguage key state') event actions).servers key).unrouted
              conn := by
        refine (waiting_of_some hconn').trans ?_
        exact congrArg (fun state => LanguageState.queuedOf state conn ++ _) hat
      rw [waiting_of_some hconn] at htold
      rw [hwait]
      exact subperm_flow htold (hflow conn hconn)
    · rw [hwaiting conn hconn]
      refine subperm_flow htold ?_
      rw [hsilent conn hconn]
      exact (List.sublist_append_right _ _).subperm

end Ned.Editor.Lsp
