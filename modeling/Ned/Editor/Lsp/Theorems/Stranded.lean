import Ned.Editor.Lsp.Lemmas.BrokerHost

/-!
# Theorems about stranded clients

Nobody is stranded as long as no entry goes that a connection knows and that does not know it.
-/

namespace Ned.Editor.Lsp

open Library (run Admissible assign lookup_assign_self lookup_assign_of_ne)
open Protocol (Json)

variable {host host' : BrokerHost} {router router' : BrokerRouter} {state state' : LanguageState}
  {actions : List BrokerAction} {conn : ConnectionId} {frame : Json} {root language key : String}
  {argv order : List String} {now idleTimeout : Int} {event : BrokerEvent}

/-! ## What every event keeps -/

theorem EntryKept.congr (h : EntryKept host key state) (hroot : state'.root = state.root)
    (hlanguage : state'.language = state.language) (hstatus : state'.status = state.status)
    (hrunning : state'.processRunning = state.processRunning)
    (hqueue : state.pendingInitializeRequests = [] → state'.pendingInitializeRequests = [])
    (hhandshake : state'.handshakeBrokerId = state.handshakeBrokerId) :
    EntryKept host key state' where
  key_eq := by rw [hroot, hlanguage, h.key_eq]
  started := by rw [hstatus]; exact h.started
  spawning hspawning := by
    rw [hrunning]
    exact (h.spawning (hstatus ▸ hspawning)).imp_left hqueue
  awaiting hawaiting := by
    rw [hhandshake]
    exact h.awaiting (hstatus ▸ hawaiting)
  settled hsettled := hqueue (h.settled (hstatus ▸ hsettled))

theorem EntryKept.running (h : EntryKept host key state) (hspawn : host.spawning = none)
    (hstatus : state.status = .spawningProcess) : state.processRunning = true ∧ key ∈ host.live := by
  rcases (h.spawning hstatus).2 with hrunning | ⟨root, language, hsome, -⟩
  · exact hrunning
  · rw [hspawn] at hsome
    cases hsome

theorem Kept.update_same (h : Kept host) (hspawn : host'.spawning = none)
    (hlanguages : host'.router.languages = assign host.router.languages key state')
    (hconnections : ∀ conn key', host'.router.connectionKey conn = some key' →
      host.router.connectionKey conn = some key')
    (hused : host'.used = host.used) (hentry : EntryKept host' key state')
    (hothers : ∀ key' state, key' ≠ key → EntryKept host key' state → EntryKept host' key' state) :
    Kept host' := by
  refine h.update hlanguages (fun conn key' hconn => ?_) hentry hothers fun root language hsome => ?_
  · have hknown := hconnections conn key' hconn
    exact Or.inl ⟨hknown, hused ▸ h.used conn key' hknown⟩
  · rw [hspawn] at hsome
    cases hsome

theorem Kept.clientAttached (h : Kept host) (hspawn : host.spawning = none)
    (hkeeps : KeepsClients host (.clientAttached conn root language argv now order))
    (hcall : host.router.clientAttached conn root language argv now order =
      some (router', actions)) :
    Kept ((host.notice (.clientAttached conn root language argv now order)).carryOut
      router' actions) := by
  have hattach := AttachStep.of_eq hcall
  cases hattach with
  | @known state hstate =>
      refine h.update (by rfl) (fun conn' key' hconn => ?_) ?_ (fun _ _ _ hentry => ?_) ?_
      · rcases update_connections hconn with ⟨hknown, -⟩ | ⟨heq, rfl⟩
        · exact Or.inl ⟨hknown, List.mem_cons_of_mem _ (h.used conn' key' hknown)⟩
        · exact Or.inr ⟨heq, List.mem_cons_self⟩
      · refine EntryKept.congr ((h.entries _ state hstate).mono ?_ ?_ ?_) rfl rfl rfl rfl id rfl
        · exact id
        · rfl
        · exact fun _ _ hsome _ => hsome
      · exact hentry.mono id rfl fun _ _ hsome _ => hsome
      · intro root' language' hsome
        cases hspawn.symm.trans hsome
  | @started roomy gone hnone htear =>
      have hunknown : ∀ key ∈ host.router.evicted order, ∀ conn,
          host.router.connectionKey conn ≠ some key := by
        intro key hkey conn hconn
        have htorn : key ∈ host.router.tornDown
            (.clientAttached conn root language argv now order) := by
          simp only [BrokerRouter.tornDown, hnone, Option.isNone_none, if_true]
          exact hkey
        have hclient := hkeeps key htorn conn hconn
        obtain ⟨state, hstate, hidle⟩ := evicted_idle hkey
        rw [languageAt_eq hstate, clients_of_isIdle hidle] at hclient
        cases hclient
      obtain ⟨hkept, hquiet, hused⟩ :=
        h.tearDownEntries hspawn hunknown (evicted_allIdle order) htear
      have hconnections := (tearDownEntries_idle (evicted_allIdle order) htear).1
      have hgone := performAll_outside host host.router (conn :: host.used) gone
      rw [carryOut_eq, performAll_append]
      simp only [BrokerHost.notice, hgone]
      rw [carryOut_eq] at hkept hquiet
      refine hkept.update (by rfl) (fun conn' key' hconn => ?_) ?_ (fun key' _ hne hentry => ?_) ?_
      · rcases update_connections hconn with ⟨hknown, -⟩ | ⟨heq, rfl⟩
        · exact Or.inl ⟨hconnections ▸ hknown, List.mem_cons_of_mem _ (h.used conn' key' hknown)⟩
        · exact Or.inr ⟨heq, List.mem_cons_self⟩
      · exact ⟨rfl, by simp, fun _ => ⟨rfl, Or.inr ⟨root, language, rfl, rfl⟩⟩, by simp, by simp⟩
      · refine hentry.mono id rfl fun root' language' hsome _ => ?_
        rw [hquiet] at hsome
        cases hsome
      · intro root' language' hsome
        obtain ⟨rfl, rfl⟩ := Prod.mk.inj (Option.some.inj hsome)
        exact ⟨rfl, rfl⟩

theorem Kept.clientFrame (h : Kept host) (hspawn : host.spawning = none)
    (hcall : host.router.clientFrame conn frame now = some (router', actions)) :
    Kept (host.carryOut router' actions) := by
  unfold BrokerRouter.clientFrame at hcall
  split at hcall
  · cases hcall
    exact h
  · rename_i key hconn
    obtain ⟨⟨next, sent⟩, hframe, hcall⟩ := Option.bind_eq_some_iff.1 hcall
    cases hcall
    obtain ⟨state, hstate⟩ := Option.isSome_iff_exists.1 (h.connections conn key hconn)
    have hentry := h.entries key state hstate
    rw [languageAt_eq hstate] at hframe
    have htouched : EntryKept host key { state with lastActive := now } :=
      hentry.congr rfl rfl rfl rfl id rfl
    generalize { state with lastActive := now } = touched at hframe htouched
    -- an action that says nothing about servers leaves what the daemon knows of them
    have hquiet : ∀ {next : LanguageState} {actions : List BrokerAction}, EntryKept host key next →
        (∀ action ∈ actions, action.Quiet) →
        Kept (host.carryOut (host.router.setLanguage key next) actions) := by
      intro next actions hnext hactions
      rw [carryOut_quiet hactions]
      exact h.update_same hspawn rfl (fun _ _ hknown => hknown) rfl
        (hnext.mono id rfl fun _ _ hsome _ => hsome)
        fun _ _ _ hother => hother.mono id rfl fun _ _ hsome _ => hsome
    cases ClientStep.of_eq hframe with
    | answered _ _ => exact hquiet htouched (List.forall_mem_singleton.2 quiet_sendToClient)
    | queued hid hready hfailed hstart =>
        cases hstart with
        | waits hwait =>
            -- an entry whose server runs does not wait, so a handshake is outstanding already
            have hnot : touched.status ≠ .spawningProcess := by
              intro hstatus
              have hrunning := (htouched.running hspawn hstatus).1
              rcases hwait with hempty | hstatus' | hrunning'
              · simp at hempty
              · exact hstatus' hstatus
              · rw [hrunning] at hrunning'
                cases hrunning'
            refine hquiet ⟨htouched.key_eq, htouched.started, fun hstatus => absurd hstatus hnot,
              htouched.awaiting, fun hstatus => ?_⟩ (by simp)
            exact (hstatus.elim hready hfailed).elim
        | @starts queued rest hqueue hstatus _ _ =>
            obtain ⟨-, hlive⟩ := htouched.running hspawn hstatus
            have hkey := htouched.key_eq
            refine h.update_same hspawn rfl (fun _ _ hknown => hknown) rfl
              ⟨hkey, by simp, by simp, fun _ => ⟨hlive, ?_⟩, by simp⟩ fun key' _ hne hother => ?_
            · rw [← hkey]
              exact Function.update_self ..
            · refine hother.mono id ?_ fun _ _ hsome _ => hsome
              exact Function.update_of_ne (fun heq => hne (heq.trans hkey)) _ _
    | initialized =>
        refine hquiet ?_ (by simp)
        unfold LanguageState.clientInitialized
        split
        · exact htouched.congr rfl rfl rfl rfl id rfl
        · exact htouched
    | refused => exact hquiet htouched (List.forall_mem_singleton.2 quiet_closeClient)
    | request hid _ _ _ hmethod _ =>
        refine hquiet (htouched.congr rfl rfl rfl rfl id rfl) (List.forall_mem_singleton.2 ?_)
        refine quiet_sendToServer (initializeId_of_method ?_)
        rw [find_method_withId]
        exact hmethod
    | notification hid _ _ _ =>
        refine hquiet htouched (List.forall_mem_singleton.2 ?_)
        exact quiet_sendToServer (initializeId_of_no_id hid)

theorem Kept.clientDisconnected (h : Kept host) (hspawn : host.spawning = none) :
    Kept { host with router := host.router.clientDisconnected conn } := by
  unfold BrokerRouter.clientDisconnected
  split
  · exact h
  · rename_i key hconn
    obtain ⟨state, hstate⟩ := Option.isSome_iff_exists.1 (h.connections conn key hconn)
    rw [languageAt_eq hstate]
    refine h.update_same hspawn rfl (fun conn' key' hknown => ?_) rfl ?_
      fun _ _ _ hother => hother.mono id rfl fun _ _ hsome _ => hsome
    · by_cases heq : conn' = conn
      · subst heq
        simp only [Function.update_self] at hknown
        cases hknown
      · simpa only [Function.update_of_ne heq] using hknown
    · refine EntryKept.congr ((h.entries key state hstate).mono ?_ ?_ ?_) rfl rfl rfl rfl ?_ rfl
      · exact id
      · rfl
      · exact fun _ _ hsome _ => hsome
      · intro hqueue
        rw [LanguageState.forget, hqueue]
        rfl

theorem Kept.serverSpawned (h : Kept host) (hspawn : host.spawning = some (root, language))
    (hcall : host.router.serverSpawned root language = some (router', actions)) :
    Kept ((host.notice (.serverSpawned root language)).carryOut router' actions) := by
  obtain ⟨state, hstate, hspawning⟩ := h.spawning root language hspawn
  obtain ⟨hqueue, -⟩ := (h.entries _ state hstate).spawning hspawning
  obtain ⟨⟨next, sent⟩, hstart, hcall⟩ := Option.bind_eq_some_iff.1 hcall
  cases hcall
  rw [languageAt_eq hstate] at hstart
  cases StartStep.of_eq hstart with
  | waits _ =>
      refine h.update_same rfl rfl (fun _ _ hknown => hknown) rfl ?_ fun key' _ hne hother => ?_
      · refine ⟨rfl, (h.entries _ state hstate).started, fun _ => ⟨hqueue, Or.inl ⟨rfl, ?_⟩⟩, ?_, ?_⟩
        · exact List.mem_cons_self
        · intro hstatus
          cases hspawning.symm.trans hstatus
        · exact fun _ => hqueue
      · refine hother.mono (List.mem_cons_of_mem _) rfl fun root' language' hsome hkey => ?_
        rw [hspawn] at hsome
        obtain ⟨rfl, rfl⟩ := Prod.mk.inj (Option.some.inj hsome)
        exact absurd hkey.symm hne
  | starts hsome _ _ _ => cases hqueue.symm.trans hsome

theorem Kept.serverSpawnFailed {reason : String} (h : Kept host)
    (hspawn : host.spawning = some (root, language))
    (hcall : host.router.serverSpawnFailed root language reason = (router', actions)) :
    Kept ((host.notice (.serverSpawnFailed root language reason)).carryOut router' actions) := by
  cases hcall
  rw [carryOut_quiet fun action haction => ?_]
  · refine h.update_same rfl rfl (fun _ _ hknown => hknown) rfl
      ⟨rfl, by simp, by simp, by simp, fun _ => rfl⟩ fun key' _ hne hother => ?_
    refine hother.mono id rfl fun root' language' hsome hkey => ?_
    rw [hspawn] at hsome
    obtain ⟨rfl, rfl⟩ := Prod.mk.inj (Option.some.inj hsome)
    exact absurd hkey.symm hne
  · obtain ⟨queued, -, rfl⟩ := List.mem_map.1 haction
    exact quiet_sendToClient

/-- What the daemon notices of a frame is about its own server's handshake alone. -/
theorem notice_serverFrame (host : BrokerHost) (root language : String) (frame : Json) (now : Int) :
    (host.notice (.serverFrame root language frame now)).router = host.router ∧
      (host.notice (.serverFrame root language frame now)).used = host.used ∧
      (host.notice (.serverFrame root language frame now)).spawning = host.spawning ∧
      (host.notice (.serverFrame root language frame now)).live = host.live ∧
      (∀ key', key' ≠ makeKey root language →
        (host.notice (.serverFrame root language frame now)).outstanding key' =
          host.outstanding key') ∧
      ((frame.find "id").bind asInt ≠ host.outstanding (makeKey root language) →
        (host.notice (.serverFrame root language frame now)).outstanding = host.outstanding) := by
  unfold BrokerHost.notice
  simp only
  split
  · rename_i hanswer
    exact ⟨rfl, rfl, rfl, rfl, fun key' hne => Function.update_of_ne hne _ _,
      fun hnot => absurd hanswer hnot⟩
  · exact ⟨rfl, rfl, rfl, rfl, fun _ _ => rfl, fun _ => rfl⟩

theorem ne_of_not_isHandshakeAnswer (h : state.isHandshakeAnswer frame = false)
    (hstatus : state.status = .awaitingRealHandshake) :
    (frame.find "id").bind asInt ≠ some state.handshakeBrokerId := by
  intro heq
  rw [LanguageState.isHandshakeAnswer, hstatus, heq] at h
  simp at h

theorem Kept.serverFrame (h : Kept host) (hspawn : host.spawning = none)
    (hcall : host.router.serverFrame root language frame now = some (router', actions)) :
    Kept ((host.notice (.serverFrame root language frame now)).carryOut router' actions) := by
  obtain ⟨hrouter, hused, hspawning, hlive, hothers, hunanswered⟩ :=
    notice_serverFrame host root language frame now
  generalize host.notice (.serverFrame root language frame now) = noticed at *
  have hmono : ∀ key' state, key' ≠ makeKey root language → EntryKept host key' state →
      EntryKept { noticed with router := router' } key' state := by
    intro key' state hne hentry
    refine hentry.mono ?_ (hothers key' hne) fun root' language' hsome _ => ?_
    · exact fun hmem => hlive ▸ hmem
    · exact hspawning.trans hsome
  unfold BrokerRouter.serverFrame at hcall
  simp only at hcall
  split at hcall
  · rename_i hnone
    cases hcall
    refine ⟨fun key' state hstate => ?_, h.connections, ?_, ?_⟩
    · refine hmono key' state ?_ (h.entries key' state hstate)
      rintro rfl
      cases hnone.symm.trans hstate
    · exact fun conn key' hconn => hused ▸ h.used conn key' hconn
    · intro root' language' hsome
      cases (hspawning.trans hspawn).symm.trans hsome
  · rename_i state hstate
    obtain ⟨⟨next, sent⟩, hframe, hcall⟩ := Option.bind_eq_some_iff.1 hcall
    cases hcall
    have hentry : EntryKept host (makeKey root language) { state with lastActive := now } :=
      (h.entries _ state hstate).congr rfl rfl rfl rfl id rfl
    generalize { state with lastActive := now } = touched at hframe hentry
    have hquiet : ∀ {next : LanguageState} {actions : List BrokerAction},
        EntryKept { noticed with router := host.router } (makeKey root language) next →
        (∀ action ∈ actions, action.Quiet) →
        Kept (noticed.carryOut (host.router.setLanguage (makeKey root language) next) actions) := by
      intro next actions hnext hactions
      rw [carryOut_quiet hactions]
      refine h.update_same (hspawning.trans hspawn) rfl (fun _ _ hknown => hknown) hused ?_ ?_
      · exact hnext.mono id rfl fun _ _ hsome _ => hsome
      · exact fun key' state hne hother =>
          (hmono key' state hne hother).mono id rfl fun _ _ hsome _ => hsome
    -- a frame that does not answer the handshake leaves it outstanding
    have hsame : touched.isHandshakeAnswer frame = false →
        EntryKept { noticed with router := host.router } (makeKey root language) touched := by
      intro hnot
      refine ⟨hentry.key_eq, hentry.started, fun hstatus => ?_, fun hstatus => ?_, hentry.settled⟩
      · obtain ⟨hrunning, hliveKey⟩ := hentry.running hspawn hstatus
        exact ⟨(hentry.spawning hstatus).1, Or.inl ⟨hrunning, hlive ▸ hliveKey⟩⟩
      · obtain ⟨hliveKey, houtstanding⟩ := hentry.awaiting hstatus
        refine ⟨hlive ▸ hliveKey, ?_⟩
        have hnotAnswer := ne_of_not_isHandshakeAnswer hnot hstatus
        rw [← houtstanding] at hnotAnswer
        exact (congrFun (hunanswered hnotAnswer) _).trans houtstanding
    cases ServerStep.of_eq hframe with
    | accepted _ =>
        refine hquiet ⟨hentry.key_eq, by simp, by simp, by simp, fun _ => rfl⟩ ?_
        refine List.forall_mem_cons.2 ⟨quiet_sendToServer rfl, fun action haction => ?_⟩
        obtain ⟨queued, -, rfl⟩ := List.mem_map.1 haction
        exact quiet_sendToClient
    | rejected _ =>
        refine hquiet ⟨hentry.key_eq, by simp, by simp, by simp, fun _ => rfl⟩ fun action haction => ?_
        obtain ⟨queued, -, rfl⟩ := List.mem_map.1 haction
        exact quiet_sendToClient
    | response hnot _ _ _ =>
        refine hquiet ((hsame hnot).congr rfl rfl rfl rfl id rfl) (List.forall_mem_singleton.2 ?_)
        exact quiet_sendToClient
    | unknown hnot => exact hquiet (hsame hnot) (by simp)
    | request hnot _ =>
        exact hquiet (hsame hnot) (List.forall_mem_singleton.2 (quiet_sendToServer rfl))
    | notification hnot _ =>
        refine hquiet (hsame hnot) fun action haction => ?_
        obtain ⟨conn, -, rfl⟩ := List.mem_map.1 haction
        exact quiet_sendToClient

/-! ## Steps -/

theorem expects_of_spawning {event : BrokerEvent} (hspawn : host.spawning = some (root, language))
    (hexpects : host.expects event = true) :
    event = .serverSpawned root language ∨ ∃ reason, event = .serverSpawnFailed root language reason := by
  unfold BrokerHost.expects at hexpects
  rw [hspawn] at hexpects
  cases event <;> simp at hexpects
  · obtain ⟨rfl, rfl⟩ := hexpects
    exact Or.inl rfl
  · obtain ⟨rfl, rfl⟩ := hexpects
    exact Or.inr ⟨_, rfl⟩

theorem step_eq_some (hstep : host.step event = some host') :
    host.expects event = true ∧ ∃ router actions, host.router.handle event = some (router, actions) ∧
      host' = (host.notice event).carryOut router actions := by
  unfold BrokerHost.step at hstep
  split at hstep
  · rename_i hexpects
    obtain ⟨⟨router, actions⟩, hhandle, hstep⟩ := Option.bind_eq_some_iff.1 hstep
    exact ⟨hexpects, router, actions, hhandle, (Option.some.inj hstep).symm⟩
  · cases hstep

/-- What is kept stays so as long as no entry goes that a connection knows and that does not know
it. -/
theorem Kept.step (h : Kept host) (hkeeps : KeepsClients host event)
    (hstep : host.step event = some host') : Kept host' := by
  obtain ⟨hexpects, router, actions, hhandle, rfl⟩ := step_eq_some hstep
  cases hspawn : host.spawning with
  | some spawn =>
      obtain ⟨root, language⟩ := spawn
      rcases expects_of_spawning hspawn hexpects with rfl | ⟨reason, rfl⟩
      · exact h.serverSpawned hspawn hhandle
      · exact h.serverSpawnFailed hspawn (Option.some.inj hhandle)
  | none =>
      unfold BrokerHost.expects at hexpects
      rw [hspawn] at hexpects
      cases event with
      | clientAttached conn root language argv now order =>
          exact h.clientAttached hspawn hkeeps hhandle
      | clientFrame conn frame now => exact h.clientFrame hspawn hhandle
      | clientDisconnected conn =>
          cases hhandle
          exact h.clientDisconnected hspawn
      | serverSpawned root language => cases hexpects
      | serverSpawnFailed root language reason => cases hexpects
      | serverFrame root language frame now => exact h.serverFrame hspawn hhandle
      | serverDisconnected root language =>
          refine h.tearDown hspawn (fun conn hconn => ?_) (.of_eq hhandle)
          exact hkeeps _ (List.mem_singleton.2 rfl) conn hconn
      | idleSweep now idleTimeout order =>
          refine (h.tearDownEntries hspawn (fun key hkey conn hconn => ?_)
            (idleKeys_idle now idleTimeout order) hhandle).1
          have hclient := hkeeps key hkey conn hconn
          obtain ⟨state, hstate⟩ := Option.isSome_iff_exists.1 (h.connections conn key hconn)
          rw [languageAt_eq hstate, clients_of_isIdle (idleKeys_idle _ _ _ key hkey state hstate)]
            at hclient
          cases hclient

/-! ## Nobody is stranded -/

/-- Whoever is queued when the queue is flushed is answered. -/
theorem answered_of_flush {queued : QueuedInitialize} (answer : Json → Json)
    (hqueued : queued ∈ state.pendingInitializeRequests)
    (hanswer : ∀ id, (answer id).find "id" = some id) :
    ∃ response, BrokerAction.sendToClient queued.connection response ∈
        state.pendingInitializeRequests.map (fun queued =>
          BrokerAction.sendToClient queued.connection (answer queued.originalId)) ∧
      response.find "id" = some queued.originalId :=
  ⟨answer queued.originalId, List.mem_map.2 ⟨queued, hqueued, rfl⟩, hanswer queued.originalId⟩

theorem answered_of_mem {queued : QueuedInitialize}
    (hstate : router.languages.lookup key = some state)
    (hqueued : queued ∈ state.pendingInitializeRequests) : Answered router key state queued where
  answer root language frame now router' actions hkey hanswer hcall := by
    subst hkey
    simp only [BrokerRouter.handle, BrokerRouter.serverFrame, hstate] at hcall
    obtain ⟨⟨next, sent⟩, hframe, hcall⟩ := Option.bind_eq_some_iff.1 hcall
    cases hcall
    cases ServerStep.of_eq hframe with
    | @accepted result _ =>
        obtain ⟨response, hmem, hid⟩ :=
          answered_of_flush (successResponse · result) hqueued fun _ => rfl
        exact ⟨response, List.mem_cons_of_mem _ hmem, hid⟩
    | @rejected reason _ =>
        exact answered_of_flush (errorResponse · reason) hqueued fun _ => rfl
    | response hnot _ _ _ => cases hanswer.symm.trans hnot
    | unknown hnot => cases hanswer.symm.trans hnot
    | request hnot _ => cases hanswer.symm.trans hnot
    | notification hnot _ => cases hanswer.symm.trans hnot
  failure root language reason router' actions hkey hcall := by
    subst hkey
    cases Option.some.inj hcall
    rw [languageAt_eq hstate]
    exact answered_of_flush _ hqueued (find_id_initializeResponse _)
  disconnect root language router' actions hkey hcall := by
    subst hkey
    cases TearDown.of_eq hcall with
    | absent hnone => cases hstate.symm.trans hnone
    | present hsome _ =>
        cases hstate.symm.trans hsome
        refine List.mem_append_right _ (List.mem_map.2 ⟨queued.connection, ?_, rfl⟩)
        exact List.mem_append_right _ (List.mem_map.2 ⟨queued, hqueued, rfl⟩)

theorem Kept.noneStranded (h : Kept host) : NoneStranded host where
  known conn key hconn := by
    obtain ⟨state, hstate⟩ := Option.isSome_iff_exists.1 (h.connections conn key hconn)
    exact ⟨state, hstate, (h.entries key state hstate).started⟩
  waiting key state hstate hqueue := by
    have hentry := h.entries key state hstate
    cases hstatus : state.status with
    | notStarted => exact absurd hstatus hentry.started
    | spawningProcess => exact absurd (hentry.spawning hstatus).1 hqueue
    | awaitingRealHandshake => exact Or.inr ⟨rfl, hentry.awaiting hstatus⟩
    | ready => exact absurd (hentry.settled (Or.inl hstatus)) hqueue
    | failed => exact absurd (hentry.settled (Or.inr hstatus)) hqueue
  answered key state hstate queued hqueued := answered_of_mem hstate hqueued

/-! ## Somebody is stranded -/

theorem stranded_of_lookup (hconn : host.router.connectionKey conn = some key)
    (hnone : host.router.languages.lookup key = none) : ¬ NoneStranded host := by
  intro hkept
  obtain ⟨state, hstate, -⟩ := hkept.known conn key hconn
  cases hnone.symm.trans hstate

theorem idle_stranded {keys : List String} (hidle : AllIdle router keys)
    (htear : router.tearDownEntries keys = some (router', actions)) (hkey : key ∈ keys)
    (hconn : router.connectionKey conn = some key) :
    router'.connectionKey conn = some key ∧ router'.languages.lookup key = none := by
  obtain ⟨hconnections, hlookup⟩ := tearDownEntries_idle hidle htear
  exact ⟨hconnections ▸ hconn, (hlookup key).trans (if_pos hkey)⟩

/-- A step after which nobody is stranded takes no entry from a connection. -/
theorem Kept.keepsClients (h : Kept host) (hstep : host.step event = some host')
    (hnone : NoneStranded host') : KeepsClients host event := by
  obtain ⟨hexpects, router, actions, hhandle, rfl⟩ := step_eq_some hstep
  intro key hkey conn hconn
  -- the router that is left is what counts, whatever the daemon knows
  have hstranded : router.connectionKey conn = some key → router.languages.lookup key = none →
      False := by
    intro hknown hgone
    rw [← carryOut_router (host.notice event) router actions] at hknown hgone
    exact stranded_of_lookup hknown hgone hnone
  cases event with
  | clientAttached conn' root language argv now order =>
      simp only [BrokerRouter.tornDown] at hkey
      split at hkey
      · obtain ⟨state, hstate, -⟩ := evicted_idle hkey
        cases AttachStep.of_eq hhandle with
        | known hknown => simp_all
        | started hfresh htear =>
            obtain ⟨hleft, hgone⟩ := idle_stranded (evicted_allIdle order) htear hkey hconn
            have hne : key ≠ makeKey root language := by
              rintro rfl
              cases hfresh.symm.trans hstate
            have hother : conn ≠ conn' := by
              rintro rfl
              have hused := h.used conn key hconn
              cases hspawn : host.spawning <;> simp_all [BrokerHost.expects]
            refine (hstranded ?_ ?_).elim
            · exact (Function.update_of_ne hother _ _).trans hconn
            · exact (lookup_assign_of_ne hne _ _).trans hgone
      · cases hkey
  | serverDisconnected root language =>
      by_contra hsilent
      rw [List.mem_singleton.1 hkey] at hconn hsilent hstranded
      obtain ⟨hleft, hgone⟩ := (TearDown.of_eq hhandle).stranded hconn hsilent
      exact hstranded hleft hgone
  | idleSweep now idleTimeout order =>
      obtain ⟨hleft, hgone⟩ := idle_stranded (idleKeys_idle now idleTimeout order) hhandle hkey hconn
      exact (hstranded hleft hgone).elim
  | _ => cases hkey

theorem kept_create (maxConcurrentServers : Int) : Kept (.create maxConcurrentServers) := by
  constructor <;> simp [BrokerHost.create, BrokerRouter.create]

/-- In every run of the broker, nobody is stranded throughout exactly when no eviction, sweep or
disconnect of a server takes an entry from a connection that is in neither of its sets. -/
theorem none_stranded_iff {maxConcurrentServers : Int} {events : List BrokerEvent}
    (hrun : run BrokerHost.step (.create maxConcurrentServers) events = some host) :
    (∀ first host', first <+: events →
      run BrokerHost.step (.create maxConcurrentServers) first = some host' → NoneStranded host') ↔
      Admissible BrokerHost.step KeepsClients (.create maxConcurrentServers) events := by
  refine Library.run_holds_iff Kept NoneStranded (fun _ h => h.noneStranded) ?_ ?_
    (kept_create maxConcurrentServers) hrun
  · exact fun _ _ _ h hkeeps hstep => h.step hkeeps hstep
  · exact fun _ _ _ h hstep hnone => h.keepsClients hstep hnone

/-- A client that sends nothing more than its hello while another project opens. -/
def silentClient : List BrokerEvent :=
  [.clientAttached 1 "/a" "cpp" ["clangd"] 0 [],
    .serverSpawned "/a" "cpp",
    .clientFrame 1 (initializeRequest 7 (.object [])) 1]

theorem none_stranded_of_one :
    ∃ host, run BrokerHost.step (.create 1) silentClient = some host ∧
      ((∀ first host', first <+: silentClient →
        run BrokerHost.step (.create 1) first = some host' → NoneStranded host') ↔
        Admissible BrokerHost.step KeepsClients (.create 1) silentClient) :=
  ⟨_, rfl, none_stranded_iff rfl⟩

/-- A client that has attached and sent nothing yet, and another project that takes its place. -/
def evictedClient : List BrokerEvent :=
  [.clientAttached 1 "/a" "cpp" ["clangd"] 0 [],
    .serverSpawned "/a" "cpp",
    .clientAttached 2 "/b" "py" ["pylsp"] 1 [makeKey "/a" "cpp"]]

theorem evicted_client_stranded :
    ¬ ∀ maxConcurrentServers events host,
      run BrokerHost.step (.create maxConcurrentServers) events = some host → NoneStranded host := by
  intro h
  have hrun : ∃ host, run BrokerHost.step (.create 1) evictedClient = some host ∧
      host.router.connectionKey 1 = some (makeKey "/a" "cpp") ∧
      host.router.languages.lookup (makeKey "/a" "cpp") = none := ⟨_, rfl, rfl, rfl⟩
  obtain ⟨host, hrun, hconn, hgone⟩ := hrun
  exact stranded_of_lookup hconn hgone (h 1 evictedClient host hrun)

end Ned.Editor.Lsp
