import Ned.Editor.Lsp.Broker
import Ned.Editor.Lsp.Lemmas.Broker

/-!
# What a daemon keeps

Every entry was started, and one that waits has a spawn or a handshake to wait for.
-/

namespace Ned.Editor.Lsp

open Library (assign erase lookup_assign_self lookup_assign_of_ne lookup_erase_self
  lookup_erase_of_ne)
open Protocol (Json)

variable {host host' : BrokerHost} {router router' : BrokerRouter} {state state' : LanguageState}
  {actions more : List BrokerAction} {conn : ConnectionId} {frame : Json}
  {root language key : String}

/-! ## Tables -/

theorem lookup_setLanguage_self (router : BrokerRouter) (key : String) (state : LanguageState) :
    (router.setLanguage key state).languages.lookup key = some state :=
  lookup_assign_self _ _ _

theorem lookup_setLanguage_of_ne {key' : String} (hne : key' ≠ key) :
    (router.setLanguage key state).languages.lookup key' = router.languages.lookup key' :=
  lookup_assign_of_ne hne _ _

theorem languageAt_eq (h : router.languages.lookup key = some state) :
    router.languageAt key = state := by
  rw [BrokerRouter.languageAt, h, Option.getD_some]

theorem update_connections {connections : ConnectionId → Option String} {key' : String}
    {conn' : ConnectionId} (h : Function.update connections conn (some key) conn' = some key') :
    connections conn' = some key' ∧ conn' ≠ conn ∨ key' = key ∧ conn' = conn := by
  by_cases heq : conn' = conn
  · subst heq
    rw [Function.update_self, Option.some.injEq] at h
    exact Or.inr ⟨h.symm, rfl⟩
  · rw [Function.update_of_ne heq] at h
    exact Or.inl ⟨h, heq⟩

/-! ## What the daemon makes of actions -/

/-- An action that tells the daemon nothing about its servers. -/
def BrokerAction.Quiet (action : BrokerAction) : Prop :=
  ∀ host : BrokerHost, host.perform action = host

theorem quiet_sendToServer (h : initializeId frame = none) :
    (BrokerAction.sendToServer root language frame).Quiet := by
  intro host
  simp only [BrokerHost.perform, h]

theorem quiet_sendToClient : (BrokerAction.sendToClient conn frame).Quiet := fun _ => rfl

theorem quiet_closeClient : (BrokerAction.closeClient conn).Quiet := fun _ => rfl

theorem performAll_append (host : BrokerHost) (actions more : List BrokerAction) :
    host.performAll (actions ++ more) = (host.performAll actions).performAll more :=
  List.foldl_append

theorem performAll_quiet (h : ∀ action ∈ actions, action.Quiet) (host : BrokerHost) :
    host.performAll actions = host := by
  induction actions generalizing host with
  | nil => rfl
  | cons action actions ih =>
      obtain ⟨haction, hactions⟩ := List.forall_mem_cons.1 h
      rw [BrokerHost.performAll, List.foldl_cons, haction host]
      exact ih hactions host

theorem perform_outside (host : BrokerHost) (router : BrokerRouter) (used : List ConnectionId)
    (action : BrokerAction) :
    { host with router := router, used := used }.perform action =
      { host.perform action with router := router, used := used } := by
  cases action with
  | sendToServer root language frame =>
      cases hid : initializeId frame <;> simp only [BrokerHost.perform, hid]
  | _ => rfl

theorem performAll_outside (host : BrokerHost) (router : BrokerRouter) (used : List ConnectionId)
    (actions : List BrokerAction) :
    { host with router := router, used := used }.performAll actions =
      { host.performAll actions with router := router, used := used } := by
  induction actions generalizing host with
  | nil => rfl
  | cons action actions ih =>
      rw [BrokerHost.performAll, List.foldl_cons, perform_outside]
      exact ih (host.perform action)

theorem carryOut_eq (host : BrokerHost) (router : BrokerRouter) (actions : List BrokerAction) :
    host.carryOut router actions =
      { host.performAll actions with router := router, used := host.used } :=
  performAll_outside host router host.used actions

theorem carryOut_router (host : BrokerHost) (router : BrokerRouter) (actions : List BrokerAction) :
    (host.carryOut router actions).router = router := by
  rw [carryOut_eq]

theorem carryOut_append (host : BrokerHost) (router router' : BrokerRouter)
    (actions more : List BrokerAction) :
    host.carryOut router' (actions ++ more) =
      (host.carryOut router actions).carryOut router' more := by
  have hmore := performAll_outside (host.performAll actions) router host.used more
  rw [carryOut_eq, carryOut_eq _ router', carryOut_eq host router, performAll_append, hmore]

theorem carryOut_quiet (h : ∀ action ∈ actions, action.Quiet) :
    host.carryOut router actions = { host with router := router } := performAll_quiet h _

theorem find_method_withId (frame id : Json) :
    (withId frame id).find "method" = frame.find "method" := by
  cases frame <;> try rfl
  exact lookup_assign_of_ne (by decide) _ _

theorem initializeId_of_no_id (h : frame.find "id" = none) : initializeId frame = none := by
  simp [initializeId, h]

theorem initializeId_of_method
    (h : (frame.find "method").bind Json.asString ≠ some "initialize") :
    initializeId frame = none := if_neg h

/-! ## What is kept -/

structure EntryKept (host : BrokerHost) (key : String) (state : LanguageState) : Prop where
  key_eq : makeKey state.root state.language = key
  started : state.status ≠ .notStarted
  spawning : state.status = .spawningProcess → state.pendingInitializeRequests = [] ∧
    (state.processRunning = true ∧ key ∈ host.live ∨
      ∃ root language, host.spawning = some (root, language) ∧ makeKey root language = key)
  awaiting : state.status = .awaitingRealHandshake →
    key ∈ host.live ∧ host.outstanding key = some state.handshakeBrokerId
  settled : state.status = .ready ∨ state.status = .failed → state.pendingInitializeRequests = []

structure Kept (host : BrokerHost) : Prop where
  entries : ∀ key state, host.router.languages.lookup key = some state → EntryKept host key state
  connections : ∀ conn key, host.router.connectionKey conn = some key →
    (host.router.languages.lookup key).isSome = true
  used : ∀ conn key, host.router.connectionKey conn = some key → conn ∈ host.used
  spawning : ∀ root language, host.spawning = some (root, language) →
    ∃ state, host.router.languages.lookup (makeKey root language) = some state ∧
      state.status = .spawningProcess

theorem EntryKept.mono (h : EntryKept host key state) (hlive : key ∈ host.live → key ∈ host'.live)
    (houtstanding : host'.outstanding key = host.outstanding key)
    (hspawning : ∀ root language, host.spawning = some (root, language) →
      makeKey root language = key → host'.spawning = some (root, language)) :
    EntryKept host' key state where
  key_eq := h.key_eq
  started := h.started
  spawning hstatus := by
    obtain ⟨hqueue, hrunning⟩ := h.spawning hstatus
    refine ⟨hqueue, hrunning.imp (And.imp_right hlive) ?_⟩
    rintro ⟨root, language, hspawn, hkey⟩
    exact ⟨root, language, hspawning root language hspawn hkey, hkey⟩
  awaiting hstatus := by
    obtain ⟨hrunning, hanswer⟩ := h.awaiting hstatus
    exact ⟨hlive hrunning, houtstanding.trans hanswer⟩
  settled := h.settled

theorem Kept.update (h : Kept host)
    (hlanguages : host'.router.languages = assign host.router.languages key state')
    (hconnections : ∀ conn key', host'.router.connectionKey conn = some key' →
      host.router.connectionKey conn = some key' ∧ conn ∈ host'.used ∨
        key' = key ∧ conn ∈ host'.used)
    (hentry : EntryKept host' key state')
    (hothers : ∀ key' state, key' ≠ key → EntryKept host key' state → EntryKept host' key' state)
    (hspawning : ∀ root language, host'.spawning = some (root, language) →
      makeKey root language = key ∧ state'.status = .spawningProcess) : Kept host' where
  entries key' state hstate := by
    rw [hlanguages] at hstate
    by_cases hkey : key' = key
    · subst hkey
      rw [lookup_assign_self, Option.some.injEq] at hstate
      exact hstate ▸ hentry
    · rw [lookup_assign_of_ne hkey] at hstate
      exact hothers key' state hkey (h.entries key' state hstate)
  connections conn key' hconn := by
    rw [hlanguages]
    by_cases hkey : key' = key
    · rw [hkey, lookup_assign_self]
      rfl
    · rw [lookup_assign_of_ne hkey]
      rcases hconnections conn key' hconn with ⟨hknown, -⟩ | ⟨heq, -⟩
      · exact h.connections conn key' hknown
      · exact absurd heq hkey
  used conn key' hconn := (hconnections conn key' hconn).elim And.right And.right
  spawning root language hspawn := by
    obtain ⟨hkey, hstatus⟩ := hspawning root language hspawn
    exact ⟨state', by rw [hlanguages, hkey, lookup_assign_self], hstatus⟩

/-! ## Tearing down -/

theorem farewell_quiet (h : state.farewell = some actions) : ∀ action ∈ actions, action.Quiet := by
  unfold LanguageState.farewell at h
  split at h
  · obtain ⟨⟨shutdownId, next⟩, -, h⟩ := Option.bind_eq_some_iff.1 h
    cases h
    refine List.forall_mem_cons.2 ⟨quiet_sendToServer rfl, List.forall_mem_singleton.2 ?_⟩
    exact quiet_sendToServer rfl
  · cases h
    simp

/-- What `TearDownEntry` does. -/
inductive TearDown (router : BrokerRouter) (key : String) : BrokerRouter → List BrokerAction → Prop
  | absent (h : router.languages.lookup key = none) : TearDown router key router []
  | present {state : LanguageState} {farewell : List BrokerAction}
      (h : router.languages.lookup key = some state) (hfarewell : state.farewell = some farewell) :
      TearDown router key
        { router with
          languages := erase router.languages key
          connectionKey := fun conn =>
            if conn ∈ state.clients then none else router.connectionKey conn }
        (farewell ++ (if state.status ≠ .notStarted then
          [BrokerAction.closeServer state.root state.language] else []) ++
          state.clients.map .closeClient)

theorem TearDown.of_eq (h : router.tearDownEntry key = some (router', actions)) :
    TearDown router key router' actions := by
  unfold BrokerRouter.tearDownEntry at h
  split at h
  · rename_i hnone
    cases h
    exact .absent hnone
  · rename_i state hstate
    obtain ⟨farewell, hfarewell, h⟩ := Option.bind_eq_some_iff.1 h
    cases h
    exact .present hstate hfarewell

theorem performAll_tearDown (hkey : makeKey state.root state.language = key)
    (hstarted : state.status ≠ .notStarted) {farewell : List BrokerAction}
    (hfarewell : state.farewell = some farewell) (host : BrokerHost) :
    host.performAll (farewell ++ (if state.status ≠ .notStarted then
        [BrokerAction.closeServer state.root state.language] else []) ++
        state.clients.map .closeClient) =
      { host with
        live := host.live.filter (· ≠ key)
        outstanding := Function.update host.outstanding key none } := by
  rw [if_pos hstarted, performAll_append, performAll_append,
    performAll_quiet (farewell_quiet hfarewell), performAll_quiet]
  · subst hkey
    rfl
  · intro action haction
    obtain ⟨conn, -, rfl⟩ := List.mem_map.1 haction
    exact quiet_closeClient

theorem Kept.tearDown (h : Kept host) (hidle : host.spawning = none)
    (hclients : ∀ conn, host.router.connectionKey conn = some key →
      conn ∈ (host.router.languageAt key).clients)
    (htear : TearDown host.router key router' actions) :
    Kept (host.carryOut router' actions) := by
  unfold BrokerHost.carryOut
  cases htear with
  | absent hnone => exact h
  | @present state farewell hstate hfarewell =>
      have hentry := h.entries key state hstate
      rw [performAll_tearDown hentry.key_eq hentry.started hfarewell]
      rw [languageAt_eq hstate] at hclients
      have hgone : ∀ conn key', (if conn ∈ state.clients then none
          else host.router.connectionKey conn) = some key' →
          host.router.connectionKey conn = some key' ∧ key' ≠ key := by
        intro conn key' hconn
        split at hconn
        · cases hconn
        · rename_i hnot
          exact ⟨hconn, fun hkey => hnot (hclients conn (hkey ▸ hconn))⟩
      constructor
      · intro key' state' hstate'
        have hne : key' ≠ key := by
          intro hkey
          rw [hkey, lookup_erase_self] at hstate'
          cases hstate'
        rw [lookup_erase_of_ne hne] at hstate'
        refine (h.entries key' state' hstate').mono (fun hlive => ?_)
          (Function.update_of_ne hne _ _) fun _ _ hspawn _ => hspawn
        exact List.mem_filter.2 ⟨hlive, decide_eq_true hne⟩
      · intro conn key' hconn
        obtain ⟨hknown, hne⟩ := hgone conn key' hconn
        rw [lookup_erase_of_ne hne]
        exact h.connections conn key' hknown
      · intro conn key' hconn
        exact h.used conn key' (hgone conn key' hconn).1
      · intro root language hspawn
        rw [hidle] at hspawn
        cases hspawn

theorem TearDown.stranded (htear : TearDown router key router' actions)
    (hconn : router.connectionKey conn = some key)
    (hsilent : conn ∉ (router.languageAt key).clients) :
    router'.connectionKey conn = some key ∧ router'.languages.lookup key = none := by
  cases htear with
  | absent hnone => exact ⟨hconn, hnone⟩
  | present hstate _ =>
      rw [languageAt_eq hstate] at hsilent
      exact ⟨(if_neg hsilent).trans hconn, lookup_erase_self _ _⟩

/-! ## Tearing down idle entries -/

theorem clients_of_isIdle (h : state.isIdle = true) : state.clients = [] := by
  simp only [LanguageState.isIdle, Bool.and_eq_true, List.isEmpty_iff] at h
  rw [LanguageState.clients, h.1, h.2]
  rfl

def AllIdle (router : BrokerRouter) (keys : List String) : Prop :=
  ∀ key ∈ keys, ∀ state, router.languages.lookup key = some state → state.isIdle = true

theorem AllIdle.tail {keys : List String} (h : AllIdle router (key :: keys))
    (htear : TearDown router key router' actions) : AllIdle router' keys := by
  intro key' hkey' state hstate
  cases htear with
  | absent _ => exact h key' (List.mem_cons_of_mem _ hkey') state hstate
  | present _ _ =>
      by_cases heq : key' = key
      · rw [heq, lookup_erase_self] at hstate
        cases hstate
      · rw [lookup_erase_of_ne heq] at hstate
        exact h key' (List.mem_cons_of_mem _ hkey') state hstate

theorem TearDown.connectionKey_eq (htear : TearDown router key router' actions)
    (hidle : ∀ state, router.languages.lookup key = some state → state.isIdle = true) :
    router'.connectionKey = router.connectionKey := by
  cases htear with
  | absent _ => rfl
  | present hstate _ =>
      funext conn
      simp [clients_of_isIdle (hidle _ hstate)]

theorem TearDown.lookup (htear : TearDown router key router' actions) (key' : String) :
    router'.languages.lookup key' =
      if key' = key then none else router.languages.lookup key' := by
  cases htear with
  | absent hnone =>
      split
      · rename_i heq
        rw [heq, hnone]
      · rfl
  | present _ _ =>
      split
      · rename_i heq
        rw [heq]
        exact lookup_erase_self _ _
      · rename_i hne
        exact lookup_erase_of_ne hne _

theorem tearDownEntries_idle {keys : List String} (hidle : AllIdle router keys)
    (h : router.tearDownEntries keys = some (router', actions)) :
    router'.connectionKey = router.connectionKey ∧
      ∀ key, router'.languages.lookup key =
        if key ∈ keys then none else router.languages.lookup key := by
  induction keys generalizing router actions with
  | nil =>
      cases h
      exact ⟨rfl, fun key => by simp⟩
  | cons key keys ih =>
      obtain ⟨⟨next, first⟩, hfirst, h⟩ := Option.bind_eq_some_iff.1 h
      obtain ⟨⟨last, rest⟩, hrest, h⟩ := Option.bind_eq_some_iff.1 h
      cases h
      have htear := TearDown.of_eq hfirst
      obtain ⟨hconnections, hlookup⟩ := ih (hidle.tail htear) hrest
      refine ⟨hconnections.trans (htear.connectionKey_eq (hidle key List.mem_cons_self)), fun k => ?_⟩
      rw [hlookup, htear.lookup]
      by_cases hk : k = key
      · simp [hk]
      · simp [hk]

theorem tearDownEntry_withConnections (connections : ConnectionId → Option String)
    (hidle : ∀ state, router.languages.lookup key = some state → state.isIdle = true) :
    { router with connectionKey := connections }.tearDownEntry key =
      (router.tearDownEntry key).map fun result =>
        ({ result.1 with connectionKey := connections }, result.2) := by
  unfold BrokerRouter.tearDownEntry
  cases hstate : router.languages.lookup key with
  | none => rfl
  | some state =>
      cases hfarewell : state.farewell with
      | none => simp [hfarewell]
      | some farewell => simp [hfarewell, clients_of_isIdle (hidle state hstate)]

theorem tearDownEntries_withConnections (connections : ConnectionId → Option String)
    {keys : List String} (hidle : AllIdle router keys) :
    { router with connectionKey := connections }.tearDownEntries keys =
      (router.tearDownEntries keys).map fun result =>
        ({ result.1 with connectionKey := connections }, result.2) := by
  induction keys generalizing router with
  | nil => rfl
  | cons key keys ih =>
      rw [BrokerRouter.tearDownEntries, BrokerRouter.tearDownEntries,
        tearDownEntry_withConnections connections (hidle key List.mem_cons_self)]
      cases hfirst : router.tearDownEntry key with
      | none => rfl
      | some result =>
          obtain ⟨next, first⟩ := result
          simp only [Option.map_some, Option.bind_eq_bind, Option.bind_some]
          rw [ih (hidle.tail (.of_eq hfirst))]
          cases next.tearDownEntries keys <;> rfl

theorem idleKeys_idle (now idleTimeout : Int) (order : List String) :
    AllIdle router (router.idleKeys now idleTimeout order) := by
  intro key hkey state hstate
  have hmem := (List.mem_filter.1 hkey).2
  simp only [hstate, Bool.and_eq_true] at hmem
  exact hmem.1

/-- A key that names an idle entry, if it names any. -/
def NamesIdle (router : BrokerRouter) (key : String) : Prop :=
  key.isEmpty = false → ∃ state, router.languages.lookup key = some state ∧ state.isIdle = true

theorem olderIdle_idle {oldest : String × Int} (h : NamesIdle router oldest.1) (key : String) :
    NamesIdle router (router.olderIdle oldest key).1 := by
  unfold BrokerRouter.olderIdle
  split
  · rename_i state hstate
    split
    · rename_i hidle
      rw [Bool.and_eq_true] at hidle
      exact fun _ => ⟨state, hstate, hidle.1⟩
    · exact h
  · exact h

theorem oldestIdle_idle (order : List String) : NamesIdle router (router.oldestIdle order).1 := by
  have hfold : ∀ oldest : String × Int, NamesIdle router oldest.1 →
      NamesIdle router (order.foldl router.olderIdle oldest).1 := by
    induction order with
    | nil => exact fun oldest h => h
    | cons key order ih => exact fun oldest h => ih _ (olderIdle_idle h key)
  refine hfold ("", timeMax) fun hempty => ?_
  simp at hempty

theorem evicted_idle {order : List String} (h : key ∈ router.evicted order) :
    ∃ state, router.languages.lookup key = some state ∧ state.isIdle = true := by
  unfold BrokerRouter.evicted at h
  split at h
  · cases h
  · simp only at h
    split at h
    · cases h
    · rename_i hsome
      rw [List.mem_singleton.1 h]
      exact oldestIdle_idle order (by simpa using hsome)

theorem evicted_allIdle (order : List String) : AllIdle router (router.evicted order) := by
  intro key hkey state hstate
  obtain ⟨state', hstate', hidle⟩ := evicted_idle hkey
  rw [hstate', Option.some.injEq] at hstate
  exact hstate ▸ hidle

/-- What `ClientAttached` does. The entries that make room are idle, so no connection goes with
them. -/
inductive AttachStep (router : BrokerRouter) (conn : ConnectionId) (root language : String)
    (argv : List String) (now : Int) (order : List String) :
    BrokerRouter → List BrokerAction → Prop
  | known {state : LanguageState}
      (hstate : router.languages.lookup (makeKey root language) = some state) :
      AttachStep router conn root language argv now order
        { router.setLanguage (makeKey root language) { state with lastActive := now } with
          connectionKey :=
            Function.update router.connectionKey conn (some (makeKey root language)) } []
  | started {roomy : BrokerRouter} {gone : List BrokerAction}
      (hnone : router.languages.lookup (makeKey root language) = none)
      (htear : router.tearDownEntries (router.evicted order) = some (roomy, gone)) :
      AttachStep router conn root language argv now order
        { roomy.setLanguage (makeKey root language)
            { root := root, language := language, argv := argv, status := .spawningProcess,
              lastActive := now } with
          connectionKey :=
            Function.update router.connectionKey conn (some (makeKey root language)) }
        (gone ++ [.spawnServer root language argv])

theorem AttachStep.of_eq {argv order : List String} {now : Int}
    (h : router.clientAttached conn root language argv now order = some (router', actions)) :
    AttachStep router conn root language argv now order router' actions := by
  unfold BrokerRouter.clientAttached at h
  simp only at h
  split at h
  · rename_i hnone
    obtain ⟨⟨next, gone⟩, hevict, h⟩ := Option.bind_eq_some_iff.1 h
    have hidle : AllIdle router (router.evicted order) := evicted_allIdle order
    have hmapped := (tearDownEntries_withConnections _ hidle).symm.trans hevict
    obtain ⟨⟨roomy, gone'⟩, htear, heq⟩ := Option.map_eq_some_iff.1 hmapped
    cases heq
    cases h
    exact .started hnone htear
  · rename_i state hstate
    cases h
    exact .known hstate

/-! ## Keeping -/

theorem TearDown.carryOut (h : Kept host) (htear : TearDown host.router key router' actions) :
    (host.carryOut router' actions).spawning = host.spawning ∧
      (host.carryOut router' actions).used = host.used := by
  unfold BrokerHost.carryOut
  cases htear with
  | absent _ => exact ⟨rfl, rfl⟩
  | present hstate hfarewell =>
      have hentry := h.entries key _ hstate
      rw [performAll_tearDown hentry.key_eq hentry.started hfarewell]
      exact ⟨rfl, rfl⟩

theorem Kept.tearDownEntries {keys : List String} (h : Kept host) (hidle : host.spawning = none)
    (hunknown : ∀ key ∈ keys, ∀ conn, host.router.connectionKey conn ≠ some key)
    (hkeys : AllIdle host.router keys)
    (htear : host.router.tearDownEntries keys = some (router', actions)) :
    Kept (host.carryOut router' actions) ∧ (host.carryOut router' actions).spawning = none ∧
      (host.carryOut router' actions).used = host.used := by
  induction keys generalizing host actions with
  | nil =>
      cases htear
      exact ⟨h, hidle, rfl⟩
  | cons key keys ih =>
      obtain ⟨⟨next, first⟩, hfirst, htear⟩ := Option.bind_eq_some_iff.1 htear
      obtain ⟨⟨last, rest⟩, hrest, htear⟩ := Option.bind_eq_some_iff.1 htear
      cases htear
      have hfirst := TearDown.of_eq hfirst
      have hkept := h.tearDown hidle
        (fun conn hconn => absurd hconn (hunknown key List.mem_cons_self conn)) hfirst
      obtain ⟨hspawning, hused⟩ := hfirst.carryOut h
      have hrouter := carryOut_router host next first
      have hconnections := hfirst.connectionKey_eq (hkeys key List.mem_cons_self)
      rw [carryOut_append host next, ← hused]
      refine ih hkept (hspawning.trans hidle) (fun key' hkey' conn => ?_) ?_
        (by rw [hrouter]; exact hrest)
      · rw [hrouter, hconnections]
        exact hunknown key' (List.mem_cons_of_mem _ hkey') conn
      · rw [hrouter]
        exact hkeys.tail hfirst

end Ned.Editor.Lsp
