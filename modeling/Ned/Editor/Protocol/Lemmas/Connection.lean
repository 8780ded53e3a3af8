import Ned.Editor.Protocol.Lemmas.Moves

/-!
# The invariant of a connection

Every conversation is at one of its stages, the channels hold nothing but messages of the protocol,
and requests arrive in the order of their numbers. Each act of an owner keeps this, and no message
that arrives is refused.
-/

namespace Ned.Editor.Protocol

open Relation Conversation

@[simp] theorem Side.peer_peer (side : Side) : side.peer.peer = side := by
  cases side <;> rfl

@[simp] theorem Side.peer_ne (side : Side) : side.peer ≠ side := by
  cases side <;> decide

theorem Side.eq_or_eq_peer (side other : Side) : other = side ∨ other = side.peer := by
  cases side <;> cases other <;> simp [Side.peer]

namespace Connection

variable {c : Connection} {side : Side} {party : Party} {events : List Event} {id : Nat}

/-! ## The conversations of a connection -/

/-- What an entry of the log tells of a request made by `side`. -/
def told (side : Side) (id : Nat) (entry : Side × Event) : Option Told :=
  if entry.1 = side then entry.2.askerTold id else entry.2.serverTold id

/-- The request numbered `id` made by `side`. -/
def conversation (c : Connection) (side : Side) (id : Nat) : Conversation :=
  between (c.party side).core (c.party side.peer).core ((c.party side.peer).responders id) id
    (c.log.filterMap (told side id))

@[simp] theorem set_party_self : (c.set side party events).party side = party :=
  Function.update_self ..

@[simp] theorem set_party_peer : (c.set side party events).party side.peer = c.party side.peer :=
  Function.update_of_ne side.peer_ne _ _

@[simp] theorem set_peer_party : (c.set side.peer party events).party side = c.party side :=
  Function.update_of_ne side.peer_ne.symm _ _

theorem told_events_self (side : Side) (id : Nat) (events : List Event) :
    (events.map (side, ·)).filterMap (told side id) = events.filterMap (Event.askerTold id) := by
  simp [List.filterMap_map, Function.comp_def, told]

theorem told_events_peer (side : Side) (id : Nat) (events : List Event) :
    (events.map (side, ·)).filterMap (told side.peer id) =
      events.filterMap (Event.serverTold id) := by
  simp [List.filterMap_map, Function.comp_def, told, side.peer_ne.symm]

theorem conversation_set_self :
    (c.set side party events).conversation side id =
      between party.core (c.party side.peer).core ((c.party side.peer).responders id) id
        (c.log.filterMap (told side id) ++ events.filterMap (Event.askerTold id)) := by
  rw [conversation, set_party_self, set_party_peer, ← told_events_self side]
  simp [Connection.set]

theorem conversation_set_peer :
    (c.set side party events).conversation side.peer id =
      between (c.party side.peer).core party.core (party.responders id) id
        (c.log.filterMap (told side.peer id) ++ events.filterMap (Event.serverTold id)) := by
  rw [conversation, set_party_peer, Side.peer_peer, set_party_self, ← told_events_peer side]
  simp [Connection.set]

/-! ## The invariant -/

/-- Responses that wait for a backlog to drain are responses, and a result has been given. -/
def Held (party : Party) : Prop :=
  ∀ id entry response, party.core.incoming id = some entry → entry.response = some response →
    IsResponse id response ∧
      (response.contains "result" = true → party.responders id = some true)

/-- The requests on their way from `asker` to `server` arrive in the order of their numbers. -/
structure InOrder (asker server : EndpointCore) : Prop where
  sorted : (server.lastPeerId :: sentRequests asker.sink).Pairwise (· < ·)
  below : ∀ id ∈ server.lastPeerId :: sentRequests asker.sink, id < asker.nextId

structure Sound (c : Connection) : Prop where
  stages : ∀ side id, Stage (c.conversation side id)
  messages : ∀ side, ∀ m ∈ (c.party side).core.sink, IsMessage m
  held : ∀ side, Held (c.party side)
  inOrder : ∀ side, InOrder (c.party side).core (c.party side.peer).core
  numbered : ∀ side id handlers, (side, .request id handlers) ∈ c.log →
    id < (c.party side).core.nextId

theorem create_sound (window : Side → Nat) : Sound (create window) where
  stages _ _ := .unasked
  messages _ _ h := by cases h
  held _ _ _ _ h := by cases h
  inOrder _ := ⟨by simp [create, EndpointCore.create, sentRequests],
    by simp [create, EndpointCore.create, sentRequests]⟩
  numbered _ _ _ h := by cases h

variable {now : Int}

theorem InOrder.congr {asker server asker' server' : EndpointCore} (h : InOrder asker server)
    (hrequests : sentRequests asker'.sink = sentRequests asker.sink)
    (hnext : asker'.nextId = asker.nextId) (hlast : server'.lastPeerId = server.lastPeerId) :
    InOrder asker' server' := by
  obtain ⟨hsorted, hbelow⟩ := h
  rw [← hrequests, ← hlast] at hsorted hbelow
  exact ⟨hsorted, hnext ▸ hbelow⟩

theorem Sound.set (h : Sound c)
    (hself : ∀ id, ReflTransGen Move (c.conversation side id)
      ((c.set side party events).conversation side id))
    (hpeer : ∀ id, ReflTransGen Move (c.conversation side.peer id)
      ((c.set side party events).conversation side.peer id))
    (hmessages : (∀ m ∈ (c.party side).core.sink, IsMessage m) →
      ∀ m ∈ party.core.sink, IsMessage m)
    (hheld : Held party)
    (hrequests : sentRequests party.core.sink = sentRequests (c.party side).core.sink)
    (hnext : party.core.nextId = (c.party side).core.nextId)
    (hlast : party.core.lastPeerId = (c.party side).core.lastPeerId)
    (hsilent : ∀ id handlers, .request id handlers ∉ events) :
    Sound (c.set side party events) where
  stages other id := by
    rcases side.eq_or_eq_peer other with rfl | rfl
    · exact (h.stages _ id).moves (hself id)
    · exact (h.stages _ id).moves (hpeer id)
  messages other := by
    rcases side.eq_or_eq_peer other with rfl | rfl
    · rw [set_party_self]
      exact hmessages (h.messages _)
    · rw [set_party_peer]
      exact h.messages _
  held other := by
    rcases side.eq_or_eq_peer other with rfl | rfl
    · rwa [set_party_self]
    · rw [set_party_peer]
      exact h.held _
  inOrder other := by
    rcases side.eq_or_eq_peer other with rfl | rfl
    · rw [set_party_self, set_party_peer]
      exact (h.inOrder _).congr hrequests hnext rfl
    · rw [set_party_peer, Side.peer_peer, set_party_self]
      have horder := h.inOrder side.peer
      rw [Side.peer_peer] at horder
      exact horder.congr rfl rfl hlast
  numbered other id handlers hmem := by
    rcases List.mem_append.1 hmem with hmem | hmem
    · have hlt := h.numbered other id handlers hmem
      rcases side.eq_or_eq_peer other with rfl | rfl
      · rwa [set_party_self, hnext]
      · rwa [set_party_peer]
    · obtain ⟨event, hevent, heq⟩ := List.mem_map.1 hmem
      cases heq
      exact absurd hevent (hsilent id handlers)

theorem Sound.asks {core : EndpointCore} {frames : List Frame} (h : Sound c)
    (hasks : Asks (c.party side).core core events)
    (hsilent : ∀ id handlers, .request id handlers ∉ events) :
    Sound (c.set side { c.party side with core := core, frames := frames } events) := by
  refine h.set (fun id => ?_) (fun id => ?_) hasks.messages ?_ hasks.requests hasks.nextId
    hasks.lastPeerId hsilent
  · rw [conversation_set_self]
    exact hasks.moves ..
  · rw [conversation_set_peer, hasks.silent, List.append_nil]
    have hsame : between (c.party side.peer).core core ((c.party side).responders id) id
        (c.log.filterMap (told side.peer id)) = c.conversation side.peer id := by
      simp only [conversation, between, Side.peer_peer, hasks.incoming, hasks.replies]
    exact hsame ▸ .refl
  · intro id entry response hentry
    rw [hasks.incoming] at hentry
    exact h.held side id entry response hentry

theorem Sound.serves (h : Sound c) (hserves : Serves id (c.party side).core party.core)
    (hresponders : ∀ i ≠ id, party.responders i = (c.party side).responders i)
    (hasker : ∀ i, events.filterMap (Event.askerTold i) = [])
    (hother : ∀ i ≠ id, events.filterMap (Event.serverTold i) = [])
    (hmoves : ∀ asker tale, ReflTransGen Move
      (between asker (c.party side).core ((c.party side).responders id) id tale)
      (between asker party.core (party.responders id) id
        (tale ++ events.filterMap (Event.serverTold id))))
    (hheld : ∀ entry response, party.core.incoming id = some entry →
      entry.response = some response → IsResponse id response ∧
        (response.contains "result" = true → party.responders id = some true)) :
    Sound (c.set side party events) := by
  refine h.set (fun i => ?_) (fun i => ?_) hserves.messages ?_ hserves.requests hserves.nextId
    hserves.lastPeerId fun i handlers hmem => ?_
  · rw [conversation_set_self, hasker, List.append_nil]
    have hsame : between party.core (c.party side.peer).core ((c.party side.peer).responders i) i
        (c.log.filterMap (told side i)) = c.conversation side i := by
      simp only [conversation, between, hserves.outgoing, hserves.requests]
    exact hsame ▸ .refl
  · rw [conversation_set_peer]
    by_cases hi : i = id
    · subst hi
      simpa only [conversation, Side.peer_peer] using hmoves ..
    · rw [hother i hi, List.append_nil]
      have hsame : between (c.party side.peer).core party.core (party.responders i) i
          (c.log.filterMap (told side.peer i)) = c.conversation side.peer i := by
        simp only [conversation, between, Side.peer_peer, hserves.incoming i hi,
          hserves.replies i hi, hresponders i hi]
      exact hsame ▸ .refl
  · intro i entry response hentry hresponse
    by_cases hi : i = id
    · subst hi
      exact hheld entry response hentry hresponse
    · rw [hserves.incoming i hi] at hentry
      rw [hresponders i hi]
      exact h.held side i entry response hentry hresponse
  · have htold := List.filterMap_eq_nil_iff.1 (hasker i) _ hmem
    simp [Event.askerTold] at htold

theorem Sound.same (h : Sound c) (frames : List Frame) :
    Sound (c.set side { c.party side with frames := frames } []) :=
  h.asks .refl fun _ _ => List.not_mem_nil

/-! ## Acts of the side that serves -/

theorem Sound.chunk (h : Sound c) (id : Nat) (data : Json) :
    Sound (c.set side ((c.party side).chunk id data).1 ((c.party side).chunk id data).2) := by
  unfold Party.chunk
  split
  · rename_i hresponder
    refine h.serves (chunk_serves data) (fun _ _ => rfl) (fun _ => rfl) (fun i hi => ?_)
      (fun asker tale => ?_) fun entry response hentry hresponse => ?_
    · simp [Event.serverTold, hi.symm]
    · simpa [Event.serverTold, hresponder] using chunk_moves data
    · obtain ⟨old, hold, hsame⟩ := chunk_response hentry
      exact h.held side id old response hold (hsame.trans hresponse)
  · exact h.same _

theorem Sound.answer (h : Sound c) {response : Json} (hresponse : IsResponse id response) :
    Sound (c.set side ((c.party side).answer id response) []) := by
  unfold Party.answer
  split
  · rename_i hresponder
    refine h.serves (answer_serves hresponse) (fun i hi => Function.update_of_ne hi _ _)
      (fun _ => rfl) (fun _ _ => rfl) (fun asker tale => ?_) fun entry held hentry hheld => ?_
    · have hanswer : Move (between asker (c.party side).core ((c.party side).responders id) id tale)
          (between asker (c.party side).core (some true) id tale) := .answer hresponder
      simpa [Party.setResponder] using
        (ReflTransGen.single hanswer).trans (answer_moves hresponse fun _ => rfl)
    · obtain rfl := Option.some.inj ((answer_response hentry).symm.trans hheld)
      exact ⟨hresponse, fun _ => Function.update_self ..⟩
  · exact h.same _

theorem Sound.answerError (h : Sound c) (id : Nat) (code : Int) (message : String) (data : Json)
    (frames : List Frame) :
    Sound (c.set side { c.party side with
      frames := frames
      core := (c.party side).core.answer id (errorResponse id code message data) } []) := by
  have hresponse : IsResponse id (errorResponse id code message data) := .error code message data
  refine h.serves (answer_serves hresponse) (fun _ _ => rfl) (fun _ => rfl) (fun _ _ => rfl)
    (fun asker tale => ?_) fun entry held hentry hheld => ?_
  · simpa using answer_moves hresponse fun hresult => by cases hresult
  · obtain rfl := Option.some.inj ((answer_response hentry).symm.trans hheld)
    exact ⟨hresponse, fun hresult => by cases hresult⟩

theorem Sound.onDrained (h : Sound c) (id : Nat) :
    Sound (c.set side ((c.party side).onDrained id) []) := by
  unfold Party.onDrained
  split
  · rename_i entry hresponder hentry
    refine h.serves (.setIncoming _) (fun _ _ => rfl) (fun _ => rfl) (fun _ _ => rfl)
      (fun asker tale => ?_) fun entry' response hentry' hresponse => ?_
    · have hadjust : Move (between asker (c.party side).core ((c.party side).responders id) id tale)
          { between asker (c.party side).core ((c.party side).responders id) id tale with
            incoming := some { entry with onDrained := true } } := .adjust hentry rfl rfl
      simpa using ReflTransGen.single hadjust
    · simp only [EndpointCore.setIncoming, Function.update_self, Option.some.injEq] at hentry'
      subst hentry'
      exact h.held side id entry response hentry hresponse
  · exact h.same _

theorem Sound.thrown (h : Sound c) (what : Option String) :
    Sound (c.set side ((c.party side).thrown what) []) := by
  unfold Party.thrown
  split
  · exact h.answerError ..
  · exact h.same _
  · exact h.same _

/-! ## Acts of the side that asks -/

theorem failExpired_spec (party : Party) (expired : List EndpointCore.Expired) :
    (∃ frames, (party.failExpired expired).1 = { party with frames := frames }) ∧
      (∀ id, (party.failExpired expired).2.filterMap (Event.askerTold id) = []) ∧
      (∀ id, (party.failExpired expired).2.filterMap (Event.serverTold id) = []) ∧
      ∀ id handlers, .request id handlers ∉ (party.failExpired expired).2 := by
  induction expired with
  | nil => exact ⟨⟨party.frames, rfl⟩, fun _ => rfl, fun _ => rfl, fun _ _ => List.not_mem_nil⟩
  | cons request expired ih =>
      unfold Party.failExpired
      split
      · exact ⟨⟨_, rfl⟩, fun _ => rfl, fun _ => rfl, fun _ _ => by simp⟩
      · exact ih

theorem Sound.failExpired {core : EndpointCore} {frames : List Frame} (h : Sound c)
    (hasks : Asks (c.party side).core core events)
    (hsilent : ∀ id handlers, .request id handlers ∉ events) (expired : List EndpointCore.Expired) :
    let failed := { c.party side with core := core, frames := frames : Party }.failExpired expired
    Sound (c.set side failed.1 (events ++ failed.2)) := by
  obtain ⟨⟨frames', hparty⟩, hasker, hserver, hrequest⟩ :=
    failExpired_spec { c.party side with core := core, frames := frames } expired
  simp only [hparty]
  refine h.asks ⟨hasks.incoming, hasks.replies, hasks.lastPeerId, hasks.requests, hasks.nextId,
    hasks.messages, fun i => ?_, fun server responder i tale => ?_⟩ fun id handlers hmem => ?_
  · rw [List.filterMap_append, hasks.silent, hserver, List.append_nil]
  · rw [List.filterMap_append, hasker, List.append_nil]
    exact hasks.moves ..
  · rcases List.mem_append.1 hmem with hmem | hmem
    · exact hsilent id handlers hmem
    · exact hrequest id handlers hmem

theorem Sound.returned (h : Sound c) :
    Sound (c.set side (c.party side).returned.1 (c.party side).returned.2) := by
  unfold Party.returned
  split
  · exact h.same _
  · exact h.same _
  · exact h.asks chunkHandled_asks fun _ _ => List.not_mem_nil
  · exact h.failExpired .refl (fun _ _ => List.not_mem_nil) _

theorem Sound.expireIdle (h : Sound c) (now : Int) (order : List Nat) :
    Sound (c.set side ((c.party side).expireIdle now order).1
      ((c.party side).expireIdle now order).2) := by
  unfold Party.expireIdle
  exact h.failExpired (expireIdle_asks now order) (by simp) _

theorem Sound.cancel (h : Sound c) (id : Nat) :
    Sound (c.set side ((c.party side).cancel id).1 ((c.party side).cancel id).2) := by
  unfold Party.cancel
  refine h.asks cancel_asks fun i handlers hmem => ?_
  split at hmem <;> simp at hmem

theorem requested_of_told {handlers : ResponseHandlers}
    (h : .requested handlers ∈ c.log.filterMap (told side id)) :
    (side, .request id handlers) ∈ c.log := by
  obtain ⟨⟨other, event⟩, hmem, htold⟩ := List.mem_filterMap.1 h
  unfold told at htold
  split at htold
  · rename_i hside
    cases event with
    | request i handlers' =>
        simp only [Event.askerTold] at htold
        split at htold
        · rename_i hi
          cases htold
          simp only at hside
          rwa [hside, hi] at hmem
        · cases htold
    | called call =>
        cases call <;> simp [Event.askerTold] at htold
    | _ => simp [Event.askerTold] at htold
  · cases event <;> simp [Event.serverTold] at htold

theorem Sound.next (h : Sound c) :
    c.conversation side (c.party side).core.nextId = {} :=
  (h.stages side _).eq_unasked fun handlers hmem =>
    Nat.lt_irrefl _ (h.numbered side _ handlers (requested_of_told hmem))

theorem InOrder.request {asker server : EndpointCore} (h : InOrder asker server) (method : String)
    (params : Json) (handlers : ResponseHandlers) (idleLimit : Option Int) (now : Int) :
    InOrder (asker.request method params handlers idleLimit now) server := by
  have hrequests : sentRequests (asker.request method params handlers idleLimit now).sink =
      sentRequests asker.sink ++ [asker.nextId] := by
    simp [EndpointCore.request, EndpointCore.send, EndpointCore.setOutgoing]
  obtain ⟨hsorted, hbelow⟩ := h
  constructor
  · rw [hrequests, ← List.cons_append, List.pairwise_append]
    refine ⟨hsorted, List.pairwise_singleton _ _, fun id hid next hnext => ?_⟩
    obtain rfl := List.mem_singleton.1 hnext
    exact hbelow id hid
  · rw [hrequests, ← List.cons_append]
    intro id hid
    rcases List.mem_append.1 hid with hid | hid
    · exact Nat.lt_succ_of_lt (hbelow id hid)
    · obtain rfl := List.mem_singleton.1 hid
      exact Nat.lt_succ_self _

theorem Sound.request (h : Sound c) (method : String) (params : Json) (handlers : ResponseHandlers)
    (idleLimit : Option Int) (now : Int) :
    Sound (c.set side ((c.party side).request method params handlers idleLimit now).1
      ((c.party side).request method params handlers idleLimit now).2) where
  stages other id := by
    unfold Party.request
    rcases side.eq_or_eq_peer other with rfl | rfl
    · rw [conversation_set_self]
      by_cases hid : id = (c.party other).core.nextId
      · subst hid
        simp only [List.filterMap_cons, List.filterMap_nil, Event.askerTold, if_true]
        exact (request_moves method params handlers idleLimit now h.next).stage
          (h.stages other _)
      · simp only [List.filterMap_cons, List.filterMap_nil, Event.askerTold, if_neg (Ne.symm hid),
          List.append_nil]
        rw [request_between _ _ _ _ _ hid]
        exact h.stages other id
    · rw [conversation_set_peer]
      simp only [List.filterMap_cons, List.filterMap_nil, Event.serverTold, List.append_nil]
      rw [between_request]
      have hstage := h.stages side.peer id
      rwa [conversation, Side.peer_peer] at hstage
  messages other := by
    rcases side.eq_or_eq_peer other with rfl | rfl
    · rw [set_party_self]
      intro m hm
      rcases List.mem_append.1 hm with hm | hm
      · exact h.messages _ m hm
      · obtain rfl := List.mem_singleton.1 hm
        exact .request ..
    · rw [set_party_peer]
      exact h.messages _
  held other := by
    rcases side.eq_or_eq_peer other with rfl | rfl
    · rw [set_party_self]
      exact h.held _
    · rw [set_party_peer]
      exact h.held _
  inOrder other := by
    rcases side.eq_or_eq_peer other with rfl | rfl
    · rw [set_party_self, set_party_peer]
      exact (h.inOrder _).request ..
    · rw [set_party_peer, Side.peer_peer, set_party_self]
      have horder := h.inOrder side.peer
      rw [Side.peer_peer] at horder
      exact horder.congr rfl rfl rfl
  numbered other id handlers' hmem := by
    rcases List.mem_append.1 hmem with hmem | hmem
    · have hlt := h.numbered other id handlers' hmem
      rcases side.eq_or_eq_peer other with rfl | rfl
      · rw [set_party_self]
        exact Nat.lt_succ_of_lt hlt
      · rwa [set_party_peer]
    · cases List.mem_singleton.1 hmem
      rw [set_party_self]
      exact Nat.lt_succ_self _

theorem Sound.perform (h : Sound c) (act : Act) :
    Sound (c.set side ((c.party side).perform act).1 ((c.party side).perform act).2) := by
  cases act with
  | receive => exact h.same _
  | request method params handlers idleLimit now =>
      exact h.request method params handlers idleLimit now
  | cancel id => exact h.cancel id
  | grant id n => exact h.asks (grant_asks n) fun _ _ => List.not_mem_nil
  | expireIdle now order => exact h.expireIdle now order
  | chunk id data => exact h.chunk id data
  | result id result => exact h.answer (.result result)
  | error id code message data => exact h.answer (.error code message data)
  | drop id => exact h.answer (.error ..)
  | onDrained id => exact h.onDrained id
  | handle method => exact h.asks (handle_asks method) fun _ _ => List.not_mem_nil
  | setPeerWindow window =>
      exact h.asks (setPeerWindow_asks window) fun _ _ => List.not_mem_nil
  | returned => exact h.returned
  | thrown what => exact h.thrown what

/-! ## Receiving -/

def pop (c : Connection) (side : Side) (sink : List Json) : Connection :=
  c.set side { c.party side with core := { (c.party side).core with sink := sink } } []

variable {message : Json} {sink : List Json}

theorem Sound.pop (h : Sound c) (hsink : (c.party side).core.sink = message :: sink)
    (hrequests : sentRequests [message] = []) (hreplies : ∀ id, sentReplies id [message] = []) :
    Sound (c.pop side sink) := by
  have hask : sentRequests (c.party side).core.sink = sentRequests sink := by
    rw [hsink, ← List.singleton_append, sentRequests_append, hrequests, List.nil_append]
  refine h.asks ⟨rfl, fun i => ?_, rfl, hask.symm, rfl, fun hall m hm => ?_, fun _ => rfl,
    fun server responder i tale => ?_⟩ fun _ _ => List.not_mem_nil
  · rw [hsink, ← List.singleton_append, sentReplies_append, hreplies, List.nil_append]
  · exact hall m (hsink ▸ List.mem_cons_of_mem _ hm)
  · simpa [between, hask] using ReflTransGen.refl

theorem Sound.credit {entry : Incoming} (h : Sound c)
    (hentry : (c.party side).core.incoming id = some entry) (credit : Nat)
    (hasker : ∀ i, events.filterMap (Event.askerTold i) = [])
    (hserver : ∀ i, events.filterMap (Event.serverTold i) = []) :
    Sound (c.set side { c.party side with
      core := (((c.party side).core.setIncoming id
        (some { entry with credit := credit })).flush id).1 } events) := by
  have hheld : ∀ adjusted response,
      ((c.party side).core.setIncoming id (some { entry with credit := credit })).incoming id =
        some adjusted → adjusted.response = some response → IsResponse id response ∧
          (response.contains "result" = true → (c.party side).responders id = some true) := by
    intro adjusted response hadjusted hresponse
    simp only [EndpointCore.setIncoming, Function.update_self, Option.some.injEq] at hadjusted
    subst hadjusted
    exact h.held side id entry response hentry hresponse
  have hserves := (Serves.setIncoming (some { entry with credit := credit })).trans
    (flush_serves fun adjusted response ha hr => (hheld adjusted response ha hr).1)
  refine h.serves hserves (fun _ _ => rfl) hasker (fun i _ => hserver i) (fun asker tale => ?_)
    fun last response hlast hresponse => ?_
  · have hadjust : Move (between asker (c.party side).core ((c.party side).responders id) id tale)
        (between asker ((c.party side).core.setIncoming id (some { entry with credit := credit }))
          ((c.party side).responders id) id tale) := by
      rw [between_setIncoming]
      exact .adjust hentry rfl rfl
    simpa [hserver] using (ReflTransGen.single hadjust).trans (flush_moves hheld)
  · obtain ⟨adjusted, hadjusted, hsame⟩ := flush_response hlast
    exact hheld adjusted response hadjusted (hsame.trans hresponse)

theorem Sound.cut {entry : Incoming} (h : Sound c)
    (hentry : (c.party side).core.incoming id = some entry) (code : Int) (text : String)
    (data : Json) :
    Sound (c.set side { c.party side with
      core := ((c.party side).core.setIncoming id none).send (errorResponse id code text data) }
      []) := by
  have hresponse : IsResponse id (errorResponse id code text data) := .error code text data
  refine h.serves ((Serves.setIncoming none).trans (.send_response hresponse)) (fun _ _ => rfl)
    (fun _ => rfl) (fun _ _ => rfl) (fun asker tale => ?_) fun last response hlast => ?_
  · rw [between_send_response hresponse, between_setIncoming]
    simpa using ReflTransGen.single (Move.settle hentry fun hresult => by cases hresult)
  · simp [EndpointCore.setIncoming, EndpointCore.send] at hlast

@[simp] theorem pop_party_self : (c.pop side.peer sink).party side = c.party side :=
  set_peer_party

@[simp] theorem pop_party_peer : (c.pop side.peer sink).party side.peer =
    { c.party side.peer with core := { (c.party side.peer).core with sink := sink } } :=
  set_party_self

@[simp] theorem pop_log : (c.pop side sink).log = c.log := by
  simp [Connection.pop, Connection.set]

theorem Sound.arrive (h : Sound c) (hsink : (c.party side.peer).core.sink = message :: sink)
    (hself : ∀ i, ReflTransGen Move (c.conversation side i)
      (between party.core { (c.party side.peer).core with sink := sink }
        ((c.party side.peer).responders i) i
        (c.log.filterMap (told side i) ++ events.filterMap (Event.askerTold i))))
    (hpeer : ∀ i, ReflTransGen Move (c.conversation side.peer i)
      (between { (c.party side.peer).core with sink := sink } party.core (party.responders i) i
        (c.log.filterMap (told side.peer i) ++ events.filterMap (Event.serverTold i))))
    (hmessages : ∀ m ∈ party.core.sink, IsMessage m) (hheld : Held party)
    (hrequests : sentRequests party.core.sink = sentRequests (c.party side).core.sink)
    (hnext : party.core.nextId = (c.party side).core.nextId)
    (horder : InOrder { (c.party side.peer).core with sink := sink } party.core)
    (hsilent : ∀ id handlers, .request id handlers ∉ events) :
    Sound ((c.pop side.peer sink).set side party events) where
  stages other i := by
    rcases side.eq_or_eq_peer other with rfl | rfl
    · rw [conversation_set_self, pop_party_peer, pop_log]
      exact (h.stages _ i).moves (hself i)
    · rw [conversation_set_peer, pop_party_peer, pop_log]
      exact (h.stages _ i).moves (hpeer i)
  messages other m hm := by
    rcases side.eq_or_eq_peer other with rfl | rfl
    · rw [set_party_self] at hm
      exact hmessages m hm
    · rw [set_party_peer, pop_party_peer] at hm
      exact h.messages _ m (hsink ▸ List.mem_cons_of_mem _ hm)
  held other := by
    rcases side.eq_or_eq_peer other with rfl | rfl
    · rwa [set_party_self]
    · rw [set_party_peer, pop_party_peer]
      exact h.held _
  inOrder other := by
    rcases side.eq_or_eq_peer other with rfl | rfl
    · rw [set_party_self, set_party_peer, pop_party_peer]
      exact (h.inOrder _).congr hrequests hnext rfl
    · rw [set_party_peer, Side.peer_peer, set_party_self, pop_party_peer]
      exact horder
  numbered other id handlers hmem := by
    rcases List.mem_append.1 hmem with hmem | hmem
    · rw [pop_log] at hmem
      have hlt := h.numbered other id handlers hmem
      rcases side.eq_or_eq_peer other with rfl | rfl
      · rwa [set_party_self, hnext]
      · rwa [set_party_peer, pop_party_peer]
    · obtain ⟨event, hevent, heq⟩ := List.mem_map.1 hmem
      cases heq
      exact absurd hevent (hsilent id handlers)

theorem Sound.replied {core : EndpointCore} {frames : List Frame} {reply : Reply}
    {entry : Option Outgoing} (h : Sound c)
    (hsink : (c.party side.peer).core.sink = message :: sink)
    (hrequests : sentRequests [message] = [])
    (hreplies : ∀ i, sentReplies i [message] = if id = i then [reply] else [])
    (hmove : Move (c.conversation side id) { c.conversation side id with
      outgoing := entry
      replies := sentReplies id sink
      tale := c.log.filterMap (told side id) ++ events.filterMap (Event.askerTold id) })
    (hasks : Asks ((c.party side).core.setOutgoing id entry) core [])
    (hasker : ∀ i ≠ id, events.filterMap (Event.askerTold i) = [])
    (hserver : ∀ i, events.filterMap (Event.serverTold i) = [])
    (hsilent : ∀ id handlers, .request id handlers ∉ events) :
    Sound ((c.pop side.peer sink).set side
      { c.party side with core := core, frames := frames } events) := by
  have hask : sentRequests (c.party side.peer).core.sink = sentRequests sink := by
    rw [hsink, ← List.singleton_append, sentRequests_append, hrequests, List.nil_append]
  have hreply : ∀ i, sentReplies i (c.party side.peer).core.sink =
      (if id = i then [reply] else []) ++ sentReplies i sink := fun i => by
    rw [hsink, ← List.singleton_append, sentReplies_append, hreplies]
  refine h.arrive hsink (fun i => ?_) (fun i => ?_) (hasks.messages (h.messages side)) ?_
    hasks.requests hasks.nextId ?_ hsilent
  · have hrest := hasks.moves { (c.party side.peer).core with sink := sink }
      ((c.party side.peer).responders i) i
      (c.log.filterMap (told side i) ++ events.filterMap (Event.askerTold i))
    rw [List.filterMap_nil, List.append_nil] at hrest
    refine .trans ?_ hrest
    by_cases hi : i = id
    · subst hi
      refine .single ?_
      simpa [conversation, between, EndpointCore.setOutgoing] using hmove
    · rw [hasker i hi, List.append_nil]
      have hsame : between ((c.party side).core.setOutgoing id entry)
          { (c.party side.peer).core with sink := sink } ((c.party side.peer).responders i) i
          (c.log.filterMap (told side i)) = c.conversation side i := by
        simp [conversation, between, EndpointCore.setOutgoing, hi, hreply, Ne.symm hi]
      exact hsame ▸ .refl
  · rw [hserver, List.append_nil]
    have hsame : between { (c.party side.peer).core with sink := sink } core
        ((c.party side).responders i) i (c.log.filterMap (told side.peer i)) =
        c.conversation side.peer i := by
      simp [conversation, between, hasks.incoming, hasks.replies, hask, EndpointCore.setOutgoing]
    exact hsame ▸ .refl
  · intro i held response hentry
    rw [hasks.incoming] at hentry
    exact h.held side i held response hentry
  · have horder := h.inOrder side.peer
    rw [Side.peer_peer] at horder
    exact horder.congr hask.symm rfl hasks.lastPeerId

theorem InOrder.arrive {asker server : EndpointCore} (h : InOrder asker server)
    (hrequests : sentRequests asker.sink = id :: sentRequests sink) :
    server.lastPeerId < id ∧ id ∉ sentRequests sink ∧
      ∀ server' : EndpointCore, server'.lastPeerId = id →
        InOrder { asker with sink := sink } server' := by
  obtain ⟨hsorted, hbelow⟩ := h
  rw [hrequests] at hsorted hbelow
  obtain ⟨hfirst, hrest⟩ := List.pairwise_cons.1 hsorted
  refine ⟨hfirst id List.mem_cons_self, fun hmem => ?_, fun server' hlast => ⟨?_, ?_⟩⟩
  · exact Nat.lt_irrefl _ ((List.pairwise_cons.1 hrest).1 id hmem)
  · rw [hlast]
    exact hrest
  · rw [hlast]
    exact fun i hi => hbelow i (List.mem_cons_of_mem _ hi)

theorem receive_none {core : EndpointCore}
    (h : party.core.receive now message = .ok (core, none)) :
    party.receive now message = .ok ({ party with core := core }, []) := by
  rw [Party.receive, h]
  rfl

theorem receive_some {core : EndpointCore} {call : Call}
    (h : party.core.receive now message = .ok (core, some call)) :
    party.receive now message =
      .ok ({ party with core := core : Party }.call call, [.called call]) := by
  rw [Party.receive, h]
  rfl

theorem Sound.asked {method : String} {params : Json} (h : Sound c) (now : Int)
    (hsink : (c.party side.peer).core.sink = requestMessage id method params :: sink) :
    ∃ party events, (c.party side).receive now (requestMessage id method params) =
        .ok (party, events) ∧ Sound ((c.pop side.peer sink).set side party events) := by
  have hrequests : sentRequests (c.party side.peer).core.sink = id :: sentRequests sink := by
    rw [hsink, ← List.singleton_append, sentRequests_append, sentRequests_requestMessage]
    rfl
  have hreplies : ∀ i, sentReplies i (c.party side.peer).core.sink = sentReplies i sink := by
    intro i
    rw [hsink, ← List.singleton_append, sentReplies_append, sentReplies_requestMessage]
    rfl
  have horder := h.inOrder side.peer
  rw [Side.peer_peer] at horder
  obtain ⟨hnext, hgone, horder⟩ := horder.arrive hrequests
  have hasked : (c.conversation side.peer id).asked = true := by
    simp [conversation, between, hrequests]
  have hreceive : (c.party side).core.receive now (requestMessage id method params) = _ :=
    (EndpointCore.receive_requestMessage method params).trans (if_neg (Nat.not_le.2 hnext))
  by_cases hmethod : method ∈ (c.party side).core.requestHandlers
  · refine ⟨_, _, receive_some (hreceive.trans (if_pos hmethod)), h.arrive hsink (fun i => ?_)
      (fun i => ?_) (h.messages side) ?_ rfl rfl (horder _ rfl) (by simp)⟩
    · have hsame : between { (c.party side).core with
            lastPeerId := id
            incoming := Function.update (c.party side).core.incoming id
              (some { credit := (c.party side).core.peerWindow }) }
          { (c.party side.peer).core with sink := sink } ((c.party side.peer).responders i) i
          (c.log.filterMap (told side i)) = c.conversation side i := by
        simp [conversation, between, hreplies]
      simp only [List.filterMap_cons, List.filterMap_nil, Event.askerTold, List.append_nil]
      exact hsame ▸ .refl
    · simp only [List.filterMap_cons, List.filterMap_nil, Event.serverTold, List.append_nil]
      by_cases hi : i = id
      · subst hi
        refine .single ?_
        have haccept : Move _ _ := .accept (v := c.conversation side.peer i)
          (e := { credit := (c.party side).core.peerWindow }) hasked rfl rfl
        simpa [conversation, between, Party.call, Party.setResponder, EndpointCore.setIncoming,
          hgone] using haccept
      · have hsame : between { (c.party side.peer).core with sink := sink }
            { (c.party side).core with
              lastPeerId := id
              incoming := Function.update (c.party side).core.incoming id
                (some { credit := (c.party side).core.peerWindow }) }
            (Function.update (c.party side).responders id (some false) i) i
            (c.log.filterMap (told side.peer i)) = c.conversation side.peer i := by
          simp [conversation, between, hrequests, hi]
        exact hsame ▸ .refl
    · intro i entry response hentry hresponse
      by_cases hi : i = id
      · subst hi
        simp only [Party.call, Party.setResponder, EndpointCore.setIncoming, Function.update_self,
          Option.some.injEq] at hentry
        subst hentry
        cases hresponse
      · simp only [Party.call, Party.setResponder, EndpointCore.setIncoming,
          Function.update_of_ne hi] at hentry ⊢
        exact h.held side i entry response hentry hresponse
  · have hresponse : IsResponse id (errorResponse id error_code.kMethodNotFound
        ("unknown method: " ++ method) .null) := .error ..
    refine ⟨_, _, receive_none (hreceive.trans (if_neg hmethod)), h.arrive hsink (fun i => ?_)
      (fun i => ?_) (fun m hm => ?_) (h.held side) ?_ rfl (horder _ rfl) (by simp)⟩
    · have hsame : between (EndpointCore.send { (c.party side).core with lastPeerId := id }
            (errorResponse id error_code.kMethodNotFound ("unknown method: " ++ method) .null))
          { (c.party side.peer).core with sink := sink } ((c.party side.peer).responders i) i
          (c.log.filterMap (told side i)) = c.conversation side i := by
        simp [conversation, between, hreplies, EndpointCore.send, hresponse.sentRequests]
      rw [List.filterMap_nil, List.append_nil]
      exact hsame ▸ .refl
    · rw [List.filterMap_nil, List.append_nil]
      by_cases hi : i = id
      · subst hi
        refine .single ?_
        have hrefuse : Move _ _ := .refuse (v := c.conversation side.peer i) hasked
        simpa [conversation, between, EndpointCore.send, hresponse.sentReplies, hgone,
          contains_result_errorResponse] using hrefuse
      · have hsame : between { (c.party side.peer).core with sink := sink }
            (EndpointCore.send { (c.party side).core with lastPeerId := id }
              (errorResponse id error_code.kMethodNotFound ("unknown method: " ++ method) .null))
            ((c.party side).responders i) i
            (c.log.filterMap (told side.peer i)) = c.conversation side.peer i := by
          simp [conversation, between, hrequests, hi, EndpointCore.send, hresponse.sentReplies,
            Ne.symm hi]
        exact hsame ▸ .refl
    · rcases List.mem_append.1 hm with hm | hm
      · exact h.messages side m hm
      · obtain rfl := List.mem_singleton.1 hm
        exact hresponse.isMessage
    · simp [EndpointCore.send, hresponse.sentRequests]

theorem Sound.chunked {seq : Nat} {data : Json} (h : Sound c) (now : Int)
    (hsink : (c.party side.peer).core.sink = chunkMessage id seq data :: sink) :
    ∃ party events, (c.party side).receive now (chunkMessage id seq data) = .ok (party, events) ∧
      Sound ((c.pop side.peer sink).set side party events) := by
  have hreplies : (c.conversation side id).replies = .chunk seq data :: sentReplies id sink := by
    simp only [conversation, between]
    rw [hsink, ← List.singleton_append, sentReplies_append, sentReplies_chunkMessage, if_pos rfl]
    rfl
  obtain ⟨o, ho, hseq⟩ := (h.stages side id).expected hreplies
  have hreceive : (c.party side).core.receive now (chunkMessage id seq data) = _ :=
    EndpointCore.receive_chunkMessage data ho hseq
  have hmove : Move (c.conversation side id) { c.conversation side id with
      outgoing := some { o with
        nextSeq := o.nextSeq + 1, consumed := o.consumed + 1, lastHeard := now }
      replies := sentReplies id sink
      tale := c.log.filterMap (told side id) ++ heard o data } :=
    .hear hreplies ho rfl rfl rfl
  by_cases hlistens : o.cancelled = false ∧ o.handlers.onChunk = true
  · refine ⟨_, _, receive_some (hreceive.trans (congrArg _ (if_pos hlistens))),
      h.replied hsink rfl (fun i => sentReplies_chunkMessage i id seq data) ?_ .refl
        (fun i hi => ?_) (fun _ => rfl) (by simp)⟩
    · simpa [Event.askerTold, heard, hlistens] using hmove
    · simp [Event.askerTold, Ne.symm hi]
  · refine ⟨_, _, receive_none (hreceive.trans (congrArg _ (if_neg hlistens))),
      h.replied hsink rfl (fun i => sentReplies_chunkMessage i id seq data) ?_ chunkHandled_asks
        (fun _ _ => rfl) (fun _ => rfl) fun _ _ => List.not_mem_nil⟩
    simpa [heard, hlistens] using hmove

theorem Sound.responded {response : Json} (h : Sound c) (now : Int)
    (hresponse : IsResponse id response)
    (hsink : (c.party side.peer).core.sink = response :: sink) :
    ∃ party events, (c.party side).receive now response = .ok (party, events) ∧
      Sound ((c.pop side.peer sink).set side party events) := by
  have hreplies : (c.conversation side id).replies =
      .response (response.contains "result") :: sentReplies id sink := by
    simp only [conversation, between]
    rw [hsink, ← List.singleton_append, sentReplies_append, hresponse.sentReplies, if_pos rfl]
    rfl
  obtain ⟨o, ho, -⟩ := (h.stages side id).awaited hreplies
  obtain ⟨call, hreceive, hcall⟩ := EndpointCore.receive_response now hresponse ho
  have hmove : ∀ told', told' = [] ∨ response.contains "result" = true ∧ told' = [.resulted] →
      Move (c.conversation side id) { c.conversation side id with
        outgoing := none
        replies := sentReplies id sink
        tale := c.log.filterMap (told side id) ++ told' } :=
    fun _ => .finish hreplies ho
  rcases hcall with ⟨result, rfl, hresult⟩ | rfl | ⟨error, rfl⟩
  · refine ⟨_, _, receive_some hreceive, h.replied hsink hresponse.sentRequests
      (fun i => hresponse.sentReplies i id) ?_ .refl (fun i hi => ?_) (fun _ => rfl) (by simp)⟩
    · exact hmove _ (Or.inr ⟨hresult, by simp [Event.askerTold]⟩)
    · simp [Event.askerTold, Ne.symm hi]
  · exact ⟨_, _, receive_none hreceive, h.replied hsink hresponse.sentRequests
      (fun i => hresponse.sentReplies i id) (hmove _ (Or.inl rfl)) .refl (fun _ _ => rfl)
      (fun _ => rfl) fun _ _ => List.not_mem_nil⟩
  · exact ⟨_, _, receive_some hreceive, h.replied hsink hresponse.sentRequests
      (fun i => hresponse.sentReplies i id) (hmove _ (Or.inl rfl)) .refl (fun _ _ => rfl)
      (fun _ => rfl) (by simp)⟩

theorem Sound.steered (h : Sound c) (now : Int)
    (hsink : (c.party side.peer).core.sink = message :: sink)
    (hmessage : (∃ n, message = creditMessage id n) ∨ message = cancelMessage id) :
    ∃ party events, (c.party side).receive now message = .ok (party, events) ∧
      Sound ((c.pop side.peer sink).set side party events) := by
  have hparty : (c.pop side.peer sink).party side = c.party side := pop_party_self
  have hpop : Sound (c.pop side.peer sink) := by
    rcases hmessage with ⟨n, rfl⟩ | rfl
    · exact h.pop hsink rfl fun i => sentReplies_creditMessage i id n
    · exact h.pop hsink rfl fun i => sentReplies_cancelMessage i id
  cases hentry : (c.party side).core.incoming id with
  | none =>
      have hsame : Sound ((c.pop side.peer sink).set side (c.party side) []) := by
        rw [← hparty]
        exact hpop.same ((c.pop side.peer sink).party side).frames
      rcases hmessage with ⟨n, rfl⟩ | rfl
      · refine ⟨_, _, receive_none ?_, hsame⟩
        rw [EndpointCore.receive_creditMessage, hentry]
      · refine ⟨_, _, receive_none ?_, hsame⟩
        rw [EndpointCore.receive_cancelMessage, hentry]
  | some entry =>
      rcases hmessage with ⟨n, rfl⟩ | rfl
      · obtain ⟨credit, call, hreceive, hcall⟩ := receive_credit now n hentry
        have hcredit : ∀ events, (∀ i, events.filterMap (Event.askerTold i) = []) →
            (∀ i, events.filterMap (Event.serverTold i) = []) →
            Sound ((c.pop side.peer sink).set side _ events) :=
          fun events => hpop.credit (hparty ▸ hentry) credit
        rw [hparty] at hcredit
        rcases hcall with rfl | rfl
        · exact ⟨_, _, receive_none hreceive, hcredit [] (fun _ => rfl) fun _ => rfl⟩
        · exact ⟨_, _, receive_some hreceive, hcredit _ (fun _ => rfl) fun _ => rfl⟩
      · have hcut : Sound ((c.pop side.peer sink).set side _ []) :=
          hpop.cut (hparty ▸ hentry) error_code.kCancelled "cancelled" .null
        rw [hparty] at hcut
        refine ⟨_, _, receive_none ?_, hcut⟩
        rw [EndpointCore.receive_cancelMessage, hentry]

theorem Sound.receive (h : Sound c) (side : Side) (now : Int) :
    ∃ c', c.receive side now = .ok c' ∧ Sound c' := by
  unfold Connection.receive
  simp only
  cases hsink : (c.party side.peer).core.sink with
  | nil => exact ⟨c, rfl, h⟩
  | cons message sink =>
      have hmessage := h.messages side.peer message (hsink ▸ List.mem_cons_self)
      have harrive : ∃ party events, (c.party side).receive now message = .ok (party, events) ∧
          Sound ((c.pop side.peer sink).set side party events) := by
        cases hmessage with
        | request id method params => exact h.asked now hsink
        | chunk id seq data => exact h.chunked now hsink
        | credit id n => exact h.steered now hsink (Or.inl ⟨n, rfl⟩)
        | cancel id => exact h.steered now hsink (Or.inr rfl)
        | result id result => exact h.responded now (.result result) hsink
        | error id code message data => exact h.responded now (.error code message data) hsink
      obtain ⟨party, events, hreceive, hsound⟩ := harrive
      have hpopped : ((c.pop side.peer sink).party side).receive now message =
          .ok (party, events) := by
        rwa [pop_party_self]
      refine ⟨_, ?_, hsound⟩
      change (((c.pop side.peer sink).party side).receive now message >>= fun received =>
        pure ((c.pop side.peer sink).set side received.1 received.2)) = _
      rw [hpopped]
      rfl

theorem step_perform {act : Act} (hact : ∀ now, act ≠ .receive now) :
    c.step (side, act) =
      some (c.set side ((c.party side).perform act).1 ((c.party side).perform act).2) := by
  cases act with
  | receive now => exact absurd rfl (hact now)
  | _ => rfl

theorem Sound.step (h : Sound c) (act : Side × Act) : ∃ c', c.step act = some c' ∧ Sound c' := by
  obtain ⟨side, act⟩ := act
  cases act with
  | receive now =>
      obtain ⟨c', hreceive, hsound⟩ := h.receive side now
      refine ⟨c', ?_, hsound⟩
      rw [Connection.step, Connection.perform, hreceive]
      rfl
  | _ => exact ⟨_, step_perform (by simp), h.perform _⟩

end Connection

end Ned.Editor.Protocol
