import Ned.Editor.Protocol.Lemmas.Messages

/-!
# What an endpoint does is a move of each conversation

An endpoint has two halves: the requests it makes, and the requests it serves. Each operation
touches one half, and there the conversations it moves.
-/

namespace Ned.Editor.Protocol

open Relation EndpointCore

/-- What two endpoints and the channels between them know of a request. -/
def Conversation.between (asker server : EndpointCore) (responder : Option Bool) (id : Nat)
    (tale : List Told) : Conversation where
  outgoing := asker.outgoing id
  asked := (sentRequests asker.sink).contains id
  incoming := server.incoming id
  replies := sentReplies id server.sink
  responder := responder
  tale := tale

open Conversation

variable {core core' core'' : EndpointCore} {id i : Nat}

/-! ## The half that serves -/

/-- Only what is served of one request has changed. -/
structure Serves (id : Nat) (core core' : EndpointCore) : Prop where
  outgoing : core'.outgoing = core.outgoing
  requests : sentRequests core'.sink = sentRequests core.sink
  nextId : core'.nextId = core.nextId
  lastPeerId : core'.lastPeerId = core.lastPeerId
  incoming : ∀ i ≠ id, core'.incoming i = core.incoming i
  replies : ∀ i ≠ id, sentReplies i core'.sink = sentReplies i core.sink
  messages : (∀ m ∈ core.sink, IsMessage m) → ∀ m ∈ core'.sink, IsMessage m

namespace Serves

theorem refl : Serves id core core :=
  ⟨rfl, rfl, rfl, rfl, fun _ _ => rfl, fun _ _ => rfl, fun h => h⟩

theorem trans (h : Serves id core core') (h' : Serves id core' core'') : Serves id core core'' where
  outgoing := h'.outgoing.trans h.outgoing
  requests := h'.requests.trans h.requests
  nextId := h'.nextId.trans h.nextId
  lastPeerId := h'.lastPeerId.trans h.lastPeerId
  incoming i hi := (h'.incoming i hi).trans (h.incoming i hi)
  replies i hi := (h'.replies i hi).trans (h.replies i hi)
  messages := h'.messages ∘ h.messages

theorem setIncoming (entry : Option Incoming) : Serves id core (core.setIncoming id entry) where
  outgoing := rfl
  requests := rfl
  nextId := rfl
  lastPeerId := rfl
  incoming _ hi := Function.update_of_ne hi _ _
  replies _ _ := rfl
  messages h := h

theorem send_chunk (seq : Nat) (data : Json) :
    Serves id core (core.send (chunkMessage id seq data)) where
  outgoing := rfl
  requests := by simp [EndpointCore.send]
  nextId := rfl
  lastPeerId := rfl
  incoming _ _ := rfl
  replies i hi := by simp [EndpointCore.send, sentReplies_chunkMessage, hi.symm]
  messages h m hm := by
    rcases List.mem_append.1 hm with hm | hm
    · exact h m hm
    · obtain rfl := List.mem_singleton.1 hm
      exact .chunk id seq data

theorem send_response {response : Json} (hresponse : IsResponse id response) :
    Serves id core (core.send response) where
  outgoing := rfl
  requests := by simp [EndpointCore.send, hresponse.sentRequests]
  nextId := rfl
  lastPeerId := rfl
  incoming _ _ := rfl
  replies i hi := by simp [EndpointCore.send, hresponse.sentReplies, hi.symm]
  messages h m hm := by
    rcases List.mem_append.1 hm with hm | hm
    · exact h m hm
    · obtain rfl := List.mem_singleton.1 hm
      exact hresponse.isMessage

end Serves

section Serving

variable {asker : EndpointCore} {responder : Option Bool} {tale : List Told} {entry : Incoming}

@[simp] theorem between_setIncoming (entry : Option Incoming) :
    between asker (core.setIncoming id entry) responder id tale =
      { between asker core responder id tale with incoming := entry } := by
  simp [between, setIncoming]

theorem between_send_chunk (seq : Nat) (data : Json) :
    between asker (core.send (chunkMessage id seq data)) responder id tale =
      let v := between asker core responder id tale
      { v with replies := v.replies ++ [.chunk seq data] } := by
  simp [between, send, sentReplies_chunkMessage]

theorem between_send_response {response : Json} (h : IsResponse id response) :
    between asker (core.send response) responder id tale =
      let v := between asker core responder id tale
      { v with replies := v.replies ++ [.response (response.contains "result")] } := by
  simp [between, send, h.sentReplies]

theorem chunk_serves (data : Json) : Serves id core (core.chunk id data) := by
  unfold EndpointCore.chunk
  split
  · exact .refl
  · split
    · exact (Serves.send_chunk _ _).trans (.setIncoming _)
    · exact .setIncoming _

theorem chunk_moves (data : Json) :
    ReflTransGen Move (between asker core (some false) id tale)
      (between asker (core.chunk id data) (some false) id (tale ++ [.passed data])) := by
  unfold EndpointCore.chunk
  split
  · rename_i hnone
    exact .single (.lose rfl hnone)
  · rename_i entry hentry
    split
    · rename_i hcredit
      have hqueue : Move (between asker core (some false) id tale)
          { between asker core (some false) id tale with
            incoming := some { entry with queued := [data] }
            tale := tale ++ [.passed data] } :=
        .queue rfl hentry rfl (by rw [hcredit.2]; rfl)
      refine (ReflTransGen.single hqueue).tail ?_
      rw [sendChunk, between_setIncoming, between_send_chunk]
      exact .send (e := { entry with queued := [data] }) rfl (by rw [hcredit.2]) rfl
    · rw [between_setIncoming]
      exact .single (.queue rfl hentry rfl rfl)

theorem answer_serves {response : Json} (h : IsResponse id response) :
    Serves id core (core.answer id response) := by
  unfold EndpointCore.answer
  split
  · exact .refl
  · split
    · exact (Serves.setIncoming _).trans (.send_response h)
    · exact .setIncoming _

theorem answer_moves {response : Json} (h : IsResponse id response)
    (hresult : response.contains "result" = true → responder = some true) :
    ReflTransGen Move (between asker core responder id tale)
      (between asker (core.answer id response) responder id tale) := by
  unfold EndpointCore.answer
  split
  · exact .refl
  · rename_i entry hentry
    split
    · rename_i hqueued
      rw [between_send_response h, between_setIncoming]
      exact .single (.settle hentry fun hok => ⟨hqueued, hresult hok⟩)
    · rw [between_setIncoming]
      exact .single (.adjust hentry rfl rfl)

theorem drain_serves (queued : List Json) :
    Serves id core (core.drain id entry queued).1 := by
  induction queued generalizing core entry with
  | nil => exact .refl
  | cons data queued ih =>
      unfold drain
      split
      · exact (Serves.send_chunk _ _).trans ih
      · exact .refl

theorem drain_moves (asker core : EndpointCore) (responder : Option Bool) (id : Nat)
    (tale : List Told) (entry : Incoming) (queued : List Json) :
    ReflTransGen Move
      { between asker core responder id tale with incoming := some { entry with queued := queued } }
      { between asker (core.drain id entry queued).1 responder id tale with
        incoming := some (core.drain id entry queued).2 } := by
  induction queued generalizing core entry with
  | nil => exact .refl
  | cons data queued ih =>
      unfold drain
      split
      · refine .head ?_ (ih _ _)
        simp only [between_send_chunk]
        exact .send (e := { entry with queued := data :: queued }) rfl rfl rfl
      · exact .refl

theorem drain_response (queued : List Json) :
    (core.drain id entry queued).2.response = entry.response := by
  induction queued generalizing core entry with
  | nil => rfl
  | cons data queued ih =>
      unfold drain
      split
      · exact ih
      · rfl

theorem flush_serves
    (hheld : ∀ entry response, core.incoming id = some entry → entry.response = some response →
      IsResponse id response) :
    Serves id core (core.flush id).1 := by
  unfold flush
  split
  · exact .refl
  · rename_i entry hentry
    have hdrain : Serves id core (core.drain id entry entry.queued).1 := drain_serves _
    simp only
    split
    · exact hdrain.trans (.setIncoming _)
    · split
      · rename_i response hresponse
        have hheld := hheld entry response hentry ((drain_response _).symm.trans hresponse)
        exact hdrain.trans ((Serves.setIncoming _).trans (.send_response hheld))
      · exact hdrain.trans (.setIncoming _)

theorem chunk_response {data : Json} {entry : Incoming}
    (h : (core.chunk id data).incoming id = some entry) :
    ∃ old, core.incoming id = some old ∧ old.response = entry.response := by
  unfold EndpointCore.chunk at h
  split at h
  · exact ⟨entry, h, rfl⟩
  · rename_i old hold
    refine ⟨old, hold, ?_⟩
    split at h
    · simp only [sendChunk, EndpointCore.setIncoming, Function.update_self, Option.some.injEq] at h
      rw [← h]
    · simp only [EndpointCore.setIncoming, Function.update_self, Option.some.injEq] at h
      rw [← h]

theorem answer_response {response : Json} {entry : Incoming}
    (h : (core.answer id response).incoming id = some entry) : entry.response = some response := by
  unfold EndpointCore.answer at h
  split at h
  · rename_i hnone
    cases hnone.symm.trans h
  · split at h
    · simp [EndpointCore.setIncoming, EndpointCore.send] at h
    · simp only [EndpointCore.setIncoming, Function.update_self, Option.some.injEq] at h
      rw [← h]

theorem flush_response {entry : Incoming} (h : (core.flush id).1.incoming id = some entry) :
    ∃ old, core.incoming id = some old ∧ old.response = entry.response := by
  unfold flush at h
  split at h
  · exact ⟨entry, h, rfl⟩
  · rename_i old hold
    refine ⟨old, hold, ?_⟩
    simp only at h
    split at h
    · simp only [EndpointCore.setIncoming, Function.update_self, Option.some.injEq] at h
      rw [← h, drain_response]
    · split at h
      · simp [EndpointCore.setIncoming, EndpointCore.send] at h
      · simp only [EndpointCore.setIncoming, Function.update_self, Option.some.injEq] at h
        rw [← h, drain_response]

theorem flush_call : (core.flush id).2 = none ∨ (core.flush id).2 = some (.onDrained id) := by
  unfold flush
  split
  · exact Or.inl rfl
  · simp only
    split
    · exact Or.inl rfl
    · split
      · exact Or.inl rfl
      · split
        · exact Or.inr rfl
        · exact Or.inl rfl

theorem receive_credit (now : Int) (n : Nat) (hentry : core.incoming id = some entry) :
    ∃ credit call, core.receive now (creditMessage id n) =
        .ok (((core.setIncoming id (some { entry with credit := credit })).flush id).1, call) ∧
      (call = none ∨ call = some (.onDrained id)) := by
  have hreceive : core.receive now (creditMessage id n) = _ := receive_creditMessage
  rw [hentry] at hreceive
  exact ⟨_, _, hreceive, flush_call⟩

theorem flush_moves
    (hheld : ∀ entry response, core.incoming id = some entry → entry.response = some response →
      IsResponse id response ∧ (response.contains "result" = true → responder = some true)) :
    ReflTransGen Move (between asker core responder id tale)
      (between asker (core.flush id).1 responder id tale) := by
  unfold flush
  split
  · exact .refl
  · rename_i entry hentry
    have hstart : between asker core responder id tale =
        { between asker core responder id tale with
          incoming := some { entry with queued := entry.queued } } := by
      simp only [between, hentry]
    have hdrain := drain_moves asker core responder id tale entry entry.queued
    rw [hstart]
    simp only
    split
    · rw [between_setIncoming]
      exact hdrain
    · rename_i hempty
      split
      · rename_i response hresponse
        obtain ⟨hheld, hresult⟩ := hheld entry response hentry
          ((drain_response _).symm.trans hresponse)
        rw [between_send_response hheld, between_setIncoming]
        refine hdrain.tail (.settle rfl fun hok => ⟨?_, hresult hok⟩)
        simpa using hempty
      · rw [between_setIncoming]
        exact hdrain

end Serving

/-! ## The half that asks -/

/-- What an event at the asker's side tells of a request. -/
def Event.askerTold (id : Nat) : Event → Option Told
  | .request i handlers => if i = id then some (.requested handlers) else none
  | .cancel i => if i = id then some .givenUp else none
  | .expired i => if i = id then some .givenUp else none
  | .called (.onChunk i data) => if i = id then some (.received data) else none
  | .called (.onResult i _) => if i = id then some .resulted else none
  | _ => none

/-- What an event at the server's side tells of a request. -/
def Event.serverTold (id : Nat) : Event → Option Told
  | .chunk i data => if i = id then some (.passed data) else none
  | _ => none

/-- Only what is known of the requests made has changed, and no request has been added. -/
structure Asks (core core' : EndpointCore) (events : List Event) : Prop where
  incoming : core'.incoming = core.incoming
  replies : ∀ i, sentReplies i core'.sink = sentReplies i core.sink
  lastPeerId : core'.lastPeerId = core.lastPeerId
  requests : sentRequests core'.sink = sentRequests core.sink
  nextId : core'.nextId = core.nextId
  messages : (∀ m ∈ core.sink, IsMessage m) → ∀ m ∈ core'.sink, IsMessage m
  silent : ∀ i, events.filterMap (Event.serverTold i) = []
  moves : ∀ server responder i tale, ReflTransGen Move (between core server responder i tale)
    (between core' server responder i (tale ++ events.filterMap (Event.askerTold i)))

namespace Asks

variable {events events' : List Event}

theorem refl : Asks core core [] where
  incoming := rfl
  replies _ := rfl
  lastPeerId := rfl
  requests := rfl
  nextId := rfl
  messages h := h
  silent _ := rfl
  moves server responder i tale := by simpa using ReflTransGen.refl

theorem trans (h : Asks core core' events) (h' : Asks core' core'' events') :
    Asks core core'' (events ++ events') where
  incoming := h'.incoming.trans h.incoming
  replies i := (h'.replies i).trans (h.replies i)
  lastPeerId := h'.lastPeerId.trans h.lastPeerId
  requests := h'.requests.trans h.requests
  nextId := h'.nextId.trans h.nextId
  messages := h'.messages ∘ h.messages
  silent i := by simp [h.silent i, h'.silent i]
  moves server responder i tale := by
    have hfirst := h.moves server responder i tale
    have hsecond := h'.moves server responder i (tale ++ events.filterMap (Event.askerTold i))
    simpa using hfirst.trans hsecond

theorem setOutgoing {entry : Option Outgoing} (hsilent : ∀ i, events.filterMap (Event.serverTold i) = [])
    (hother : ∀ i ≠ id, events.filterMap (Event.askerTold i) = [])
    (hmove : ∀ server responder tale, ReflTransGen Move (between core server responder id tale)
      { between core server responder id tale with
        outgoing := entry
        tale := tale ++ events.filterMap (Event.askerTold id) }) :
    Asks core (core.setOutgoing id entry) events where
  incoming := rfl
  replies _ := rfl
  lastPeerId := rfl
  requests := rfl
  nextId := rfl
  messages h := h
  silent := hsilent
  moves server responder i tale := by
    by_cases hi : i = id
    · subst hi
      simpa [between, EndpointCore.setOutgoing] using hmove server responder tale
    · simpa [between, EndpointCore.setOutgoing, hi, hother i hi] using ReflTransGen.refl

theorem tune {o o' : Outgoing} (ho : core.outgoing id = some o)
    (hhandlers : o'.handlers = o.handlers) (hcancelled : o'.cancelled = o.cancelled)
    (hseq : o'.nextSeq = o.nextSeq) : Asks core (core.setOutgoing id (some o')) [] := by
  refine setOutgoing (fun _ => rfl) (fun _ _ => rfl) fun server responder tale => ?_
  simpa using ReflTransGen.single (.tune ho hhandlers hcancelled hseq)

theorem send_credit (n : Nat) : Asks core (core.send (creditMessage id n)) [] where
  incoming := rfl
  replies _ := by simp [EndpointCore.send]
  lastPeerId := rfl
  requests := by simp [EndpointCore.send]
  nextId := rfl
  messages h m hm := by
    rcases List.mem_append.1 hm with hm | hm
    · exact h m hm
    · obtain rfl := List.mem_singleton.1 hm
      exact .credit id n
  silent _ := rfl
  moves server responder i tale := by
    simpa [between, EndpointCore.send] using ReflTransGen.refl

theorem send_cancel : Asks core (core.send (cancelMessage id)) [] where
  incoming := rfl
  replies _ := by simp [EndpointCore.send]
  lastPeerId := rfl
  requests := by simp [EndpointCore.send]
  nextId := rfl
  messages h m hm := by
    rcases List.mem_append.1 hm with hm | hm
    · exact h m hm
    · obtain rfl := List.mem_singleton.1 hm
      exact .cancel id
  silent _ := rfl
  moves server responder i tale := by
    simpa [between, EndpointCore.send] using ReflTransGen.refl

end Asks

theorem grantConsumed_asks {entry : Outgoing} (more : Nat) (ho : core.outgoing id = some entry) :
    Asks core (core.grantConsumed id entry more) [] := by
  unfold grantConsumed
  simp only
  generalize (if entry.handlers.grantsByHand = true then
    min ((entry.granted + more) % (sizeMax + 1)) entry.consumed else entry.consumed) = ready
  split
  · have htune : Asks core (core.setOutgoing id (some { entry with
        consumed := entry.consumed - ready
        granted := (entry.granted + more) % (sizeMax + 1) -
          if entry.handlers.grantsByHand then ready else 0 })) [] := .tune ho rfl rfl rfl
    exact htune.trans (.send_credit _)
  · exact .tune ho rfl rfl rfl

theorem chunkHandled_asks : Asks core (core.chunkHandled id) [] := by
  unfold chunkHandled
  split
  · exact .refl
  · rename_i entry ho
    split
    · exact .refl
    · exact grantConsumed_asks 0 ho

theorem grant_asks (n : Nat) : Asks core (core.grant id n) [] := by
  unfold grant
  split
  · exact .refl
  · rename_i entry ho
    split
    · exact .refl
    · exact grantConsumed_asks n ho

theorem Asks.giveUp {o o' : Outgoing} {event : Event} (ho : core.outgoing id = some o)
    (hcancelled : o'.cancelled = true) (hseq : o'.nextSeq = o.nextSeq)
    (hevent : event = .cancel id ∨ event = .expired id) :
    Asks core (core.setOutgoing id (some o')) [event] := by
  refine .setOutgoing (fun i => ?_) (fun i hi => ?_) fun server responder tale => ?_
  · rcases hevent with rfl | rfl <;> rfl
  · rcases hevent with rfl | rfl <;> simp [Event.askerTold, hi.symm]
  · have htold : [event].filterMap (Event.askerTold id) = [.givenUp] := by
      rcases hevent with rfl | rfl <;> simp [Event.askerTold]
    rw [htold]
    exact .single (.giveUp ho hcancelled hseq)

theorem cancel_asks :
    Asks core (core.cancel id) (if (core.outgoing id).isSome then [.cancel id] else []) := by
  unfold EndpointCore.cancel
  split
  · rename_i ho
    rw [ho]
    exact .refl
  · rename_i entry ho
    rw [ho]
    split
    · rename_i hcancelled
      have hsame : core.setOutgoing id (some entry) = core := by
        rw [setOutgoing, ← ho, Function.update_eq_self]
      have hgive : Asks core (core.setOutgoing id (some entry)) [.cancel id] :=
        .giveUp ho hcancelled rfl (Or.inl rfl)
      rwa [hsame] at hgive
    · have hgive : Asks core (core.setOutgoing id (some { entry with cancelled := true }))
          [.cancel id] := .giveUp ho rfl rfl (Or.inl rfl)
      exact hgive.trans .send_cancel

theorem collectExpired_asks (now : Int) (ids : List Nat) :
    Asks core (core.collectExpired now ids).1
      ((core.collectExpired now ids).2.map fun request => .expired request.id) := by
  induction ids generalizing core with
  | nil => exact .refl
  | cons id ids ih =>
      unfold collectExpired
      split
      · exact ih
      · rename_i entry ho
        split
        · exact ih
        · split
          · have hgive : Asks core (core.setOutgoing id (some { entry with
                cancelled := true, handlers := {} })) [.expired id] :=
              .giveUp ho rfl rfl (Or.inr rfl)
            exact hgive.trans ih
          · exact ih

theorem expireIdle_asks (now : Int) (ids : List Nat) :
    Asks core (core.expireIdle now ids).1
      ((core.expireIdle now ids).2.map fun request => .expired request.id) := by
  have hsend : ∀ (expired : List Expired) (core : EndpointCore),
      Asks core (expired.foldl (fun core request => core.send (cancelMessage request.id)) core)
        [] := by
    intro expired
    induction expired with
    | nil => exact fun _ => .refl
    | cons request expired ih => exact fun core => Asks.send_cancel.trans (ih _)
  simpa [expireIdle] using (collectExpired_asks now ids).trans (hsend _ _)

theorem handle_asks (method : String) : Asks core (core.handle method) [] where
  incoming := rfl
  replies _ := rfl
  lastPeerId := rfl
  requests := rfl
  nextId := rfl
  messages h := h
  silent _ := rfl
  moves server responder i tale := by simpa [between, handle] using ReflTransGen.refl

theorem setPeerWindow_asks (window : Nat) : Asks core (core.setPeerWindow window) [] where
  incoming := rfl
  replies _ := rfl
  lastPeerId := rfl
  requests := rfl
  nextId := rfl
  messages h := h
  silent _ := rfl
  moves server responder i tale := by simpa [between, setPeerWindow] using ReflTransGen.refl

section Request

variable {server : EndpointCore} {responder : Option Bool} {tale : List Told} (method : String)
  (params : Json) (handlers : ResponseHandlers) (idleLimit : Option Int) (now : Int)

theorem request_moves (hnew : between core server responder core.nextId tale = {}) :
    Move (between core server responder core.nextId tale)
      (between (core.request method params handlers idleLimit now) server responder core.nextId
        (tale ++ [.requested handlers])) := by
  have hask : Move {} {
      outgoing := some { handlers := handlers, idleLimit := idleLimit, lastHeard := now }
      asked := true
      tale := [.requested handlers] } := .ask rfl rfl
  have hafter : between (core.request method params handlers idleLimit now) server responder
      core.nextId (tale ++ [.requested handlers]) =
      { between core server responder core.nextId tale with
        outgoing := some { handlers := handlers, idleLimit := idleLimit, lastHeard := now }
        asked := true
        tale := tale ++ [.requested handlers] } := by
    simp [between, EndpointCore.request, EndpointCore.send, EndpointCore.setOutgoing]
  have htale : tale = [] := congrArg Conversation.tale hnew
  rw [hafter, hnew, htale]
  exact hask

theorem request_between (hi : i ≠ core.nextId) :
    between (core.request method params handlers idleLimit now) server responder i tale =
      between core server responder i tale := by
  simp [between, EndpointCore.request, EndpointCore.send, EndpointCore.setOutgoing, hi]

theorem between_request :
    between server (core.request method params handlers idleLimit now) responder i tale =
      between server core responder i tale := by
  simp [between, EndpointCore.request, EndpointCore.send, EndpointCore.setOutgoing]

end Request

end Ned.Editor.Protocol
