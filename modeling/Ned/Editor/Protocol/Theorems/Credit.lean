import Ned.Editor.Protocol.Lemmas.Credit
import Ned.Editor.Protocol.Theorems

/-!
# Credit is conserved

The credit of a live stream is the window of its asker, wherever it is. Once everything has arrived
and the asker is done with its chunks, the sender has nothing left to send.
-/

namespace Ned.Editor.Protocol

open Library Conversation

theorem Conversation.Stage.asked_replies {v : Conversation} (h : Stage v) (hasked : v.asked = true) :
    v.replies = [] := by
  cases h with
  | asked => rfl
  | unasked => rfl
  | _ => cases hasked

theorem Conversation.Stage.responded_incoming {v : Conversation} {result : Bool} {rest : List Reply}
    (h : Stage v) (hreplies : v.replies = .response result :: rest) :
    v.asked = false ∧ v.incoming = none := by
  cases h with
  | @serving o e answered tale arrived flight hlast hpassed hheard =>
      cases flight <;> cases hreplies
  | answered => exact ⟨rfl, rfl⟩
  | _ => cases hreplies

namespace Connection

variable {window : Side → Nat} {c : Connection} {side : Side} {id : Nat}

/-! ## The invariant -/

/-- The endpoints know each other's windows, and every stream is balanced. -/
structure Balances (window : Side → Nat) (c : Connection) : Prop where
  sound : Sound c
  windows : ∀ side, (c.party side).core.window = max (window side) 1
  peerWindows : ∀ side, (c.party side).core.peerWindow = max (window side.peer) 1
  balanced : ∀ side id,
    Balanced (max (window side) 1) (c.party side).core (c.party side.peer).core id

theorem joined_sound (window : Side → Nat) : Sound (joined window) where
  stages _ _ := .unasked
  messages _ _ h := by cases h
  held _ _ _ _ h := by cases h
  inOrder _ := ⟨by simp [joined, EndpointCore.create, EndpointCore.setPeerWindow, sentRequests],
    by simp [joined, EndpointCore.create, EndpointCore.setPeerWindow, sentRequests]⟩
  numbered _ _ _ h := by cases h

theorem joined_balances (window : Side → Nat) : Balances window (joined window) where
  sound := joined_sound window
  windows _ := rfl
  peerWindows _ := rfl
  balanced _ _ := ⟨fun _ => rfl, fun _ => rfl, fun _ h => by cases h⟩

theorem Sound.unknown (h : Sound c) (hid : (c.party side).core.nextId ≤ id) :
    c.conversation side id = {} :=
  (h.stages side _).eq_unasked fun handlers hmem =>
    Nat.not_lt_of_le hid (h.numbered side _ handlers (requested_of_told hmem))

theorem Sound.outgoing_none (h : Sound c) (hid : (c.party side).core.nextId ≤ id) :
    (c.party side).core.outgoing id = none := congrArg Conversation.outgoing (h.unknown hid)

theorem Sound.known {o : Outgoing} (h : Sound c) (ho : (c.party side).core.outgoing id = some o) :
    id < (c.party side).core.nextId := by
  by_contra hid
  cases (h.outgoing_none (Nat.le_of_not_lt hid)).symm.trans ho

/-! ## Steps -/

section Receive

variable {message : Json} {sink : List Json} {now : Int} {core : EndpointCore} {call : Option Call}

/-- What holds of both ends once a side has received a message. -/
structure Received (window : Side → Nat) (side : Side) (old core peer : EndpointCore) : Prop where
  asks : ∀ id, Balanced (max (window side) 1) core peer id
  serves : ∀ id, Balanced (max (window side.peer) 1) peer core id
  sameWindow : core.window = old.window
  samePeerWindow : core.peerWindow = old.peerWindow

/-- A side's own reaction keeps the books. -/
theorem Received.books {old core core' peer : EndpointCore} (h : Received window side old core peer)
    (hbooks : Books core core') : Received window side old core' peer where
  asks id := (h.asks id).asks hbooks
  serves id := (h.serves id).serves hbooks
  sameWindow := hbooks.window.trans h.sameWindow
  samePeerWindow := hbooks.peerWindow.trans h.samePeerWindow

theorem Balances.popped (h : Balances window c) (hsink : (c.party side.peer).core.sink = message :: sink)
    (hcredit : ∀ id, sentCredit id [message] = 0) (hchunk : ∀ id, sentChunks id [message] = 0) :
    Received window side (c.party side).core (c.party side).core
      { (c.party side.peer).core with sink := sink } where
  asks id := (h.balanced side id).popServer hsink (hchunk id)
  serves id := by
    have hpeer := h.balanced side.peer id
    rw [Side.peer_peer] at hpeer
    exact hpeer.popAsker hsink (hcredit id)
  sameWindow := rfl
  samePeerWindow := rfl

theorem Balances.request {method : String} {params : Json} (h : Balances window c)
    (hsink : (c.party side.peer).core.sink = requestMessage id method params :: sink)
    (hreceive : (c.party side).core.receive now (requestMessage id method params) =
      .ok (core, call)) :
    Received window side (c.party side).core core
      { (c.party side.peer).core with sink := sink } := by
  have hpopped := h.popped hsink (fun _ => sentCredit_requestMessage ..)
    fun _ => sentChunks_requestMessage ..
  rw [EndpointCore.receive_requestMessage, EndpointCore.receiveRequest] at hreceive
  split at hreceive
  · cases hreceive
  · simp only at hreceive
    split at hreceive
    · cases hreceive
      have hrequests : id ∈ sentRequests (c.party side.peer).core.sink := by
        rw [hsink, ← List.singleton_append, sentRequests_append, sentRequests_requestMessage]
        exact List.mem_append_left _ (List.mem_singleton_self _)
      have hreplies : sentReplies id (c.party side).core.sink = [] := by
        have hasked := (h.sound.stages side.peer id).asked_replies (by
          simpa [conversation, between] using hrequests)
        simpa [conversation, between] using hasked
      have hpeer := h.balanced side.peer
      simp only [Side.peer_peer] at hpeer
      refine ⟨fun i => ?_, fun i => ?_, rfl, rfl⟩
      · exact (hpopped.asks i).congr rfl (fun hi => hi) rfl rfl rfl
      · by_cases hi : i = id
        · subst hi
          have hincoming : (EndpointCore.setIncoming { (c.party side).core with lastPeerId := i } i
              (some { credit := (c.party side).core.peerWindow })).incoming i =
              some { credit := max (window side.peer) 1 } := by
            rw [h.peerWindows side]
            exact Function.update_self ..
          have hchunks : sentChunks i (c.party side).core.sink = 0 := by
            rw [sentChunks, hreplies, List.countP_nil]
          have haccepted : Balanced (max (window side.peer) 1) (c.party side.peer).core
              (EndpointCore.setIncoming { (c.party side).core with lastPeerId := i } i
                (some { credit := (c.party side).core.peerWindow })) i :=
            (hpeer i).accept hrequests hchunks rfl hincoming
          exact haccepted.popAsker hsink (sentCredit_requestMessage ..)
        · refine (hpopped.serves i).congr rfl (fun hi => hi) rfl ?_ ?_
          · exact Function.update_of_ne hi _ _
          · simp [EndpointCore.spendable, EndpointCore.setIncoming, hi]
    · cases hreceive
      have hlast : Books (c.party side).core { (c.party side).core with lastPeerId := id } :=
        .asks rfl rfl rfl rfl rfl (fun _ => rfl) fun _ => rfl
      exact hpopped.books (hlast.trans (send_response_books (.error ..)))

theorem Balances.chunk {seq : Nat} {data : Json} (h : Balances window c)
    (hsink : (c.party side.peer).core.sink = chunkMessage id seq data :: sink)
    (hreceive : (c.party side).core.receive now (chunkMessage id seq data) = .ok (core, call)) :
    Received window side (c.party side).core core
      { (c.party side.peer).core with sink := sink } := by
  rw [EndpointCore.receive_chunkMessage_eq] at hreceive
  split at hreceive
  · cases hreceive
  · rename_i o ho
    split at hreceive
    · cases hreceive
    · have hreplies : (c.conversation side id).replies =
          .chunk seq data :: sentReplies id sink := by
        simp only [conversation, between]
        rw [hsink, ← List.singleton_append, sentReplies_append, sentReplies_chunkMessage, if_pos rfl]
        rfl
      have haccepted : id ∉ sentRequests (c.party side).core.sink := by
        intro hmem
        have hasked := (h.sound.stages side id).asked_replies (by
          simpa [conversation, between] using hmem)
        cases hreplies.symm.trans hasked
      have hconsumed : Received window side (c.party side).core
          ((c.party side).core.setOutgoing id (some { o with
            nextSeq := o.nextSeq + 1, consumed := o.consumed + 1, lastHeard := now }))
          { (c.party side.peer).core with sink := sink } := by
        refine ⟨fun i => ?_, fun i => ?_, rfl, rfl⟩
        · by_cases hi : i = id
          · subst hi
            exact (h.balanced side i).consume ho rfl (h.sound.known ho) haccepted hsink
          · have hpopped := (h.balanced side i).popServer hsink (by
              rw [sentChunks_chunkMessage, if_neg (Ne.symm hi)])
            refine hpopped.congr rfl (fun hi => hi) ?_ rfl rfl
            simp [EndpointCore.owed, EndpointCore.setOutgoing, hi]
        · have hpeer := h.balanced side.peer i
          rw [Side.peer_peer] at hpeer
          have hpopped := hpeer.popAsker hsink (sentCredit_chunkMessage ..)
          exact hpopped.congr rfl (fun hi => hi) rfl rfl rfl
      simp only at hreceive
      split at hreceive
      · cases hreceive
        exact hconsumed
      · cases hreceive
        exact hconsumed.books chunkHandled_books

theorem Balances.credit {n : Nat} (h : Balances window c) (hsize : ∀ side, window side ≤ sizeMax)
    (hsink : (c.party side.peer).core.sink = creditMessage id n :: sink)
    (hreceive : (c.party side).core.receive now (creditMessage id n) = .ok (core, call)) :
    Received window side (c.party side).core core
      { (c.party side.peer).core with sink := sink } := by
  have hpeer := h.balanced side.peer
  simp only [Side.peer_peer] at hpeer
  have hsize : max (window side.peer) 1 ≤ sizeMax := Nat.max_le.2 ⟨hsize _, by decide⟩
  have hasks := fun i => (h.balanced side i).popServer hsink (sentChunks_creditMessage ..)
  have hother : ∀ i ≠ id, Balanced (max (window side.peer) 1)
      { (c.party side.peer).core with sink := sink } (c.party side).core i := fun i hi =>
    (hpeer i).popAsker hsink (by rw [sentCredit_creditMessage, if_neg (Ne.symm hi)])
  rw [EndpointCore.receive_creditMessage] at hreceive
  split at hreceive
  · rename_i hnone
    cases hreceive
    refine ⟨hasks, fun i => ?_, rfl, rfl⟩
    by_cases hi : i = id
    · subst hi
      refine (hpeer i).ended rfl (fun hi => ?_) ?_ hnone
      · rw [hsink, ← List.singleton_append, sentRequests_append]
        exact List.mem_append_right _ hi
      · rw [EndpointCore.owed, EndpointCore.owed, hsink, ← List.singleton_append, sentCredit_append]
        simp only
        omega
    · exact hother i hi
  · rename_i entry hentry
    have hheld := fun response hresponse => (h.sound.held side id entry response hentry hresponse).1
    generalize hcredit : (if n > sizeMax - entry.credit then sizeMax else entry.credit + n) = credit
      at hreceive
    have hcore : core = (((c.party side).core.setIncoming id
        (some { entry with credit := credit })).flush id).1 :=
      congrArg Prod.fst (Except.ok.inj hreceive).symm
    have hadjusted : ((c.party side).core.setIncoming id
        (some { entry with credit := credit })).incoming id = some { entry with credit := credit } :=
      Function.update_self ..
    obtain ⟨hwindow, hpeerWindow, hsent, -⟩ := flush_books hadjusted hheld
    have hserves := (Serves.setIncoming (some { entry with credit := credit })).trans
      (flush_serves fun adjusted response ha hr => by
        obtain rfl := Option.some.inj (hadjusted.symm.trans ha)
        exact hheld response hr)
    rw [← hcore] at hwindow hpeerWindow hsent hserves
    refine ⟨fun i => ?_, fun i => ?_, hwindow, hpeerWindow⟩
    · refine (hasks i).congr hserves.nextId (fun hi => hserves.requests ▸ hi) ?_ rfl rfl
      rw [EndpointCore.owed, EndpointCore.owed, hsent, hserves.outgoing]
      rfl
    · by_cases hi : i = id
      · subst hi
        rw [hcore, ← hcredit]
        exact (hpeer i).credit hsize hsink hentry hheld
      · refine (hother i hi).congr rfl (fun hi => hi) rfl (hserves.incoming i hi) ?_
        rw [EndpointCore.spendable, EndpointCore.spendable, sentChunks, hserves.replies i hi,
          hserves.incoming i hi]
        rfl

theorem Balances.cancel (h : Balances window c)
    (hsink : (c.party side.peer).core.sink = cancelMessage id :: sink)
    (hreceive : (c.party side).core.receive now (cancelMessage id) = .ok (core, call)) :
    Received window side (c.party side).core core
      { (c.party side.peer).core with sink := sink } := by
  have hpopped := h.popped hsink (fun _ => sentCredit_cancelMessage ..)
    fun _ => sentChunks_cancelMessage ..
  rw [EndpointCore.receive_cancelMessage] at hreceive
  split at hreceive
  · cases hreceive
    exact hpopped
  · cases hreceive
    have hremoved : Books (c.party side).core ((c.party side).core.setIncoming id none) := by
      refine .serves rfl rfl (.setIncoming _) (fun _ => rfl) fun entry hentry => ?_
      simp [EndpointCore.setIncoming] at hentry
    exact hpopped.books (hremoved.trans (send_response_books (.error ..)))

theorem Balances.response (h : Balances window c) (hresponse : IsResponse id message)
    (hsink : (c.party side.peer).core.sink = message :: sink)
    (hreceive : (c.party side).core.receive now message = .ok (core, call)) :
    Received window side (c.party side).core core
      { (c.party side.peer).core with sink := sink } := by
  have hpopped := h.popped hsink (fun _ => hresponse.sentCredit ..) fun _ => hresponse.sentChunks ..
  have hreplies : (c.conversation side id).replies =
      .response (message.contains "result") :: sentReplies id sink := by
    simp only [conversation, between]
    rw [hsink, ← List.singleton_append, sentReplies_append, hresponse.sentReplies, if_pos rfl]
    rfl
  obtain ⟨o, ho, -⟩ := (h.sound.stages side id).awaited hreplies
  obtain ⟨hasked, hincoming⟩ := (h.sound.stages side id).responded_incoming hreplies
  obtain ⟨call', hreceive', -⟩ := EndpointCore.receive_response now hresponse ho
  cases hreceive.symm.trans hreceive'
  refine ⟨fun i => ?_, fun i => ?_, rfl, rfl⟩
  · by_cases hi : i = id
    · subst hi
      refine (hpopped.asks i).ended rfl (fun hi => hi) ?_ hincoming
      simp [EndpointCore.owed, EndpointCore.setOutgoing]
    · refine (hpopped.asks i).congr rfl (fun hi => hi) ?_ rfl rfl
      simp [EndpointCore.owed, EndpointCore.setOutgoing, hi]
  · exact (hpopped.serves i).congr rfl (fun hi => hi) rfl rfl rfl

end Receive

theorem Balances.set (h : Balances window c) {party : Party} {events : List Event}
    (hsound : Sound (c.set side party events)) (hbooks : Books (c.party side).core party.core) :
    Balances window (c.set side party events) where
  sound := hsound
  windows other := by
    rcases side.eq_or_eq_peer other with rfl | rfl
    · rw [set_party_self, hbooks.window]
      exact h.windows _
    · rw [set_party_peer]
      exact h.windows _
  peerWindows other := by
    rcases side.eq_or_eq_peer other with rfl | rfl
    · rw [set_party_self, hbooks.peerWindow]
      exact h.peerWindows _
    · rw [set_party_peer]
      exact h.peerWindows _
  balanced other id := by
    rcases side.eq_or_eq_peer other with rfl | rfl
    · rw [set_party_self, set_party_peer]
      exact (h.balanced _ id).asks hbooks
    · rw [set_party_peer, Side.peer_peer, set_party_self]
      have hpeer := h.balanced side.peer id
      rw [Side.peer_peer] at hpeer
      exact hpeer.serves hbooks

theorem receive_core {party party' : Party} {events : List Event} {message : Json} {now : Int}
    (h : party.receive now message = .ok (party', events)) :
    ∃ call, party.core.receive now message = .ok (party'.core, call) := by
  rw [Party.receive] at h
  cases hreceive : party.core.receive now message with
  | error e =>
      rw [hreceive] at h
      cases h
  | ok received =>
      obtain ⟨core, call⟩ := received
      rw [hreceive] at h
      cases call with
      | none =>
          cases h
          exact ⟨none, rfl⟩
      | some call =>
          refine ⟨some call, ?_⟩
          cases h
          cases call <;> rfl

theorem receive_cases {now : Int} {c' : Connection} (hreceive : c.receive side now = .ok c') :
    (c.party side.peer).core.sink = [] ∧ c' = c ∨
      ∃ message sink party events call, (c.party side.peer).core.sink = message :: sink ∧
        (c.party side).core.receive now message = .ok (party.core, call) ∧
        c' = (c.pop side.peer sink).set side party events := by
  unfold Connection.receive at hreceive
  simp only at hreceive
  cases hsink : (c.party side.peer).core.sink with
  | nil =>
      rw [hsink] at hreceive
      cases hreceive
      exact Or.inl ⟨rfl, rfl⟩
  | cons message sink =>
      rw [hsink] at hreceive
      change (((c.pop side.peer sink).party side).receive now message >>= fun received =>
        pure ((c.pop side.peer sink).set side received.1 received.2)) = _ at hreceive
      rw [pop_party_self] at hreceive
      cases hparty : (c.party side).receive now message with
      | error e =>
          rw [hparty] at hreceive
          cases hreceive
      | ok received =>
          obtain ⟨party, events⟩ := received
          rw [hparty] at hreceive
          obtain rfl := Except.ok.inj hreceive
          obtain ⟨call, hcore⟩ := receive_core hparty
          exact Or.inr ⟨message, sink, party, events, call, rfl, hcore, rfl⟩

theorem Balances.receive (h : Balances window c) (hsize : ∀ side, window side ≤ sizeMax) {now : Int}
    {c' : Connection} (hreceive : c.receive side now = .ok c') : Balances window c' := by
  obtain ⟨c'', hreceive'', hsound⟩ := h.sound.receive side now
  obtain rfl := Except.ok.inj (hreceive''.symm.trans hreceive)
  obtain ⟨-, rfl⟩ | ⟨message, sink, party, events, call, hsink, hcore, rfl⟩ := receive_cases hreceive
  · exact h
  · have hmessage := h.sound.messages side.peer message (hsink ▸ List.mem_cons_self)
    have hreceived : Received window side (c.party side).core party.core
        { (c.party side.peer).core with sink := sink } := by
      cases hmessage with
      | request id method params => exact h.request hsink hcore
      | chunk id seq data => exact h.chunk hsink hcore
      | credit id n => exact h.credit hsize hsink hcore
      | cancel id => exact h.cancel hsink hcore
      | result id result => exact h.response (.result result) hsink hcore
      | error id code text data => exact h.response (.error code text data) hsink hcore
    obtain ⟨hasks, hserves, hwindow, hpeerWindow⟩ := hreceived
    refine ⟨hsound, fun other => ?_, fun other => ?_, fun other id => ?_⟩ <;>
      rcases side.eq_or_eq_peer other with rfl | rfl
    · rw [set_party_self, hwindow]
      exact h.windows _
    · rw [set_party_peer, pop_party_peer]
      exact h.windows _
    · rw [set_party_self, hpeerWindow]
      exact h.peerWindows _
    · rw [set_party_peer, pop_party_peer]
      exact h.peerWindows _
    · rw [set_party_self, set_party_peer, pop_party_peer]
      exact hasks id
    · rw [set_party_peer, pop_party_peer, Side.peer_peer, set_party_self]
      exact hserves id

theorem Balances.step (h : Balances window c) (hsize : ∀ side, window side ≤ sizeMax)
    {act : Side × Act} {c' : Connection}
    (hwindow : ∀ n, act.2 = .setPeerWindow n → n = window act.1.peer)
    (hstep : c.step act = some c') : Balances window c' := by
  obtain ⟨side, act⟩ := act
  by_cases hact : ∃ now, act = .receive now
  · obtain ⟨now, rfl⟩ := hact
    obtain ⟨c'', hreceive, -⟩ := h.sound.receive side now
    rw [Connection.step, Connection.perform, hreceive] at hstep
    obtain rfl := Option.some.inj hstep
    exact h.receive hsize hreceive
  · rw [step_perform (not_exists.1 hact)] at hstep
    obtain rfl := Option.some.inj hstep
    refine h.set (h.sound.perform act) (Party.perform_books act ?_ fun n hn => ?_)
    · exact h.sound.outgoing_none (Nat.le_refl _)
    · rw [h.peerWindows, hwindow n hn]

/-! ## The account of a request -/

/-- The account of a request is true of its entry, and empty before there is one. -/
structure Tracks (side : Side) (id : Nat) (s : Connection × Account) : Prop where
  fresh : (s.1.party side).core.nextId ≤ id → s.2 = {}
  fits : s.2.FitsLive (s.1.party side).core id

section Receive

variable {message : Json} {sink : List Json} {now : Int} {core : EndpointCore} {call : Option Call}

theorem Sound.response_entry (h : Sound c) {i : Nat} (hresponse : IsResponse i message)
    (hsink : (c.party side.peer).core.sink = message :: sink)
    (hreceive : (c.party side).core.receive now message = .ok (core, call)) :
    core = (c.party side).core.setOutgoing i none := by
  have hreplies : (c.conversation side i).replies =
      .response (message.contains "result") :: sentReplies i sink := by
    simp only [conversation, between]
    rw [hsink, ← List.singleton_append, sentReplies_append, hresponse.sentReplies, if_pos rfl]
    rfl
  obtain ⟨o, ho, -⟩ := (h.stages side i).awaited hreplies
  obtain ⟨call', hreceive', -⟩ := EndpointCore.receive_response now hresponse ho
  cases hreceive.symm.trans hreceive'
  rfl

/-- A message that is no chunk leaves the entry of a request alone, or ends it. -/
theorem Sound.receive_entry (h : Sound c)
    (hsink : (c.party side.peer).core.sink = message :: sink)
    (hreceive : (c.party side).core.receive now message = .ok (core, call))
    (hchunk : ∀ i seq data, message ≠ chunkMessage i seq data) :
    core.nextId = (c.party side).core.nextId ∧
      (core.outgoing id = (c.party side).core.outgoing id ∨ core.outgoing id = none) := by
  have hresponse : ∀ {i}, IsResponse i message → core.nextId = (c.party side).core.nextId ∧
      (core.outgoing id = (c.party side).core.outgoing id ∨ core.outgoing id = none) := by
    intro i hi
    rw [h.response_entry hi hsink hreceive]
    refine ⟨rfl, ?_⟩
    by_cases hid : id = i
    · exact Or.inr (hid ▸ Function.update_self ..)
    · exact Or.inl (Function.update_of_ne hid _ _)
  have hmessage := h.messages side.peer message (hsink ▸ List.mem_cons_self)
  cases hmessage with
  | request i method params =>
      rw [EndpointCore.receive_requestMessage, EndpointCore.receiveRequest] at hreceive
      split at hreceive
      · cases hreceive
      · simp only at hreceive
        split at hreceive <;> cases hreceive <;> exact ⟨rfl, Or.inl rfl⟩
  | chunk i seq data => exact absurd rfl (hchunk i seq data)
  | credit i n =>
      rw [EndpointCore.receive_creditMessage] at hreceive
      split at hreceive
      · cases hreceive
        exact ⟨rfl, Or.inl rfl⟩
      · rename_i entry hentry
        have hserves : Serves i (c.party side).core (((c.party side).core.setIncoming i (some { entry
            with credit := if n > sizeMax - entry.credit then sizeMax else entry.credit + n })).flush
              i).1 := (Serves.setIncoming _).trans (flush_serves fun adjusted response ha hr => by
            obtain rfl := incoming_setIncoming ha
            exact (h.held side i entry response hentry hr).1)
        have hcore := congrArg Prod.fst (Except.ok.inj hreceive)
        subst hcore
        exact ⟨hserves.nextId, Or.inl (congrFun hserves.outgoing id)⟩
  | cancel i =>
      rw [EndpointCore.receive_cancelMessage] at hreceive
      split at hreceive <;> cases hreceive <;> exact ⟨rfl, Or.inl rfl⟩
  | result i result => exact hresponse (.result result)
  | error i code text data => exact hresponse (.error code text data)

theorem bringsChunk_of_sink (hsink : core.sink = message :: sink) :
    Account.bringsChunk core id = decide (sentChunks id [message] ≠ 0) := by
  rw [Account.bringsChunk, hsink, List.head?_cons, Option.bind_some, sentChunks, sentReplies]
  cases hreply : message.replyTo id with
  | none => simp [hreply]
  | some reply => cases reply <;> simp [hreply, Reply.isChunk]

theorem bringsChunk_of_nil (hsink : core.sink = []) : Account.bringsChunk core id = false := by
  rw [Account.bringsChunk, hsink]
  rfl

theorem act_receive_other (account : Account) (party : Party) (now : Int) :
    account.act party false id (.receive now) = account := by
  unfold Account.act
  split <;> rfl

theorem chunkHandled_nextId (core : EndpointCore) (i : Nat) :
    core.nextId ≤ (core.chunkHandled i).nextId := chunkHandled_books.nextId

/-- What the owner gets is on its account. -/
theorem Balances.receive_tracks {account : Account} (h : Balances window c)
    (ht : Tracks side id (c, account)) (hsink : (c.party side.peer).core.sink = message :: sink)
    (hreceive : (c.party side).core.receive now message = .ok (core, call))
    (hwindow : core.window = (c.party side).core.window) :
    let account' := account.act (c.party side)
      (Account.bringsChunk (c.party side.peer).core id) id (.receive now)
    (core.nextId ≤ id → account' = {}) ∧ account'.FitsLive core id := by
  rw [bringsChunk_of_sink hsink]
  by_cases hchunk : ∃ i seq data, message = chunkMessage i seq data
  · obtain ⟨i, seq, data, rfl⟩ := hchunk
    rw [EndpointCore.receive_chunkMessage_eq] at hreceive
    split at hreceive
    · cases hreceive
    · rename_i o ho
      split at hreceive
      · cases hreceive
      · have hcore : core = if o.cancelled = false ∧ o.handlers.onChunk = true then
            (c.party side).core.setOutgoing i (some (o.afterChunk now))
          else ((c.party side).core.setOutgoing i (some (o.afterChunk now))).chunkHandled i := by
          simp only at hreceive
          split at hreceive <;> rename_i hcalled
          · rw [if_pos hcalled]
            exact (congrArg Prod.fst (Except.ok.inj hreceive)).symm
          · rw [if_neg hcalled]
            exact (congrArg Prod.fst (Except.ok.inj hreceive)).symm
        have hnext : (c.party side).core.nextId ≤ core.nextId := by
          rw [hcore]
          split
          · exact Nat.le_refl _
          · exact Nat.le_trans (Nat.le_of_eq rfl)
              (chunkHandled_nextId ((c.party side).core.setOutgoing i (some (o.afterChunk now))) i)
        rw [sentChunks_chunkMessage]
        by_cases hi : i = id
        · subst hi
          have hfits := ht.fits.consumed ho now
          rw [← hcore] at hfits
          simp only [if_true, Account.act, ho]
          exact ⟨fun hid => absurd (h.sound.known ho) (Nat.not_lt_of_le (Nat.le_trans hnext hid)),
            hfits⟩
        · simp only [if_neg hi, ne_eq, not_true_eq_false, decide_false, act_receive_other]
          have hset : account.FitsLive ((c.party side).core.setOutgoing i (some (o.afterChunk now)))
              id := ht.fits.congr rfl (Function.update_of_ne (Ne.symm hi) _ _)
          refine ⟨fun hid => ht.fresh (Nat.le_trans hnext hid), ?_⟩
          rw [hcore]
          split
          · exact hset
          · exact hset.chunkHandled hi
  · have hother : sentChunks id [message] = 0 := by
      cases h.sound.messages side.peer message (hsink ▸ List.mem_cons_self) with
      | request i method params => exact sentChunks_requestMessage ..
      | chunk i seq data => exact absurd ⟨i, seq, data, rfl⟩ hchunk
      | credit i n => exact sentChunks_creditMessage ..
      | cancel i => exact sentChunks_cancelMessage ..
      | result i result => exact IsResponse.sentChunks id (i := i) (.result result)
      | error i code text data => exact IsResponse.sentChunks id (i := i) (.error code text data)
    obtain ⟨hnext, hentry⟩ := h.sound.receive_entry hsink hreceive fun i seq data hmessage =>
      hchunk ⟨i, seq, data, hmessage⟩
    simp only [hother, ne_eq, not_true_eq_false, decide_false, act_receive_other]
    refine ⟨fun hid => ht.fresh (hnext ▸ hid), ?_⟩
    rcases hentry with hentry | hentry
    · exact ht.fits.congr hwindow hentry
    · intro o ho
      cases hentry.symm.trans ho

end Receive

theorem Balances.step_tracks {account account' : Account} (h : Balances window c)
    (hsize : ∀ side, window side ≤ sizeMax) (ht : Tracks side id (c, account)) {act : Side × Act}
    {c' : Connection} (hwindow : ∀ n, act.2 = .setPeerWindow n → n = window act.1.peer)
    (hstep : Account.step side id (c, account) act = some (c', account')) :
    Balances window c' ∧ Tracks side id (c', account') := by
  obtain ⟨next, hnext, hpair⟩ := Option.map_eq_some_iff.1 hstep
  cases hpair
  have hbalances := h.step hsize hwindow hnext
  refine ⟨hbalances, ?_⟩
  obtain ⟨actor, act⟩ := act
  by_cases hact : ∃ now, act = .receive now
  · obtain ⟨now, rfl⟩ := hact
    obtain ⟨c'', hreceive, -⟩ := h.sound.receive actor now
    rw [Connection.step, Connection.perform, hreceive] at hnext
    obtain rfl := Option.some.inj hnext
    rcases side.eq_or_eq_peer actor with rfl | rfl
    · rw [Account.next, if_pos rfl]
      obtain ⟨hsink, rfl⟩ | ⟨message, sink, party, events, call, hsink, hcore, rfl⟩ :=
        receive_cases hreceive
      · rw [bringsChunk_of_nil hsink, act_receive_other]
        exact ht
      · have hparty := hbalances.windows actor
        rw [set_party_self, ← h.windows] at hparty
        obtain ⟨hfresh, hfits⟩ := h.receive_tracks ht hsink hcore hparty
        exact ⟨by simpa using hfresh, by simpa using hfits⟩
    · rw [Account.next, if_neg side.peer_ne]
      obtain ⟨-, rfl⟩ | ⟨message, sink, party, events, call, -, -, rfl⟩ := receive_cases hreceive
      · exact ht
      · have hsame : (((c.pop side.peer.peer sink).set side.peer party events).party side).core =
            { (c.party side).core with sink := sink } := by
          rw [set_peer_party, Side.peer_peer]
          exact congrArg Party.core set_party_self
        refine ⟨fun hid => ht.fresh ?_, ht.fits.congr (by rw [hsame]) (by rw [hsame])⟩
        simp only [hsame] at hid
        exact hid
  · rw [step_perform (not_exists.1 hact)] at hnext
    obtain rfl := Option.some.inj hnext
    rcases side.eq_or_eq_peer actor with rfl | rfl
    · simp only [Account.next, if_true]
      refine ⟨fun hid => ?_, ?_⟩
      · rw [set_party_self] at hid
        have hbooks := Party.perform_books act (h.sound.outgoing_none (Nat.le_refl _)) fun n hn => by
          rw [h.peerWindows, hwindow n hn]
        have hid := Nat.le_trans hbooks.nextId hid
        simp only [Account.act, h.sound.outgoing_none hid]
        exact ht.fresh hid
      · simp only [set_party_self]
        exact ht.fits.perform ht.fresh _ (not_exists.1 hact)
    · rw [Account.next, if_neg side.peer_ne]
      exact ⟨fun hid => ht.fresh (by simpa using hid), by simpa using ht.fits⟩

theorem joined_tracks (window : Side → Nat) (side : Side) (id : Nat) :
    Tracks side id (joined window, {}) :=
  ⟨fun _ => rfl, fun _ ho => by cases ho⟩

theorem run_tracks (window : Side → Nat) (hsize : ∀ side, window side ≤ sizeMax)
    {acts : List (Side × Act)} {s : Connection × Account}
    (hwindow : ∀ act ∈ acts, ∀ n, act.2 = .setPeerWindow n → n = window act.1.peer)
    (hrun : run (Account.step side id) (joined window, {}) acts = some s) :
    Balances window s.1 ∧ Tracks side id s :=
  run_invariant_of_admissible (fun s => Balances window s.1 ∧ Tracks side id s)
    (fun (_, _) _ (_, _) h hact hstep => h.1.step_tracks hsize h.2 hact hstep)
    ⟨joined_balances window, joined_tracks window side id⟩ (admissible_of_forall hwindow) hrun

/-- The credit of a live stream is the window of its asker. Once everything has arrived and the asker
is done with its chunks, the sender has nothing queued and holds nothing back: less than a batch of
credit is missing then, so the sender has some. -/
theorem credit_conserved (window : Side → Nat) (hsize : ∀ side, window side ≤ sizeMax) (side : Side)
    (id : Nat) {acts : List (Side × Act)} {c : Connection} {account : Account} {o : Outgoing}
    {e : Incoming} (hwindow : ∀ act ∈ acts, ∀ n, act.2 = .setPeerWindow n → n = window act.1.peer)
    (hrun : run (Account.step side id) (joined window, {}) acts = some (c, account))
    (ho : (c.party side).core.outgoing id = some o) (hlive : o.cancelled = false)
    (he : (c.party side.peer).core.incoming id = some e) :
    e.credit + sentChunks id (c.party side.peer).core.sink +
        sentCredit id (c.party side).core.sink + o.consumed = (c.party side).core.window ∧
      ((∀ side, (c.party side).core.sink = []) → account.settled = true →
        (o.handlers.grantsByHand = true → account.granted ≤ sizeMax) →
          e.queued = [] ∧ e.response = none) := by
  obtain ⟨hbalances, htracks⟩ := run_tracks window hsize hwindow hrun
  simp only at hbalances htracks
  obtain ⟨hsum, hflushed⟩ := (hbalances.balanced side id).stream e he
  rw [spendable_of_incoming he, owed_of_outgoing ho, ← hbalances.windows side] at hsum
  refine ⟨by omega, fun hempty hsettled hgranted => ?_⟩
  have hfew : o.consumed < max ((c.party side).core.window / 2) 1 :=
    (htracks.fits o ho hlive).settled hgranted hsettled
  have hwindow := hbalances.windows side
  rcases hflushed with hflushed | hspent
  · exact hflushed
  · rw [hempty side, hempty side.peer, hspent.2] at hsum
    simp only [sentChunks, sentReplies, sentCredit, List.filterMap_nil, List.countP_nil,
      List.map_nil, List.sum_nil] at hsum
    omega

/-- The window is one: the second chunk goes out once the first has been granted. -/
def grantedActs : List (Side × Act) :=
  [(.host, .handle "read"),
    (.editor, .request "read" .null { onChunk := true, grantsByHand := true } none 0),
    (.host, .receive 0), (.host, .chunk 1 (.string "a")), (.host, .chunk 1 (.string "b")),
    (.host, .returned), (.editor, .receive 1), (.editor, .returned), (.editor, .grant 1 1),
    (.host, .receive 1), (.editor, .receive 2), (.editor, .returned), (.editor, .grant 1 1),
    (.host, .receive 2)]

theorem credit_conserved_sample :
    ∃ c account e, run (Account.step .editor 1) (joined fun _ => 1, {}) grantedActs =
        some (c, account) ∧ account = ⟨2, 2, true⟩ ∧
      (c.party .host).core.incoming 1 = some e ∧ e.credit = 1 ∧ e.queued = [] := by
  have hwindow : ∀ act ∈ grantedActs, ∀ n, act.2 = .setPeerWindow n → n = 1 := by
    simp [grantedActs]
  have hconserved := credit_conserved (fun _ => 1) (fun _ => by decide) .editor 1 hwindow rfl rfl rfl
    rfl
  refine ⟨_, _, _, rfl, rfl, rfl, rfl, ?_⟩
  exact (hconserved.2 (fun side => by cases side <;> rfl) rfl fun _ => by decide).1

/-- The `Grant` comes before the chunk it is for. -/
def grantedAheadActs : List (Side × Act) :=
  [(.host, .handle "read"),
    (.editor, .request "read" .null { onChunk := true, grantsByHand := true } none 0),
    (.host, .receive 0), (.editor, .grant 1 1), (.host, .chunk 1 (.string "a")),
    (.host, .chunk 1 (.string "b")), (.host, .returned), (.editor, .receive 1), (.editor, .returned)]

/-- Every chunk received has been granted and nothing is in flight, and yet a chunk is queued. -/
theorem grant_ahead_stalls :
    ∃ c account o e, run (Account.step .editor 1) (joined fun _ => 1, {}) grantedAheadActs =
        some (c, account) ∧
      (c.party .editor).core.outgoing 1 = some o ∧ o.cancelled = false ∧
      o.handlers.grantsByHand = true ∧ account.received = 1 ∧ account.granted = 1 ∧
      (∀ side, (c.party side).core.sink = []) ∧ (∀ side, (c.party side).frames = []) ∧
      (c.party .host).core.incoming 1 = some e ∧ e.queued ≠ [] :=
  ⟨_, _, _, _, rfl, rfl, rfl, rfl, rfl, rfl, fun side => by cases side <;> rfl,
    fun side => by cases side <;> rfl, rfl, by simp⟩

end Connection

end Ned.Editor.Protocol
