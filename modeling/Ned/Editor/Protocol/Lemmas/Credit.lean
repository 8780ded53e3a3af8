import Ned.Editor.Protocol.Lemmas.Connection

/-!
# Credit

Where the credit of a stream is: with its sender, on its way as a chunk, consumed by the asker and
not yet granted again, or on its way back. An account keeps what the owner of the request has done
about the chunks it got.
-/

namespace Ned.Editor.Protocol

/-! ## Reading the channels -/

def Json.credits (id : Nat) (message : Json) : Nat :=
  let params := (message.find "params").getD .null
  if (message.find "method").bind Json.asString = some kCredit ∧ message.contains "id" = false ∧
      (params.find "id").bind asUnsigned = some id then
    ((params.find "n").bind asUnsigned).getD 0
  else 0

def Reply.isChunk : Reply → Bool
  | .chunk _ _ => true
  | .response _ => false

def sentCredit (id : Nat) (sink : List Json) : Nat := (sink.map (Json.credits id)).sum

def sentChunks (id : Nat) (sink : List Json) : Nat := (sentReplies id sink).countP Reply.isChunk

namespace EndpointCore

/-- The credit the asker of a stream has consumed, and what of it is on its way back. -/
def owed (core : EndpointCore) (id : Nat) : Nat :=
  sentCredit id core.sink + ((core.outgoing id).map (·.consumed)).getD 0

/-- The credit the sender of a stream has, and what of it is on its way as a chunk. -/
def spendable (core : EndpointCore) (id : Nat) : Nat :=
  sentChunks id core.sink + ((core.incoming id).map (·.credit)).getD 0

end EndpointCore

/-- Two endpoints that know of each other's windows. -/
def Connection.joined (window : Side → Nat) : Connection :=
  { party := fun side =>
      { core := (EndpointCore.create (window side)).setPeerWindow (window side.peer) } }

/-! ## What the owner of a request does about its chunks -/

structure Account where
  received : Nat := 0
  /-- The sum of the numbers passed to `Grant`. -/
  granted : Nat := 0
  /-- Nothing has arrived since the owner was done with all that had: since an `onChunk` returned or
  there was none to call, or since a `Grant` that made up for every chunk. -/
  settled : Bool := true
  deriving DecidableEq

namespace Account

def grant (account : Account) (n : Nat) : Account :=
  { account with
    granted := account.granted + n
    settled := decide (account.received ≤ account.granted + n) }

def receive (account : Account) (o : Outgoing) : Account :=
  { account with
    received := account.received + 1
    settled := !o.handlers.grantsByHand && !o.handlers.onChunk }

def bringsChunk (core : EndpointCore) (id : Nat) : Bool :=
  (core.sink.head?.bind (Json.replyTo id)).any Reply.isChunk

/-- Whether the innermost callback is about a chunk of the stream. -/
def handlesChunk (id : Nat) : List Frame → Bool
  | .onChunk i :: _ => i == id
  | _ => false

def act (account : Account) (party : Party) (chunk : Bool) (id : Nat) (act : Act) : Account :=
  match party.core.outgoing id with
  | none => account
  | some o =>
      match act with
      | .grant i n => if i = id ∧ o.handlers.grantsByHand = true then account.grant n else account
      | .receive _ => if chunk then account.receive o else account
      | .returned =>
          if handlesChunk id party.frames = true ∧ o.handlers.grantsByHand = false then
            { account with settled := true }
          else account
      | _ => account

def next (account : Account) (c : Connection) (side : Side) (id : Nat) (act : Side × Act) : Account :=
  if act.1 = side then
    account.act (c.party side) (bringsChunk (c.party side.peer).core id) id act.2
  else account

def step (side : Side) (id : Nat) (s : Connection × Account) (act : Side × Act) :
    Option (Connection × Account) :=
  (s.1.step act).map fun c => (c, s.2.next s.1 side id act)

end Account

/-!
## Nothing an endpoint does loses credit

What an endpoint does on its own moves credit about: from the sender to a chunk on its way, from the
asker to a grant on its way. A message that arrives moves it from the channel to the endpoint.
-/

open Conversation EndpointCore

variable {core core' core'' : EndpointCore} {id i n : Nat}

/-! ## Reading the channels -/

@[simp] theorem sentCredit_append (id : Nat) (sink sink' : List Json) :
    sentCredit id (sink ++ sink') = sentCredit id sink + sentCredit id sink' := by
  simp [sentCredit]

@[simp] theorem sentChunks_append (id : Nat) (sink sink' : List Json) :
    sentChunks id (sink ++ sink') = sentChunks id sink + sentChunks id sink' := by
  simp [sentChunks]

section Reading

variable (id i seq n : Nat) (method : String) (params data : Json)

@[simp] theorem sentCredit_requestMessage : sentCredit id [requestMessage i method params] = 0 := by
  simp [sentCredit, Json.credits, requestMessage, Json.find, Json.contains, List.lookup_cons]

@[simp] theorem sentCredit_chunkMessage : sentCredit id [chunkMessage i seq data] = 0 := by
  simp [sentCredit, Json.credits, chunkMessage, Json.find, Json.asString, List.lookup_cons, kChunk,
    kCredit]

theorem sentCredit_creditMessage :
    sentCredit id [creditMessage i n] = if i = id then n else 0 := by
  simp [sentCredit, Json.credits, creditMessage, Json.find, Json.contains, Json.asString, asUnsigned,
    List.lookup_cons]

@[simp] theorem sentCredit_cancelMessage : sentCredit id [cancelMessage i] = 0 := by
  simp [sentCredit, Json.credits, cancelMessage, Json.find, Json.asString, List.lookup_cons, kCancel,
    kCredit]

theorem IsResponse.sentCredit {response : Json} (h : IsResponse i response) :
    sentCredit id [response] = 0 := by
  cases h <;> simp [Protocol.sentCredit, Json.credits, resultResponse, errorResponse, Json.find,
    List.lookup_cons]

@[simp] theorem sentChunks_requestMessage :
    sentChunks id [requestMessage i method params] = 0 := by
  simp [sentChunks]

theorem sentChunks_chunkMessage :
    sentChunks id [chunkMessage i seq data] = if i = id then 1 else 0 := by
  rw [sentChunks, sentReplies_chunkMessage]
  split <;> rfl

@[simp] theorem sentChunks_creditMessage : sentChunks id [creditMessage i n] = 0 := by
  simp [sentChunks]

@[simp] theorem sentChunks_cancelMessage : sentChunks id [cancelMessage i] = 0 := by
  simp [sentChunks]

theorem IsResponse.sentChunks {response : Json} (h : IsResponse i response) :
    sentChunks id [response] = 0 := by
  rw [Protocol.sentChunks, h.sentReplies]
  split <;> rfl

end Reading

/-! ## What an endpoint does on its own -/

/-- A stream has no backlog while it has credit, and holds no response back without a backlog. -/
def Incoming.Flushed (entry : Incoming) : Prop :=
  entry.queued = [] ∧ entry.response = none ∨ entry.queued ≠ [] ∧ entry.credit = 0

/-- Credit has only moved about. -/
structure Books (core core' : EndpointCore) : Prop where
  window : core'.window = core.window
  peerWindow : core'.peerWindow = core.peerWindow
  nextId : core.nextId ≤ core'.nextId
  requests : ∀ i ∈ sentRequests core'.sink, i ∈ sentRequests core.sink ∨ core.nextId ≤ i
  owed : ∀ i, core'.owed i = core.owed i
  spendable : ∀ i entry', core'.incoming i = some entry' → ∃ entry, core.incoming i = some entry ∧
    core'.spendable i = core.spendable i ∧ (entry.Flushed → entry'.Flushed)

namespace Books

theorem refl : Books core core :=
  ⟨rfl, rfl, Nat.le_refl _, fun _ => Or.inl, fun _ => rfl, fun _ _ h => ⟨_, h, rfl, id⟩⟩

theorem trans (h : Books core core') (h' : Books core' core'') : Books core core'' where
  window := h'.window.trans h.window
  peerWindow := h'.peerWindow.trans h.peerWindow
  nextId := Nat.le_trans h.nextId h'.nextId
  requests i hi := by
    rcases h'.requests i hi with hi | hi
    · exact h.requests i hi
    · exact Or.inr (Nat.le_trans h.nextId hi)
  owed i := (h'.owed i).trans (h.owed i)
  spendable i entry'' hentry'' := by
    obtain ⟨entry', hentry', hsame', hflushed'⟩ := h'.spendable i entry'' hentry''
    obtain ⟨entry, hentry, hsame, hflushed⟩ := h.spendable i entry' hentry'
    exact ⟨entry, hentry, hsame'.trans hsame, hflushed' ∘ hflushed⟩

theorem asks (hwindow : core'.window = core.window) (hpeerWindow : core'.peerWindow = core.peerWindow)
    (hnext : core'.nextId = core.nextId)
    (hrequests : sentRequests core'.sink = sentRequests core.sink)
    (hincoming : core'.incoming = core.incoming)
    (hchunks : ∀ i, sentChunks i core'.sink = sentChunks i core.sink)
    (howed : ∀ i, core'.owed i = core.owed i) : Books core core' := by
  refine ⟨hwindow, hpeerWindow, hnext ▸ Nat.le_refl _, fun _ hi => Or.inl (hrequests ▸ hi), howed,
    fun i entry' hentry' => ?_⟩
  rw [hincoming] at hentry'
  refine ⟨entry', hentry', ?_, id⟩
  rw [EndpointCore.spendable, hchunks, hincoming]
  rfl

theorem serves (hwindow : core'.window = core.window)
    (hpeerWindow : core'.peerWindow = core.peerWindow) (hserves : Serves id core core')
    (hcredit : ∀ i, sentCredit i core'.sink = sentCredit i core.sink)
    (hspendable : ∀ entry', core'.incoming id = some entry' → ∃ entry,
      core.incoming id = some entry ∧ core'.spendable id = core.spendable id ∧
        (entry.Flushed → entry'.Flushed)) : Books core core' := by
  refine ⟨hwindow, hpeerWindow, hserves.nextId ▸ Nat.le_refl _,
    fun _ hi => Or.inl (hserves.requests ▸ hi), fun i => ?_, fun i entry' hentry' => ?_⟩
  · rw [EndpointCore.owed, hcredit, hserves.outgoing]
    rfl
  · by_cases hi : i = id
    · subst hi
      exact hspendable entry' hentry'
    · rw [hserves.incoming i hi] at hentry'
      refine ⟨entry', hentry', ?_, fun h => h⟩
      rw [EndpointCore.spendable, sentChunks, hserves.replies i hi, hserves.incoming i hi]
      rfl

end Books

/-! ### The half that serves -/

theorem spendable_setIncoming (entry : Incoming) :
    (core.setIncoming id (some entry)).spendable id = sentChunks id core.sink + entry.credit := by
  simp [EndpointCore.spendable, EndpointCore.setIncoming]

theorem spendable_of_incoming {entry : Incoming} (h : core.incoming id = some entry) :
    core.spendable id = sentChunks id core.sink + entry.credit := by
  simp [EndpointCore.spendable, h]

theorem incoming_setIncoming {entry entry' : Incoming}
    (h : (core.setIncoming id (some entry)).incoming id = some entry') : entry' = entry := by
  simp only [EndpointCore.setIncoming, Function.update_self, Option.some.injEq] at h
  exact h.symm

theorem chunk_books (data : Json) : Books core (core.chunk id data) := by
  unfold EndpointCore.chunk
  split
  · exact .refl
  · rename_i entry hentry
    split
    · rename_i hcredit
      refine .serves rfl rfl ((Serves.send_chunk _ _).trans (.setIncoming _)) (fun i => ?_)
        fun entry' hentry' => ⟨entry, hentry, ?_, fun hflushed => ?_⟩
      · simp [sendChunk, EndpointCore.send, EndpointCore.setIncoming]
      · rw [sendChunk, spendable_setIncoming, spendable_of_incoming hentry]
        simp only [EndpointCore.send, sentChunks_append, sentChunks_chunkMessage, if_true]
        omega
      · obtain rfl := incoming_setIncoming hentry'
        rcases hflushed with hflushed | hbacklog
        · exact Or.inl hflushed
        · exact absurd hcredit.2 hbacklog.1
    · rename_i hblocked
      refine .serves rfl rfl (.setIncoming _) (fun _ => rfl)
        fun entry' hentry' => ⟨entry, hentry, ?_, fun hflushed => ?_⟩
      · rw [spendable_setIncoming, spendable_of_incoming hentry]
      · obtain rfl := incoming_setIncoming hentry'
        refine Or.inr ⟨by simp, ?_⟩
        rcases hflushed with hflushed | hbacklog
        · exact Nat.eq_zero_of_not_pos fun hcredit => hblocked ⟨hcredit, hflushed.1⟩
        · exact hbacklog.2

theorem send_response_books {response : Json} (h : IsResponse id response) :
    Books core (core.send response) := by
  refine .serves rfl rfl (.send_response h) (fun i => ?_)
    fun entry hentry => ⟨entry, hentry, ?_, fun h => h⟩
  · simp [EndpointCore.send, h.sentCredit]
  · simp [EndpointCore.spendable, EndpointCore.send, h.sentChunks]

theorem answer_books {response : Json} (h : IsResponse id response) :
    Books core (core.answer id response) := by
  refine .serves ?_ ?_ (answer_serves h) (fun i => ?_) fun entry' hentry' => ?_ <;>
    unfold EndpointCore.answer at *
  · split
    · rfl
    · split <;> rfl
  · split
    · rfl
    · split <;> rfl
  · split
    · rfl
    · split
      · simp [EndpointCore.send, EndpointCore.setIncoming, h.sentCredit]
      · rfl
  · split at hentry'
    · rename_i hnone
      cases hnone.symm.trans hentry'
    · rename_i entry hentry
      split at hentry'
      · simp [EndpointCore.setIncoming, EndpointCore.send] at hentry'
      · rename_i hbacklog
        obtain rfl := incoming_setIncoming hentry'
        refine ⟨entry, hentry, ?_, fun hflushed => Or.inr ⟨hbacklog, ?_⟩⟩
        · rw [if_neg hbacklog, spendable_setIncoming, spendable_of_incoming hentry]
        · rcases hflushed with hflushed | hbacklog'
          · exact absurd hflushed.1 hbacklog
          · exact hbacklog'.2

theorem drain_spec (core : EndpointCore) (id : Nat) (entry : Incoming) (queued : List Json) :
    let drained := core.drain id entry queued
    drained.1.window = core.window ∧ drained.1.peerWindow = core.peerWindow ∧
      (∀ i, sentCredit i drained.1.sink = sentCredit i core.sink) ∧
      sentChunks id drained.1.sink + drained.2.credit = sentChunks id core.sink + entry.credit ∧
      (drained.2.queued ≠ [] → drained.2.credit = 0) := by
  induction queued generalizing core entry with
  | nil => exact ⟨rfl, rfl, fun _ => rfl, rfl, fun h => absurd rfl h⟩
  | cons data queued ih =>
      unfold drain
      split
      · rename_i hcredit
        obtain ⟨hwindow, hpeerWindow, hsent, hspent, hdone⟩ := ih
          (core.sendChunk id entry data).1 (core.sendChunk id entry data).2
        refine ⟨hwindow, hpeerWindow, fun i => ?_, hspent.trans ?_, hdone⟩
        · rw [hsent]
          simp [sendChunk, EndpointCore.send]
        · simp only [sendChunk, EndpointCore.send, sentChunks_append, sentChunks_chunkMessage,
            if_true]
          omega
      · rename_i hspent
        exact ⟨rfl, rfl, fun _ => rfl, rfl, fun _ => Nat.eq_zero_of_not_pos hspent⟩

theorem flush_books {entry : Incoming} (hentry : core.incoming id = some entry)
    (hheld : ∀ response, entry.response = some response → IsResponse id response) :
    let core' := (core.flush id).1
    core'.window = core.window ∧ core'.peerWindow = core.peerWindow ∧
      (∀ i, sentCredit i core'.sink = sentCredit i core.sink) ∧
      ∀ entry', core'.incoming id = some entry' →
        core'.spendable id = core.spendable id ∧ entry'.Flushed := by
  obtain ⟨hwindow, hpeerWindow, hsent, hspent, hdone⟩ := drain_spec core id entry entry.queued
  rw [spendable_of_incoming hentry, ← hspent]
  unfold flush
  rw [hentry]
  simp only
  split
  · rename_i hbacklog
    refine ⟨hwindow, hpeerWindow, hsent, fun entry' hentry' => ?_⟩
    obtain rfl := incoming_setIncoming hentry'
    exact ⟨spendable_setIncoming _, Or.inr ⟨hbacklog, hdone hbacklog⟩⟩
  · rename_i hempty
    split
    · rename_i response hresponse
      have hresponse := hheld response ((drain_response _).symm.trans hresponse)
      refine ⟨hwindow, hpeerWindow, fun i => ?_, fun entry' hentry' => ?_⟩
      · rw [← hsent i]
        simp [EndpointCore.send, EndpointCore.setIncoming, hresponse.sentCredit]
      · simp [EndpointCore.setIncoming, EndpointCore.send] at hentry'
    · rename_i hnone
      refine ⟨hwindow, hpeerWindow, hsent, fun entry' hentry' => ?_⟩
      obtain rfl := incoming_setIncoming hentry'
      exact ⟨spendable_setIncoming _, Or.inl ⟨not_not.1 hempty, hnone⟩⟩

/-! ### The half that asks -/

theorem owed_of_outgoing {o : Outgoing} (h : core.outgoing id = some o) :
    core.owed id = sentCredit id core.sink + o.consumed := by
  simp [EndpointCore.owed, h]

theorem setOutgoing_books {o o' : Outgoing} (ho : core.outgoing id = some o)
    (hconsumed : o'.consumed = o.consumed) : Books core (core.setOutgoing id (some o')) := by
  refine .asks rfl rfl rfl rfl rfl (fun _ => rfl) fun i => ?_
  by_cases hi : i = id
  · subst hi
    simp [EndpointCore.owed, EndpointCore.setOutgoing, ho, hconsumed]
  · simp [EndpointCore.owed, EndpointCore.setOutgoing, hi]

theorem send_cancel_books : Books core (core.send (cancelMessage id)) := by
  refine .asks rfl rfl rfl ?_ rfl (fun i => ?_) fun i => ?_
  · simp [EndpointCore.send]
  · simp [EndpointCore.send]
  · simp [EndpointCore.owed, EndpointCore.send]

/-- The numbers of an entry once `GrantConsumed` is done with it. -/
def Outgoing.afterGrant (entry : Outgoing) (window more : Nat) : Outgoing :=
  let granted := (entry.granted + more) % (sizeMax + 1)
  let ready := if entry.handlers.grantsByHand then min granted entry.consumed else entry.consumed
  if ready ≥ max (window / 2) 1 then
    { entry with
      consumed := entry.consumed - ready
      granted := granted - if entry.handlers.grantsByHand then ready else 0 }
  else
    { entry with granted := granted }

/-- An entry once `ReceiveChunk` has counted the chunk. -/
def Outgoing.afterChunk (entry : Outgoing) (now : Int) : Outgoing :=
  { entry with nextSeq := entry.nextSeq + 1, consumed := entry.consumed + 1, lastHeard := now }

theorem Outgoing.afterGrant_cancelled (entry : Outgoing) (window more : Nat) :
    (entry.afterGrant window more).cancelled = entry.cancelled := by
  unfold Outgoing.afterGrant
  simp only
  generalize (if entry.handlers.grantsByHand = true then
    min ((entry.granted + more) % (sizeMax + 1)) entry.consumed else entry.consumed) = ready
  split <;> rfl

theorem grantConsumed_outgoing (entry : Outgoing) (more : Nat) :
    (core.grantConsumed id entry more).outgoing =
      Function.update core.outgoing id (some (entry.afterGrant core.window more)) := by
  unfold grantConsumed Outgoing.afterGrant
  simp only
  generalize (if entry.handlers.grantsByHand = true then
    min ((entry.granted + more) % (sizeMax + 1)) entry.consumed else entry.consumed) = ready
  split <;> rfl

theorem grantConsumed_window (entry : Outgoing) (more : Nat) :
    (core.grantConsumed id entry more).window = core.window := by
  unfold grantConsumed
  simp only
  generalize (if entry.handlers.grantsByHand = true then
    min ((entry.granted + more) % (sizeMax + 1)) entry.consumed else entry.consumed) = ready
  split <;> rfl

theorem grantConsumed_books {entry : Outgoing} (more : Nat) (ho : core.outgoing id = some entry) :
    Books core (core.grantConsumed id entry more) := by
  unfold grantConsumed
  simp only
  generalize hready : (if entry.handlers.grantsByHand = true then
    min ((entry.granted + more) % (sizeMax + 1)) entry.consumed else entry.consumed) = ready
  have hle : ready ≤ entry.consumed := by
    rw [← hready]
    split
    · exact Nat.min_le_right _ _
    · exact Nat.le_refl _
  split
  · refine .asks rfl rfl rfl ?_ rfl (fun i => ?_) fun i => ?_
    · simp [EndpointCore.send, EndpointCore.setOutgoing]
    · simp [EndpointCore.send, EndpointCore.setOutgoing]
    · by_cases hi : i = id
      · subst hi
        simp only [EndpointCore.owed, EndpointCore.send, EndpointCore.setOutgoing,
          Function.update_self, Option.map_some, Option.getD_some, sentCredit_append,
          sentCredit_creditMessage, if_true, ho]
        omega
      · simp [EndpointCore.owed, EndpointCore.send, EndpointCore.setOutgoing, hi,
          sentCredit_creditMessage, Ne.symm hi]
  · exact setOutgoing_books ho rfl

theorem chunkHandled_books : Books core (core.chunkHandled id) := by
  unfold chunkHandled
  split
  · exact .refl
  · rename_i entry ho
    split
    · exact .refl
    · exact grantConsumed_books 0 ho

theorem grant_books (n : Nat) : Books core (core.grant id n) := by
  unfold grant
  split
  · exact .refl
  · rename_i entry ho
    split
    · exact .refl
    · exact grantConsumed_books n ho

theorem cancel_books : Books core (core.cancel id) := by
  unfold EndpointCore.cancel
  split
  · exact .refl
  · rename_i entry ho
    split
    · exact .refl
    · have hcancelled : Books core (core.setOutgoing id (some { entry with cancelled := true })) :=
        setOutgoing_books ho rfl
      exact hcancelled.trans send_cancel_books

theorem collectExpired_books (now : Int) (ids : List Nat) :
    Books core (core.collectExpired now ids).1 := by
  induction ids generalizing core with
  | nil => exact .refl
  | cons id ids ih =>
      unfold collectExpired
      split
      · exact ih
      · rename_i entry ho
        split
        · exact ih
        · split
          · have hexpired : Books core (core.setOutgoing id (some { entry with
                cancelled := true, handlers := {} })) := setOutgoing_books ho rfl
            exact hexpired.trans ih
          · exact ih

theorem expireIdle_books (now : Int) (ids : List Nat) : Books core (core.expireIdle now ids).1 := by
  have hsend : ∀ (expired : List Expired) (core : EndpointCore),
      Books core (expired.foldl (fun core request => core.send (cancelMessage request.id)) core) := by
    intro expired
    induction expired with
    | nil => exact fun _ => .refl
    | cons request expired ih => exact fun core => send_cancel_books.trans (ih _)
  exact (collectExpired_books now ids).trans (hsend _ _)

theorem request_books (hnew : core.outgoing core.nextId = none) (method : String) (params : Json)
    (handlers : ResponseHandlers) (idleLimit : Option Int) (now : Int) :
    Books core (core.request method params handlers idleLimit now) where
  window := rfl
  peerWindow := rfl
  nextId := Nat.le_succ _
  requests i hi := by
    simp only [EndpointCore.request, EndpointCore.send, sentRequests_append,
      sentRequests_requestMessage, List.mem_append, List.mem_singleton] at hi
    exact hi.imp (fun h => h) fun h => Nat.le_of_eq h.symm
  owed i := by
    by_cases hi : i = core.nextId
    · subst hi
      simp [EndpointCore.owed, EndpointCore.request, EndpointCore.send, EndpointCore.setOutgoing,
        hnew]
    · simp [EndpointCore.owed, EndpointCore.request, EndpointCore.send, EndpointCore.setOutgoing, hi]
  spendable i entry' hentry' := by
    refine ⟨entry', hentry', ?_, fun h => h⟩
    simp [EndpointCore.spendable, EndpointCore.request, EndpointCore.send, EndpointCore.setOutgoing]

/-! ## Both ends of a stream -/

/-- The credit of a stream is the window, wherever it is, and its sender has sent what it may. -/
structure Balanced (window : Nat) (asker server : EndpointCore) (id : Nat) : Prop where
  fresh : asker.nextId ≤ id → asker.owed id = 0
  asked : id ∈ sentRequests asker.sink → asker.owed id = 0
  stream : ∀ entry, server.incoming id = some entry →
    server.spendable id + asker.owed id = window ∧ entry.Flushed

namespace Balanced

variable {window : Nat} {asker asker' server server' : EndpointCore}

theorem asks (h : Balanced window asker server id) (hbooks : Books asker asker') :
    Balanced window asker' server id where
  fresh hle := (hbooks.owed id).trans (h.fresh (Nat.le_trans hbooks.nextId hle))
  asked hid := by
    rw [hbooks.owed]
    rcases hbooks.requests id hid with hid | hid
    · exact h.asked hid
    · exact h.fresh hid
  stream entry hentry := by
    rw [hbooks.owed]
    exact h.stream entry hentry

theorem serves (h : Balanced window asker server id) (hbooks : Books server server') :
    Balanced window asker server' id where
  fresh := h.fresh
  asked := h.asked
  stream entry' hentry' := by
    obtain ⟨entry, hentry, hsame, hflushed⟩ := hbooks.spendable id entry' hentry'
    obtain ⟨hsum, hentryFlushed⟩ := h.stream entry hentry
    exact ⟨hsame ▸ hsum, hflushed hentryFlushed⟩

theorem popAsker {message : Json} {sink : List Json} (h : Balanced window asker server id)
    (hsink : asker.sink = message :: sink) (hcredit : sentCredit id [message] = 0) :
    Balanced window { asker with sink := sink } server id := by
  have howed : EndpointCore.owed { asker with sink := sink } id = asker.owed id := by
    rw [EndpointCore.owed, EndpointCore.owed, hsink, ← List.singleton_append, sentCredit_append,
      hcredit, Nat.zero_add]
  refine ⟨fun hle => howed.trans (h.fresh hle), fun hid => howed.trans (h.asked ?_), ?_⟩
  · rw [hsink, ← List.singleton_append, sentRequests_append]
    exact List.mem_append_right _ hid
  · rw [howed]
    exact h.stream

theorem popServer {message : Json} {sink : List Json} (h : Balanced window asker server id)
    (hsink : server.sink = message :: sink) (hchunk : sentChunks id [message] = 0) :
    Balanced window asker { server with sink := sink } id := by
  have hspendable : EndpointCore.spendable { server with sink := sink } id = server.spendable id := by
    rw [EndpointCore.spendable, EndpointCore.spendable, hsink, ← List.singleton_append,
      sentChunks_append, hchunk, Nat.zero_add]
  refine ⟨h.fresh, h.asked, fun entry hentry => ?_⟩
  rw [hspendable]
  exact h.stream entry hentry

theorem congr (h : Balanced window asker server id) (hnext : asker'.nextId = asker.nextId)
    (hrequests : id ∈ sentRequests asker'.sink → id ∈ sentRequests asker.sink)
    (howed : asker'.owed id = asker.owed id) (hincoming : server'.incoming id = server.incoming id)
    (hspendable : server'.spendable id = server.spendable id) :
    Balanced window asker' server' id where
  fresh hle := howed.trans (h.fresh (hnext ▸ hle))
  asked hid := howed.trans (h.asked (hrequests hid))
  stream entry hentry := by
    rw [howed, hspendable]
    exact h.stream entry (hincoming ▸ hentry)

theorem ended (h : Balanced window asker server id) (hnext : asker'.nextId = asker.nextId)
    (hrequests : id ∈ sentRequests asker'.sink → id ∈ sentRequests asker.sink)
    (howed : asker'.owed id ≤ asker.owed id) (hincoming : server'.incoming id = none) :
    Balanced window asker' server' id where
  fresh hle := Nat.eq_zero_of_le_zero (h.fresh (hnext ▸ hle) ▸ howed)
  asked hid := Nat.eq_zero_of_le_zero (h.asked (hrequests hid) ▸ howed)
  stream entry hentry := by cases hincoming.symm.trans hentry

theorem accept (h : Balanced window asker server id) (hasked : id ∈ sentRequests asker.sink)
    (hchunks : sentChunks id server.sink = 0) (hsink : server'.sink = server.sink)
    (hincoming : server'.incoming id = some { credit := window }) :
    Balanced window asker server' id where
  fresh := h.fresh
  asked := h.asked
  stream entry hentry := by
    obtain rfl := Option.some.inj (hincoming.symm.trans hentry)
    refine ⟨?_, Or.inl ⟨rfl, rfl⟩⟩
    rw [spendable_of_incoming hincoming, hsink, hchunks, h.asked hasked, Nat.zero_add, Nat.add_zero]

theorem consume {o o' : Outgoing} {seq : Nat} {data : Json} {sink : List Json}
    (h : Balanced window asker server id) (ho : asker.outgoing id = some o)
    (hconsumed : o'.consumed = o.consumed + 1) (hknown : id < asker.nextId)
    (haccepted : id ∉ sentRequests asker.sink)
    (hsink : server.sink = chunkMessage id seq data :: sink) :
    Balanced window (asker.setOutgoing id (some o')) { server with sink := sink } id where
  fresh hle := absurd hknown (Nat.not_lt_of_le hle)
  asked hid := absurd hid haccepted
  stream entry hentry := by
    obtain ⟨hsum, hflushed⟩ := h.stream entry hentry
    refine ⟨?_, hflushed⟩
    have hentry : server.incoming id = some entry := hentry
    rw [spendable_of_incoming hentry, owed_of_outgoing ho, hsink, ← List.singleton_append,
      sentChunks_append, sentChunks_chunkMessage, if_pos rfl] at hsum
    simp only [EndpointCore.spendable, EndpointCore.owed, EndpointCore.setOutgoing,
      Function.update_self, Option.map_some, Option.getD_some, hconsumed, hentry]
    omega

theorem credit {entry : Incoming} {sink : List Json} (h : Balanced window asker server id)
    (hsize : window ≤ sizeMax) (hsink : asker.sink = creditMessage id n :: sink)
    (hentry : server.incoming id = some entry)
    (hheld : ∀ response, entry.response = some response → IsResponse id response) :
    Balanced window { asker with sink := sink }
      ((server.setIncoming id (some { entry with
        credit := if n > sizeMax - entry.credit then sizeMax else entry.credit + n })).flush id).1
      id := by
  obtain ⟨hsum, -⟩ := h.stream entry hentry
  have howed : asker.owed id = n + EndpointCore.owed { asker with sink := sink } id := by
    rw [EndpointCore.owed, EndpointCore.owed, hsink, ← List.singleton_append, sentCredit_append,
      sentCredit_creditMessage, if_pos rfl, Nat.add_assoc]
  rw [spendable_of_incoming hentry, howed] at hsum
  rw [if_neg (by omega)]
  have hadded : (server.setIncoming id (some { entry with credit := entry.credit + n })).incoming id =
      some { entry with credit := entry.credit + n } := Function.update_self ..
  obtain ⟨-, -, -, hspent⟩ := flush_books hadded hheld
  refine ⟨fun hle => ?_, fun hid => ?_, fun entry' hentry' => ?_⟩
  · have hzero := h.fresh hle
    omega
  · have hzero := h.asked (hsink ▸ List.mem_filterMap.2 ?_)
    · omega
    · obtain ⟨m, hm, hasks⟩ := List.mem_filterMap.1 hid
      exact ⟨m, List.mem_cons_of_mem _ hm, hasks⟩
  · obtain ⟨hsame, hflushed⟩ := hspent entry' hentry'
    refine ⟨?_, hflushed⟩
    rw [hsame, spendable_setIncoming]
    simp only
    omega

end Balanced

/-! ## Acts of an owner -/

variable {party : Party}

theorem failExpired_core (party : Party) (expired : List Expired) :
    (party.failExpired expired).1.core = party.core := by
  obtain ⟨⟨frames, hparty⟩, -⟩ := Connection.failExpired_spec party expired
  rw [hparty]

theorem Party.answer_books {response : Json} (h : IsResponse id response) :
    Books party.core (party.answer id response).core := by
  unfold Party.answer
  split
  · exact Protocol.answer_books h
  · exact .refl

theorem Party.returned_books : Books party.core party.returned.1.core := by
  unfold Party.returned
  split
  · exact .refl
  · exact .refl
  · exact chunkHandled_books
  · rw [failExpired_core]
    exact .refl

theorem Party.thrown_books (what : Option String) : Books party.core (party.thrown what).core := by
  unfold Party.thrown
  split
  · exact Protocol.answer_books (.error ..)
  · exact .refl
  · exact .refl

theorem Party.perform_books (act : Act) (hnew : party.core.outgoing party.core.nextId = none)
    (hwindow : ∀ window, act = .setPeerWindow window → party.core.peerWindow = max window 1) :
    Books party.core (party.perform act).1.core := by
  cases act with
  | receive => exact .refl
  | request method params handlers idleLimit now => exact request_books hnew ..
  | cancel id => exact cancel_books
  | grant id n => exact grant_books n
  | expireIdle now order =>
      simp only [Party.perform, Party.expireIdle, failExpired_core]
      exact expireIdle_books now order
  | chunk id data =>
      simp only [Party.perform, Party.chunk]
      split
      · exact chunk_books data
      · exact .refl
  | result id result => exact Party.answer_books (.result result)
  | error id code message data => exact Party.answer_books (.error code message data)
  | drop id => exact Party.answer_books (.error ..)
  | onDrained id =>
      simp only [Party.perform, Party.onDrained]
      split
      · rename_i entry hresponder hentry
        refine .serves rfl rfl (.setIncoming _) (fun _ => rfl)
          fun entry' hentry' => ⟨entry, hentry, ?_, fun hflushed => ?_⟩
        · rw [spendable_setIncoming, spendable_of_incoming hentry]
        · obtain rfl := incoming_setIncoming hentry'
          exact hflushed
      · exact .refl
  | handle method => exact .asks rfl rfl rfl rfl rfl (fun _ => rfl) fun _ => rfl
  | setPeerWindow window =>
      refine .asks rfl ?_ rfl rfl rfl (fun _ => rfl) fun _ => rfl
      exact (hwindow window rfl).symm
  | returned => exact Party.returned_books
  | thrown what => exact Party.thrown_books what

/-! ## The account of a request -/

/-- The account is true of the entry: what it says was received was, what was granted for chunks that
are consumed is still to be sent, and when it is settled less than a batch waits. -/
structure Account.Fits (window : Nat) (account : Account) (o : Outgoing) : Prop where
  received : account.received = o.nextSeq
  consumed : o.consumed ≤ o.nextSeq
  granted : o.handlers.grantsByHand = true → account.granted ≤ sizeMax →
    o.granted + o.nextSeq = account.granted + o.consumed
  settled : (o.handlers.grantsByHand = true → account.granted ≤ sizeMax) →
    account.settled = true → o.consumed < max (window / 2) 1

namespace Account.Fits

variable {window : Nat} {account : Account} {o : Outgoing}

theorem handled (h : Fits window account o) (hauto : o.handlers.grantsByHand = false) :
    Fits window { account with settled := true } (o.afterGrant window 0) := by
  simp only [Outgoing.afterGrant, hauto, Bool.false_eq_true, if_false]
  split
  · refine ⟨h.received, Nat.le_trans (Nat.sub_le _ _) h.consumed, fun hbyHand => ?_, fun _ _ => ?_⟩
    · cases hauto.symm.trans hbyHand
    · simp only
      omega
  · rename_i hfew
    refine ⟨h.received, h.consumed, fun hbyHand => ?_, fun _ _ => ?_⟩
    · cases hauto.symm.trans hbyHand
    · exact Nat.lt_of_not_le hfew

theorem grant (h : Fits window account o) (hbyHand : o.handlers.grantsByHand = true) (n : Nat) :
    Fits window (account.grant n) (o.afterGrant window n) := by
  have hwhole : account.granted + n ≤ sizeMax → (o.granted + n) % (sizeMax + 1) = o.granted + n ∧
      o.granted + n + o.nextSeq = account.granted + n + o.consumed := by
    intro hsize
    have hequal := h.granted hbyHand (Nat.le_trans (Nat.le_add_right _ _) hsize)
    have hconsumed := h.consumed
    exact ⟨Nat.mod_eq_of_lt (by omega), by omega⟩
  have hreceived := h.received
  simp only [Outgoing.afterGrant, hbyHand, if_true]
  split
  · refine ⟨hreceived, Nat.le_trans (Nat.sub_le _ _) h.consumed, fun _ hsize => ?_,
      fun hsize hsettled => ?_⟩
    · obtain ⟨hmod, hequal⟩ := hwhole hsize
      simp only [hmod, Account.grant]
      omega
    · obtain ⟨hmod, hequal⟩ := hwhole (hsize hbyHand)
      simp only [Account.grant, decide_eq_true_eq] at hsettled
      simp only [hmod]
      omega
  · rename_i hfew
    refine ⟨hreceived, h.consumed, fun _ hsize => ?_, fun hsize hsettled => ?_⟩
    · obtain ⟨hmod, hequal⟩ := hwhole hsize
      simp only [hmod, Account.grant]
      omega
    · obtain ⟨hmod, hequal⟩ := hwhole (hsize hbyHand)
      simp only [Account.grant, decide_eq_true_eq] at hsettled
      rw [hmod] at hfew
      simp only
      omega

theorem arrived (h : Fits window account o) (now : Int) :
    Fits window { account with received := account.received + 1, settled := false } { o with
      nextSeq := o.nextSeq + 1, consumed := o.consumed + 1, lastHeard := now } where
  received := congrArg (· + 1) h.received
  consumed := Nat.succ_le_succ h.consumed
  granted hbyHand hsize := by
    have hequal := h.granted hbyHand hsize
    simp only
    omega
  settled _ hsettled := by cases hsettled

end Account.Fits

/-! ### Acts of the owner -/

theorem collectExpired_outgoing {now : Int} {ids : List Nat} {o : Outgoing}
    (h : (core.collectExpired now ids).1.outgoing id = some o) (hlive : o.cancelled = false) :
    core.outgoing id = some o := by
  induction ids generalizing core with
  | nil => exact h
  | cons i ids ih =>
      unfold collectExpired at h
      split at h
      · exact ih h
      · rename_i entry ho
        split at h
        · exact ih h
        · split at h
          · have hbefore := ih h
            by_cases hi : id = i
            · subst hi
              simp only [EndpointCore.setOutgoing, Function.update_self, Option.some.injEq] at hbefore
              rw [← hbefore] at hlive
              cases hlive
            · simpa [EndpointCore.setOutgoing, hi] using hbefore
          · exact ih h

theorem expireIdle_outgoing {now : Int} {ids : List Nat} {o : Outgoing}
    (h : (core.expireIdle now ids).1.outgoing id = some o) (hlive : o.cancelled = false) :
    core.outgoing id = some o := by
  have hsend : ∀ (expired : List Expired) (core : EndpointCore),
      (expired.foldl (fun core request => core.send (cancelMessage request.id)) core).outgoing =
        core.outgoing := by
    intro expired
    induction expired with
    | nil => exact fun _ => rfl
    | cons request expired ih => exact fun core => ih _
  simp only [expireIdle, hsend] at h
  exact collectExpired_outgoing h hlive

/-- An account that fits the entry of its request, should that be live. -/
def Account.FitsLive (account : Account) (core : EndpointCore) (id : Nat) : Prop :=
  ∀ o, core.outgoing id = some o → o.cancelled = false → account.Fits core.window o

namespace Account.FitsLive

variable {account : Account}

theorem congr (h : account.FitsLive core id) (hwindow : core'.window = core.window)
    (houtgoing : core'.outgoing id = core.outgoing id) : account.FitsLive core' id :=
  fun o ho hlive => hwindow ▸ h o (houtgoing ▸ ho) hlive

theorem served (h : account.FitsLive core id) (hbooks : Books core core')
    (hserves : Serves i core core') : account.FitsLive core' id :=
  h.congr hbooks.window (congrFun hserves.outgoing id)

theorem grantConsumed {account' : Account} {entry : Outgoing} (h : account.FitsLive core id)
    (more : Nat) (hother : i ≠ id → account' = account)
    (hself : i = id → entry.cancelled = false →
      account'.Fits core.window (entry.afterGrant core.window more)) :
    account'.FitsLive (core.grantConsumed i entry more) id := by
  intro o ho hlive
  rw [grantConsumed_window]
  rw [grantConsumed_outgoing] at ho
  by_cases hi : i = id
  · subst hi
    rw [Function.update_self] at ho
    obtain rfl := Option.some.inj ho
    rw [Outgoing.afterGrant_cancelled] at hlive
    exact hself rfl hlive
  · rw [Function.update_of_ne (Ne.symm hi)] at ho
    exact hother hi ▸ h o ho hlive

theorem chunkHandled (h : account.FitsLive core id) (hi : i ≠ id) :
    account.FitsLive (core.chunkHandled i) id := by
  unfold EndpointCore.chunkHandled
  split
  · exact h
  · split
    · exact h
    · exact h.grantConsumed 0 (fun _ => rfl) fun heq => absurd heq hi

theorem chunkHandled_self {o : Outgoing} (h : account.FitsLive core id)
    (ho : core.outgoing id = some o) (hauto : o.handlers.grantsByHand = false) :
    ({ account with settled := true } : Account).FitsLive (core.chunkHandled id) id := by
  unfold EndpointCore.chunkHandled
  rw [ho]
  simp only [hauto, Bool.false_eq_true, or_false]
  split
  · rename_i hcancelled
    intro o' ho' hlive
    obtain rfl := Option.some.inj (ho.symm.trans ho')
    cases hlive.symm.trans hcancelled
  · refine h.grantConsumed 0 (fun hne => absurd rfl hne) fun _ hlive => ?_
    exact (h o ho hlive).handled hauto

theorem chunkHandled_byHand {o : Outgoing} (h : account.FitsLive core id)
    (ho : core.outgoing id = some o) (hbyHand : o.handlers.grantsByHand = true) :
    account.FitsLive (core.chunkHandled id) id := by
  unfold EndpointCore.chunkHandled
  rw [ho]
  simp only [hbyHand, or_true, if_true]
  exact h

end Account.FitsLive

variable {account : Account}

theorem Account.FitsLive.grant (h : account.FitsLive party.core id) (chunk : Bool) (i n : Nat) :
    (account.act party chunk id (.grant i n)).FitsLive (party.core.grant i n) id := by
  unfold EndpointCore.grant
  cases ho : party.core.outgoing id with
  | none =>
      simp only [Account.act, ho]
      split
      · exact h
      · rename_i entry hentry
        split
        · exact h
        · refine h.grantConsumed n (fun _ => rfl) fun hi _ => ?_
          cases ho.symm.trans (hi ▸ hentry)
  | some o =>
      simp only [Account.act, ho]
      by_cases hi : i = id
      · subst hi
        rw [ho]
        by_cases hbyHand : o.handlers.grantsByHand = true
        · rw [if_pos ⟨rfl, hbyHand⟩]
          simp only [hbyHand, Bool.true_eq_false, or_false]
          split
          · rename_i hcancelled
            intro o' ho' hlive
            obtain rfl := Option.some.inj (ho.symm.trans ho')
            cases hlive.symm.trans hcancelled
          · refine h.grantConsumed n (fun hne => absurd rfl hne) fun _ hlive => ?_
            exact (h o ho hlive).grant hbyHand n
        · rw [if_neg fun hboth => hbyHand hboth.2]
          simp only
          rw [if_pos (Or.inr (Bool.eq_false_iff.2 hbyHand))]
          exact h
      · rw [if_neg fun hboth => hi hboth.1]
        split
        · exact h
        · split
          · exact h
          · exact h.grantConsumed n (fun _ => rfl) fun heq => absurd heq hi

theorem Account.FitsLive.returned (h : account.FitsLive party.core id) (chunk : Bool) :
    (account.act party chunk id .returned).FitsLive party.returned.1.core id := by
  unfold Party.returned
  cases ho : party.core.outgoing id with
  | none =>
      simp only [Account.act, ho]
      split
      · exact h
      · exact h
      · rename_i i frames hframes
        by_cases hi : i = id
        · subst hi
          intro o ho'
          simp only [EndpointCore.chunkHandled, ho, reduceCtorEq] at ho'
        · exact h.chunkHandled hi
      · rw [failExpired_core]
        exact h
  | some o =>
      simp only [Account.act, ho]
      cases hframes : party.frames with
      | nil => exact h
      | cons frame frames =>
          cases frame with
          | requestHandler i => exact h
          | onChunk i =>
              simp only [Account.handlesChunk, beq_iff_eq]
              by_cases hi : i = id
              · subst hi
                cases hauto : o.handlers.grantsByHand with
                | false =>
                    rw [if_pos ⟨rfl, rfl⟩]
                    exact h.chunkHandled_self ho hauto
                | true =>
                    rw [if_neg (by simp)]
                    exact h.chunkHandled_byHand ho hauto
              · rw [if_neg fun hboth => hi hboth.1]
                exact h.chunkHandled hi
          | expired rest =>
              simp only [Account.handlesChunk, Bool.false_eq_true, false_and, if_false]
              rw [failExpired_core]
              exact h

theorem Account.FitsLive.consumed {o : Outgoing} (h : account.FitsLive core id)
    (ho : core.outgoing id = some o) (now : Int) :
    (account.receive o).FitsLive
      (if o.cancelled = false ∧ o.handlers.onChunk = true then
        core.setOutgoing id (some (o.afterChunk now))
      else
        (core.setOutgoing id (some (o.afterChunk now))).chunkHandled id) id := by
  have hset : (core.setOutgoing id (some (o.afterChunk now))).outgoing id =
      some (o.afterChunk now) := Function.update_self ..
  have harrived : FitsLive { account with received := account.received + 1, settled := false }
      (core.setOutgoing id (some (o.afterChunk now))) id := by
    intro o' ho' hlive
    obtain rfl := Option.some.inj (hset.symm.trans ho')
    exact (h o ho hlive).arrived now
  split
  · rename_i hcalled
    simpa [Account.receive, hcalled.2] using harrived
  · rename_i hquiet
    cases hbyHand : o.handlers.grantsByHand with
    | true => simpa [Account.receive, hbyHand] using harrived.chunkHandled_byHand hset hbyHand
    | false =>
        cases hcallback : o.handlers.onChunk with
        | false =>
            simpa [Account.receive, hbyHand, hcallback] using harrived.chunkHandled_self hset hbyHand
        | true =>
            have hcancelled : (o.afterChunk now).cancelled = true :=
              (Bool.eq_false_or_eq_true _).resolve_right fun hlive => hquiet ⟨hlive, hcallback⟩
            simp only [EndpointCore.chunkHandled, hset, hcancelled, true_or, if_true]
            intro o' ho' hlive
            obtain rfl := Option.some.inj (hset.symm.trans ho')
            cases hlive.symm.trans hcancelled

theorem Account.FitsLive.cancel (h : account.FitsLive core id) (i : Nat) :
    account.FitsLive (core.cancel i) id := by
  unfold EndpointCore.cancel
  split
  · exact h
  · split
    · exact h
    · intro o ho hlive
      by_cases hi : id = i
      · subst hi
        simp only [EndpointCore.send, EndpointCore.setOutgoing, Function.update_self,
          Option.some.injEq] at ho
        rw [← ho] at hlive
        cases hlive
      · refine h o ?_ hlive
        simpa [EndpointCore.send, EndpointCore.setOutgoing, hi] using ho

theorem Account.FitsLive.answer (h : account.FitsLive party.core id) {response : Json}
    (hresponse : IsResponse i response) : account.FitsLive (party.answer i response).core id := by
  unfold Party.answer
  split
  · exact h.served (Protocol.answer_books hresponse) (answer_serves hresponse)
  · exact h

theorem Account.FitsLive.thrown (h : account.FitsLive party.core id) (what : Option String) :
    account.FitsLive (party.thrown what).core id := by
  unfold Party.thrown
  split
  · exact h.served (Protocol.answer_books (.error ..)) (answer_serves (.error ..))
  · exact h
  · exact h

theorem Account.FitsLive.perform (h : account.FitsLive party.core id)
    (hfresh : party.core.nextId ≤ id → account = {}) (chunk : Bool) {act : Act}
    (hact : ∀ now, act ≠ .receive now) :
    (account.act party chunk id act).FitsLive (party.perform act).1.core id := by
  have hsame : ∀ {core : EndpointCore}, account.FitsLive core id → (∀ i n, act ≠ .grant i n) →
      act ≠ .returned → (account.act party chunk id act).FitsLive core id := by
    intro core hcore hgrant hreturned
    unfold Account.act
    split
    · exact hcore
    · cases act with
      | receive now => exact absurd rfl (hact now)
      | grant i n => exact absurd rfl (hgrant i n)
      | returned => exact absurd rfl hreturned
      | _ => exact hcore
  cases act with
  | receive now => exact absurd rfl (hact now)
  | grant i n => exact h.grant chunk i n
  | returned => exact h.returned chunk
  | request method params handlers idleLimit now =>
      refine hsame (fun o ho hlive => ?_) (by simp) (by simp)
      by_cases hid : id = party.core.nextId
      · subst hid
        rw [hfresh (Nat.le_refl _)]
        simp only [Party.perform, Party.request, EndpointCore.request, EndpointCore.send,
          EndpointCore.setOutgoing, Function.update_self, Option.some.injEq] at ho
        rw [← ho]
        exact ⟨rfl, Nat.le_refl _, fun _ _ => rfl, fun _ _ => by simp only; omega⟩
      · refine h o ?_ hlive
        simpa [Party.perform, Party.request, EndpointCore.request, EndpointCore.send,
          EndpointCore.setOutgoing, hid] using ho
  | cancel i => exact hsame (h.cancel i) (by simp) (by simp)
  | expireIdle now order =>
      refine hsame (fun o ho hlive => ?_) (by simp) (by simp)
      simp only [Party.perform, Party.expireIdle, failExpired_core] at ho ⊢
      rw [(expireIdle_books now order).window]
      exact h o (expireIdle_outgoing ho hlive) hlive
  | chunk i data =>
      refine hsame ?_ (by simp) (by simp)
      simp only [Party.perform, Party.chunk]
      split
      · exact h.served (chunk_books data) (chunk_serves data)
      · exact h
  | result i result => exact hsame (h.answer (.result result)) (by simp) (by simp)
  | error i code message data =>
      exact hsame (h.answer (.error code message data)) (by simp) (by simp)
  | drop i => exact hsame (h.answer (.error ..)) (by simp) (by simp)
  | onDrained i =>
      refine hsame ?_ (by simp) (by simp)
      simp only [Party.perform, Party.onDrained]
      split <;> exact h
  | handle method => exact hsame h (by simp) (by simp)
  | setPeerWindow window => exact hsame h (by simp) (by simp)
  | thrown what => exact hsame (h.thrown what) (by simp) (by simp)

end Ned.Editor.Protocol
