import Ned.Editor.Protocol.Connection
import Ned.Editor.Protocol.Lemmas.Credit

/-!
# What a request is owed

A request is pending until its response has been sent. While it is pending the ledger knows what is
held back; the steps below keep that, or send the response.
-/

namespace Ned.Editor.Protocol

open EndpointCore

variable {core core' core'' : EndpointCore} {id i : Nat}

/-! ## Reading the channel -/

@[simp] theorem sentResponses_append (id : Nat) (sink sink' : List Json) :
    sentResponses id (sink ++ sink') = sentResponses id sink ++ sentResponses id sink' :=
  List.filter_append ..

section Reading

variable (id i seq n : Nat) (method : String) (params data : Json)

@[simp] theorem sentResponses_requestMessage :
    sentResponses id [requestMessage i method params] = [] := by
  simp [sentResponses, Json.respondsTo, requestMessage, Json.find, List.lookup_cons]

@[simp] theorem sentResponses_chunkMessage : sentResponses id [chunkMessage i seq data] = [] := by
  simp [sentResponses, Json.respondsTo, chunkMessage, Json.find, List.lookup_cons]

@[simp] theorem sentResponses_creditMessage : sentResponses id [creditMessage i n] = [] := by
  simp [sentResponses, Json.respondsTo, creditMessage, Json.find, List.lookup_cons]

@[simp] theorem sentResponses_cancelMessage : sentResponses id [cancelMessage i] = [] := by
  simp [sentResponses, Json.respondsTo, cancelMessage, Json.find, List.lookup_cons]

theorem IsResponse.sentResponses {response : Json} (h : IsResponse i response) :
    sentResponses id [response] = if i = id then [response] else [] := by
  cases h <;> by_cases hi : i = id <;>
    simp [Protocol.sentResponses, Json.respondsTo, resultResponse, errorResponse, Json.find,
      asUnsigned, List.lookup_cons, hi]

end Reading

/-! ## What leaves a request alone -/

/-- Nothing that concerns the answering of this request has changed. -/
structure Quiet (id : Nat) (core core' : EndpointCore) : Prop where
  incoming : core'.incoming id = core.incoming id
  lastPeerId : core.lastPeerId ≤ core'.lastPeerId
  responses : sentResponses id core'.sink = sentResponses id core.sink

namespace Quiet

theorem refl : Quiet id core core := ⟨rfl, Nat.le_refl _, rfl⟩

theorem trans (h : Quiet id core core') (h' : Quiet id core' core'') : Quiet id core core'' :=
  ⟨h'.incoming.trans h.incoming, Nat.le_trans h.lastPeerId h'.lastPeerId,
    h'.responses.trans h.responses⟩

theorem send {message : Json} (h : sentResponses id [message] = []) :
    Quiet id core (core.send message) :=
  ⟨rfl, Nat.le_refl _, by simp [EndpointCore.send, h]⟩

theorem setIncoming (entry : Option Incoming) (hi : i ≠ id) :
    Quiet id core (core.setIncoming i entry) :=
  ⟨Function.update_of_ne hi.symm _ _, Nat.le_refl _, rfl⟩

theorem setOutgoing (entry : Option Outgoing) : Quiet id core (core.setOutgoing i entry) :=
  ⟨rfl, Nat.le_refl _, rfl⟩

theorem response {response : Json} (h : IsResponse i response) (hi : i ≠ id) :
    Quiet id core (core.send response) :=
  .send (by rw [h.sentResponses, if_neg hi])

end Quiet

theorem chunk_quiet (data : Json) (hi : i ≠ id) : Quiet id core (core.chunk i data) := by
  unfold EndpointCore.chunk
  split
  · exact .refl
  · split
    · exact (Quiet.send (sentResponses_chunkMessage ..)).trans (.setIncoming _ hi)
    · exact .setIncoming _ hi

theorem answer_quiet {response : Json} (h : IsResponse i response) (hi : i ≠ id) :
    Quiet id core (core.answer i response) := by
  unfold EndpointCore.answer
  split
  · exact .refl
  · split
    · exact (Quiet.setIncoming _ hi).trans (.response h hi)
    · exact .setIncoming _ hi

theorem drain_quiet (entry : Incoming) (queued : List Json) :
    (core.drain i entry queued).1.lastPeerId = core.lastPeerId ∧
      (∀ id, (core.drain i entry queued).1.incoming id = core.incoming id) ∧
      ∀ id, sentResponses id (core.drain i entry queued).1.sink = sentResponses id core.sink := by
  induction queued generalizing core entry with
  | nil => exact ⟨rfl, fun _ => rfl, fun _ => rfl⟩
  | cons data queued ih =>
      unfold drain
      split
      · obtain ⟨hlast, hincoming, hresponses⟩ := @ih (core.sendChunk i entry data).1
          (core.sendChunk i entry data).2
        refine ⟨hlast, hincoming, fun id => (hresponses id).trans ?_⟩
        simp [sendChunk, EndpointCore.send]
      · exact ⟨rfl, fun _ => rfl, fun _ => rfl⟩

theorem flush_quiet (hi : i ≠ id)
    (hheld : ∀ entry response, core.incoming i = some entry → entry.response = some response →
      IsResponse i response) : Quiet id core (core.flush i).1 := by
  unfold flush
  split
  · exact .refl
  · rename_i entry hentry
    obtain ⟨hlast, hincoming, hresponses⟩ := @drain_quiet core i entry entry.queued
    have hdrain : Quiet id core (core.drain i entry entry.queued).1 :=
      ⟨hincoming id, Nat.le_of_eq hlast.symm, hresponses id⟩
    simp only
    split
    · exact hdrain.trans (.setIncoming _ hi)
    · split
      · rename_i response hresponse
        have hheld := hheld entry response hentry ((drain_response _).symm.trans hresponse)
        exact hdrain.trans ((Quiet.setIncoming _ hi).trans (.response hheld hi))
      · exact hdrain.trans (.setIncoming _ hi)

/-! ### The half that asks -/

theorem grantConsumed_quiet (entry : Outgoing) (more : Nat) :
    Quiet id core (core.grantConsumed i entry more) := by
  unfold grantConsumed
  simp only
  generalize (if entry.handlers.grantsByHand = true then
    min ((entry.granted + more) % (sizeMax + 1)) entry.consumed else entry.consumed) = ready
  split
  · exact (Quiet.setOutgoing _).trans (.send (sentResponses_creditMessage ..))
  · exact .setOutgoing _

theorem chunkHandled_quiet : Quiet id core (core.chunkHandled i) := by
  unfold chunkHandled
  split
  · exact .refl
  · split
    · exact .refl
    · exact grantConsumed_quiet _ _

theorem grant_quiet (n : Nat) : Quiet id core (core.grant i n) := by
  unfold grant
  split
  · exact .refl
  · split
    · exact .refl
    · exact grantConsumed_quiet _ _

theorem cancel_quiet : Quiet id core (core.cancel i) := by
  unfold EndpointCore.cancel
  split
  · exact .refl
  · split
    · exact .refl
    · exact (Quiet.setOutgoing _).trans (.send (sentResponses_cancelMessage ..))

theorem collectExpired_quiet (now : Int) (ids : List Nat) :
    Quiet id core (core.collectExpired now ids).1 := by
  induction ids generalizing core with
  | nil => exact .refl
  | cons i ids ih =>
      unfold collectExpired
      split
      · exact ih
      · split
        · exact ih
        · split
          · exact (Quiet.setOutgoing _).trans ih
          · exact ih

theorem expireIdle_quiet (now : Int) (ids : List Nat) :
    Quiet id core (core.expireIdle now ids).1 := by
  have hsend : ∀ (expired : List Expired) (core : EndpointCore),
      Quiet id core
        (expired.foldl (fun core request => core.send (cancelMessage request.id)) core) := by
    intro expired
    induction expired with
    | nil => exact fun _ => .refl
    | cons request expired ih =>
        exact fun core => (Quiet.send (sentResponses_cancelMessage ..)).trans (ih _)
  exact (collectExpired_quiet now ids).trans (hsend _ _)

theorem request_quiet (method : String) (params : Json) (handlers : ResponseHandlers)
    (idleLimit : Option Int) (now : Int) :
    Quiet id core (core.request method params handlers idleLimit now) :=
  ⟨rfl, Nat.le_refl _, by simp [EndpointCore.request, EndpointCore.send, EndpointCore.setOutgoing]⟩

/-! ## Held responses -/

def Held (core : EndpointCore) : Prop :=
  ∀ i entry response, core.incoming i = some entry → entry.response = some response →
    IsResponse i response

namespace Held

theorem congr (h : Held core) (hincoming : core'.incoming = core.incoming) : Held core' :=
  fun i entry response hentry => h i entry response (hincoming ▸ hentry)

theorem serves (h : Held core) (hserves : Serves id core core')
    (hself : ∀ entry response, core'.incoming id = some entry → entry.response = some response →
      IsResponse id response) : Held core' := by
  intro i entry response hentry hresponse
  by_cases hi : i = id
  · subst hi
    exact hself entry response hentry hresponse
  · exact h i entry response (hserves.incoming i hi ▸ hentry) hresponse

theorem setIncoming {entry : Option Incoming} (h : Held core)
    (hentry : ∀ e response, entry = some e → e.response = some response → IsResponse id response) :
    Held (core.setIncoming id entry) :=
  h.serves (.setIncoming _) fun e response he => by
    simp only [EndpointCore.setIncoming, Function.update_self] at he
    exact hentry e response he

theorem chunk (h : Held core) (data : Json) : Held (core.chunk id data) := by
  refine h.serves (chunk_serves data) fun entry response hentry hresponse => ?_
  obtain ⟨old, hold, hsame⟩ := chunk_response hentry
  exact h id old response hold (hsame.trans hresponse)

theorem answer (h : Held core) {response : Json} (hresponse : IsResponse id response) :
    Held (core.answer id response) := by
  refine h.serves (answer_serves hresponse) fun entry held hentry hheld => ?_
  obtain rfl := Option.some.inj ((answer_response hentry).symm.trans hheld)
  exact hresponse

theorem flush (h : Held core) : Held (core.flush id).1 := by
  refine h.serves (flush_serves (h id)) fun entry response hentry hresponse => ?_
  obtain ⟨old, hold, hsame⟩ := flush_response hentry
  exact h id old response hold (hsame.trans hresponse)

end Held

/-! ## Stages of a request -/

/-- What is known of a request while its response has not been sent. -/
structure Pending (ledger : Ledger) (answered : Bool) (entry : Incoming) : Prop where
  asked : ledger.asked = true
  held : entry.response.isSome = ledger.due.isSome
  first : ledger.overridden = false → entry.response = ledger.due
  answered : answered = true → ledger.due.isSome = true
  passed : ledger.passed = entry.nextSeq + entry.queued.length
  allowed : min ledger.allowed sizeMax ≤ entry.credit + entry.nextSeq
  flushed : entry.Flushed

/-- How far the answering of a request has got. -/
inductive Owes (ledger : Ledger) (responder : Option Bool) (incoming : Option Incoming)
    (sent : List Json) : Prop
  | unasked (hledger : ledger = {}) (hresponder : responder = none) (hincoming : incoming = none)
      (hsent : sent = [])
  | pending {entry : Incoming} {answered : Bool} (hpending : Pending ledger answered entry)
      (hresponder : responder = some answered) (hincoming : incoming = some entry)
      (hsent : sent = [])
  | finished {response : Json} (hasked : ledger.asked = true)
      (hdue : ledger.overridden = false → ledger.due = some response)
      (hincoming : incoming = none) (hsent : sent = [response])

section Answer

variable {ledger : Ledger} {party : Party} {entry : Incoming} {response due : Json}

theorem Ledger.answer_unserved (he : party.core.incoming id = none) :
    ledger.answer party id response = ledger := by
  simp only [Ledger.answer, he]

theorem Ledger.answer_first (he : party.core.incoming id = some entry) (hdue : ledger.due = none) :
    ledger.answer party id response = { ledger with due := some response } := by
  simp only [Ledger.answer, he, hdue]

theorem Ledger.answer_again (he : party.core.incoming id = some entry)
    (hdue : ledger.due = some due) :
    ledger.answer party id response = { ledger with overridden := true } := by
  simp only [Ledger.answer, he, hdue]

end Answer

namespace Pending

variable {ledger : Ledger} {answered : Bool} {entry : Incoming}

theorem due_eq_none (h : Pending ledger answered entry) (hempty : entry.queued = []) :
    ledger.due = none := by
  have hnone : entry.response = none := by
    rcases h.flushed with hflushed | hbacklog
    · exact hflushed.2
    · exact absurd hempty hbacklog.1
  have hheld := h.held
  rw [hnone] at hheld
  exact Option.isNone_iff_eq_none.1 (by simpa using hheld.symm)

theorem queued_eq_nil (h : Pending ledger answered entry)
    (hcredit : ledger.passed ≤ min ledger.allowed sizeMax) : entry.queued = [] := by
  rcases h.flushed with hflushed | hbacklog
  · exact hflushed.1
  · have hlength := List.length_pos_iff.2 hbacklog.1
    have hallowed := h.allowed
    have hpassed := h.passed
    have hspent := hbacklog.2
    omega

theorem onDrained (h : Pending ledger answered entry) :
    Pending ledger answered { entry with onDrained := true } :=
  ⟨h.asked, h.held, h.first, h.answered, h.passed, h.allowed, h.flushed⟩

theorem chunk (h : Pending ledger answered entry) (he : core.incoming id = some entry)
    (data : Json) :
    ∃ entry', (core.chunk id data).incoming id = some entry' ∧
      sentResponses id (core.chunk id data).sink = sentResponses id core.sink ∧
      Pending { ledger with passed := ledger.passed + 1 } answered entry' := by
  have hpassed := h.passed
  have hallowed := h.allowed
  simp only [EndpointCore.chunk, he]
  split
  · rename_i hcredit
    refine ⟨_, Function.update_self .., ?_, h.asked, h.held, h.first, h.answered, ?_, ?_, ?_⟩
    · simp [sendChunk, EndpointCore.send, EndpointCore.setIncoming]
    · simp only [sendChunk, hcredit.2, List.length_nil] at hpassed ⊢
      omega
    · simp only [sendChunk]
      omega
    · rcases h.flushed with hflushed | hbacklog
      · exact Or.inl hflushed
      · exact absurd hcredit.2 hbacklog.1
  · rename_i hblocked
    refine ⟨_, Function.update_self .., rfl, h.asked, h.held, h.first, h.answered, ?_, hallowed, ?_⟩
    · simp only [List.length_append, List.length_singleton]
      omega
    · refine Or.inr ⟨by simp, ?_⟩
      rcases h.flushed with hflushed | hbacklog
      · exact Nat.eq_zero_of_not_pos fun hcredit => hblocked ⟨hcredit, hflushed.1⟩
      · exact hbacklog.2

theorem answer {party : Party} (h : Pending ledger answered entry)
    (he : party.core.incoming id = some entry) (hsent : sentResponses id party.core.sink = [])
    {response : Json} (hresponse : IsResponse id response) (answered' : Bool) :
    Owes (ledger.answer party id response) (some answered')
      ((party.core.answer id response).incoming id)
      (sentResponses id (party.core.answer id response).sink) := by
  simp only [EndpointCore.answer, he]
  by_cases hempty : entry.queued = []
  · rw [if_pos hempty, Ledger.answer_first he (h.due_eq_none hempty)]
    refine .finished h.asked (fun _ => rfl) (Function.update_self ..) ?_
    rw [EndpointCore.send, sentResponses_append, hresponse.sentResponses, if_pos rfl]
    exact congrArg (· ++ _) hsent
  · have hflushed : Incoming.Flushed { entry with response := some response } := by
      rcases h.flushed with hflushed | hspent
      · exact absurd hflushed.1 hempty
      · exact Or.inr hspent
    rw [if_neg hempty]
    cases hdue : ledger.due with
    | none =>
        rw [Ledger.answer_first he hdue]
        have hpending : Pending { ledger with due := some response } answered'
            { entry with response := some response } :=
          ⟨h.asked, rfl, fun _ => rfl, fun _ => rfl, h.passed, h.allowed, hflushed⟩
        exact .pending hpending rfl (Function.update_self ..) hsent
    | some due =>
        rw [Ledger.answer_again he hdue]
        have hpending : Pending { ledger with overridden := true } answered'
            { entry with response := some response } :=
          ⟨h.asked, by simp [hdue], (fun hanswered => by cases hanswered), fun _ => by simp [hdue],
            h.passed, h.allowed, hflushed⟩
        exact .pending hpending rfl (Function.update_self ..) hsent

end Pending

theorem drain_counts (core : EndpointCore) (id : Nat) (entry : Incoming) (queued : List Json) :
    let drained := (core.drain id entry queued).2
    drained.nextSeq + drained.queued.length = entry.nextSeq + queued.length ∧
      drained.credit + drained.nextSeq = entry.credit + entry.nextSeq := by
  induction queued generalizing core entry with
  | nil => exact ⟨rfl, rfl⟩
  | cons data queued ih =>
      unfold drain
      split
      · rename_i hcredit
        obtain ⟨hlength, hcount⟩ := ih (core.sendChunk id entry data).1
          (core.sendChunk id entry data).2
        refine ⟨hlength.trans ?_, hcount.trans ?_⟩
        · simp only [sendChunk, List.length_cons]
          omega
        · simp only [sendChunk]
          omega
      · exact ⟨rfl, rfl⟩

theorem Pending.credit {ledger : Ledger} {answered : Bool} {entry : Incoming} (n : Nat)
    (h : Pending ledger answered entry) (hheld : Held core) (he : core.incoming id = some entry)
    (hsent : sentResponses id core.sink = []) :
    let core' := ((core.setIncoming id (some { entry with
      credit := if n > sizeMax - entry.credit then sizeMax else entry.credit + n })).flush id).1
    Owes { ledger with allowed := ledger.allowed + n } (some answered) (core'.incoming id)
      (sentResponses id core'.sink) := by
  generalize hcredit : (if n > sizeMax - entry.credit then sizeMax else entry.credit + n) = credit
  have hallowed : min (ledger.allowed + n) sizeMax ≤ credit + entry.nextSeq := by
    have hbefore := h.allowed
    rw [← hcredit]
    split <;> omega
  have hentry : (core.setIncoming id (some { entry with credit := credit })).incoming id =
      some { entry with credit := credit } := Function.update_self ..
  have hsent : sentResponses id (core.setIncoming id (some { entry with credit := credit })).sink =
      [] := hsent
  obtain ⟨-, -, hresponses⟩ := @drain_quiet
    (core.setIncoming id (some { entry with credit := credit })) id
    { entry with credit := credit } entry.queued
  obtain ⟨hlength, hcount⟩ := drain_counts
    (core.setIncoming id (some { entry with credit := credit })) id { entry with credit := credit }
    entry.queued
  obtain ⟨-, -, -, -, hdone⟩ := drain_spec
    (core.setIncoming id (some { entry with credit := credit })) id { entry with credit := credit }
    entry.queued
  have hresponse := @drain_response
    (core.setIncoming id (some { entry with credit := credit })) id { entry with credit := credit }
    entry.queued
  simp only [flush, hentry]
  generalize hdrained : (core.setIncoming id (some { entry with credit := credit })).drain id
    { entry with credit := credit } entry.queued = drained at *
  obtain ⟨core', entry'⟩ := drained
  simp only at *
  have hpending : entry'.Flushed → Pending { ledger with allowed := ledger.allowed + n } answered
      entry' := fun hflushed =>
    ⟨h.asked, hresponse ▸ h.held, hresponse ▸ h.first, h.answered, h.passed.trans hlength.symm,
      hcount ▸ hallowed, hflushed⟩
  split
  · rename_i hbacklog
    exact .pending (hpending (Or.inr ⟨hbacklog, hdone hbacklog⟩)) rfl (Function.update_self ..)
      ((hresponses id).trans hsent)
  · rename_i hempty
    split
    · rename_i response hheldBack
      have hdue : ledger.overridden = false → ledger.due = some response := by
        intro hfirst
        rw [← hheldBack, hresponse]
        exact (h.first hfirst).symm
      refine .finished h.asked hdue (Function.update_self ..) ?_
      have hisResponse := hheld id entry response he (hresponse.symm.trans hheldBack)
      rw [EndpointCore.send, sentResponses_append, hisResponse.sentResponses, if_pos rfl]
      exact congrArg (· ++ _) ((hresponses id).trans hsent)
    · rename_i hnone
      exact .pending (hpending (Or.inl ⟨not_not.1 hempty, hnone⟩)) rfl (Function.update_self ..)
        ((hresponses id).trans hsent)

end Ned.Editor.Protocol
