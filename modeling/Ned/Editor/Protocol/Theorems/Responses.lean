import Ned.Editor.Protocol.Lemmas.Responses
import Ned.Editor.Protocol.Theorems.Credit

/-!
# Every request gets one response

Whatever an endpoint receives and whatever its owner does, a request is answered once. It is answered
when its responder has gone and its stream has had the credit it needs, and the first answer given is
the one sent, unless a cancel comes while it is held.
-/

namespace Ned.Editor.Protocol

open Library EndpointCore

variable {core core' : EndpointCore} {party party' : Party} {ledger : Ledger} {id i : Nat}

/-! ## What a message means -/

theorem requiredUnsigned_eq_ok {object : Json} {field : String} {n : Nat} :
    requiredUnsigned object field = .ok n ↔ (object.find field).bind asUnsigned = some n := by
  unfold requiredUnsigned
  cases object.find field with
  | none => simp
  | some value => cases hvalue : asUnsigned value <;> simp [hvalue]

/-- What receiving a message does to the requests an endpoint serves. -/
inductive Arrives (core : EndpointCore) : Arrival → EndpointCore → Option Call → Prop
  | request {i : Nat} {method : String} {params : Json} {after : EndpointCore}
      {call : Option Call}
      (h : core.receiveRequest i method params = .ok (after, call)) :
      Arrives core (.request i method) after call
  | credit {i n : Nat} {entry : Incoming} {call : Option Call}
      (hentry : core.incoming i = some entry)
      (hcall : ∀ i method params, call ≠ some (.requestHandler i method params)) :
      Arrives core (.credit i n) ((core.setIncoming i (some { entry with
        credit := if n > sizeMax - entry.credit then sizeMax else entry.credit + n })).flush i).1 call
  | lateCredit {i n : Nat} (hnone : core.incoming i = none) : Arrives core (.credit i n) core none
  | cancel {i : Nat} {entry : Incoming} (hentry : core.incoming i = some entry) :
      Arrives core (.cancel i) ((core.setIncoming i none).send
        (errorResponse i error_code.kCancelled "cancelled" .null)) none
  | lateCancel {i : Nat} (hnone : core.incoming i = none) : Arrives core (.cancel i) core none
  | other {after : EndpointCore} {call : Option Call} (hquiet : ∀ id, Quiet id core after)
      (hincoming : after.incoming = core.incoming)
      (hcall : ∀ i method params, call ≠ some (.requestHandler i method params)) :
      Arrives core .other after call

theorem receiveChunk_arrives {now : Int} {params : Json} {call : Option Call}
    (h : core.receiveChunk now params = .ok (core', call)) : Arrives core .other core' call := by
  unfold receiveChunk at h
  simp only [bind, Except.bind, throw, throwThe, MonadExceptOf.throw, pure, Except.pure] at h
  split at h
  · cases h
  · split at h
    · cases h
    · split at h
      · cases h
      · split at h
        · cases h
        · split at h
          · cases h
          · split at h
            · cases h
              exact .other (fun _ => .setOutgoing _) rfl fun _ _ _ => nofun
            · cases h
              refine .other (fun _ => (Quiet.setOutgoing _).trans chunkHandled_quiet) ?_ fun _ _ _ => nofun
              exact chunkHandled_asks.incoming

theorem receiveResponse_arrives {message : Json} {call : Option Call}
    (h : core.receiveResponse i message = .ok (core', call)) : Arrives core .other core' call := by
  unfold receiveResponse at h
  split at h
  · cases h
  · simp only at h
    split at h
    · cases h
      refine .other (fun _ => .setOutgoing _) rfl fun _ _ _ => ?_
      split <;> nofun
    · split at h
      · cases h
      · split at h
        · cases h
          refine .other (fun _ => .setOutgoing _) rfl fun _ _ _ => ?_
          split <;> nofun
        · cases h

theorem receiveNotification_arrives {now : Int} {method : String} {params : Json}
    {call : Option Call} (h : core.receiveNotification now method params = .ok (core', call)) :
    Arrives core
      (match (params.find "id").bind asUnsigned with
        | none => .other
        | some i =>
            if method = kCredit then .credit i (((params.find "n").bind asUnsigned).getD 0)
            else if method = kCancel then .cancel i
            else .other) core' call := by
  unfold receiveNotification at h
  simp only [bind, Except.bind, pure, Except.pure] at h
  split at h
  · rename_i hchunk
    have hother : Arrives core .other core' call := receiveChunk_arrives h
    cases (params.find "id").bind asUnsigned with
    | none => exact hother
    | some i =>
        simp only [hchunk]
        rw [if_neg (by decide), if_neg (by decide)]
        exact hother
  · split at h
    · rename_i hcredit
      split at h
      · cases h
      · rename_i i hi
        split at h
        · cases h
        · rename_i n hn
          rw [requiredUnsigned_eq_ok.1 hi, requiredUnsigned_eq_ok.1 hn]
          simp only [hcredit, if_true, Option.getD_some]
          split at h
          · rename_i hnone
            cases h
            exact .lateCredit hnone
          · rename_i entry hentry
            obtain rfl := congrArg Prod.fst (Except.ok.inj h)
            obtain rfl := congrArg Prod.snd (Except.ok.inj h)
            refine .credit hentry fun i method params => ?_
            rcases flush_call with hcall | hcall <;> rw [hcall] <;> nofun
    · rename_i hcredit
      split at h
      · rename_i hcancel
        split at h
        · cases h
        · rename_i i hi
          rw [requiredUnsigned_eq_ok.1 hi]
          simp only [if_neg hcredit, if_pos hcancel]
          split at h
          · rename_i hnone
            cases h
            exact .lateCancel hnone
          · rename_i entry hentry
            cases h
            exact .cancel hentry
      · rename_i hcancel
        have hother : Arrives core .other core' call := by
          cases h
          refine .other (fun _ => .refl) rfl fun _ _ _ => ?_
          split <;> nofun
        cases (params.find "id").bind asUnsigned with
        | none => exact hother
        | some i =>
            simp only [if_neg hcredit, if_neg hcancel]
            exact hother

theorem receive_arrives {now : Int} {message : Json} {call : Option Call}
    (h : core.receive now message = .ok (core', call)) : Arrives core message.arrival core' call := by
  unfold EndpointCore.receive at h
  simp only [bind, Except.bind, throw, throwThe, MonadExceptOf.throw] at h
  unfold Json.arrival
  split at h
  · cases h
  · split at h
    · rename_i method hmethod
      split at h
      · cases h
      · rename_i name hname
        rw [hmethod, Option.bind_some, hname]
        simp only
        split at h
        · rename_i hrequest
          rw [if_pos hrequest]
          split at h
          · cases h
          · rename_i i hi
            rw [requiredUnsigned_eq_ok.1 hi]
            exact .request h
        · rename_i hnotification
          rw [if_neg hnotification]
          exact receiveNotification_arrives h
    · rename_i hnone
      rw [hnone]
      simp only [Option.bind_none]
      split at h
      · split at h
        · cases h
        · exact receiveResponse_arrives h
      · cases h

theorem answer_unserved {response : Json} (hincoming : core.incoming id = none) :
    core.answer id response = core := by
  simp only [EndpointCore.answer, hincoming]

/-! ## The invariant -/

/-- The ledger is true of an endpoint. -/
structure Owed (id : Nat) (s : Party × Ledger) : Prop where
  stage : Owes s.2 (s.1.responders id) (s.1.core.incoming id) (sentResponses id s.1.core.sink)
  fresh : s.1.core.lastPeerId < id → s.2 = {}
  held : Held s.1.core

namespace Owed

theorem create (window id : Nat) : Owed id ({ core := EndpointCore.create window }, {}) where
  stage := .unasked rfl rfl rfl rfl
  fresh _ := rfl
  held _ _ _ h := by cases h

theorem quiet (h : Owed id (party, ledger)) (hquiet : Quiet id party.core party'.core)
    (hresponder : party'.responders id = party.responders id) (hheld : Held party'.core) :
    Owed id (party', ledger) where
  stage := by
    simp only [hquiet.incoming, hquiet.responses, hresponder]
    exact h.stage
  fresh hid := h.fresh (Nat.lt_of_le_of_lt hquiet.lastPeerId hid)
  held := hheld

theorem unserved (h : Owed id (party, ledger)) (hid : party.core.lastPeerId < id) :
    party.core.incoming id = none := by
  have hledger := h.fresh hid
  simp only at hledger
  cases h.stage with
  | unasked _ _ hincoming => exact hincoming
  | pending hpending =>
      have hasked := hpending.asked
      simp [hledger] at hasked
  | finished _ _ hincoming => exact hincoming

theorem silent (h : Owed id (party, ledger)) (hid : party.core.lastPeerId < id) :
    sentResponses id party.core.sink = [] := by
  have hledger := h.fresh hid
  simp only at hledger
  cases h.stage with
  | unasked _ _ _ hsent => exact hsent
  | pending _ _ _ hsent => exact hsent
  | finished hasked => simp [hledger] at hasked

/-! ### Answers -/

/-- A request is answered, by its responder or for it. -/
theorem answer (h : Owed id (party, ledger)) {response : Json} (hresponse : IsResponse id response)
    (hresponder : party'.responders id = party.responders id ∨
      party.responders id = some false ∧ party'.responders id = some true)
    (hcore : party'.core = party.core.answer id response) :
    Owed id (party', ledger.answer party id response) where
  stage := by
    simp only [hcore]
    cases h.stage with
    | unasked hledger hnone hincoming hsent =>
        simp only at hincoming hnone
        simp only [answer_unserved hincoming, Ledger.answer_unserved hincoming]
        rcases hresponder with hsame | ⟨hfalse, -⟩
        · exact .unasked hledger (hsame.trans hnone) hincoming hsent
        · cases hnone.symm.trans hfalse
    | @pending entry answered hpending hsome hincoming hsent =>
        obtain ⟨answered', hsome'⟩ : ∃ answered', party'.responders id = some answered' := by
          rcases hresponder with hsame | ⟨-, htrue⟩
          · exact ⟨answered, hsame.trans hsome⟩
          · exact ⟨true, htrue⟩
        rw [hsome']
        exact hpending.answer hincoming hsent hresponse answered'
    | finished hasked hdue hincoming hsent =>
        simp only at hincoming
        simp only [answer_unserved hincoming, Ledger.answer_unserved hincoming]
        exact .finished hasked hdue hincoming hsent
  fresh hid := by
    simp only [hcore, (answer_serves hresponse).lastPeerId] at hid
    simp only [Ledger.answer_unserved (h.unserved hid)]
    exact h.fresh hid
  held := by
    simp only [hcore]
    exact h.held.answer hresponse

theorem respond (h : Owed id (party, ledger)) {response : Json} (hresponse : IsResponse i response) :
    Owed id (party.answer i response, ledger.respond party id i response) := by
  unfold Party.answer Ledger.respond
  by_cases hresponder : party.responders i = some false
  · simp only [hresponder]
    by_cases hi : i = id
    · subst hi
      rw [if_pos ⟨rfl, hresponder⟩]
      exact h.answer hresponse (Or.inr ⟨hresponder, Function.update_self ..⟩) rfl
    · rw [if_neg (not_and_of_not_left _ hi)]
      exact h.quiet (answer_quiet hresponse hi) (Function.update_of_ne (Ne.symm hi) _ _)
        (h.held.answer hresponse)
  · rw [if_neg (by rintro ⟨rfl, hfalse⟩; exact hresponder hfalse)]
    split
    · rename_i hfalse
      exact absurd hfalse hresponder
    · exact h

theorem thrown (h : Owed id (party, ledger)) (what : Option String) :
    Owed id (party.thrown what, ledger.act party id (.thrown what)) := by
  unfold Party.thrown Ledger.act
  cases hframes : party.frames with
  | nil => exact h
  | cons frame frames =>
      cases frame with
      | requestHandler i =>
          cases what with
          | none => exact h.quiet .refl rfl h.held
          | some what =>
              simp only
              by_cases hi : i = id
              · subst hi
                rw [if_pos rfl]
                exact h.answer (.error ..) (Or.inl rfl) rfl
              · rw [if_neg hi]
                exact h.quiet (answer_quiet (.error ..) hi) rfl (h.held.answer (.error ..))
      | onChunk i => exact h.quiet .refl rfl h.held
      | expired rest => exact h.quiet .refl rfl h.held

/-! ### Streams -/

theorem chunk (h : Owed id (party, ledger)) (i : Nat) (data : Json) :
    Owed id ((party.chunk i data).1, ledger.act party id (.chunk i data)) := by
  unfold Party.chunk
  simp only [Ledger.act]
  by_cases hresponder : party.responders i = some false
  · simp only [hresponder]
    by_cases hi : i = id
    · subst hi
      cases hincoming : party.core.incoming i with
      | none =>
          rw [if_neg (by simp)]
          refine h.quiet ?_ rfl (h.held.chunk data)
          simp only [EndpointCore.chunk, hincoming]
          exact .refl
      | some entry =>
          rw [if_pos (by simp [hresponder])]
          refine ⟨?_, fun hid => ?_, h.held.chunk data⟩
          · cases h.stage with
            | unasked _ _ hnone => cases hnone.symm.trans hincoming
            | pending hpending hsome hentry hsent =>
                obtain ⟨entry', hentry', hsent', hpending'⟩ := hpending.chunk hentry data
                exact .pending hpending' hsome hentry' (hsent'.trans hsent)
            | finished _ _ hnone => cases hnone.symm.trans hincoming
          · simp only [(chunk_serves data).lastPeerId] at hid
            cases hincoming.symm.trans (h.unserved hid)
    · rw [if_neg (not_and_of_not_left _ hi)]
      exact h.quiet (chunk_quiet data hi) rfl (h.held.chunk data)
  · rw [if_neg (by rintro ⟨rfl, hfalse, -⟩; exact hresponder hfalse)]
    split
    · rename_i hfalse
      exact absurd hfalse hresponder
    · exact h

theorem onDrained (h : Owed id (party, ledger)) (i : Nat) : Owed id (party.onDrained i, ledger) := by
  unfold Party.onDrained
  split
  · rename_i entry hresponder hentry
    have hheld : Held (party.core.setIncoming i (some { entry with onDrained := true })) :=
      h.held.setIncoming fun e response he hresponse => by
        obtain rfl := Option.some.inj he
        exact h.held i entry response hentry hresponse
    by_cases hi : i = id
    · subst hi
      refine ⟨?_, h.fresh, hheld⟩
      cases h.stage with
      | unasked _ _ hnone => cases hnone.symm.trans hentry
      | pending hpending hsome hincoming hsent =>
          rw [Option.some.inj (hincoming.symm.trans hentry)] at hpending
          exact .pending hpending.onDrained hsome (Function.update_self ..) hsent
      | finished _ _ hnone => cases hnone.symm.trans hentry
    · exact h.quiet (.setIncoming _ hi) rfl hheld
  · exact h

theorem returned (h : Owed id (party, ledger)) : Owed id (party.returned.1, ledger) := by
  have hexpired : ∀ {party : Party} (rest : List Expired), Owed id (party, ledger) →
      Owed id ((party.failExpired rest).1, ledger) := by
    intro party rest h
    obtain ⟨⟨frames, hparty⟩, -⟩ := Connection.failExpired_spec party rest
    rw [hparty]
    exact h.quiet .refl rfl h.held
  unfold Party.returned
  split
  · exact h
  · exact h.quiet .refl rfl h.held
  · exact h.quiet chunkHandled_quiet rfl (h.held.congr chunkHandled_asks.incoming)
  · exact hexpired _ (h.quiet .refl rfl h.held)

/-- Whatever the owner does, the ledger stays true. -/
theorem perform (h : Owed id (party, ledger)) (act : Act) :
    Owed id ((party.perform act).1, ledger.act party id act) := by
  cases act with
  | receive now => exact h
  | request method params handlers idleLimit now =>
      exact h.quiet (request_quiet ..) rfl (h.held.congr rfl)
  | cancel i => exact h.quiet cancel_quiet rfl (h.held.congr cancel_asks.incoming)
  | grant i n => exact h.quiet (grant_quiet n) rfl (h.held.congr (grant_asks n).incoming)
  | expireIdle now order =>
      obtain ⟨⟨frames, hparty⟩, -⟩ := Connection.failExpired_spec
        { party with core := (party.core.expireIdle now order).1 }
        (party.core.expireIdle now order).2
      simp only [Party.perform, Party.expireIdle, hparty]
      exact h.quiet (expireIdle_quiet now order) rfl
        (h.held.congr (expireIdle_asks now order).incoming)
  | chunk i data => exact h.chunk i data
  | result i result => exact h.respond (.result result)
  | error i code message data => exact h.respond (.error code message data)
  | drop i => exact h.respond (.error ..)
  | onDrained i => exact h.onDrained i
  | handle method => exact h.quiet ⟨rfl, Nat.le_refl _, rfl⟩ rfl (h.held.congr rfl)
  | setPeerWindow window => exact h.quiet ⟨rfl, Nat.le_refl _, rfl⟩ rfl (h.held.congr rfl)
  | returned => exact h.returned
  | thrown what => exact h.thrown what

/-! ### Messages -/

/-- Whatever arrives, the ledger stays true of the endpoint. The responder of a request is made when
its handler is called. -/
theorem arrives {arrival : Arrival} {call : Option Call} (h : Owed id (party, ledger))
    (harrives : Arrives party.core arrival core call) (hcore : party'.core = core)
    (hserved : ∀ method params, call = some (.requestHandler id method params) →
      party'.responders id = some false)
    (hsame : (∀ method params, call ≠ some (.requestHandler id method params)) →
      party'.responders id = party.responders id) :
    Owed id (party', ledger.arrive party id arrival) := by
  cases harrives with
  | @request i method params after call hreceive =>
      unfold receiveRequest at hreceive
      split at hreceive
      · cases hreceive
      · rename_i hnew
        have hnew : party.core.lastPeerId < i := Nat.lt_of_not_le hnew
        simp only at hreceive
        split at hreceive
        · rename_i hhandled
          cases hreceive
          have hheld : Held (EndpointCore.setIncoming { party.core with lastPeerId := i } i
              (some { credit := party.core.peerWindow })) :=
            Held.setIncoming (h.held.congr rfl) fun e response he hresponse => by
              obtain rfl := Option.some.inj he
              cases hresponse
          simp only [Ledger.arrive]
          by_cases hi : i = id
          · subst hi
            rw [if_pos rfl, if_pos hhandled]
            refine ⟨?_, fun hid => ?_, hcore ▸ hheld⟩
            · have hpending : Pending { ledger with asked := true, allowed := party.core.peerWindow }
                  false { credit := party.core.peerWindow } := by
                rw [show ledger = {} from h.fresh hnew]
                exact ⟨rfl, rfl, fun _ => rfl, (fun hreply => by cases hreply), rfl,
                  Nat.min_le_left _ _, Or.inl ⟨rfl, rfl⟩⟩
              refine .pending hpending (hserved method params rfl) ?_ ?_
              · rw [hcore]
                exact Function.update_self ..
              · rw [hcore]
                exact h.silent hnew
            · rw [hcore] at hid
              exact absurd hid (Nat.lt_irrefl i)
          · rw [if_neg hi]
            refine h.quiet ?_ (hsame fun _ _ hcall => ?_) (hcore ▸ hheld)
            · rw [hcore]
              exact ⟨Function.update_of_ne (Ne.symm hi) _ _, Nat.le_of_lt hnew, rfl⟩
            · simp only [Option.some.injEq, Call.requestHandler.injEq] at hcall
              exact hi hcall.1
        · rename_i hunknown
          cases hreceive
          simp only [Ledger.arrive]
          by_cases hi : i = id
          · subst hi
            rw [if_pos rfl, if_neg hunknown]
            refine ⟨?_, fun hid => ?_, hcore ▸ h.held.congr rfl⟩
            · refine .finished rfl (fun _ => rfl) ?_ ?_
              · rw [hcore]
                exact h.unserved hnew
              · rw [hcore, EndpointCore.send, sentResponses_append,
                  IsResponse.sentResponses i i (.error ..), if_pos rfl]
                exact congrArg (· ++ _) (h.silent hnew)
            · rw [hcore] at hid
              exact absurd hid (Nat.lt_irrefl i)
          · rw [if_neg hi]
            refine h.quiet ?_ (hsame fun _ _ hcall => by cases hcall) (hcore ▸ h.held.congr rfl)
            have hrefused : Quiet id party.core { party.core with lastPeerId := i } :=
              ⟨rfl, Nat.le_of_lt hnew, rfl⟩
            rw [hcore]
            exact hrefused.trans (.response (.error ..) hi)
  | @credit i n entry call hentry hcall =>
      have hheld : Held (party.core.setIncoming i (some { entry with
          credit := if n > sizeMax - entry.credit then sizeMax else entry.credit + n })) :=
        h.held.setIncoming fun e response he hresponse => by
          obtain rfl := Option.some.inj he
          exact h.held i entry response hentry hresponse
      have hresponder := hsame fun method params => hcall id method params
      by_cases hi : i = id
      · subst hi
        simp only [Ledger.arrive, hentry, Option.isSome_some, and_self, if_true]
        refine ⟨?_, fun hid => ?_, hcore ▸ hheld.flush⟩
        · simp only [hcore, hresponder]
          cases h.stage with
          | unasked _ _ hnone => cases hnone.symm.trans hentry
          | pending hpending hsome hincoming hsent =>
              rw [Option.some.inj (hincoming.symm.trans hentry)] at hpending
              simp only at hsome
              rw [hsome]
              exact hpending.credit n h.held hentry hsent
          | finished _ _ hnone => cases hnone.symm.trans hentry
        · have hserves := (Serves.setIncoming (some { entry with
            credit := if n > sizeMax - entry.credit then sizeMax else entry.credit + n })).trans
            (flush_serves (hheld i))
          simp only [hcore, hserves.lastPeerId] at hid
          cases hentry.symm.trans (h.unserved hid)
      · simp only [Ledger.arrive]
        rw [if_neg (not_and_of_not_left _ hi)]
        refine h.quiet ?_ hresponder ?_
        · rw [hcore]
          exact (Quiet.setIncoming _ hi).trans (flush_quiet hi (hheld i))
        · rw [hcore]
          exact hheld.flush
  | @lateCredit i n hnone =>
      have hlate : ledger.arrive party id (.credit i n) = ledger := by
        simp only [Ledger.arrive]
        exact if_neg (by rintro ⟨rfl, hsome⟩; simp [hnone] at hsome)
      rw [hlate]
      exact h.quiet (hcore ▸ .refl) (hsame fun _ _ hcall => by cases hcall) (hcore ▸ h.held)
  | @cancel i entry hentry =>
      have hheld : Held (party.core.setIncoming i none) := h.held.setIncoming fun _ _ hsome => by cases hsome
      have hresponder := hsame fun _ _ hcall => by cases hcall
      by_cases hi : i = id
      · subst hi
        simp only [Ledger.arrive, hentry, Option.isSome_some, and_self, if_true]
        refine ⟨?_, fun hid => ?_, hcore ▸ hheld.congr rfl⟩
        · simp only [hcore]
          cases h.stage with
          | unasked _ _ hnone => cases hnone.symm.trans hentry
          | pending hpending _ _ hsent =>
              refine .finished hpending.asked (fun _ => rfl) (Function.update_self ..) ?_
              rw [EndpointCore.send, sentResponses_append,
                IsResponse.sentResponses i i (.error ..), if_pos rfl]
              exact congrArg (· ++ _) hsent
          | finished _ _ hnone => cases hnone.symm.trans hentry
        · rw [hcore] at hid
          cases hentry.symm.trans (h.unserved hid)
      · simp only [Ledger.arrive]
        rw [if_neg (not_and_of_not_left _ hi)]
        refine h.quiet ?_ hresponder (hcore ▸ hheld.congr rfl)
        rw [hcore]
        exact (Quiet.setIncoming none hi).trans (.response (.error ..) hi)
  | @lateCancel i hnone =>
      have hlate : ledger.arrive party id (.cancel i) = ledger := by
        simp only [Ledger.arrive]
        exact if_neg (by rintro ⟨rfl, hsome⟩; simp [hnone] at hsome)
      rw [hlate]
      exact h.quiet (hcore ▸ .refl) (hsame fun _ _ hcall => by cases hcall) (hcore ▸ h.held)
  | other hquiet hincoming hcall =>
      exact h.quiet (hcore ▸ hquiet id) (hsame fun method params => hcall id method params)
        (hcore ▸ h.held.congr hincoming)

theorem receive {now : Int} {message : Json} {events : List Event} (h : Owed id (party, ledger))
    (hreceive : party.receive now message = .ok (party', events)) :
    Owed id (party', ledger.arrive party id message.arrival) := by
  rw [Party.receive] at hreceive
  cases hcore : party.core.receive now message with
  | error e =>
      rw [hcore] at hreceive
      cases hreceive
  | ok received =>
      obtain ⟨core, call⟩ := received
      rw [hcore] at hreceive
      have harrives := receive_arrives hcore
      cases call with
      | none =>
          cases hreceive
          exact h.arrives harrives rfl (fun _ _ hcall => by cases hcall) fun _ => rfl
      | some call =>
          cases hreceive
          cases call with
          | requestHandler i method params =>
              refine h.arrives harrives rfl (fun _ _ hcall => ?_) fun hcall => ?_
              · simp only [Option.some.injEq, Call.requestHandler.injEq] at hcall
                exact hcall.1 ▸ Function.update_self ..
              · refine Function.update_of_ne (fun hi => ?_) _ _
                subst hi
                exact hcall method params rfl
          | _ => exact h.arrives harrives rfl (fun _ _ hcall => by cases hcall) fun _ => rfl

theorem step {s' : Party × Ledger} {input : Input} (h : Owed id (party, ledger))
    (hstep : Ledger.step id (party, ledger) input = some s') : Owed id s' := by
  obtain ⟨next, hnext, rfl⟩ := Option.map_eq_some_iff.1 hstep
  cases input with
  | message now message =>
      obtain ⟨⟨party', events⟩, hreceive, rfl⟩ := Option.map_eq_some_iff.1 hnext
      cases hresult : party.receive now message with
      | error e =>
          rw [hresult] at hreceive
          cases hreceive
      | ok received =>
          rw [hresult] at hreceive
          cases hreceive
          exact h.receive hresult
  | act act =>
      cases hnext
      exact h.perform act

end Owed

/-- Every request gets one response. It has been sent once the responder has gone and the stream was
given enough credit for its chunks (counted up to the greatest credit there is); and it is the answer
that is due, where the handler did not throw while one was held. -/
theorem one_response (window id : Nat) {inputs : List Input}
    (hrun : run (Ledger.step id) ({ core := EndpointCore.create window }, {}) inputs =
      some (party, ledger)) :
    (sentResponses id party.core.sink).length ≤ 1 ∧
      (ledger.asked = true → party.responders id ≠ some false →
        ledger.passed ≤ min ledger.allowed sizeMax →
          ∃ response, sentResponses id party.core.sink = [response]) ∧
      ∀ response ∈ sentResponses id party.core.sink, ledger.overridden = false →
        ledger.due = some response := by
  have howed : Owed id (party, ledger) :=
    run_invariant (Owed id) (fun (_, _) _ _ h hstep => h.step hstep) (.create window id) hrun
  cases howed.stage with
  | unasked hledger _ _ hsent =>
      simp only at hledger hsent
      refine ⟨by simp [hsent], fun hasked => ?_, by simp [hsent]⟩
      simp [hledger] at hasked
  | @pending entry answered hpending hresponder _ hsent =>
      simp only at hresponder hsent
      refine ⟨by simp [hsent], fun _ hgone hcredit => ?_, by simp [hsent]⟩
      have hanswered : answered = true := by
        cases answered with
        | false => exact absurd hresponder hgone
        | true => rfl
      have hdue := hpending.answered hanswered
      rw [hpending.due_eq_none (hpending.queued_eq_nil hcredit)] at hdue
      cases hdue
  | @finished response _ hdue _ hsent =>
      simp only at hdue hsent
      refine ⟨by simp [hsent], fun _ _ _ => ⟨response, hsent⟩, fun r hr hfirst => ?_⟩
      rw [hsent, List.mem_singleton] at hr
      rw [hr]
      exact hdue hfirst

/-- The window is one, so the result waits behind the second chunk. -/
def heldInputs : List Input :=
  [.act (.handle "read"), .act (.setPeerWindow 1), .message 0 (requestMessage 1 "read" .null),
    .act (.chunk 1 (.string "a")), .act (.chunk 1 (.string "b")), .act (.result 1 .null),
    .act .returned]

theorem one_response_sample :
    ∃ party ledger, run (Ledger.step 1) ({ core := EndpointCore.create 16 }, {})
        (heldInputs ++ [.message 0 (creditMessage 1 1)]) = some (party, ledger) ∧
      ledger.passed = 2 ∧ ledger.allowed = 2 ∧
      ∃ response, sentResponses 1 party.core.sink = [response] := by
  refine ⟨_, _, rfl, rfl, rfl, ?_⟩
  exact (@one_response _ _ 16 1 (heldInputs ++ [.message 0 (creditMessage 1 1)]) rfl).2.1 rfl nofun
    (by decide)

/-- The result was given before the cancel came, and `Cancelled` is sent. -/
theorem cancel_overtakes_result :
    ∃ party ledger party' ledger', run (Ledger.step 1) ({ core := EndpointCore.create 16 }, {})
        heldInputs = some (party, ledger) ∧
      ledger.due = some (resultResponse 1 .null) ∧ ledger.overridden = false ∧
      sentResponses 1 party.core.sink = [] ∧
      Ledger.step 1 (party, ledger) (.message 0 (cancelMessage 1)) = some (party', ledger') ∧
      sentResponses 1 party'.core.sink =
        [errorResponse 1 error_code.kCancelled "cancelled" .null] :=
  ⟨_, _, _, _, rfl, rfl, rfl, rfl, rfl, rfl⟩

end Ned.Editor.Protocol
