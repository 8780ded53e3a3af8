import Ned.Editor.Protocol.Conversation

/-!
# The messages of the protocol

What each message asks or replies, and what an endpoint does with it.
-/

namespace Ned.Editor.Protocol

inductive IsMessage : Json → Prop
  | request (id : Nat) (method : String) (params : Json) :
      IsMessage (requestMessage id method params)
  | chunk (id seq : Nat) (data : Json) : IsMessage (chunkMessage id seq data)
  | credit (id n : Nat) : IsMessage (creditMessage id n)
  | cancel (id : Nat) : IsMessage (cancelMessage id)
  | result (id : Nat) (result : Json) : IsMessage (resultResponse id result)
  | error (id : Nat) (code : Int) (message : String) (data : Json) :
      IsMessage (errorResponse id code message data)

inductive IsResponse (id : Nat) : Json → Prop
  | result (result : Json) : IsResponse id (resultResponse id result)
  | error (code : Int) (message : String) (data : Json) :
      IsResponse id (errorResponse id code message data)

theorem IsResponse.isMessage {id : Nat} {response : Json} (h : IsResponse id response) :
    IsMessage response := by
  cases h with
  | result result => exact .result id result
  | error code message data => exact .error id code message data

/-! ## Reading the channels -/

def Json.asks (message : Json) : Option Nat :=
  if message.contains "method" then (message.find "id").bind asUnsigned else none

def Json.replyTo (id : Nat) (message : Json) : Option Reply :=
  match message.find "method" with
  | none =>
      if (message.find "id").bind asUnsigned = some id then
        some (.response (message.contains "result"))
      else none
  | some method =>
      let params := (message.find "params").getD .null
      if method.asString = some kChunk ∧ message.contains "id" = false ∧
          (params.find "id").bind asUnsigned = some id then
        some (.chunk (((params.find "seq").bind asUnsigned).getD 0)
          ((params.find "data").getD .null))
      else none

def sentRequests (sink : List Json) : List Nat := sink.filterMap Json.asks

def sentReplies (id : Nat) (sink : List Json) : List Reply := sink.filterMap (Json.replyTo id)

@[simp] theorem sentRequests_append (sink sink' : List Json) :
    sentRequests (sink ++ sink') =
      sentRequests sink ++ sentRequests sink' := List.filterMap_append

@[simp] theorem sentReplies_append (id : Nat) (sink sink' : List Json) :
    sentReplies id (sink ++ sink') =
      sentReplies id sink ++ sentReplies id sink' := List.filterMap_append

section Reading

variable (id i seq n : Nat) (code : Int) (method message : String) (params result data : Json)

@[simp] theorem sentRequests_requestMessage :
    sentRequests [requestMessage i method params] = [i] := rfl

@[simp] theorem sentRequests_chunkMessage :
    sentRequests [chunkMessage i seq data] = [] := rfl

@[simp] theorem sentRequests_creditMessage :
    sentRequests [creditMessage i n] = [] := rfl

@[simp] theorem sentRequests_cancelMessage :
    sentRequests [cancelMessage i] = [] := rfl

theorem IsResponse.sentRequests {response : Json} (h : IsResponse id response) :
    sentRequests [response] = [] := by
  cases h <;> rfl

@[simp] theorem sentReplies_requestMessage :
    sentReplies id [requestMessage i method params] = [] := by
  simp [sentReplies, Json.replyTo, requestMessage, Json.find, Json.contains, List.lookup_cons]

@[simp] theorem sentReplies_creditMessage :
    sentReplies id [creditMessage i n] = [] := by
  simp [sentReplies, Json.replyTo, creditMessage, Json.find, Json.asString, List.lookup_cons, kCredit,
    kChunk]

@[simp] theorem sentReplies_cancelMessage :
    sentReplies id [cancelMessage i] = [] := by
  simp [sentReplies, Json.replyTo, cancelMessage, Json.find, Json.asString, List.lookup_cons, kCancel,
    kChunk]

theorem sentReplies_chunkMessage :
    sentReplies id [chunkMessage i seq data] = if i = id then [.chunk seq data] else [] := by
  simp only [sentReplies, Json.replyTo, chunkMessage, Json.find, Json.contains, Json.asString,
    List.filterMap_cons, List.filterMap_nil]
  by_cases hid : i = id <;> simp [hid, asUnsigned, List.lookup_cons]

theorem contains_result_errorResponse :
    (errorResponse i code message data).contains "result" = false := rfl

theorem IsResponse.sentReplies {response : Json} (h : IsResponse i response) :
    sentReplies id [response] = if i = id then [.response (response.contains "result")] else [] := by
  cases h <;> by_cases hid : i = id <;>
    simp [Protocol.sentReplies, Json.replyTo, resultResponse, errorResponse, Json.find, List.lookup_cons,
      asUnsigned, hid]

end Reading

/-! ## Receiving -/

namespace EndpointCore

variable {core : EndpointCore} {id seq n : Nat} {now : Int} {entry : Outgoing}

theorem receive_requestMessage (method : String) (params : Json) :
    core.receive now (requestMessage id method params) = core.receiveRequest id method params := rfl

theorem receive_chunkMessage_eq (data : Json) :
    core.receive now (chunkMessage id seq data) =
      match core.outgoing id with
      | none => .error ⟨"ned: protocol chunk for an unknown request"⟩
      | some entry =>
          if seq ≠ entry.nextSeq then .error ⟨"ned: protocol chunk out of sequence"⟩
          else
            let core' := core.setOutgoing id (some { entry with
              nextSeq := entry.nextSeq + 1, consumed := entry.consumed + 1, lastHeard := now })
            if entry.cancelled = false ∧ entry.handlers.onChunk = true then
              .ok (core', some (.onChunk id data))
            else .ok (core'.chunkHandled id, none) := rfl

theorem receive_chunkMessage (data : Json) (ho : core.outgoing id = some entry)
    (hseq : entry.nextSeq = seq) :
    core.receive now (chunkMessage id seq data) =
      let core' := core.setOutgoing id (some { entry with
        nextSeq := entry.nextSeq + 1, consumed := entry.consumed + 1, lastHeard := now })
      .ok (if entry.cancelled = false ∧ entry.handlers.onChunk = true then
        (core', some (.onChunk id data)) else (core'.chunkHandled id, none)) := by
  rw [receive_chunkMessage_eq, ho]
  simp only [hseq, ne_eq, not_true_eq_false, if_false]
  split <;> rfl

theorem receive_creditMessage :
    core.receive now (creditMessage id n) =
      match core.incoming id with
      | none => .ok (core, none)
      | some entry =>
          .ok ((core.setIncoming id (some { entry with
            credit := if n > sizeMax - entry.credit then sizeMax else entry.credit + n })).flush id) :=
  rfl

theorem receive_cancelMessage :
    core.receive now (cancelMessage id) =
      match core.incoming id with
      | none => .ok (core, none)
      | some _ =>
          .ok ((core.setIncoming id none).send
            (errorResponse id error_code.kCancelled "cancelled" .null), none) :=
  rfl

theorem receive_response (now : Int) {response : Json} (h : IsResponse id response)
    (ho : core.outgoing id = some entry) :
    ∃ call, core.receive now response = .ok (core.setOutgoing id none, call) ∧
      ((∃ result, call = some (.onResult id result) ∧ response.contains "result" = true) ∨
        call = none ∨ ∃ error, call = some (.onError id error)) := by
  cases h with
  | result result =>
      have hreceive : core.receive now (resultResponse id result) =
          core.receiveResponse id (resultResponse id result) := rfl
      rw [hreceive, receiveResponse, ho]
      refine ⟨_, rfl, ?_⟩
      split
      · exact Or.inl ⟨result, rfl, rfl⟩
      · exact Or.inr (Or.inl rfl)
  | error code message data =>
      have hreceive : core.receive now (errorResponse id code message data) =
          core.receiveResponse id (errorResponse id code message data) := rfl
      rw [hreceive, receiveResponse, ho]
      refine ⟨_, rfl, ?_⟩
      split
      · exact Or.inr (Or.inr ⟨_, rfl⟩)
      · exact Or.inr (Or.inl rfl)

end EndpointCore

end Ned.Editor.Protocol
