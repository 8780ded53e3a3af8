import Ned.Editor.Protocol.Connection
import Mathlib.Logic.Relation

/-!
# One request as a conversation

What both ends and the two channels know of one request, the moves by which it goes on, and the
stages it goes through.
-/

namespace Ned.Editor.Protocol

/-- What travels back to the asker of a request. -/
inductive Reply where
  | chunk (seq : Nat) (data : Json)
  /-- The response that ends the request, and whether it is a result. -/
  | response (result : Bool)

/-- What has happened to a request so far. -/
inductive Told where
  | requested (handlers : ResponseHandlers)
  | givenUp
  | passed (data : Json)
  | received (data : Json)
  | resulted

structure Conversation where
  outgoing : Option Outgoing := none
  /-- The request is still on its way. -/
  asked : Bool := false
  incoming : Option Incoming := none
  replies : List Reply := []
  responder : Option Bool := none
  tale : List Told := []

namespace Conversation

def passed (tale : List Told) : List Json :=
  tale.filterMap fun
    | .passed data => some data
    | _ => none

def received (tale : List Told) : List Json :=
  tale.filterMap fun
    | .received data => some data
    | _ => none

@[simp] theorem passed_append (tale tale' : List Told) :
    passed (tale ++ tale') = passed tale ++ passed tale' := List.filterMap_append

@[simp] theorem received_append (tale tale' : List Told) :
    received (tale ++ tale') = received tale ++ received tale' := List.filterMap_append

section Tales

variable (data : Json) (handlers : ResponseHandlers)

@[simp] theorem passed_nil : passed [] = [] := rfl
@[simp] theorem passed_passed : passed [.passed data] = [data] := rfl
@[simp] theorem passed_received : passed [.received data] = [] := rfl
@[simp] theorem passed_requested : passed [.requested handlers] = [] := rfl
@[simp] theorem passed_givenUp : passed [.givenUp] = [] := rfl
@[simp] theorem passed_resulted : passed [.resulted] = [] := rfl

@[simp] theorem received_nil : received [] = [] := rfl
@[simp] theorem received_passed : received [.passed data] = [] := rfl
@[simp] theorem received_received : received [.received data] = [data] := rfl
@[simp] theorem received_requested : received [.requested handlers] = [] := rfl
@[simp] theorem received_givenUp : received [.givenUp] = [] := rfl
@[simp] theorem received_resulted : received [.resulted] = [] := rfl

end Tales

/-- A stream's chunks on their way, numbered from `seq`. -/
def chunks : Nat → List Json → List Reply
  | _, [] => []
  | seq, data :: flight => .chunk seq data :: chunks (seq + 1) flight

theorem chunks_append (seq : Nat) (flight flight' : List Json) :
    chunks seq (flight ++ flight') = chunks seq flight ++ chunks (seq + flight.length) flight' := by
  induction flight generalizing seq with
  | nil => rfl
  | cons data flight ih => simp [chunks, ih, Nat.add_assoc, Nat.add_comm 1]

/-! ## Moves -/

/-- What the asker is told of a chunk. -/
def heard (entry : Outgoing) (data : Json) : List Told :=
  if entry.cancelled = false ∧ entry.handlers.onChunk = true then [.received data] else []

/-- One thing that can happen to a request. -/
inductive Move : Conversation → Conversation → Prop
  | ask {o : Outgoing} (hseq : o.nextSeq = 0) (hcancelled : o.cancelled = false) :
      Move {} { outgoing := some o, asked := true, tale := [.requested o.handlers] }
  | tune {v : Conversation} {o o' : Outgoing} (ho : v.outgoing = some o)
      (hhandlers : o'.handlers = o.handlers) (hcancelled : o'.cancelled = o.cancelled)
      (hseq : o'.nextSeq = o.nextSeq) :
      Move v { v with outgoing := some o' }
  | giveUp {v : Conversation} {o o' : Outgoing} (ho : v.outgoing = some o)
      (hcancelled : o'.cancelled = true) (hseq : o'.nextSeq = o.nextSeq) :
      Move v { v with outgoing := some o', tale := v.tale ++ [.givenUp] }
  | accept {v : Conversation} {e : Incoming} (hasked : v.asked = true) (hseq : e.nextSeq = 0)
      (hqueued : e.queued = []) :
      Move v { v with asked := false, incoming := some e, responder := some false }
  | refuse {v : Conversation} (hasked : v.asked = true) :
      Move v { v with asked := false, replies := v.replies ++ [.response false] }
  | adjust {v : Conversation} {e e' : Incoming} (he : v.incoming = some e)
      (hseq : e'.nextSeq = e.nextSeq) (hqueued : e'.queued = e.queued) :
      Move v { v with incoming := some e' }
  | lose {v : Conversation} {data : Json} (hresponder : v.responder = some false)
      (he : v.incoming = none) :
      Move v { v with tale := v.tale ++ [.passed data] }
  | queue {v : Conversation} {e e' : Incoming} {data : Json} (hresponder : v.responder = some false)
      (he : v.incoming = some e) (hseq : e'.nextSeq = e.nextSeq)
      (hqueued : e'.queued = e.queued ++ [data]) :
      Move v { v with incoming := some e', tale := v.tale ++ [.passed data] }
  | send {v : Conversation} {e e' : Incoming} {data : Json} (he : v.incoming = some e)
      (hqueued : e.queued = data :: e'.queued) (hseq : e'.nextSeq = e.nextSeq + 1) :
      Move v { v with
        incoming := some e'
        replies := v.replies ++ [.chunk e.nextSeq data] }
  | answer {v : Conversation} (hresponder : v.responder = some false) :
      Move v { v with responder := some true }
  | settle {v : Conversation} {e : Incoming} {result : Bool} (he : v.incoming = some e)
      (hresult : result = true → e.queued = [] ∧ v.responder = some true) :
      Move v { v with incoming := none, replies := v.replies ++ [.response result] }
  | hear {v : Conversation} {o o' : Outgoing} {seq : Nat} {data : Json} {rest : List Reply}
      (hreplies : v.replies = .chunk seq data :: rest) (ho : v.outgoing = some o)
      (hhandlers : o'.handlers = o.handlers) (hcancelled : o'.cancelled = o.cancelled)
      (hseq : o'.nextSeq = o.nextSeq + 1) :
      Move v { v with outgoing := some o', replies := rest, tale := v.tale ++ heard o data }
  | finish {v : Conversation} {o : Outgoing} {result : Bool} {rest : List Reply}
      {told : List Told} (hreplies : v.replies = .response result :: rest)
      (ho : v.outgoing = some o) (htold : told = [] ∨ result = true ∧ told = [.resulted]) :
      Move v { v with outgoing := none, replies := rest, tale := v.tale ++ told }

/-! ## Stages -/

/-- What the asker has been told, after these chunks have arrived. -/
structure Heard (o : Outgoing) (tale : List Told) (arrived : List Json) : Prop where
  requested : ∃ handlers, .requested handlers ∈ tale
  handlers : o.cancelled = false → ∀ handlers, .requested handlers ∈ tale → handlers = o.handlers
  whole : o.cancelled = false → o.handlers.onChunk = true → received tale = arrived
  part : received tale <+: arrived
  givenUp : o.cancelled = true → .givenUp ∈ tale
  resulted : .resulted ∉ tale

inductive Stage : Conversation → Prop
  | unasked : Stage {}
  | asked {o : Outgoing} {tale : List Told} (hseq : o.nextSeq = 0) (hpassed : passed tale = [])
      (hheard : Heard o tale []) :
      Stage { outgoing := some o, asked := true, tale := tale }
  | serving {o : Outgoing} {e : Incoming} {answered : Bool} {tale : List Told}
      {arrived flight : List Json} (hseq : e.nextSeq = o.nextSeq + flight.length)
      (hpassed : passed tale = arrived ++ flight ++ e.queued) (hheard : Heard o tale arrived) :
      Stage { outgoing := some o, incoming := some e, replies := chunks o.nextSeq flight,
              responder := some answered, tale := tale }
  | answered {o : Outgoing} {result : Bool} {responder : Option Bool} {tale : List Told}
      {arrived flight : List Json} (hpassed : arrived ++ flight <+: passed tale)
      (hheard : Heard o tale arrived)
      (hresult : result = true → passed tale = arrived ++ flight ∧ responder = some true) :
      Stage { outgoing := some o, replies := chunks o.nextSeq flight ++ [.response result],
              responder := responder, tale := tale }
  | finished {responder : Option Bool} {tale : List Told}
      (hrequested : ∃ handlers, .requested handlers ∈ tale)
      (hpart : received tale <+: passed tale)
      (hresulted : .resulted ∈ tale → responder = some true)
      (hwhole : .resulted ∈ tale → .givenUp ∉ tale → ∀ handlers, .requested handlers ∈ tale →
        handlers.onChunk = true → received tale = passed tale) :
      Stage { responder := responder, tale := tale }

variable {o o' : Outgoing} {tale : List Told} {arrived : List Json} {v v' : Conversation}

theorem Heard.tune (h : Heard o tale arrived) (hhandlers : o'.handlers = o.handlers)
    (hcancelled : o'.cancelled = o.cancelled) : Heard o' tale arrived := by
  obtain ⟨hrequested, hsame, hwhole, hpart, hgivenUp, hresulted⟩ := h
  rw [← hhandlers, ← hcancelled] at *
  exact ⟨hrequested, hsame, hwhole, hpart, hgivenUp, hresulted⟩

theorem Heard.giveUp (h : Heard o tale arrived) (hcancelled : o'.cancelled = true) :
    Heard o' (tale ++ [.givenUp]) arrived where
  requested := h.requested.imp fun _ => List.mem_append_left _
  handlers := by simp [hcancelled]
  whole := by simp [hcancelled]
  part := by simpa using h.part
  givenUp := by simp
  resulted := by simpa using h.resulted

theorem Heard.passed (h : Heard o tale arrived) (data : Json) :
    Heard o (tale ++ [.passed data]) arrived where
  requested := h.requested.imp fun _ => List.mem_append_left _
  handlers := by simpa using h.handlers
  whole := by simpa using h.whole
  part := by simpa using h.part
  givenUp := by simpa using h.givenUp
  resulted := by simpa using h.resulted

/-- A chunk that arrives is heard, or the asker no longer listens. -/
theorem Heard.hear (h : Heard o tale arrived) (data : Json) :
    Heard o (tale ++ heard o data) (arrived ++ [data]) := by
  unfold heard
  split
  · rename_i hlistens
    have hwhole := h.whole hlistens.1 hlistens.2
    exact {
      requested := h.requested.imp fun _ => List.mem_append_left _
      handlers := by simpa using h.handlers
      whole := by simp [hwhole]
      part := by simp [hwhole]
      givenUp := by simpa using h.givenUp
      resulted := by simpa using h.resulted }
  · rename_i hdeaf
    rw [List.append_nil]
    exact {
      requested := h.requested
      handlers := h.handlers
      whole := fun hcancelled honChunk => absurd ⟨hcancelled, honChunk⟩ hdeaf
      part := h.part.trans (List.prefix_append _ _)
      givenUp := h.givenUp
      resulted := h.resulted }

@[simp] theorem passed_heard (o : Outgoing) (data : Json) :
    Conversation.passed (heard o data) = [] := by
  unfold heard
  split <;> simp

/-! ## Every move leads from one stage to another -/

theorem Stage.ask (hseq : o.nextSeq = 0) (hcancelled : o.cancelled = false) :
    Stage { outgoing := some o, asked := true, tale := [.requested o.handlers] } :=
  .asked hseq (by simp) {
    requested := ⟨o.handlers, List.mem_singleton_self _⟩
    handlers := by simp
    whole := by simp
    part := by simp
    givenUp := by simp [hcancelled]
    resulted := by simp }

theorem Stage.tune (h : Stage v) (ho : v.outgoing = some o) (hhandlers : o'.handlers = o.handlers)
    (hcancelled : o'.cancelled = o.cancelled) (hseq : o'.nextSeq = o.nextSeq) :
    Stage { v with outgoing := some o' } := by
  cases h with
  | unasked => cases ho
  | asked hzero hpassed hheard =>
      cases ho
      exact .asked (hseq.trans hzero) hpassed (hheard.tune hhandlers hcancelled)
  | serving hlast hpassed hheard =>
      cases ho
      rw [← hseq] at hlast ⊢
      exact .serving hlast hpassed (hheard.tune hhandlers hcancelled)
  | answered hpassed hheard hresult =>
      cases ho
      rw [← hseq]
      exact .answered hpassed (hheard.tune hhandlers hcancelled) hresult
  | finished => cases ho

theorem Stage.giveUp (h : Stage v) (ho : v.outgoing = some o) (hcancelled : o'.cancelled = true)
    (hseq : o'.nextSeq = o.nextSeq) :
    Stage { v with outgoing := some o', tale := v.tale ++ [.givenUp] } := by
  cases h with
  | unasked => cases ho
  | asked hzero hpassed hheard =>
      cases ho
      exact .asked (hseq.trans hzero) (by simpa using hpassed) (hheard.giveUp hcancelled)
  | serving hlast hpassed hheard =>
      cases ho
      rw [← hseq] at hlast ⊢
      exact .serving hlast (by simpa using hpassed) (hheard.giveUp hcancelled)
  | answered hpassed hheard hresult =>
      cases ho
      rw [← hseq]
      exact .answered (by simpa using hpassed) (hheard.giveUp hcancelled) (by simpa using hresult)
  | finished => cases ho

theorem Stage.accept {e : Incoming} (h : Stage v) (hasked : v.asked = true) (hseq : e.nextSeq = 0)
    (hqueued : e.queued = []) :
    Stage { v with asked := false, incoming := some e, responder := some false } := by
  cases h with
  | @asked o tale hzero hpassed hheard =>
      have hchunks : [] = chunks o.nextSeq [] := rfl
      rw [hchunks]
      exact .serving (by simp [hseq, hzero]) (by simp [hpassed, hqueued]) hheard
  | _ => cases hasked

theorem Stage.refuse (h : Stage v) (hasked : v.asked = true) :
    Stage { v with asked := false, replies := v.replies ++ [.response false] } := by
  cases h with
  | @asked o tale hzero hpassed hheard =>
      have hnone : [] ++ [] <+: passed tale := List.nil_prefix
      exact .answered hnone hheard (by simp)
  | _ => cases hasked

theorem Stage.adjust {e e' : Incoming} (h : Stage v) (he : v.incoming = some e)
    (hseq : e'.nextSeq = e.nextSeq) (hqueued : e'.queued = e.queued) :
    Stage { v with incoming := some e' } := by
  cases h with
  | serving hlast hpassed hheard =>
      cases he
      exact .serving (hseq.trans hlast) (hqueued ▸ hpassed) hheard
  | _ => cases he

theorem Stage.lose (h : Stage v) (hresponder : v.responder = some false) (he : v.incoming = none)
    (data : Json) : Stage { v with tale := v.tale ++ [.passed data] } := by
  cases h with
  | serving => cases he
  | answered hpassed hheard hresult =>
      cases hresponder
      refine .answered (hpassed.trans (by simp)) (hheard.passed data) fun hok => ?_
      cases (hresult hok).2
  | finished hrequested hpart hresulted hwhole =>
      cases hresponder
      refine .finished (hrequested.imp fun _ => List.mem_append_left _) ?_ ?_ ?_
      · simpa using hpart.trans (List.prefix_append _ _)
      · simpa using hresulted
      · intro hmem
        cases hresulted (by simpa using hmem)
  | _ => cases hresponder

theorem Stage.queue {e e' : Incoming} {data : Json} (h : Stage v) (he : v.incoming = some e)
    (hseq : e'.nextSeq = e.nextSeq) (hqueued : e'.queued = e.queued ++ [data]) :
    Stage { v with incoming := some e', tale := v.tale ++ [.passed data] } := by
  cases h with
  | serving hlast hpassed hheard =>
      cases he
      exact .serving (hseq.trans hlast) (by simp [hpassed, hqueued]) (hheard.passed data)
  | _ => cases he

theorem Stage.send {e e' : Incoming} {data : Json} (h : Stage v) (he : v.incoming = some e)
    (hqueued : e.queued = data :: e'.queued) (hseq : e'.nextSeq = e.nextSeq + 1) :
    Stage { v with
      incoming := some e'
      replies := v.replies ++ [.chunk e.nextSeq data] } := by
  cases h with
  | @serving o e answered tale arrived flight hlast hpassed hheard =>
      cases he
      have hchunks : chunks o.nextSeq flight ++ [.chunk e.nextSeq data] =
          chunks o.nextSeq (flight ++ [data]) := by
        rw [chunks_append, hlast]
        rfl
      simp only [hchunks]
      exact .serving (by simp [hseq, hlast, Nat.add_assoc]) (by simp [hpassed, hqueued]) hheard
  | _ => cases he

theorem Stage.answer (h : Stage v) (hresponder : v.responder = some false) :
    Stage { v with responder := some true } := by
  cases h with
  | serving hlast hpassed hheard => exact .serving hlast hpassed hheard
  | answered hpassed hheard hresult =>
      exact .answered hpassed hheard fun hok => ⟨(hresult hok).1, rfl⟩
  | finished hrequested hpart hresulted hwhole =>
      exact .finished hrequested hpart (fun _ => rfl) hwhole
  | _ => cases hresponder

theorem Stage.settle {e : Incoming} {result : Bool} (h : Stage v) (he : v.incoming = some e)
    (hresult : result = true → e.queued = [] ∧ v.responder = some true) :
    Stage { v with incoming := none, replies := v.replies ++ [.response result] } := by
  cases h with
  | serving hlast hpassed hheard =>
      cases he
      refine .answered (hpassed ▸ List.prefix_append _ _) hheard fun hok => ?_
      obtain ⟨hqueued, hresponder⟩ := hresult hok
      exact ⟨by simp [hpassed, hqueued], hresponder⟩
  | _ => cases he

/-- A chunk that arrives is the one its asker expects. -/
theorem Stage.expected {seq : Nat} {data : Json} {rest : List Reply} (h : Stage v)
    (hreplies : v.replies = .chunk seq data :: rest) :
    ∃ o, v.outgoing = some o ∧ o.nextSeq = seq := by
  cases h with
  | @serving o e answered tale arrived flight hlast hpassed hheard =>
      cases flight with
      | nil => cases hreplies
      | cons first flight =>
          cases hreplies
          exact ⟨o, rfl, rfl⟩
  | @answered o result responder tale arrived flight hpassed hheard hresult =>
      cases flight with
      | nil => cases hreplies
      | cons first flight =>
          cases hreplies
          exact ⟨o, rfl, rfl⟩
  | _ => cases hreplies

/-- A response that arrives belongs to a request that waits for it. -/
theorem Stage.awaited {result : Bool} {rest : List Reply} (h : Stage v)
    (hreplies : v.replies = .response result :: rest) :
    ∃ o, v.outgoing = some o ∧ rest = [] := by
  cases h with
  | @serving o e answered tale arrived flight hlast hpassed hheard =>
      cases flight <;> cases hreplies
  | @answered o result responder tale arrived flight hpassed hheard hresult =>
      cases flight with
      | nil =>
          cases hreplies
          exact ⟨o, rfl, rfl⟩
      | cons first flight => cases hreplies
  | _ => cases hreplies

theorem Stage.hear {seq : Nat} {data : Json} {rest : List Reply} (h : Stage v)
    (hreplies : v.replies = .chunk seq data :: rest) (ho : v.outgoing = some o)
    (hhandlers : o'.handlers = o.handlers) (hcancelled : o'.cancelled = o.cancelled)
    (hseq : o'.nextSeq = o.nextSeq + 1) :
    Stage { v with outgoing := some o', replies := rest, tale := v.tale ++ heard o data } := by
  cases h with
  | @serving o e answered tale arrived flight hlast hpassed hheard =>
      cases ho
      cases flight with
      | nil => cases hreplies
      | cons first flight =>
          cases hreplies
          rw [← hseq]
          refine .serving ?_ ?_ ((hheard.hear data).tune hhandlers hcancelled)
          · simp only [hlast, hseq, List.length_cons, Nat.add_assoc, Nat.add_comm 1]
          · simp [hpassed]
  | @answered o result responder tale arrived flight hpassed hheard hresult =>
      cases ho
      cases flight with
      | nil => cases hreplies
      | cons first flight =>
          cases hreplies
          rw [← hseq]
          refine .answered ?_ ((hheard.hear data).tune hhandlers hcancelled) fun hok => ?_
          · simpa using hpassed
          · simpa using hresult hok
  | _ => cases hreplies

theorem Stage.finish {result : Bool} {rest : List Reply} {told : List Told} (h : Stage v)
    (hreplies : v.replies = .response result :: rest) (ho : v.outgoing = some o)
    (htold : told = [] ∨ result = true ∧ told = [.resulted]) :
    Stage { v with outgoing := none, replies := rest, tale := v.tale ++ told } := by
  obtain ⟨_, _, rfl⟩ := h.awaited hreplies
  cases h with
  | @answered o result responder tale arrived flight hpassed hheard hresult =>
      cases ho
      cases flight with
      | cons first flight => cases hreplies
      | nil =>
          cases hreplies
          rw [List.append_nil] at hpassed hresult
          have hrequested := hheard.requested.imp fun _ => List.mem_append_left told
          rcases htold with rfl | ⟨hok, rfl⟩
          · refine .finished hrequested ?_ ?_ ?_
            · simpa using hheard.part.trans hpassed
            · intro hmem
              exact absurd (by simpa using hmem) hheard.resulted
            · intro hmem
              exact absurd (by simpa using hmem) hheard.resulted
          · obtain ⟨heq, hresponder⟩ := hresult hok
            refine .finished hrequested ?_ (fun _ => hresponder) ?_
            · simpa [heq] using hheard.part
            · intro _ hkept handlers hmem honChunk
              have hcancelled : o.cancelled = false := by
                by_contra hcancelled
                exact hkept (List.mem_append_left _
                  (hheard.givenUp (eq_true_of_ne_false hcancelled)))
              have hsame := hheard.handlers hcancelled handlers (by simpa using hmem)
              simpa [heq] using hheard.whole hcancelled (hsame ▸ honChunk)
  | @serving o e answered tale arrived flight hlast hpassed hheard =>
      cases flight <;> cases hreplies
  | _ => cases hreplies

/-- A request that was never made is at its first stage. -/
theorem Stage.eq_unasked (h : Stage v) (hnew : ∀ handlers, .requested handlers ∉ v.tale) : v = {} := by
  cases h with
  | unasked => rfl
  | asked hzero hpassed hheard => exact absurd hheard.requested.choose_spec (hnew _)
  | serving hlast hpassed hheard => exact absurd hheard.requested.choose_spec (hnew _)
  | answered hpassed hheard hresult => exact absurd hheard.requested.choose_spec (hnew _)
  | finished hrequested => exact absurd hrequested.choose_spec (hnew _)

/-- Every move leads from one stage to another. -/
theorem Move.stage (hmove : Move v v') (h : Stage v) : Stage v' := by
  cases hmove with
  | ask hseq hcancelled => exact .ask hseq hcancelled
  | tune ho hhandlers hcancelled hseq => exact h.tune ho hhandlers hcancelled hseq
  | giveUp ho hcancelled hseq => exact h.giveUp ho hcancelled hseq
  | accept hasked hseq hqueued => exact h.accept hasked hseq hqueued
  | refuse hasked => exact h.refuse hasked
  | adjust he hseq hqueued => exact h.adjust he hseq hqueued
  | lose hresponder he => exact h.lose hresponder he _
  | queue hresponder he hseq hqueued => exact h.queue he hseq hqueued
  | send he hqueued hseq => exact h.send he hqueued hseq
  | answer hresponder => exact h.answer hresponder
  | settle he hresult => exact h.settle he hresult
  | hear hreplies ho hhandlers hcancelled hseq =>
      exact h.hear hreplies ho hhandlers hcancelled hseq
  | finish hreplies ho htold => exact h.finish hreplies ho htold

open Relation in
theorem Stage.moves (h : Stage v) (hmoves : ReflTransGen Move v v') : Stage v' := by
  induction hmoves with
  | refl => exact h
  | tail _ hmove ih => exact hmove.stage ih

end Conversation

end Ned.Editor.Protocol
