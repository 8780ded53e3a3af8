import Ned.Editor.Protocol.Lemmas.Connection

/-!
# Streams arrive whole and in order

Two endpoints joined by a channel in each direction never refuse each other's messages. What a
request hears is a part of what its handler said, from the start, and all of it when the result
comes to a request that was never given up.
-/

namespace Ned.Editor.Protocol

open Library

namespace Conversation

variable {v : Conversation}

theorem Stage.received_prefix (h : Stage v) : received v.tale <+: passed v.tale := by
  cases h with
  | unasked => exact List.prefix_refl _
  | asked hzero hpassed hheard => exact hheard.part.trans List.nil_prefix
  | serving hlast hpassed hheard =>
      rw [hpassed, List.append_assoc]
      exact hheard.part.trans (List.prefix_append _ _)
  | answered hpassed hheard hresult =>
      exact (hheard.part.trans (List.prefix_append _ _)).trans hpassed
  | finished hrequested hpart hresulted hwhole => exact hpart

theorem Stage.received_eq {handlers : ResponseHandlers} (h : Stage v) (hresulted : .resulted ∈ v.tale)
    (hkept : .givenUp ∉ v.tale) (hrequested : .requested handlers ∈ v.tale)
    (honChunk : handlers.onChunk = true) : received v.tale = passed v.tale := by
  cases h with
  | unasked => cases hresulted
  | asked hzero hpassed hheard => exact absurd hresulted hheard.resulted
  | serving hlast hpassed hheard => exact absurd hresulted hheard.resulted
  | answered hpassed hheard hresult => exact absurd hresulted hheard.resulted
  | finished _ hpart _ hwhole => exact hwhole hresulted hkept handlers hrequested honChunk

end Conversation

namespace Connection

variable {log : List (Side × Event)} {side : Side} {id : Nat}

theorem received_told :
    Conversation.received (log.filterMap (told side id)) = received log side id := by
  rw [Conversation.received, received, List.filterMap_filterMap]
  congr 1
  funext ⟨other, event⟩
  by_cases hside : other = side
  · cases event with
    | called call =>
        cases call with
        | onChunk i data => by_cases hi : i = id <;> simp [told, Event.askerTold, hside, hi]
        | onResult i result => by_cases hi : i = id <;> simp [told, Event.askerTold, hside, hi]
        | _ => simp [told, Event.askerTold, hside]
    | chunk i data => simp [told, Event.askerTold, hside]
    | _ i => by_cases hi : i = id <;> simp [told, Event.askerTold, hside, hi]
  · cases event with
    | called call => cases call <;> simp [told, Event.serverTold, hside]
    | chunk i data => by_cases hi : i = id <;> simp [told, Event.serverTold, hside, hi]
    | _ => simp [told, Event.serverTold, hside]

theorem passed_told :
    Conversation.passed (log.filterMap (told side id)) = passed log side.peer id := by
  rw [Conversation.passed, passed, List.filterMap_filterMap]
  congr 1
  funext ⟨other, event⟩
  rcases side.eq_or_eq_peer other with rfl | rfl
  · cases event with
    | called call =>
        cases call with
        | onChunk i data => by_cases hi : i = id <;> simp [told, Event.askerTold, hi]
        | onResult i result => by_cases hi : i = id <;> simp [told, Event.askerTold, hi]
        | _ => simp [told, Event.askerTold]
    | chunk i data => simp [told, Event.askerTold, (Side.peer_ne _).symm]
    | _ i => by_cases hi : i = id <;> simp [told, Event.askerTold, hi]
  · cases event with
    | called call => cases call <;> simp [told, Event.serverTold]
    | chunk i data => by_cases hi : i = id <;> simp [told, Event.serverTold, hi]
    | _ => simp [told, Event.serverTold]

theorem mem_told_of_mem {event : Event} {told' : Told} (h : (side, event) ∈ log)
    (htold : event.askerTold id = some told') : told' ∈ log.filterMap (told side id) :=
  List.mem_filterMap.2 ⟨_, h, (if_pos rfl).trans htold⟩

theorem givenUp_of_told (h : .givenUp ∈ log.filterMap (told side id)) :
    (side, .cancel id) ∈ log ∨ (side, .expired id) ∈ log := by
  obtain ⟨⟨other, event⟩, hmem, htold⟩ := List.mem_filterMap.1 h
  unfold told at htold
  split at htold
  · rename_i hside
    simp only at hside
    subst hside
    cases event with
    | cancel i =>
        simp only [Event.askerTold] at htold
        split at htold
        · rename_i hi
          exact Or.inl (hi ▸ hmem)
        · cases htold
    | expired i =>
        simp only [Event.askerTold] at htold
        split at htold
        · rename_i hi
          exact Or.inr (hi ▸ hmem)
        · cases htold
    | called call => cases call <;> simp [Event.askerTold] at htold
    | _ => simp [Event.askerTold] at htold
  · cases event <;> simp [Event.serverTold] at htold

/-- Whatever the owners do, and in whatever order messages arrive, no message is refused; what a
request has heard is a prefix of what its handler has passed on; and when the result has come, all
of it, unless the request was cancelled or expired. -/
theorem streams_arrive_whole (window : Side → Nat) (acts : List (Side × Act)) :
    ∃ c, run step (create window) acts = some c ∧ ∀ side id,
      received c.log side id <+: passed c.log side.peer id ∧
        ∀ handlers result, (side, .request id handlers) ∈ c.log → handlers.onChunk = true →
          (side, .called (.onResult id result)) ∈ c.log → (side, .cancel id) ∉ c.log →
            (side, .expired id) ∉ c.log → received c.log side id = passed c.log side.peer id := by
  obtain ⟨c, hrun, hsound⟩ := run_total Sound (fun _ act h => h.step act) acts (create_sound window)
  refine ⟨c, hrun, fun side id => ?_⟩
  have hstage := hsound.stages side id
  rw [← received_told, ← passed_told]
  refine ⟨hstage.received_prefix, fun handlers result hrequest honChunk hresult hcancel hexpired => ?_⟩
  have htold : .requested handlers ∈ c.log.filterMap (told side id) :=
    mem_told_of_mem hrequest (if_pos rfl)
  refine hstage.received_eq ?_ (fun hmem => ?_) htold honChunk
  · exact mem_told_of_mem hresult (if_pos rfl)
  · rcases givenUp_of_told hmem with h | h
    · exact hcancel h
    · exact hexpired h

/-- One chunk fits the window, the other waits for credit, and so does the result. -/
def sampleActs : List (Side × Act) :=
  [(.host, .handle "read"), (.host, .setPeerWindow 1),
    (.editor, .request "read" .null ⟨true, true, true, false⟩ none 0), (.host, .receive 0),
    (.host, .chunk 1 (.string "a")), (.host, .chunk 1 (.string "b")), (.host, .result 1 .null),
    (.host, .returned), (.editor, .receive 1), (.editor, .returned), (.host, .receive 1),
    (.editor, .receive 2), (.editor, .returned), (.editor, .receive 3)]

def sampleLog : List (Side × Event) :=
  [(.editor, .request 1 ⟨true, true, true, false⟩),
    (.host, .called (.requestHandler 1 "read" .null)),
    (.host, .chunk 1 (.string "a")), (.host, .chunk 1 (.string "b")),
    (.editor, .called (.onChunk 1 (.string "a"))), (.editor, .called (.onChunk 1 (.string "b"))),
    (.editor, .called (.onResult 1 .null))]

theorem streams_arrive_whole_sample :
    ∃ c, run step (create fun _ => 1) sampleActs = some c ∧ c.log = sampleLog ∧
      received c.log .editor 1 = passed c.log .host 1 := by
  obtain ⟨c, hrun, hstreams⟩ := streams_arrive_whole (fun _ => 1) sampleActs
  have hlog : (run step (create fun _ => 1) sampleActs).map (·.log) = some sampleLog := rfl
  rw [hrun] at hlog
  have hlog : c.log = sampleLog := Option.some.inj hlog
  refine ⟨c, hrun, hlog, (hstreams .editor 1).2 ⟨true, true, true, false⟩ .null ?_ rfl ?_ ?_ ?_⟩ <;>
    rw [hlog] <;> simp [sampleLog]

end Connection

end Ned.Editor.Protocol
