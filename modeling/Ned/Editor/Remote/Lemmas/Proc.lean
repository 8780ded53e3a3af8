import Ned.Editor.Remote.Proc
import Mathlib.Algebra.BigOperators.Group.List.Basic
import Mathlib.Algebra.Order.Ring.Nat
import Mathlib.Data.List.Basic

/-!
# What the relay keeps

Each chunk is counted at one place from its arrival to its grant, what has been sent is the beginning of what came,
and the relay thread never waits for what it has been told of already.
-/

namespace Ned.Editor.Remote.Proc

open Text

variable {mode : StderrMode} {s s' : State} {fd : Fd}

/-! ## Deliver -/

theorem deliver_induction {P : Delivery → Prop} (fd : Fd)
    (take : ∀ delivery front rest size, delivery.relay.out fd = front :: rest → P delivery →
      P (delivery.take fd size front rest))
    (failed : ∀ delivery, P delivery → P { delivery with
      relay := delivery.relay.discard, delivered := delivery.delivered + delivery.relay.queued })
    (results : List SendResult) : ∀ delivery, P delivery → P (deliver fd results delivery) := by
  induction results with
  | nil =>
      intro delivery h
      exact h
  | cons result results ih =>
      intro delivery h
      cases hout : delivery.relay.out fd with
      | nil =>
          simp only [deliver, hout]
          exact h
      | cons front rest =>
          simp only [deliver, hout]
          cases result with
          | took size => exact ih _ (take delivery front rest size hout h)
          | again => exact h
          | interrupted => exact ih _ h
          | failed => exact failed delivery h

theorem deliver_of_empty (results : List SendResult) {delivery : Delivery} (h : delivery.relay.out fd = []) :
    deliver fd results delivery = delivery := by
  cases results with
  | nil => rfl
  | cons result results => simp only [deliver, h]

theorem Relay.queued_update {relay relay' : Relay} {queue : List Bytes}
    (h : relay'.out = Function.update relay.out fd queue) :
    relay'.queued + (relay.out fd).length = relay.queued + queue.length := by
  rw [Relay.queued, Relay.queued, h]
  cases fd with
  | stdout =>
      rw [Function.update_self, Function.update_of_ne (fun h : Fd.stderr = .stdout => by cases h)]
      omega
  | stderr =>
      rw [Function.update_self, Function.update_of_ne (fun h : Fd.stdout = .stderr => by cases h)]
      omega

theorem Relay.queued_push (relay : Relay) (fd : Fd) (data : Bytes) :
    (relay.push fd data).queued = relay.queued + 1 := by
  have h : (relay.push fd data).queued + _ = _ := Relay.queued_update rfl
  rw [List.length_append, List.length_singleton] at h
  omega

theorem Relay.queued_eq_zero {relay : Relay} : relay.queued = 0 ↔ ∀ fd, relay.out fd = [] := by
  rw [Relay.queued, Nat.add_eq_zero_iff, List.length_eq_zero_iff, List.length_eq_zero_iff]
  constructor
  · rintro ⟨hout, herr⟩ fd
    cases fd with
    | stdout => exact hout
    | stderr => exact herr
  · intro h
    exact ⟨h .stdout, h .stderr⟩

theorem deliver_counts (fd : Fd) (results : List SendResult) (delivery : Delivery) :
    (deliver fd results delivery).relay.queued + (deliver fd results delivery).delivered =
      delivery.relay.queued + delivery.delivered := by
  refine deliver_induction (P := fun d => d.relay.queued + d.delivered = delivery.relay.queued + delivery.delivered)
    fd ?_ ?_ results delivery rfl
  · intro d front rest size hout h
    rw [Delivery.take]
    split
    · rename_i hsent
      have hqueued : (d.take fd size front rest).relay.queued + (d.relay.out fd).length =
          d.relay.queued + rest.length := by
        apply Relay.queued_update
        simp only [Delivery.take, hsent, if_true]
      simp only [Delivery.take, hsent, if_true, hout, List.length_cons] at hqueued
      simp only
      omega
    · exact h
  · intro d h
    rw [← h]
    show 0 + 0 + (d.delivered + d.relay.queued) = _
    omega

theorem deliver_finished (fd : Fd) (results : List SendResult) (delivery : Delivery) :
    (deliver fd results delivery).relay.finished = delivery.relay.finished ∧
      (deliver fd results delivery).relay.released = delivery.relay.released := by
  refine deliver_induction (P := fun d => d.relay.finished = delivery.relay.finished ∧
    d.relay.released = delivery.relay.released) fd ?_ (fun d h => h) results delivery ⟨rfl, rfl⟩
  intro d front rest size hout h
  rw [Delivery.take]
  split
  · exact h
  · exact h

/-! ## Counting -/

def RelayPc.inHand : RelayPc → Nat
  | .delivering _ delivered => delivered
  | _ => 0

def MainPc.inHand : MainPc → Nat
  | .refusing => 1
  | _ => 0

def OwnerPc.inHand : OwnerPc → Nat
  | .holding held => held
  | _ => 0

/-- The chunks that a thread has counted and is about to grant, or to post a grant for. -/
def State.inHand (s : State) : Nat := s.thread.inHand + s.main.inHand + s.owner.inHand

def Counted (s : State) : Prop :=
  s.answered = false → s.granted + s.posted.sum + s.relay.queued + s.inHand = s.received

theorem Counted.work (h : Counted s) (work : Work s s') : Counted s' := by
  intro hopen
  cases work with
  | refuse hmain =>
      have hcount := h hopen
      simp only [State.inHand, hmain, MainPc.inHand] at hcount
      simp only [State.inHand, State.grant, MainPc.inHand]
      omega
  | runPosted chunks rest hmain hposted =>
      have hcount := h hopen
      rw [hposted, List.sum_cons] at hcount
      simp only [State.inHand, State.grant] at hcount ⊢
      omega
  | finish hmain => cases hopen
  | check hthread =>
      have hopen' : s.answered = false := by
        simpa only [State.check, apply_ite State.answered, ite_self] using hopen
      have hcount := h hopen'
      simp only [State.inHand, hthread, RelayPc.inHand] at hcount
      rw [State.check]
      split
      · exact hcount
      · split
        · exact hcount
        · exact hcount
  | polled wantOutput wantError output error hthread hevent =>
      have hcount := h hopen
      simp only [State.inHand, hthread, RelayPc.inHand] at hcount
      exact hcount
  | deliver fd streams delivered results hthread =>
      have hcount := h hopen
      have hdeliver := deliver_counts fd results { relay := s.relay }
      simp only [State.inHand, hthread, RelayPc.inHand] at hcount
      simp only [State.inHand, State.deliverTo, RelayPc.inHand]
      simp only at hdeliver
      omega
  | post delivered hthread =>
      have hcount := h hopen
      simp only [State.inHand, hthread, RelayPc.inHand] at hcount
      simp only [State.inHand, State.post, RelayPc.inHand]
      split
      · omega
      · rw [List.sum_append, List.sum_singleton]
        omega
  | join held howner hthread =>
      have hcount := h hopen
      simp only [State.inHand, howner, OwnerPc.inHand] at hcount
      simp only [State.inHand, State.joined, OwnerPc.inHand, List.sum_append, List.sum_singleton]
      omega

theorem Counted.step (h : Counted s) (step : Step mode s s') : Counted s' := by
  cases step with
  | work work => exact h.work work
  | chunk fd data hmain hopen =>
      intro
      have hcount := h hopen
      simp only [State.inHand, hmain, MainPc.inHand] at hcount
      rw [State.onChunk]
      split
      · simp only [State.inHand, State.receive, hmain, MainPc.inHand, Relay.queued_push]
        omega
      · simp only [State.inHand, State.receive, MainPc.inHand]
        omega
  | malformed hmain hopen =>
      intro
      have hcount := h hopen
      simp only [State.inHand, State.grant] at hcount ⊢
      omega
  | answer hmain hopen =>
      intro hopen'
      cases hopen'
  | spawnFailed message hmain hopen hnone =>
      intro hopen'
      rw [State.onSpawnFailed] at hopen'
      split at hopen'
      · cases hopen'
      · cases hopen'
  | input wantOutput wantError output error hthread =>
      intro hopen
      have hcount := h hopen
      simp only [State.inHand, hthread, RelayPc.inHand] at hcount
      exact hcount
  | pollInterrupted wantOutput wantError hthread =>
      intro hopen
      have hcount := h hopen
      simp only [State.inHand, hthread, RelayPc.inHand] at hcount
      exact hcount
  | pollFailed wantOutput wantError hthread =>
      intro hopen
      have hcount := h hopen
      simp only [State.inHand, hthread, RelayPc.inHand] at hcount
      exact hcount
  | release howner =>
      intro hopen
      have hcount := h hopen
      simp only [State.inHand, howner, OwnerPc.inHand] at hcount
      simp only [State.inHand, State.release, OwnerPc.inHand]
      show s.granted + s.posted.sum + 0 + _ = _
      omega

/-! ## Order -/

def Relay.pending (relay : Relay) (fd : Fd) : Bytes := (relay.out fd).flatten.drop (relay.sent fd)

def Closed (mode : StderrMode) (relay : Relay) (fd : Fd) : Prop :=
  relay.released = true ∨ relay.discarding = true ∨ State.wanted mode fd = false

/-- What has been sent and what is left make up the text, or nothing is left and nothing comes any more. -/
inductive Placed (mode : StderrMode) (relay : Relay) (fd : Fd) (relayed text : Bytes) : Prop
  | whole (partly : relay.sent fd ≤ ((relay.out fd).headD []).length) (whole : relayed ++ relay.pending fd = text)
  | stopped (closed : Closed mode relay fd) (drained : relay.out fd = []) (before : relayed <+: text)

theorem Placed.isPrefix {relay : Relay} {relayed text : Bytes} (h : Placed mode relay fd relayed text) :
    relayed <+: text := by
  cases h with
  | whole partly whole => exact ⟨_, whole⟩
  | stopped closed drained before => exact before

theorem accepts_eq_false_iff : s.accepts mode fd = false ↔ Closed mode s.relay fd := by
  rw [State.accepts, Closed]
  cases s.relay.released with
  | true => simp
  | false =>
      cases s.relay.discarding with
      | true => simp
      | false => simp

theorem Placed.frame {relay relay' : Relay} {relayed text : Bytes} (h : Placed mode relay fd relayed text)
    (hout : relay'.out fd = relay.out fd) (hsent : relay'.sent fd = relay.sent fd)
    (hclosed : Closed mode relay fd → Closed mode relay' fd) : Placed mode relay' fd relayed text := by
  cases h with
  | whole partly whole =>
      apply Placed.whole
      · rw [hout, hsent]
        exact partly
      · rw [Relay.pending, hout, hsent]
        exact whole
  | stopped closed drained before => exact .stopped (hclosed closed) (hout.trans drained) before

theorem Placed.drained {relay relay' : Relay} {relayed text : Bytes} (h : Placed mode relay fd relayed text)
    (hclosed : Closed mode relay' fd) (hout : relay'.out fd = []) : Placed mode relay' fd relayed text :=
  .stopped hclosed hout h.isPrefix

theorem Placed.push {relay : Relay} {relayed text : Bytes}
    (partly : relay.sent fd ≤ ((relay.out fd).headD []).length) (whole : relayed ++ relay.pending fd = text)
    (data : Bytes) : Placed mode (relay.push fd data) fd relayed (text ++ data) := by
  have hout : (relay.push fd data).out fd = relay.out fd ++ [data] := Function.update_self _ _ _
  have hsent : (relay.push fd data).sent fd = relay.sent fd := rfl
  apply Placed.whole
  · rw [hout, hsent]
    cases hqueue : relay.out fd with
    | nil =>
        rw [hqueue] at partly
        exact Nat.le_trans partly (Nat.zero_le _)
    | cons front rest =>
        rw [hqueue] at partly
        exact partly
  · have hle : relay.sent fd ≤ (relay.out fd).flatten.length := by
      cases hqueue : relay.out fd with
      | nil =>
          rw [hqueue] at partly
          exact partly
      | cons front rest =>
          rw [hqueue] at partly
          rw [List.flatten_cons, List.length_append]
          exact Nat.le_trans partly (Nat.le_add_right _ _)
    rw [Relay.pending, hout, hsent, List.flatten_append, List.flatten_singleton,
      List.drop_append_of_le_length hle, ← List.append_assoc, ← whole]
    rfl

theorem Placed.take {delivery : Delivery} {front : Bytes} {rest : List Bytes} {relayed text : Bytes} (size : Nat)
    (hout : delivery.relay.out fd = front :: rest)
    (h : Placed mode delivery.relay fd (relayed ++ delivery.bytes) text) :
    Placed mode (delivery.take fd size front rest).relay fd (relayed ++ (delivery.take fd size front rest).bytes)
      text := by
  cases h with
  | stopped closed drained before =>
      rw [hout] at drained
      cases drained
  | whole partly whole =>
      rw [hout, List.headD_cons] at partly
      rw [Relay.pending, hout, List.flatten_cons] at whole
      have hsent : delivery.relay.sent fd ≤ min (delivery.relay.sent fd + size) front.length :=
        Nat.le_min.2 ⟨Nat.le_add_right _ _, partly⟩
      have hsplit (sent : Nat) (hle : delivery.relay.sent fd ≤ sent) (hfront : sent ≤ front.length) :
          (front.take sent).drop (delivery.relay.sent fd) ++ (front ++ rest.flatten).drop sent =
            (front ++ rest.flatten).drop (delivery.relay.sent fd) := by
        rw [List.drop_append_of_le_length hfront, ← List.append_assoc]
        rw [← List.drop_append_of_le_length (List.length_take ▸ Nat.le_min.2 ⟨hle, partly⟩),
          List.take_append_drop, List.drop_append_of_le_length partly]
      have hwhole := hsplit _ hsent (Nat.min_le_right _ _)
      rw [Delivery.take]
      split
      · rename_i hall
        rw [hall, List.drop_left] at hwhole
        apply Placed.whole
        · simp only [Function.update_self]
          exact Nat.zero_le _
        · simp only [Relay.pending, Function.update_self, List.drop_zero]
          rw [hall, List.append_assoc, List.append_assoc, hwhole, ← List.append_assoc]
          exact whole
      · apply Placed.whole
        · simp only [Function.update_self, hout]
          exact Nat.min_le_right _ _
        · simp only [Relay.pending, Function.update_self, hout, List.flatten_cons]
          rw [List.append_assoc, List.append_assoc, hwhole, ← List.append_assoc]
          exact whole

structure Ordered (mode : StderrMode) (s : State) : Prop where
  placed : ∀ fd, Placed mode s.relay fd (s.relayed fd) (s.chunks fd).flatten
  drained : s.answered = false → ∀ fd, Closed mode s.relay fd → s.relay.out fd = []
  /-- Before any output there is nothing. -/
  fresh : s.answered = false → s.received = 0 →
    ∀ fd, s.chunks fd = [] ∧ s.relay.out fd = [] ∧ s.relay.sent fd = 0 ∧ s.relayed fd = []

theorem Ordered.frame (h : Ordered mode s) (hrelay : s'.relay = s.relay) (hchunks : s'.chunks = s.chunks)
    (hrelayed : s'.relayed = s.relayed) (hanswered : s'.answered = false → s.answered = false)
    (hreceived : s'.received = 0 → s.received = 0) : Ordered mode s' where
  placed fd := by
    rw [hrelay, hchunks, hrelayed]
    exact h.placed fd
  drained hopen := by
    rw [hrelay]
    exact h.drained (hanswered hopen)
  fresh hopen hnone := by
    rw [hrelay, hchunks, hrelayed]
    exact h.fresh (hanswered hopen) (hreceived hnone)

theorem Ordered.finish (h : Ordered mode s) : Ordered mode s.finish where
  placed fd := (h.placed fd).frame rfl rfl id
  drained hopen := by cases hopen
  fresh hopen := by cases hopen

theorem Ordered.deliverTo (h : Ordered mode s) (fd : Fd) (results : List SendResult) (streams : List Fd)
    (delivered : Nat) : Ordered mode (s.deliverTo fd results streams delivered) where
  placed g := by
    rw [State.deliverTo]
    by_cases hg : g = fd
    · subst hg
      simp only [Function.update_self]
      refine deliver_induction
        (P := fun d => Placed mode d.relay g (s.relayed g ++ d.bytes) (s.chunks g).flatten) g ?_ ?_ results
        { relay := s.relay } ?_
      · intro d front rest size hout h
        exact h.take size hout
      · intro d h
        exact h.drained (.inr (.inl rfl)) rfl
      · rw [List.append_nil]
        exact h.placed g
    · simp only [Function.update_of_ne hg]
      refine deliver_induction (P := fun d => Placed mode d.relay g (s.relayed g) (s.chunks g).flatten) fd ?_ ?_
        results { relay := s.relay } (h.placed g)
      · intro d front rest size hout h
        rw [Delivery.take]
        split
        · exact h.frame (Function.update_of_ne hg _ _) (Function.update_of_ne hg _ _) id
        · exact h.frame rfl (Function.update_of_ne hg _ _) id
      · intro d h
        exact h.drained (.inr (.inl rfl)) rfl
  drained hopen := by
    refine deliver_induction (P := fun d => ∀ g, Closed mode d.relay g → d.relay.out g = []) fd ?_ ?_ results
      { relay := s.relay } (h.drained hopen)
    · intro d front rest size hout h g hclosed
      rw [Delivery.take] at hclosed ⊢
      have hnil : d.relay.out g = [] := by
        split at hclosed
        · exact h g hclosed
        · exact h g hclosed
      have hg : g ≠ fd := by
        rintro rfl
        rw [hout] at hnil
        cases hnil
      split
      · exact (Function.update_of_ne hg _ _).trans hnil
      · exact hnil
    · intro d h g hclosed
      rfl
  fresh hopen hnone g := by
    have hfd : ({ relay := s.relay } : Delivery).relay.out fd = [] := (h.fresh hopen hnone fd).2.1
    rw [State.deliverTo, deliver_of_empty results hfd, List.append_nil, Function.update_eq_self]
    exact h.fresh hopen hnone g

theorem Ordered.work (h : Ordered mode s) (work : Work s s') : Ordered mode s' := by
  cases work with
  | refuse hmain => exact h.frame rfl rfl rfl id id
  | runPosted chunks rest hmain hposted => exact h.frame rfl rfl rfl id id
  | finish hmain => exact h.finish
  | check hthread =>
      rw [State.check]
      split
      · exact h.frame rfl rfl rfl id id
      · split
        · exact h.frame rfl rfl rfl id id
        · exact h.frame rfl rfl rfl id id
  | polled wantOutput wantError output error hthread hevent => exact h.frame rfl rfl rfl id id
  | deliver fd streams delivered results hthread => exact h.deliverTo fd results streams delivered
  | post delivered hthread => exact h.frame rfl rfl rfl id id
  | join held howner hthread => exact h.frame rfl rfl rfl id id

theorem Ordered.onChunk (h : Ordered mode s) (fd : Fd) (data : Bytes) (hopen : s.answered = false) :
    Ordered mode (s.onChunk mode fd data) := by
  rw [State.onChunk]
  cases haccepts : s.accepts mode fd with
  | true =>
      have hclosed : ¬Closed mode s.relay fd := by
        rw [← accepts_eq_false_iff, haccepts]
        exact Bool.noConfusion
      refine ⟨fun g => ?_, fun _ g hg => ?_, fun _ hnone => absurd hnone (Nat.succ_ne_zero _)⟩
      · by_cases hg : g = fd
        · subst hg
          simp only [if_true, State.receive, Function.update_self, List.flatten_append, List.flatten_singleton]
          cases h.placed g with
          | whole partly whole => exact Placed.push partly whole data
          | stopped closed drained before => exact absurd closed hclosed
        · simp only [if_true, State.receive, Function.update_of_ne hg]
          exact (h.placed g).frame (Function.update_of_ne hg _ _) rfl id
      · have hne : g ≠ fd := by
          rintro rfl
          exact hclosed hg
        exact (Function.update_of_ne hne _ _).trans (h.drained hopen g hg)
  | false =>
      have hclosed := accepts_eq_false_iff.1 haccepts
      refine ⟨fun g => ?_, fun _ => h.drained hopen, fun _ hnone => absurd hnone (Nat.succ_ne_zero _)⟩
      by_cases hg : g = fd
      · subst hg
        simp only [Bool.false_eq_true, if_false, State.receive, Function.update_self, List.flatten_append,
          List.flatten_singleton]
        exact .stopped hclosed (h.drained hopen g hclosed) ((h.placed g).isPrefix.trans (List.prefix_append _ _))
      · simp only [Bool.false_eq_true, if_false, State.receive, Function.update_of_ne hg]
        exact h.placed g

theorem Ordered.onSpawnFailed (h : Ordered mode s) (message : Bytes) (hopen : s.answered = false)
    (hnone : s.received = 0) : Ordered mode (s.onSpawnFailed mode message) := by
  rw [State.onSpawnFailed]
  cases State.failureFd mode with
  | none => exact ⟨h.placed, fun hopen => (by cases hopen), fun hopen => (by cases hopen)⟩
  | some fd =>
      refine ⟨fun g => ?_, fun hopen => (by cases hopen), fun hopen => (by cases hopen)⟩
      by_cases hg : g = fd
      · subst hg
        obtain ⟨hchunks, hout, hsent, hrelayed⟩ := h.fresh hopen hnone g
        simp only [Function.update_self, hrelayed, List.flatten_append, List.flatten_singleton]
        apply Placed.push
        · rw [hsent]
          exact Nat.zero_le _
        · rw [Relay.pending, hout, hchunks, List.flatten_nil, List.drop_nil]
          rfl
      · simp only [Function.update_of_ne hg]
        exact (h.placed g).frame (Function.update_of_ne hg _ _) rfl id

theorem Ordered.step (h : Ordered mode s) (step : Step mode s s') : Ordered mode s' := by
  cases step with
  | work work => exact h.work work
  | chunk fd data hmain hopen => exact h.onChunk fd data hopen
  | malformed hmain hopen => exact h.frame rfl rfl rfl id (fun hnone => absurd hnone (Nat.succ_ne_zero _))
  | answer hmain hopen => exact h.finish
  | spawnFailed message hmain hopen hnone => exact h.onSpawnFailed message hopen hnone
  | input wantOutput wantError output error hthread => exact h.frame rfl rfl rfl id id
  | pollInterrupted wantOutput wantError hthread => exact h.frame rfl rfl rfl id id
  | pollFailed wantOutput wantError hthread => exact h.frame rfl rfl rfl id id
  | release howner =>
      exact ⟨fun fd => (h.placed fd).drained (.inl rfl) rfl, fun hopen fd hclosed => rfl, fun hopen hnone fd =>
        ⟨(h.fresh hopen hnone fd).1, rfl, (h.fresh hopen hnone fd).2.2⟩⟩

/-! ## Waiting -/

/-- What the threads know of each other. -/
structure Coherent (s : State) : Prop where
  failing : s.main = .failing → s.answered = true
  finished : s.relay.finished = true → s.answered = true
  released : s.relay.released = true ↔ s.owner ≠ .before
  through : s.owner = .through → s.thread = .exited
  /-- A thread in `poll` that has not been notified wants to write just what is queued. -/
  waiting : s.answered = false → s.wake = false → ∀ wantOutput wantError,
    s.thread = .polling wantOutput wantError → s.relay.released = false ∧
      wantOutput = !(s.relay.out .stdout).isEmpty ∧ wantError = !(s.relay.out .stderr).isEmpty

theorem Coherent.owner_eq_before (h : Coherent s) (hreleased : s.relay.released = false) : s.owner = .before := by
  by_cases howner : s.owner = .before
  · exact howner
  · rw [h.released.2 howner] at hreleased
    cases hreleased

theorem Coherent.polled (h : Coherent s) {wantOutput wantError : Bool} (streams : List Fd)
    (hthread : s.thread = .polling wantOutput wantError) : Coherent (s.polled streams) where
  failing := h.failing
  finished := h.finished
  released := h.released
  through howner := by
    rw [h.through howner] at hthread
    cases hthread
  waiting hopen hwake wantOutput wantError hthread := by cases hthread

theorem Coherent.work (h : Coherent s) (work : Work s s') : Coherent s' := by
  cases work with
  | refuse hmain => exact ⟨fun hmain => (by cases hmain), h.finished, h.released, h.through, h.waiting⟩
  | runPosted chunks rest hmain hposted => exact ⟨h.failing, h.finished, h.released, h.through, h.waiting⟩
  | finish hmain => exact ⟨fun hmain => rfl, fun hfinished => rfl, h.released, h.through, fun hopen => by cases hopen⟩
  | check hthread =>
      have hthrough : s.owner = .through → False := by
        intro howner
        rw [h.through howner] at hthread
        cases hthread
      rw [State.check]
      split
      · exact ⟨h.failing, h.finished, h.released, fun howner => rfl, fun hopen hwake wantOutput wantError hthread => by
          cases hthread⟩
      · rename_i hreleased
        split
        · exact ⟨h.failing, h.finished, h.released, fun howner => rfl, fun hopen hwake wantOutput wantError hthread => by
            cases hthread⟩
        · refine ⟨h.failing, h.finished, h.released, fun howner => (hthrough howner).elim, ?_⟩
          intro hopen hwake wantOutput wantError hthread
          cases hthread
          exact ⟨Bool.eq_false_iff.2 hreleased, rfl, rfl⟩
  | polled wantOutput wantError output error hthread hevent => exact h.polled _ hthread
  | deliver fd streams delivered results hthread =>
      obtain ⟨hfinished, hreleased⟩ := deliver_finished fd results { relay := s.relay }
      refine ⟨h.failing, fun hf => h.finished (hfinished ▸ hf), ?_, ?_, fun hopen hwake wantOutput wantError hthread => by
        cases hthread⟩
      · show (deliver fd results { relay := s.relay }).relay.released = true ↔ s.owner ≠ .before
        rw [hreleased]
        exact h.released
      · intro howner
        rw [h.through howner] at hthread
        cases hthread
  | post delivered hthread =>
      refine ⟨h.failing, h.finished, h.released, ?_, fun hopen hwake wantOutput wantError hthread => by cases hthread⟩
      intro howner
      rw [h.through howner] at hthread
      cases hthread
  | join held howner hthread =>
      refine ⟨h.failing, h.finished, ?_, fun howner => hthread, h.waiting⟩
      refine ⟨fun hreleased howner => (by cases howner), fun hne => h.released.2 ?_⟩
      rw [howner]
      exact OwnerPc.noConfusion

theorem Coherent.step (h : Coherent s) (step : Step mode s s') : Coherent s' := by
  cases step with
  | work work => exact h.work work
  | chunk fd data hmain hopen =>
      rw [State.onChunk]
      split
      · exact ⟨h.failing, h.finished, h.released, h.through, fun hopen hwake => (by cases hwake)⟩
      · exact ⟨fun hmain => (by cases hmain), h.finished, h.released, h.through, h.waiting⟩
  | malformed hmain hopen => exact ⟨h.failing, h.finished, h.released, h.through, h.waiting⟩
  | answer hmain hopen =>
      exact ⟨fun hmain => rfl, fun hfinished => rfl, h.released, h.through, fun hopen => (by cases hopen)⟩
  | spawnFailed message hmain hopen hnone =>
      rw [State.onSpawnFailed]
      cases State.failureFd mode with
      | none => exact ⟨fun hmain => rfl, fun hf => rfl, h.released, h.through, fun hopen => (by cases hopen)⟩
      | some fd => exact ⟨fun hmain => rfl, fun hf => rfl, h.released, h.through, fun hopen => (by cases hopen)⟩
  | input wantOutput wantError output error hthread => exact h.polled _ hthread
  | pollInterrupted wantOutput wantError hthread =>
      refine ⟨h.failing, h.finished, h.released, ?_, fun hopen hwake wantOutput wantError hthread => by cases hthread⟩
      intro howner
      rw [h.through howner] at hthread
      cases hthread
  | pollFailed wantOutput wantError hthread =>
      exact ⟨h.failing, h.finished, h.released, fun howner => rfl, fun hopen hwake wantOutput wantError hthread => by
        cases hthread⟩
  | release howner =>
      exact ⟨h.failing, h.finished, ⟨fun hreleased howner => (by cases howner), fun hne => rfl⟩,
        fun howner => (by cases howner), fun hopen hwake => (by cases hwake)⟩

end Ned.Editor.Remote.Proc
