import Ned.Editor.Remote.Lemmas.Proc
import Mathlib.Logic.Relation

/-!
# The relay and its credit

What one step keeps holds in every run, and from every state before the spawn's answer the threads can give back
what they hold.
-/

namespace Ned.Editor.Remote.Proc

open Text Relation

variable {mode : StderrMode} {s s' : State} {fd : Fd}

/-! ## Runs -/

structure Sound (mode : StderrMode) (s : State) : Prop where
  counted : Counted s
  ordered : Ordered mode s
  coherent : Coherent s

theorem Sound.init : Sound mode {} where
  counted := fun hopen => rfl
  ordered := ⟨fun fd => .whole (Nat.le_refl 0) rfl, fun hopen fd hclosed => rfl, fun hopen hnone fd => ⟨rfl, rfl, rfl, rfl⟩⟩
  coherent := by
    refine ⟨fun hmain => ?_, fun hfinished => ?_, ⟨fun hreleased => ?_, fun hne => ?_⟩, fun howner => ?_,
      fun hopen hwake wantOutput wantError hthread => ?_⟩
    · cases hmain
    · cases hfinished
    · cases hreleased
    · exact absurd rfl hne
    · cases howner
    · cases hthread

theorem Sound.step (h : Sound mode s) (step : Step mode s s') : Sound mode s' :=
  ⟨h.counted.step step, h.ordered.step step, h.coherent.step step⟩

def Reachable (mode : StderrMode) (s : State) : Prop := ReflTransGen (Step mode) {} s

theorem Reachable.sound (h : Reachable mode s) : Sound mode s := by
  induction h with
  | refl => exact Sound.init
  | tail h step ih => exact ih.step step

/-! ## Credit -/

theorem Work.received (work : Work s s') : s'.received = s.received := by
  cases work with
  | check hthread =>
      rw [State.check]
      split
      · rfl
      · split
        · rfl
        · rfl
  | _ => rfl

theorem Work.answered (h : Coherent s) (hopen : s.answered = false) (work : Work s s') : s'.answered = false := by
  cases work with
  | finish hmain =>
      rw [h.failing hmain] at hopen
      cases hopen
  | check hthread =>
      rw [State.check]
      split
      · exact hopen
      · split
        · exact hopen
        · exact hopen
  | _ => exact hopen

theorem Sound.works (h : Sound mode s) (hopen : s.answered = false) (run : ReflTransGen Work s s') :
    Sound mode s' ∧ s'.answered = false ∧ s'.received = s.received := by
  induction run with
  | refl => exact ⟨h, hopen, rfl⟩
  | tail run work ih =>
      obtain ⟨hsound, hopen', hreceived⟩ := ih
      exact ⟨hsound.step (.work work), work.answered hsound.coherent hopen', work.received.trans hreceived⟩

theorem deliver_all (queue : List Bytes) : ∀ delivery : Delivery, delivery.relay.out fd = queue →
    (deliver fd (queue.map fun front => .took front.length) delivery).relay.out =
      Function.update delivery.relay.out fd [] := by
  induction queue with
  | nil =>
      intro delivery hout
      exact (Function.update_eq_self_iff.2 hout.symm).symm
  | cons front rest ih =>
      intro delivery hout
      have hall : min (delivery.relay.sent fd + front.length) front.length = front.length :=
        Nat.min_eq_right (Nat.le_add_left _ _)
      have htake : (delivery.take fd front.length front rest).relay.out =
          Function.update delivery.relay.out fd rest := by
        simp only [Delivery.take, hall, if_true]
      simp only [List.map_cons, deliver, hout]
      rw [ih _ (htake ▸ Function.update_self _ _ _), htake, Function.update_idem]

/-- Where every reader takes what there is, the thread gets back to its checks with nothing left for the streams
that it delivers. -/
theorem exists_looping {streams : List Fd} {delivered : Nat} (hthread : s.thread = .delivering streams delivered) :
    ∃ s', ReflTransGen Work s s' ∧ s'.thread = .looping ∧ s'.main = s.main ∧ s'.owner = s.owner ∧
      ∀ fd, fd ∈ streams ∨ s.relay.out fd = [] → s'.relay.out fd = [] := by
  induction streams generalizing s delivered with
  | nil =>
      refine ⟨s.post delivered, .single (.post delivered hthread), rfl, rfl, rfl, fun fd hfd => ?_⟩
      cases hfd with
      | inl hmem => cases hmem
      | inr hout => exact hout
  | cons fd streams ih =>
      have hout : (s.deliverTo fd ((s.relay.out fd).map fun front => .took front.length) streams delivered).relay.out =
          Function.update s.relay.out fd [] := deliver_all _ { relay := s.relay } rfl
      obtain ⟨s', run, hloop, hmain, howner, hempty⟩ := ih (s := s.deliverTo fd _ streams delivered) rfl
      refine ⟨s', .head (.deliver fd streams delivered _ hthread) run, hloop, hmain, howner, fun g hg => hempty g ?_⟩
      rw [hout]
      by_cases hne : g = fd
      · subst hne
        exact .inr (Function.update_self _ _ _)
      · rw [Function.update_of_ne hne]
        apply hg.imp_left
        intro hmem
        exact (List.mem_cons.1 hmem).resolve_left hne

/-- Nothing is queued and no thread is about to grant anything. -/
structure Rested (s : State) : Prop where
  main : s.main = .idle
  queues : ∀ fd, s.relay.out fd = []
  inHand : s.inHand = 0

theorem exists_rested_of_exited (h : Sound mode s) (hopen : s.answered = false) (hmain : s.main = .idle)
    (hthread : s.thread = .exited) (howner : s.owner ≠ .before) : ∃ s', ReflTransGen Work s s' ∧ Rested s' := by
  have hqueues (fd : Fd) : s.relay.out fd = [] :=
    h.ordered.drained hopen fd (.inl (h.coherent.released.2 howner))
  cases hpc : s.owner with
  | before => exact absurd hpc howner
  | holding held =>
      refine ⟨s.joined held, .single (.join held hpc hthread), hmain, hqueues, ?_⟩
      simp only [State.inHand, State.joined, hthread, hmain, RelayPc.inHand, MainPc.inHand, OwnerPc.inHand]
  | through =>
      refine ⟨s, .refl, hmain, hqueues, ?_⟩
      simp only [State.inHand, hthread, hmain, hpc, RelayPc.inHand, MainPc.inHand, OwnerPc.inHand]

theorem exists_rested_of_polling (hmain : s.main = .idle) (howner : s.owner = .before)
    (hthread : s.thread = .polling (!(s.relay.out .stdout).isEmpty) (!(s.relay.out .stderr).isEmpty)) :
    ∃ s', ReflTransGen Work s s' ∧ Rested s' := by
  by_cases hqueues : ∀ fd, s.relay.out fd = []
  · refine ⟨s, .refl, hmain, hqueues, ?_⟩
    simp only [State.inHand, hthread, hmain, howner, RelayPc.inHand, MainPc.inHand, OwnerPc.inHand]
  · have hready (fd : Fd) : fd ∈ ready (!(s.relay.out .stdout).isEmpty) (!(s.relay.out .stderr).isEmpty) true true ∨
        s.relay.out fd = [] := by
      cases hout : s.relay.out fd with
      | nil => exact .inr rfl
      | cons front rest =>
          apply Or.inl
          cases fd with
          | stdout => simp [ready, hout]
          | stderr => simp [ready, hout]
    have hevent : s.wake || !(s.relay.out .stdout).isEmpty && true || !(s.relay.out .stderr).isEmpty && true := by
      rw [Bool.and_true, Bool.and_true, Bool.or_assoc, Bool.or_eq_true]
      apply Or.inr
      cases hout : s.relay.out .stdout with
      | cons front rest => rfl
      | nil =>
          cases herr : s.relay.out .stderr with
          | cons front rest => rfl
          | nil =>
              refine absurd (fun fd => ?_) hqueues
              cases fd with
              | stdout => exact hout
              | stderr => exact herr
    obtain ⟨s', run, hloop, hmain', howner', hempty⟩ := exists_looping (s := s.polled _) rfl
    refine ⟨s', .head (.polled _ _ true true hthread hevent) run, hmain'.trans hmain, fun fd => hempty fd (hready fd), ?_⟩
    simp only [State.inHand, hloop, hmain', howner', State.polled, hmain, howner, RelayPc.inHand, MainPc.inHand,
      OwnerPc.inHand]

theorem exists_rested_of_looping (h : Sound mode s) (hopen : s.answered = false) (hmain : s.main = .idle)
    (hthread : s.thread = .looping) : ∃ s', ReflTransGen Work s s' ∧ Rested s' := by
  have hcheck : Work s s.check := .check hthread
  obtain ⟨hsound, hopen', -⟩ := h.works hopen (.single hcheck)
  have hfinished : s.relay.finished = false := by
    rw [Bool.eq_false_iff]
    intro hfinished
    rw [h.coherent.finished hfinished] at hopen
    cases hopen
  cases hreleased : s.relay.released with
  | true =>
      have hexit : s.check = { s with thread := .exited } := if_pos hreleased
      rw [hexit] at hcheck hsound
      obtain ⟨s', run, hrested⟩ := exists_rested_of_exited hsound hopen hmain rfl (h.coherent.released.1 hreleased)
      exact ⟨s', .head hcheck run, hrested⟩
  | false =>
      have hpoll : s.check =
          { s with thread := .polling (!(s.relay.out .stdout).isEmpty) (!(s.relay.out .stderr).isEmpty) } := by
        simp only [State.check, hreleased, hfinished, Bool.false_eq_true, if_false, Bool.false_and]
      rw [hpoll] at hcheck
      obtain ⟨s', run, hrested⟩ := exists_rested_of_polling 
        (s := { s with thread := .polling (!(s.relay.out .stdout).isEmpty) (!(s.relay.out .stderr).isEmpty) }) hmain
        (h.coherent.owner_eq_before hreleased) rfl
      exact ⟨s', .head hcheck run, hrested⟩

/-- Whatever the relay thread is doing, a run without arrivals leaves nothing queued, if the thread has not given
up before `Release`. -/
theorem exists_rested (h : Sound mode s) (hopen : s.answered = false) (hmain : s.main = .idle)
    (hthread : s.thread = .exited → s.owner ≠ .before) : ∃ s', ReflTransGen Work s s' ∧ Rested s' := by
  have hlooping (s₁ : State) (run : ReflTransGen Work s s₁) (hmain₁ : s₁.main = s.main)
      (hloop : s₁.thread = .looping) : ∃ s', ReflTransGen Work s s' ∧ Rested s' := by
    obtain ⟨hsound, hopen', -⟩ := h.works hopen run
    obtain ⟨s', run', hrested⟩ := exists_rested_of_looping hsound hopen' (hmain₁.trans hmain) hloop
    exact ⟨s', run.trans run', hrested⟩
  cases hpc : s.thread with
  | exited => exact exists_rested_of_exited h hopen hmain hpc (hthread hpc)
  | looping => exact hlooping s .refl rfl hpc
  | delivering streams delivered =>
      obtain ⟨s₁, run, hloop, hmain₁, howner, hempty⟩ := exists_looping hpc
      exact hlooping s₁ run hmain₁ hloop
  | polling wantOutput wantError =>
      cases hwake : s.wake with
      | true =>
          have hpolled : Work s (s.polled _) := .polled _ _ false false hpc (by rw [hwake]; rfl)
          obtain ⟨s₁, run, hloop, hmain₁, howner, hempty⟩ := exists_looping (s := s.polled _) rfl
          exact hlooping s₁ (.head hpolled run) hmain₁ hloop
      | false =>
          obtain ⟨hreleased, rfl, rfl⟩ := h.coherent.waiting hopen hwake _ _ hpc
          exact exists_rested_of_polling hmain (h.coherent.owner_eq_before hreleased) hpc

theorem exists_granted (posted : List Nat) : ∀ s, s.posted = posted → Rested s →
    ∃ s', ReflTransGen Work s s' ∧ Rested s' ∧ s'.posted = [] := by
  induction posted with
  | nil =>
      intro s hposted h
      exact ⟨s, .refl, h, hposted⟩
  | cons chunks rest ih =>
      intro s hposted h
      obtain ⟨s', run, hrested, hnone⟩ :=
        ih ({ s with posted := rest }.grant chunks) rfl ⟨h.main, h.queues, h.inHand⟩
      exact ⟨s', .head (.runPosted chunks rest h.main hposted) run, hrested, hnone⟩

theorem exists_all_granted (h : Sound mode s) (hopen : s.answered = false)
    (hthread : s.thread = .exited → s.owner ≠ .before) :
    ∃ s', ReflTransGen Work s s' ∧ s'.received = s.received ∧ s'.granted = s'.received := by
  have hidle : ∃ s₁, ReflTransGen Work s s₁ ∧ s₁.main = .idle ∧ s₁.thread = s.thread ∧ s₁.owner = s.owner := by
    cases hmain : s.main with
    | idle => exact ⟨s, .refl, hmain, rfl, rfl⟩
    | refusing => exact ⟨_, .single (.refuse hmain), rfl, rfl, rfl⟩
    | failing =>
        rw [h.coherent.failing hmain] at hopen
        cases hopen
  obtain ⟨s₁, run₁, hmain, hthread₁, howner⟩ := hidle
  obtain ⟨hsound₁, hopen₁, -⟩ := h.works hopen run₁
  rw [← hthread₁, ← howner] at hthread
  obtain ⟨s₂, run₂, hrested⟩ := exists_rested hsound₁ hopen₁ hmain hthread
  obtain ⟨s₃, run₃, hrested₃, hposted⟩ := exists_granted s₂.posted s₂ rfl hrested
  have run : ReflTransGen Work s s₃ := (run₁.trans run₂).trans run₃
  obtain ⟨hsound, hopen₃, hreceived⟩ := h.works hopen run
  refine ⟨s₃, run, hreceived, ?_⟩
  have hcount := hsound.counted hopen₃
  rwa [hposted, Relay.queued_eq_zero.2 hrested₃.queues, hrested₃.inHand] at hcount

/-! ## The relay -/

/-- In every run the bytes sent on each stream are a prefix of its chunks in the order in which they came. Until
the spawn is answered each chunk that came is granted once, in a posted grant once, queued once, or in the hands of
a thread that is about to grant it or to post a grant for it; and without more output the threads can grant all of
them, after `Release` where the relay thread has given up. -/
theorem relays_in_order (mode : StderrMode) (s : State) (h : Reachable mode s) :
    (∀ fd, s.relayed fd <+: (s.chunks fd).flatten) ∧
      (s.answered = false →
        s.granted + s.posted.sum + s.relay.queued + s.inHand = s.received ∧
        ∃ s₁ s₂, (s₁ = s ∨ s.thread = .exited ∧ s.owner = .before ∧ s₁ = s.release) ∧
          ReflTransGen Work s₁ s₂ ∧ s₂.received = s.received ∧ s₂.granted = s₂.received) := by
  have hsound := h.sound
  refine ⟨fun fd => (hsound.ordered.placed fd).isPrefix, fun hopen => ⟨hsound.counted hopen, ?_⟩⟩
  by_cases hgone : s.thread = .exited ∧ s.owner = .before
  · have hreleased := hsound.step (.release hgone.2)
    obtain ⟨s₂, run, hreceived, hgranted⟩ := exists_all_granted hreleased hopen (fun _ => OwnerPc.noConfusion)
    exact ⟨s.release, s₂, .inr ⟨hgone.1, hgone.2, rfl⟩, run, hreceived, hgranted⟩
  · obtain ⟨s₂, run, hreceived, hgranted⟩ :=
      exists_all_granted hsound hopen (fun hthread howner => hgone ⟨hthread, howner⟩)
    exact ⟨s, s₂, .inl rfl, run, hreceived, hgranted⟩

/-- A chunk of which the first byte has been sent. -/
def halfSent : State :=
  (((({} : State).onChunk .capture .stdout [104, 105]).check).polled [.stdout]).deliverTo .stdout [.took 1] [] 0

theorem halfSent_reachable : Reachable .capture halfSent :=
  ((((ReflTransGen.refl.tail (.chunk .stdout [104, 105] rfl rfl)).tail (.work (.check rfl))).tail
    (.work (.polled true false true false rfl rfl))).tail (.work (.deliver .stdout [] 0 [.took 1] rfl)))

theorem relays_half_sent :
    halfSent.relayed .stdout = [104] ∧ (∀ fd, halfSent.relayed fd <+: (halfSent.chunks fd).flatten) ∧
      halfSent.granted + halfSent.posted.sum + halfSent.relay.queued + halfSent.inHand = halfSent.received := by
  obtain ⟨hbegins, hcredit⟩ := relays_in_order .capture halfSent halfSent_reachable
  exact ⟨rfl, hbegins, (hcredit rfl).1⟩

/-- `Release` counts the chunks it drops before it waits for the relay thread, and posts their grant after that. -/
theorem not_granted_or_queued :
    ¬∀ (mode : StderrMode) (s : State), Reachable mode s → s.answered = false →
      s.granted + s.posted.sum + s.relay.queued = s.received := by
  intro h
  have hcount := h .capture ((({} : State).onChunk .capture .stdout [104, 105]).release)
    ((ReflTransGen.refl.tail (.chunk .stdout [104, 105] rfl rfl)).tail (.release rfl)) rfl
  cases hcount

end Ned.Editor.Remote.Proc
