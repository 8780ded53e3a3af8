import Ned.Text.Lemmas.Session

/-!
# Anchors over a session

An anchor and the edit journal tell the same story for as long as the anchor lives, and a handle
whose anchor is gone never resolves again.
-/

namespace Ned.Text

open Ned.Library Tracking

namespace Session

variable {p : Platform}

/-- How many anchors an operation creates. -/
def anchorsCreated : Operation → Nat
  | .createAnchor .. => 1
  | _ => 0

/-- How many anchors a script creates. -/
def totalAnchors (ops : List Operation) : Nat := (ops.map anchorsCreated).sum

/-- There are fewer anchors than versions. -/
def anchorLimit : Nat := 2 ^ 32

/-! ## One step -/

theorem step_createAnchor {s s' : Session} {o : Nat} {q : AnchorPolicy}
    (h : s.step p (.createAnchor o q) = some s') :
    s'.buffer.toTracking = (s.buffer.toTracking.createAnchor o q).2 := by
  cases h
  rfl

theorem step_destroyAnchor {s s' : Session} {id : AnchorId}
    (h : s.step p (.destroyAnchor id) = some s') :
    s'.buffer.toTracking = s.buffer.toTracking.destroyAnchor id := by
  cases h
  rfl

/-- A step, as the tracking sees it. -/
theorem step_cases {s s' : Session} {op : Operation} (h : s.step p op = some s') :
    (∃ o q, op = .createAnchor o q ∧
        s'.buffer.toTracking = (s.buffer.toTracking.createAnchor o q).2) ∨
      (∃ id, op = .destroyAnchor id ∧
        s'.buffer.toTracking = s.buffer.toTracking.destroyAnchor id) ∨
      (anchorsCreated op = 0 ∧ s.buffer.toTracking.Advances s'.buffer.toTracking) := by
  by_cases hop : isAnchorOperation op = true
  · cases op with
    | createAnchor o q => exact Or.inl ⟨o, q, rfl, step_createAnchor h⟩
    | destroyAnchor id => exact Or.inr (Or.inl ⟨id, rfl, step_destroyAnchor h⟩)
    | _ => cases hop
  · have hop := Bool.eq_false_iff.2 hop
    refine Or.inr (Or.inr ⟨?_, step_advances hop h⟩)
    cases op with
    | createAnchor o q => cases hop
    | _ => rfl

/-- The tracking follows some history. -/
def Tracked (created : Nat) (s : Session) : Prop :=
  ∃ history, Follows s.buffer.toTracking created history

/-- The anchor lives, and its entry has followed everything since generation `g`. -/
def AnchorLives (id : AnchorId) (o g : Nat) (q : AnchorPolicy) (created : Nat) (s : Session) : Prop :=
  ∃ history, Follows s.buffer.toTracking created history ∧
    Anchored s.buffer.toTracking history id o g q

/-- The anchor is gone for good. -/
def AnchorGone (id : AnchorId) (created : Nat) (s : Session) : Prop :=
  ∃ history, Follows s.buffer.toTracking created history ∧
    s.buffer.anchors.Gone id created

section Steps

variable {s s' : Session} {op : Operation} {created : Nat}

theorem Tracked.step (h : Tracked created s) (hbound : created + anchorsCreated op < anchorLimit)
    (hstep : s.step p op = some s') : Tracked (created + anchorsCreated op) s' := by
  obtain ⟨history, hf⟩ := h
  rcases step_cases hstep with ⟨o, q, rfl, ht⟩ | ⟨id, rfl, ht⟩ | ⟨hzero, ht | ⟨c, ht⟩⟩
  · exact ⟨history, ht ▸ hf.create hbound⟩
  · exact ⟨history, ht ▸ hf.destroy id⟩
  · exact ⟨history, by rw [hzero, ht]; exact hf⟩
  · exact ⟨_, by rw [hzero, ht]; exact hf.commit c⟩

theorem AnchorLives.step {id : AnchorId} {o g : Nat} {q : AnchorPolicy}
    (h : AnchorLives id o g q created s) (hop : op ≠ .destroyAnchor id)
    (hbound : created + anchorsCreated op < anchorLimit) (hstep : s.step p op = some s') :
    AnchorLives id o g q (created + anchorsCreated op) s' := by
  obtain ⟨history, hf, ha⟩ := h
  rcases step_cases hstep with ⟨o', q', rfl, ht⟩ | ⟨id', rfl, ht⟩ | ⟨hzero, ht | ⟨c, ht⟩⟩
  · exact ⟨history, ht ▸ hf.create hbound, ha.1, ht ▸ ha.2.create hf.wellFormed.freeSlots rfl⟩
  · have hne : id' ≠ id := fun heq => hop (heq ▸ rfl)
    exact ⟨history, ht ▸ hf.destroy id', ha.1, ht ▸ ha.2.destroy hne⟩
  · exact ⟨history, by rw [hzero, ht]; exact hf, by rw [ht]; exact ha⟩
  · exact ⟨_, by rw [hzero, ht]; exact hf.commit c, by rw [ht]; exact ha.commit hf c⟩

theorem AnchorGone.step {id : AnchorId} (h : AnchorGone id created s)
    (hbound : created + anchorsCreated op < anchorLimit) (hstep : s.step p op = some s') :
    AnchorGone id (created + anchorsCreated op) s' := by
  obtain ⟨history, hf, hg⟩ := h
  rcases step_cases hstep with ⟨o, q, rfl, ht⟩ | ⟨id', rfl, ht⟩ | ⟨hzero, ht | ⟨c, ht⟩⟩
  · exact ⟨history, ht ▸ hf.create hbound, ht ▸ hg.create hf.wellFormed hbound rfl⟩
  · exact ⟨history, ht ▸ hf.destroy id', ht ▸ hg.destroy⟩
  · exact ⟨history, by rw [hzero, ht]; exact hf, by rw [hzero, ht]; exact hg⟩
  · obtain ⟨-, -, f, hrel⟩ := commit_spec s.buffer.toTracking c
    exact ⟨_, by rw [hzero, ht]; exact hf.commit c, by rw [hzero, ht]; exact hrel.gone hg⟩

end Steps

/-! ## Whole runs -/

section Runs

variable {s s' : Session} {ops : List Operation} {created : Nat}

theorem Tracked.run (h : Tracked created s) (hbound : created + totalAnchors ops < anchorLimit)
    (hrun : Library.run (Session.step p) s ops = some s') :
    Tracked (created + totalAnchors ops) s' :=
  run_invariant_counted Tracked anchorsCreated anchorLimit (fun _ => True)
    (fun _ _ _ _ h _ hbound hstep => h.step hbound hstep) h (fun _ _ => trivial) hbound hrun

theorem AnchorLives.run {id : AnchorId} {o g : Nat} {q : AnchorPolicy}
    (h : AnchorLives id o g q created s) (hops : .destroyAnchor id ∉ ops)
    (hbound : created + totalAnchors ops < anchorLimit)
    (hrun : Library.run (Session.step p) s ops = some s') :
    AnchorLives id o g q (created + totalAnchors ops) s' :=
  run_invariant_counted (AnchorLives id o g q) anchorsCreated anchorLimit (· ≠ .destroyAnchor id)
    (fun _ _ _ _ h hop hbound hstep => h.step hop hbound hstep) h
    (fun _ hop heq => hops (heq ▸ hop)) hbound hrun

theorem AnchorGone.run {id : AnchorId} (h : AnchorGone id created s)
    (hbound : created + totalAnchors ops < anchorLimit)
    (hrun : Library.run (Session.step p) s ops = some s') :
    AnchorGone id (created + totalAnchors ops) s' :=
  run_invariant_counted (AnchorGone id) anchorsCreated anchorLimit (fun _ => True)
    (fun _ _ _ _ h _ hbound hstep => h.step hbound hstep) h (fun _ _ => trivial) hbound hrun

theorem AnchorLives.destroy {id : AnchorId} {o g : Nat} {q : AnchorPolicy}
    (h : AnchorLives id o g q created s) (hstep : s.step p (.destroyAnchor id) = some s') :
    AnchorGone id created s' := by
  obtain ⟨history, hf, ha⟩ := h
  have ht := step_destroyAnchor hstep
  exact ⟨history, ht ▸ hf.destroy id, ht ▸ ha.2.destroy_self hf.wellFormed⟩

theorem Tracked.create {o : Nat} {q : AnchorPolicy} (h : Tracked created s)
    (hbound : created + 1 < anchorLimit) (hstep : s.step p (.createAnchor o q) = some s') :
    AnchorLives (s.buffer.toTracking.createAnchor o q).1 o s.buffer.contentGeneration q
      (created + 1) s' := by
  obtain ⟨history, hf⟩ := h
  have ht := step_createAnchor hstep
  refine ⟨history, ht ▸ hf.create hbound, Nat.le_of_eq hf.generation, ht ▸ ?_⟩
  rw [hf.generation, List.drop_length]
  exact hf.wellFormed.create_carries hbound rfl

end Runs

/-- Over any run of a new buffer, an anchor that has not been destroyed resolves to what the journal
relocates its offset to, for as long as the journal reaches its creation; and once it has been
destroyed it resolves to nothing. -/
theorem anchor_follows_journal {b : Buffer} (hb : b.toTracking = .initial)
    (before after : List Operation) {o : Nat} {q : AnchorPolicy} {s₁ s₂ s₃ : Session}
    (hbefore : Library.run (Session.step p) (ofBuffer b) before = some s₁)
    (hcreate : s₁.step p (.createAnchor o q) = some s₂)
    (hafter : Library.run (Session.step p) s₂ after = some s₃)
    (hlimit : totalAnchors (before ++ .createAnchor o q :: after) < anchorLimit) :
    (.destroyAnchor (s₁.buffer.toTracking.createAnchor o q).1 ∉ after →
      s₃.buffer.edits.oldestReachableGeneration ≤ s₁.buffer.contentGeneration →
      s₃.buffer.anchorOffset (s₁.buffer.toTracking.createAnchor o q).1 =
        s₃.buffer.edits.relocate o s₁.buffer.contentGeneration q) ∧
    (.destroyAnchor (s₁.buffer.toTracking.createAnchor o q).1 ∈ after →
      s₃.buffer.anchorOffset (s₁.buffer.toTracking.createAnchor o q).1 = none) := by
  have htotal : totalAnchors (before ++ .createAnchor o q :: after) =
      0 + totalAnchors before + 1 + totalAnchors after := by
    simp [totalAnchors, anchorsCreated]
    omega
  rw [htotal] at hlimit
  have hinit : Tracked 0 (ofBuffer b) := ⟨[], hb ▸ follows_initial⟩
  have htracked := hinit.run (by omega) hbefore
  have hlives := htracked.create (by omega) hcreate
  refine ⟨fun hnot hreach => ?_, fun hdestroyed => ?_⟩
  · obtain ⟨history, hf, ha⟩ := hlives.run hnot hlimit hafter
    exact ha.offset_eq hf hreach
  · -- the anchor lives up to the first time it is destroyed, and is gone from then on
    obtain ⟨living, rest, rfl, hfirst⟩ := List.eq_append_cons_of_mem hdestroyed
    rw [run_append] at hafter
    obtain ⟨s₄, hliving, hafter⟩ := Option.bind_eq_some_iff.1 hafter
    obtain ⟨s₅, hdestroy, hrest⟩ := run_cons_eq_some.1 hafter
    have hsplit : ∀ id, totalAnchors (living ++ .destroyAnchor id :: rest) =
        totalAnchors living + totalAnchors rest := by
      intro id
      simp [totalAnchors, anchorsCreated]
    rw [hsplit] at hlimit
    have hgone := (hlives.run hfirst (by omega) hliving).destroy hdestroy
    obtain ⟨history, -, hgone⟩ := hgone.run (by omega) hrest
    exact hgone.offset

/-- An anchor at 2 in "abc", followed through a deletion before it. -/
theorem anchor_follows_journal_sample :
    let step := Session.step { graphemeBreak := fun s _ _ => (true, s), keySort := .insertion }
    ∃ s₁ s₂ s₃ : Session,
      Library.run step (ofBuffer (.ofStorage "sample" { bytes := [97, 98, 99, 100], huge := false }))
        [.deleteRange 3 1] = some s₁ ∧
      step s₁ (.createAnchor 2 {}) = some s₂ ∧
      Library.run step s₂ [.deleteRange 0 1] = some s₃ ∧
      s₃.buffer.anchorOffset (s₁.buffer.toTracking.createAnchor 2 {}).1 =
        s₃.buffer.edits.relocate 2 s₁.buffer.contentGeneration {} := by
  refine ⟨_, _, _, rfl, rfl, rfl, ?_⟩
  exact (anchor_follows_journal (b := .ofStorage "sample" { bytes := [97, 98, 99, 100], huge := false })
    rfl [.deleteRange 3 1] [.deleteRange 0 1] rfl rfl rfl (by decide)).1 (by decide) (by decide)

end Session

end Ned.Text
