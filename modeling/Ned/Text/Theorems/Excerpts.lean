import Ned.Text.Lemmas.Excerpts
import Ned.Text.Theorems.Saves

/-!
# Excerpts

The chrome of a composite buffer is never edited, and returning to a node of the undo tree puts its
excerpts back, as long as no move goes to a node that was recorded before the excerpts were set.
-/

namespace Ned.Text

open Ned.Library

/-! ## Before there are excerpts -/

namespace UndoRecording

variable {r r' : UndoRecording} {storage : Storage} {offsets : List (Nat × Nat)}

/-- The tree is well-formed, and where no edit of an open group is pending, its current node holds
the content. -/
structure Ready (storage : Storage) (r : UndoRecording) : Prop where
  wellFormed : r.undoTree.WellFormed
  depth : r.undoGroupDepth = 0 → r.undoGroupDirty = false
  current : r.undoGroupDirty = false → r.undoTree.currentState = some storage

theorem wellFormed_of_record (hwf : r.undoTree.WellFormed)
    (h : r.undoTree.record storage = some r'.undoTree) : r'.undoTree.WellFormed := by
  obtain ⟨tree, htree, htreewf⟩ := hwf.record storage
  exact Option.some.inj (htree.symm.trans h) ▸ htreewf

theorem wellFormed_of_amend (hwf : r.undoTree.WellFormed)
    (h : r.undoTree.amend storage = some r'.undoTree) : r'.undoTree.WellFormed := by
  obtain ⟨tree, htree, htreewf⟩ := hwf.amend storage
  exact Option.some.inj (htree.symm.trans h) ▸ htreewf

theorem Ready.recordOrAmendUndo {old : Storage} {canAmend : Bool} (h : Ready old r)
    (hrec : r.recordOrAmendUndo storage offsets canAmend = some r') : Ready storage r' := by
  simp only [UndoRecording.recordOrAmendUndo] at hrec
  split at hrec
  · rename_i hopen
    cases hrec
    refine ⟨h.wellFormed, fun hclosed => ?_, fun hclean => by cases hclean⟩
    exact absurd hclosed (Nat.pos_iff_ne_zero.1 hopen)
  · rename_i hclosed
    have hclosed : r.undoGroupDepth = 0 := Nat.eq_zero_of_not_pos hclosed
    split at hrec
    · obtain ⟨htree, -⟩ := amend_spec hrec
      obtain ⟨-, hdirty⟩ := amend_group hrec
      have hwf := wellFormed_of_amend (r := r) h.wellFormed htree
      exact ⟨hwf, fun _ => hdirty.trans (h.depth hclosed),
        fun _ => (UndoTree.amend_currentState htree).1⟩
    · obtain ⟨recorded, hrecorded, hrec⟩ := Option.bind_eq_some_iff.1 hrec
      cases hrec
      obtain ⟨htree, -⟩ := record_spec hrecorded
      obtain ⟨-, hdirty⟩ := record_group hrecorded
      have hwf := wellFormed_of_record (r := r) h.wellFormed htree
      exact ⟨hwf, fun _ => hdirty.trans (h.depth hclosed),
        fun _ => (UndoTree.record_currentState htree).1⟩

theorem Ready.endUndoGroup (h : Ready storage r) (hrec : r.endUndoGroup storage offsets = some r') :
    Ready storage r' := by
  simp only [UndoRecording.endUndoGroup] at hrec
  split at hrec
  · cases hrec
    exact h
  · split at hrec
    · obtain ⟨recorded, hrecorded, hrec⟩ := Option.bind_eq_some_iff.1 hrec
      cases hrec
      obtain ⟨htree, -⟩ := record_spec hrecorded
      have hwf := wellFormed_of_record (r := r) h.wellFormed htree
      exact ⟨hwf, fun _ => rfl, fun _ => (UndoTree.record_currentState htree).1⟩
    · rename_i hopen
      cases hrec
      refine ⟨h.wellFormed, fun hclosed => ?_, h.current⟩
      exact Bool.eq_false_iff.2 fun hdirty => hopen ⟨hclosed, hdirty⟩

end UndoRecording

namespace Session

variable {p : Platform}

/-- A buffer outside any load, as its editing operations leave it. -/
structure Ready (s : Session) : Prop where
  recording : s.buffer.toUndoRecording.Ready s.buffer.storage
  point : s.buffer.point ≤ s.buffer.storage.byteLength

theorem ready_ofBuffer {b : Buffer} (h : b.Opened) : Ready (ofBuffer b) := by
  cases h with
  | ofStorage name storage =>
      exact ⟨⟨UndoTree.wellFormed_ofState storage, fun _ => rfl, fun _ => rfl⟩, Nat.zero_le _⟩
  | placeholder name forceReadOnly =>
      exact ⟨⟨UndoTree.wellFormed_ofState .empty, fun _ => rfl, fun _ => rfl⟩, Nat.zero_le _⟩

theorem Ready.step {s s' : Session} {op : Operation} (h : Ready s) (hop : Edits op)
    (hstep : s.step p op = some s') : Ready s' := by
  have hedit := editStep hop h.point hstep
  refine ⟨?_, hedit.point h.point⟩
  obtain ⟨hwf, hdepth, hcurrent⟩ := h.recording
  cases hedit with
  | idle => exact h.recording
  | wrote hb =>
      cases hb with
      | unmoved hb => simpa only [hb.recording, hb.storage] using h.recording
      | inserted _ _ hb => exact h.recording.recordOrAmendUndo hb.recording
      | erased _ _ hb => exact h.recording.recordOrAmendUndo hb.recording
  | moved hb =>
      simp only [hb.recording, hb.storage]
      exact ⟨hwf, hdepth, hcurrent⟩
  | marked hb =>
      obtain ⟨recording, hrecording, hb⟩ := Option.bind_eq_some_iff.1 hb
      cases hb
      obtain ⟨hgroupDepth, hgroupDirty⟩ := UndoRecording.snapshot_group hrecording
      obtain ⟨htree, -⟩ := UndoRecording.snapshotExcerptRangeOffsets_spec hrecording
      refine ⟨htree ▸ hwf, fun hzero => ?_, fun hclean => ?_⟩
      · exact hgroupDirty.trans (hdepth (hgroupDepth.symm.trans hzero))
      · have hstate := hcurrent (hgroupDirty.symm.trans hclean)
        exact htree ▸ hstate
  | begunGroup =>
      refine ⟨hwf, fun hzero => ?_, hcurrent⟩
      cases hzero
  | endedGroup hb =>
      obtain ⟨recording, hrecording, hb⟩ := Option.bind_eq_some_iff.1 hb
      cases hb
      exact h.recording.endUndoGroup hrecording
  | navigated hmoves hb =>
      have hrestored := Buffer.navigate_spec hb
      simp only [hrestored.recording]
      exact ⟨(hmoves.sameStates hwf).1, hdepth, fun _ => hrestored.current⟩
  | saved _ hb => simpa only [hb.recording, hb.storage] using h.recording

theorem ready_of_run {b : Buffer} (hb : b.Opened) {ops : List Operation} {s : Session}
    (hops : ∀ op ∈ ops, Edits op) (hrun : run (step p) (ofBuffer b) ops = some s) : Ready s :=
  have hadmissible : Admissible (step p) (fun _ op => Edits op) (ofBuffer b) ops :=
    admissible_of_forall hops
  run_invariant_of_admissible Ready (fun _ _ _ h hop hstep => h.step hop hstep) (ready_ofBuffer hb)
    hadmissible hrun

/-! ## While there are excerpts -/

/-- The operations on a composite buffer, whose excerpts are set once. -/
def EditsExcerpts (op : Operation) : Prop := Edits op ∧ ∀ ranges, op ≠ .setExcerptRanges ranges

/-- A move goes to a node that was recorded since this session, or to its current node. -/
def StaysAbove (first s : Session) (op : Operation) : Prop :=
  ∀ tree sequence, s.MovesTo op tree → tree.currentSequence = some sequence →
    first.buffer.undoTree.currentSequence = some sequence ∨
      first.buffer.undoTree.nextSequence ≤ sequence

/-- Not at this node, or inside an undo group. -/
def AwayFrom (sequence : Nat) (s : Session) : Prop :=
  ¬(s.buffer.undoTree.currentSequence = some sequence ∧ s.buffer.undoGroupDepth = 0)

structure Guarded (frame : Frame) (start first : Nat) (s : Session) : Prop where
  guards : s.buffer.toUndoRecording.Guards frame start first s.buffer.storage.bytes
    s.buffer.excerptRanges
  nonempty : s.buffer.excerptRanges ≠ []
  point : s.buffer.point ≤ s.buffer.storage.byteLength

section Steps

variable {frame : Frame} {start first : Nat} {s s' : Session} {b : Buffer}

theorem map_ne_nil {ranges : List ExcerptRange} {move : ExcerptRange → ExcerptRange}
    (h : ranges ≠ []) : ranges.map move ≠ [] := mt List.map_eq_nil_iff.1 h

/-- A move to a tracked node puts back the ranges it keeps. -/
theorem Guarded.navigated (h : Guarded frame start first s) {op : Operation} {tree : UndoTree}
    {sequence : Nat} (hmoves : s.MovesTo op tree) (hsequence : tree.currentSequence = some sequence)
    (htracked : UndoRecording.Tracked start first sequence) (hb : s.buffer.navigate p tree = some b) :
    s.buffer.excerptRangeOffsetSnapshots.lookup sequence =
        some (ExcerptRange.offsets b.excerptRanges) ∧
      b.excerptRanges.map (·.editable) = s.buffer.excerptRanges.map (·.editable) ∧
      b.toUndoRecording.Guards frame start first b.storage.bytes b.excerptRanges := by
  obtain ⟨hwf, hsame⟩ := hmoves.sameStates h.guards.wellFormed
  have hrestored := Buffer.navigate_spec hb
  have htarget : tree.currentState = some b.storage := hrestored.current
  obtain ⟨ranges, hlookup, hguards⟩ := h.guards.move hwf hsame htarget hsequence htracked
  have heditables := h.guards.holds.editables hguards.holds
  have hlength : (ExcerptRange.offsets ranges).length = s.buffer.excerptRanges.length := by
    rw [ExcerptRange.offsets, List.length_map, ← List.length_map (·.editable), heditables,
      List.length_map]
  have hranges : b.excerptRanges = ranges := by
    rw [Buffer.navigate_excerptRanges hsequence hlookup hlength hb]
    exact ExcerptRange.withOffsets_offsets heditables
  rw [hranges, hrestored.recording]
  exact ⟨hlookup, heditables, hguards⟩

theorem Guarded.step (h : Guarded frame start first s) {op : Operation} (hop : EditsExcerpts op)
    (habove : ∀ tree sequence, s.MovesTo op tree → tree.currentSequence = some sequence →
      UndoRecording.Tracked start first sequence) (hstep : s.step p op = some s') :
    Guarded frame start first s' ∧
      s.buffer.toUndoRecording.KeepsSettled s'.buffer.toUndoRecording := by
  have hedit := editStep hop.1 h.point hstep
  have hpoint := hedit.point h.point
  cases hedit with
  | idle => exact ⟨h, fun _ _ => rfl⟩
  | wrote hb =>
      cases hb with
      | unmoved hb =>
          refine ⟨⟨?_, ?_, hpoint⟩, fun _ _ => ?_⟩
          · simpa only [hb.recording, hb.storage, hb.excerptRanges] using h.guards
          · simpa only [hb.excerptRanges] using h.nonempty
          · simp only [hb.recording]
      | @inserted offset text allowed bytes hb =>
          have hholds := h.guards.holds.insert rfl h.nonempty allowed text
          rw [← bytes, ← hb.excerptRanges] at hholds
          have hne := hb.excerptRanges ▸ map_ne_nil h.nonempty
          obtain ⟨hguards, hkeeps⟩ := h.guards.recordOrAmendUndo hholds hne hb.recording
          exact ⟨⟨hguards, hne, hpoint⟩, hkeeps⟩
      | @erased start length allowed bytes hb =>
          have hholds := h.guards.holds.erase rfl h.nonempty allowed
          rw [← bytes, ← hb.excerptRanges] at hholds
          have hne := hb.excerptRanges ▸ map_ne_nil h.nonempty
          obtain ⟨hguards, hkeeps⟩ := h.guards.recordOrAmendUndo hholds hne hb.recording
          exact ⟨⟨hguards, hne, hpoint⟩, hkeeps⟩
  | moved hb =>
      refine ⟨⟨?_, ?_, hpoint⟩, fun _ _ => ?_⟩
      · obtain ⟨⟨hwf, hfirst, hhere, hnodes⟩, hholds, hdepth, hsettled⟩ := h.guards
        simp only [hb.recording, hb.storage, hb.excerptRanges]
        exact ⟨⟨hwf, hfirst, hhere, hnodes⟩, hholds, hdepth, hsettled⟩
      · simpa only [hb.excerptRanges] using h.nonempty
      · simp only [hb.recording]
  | @marked ranges => exact absurd rfl (hop.2 ranges)
  | begunGroup =>
      obtain ⟨hguards, hkeeps⟩ := h.guards.beginUndoGroup
      exact ⟨⟨hguards, h.nonempty, hpoint⟩, hkeeps⟩
  | endedGroup hb =>
      obtain ⟨recording, hrecording, hb⟩ := Option.bind_eq_some_iff.1 hb
      cases hb
      obtain ⟨hguards, hkeeps⟩ := h.guards.endUndoGroup h.nonempty hrecording
      exact ⟨⟨hguards, h.nonempty, hpoint⟩, hkeeps⟩
  | @navigated _ tree b hmoves hb =>
      obtain ⟨node, hnode⟩ := (hmoves.sameStates h.guards.wellFormed).1.current
      have hsequence := UndoRecording.currentSequence_of_node hnode
      obtain ⟨-, heditables, hguards⟩ :=
        h.navigated hmoves hsequence (habove _ _ hmoves hsequence) hb
      refine ⟨⟨hguards, fun hnil => ?_, hpoint⟩, fun _ _ => ?_⟩
      · have hnil : b.excerptRanges = [] := hnil
        rw [hnil, List.map_nil, eq_comm, List.map_eq_nil_iff] at heditables
        exact h.nonempty heditables
      · simp only [(Buffer.navigate_spec hb).recording]
  | saved _ hb =>
      refine ⟨⟨?_, ?_, hpoint⟩, fun _ _ => ?_⟩
      · simpa only [hb.recording, hb.storage, hb.excerptRanges] using h.guards
      · simpa only [hb.excerptRanges] using h.nonempty
      · simp only [hb.recording]

end Steps

/-! ## Runs -/

/-- The same bytes lie outside the editable ranges, and the same between the ranges. -/
structure ChromeKept (first s : Session) : Prop where
  separated : ExcerptRange.Separated s.buffer.storage.byteLength s.buffer.excerptRanges
  outside : ExcerptRange.outside s.buffer.excerptRanges s.buffer.storage.bytes =
    ExcerptRange.outside first.buffer.excerptRanges first.buffer.storage.bytes
  gaps : ExcerptRange.gaps s.buffer.excerptRanges s.buffer.storage.bytes =
    ExcerptRange.gaps first.buffer.excerptRanges first.buffer.storage.bytes

theorem Ready.setExcerptRanges {s s' : Session} (h : Ready s) {ranges : List ExcerptRange}
    (hclosed : s.buffer.undoGroupDepth = 0) (hne : ranges ≠ [])
    (hseparated : ExcerptRange.Separated s.buffer.storage.byteLength ranges)
    (hstep : s.step p (.setExcerptRanges ranges) = some s') :
    ∃ frame start, s'.buffer.undoTree.currentSequence = some start ∧
      Guarded frame start s'.buffer.undoTree.nextSequence s' := by
  obtain ⟨b, hb, rfl⟩ := update_eq_some hstep
  obtain ⟨recording, hrecording, hb⟩ := Option.bind_eq_some_iff.1 hb
  cases hb
  have hoffsets : ExcerptRange.offsets ranges ≠ [] := mt List.map_eq_nil_iff.1 hne
  obtain ⟨htree, hdepth, hdirty, hsettled, -⟩ := UndoRecording.snapshot_spec hoffsets hrecording
  have htree : recording.undoTree = s.buffer.undoTree := htree
  have hdirty : recording.undoGroupDirty = false := hdirty.trans (h.recording.depth hclosed)
  obtain ⟨frame, hholds⟩ := Frame.exists_holds hseparated
  obtain ⟨node, hnode⟩ := h.recording.wellFormed.current
  have hsequence := UndoRecording.currentSequence_of_node hnode
  have hstate : node.state = s.buffer.storage := by
    have hcurrent := h.recording.current (h.recording.depth hclosed)
    rw [UndoTree.currentState, UndoTree.currentNode, hnode] at hcurrent
    exact Option.some.inj hcurrent
  refine ⟨frame, node.sequence, (htree ▸ hsequence :), ⟨⟨⟨?_, Nat.le_refl _, ?_, ?_⟩, hholds,
    fun _ => hdirty, fun _ => hsettled⟩, hne, h.point⟩⟩
  · exact htree ▸ h.recording.wellFormed
  · intro sequence hcurrent
    have hcurrent : recording.undoTree.currentSequence = some sequence := hcurrent
    rw [htree, hsequence] at hcurrent
    exact Or.inl (Option.some.inj hcurrent).symm
  · intro i c hi htracked
    have hi : recording.undoTree.nodes[i]? = some c := hi
    have htracked : UndoRecording.Tracked node.sequence recording.undoTree.nextSequence c.sequence :=
      htracked
    rw [htree] at hi htracked
    obtain ⟨hlookup, hlt⟩ := h.recording.wellFormed.sequence hi
    rcases htracked with hstart | hlater
    · -- only the current node was there already
      rw [hstart, (h.recording.wellFormed.sequence hnode).1] at hlookup
      obtain rfl := Option.some.inj hlookup
      obtain rfl := Option.some.inj (hnode.symm.trans hi)
      obtain ⟨sequence, hcurrent, hsnapshot⟩ := hsettled
      rw [htree, hsequence] at hcurrent
      obtain rfl := Option.some.inj hcurrent
      exact ⟨ranges, hstate ▸ hholds, hsnapshot⟩
    · exact absurd hlt (Nat.not_lt_of_le hlater)

/-- From the moment the excerpts are set, no session of edits that stays with the nodes recorded since
changes a byte of chrome; and a move to a node puts its excerpts where they were when that node was
last the current one outside any undo group. -/
theorem chrome_kept {b : Buffer} (hb : b.Opened) {before : List Operation} {s₀ s₁ s₂ : Session}
    (hbefore : ∀ op ∈ before, Edits op) (hrunBefore : run (step p) (ofBuffer b) before = some s₀)
    (hclosed : s₀.buffer.undoGroupDepth = 0) {ranges : List ExcerptRange} (hne : ranges ≠ [])
    (hseparated : ExcerptRange.Separated s₀.buffer.storage.byteLength ranges)
    (hset : s₀.step p (.setExcerptRanges ranges) = some s₁) {ops : List Operation}
    (hadm : Admissible (step p) (fun s op => EditsExcerpts op ∧ s₁.StaysAbove s op) s₁ ops)
    (hrun : run (step p) s₁ ops = some s₂) :
    ChromeKept s₁ s₂ ∧
      ∀ (sequence : Nat) (later : List Operation) (s₃ s₄ : Session) (op : Operation) (tree : UndoTree),
        s₂.buffer.undoTree.currentSequence = some sequence → s₂.buffer.undoGroupDepth = 0 →
        Admissible (step p) (fun s op => (EditsExcerpts op ∧ s₁.StaysAbove s op) ∧
          ∀ s', s.step p op = some s' → AwayFrom sequence s') s₂ later →
        run (step p) s₂ later = some s₃ → s₃.MovesTo op tree →
        tree.currentSequence = some sequence → s₃.step p op = some s₄ →
        s₄.buffer.excerptRanges = s₂.buffer.excerptRanges := by
  obtain ⟨frame, start, hstart, hguarded₁⟩ :=
    (ready_of_run hb hbefore hrunBefore).setExcerptRanges hclosed hne hseparated hset
  have habove : ∀ {s : Session} {op : Operation}, s₁.StaysAbove s op → ∀ tree sequence,
      s.MovesTo op tree → tree.currentSequence = some sequence →
      UndoRecording.Tracked start s₁.buffer.undoTree.nextSequence sequence := by
    intro s op hstays tree sequence hmoves hsequence
    refine (hstays tree sequence hmoves hsequence).imp (fun hcurrent => ?_) id
    exact Option.some.inj (hcurrent.symm.trans hstart)
  have hguarded₂ : Guarded frame start s₁.buffer.undoTree.nextSequence s₂ :=
    run_invariant_of_admissible _
      (fun _ _ _ h hop hstep => (h.step hop.1 (habove hop.2) hstep).1) hguarded₁ hadm hrun
  refine ⟨⟨hguarded₂.guards.holds.separated, hguarded₁.guards.holds.outside hguarded₂.guards.holds,
    hguarded₁.guards.holds.gaps hguarded₂.guards.holds⟩, ?_⟩
  intro sequence later s₃ s₄ op tree hcurrent hdepth hlater hrunLater hmoves hsequence hstep
  have hkept₂ : s₂.buffer.excerptRangeOffsetSnapshots.lookup sequence =
      some (ExcerptRange.offsets s₂.buffer.excerptRanges) := by
    obtain ⟨sequence', hcurrent', hlookup⟩ :=
      hguarded₂.guards.settled (hguarded₂.guards.depth hdepth)
    obtain rfl := Option.some.inj (hcurrent.symm.trans hcurrent')
    exact hlookup
  -- what the node keeps does not change while another is the current one
  obtain ⟨hguarded₃, hkept₃⟩ : Guarded frame start s₁.buffer.undoTree.nextSequence s₃ ∧
      s₃.buffer.excerptRangeOffsetSnapshots.lookup sequence =
        some (ExcerptRange.offsets s₂.buffer.excerptRanges) := by
    refine run_invariant_of_admissible (fun s : Session =>
      Guarded frame start s₁.buffer.undoTree.nextSequence s ∧
        s.buffer.excerptRangeOffsetSnapshots.lookup sequence =
          some (ExcerptRange.offsets s₂.buffer.excerptRanges))
      (fun s op s' h hop hstep => ?_) ⟨hguarded₂, hkept₂⟩ hlater hrunLater
    obtain ⟨hguarded, hkeeps⟩ := h.1.step hop.1.1 (habove hop.1.2) hstep
    exact ⟨hguarded, (hkeeps sequence (hop.2 s' hstep)).trans h.2⟩
  obtain ⟨b', rfl, hb'⟩ := hmoves.step_eq hstep
  have htracked := hguarded₂.guards.here sequence hcurrent
  obtain ⟨hlookup, heditables, -⟩ := hguarded₃.navigated hmoves hsequence htracked hb'
  have hoffsets := Option.some.inj (hkept₃.symm.trans hlookup)
  have hflags : b'.excerptRanges.map (·.editable) = s₂.buffer.excerptRanges.map (·.editable) :=
    heditables.trans (hguarded₂.guards.holds.editables hguarded₃.guards.holds)
  rw [← ExcerptRange.withOffsets_offsets hflags, ← hoffsets]
  exact ExcerptRange.withOffsets_offsets rfl

/-- A keystroke at the end of the first of two excerpts. -/
theorem chrome_kept_sample :
    let step := Session.step { graphemeBreak := fun s _ _ => (true, s), keySort := .insertion }
    let s₀ := ofBuffer (.ofStorage "sample" { bytes := [97, 88, 98, 89, 99], huge := false })
    ∃ s₁ s₂, step s₀ (.setExcerptRanges [{ start := 1, stop := 2, editable := true },
        { start := 3, stop := 4, editable := true }]) = some s₁ ∧
      run step s₁ [.insertAt 2 [90]] = some s₂ ∧ ChromeKept s₁ s₂ := by
  intro step s₀
  have hset : (step s₀ (.setExcerptRanges [{ start := 1, stop := 2, editable := true },
      { start := 3, stop := 4, editable := true }])).isSome = true := by decide +kernel
  obtain ⟨s₁, hs₁⟩ := Option.isSome_iff_exists.1 hset
  have hrun : ((step s₀ (.setExcerptRanges [{ start := 1, stop := 2, editable := true },
      { start := 3, stop := 4, editable := true }])).bind
        fun s => run step s [.insertAt 2 [90]]).isSome = true := by decide +kernel
  rw [hs₁, Option.bind_some] at hrun
  obtain ⟨s₂, hs₂⟩ := Option.isSome_iff_exists.1 hrun
  have hbefore : ∀ op ∈ ([] : List Operation), Edits op := List.forall_mem_nil _
  have hadm : Admissible step (fun s op => EditsExcerpts op ∧ s₁.StaysAbove s op) s₁
      [.insertAt 2 [90]] := by
    refine ⟨⟨⟨trivial, fun ranges hranges => ?_⟩, fun tree sequence hmoves => ?_⟩, fun _ _ => trivial⟩
    · cases hranges
    · cases hmoves
  exact ⟨s₁, s₂, hs₁, hs₂, (chrome_kept (.ofStorage "sample" _) hbefore rfl rfl
    (List.cons_ne_nil _ _) ⟨by decide, by decide, by decide⟩ hs₁ hadm hs₂).1⟩

/-- "aX" becomes "baX", which is undone. Then "X" is made an excerpt, and redoing puts "b" before it. -/
theorem not_chrome_kept :
    ¬ ∀ (p : Platform) (b : Buffer) (before ops : List Operation) (s₀ s₁ s₂ : Session)
        (ranges : List ExcerptRange), b.Opened → (∀ op ∈ before, Edits op) →
      run (step p) (ofBuffer b) before = some s₀ → s₀.buffer.undoGroupDepth = 0 → ranges ≠ [] →
      ExcerptRange.Separated s₀.buffer.storage.byteLength ranges →
      s₀.step p (.setExcerptRanges ranges) = some s₁ →
      Admissible (step p) (fun s op => EditsExcerpts op ∧
        (op = .undo → s.buffer.undoTree.current ≠ s₁.buffer.undoTree.current)) s₁ ops →
      run (step p) s₁ ops = some s₂ →
      ExcerptRange.outside s₂.buffer.excerptRanges s₂.buffer.storage.bytes =
        ExcerptRange.outside s₁.buffer.excerptRanges s₁.buffer.storage.bytes := by
  intro h
  let p : Platform := { graphemeBreak := fun s _ _ => (true, s), keySort := .insertion }
  let b : Buffer := .ofStorage "sample" { bytes := [97, 88], huge := false }
  let ranges : List ExcerptRange := [{ start := 1, stop := 2, editable := true }]
  have hrun : ((run (step p) (ofBuffer b) [.insertAt 0 [98], .undo]).bind fun s₀ =>
      (s₀.step p (.setExcerptRanges ranges)).bind fun s₁ => (run (step p) s₁ [.redo]).map fun s₂ =>
        (s₀.buffer.undoGroupDepth, s₀.buffer.storage.byteLength,
          ExcerptRange.outside s₁.buffer.excerptRanges s₁.buffer.storage.bytes,
          ExcerptRange.outside s₂.buffer.excerptRanges s₂.buffer.storage.bytes)) =
      some (0, 2, [97], [98, 97]) := by decide +kernel
  obtain ⟨s₀, hs₀, hrun⟩ := Option.bind_eq_some_iff.1 hrun
  obtain ⟨s₁, hs₁, hrun⟩ := Option.bind_eq_some_iff.1 hrun
  obtain ⟨s₂, hs₂, hrun⟩ := Option.map_eq_some_iff.1 hrun
  simp only [Prod.mk.injEq] at hrun
  obtain ⟨hclosed, hlength, hfirst, hlast⟩ := hrun
  have heq := h p b [.insertAt 0 [98], .undo] [.redo] s₀ s₁ s₂ ranges (.ofStorage _ _)
    (by simp [Edits]) hs₀ hclosed (List.cons_ne_nil _ _)
    (hlength ▸ ⟨by decide, by decide, by decide⟩) hs₁
    ⟨⟨⟨trivial, fun _ hranges => by cases hranges⟩, fun hundo => by cases hundo⟩, fun _ _ => trivial⟩
    hs₂
  rw [hfirst, hlast] at heq
  cases heq

end Session

end Ned.Text
