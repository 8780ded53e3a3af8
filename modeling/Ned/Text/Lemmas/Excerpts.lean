import Ned.Text.Lemmas.Composite
import Ned.Text.Lemmas.Edits

/-!
# Excerpts and undo

Every node of the undo tree that is recorded while there are excerpts keeps, with its state, the
offsets that the excerpts have in it.
-/

namespace Ned.Text

open Ned.Library

/-! ## Offsets -/

namespace ExcerptRange

def offsets (ranges : List ExcerptRange) : List (Nat × Nat) :=
  ranges.map fun range => (range.start, range.stop)

theorem withOffsets_offsets {ranges ranges' : List ExcerptRange}
    (h : ranges'.map (·.editable) = ranges.map (·.editable)) :
    Buffer.withOffsets ranges (offsets ranges') = ranges' := by
  induction ranges generalizing ranges' with
  | nil =>
      obtain rfl := List.map_eq_nil_iff.1 h
      rfl
  | cons range ranges ih =>
      cases ranges' with
      | nil => cases h
      | cons range' ranges' =>
          obtain ⟨hhead, htail⟩ := List.cons.inj h
          have hrest := ih htail
          simp only [Buffer.withOffsets, offsets, List.map_cons, List.zipWith_cons_cons] at hrest ⊢
          have hhead : range'.editable = range.editable := hhead
          rw [hrest, ← hhead]

end ExcerptRange

/-- What a composite text has besides the bodies of its editable excerpts. -/
structure Frame where
  frames : List (Bytes × Bool × Bytes)
  closing : Bytes

def Frame.Holds (frame : Frame) (text : Bytes) (ranges : List ExcerptRange) : Prop :=
  ∃ excerpts, excerpts.map Excerpt.frame = frame.frames ∧ Excerpt.Apart excerpts ∧
    text = Excerpt.compose excerpts frame.closing ∧ ranges = Excerpt.rangesFrom 0 excerpts

namespace Frame

variable {frame : Frame} {text text' : Bytes} {ranges ranges' : List ExcerptRange}

theorem exists_holds (h : ExcerptRange.Separated text.length ranges) :
    ∃ frame : Frame, frame.Holds text ranges := by
  obtain ⟨excerpts, closing, htext, hranges, hapart, -⟩ :=
    @Excerpt.exists_compose 0 _ _ h fun _ _ => Nat.zero_le _
  exact ⟨⟨excerpts.map Excerpt.frame, closing⟩, excerpts, rfl, hapart, htext, hranges⟩

theorem Holds.editables (h : frame.Holds text ranges) (h' : frame.Holds text' ranges') :
    ranges'.map (·.editable) = ranges.map (·.editable) := by
  obtain ⟨excerpts, hframes, -, -, rfl⟩ := h
  obtain ⟨excerpts', hframes', -, -, rfl⟩ := h'
  rw [Excerpt.rangesFrom_editable, Excerpt.rangesFrom_editable]
  exact Excerpt.editables_of_frames (hframes'.trans hframes.symm)

theorem Holds.separated (h : frame.Holds text ranges) : ExcerptRange.Separated text.length ranges := by
  obtain ⟨excerpts, -, hapart, rfl, rfl⟩ := h
  have hseparated := Excerpt.separated_rangesFrom 0 frame.closing hapart
  rwa [Nat.zero_add] at hseparated

theorem Holds.outside (h : frame.Holds text ranges) (h' : frame.Holds text' ranges') :
    ExcerptRange.outside ranges' text' = ExcerptRange.outside ranges text := by
  obtain ⟨excerpts, hframes, -, rfl, rfl⟩ := h
  obtain ⟨excerpts', hframes', -, rfl, rfl⟩ := h'
  rw [Excerpt.outside_rangesFrom, Excerpt.outside_rangesFrom]
  exact Excerpt.kept_of_frames (hframes'.trans hframes.symm)

theorem Holds.gaps (h : frame.Holds text ranges) (h' : frame.Holds text' ranges') :
    ExcerptRange.gaps ranges' text' = ExcerptRange.gaps ranges text := by
  obtain ⟨excerpts, hframes, -, rfl, rfl⟩ := h
  obtain ⟨excerpts', hframes', -, rfl, rfl⟩ := h'
  rw [ExcerptRange.gaps, ExcerptRange.gaps,
    Excerpt.gapsFrom_rangesFrom frame.closing rfl (Nat.zero_le _),
    Excerpt.gapsFrom_rangesFrom frame.closing rfl (Nat.zero_le _),
    Excerpt.chromes_of_frames (hframes'.trans hframes.symm)]

theorem Holds.insert (h : frame.Holds text ranges) {positions : TrackedPositions} {offset : Nat}
    (hranges : positions.excerptRanges = ranges) (hne : ranges ≠ [])
    (hallowed : positions.canInsertAtExcerpt offset = true) (inserted : Bytes) :
    frame.Holds (insertAt text offset inserted)
      (ranges.map (ExcerptRange.relocateForInsert offset inserted.length)) := by
  obtain ⟨excerpts, hframes, hapart, rfl, rfl⟩ := h
  have hnonempty := mt List.isEmpty_iff.1 hne
  simp only [TrackedPositions.canInsertAtExcerpt, hranges, hnonempty, Bool.false_or, List.any_eq_true,
    Bool.and_eq_true, decide_eq_true_eq] at hallowed
  obtain ⟨range, hrange, ⟨heditable, hstart⟩, hstop⟩ := hallowed
  obtain ⟨excerpts', hframes', hranges', htext⟩ := Excerpt.exists_insert frame.closing
    hapart hrange heditable hstart hstop inserted
  exact ⟨excerpts', hframes'.trans hframes, hapart.of_frames hframes', htext, hranges'.symm⟩

theorem Holds.erase (h : frame.Holds text ranges) {positions : TrackedPositions} {start length : Nat}
    (hranges : positions.excerptRanges = ranges) (hne : ranges ≠ [])
    (hallowed : positions.canDeleteExcerptRange start (start + length) = true) :
    frame.Holds (eraseAt text start length)
      (ranges.map (ExcerptRange.relocateForDelete start (start + length))) := by
  obtain ⟨excerpts, hframes, hapart, rfl, rfl⟩ := h
  have hnonempty := mt List.isEmpty_iff.1 hne
  simp only [TrackedPositions.canDeleteExcerptRange, hranges, hnonempty, Bool.false_or,
    List.any_eq_true, Bool.and_eq_true, decide_eq_true_eq] at hallowed
  obtain ⟨range, hrange, ⟨heditable, hstart⟩, hstop⟩ := hallowed
  obtain ⟨excerpts', hframes', hranges', htext⟩ := Excerpt.exists_erase frame.closing
    hapart hrange heditable hstart (Nat.le_add_right _ _) hstop
  rw [Nat.add_sub_cancel_left] at htext
  exact ⟨excerpts', hframes'.trans hframes, hapart.of_frames hframes', htext, hranges'.symm⟩

end Frame

/-! ## Recordings -/

namespace UndoRecording

variable {r r' : UndoRecording} {storage : Storage} {offsets : List (Nat × Nat)}

theorem snapshotExcerptRangeOffsets_eq (hne : offsets ≠ [])
    (h : r.snapshotExcerptRangeOffsets offsets = some r') :
    ∃ sequence, r.undoTree.currentSequence = some sequence ∧
      r' = { r with
        excerptRangeOffsetSnapshots := assign r.excerptRangeOffsetSnapshots sequence offsets } := by
  unfold snapshotExcerptRangeOffsets at h
  rw [if_neg (mt List.isEmpty_iff.1 hne)] at h
  obtain ⟨sequence, hsequence, h⟩ := Option.bind_eq_some_iff.1 h
  exact ⟨sequence, hsequence, (Option.some.inj h).symm⟩

/-- The nodes that were recorded since `first` was the next sequence, and the one named `start`. -/
def Tracked (start first sequence : Nat) : Prop := sequence = start ∨ first ≤ sequence

/-- Every tracked node keeps offsets that fit its state, and the current node is tracked. -/
structure Tracks (frame : Frame) (start first : Nat) (r : UndoRecording) : Prop where
  wellFormed : r.undoTree.WellFormed
  first_le : first ≤ r.undoTree.nextSequence
  here : ∀ sequence, r.undoTree.currentSequence = some sequence → Tracked start first sequence
  nodes : ∀ {i : Nat} {node : UndoTree.Node}, r.undoTree.nodes[i]? = some node →
    Tracked start first node.sequence → ∃ ranges, frame.Holds node.state.bytes ranges ∧
      r.excerptRangeOffsetSnapshots.lookup node.sequence = some (ExcerptRange.offsets ranges)

/-- The current node keeps these offsets. -/
def Settled (offsets : List (Nat × Nat)) (r : UndoRecording) : Prop :=
  ∃ sequence, r.undoTree.currentSequence = some sequence ∧
    r.excerptRangeOffsetSnapshots.lookup sequence = some offsets

/-- Only the node that is current afterwards may keep other offsets than before. -/
def KeepsOthers (r r' : UndoRecording) : Prop :=
  ∀ sequence, r'.undoTree.currentSequence ≠ some sequence →
    r'.excerptRangeOffsetSnapshots.lookup sequence = r.excerptRangeOffsetSnapshots.lookup sequence

theorem currentSequence_of_node {tree : UndoTree} {node : UndoTree.Node}
    (h : tree.nodes[tree.current]? = some node) : tree.currentSequence = some node.sequence := by
  rw [UndoTree.currentSequence, UndoTree.currentNode, h]
  rfl

theorem snapshot_spec (hne : offsets ≠ []) (h : r.snapshotExcerptRangeOffsets offsets = some r') :
    r'.undoTree = r.undoTree ∧ r'.undoGroupDepth = r.undoGroupDepth ∧
      r'.undoGroupDirty = r.undoGroupDirty ∧ Settled offsets r' ∧ KeepsOthers r r' := by
  obtain ⟨sequence, hsequence, rfl⟩ := snapshotExcerptRangeOffsets_eq hne h
  refine ⟨rfl, rfl, rfl, ⟨sequence, hsequence, lookup_assign_self _ _ _⟩, fun other hother => ?_⟩
  have hother : r.undoTree.currentSequence ≠ some other := hother
  refine lookup_assign_of_ne ?_ _ _
  rintro rfl
  exact hother hsequence

section Frames

variable {frame : Frame} {start first : Nat} {ranges : List ExcerptRange}

theorem Tracks.snapshot {tree : UndoTree} (h : Tracks frame start first r)
    (hholds : frame.Holds storage.bytes ranges) (hne : ranges ≠ []) (hwf : tree.WellFormed)
    (hfirst : first ≤ tree.nextSequence)
    (hhere : ∀ sequence, tree.currentSequence = some sequence → Tracked start first sequence)
    (hcurrent : ∀ node, tree.nodes[tree.current]? = some node → node.state = storage)
    (hothers : ∀ {i : Nat} {node : UndoTree.Node}, i ≠ tree.current → tree.nodes[i]? = some node →
      ∃ old, r.undoTree.nodes[i]? = some old ∧ old.state = node.state ∧ old.sequence = node.sequence)
    (hsnap : { r with undoTree := tree }.snapshotExcerptRangeOffsets (ExcerptRange.offsets ranges) =
      some r') :
    Tracks frame start first r' ∧ Settled (ExcerptRange.offsets ranges) r' ∧ KeepsOthers r r' := by
  have hoffsets : ExcerptRange.offsets ranges ≠ [] := mt List.map_eq_nil_iff.1 hne
  obtain ⟨htree, -, -, hsettled, hkeeps⟩ := snapshot_spec hoffsets hsnap
  have htree : r'.undoTree = tree := htree
  refine ⟨⟨htree ▸ hwf, htree ▸ hfirst, htree ▸ hhere, fun {i node} hi htracked => ?_⟩, hsettled,
    fun sequence hsequence => hkeeps sequence hsequence⟩
  rw [htree] at hi
  obtain ⟨here, hnode⟩ := hwf.current
  have hsequence := currentSequence_of_node hnode
  by_cases hi' : i = tree.current
  · subst hi'
    obtain rfl := Option.some.inj (hnode.symm.trans hi)
    obtain ⟨sequence, hsettled, hlookup⟩ := hsettled
    rw [htree, hsequence] at hsettled
    obtain rfl := Option.some.inj hsettled
    refine ⟨ranges, ?_, hlookup⟩
    rw [hcurrent _ hnode]
    exact hholds
  · obtain ⟨old, hold, hstate, hsame⟩ := hothers hi' hi
    obtain ⟨oldRanges, hholds, hlookup⟩ := h.nodes hold (hsame ▸ htracked)
    refine ⟨oldRanges, hstate ▸ hholds, ?_⟩
    rw [hsame] at hlookup
    rw [hkeeps, hlookup]
    -- sequences name the nodes
    rw [htree, hsequence]
    intro heq
    have hhere := (hwf.sequence hnode).1
    rw [Option.some.inj heq, (hwf.sequence hi).1] at hhere
    exact hi' (Option.some.inj hhere)

theorem Tracks.record (h : Tracks frame start first r) (hholds : frame.Holds storage.bytes ranges)
    (hne : ranges ≠ []) (hrec : r.record storage (ExcerptRange.offsets ranges) = some r') :
    Tracks frame start first r' ∧ Settled (ExcerptRange.offsets ranges) r' ∧ KeepsOthers r r' := by
  obtain ⟨tree, htree, hrec⟩ := Option.bind_eq_some_iff.1 hrec
  obtain ⟨node, hnode⟩ := h.wellFormed.current
  obtain ⟨tree', htree', hwf⟩ := h.wellFormed.record storage
  obtain rfl := Option.some.inj (htree'.symm.trans htree)
  rw [UndoTree.record_eq hnode] at htree
  cases htree
  refine h.snapshot hholds hne hwf (Nat.le_succ_of_le h.first_le) ?_ ?_ ?_ hrec
  · intro sequence hsequence
    rw [currentSequence_of_node UndoTree.record_new] at hsequence
    obtain rfl := Option.some.inj hsequence
    exact Or.inr h.first_le
  · intro new hnew
    obtain rfl := Option.some.inj (UndoTree.record_new.symm.trans hnew)
    rfl
  · intro i c hi hc
    rcases UndoTree.record_cases hnode hc with ⟨rfl, -⟩ | ⟨rfl, rfl⟩ | ⟨-, hc⟩
    · exact absurd rfl hi
    · exact ⟨node, hnode, rfl, rfl⟩
    · exact ⟨c, hc, rfl, rfl⟩

theorem Tracks.amend (h : Tracks frame start first r) (hholds : frame.Holds storage.bytes ranges)
    (hne : ranges ≠ []) (hrec : r.amend storage (ExcerptRange.offsets ranges) = some r') :
    Tracks frame start first r' ∧ Settled (ExcerptRange.offsets ranges) r' ∧ KeepsOthers r r' := by
  obtain ⟨tree, htree, hrec⟩ := Option.bind_eq_some_iff.1 hrec
  obtain ⟨tree', htree', hwf⟩ := h.wellFormed.amend storage
  obtain rfl := Option.some.inj (htree'.symm.trans htree)
  obtain ⟨node, hnode, htree⟩ := Option.bind_eq_some_iff.1 htree
  cases htree
  have hlt := (List.getElem?_eq_some_iff.1 hnode).1
  have hset : (r.undoTree.nodes.set r.undoTree.current { node with state := storage })[
      r.undoTree.current]? = some { node with state := storage } := List.getElem?_set_self hlt
  refine h.snapshot hholds hne hwf h.first_le ?_ ?_ ?_ hrec
  · intro sequence hsequence
    rw [currentSequence_of_node hset] at hsequence
    exact h.here sequence ((currentSequence_of_node hnode).trans hsequence)
  · intro new hnew
    obtain rfl := Option.some.inj (hset.symm.trans hnew)
    rfl
  · intro i c hi hc
    rw [List.getElem?_set_ne (Ne.symm hi)] at hc
    exact ⟨c, hc, rfl, rfl⟩

/-! ### Groups -/

theorem snapshot_group (h : r.snapshotExcerptRangeOffsets offsets = some r') :
    r'.undoGroupDepth = r.undoGroupDepth ∧ r'.undoGroupDirty = r.undoGroupDirty := by
  unfold snapshotExcerptRangeOffsets at h
  split at h
  · cases h
    exact ⟨rfl, rfl⟩
  · obtain ⟨sequence, -, h⟩ := Option.bind_eq_some_iff.1 h
    cases h
    exact ⟨rfl, rfl⟩

theorem record_group (h : r.record storage offsets = some r') :
    r'.undoGroupDepth = r.undoGroupDepth ∧ r'.undoGroupDirty = r.undoGroupDirty := by
  obtain ⟨tree, -, h⟩ := Option.bind_eq_some_iff.1 h
  have hgroup := snapshot_group h
  exact hgroup

theorem amend_group (h : r.amend storage offsets = some r') :
    r'.undoGroupDepth = r.undoGroupDepth ∧ r'.undoGroupDirty = r.undoGroupDirty := by
  obtain ⟨tree, -, h⟩ := Option.bind_eq_some_iff.1 h
  have hgroup := snapshot_group h
  exact hgroup

/-- The content is in the frame, and so is every tracked node; where no group is open, the current
node keeps the offsets of now. -/
structure Guards (frame : Frame) (start first : Nat) (text : Bytes) (ranges : List ExcerptRange)
    (r : UndoRecording) : Prop extends Tracks frame start first r where
  holds : frame.Holds text ranges
  depth : r.undoGroupDepth = 0 → r.undoGroupDirty = false
  settled : r.undoGroupDirty = false → Settled (ExcerptRange.offsets ranges) r

/-- Only the node that is current afterwards, outside any group, may keep other offsets than before. -/
def KeepsSettled (r r' : UndoRecording) : Prop :=
  ∀ sequence, ¬(r'.undoTree.currentSequence = some sequence ∧ r'.undoGroupDepth = 0) →
    r'.excerptRangeOffsetSnapshots.lookup sequence = r.excerptRangeOffsetSnapshots.lookup sequence

theorem KeepsOthers.keepsSettled (h : KeepsOthers r r') (hdepth : r'.undoGroupDepth = 0) :
    KeepsSettled r r' :=
  fun sequence haway => h sequence fun hcurrent => haway ⟨hcurrent, hdepth⟩

variable {text : Bytes} {ranges' : List ExcerptRange}

theorem Guards.recordOrAmendUndo {canAmend : Bool} (h : Guards frame start first text ranges r)
    (hholds : frame.Holds storage.bytes ranges') (hne : ranges' ≠ [])
    (hrec : r.recordOrAmendUndo storage (ExcerptRange.offsets ranges') canAmend = some r') :
    Guards frame start first storage.bytes ranges' r' ∧ KeepsSettled r r' := by
  simp only [UndoRecording.recordOrAmendUndo] at hrec
  have htracks : Tracks frame start first { r with canAmendLoadAppend := false } :=
    ⟨h.wellFormed, h.first_le, h.here, h.nodes⟩
  split at hrec
  · rename_i hopen
    cases hrec
    refine ⟨⟨⟨h.wellFormed, h.first_le, h.here, h.nodes⟩, hholds, fun hclosed => ?_,
      fun hclean => by cases hclean⟩, fun _ _ => rfl⟩
    exact absurd hclosed (Nat.pos_iff_ne_zero.1 hopen)
  · rename_i hclosed
    have hclosed : r.undoGroupDepth = 0 := Nat.eq_zero_of_not_pos hclosed
    split at hrec
    · obtain ⟨htracks, hsettled, hkeeps⟩ := htracks.amend hholds hne hrec
      obtain ⟨hdepth, hdirty⟩ := amend_group hrec
      exact ⟨⟨htracks, hholds, fun _ => hdirty.trans (h.depth hclosed), fun _ => hsettled⟩,
        KeepsOthers.keepsSettled hkeeps (hdepth.trans hclosed)⟩
    · obtain ⟨recorded, hrecorded, hrec⟩ := Option.bind_eq_some_iff.1 hrec
      cases hrec
      obtain ⟨htracks, hsettled, hkeeps⟩ := htracks.record hholds hne hrecorded
      obtain ⟨hdepth, hdirty⟩ := record_group hrecorded
      exact ⟨⟨⟨htracks.wellFormed, htracks.first_le, htracks.here, htracks.nodes⟩, hholds,
        fun _ => hdirty.trans (h.depth hclosed), fun _ => hsettled⟩,
        KeepsOthers.keepsSettled hkeeps (hdepth.trans hclosed)⟩

theorem Guards.beginUndoGroup (h : Guards frame start first text ranges r) :
    Guards frame start first text ranges r.beginUndoGroup ∧ KeepsSettled r r.beginUndoGroup := by
  refine ⟨⟨⟨h.wellFormed, h.first_le, h.here, h.nodes⟩, h.holds, fun hdepth => ?_, h.settled⟩,
    fun _ _ => rfl⟩
  cases hdepth

theorem Guards.endUndoGroup (h : Guards frame start first storage.bytes ranges r) (hne : ranges ≠ [])
    (hrec : r.endUndoGroup storage (ExcerptRange.offsets ranges) = some r') :
    Guards frame start first storage.bytes ranges r' ∧ KeepsSettled r r' := by
  simp only [UndoRecording.endUndoGroup] at hrec
  split at hrec
  · cases hrec
    exact ⟨h, fun _ _ => rfl⟩
  · split at hrec
    · rename_i hclosed
      obtain ⟨recorded, hrecorded, hrec⟩ := Option.bind_eq_some_iff.1 hrec
      cases hrec
      have htracks : Tracks frame start first { r with undoGroupDepth := r.undoGroupDepth - 1 } :=
        ⟨h.wellFormed, h.first_le, h.here, h.nodes⟩
      obtain ⟨htracks, hsettled, hkeeps⟩ := htracks.record h.holds hne hrecorded
      obtain ⟨hdepth, -⟩ := record_group hrecorded
      exact ⟨⟨⟨htracks.wellFormed, htracks.first_le, htracks.here, htracks.nodes⟩, h.holds,
        fun _ => rfl, fun _ => hsettled⟩,
        KeepsOthers.keepsSettled hkeeps (hdepth.trans hclosed.1)⟩
    · rename_i hopen
      cases hrec
      refine ⟨⟨⟨h.wellFormed, h.first_le, h.here, h.nodes⟩, h.holds, fun hclosed => ?_, h.settled⟩,
        fun _ _ => rfl⟩
      exact Bool.eq_false_iff.2 fun hdirty => hopen ⟨hclosed, hdirty⟩

/-! ### Moves -/

/-- The tree has the nodes of another, and only other links between them. -/
structure SameStates (tree tree' : UndoTree) : Prop where
  nextSequence : tree'.nextSequence = tree.nextSequence
  nodes : ∀ {i : Nat} {node : UndoTree.Node}, tree'.nodes[i]? = some node →
    ∃ old, tree.nodes[i]? = some old ∧ old.state = node.state ∧ old.sequence = node.sequence

theorem Guards.move {tree : UndoTree} {target : Storage} {sequence : Nat}
    (h : Guards frame start first text ranges r) (hwf : tree.WellFormed)
    (hsame : SameStates r.undoTree tree) (htarget : tree.currentState = some target)
    (hsequence : tree.currentSequence = some sequence) (htracked : Tracked start first sequence) :
    ∃ ranges', r.excerptRangeOffsetSnapshots.lookup sequence = some (ExcerptRange.offsets ranges') ∧
      Guards frame start first target.bytes ranges'
        { r with undoTree := tree, canAmend := false, canAmendLoadAppend := false } := by
  obtain ⟨node, hnode⟩ := hwf.current
  have hnode' : tree.currentNode = some node := hnode
  rw [UndoTree.currentSequence, hnode'] at hsequence
  rw [UndoTree.currentState, hnode'] at htarget
  obtain rfl := Option.some.inj hsequence
  obtain rfl := Option.some.inj htarget
  have hnodes : ∀ {i : Nat} {node : UndoTree.Node}, tree.nodes[i]? = some node →
      Tracked start first node.sequence → ∃ ranges, frame.Holds node.state.bytes ranges ∧
        r.excerptRangeOffsetSnapshots.lookup node.sequence = some (ExcerptRange.offsets ranges) := by
    intro i node hi htracked
    obtain ⟨old, hold, hstate, hsequence⟩ := hsame.nodes hi
    rw [← hstate, ← hsequence]
    exact h.nodes hold (hsequence ▸ htracked)
  obtain ⟨ranges', hholds, hlookup⟩ := hnodes hnode htracked
  refine ⟨ranges', hlookup, ⟨hwf, hsame.nextSequence ▸ h.first_le, ?_, hnodes⟩, hholds, h.depth,
    fun _ => ⟨node.sequence, currentSequence_of_node hnode, hlookup⟩⟩
  intro sequence hsequence
  rw [currentSequence_of_node hnode] at hsequence
  exact Option.some.inj hsequence ▸ htracked

end Frames

end UndoRecording

namespace Session

variable {s : Session} {op : Operation} {tree : UndoTree}

theorem MovesTo.sameStates (h : s.MovesTo op tree) (hwf : s.buffer.undoTree.WellFormed) :
    tree.WellFormed ∧ UndoRecording.SameStates s.buffer.undoTree tree := by
  cases h with
  | undo _ htree =>
      obtain ⟨tree', htree', hwf'⟩ := hwf.undo
      obtain rfl := Option.some.inj (htree'.symm.trans htree)
      obtain ⟨node, -, htree⟩ := Option.bind_eq_some_iff.1 htree
      split at htree <;> cases htree <;> exact ⟨hwf', rfl, fun hi => ⟨_, hi, rfl, rfl⟩⟩
  | redo _ htree =>
      obtain ⟨tree', htree', hwf'⟩ := hwf.redo
      obtain rfl := Option.some.inj (htree'.symm.trans htree)
      obtain ⟨node, -, htree⟩ := Option.bind_eq_some_iff.1 htree
      split at htree
      · cases htree
        exact ⟨hwf', rfl, fun hi => ⟨_, hi, rfl, rfl⟩⟩
      · obtain ⟨child, -, htree⟩ := Option.bind_eq_some_iff.1 htree
        cases htree
        exact ⟨hwf', rfl, fun hi => ⟨_, hi, rfl, rfl⟩⟩
  | @tryJumpToUndoSequence sequence _ htree =>
      obtain ⟨tree', known, htree', hwf'⟩ := hwf.jumpTo sequence
      obtain ⟨rfl, -⟩ := Prod.mk.inj (Option.some.inj (htree'.symm.trans htree))
      refine ⟨hwf', ?_⟩
      unfold UndoTree.jumpTo at htree
      split at htree
      · cases htree
      · obtain ⟨node, -, htree⟩ := Option.bind_eq_some_iff.1 htree
        split at htree
        · cases htree
          exact ⟨rfl, fun hi => ⟨_, hi, rfl, rfl⟩⟩
        · obtain ⟨parent, hparent, htree⟩ := Option.bind_eq_some_iff.1 htree
          cases htree
          refine ⟨rfl, fun {i node} hi => ?_⟩
          rcases UndoTree.getElem?_set_cases hparent hi with ⟨rfl, rfl⟩ | ⟨-, hi⟩
          · refine ⟨parent, hparent, ?_, (UndoTree.repoint_sameLinks _ _).sequence.symm⟩
            unfold UndoTree.repoint
            split <;> rfl
          · exact ⟨node, hi, rfl, rfl⟩

end Session

end Ned.Text
