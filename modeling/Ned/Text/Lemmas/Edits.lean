import Ned.Text.Lemmas.Points
import Ned.Text.Lemmas.Session

/-!
# The steps of an editing session

One case for each thing a step may do, with everything it leaves behind. The proofs about editing
sessions go by these cases.
-/

namespace Ned.Text

open Ned.Library

/-! ## Excerpt ranges -/

namespace TrackedPositions

variable (s : KeySort) (positions : TrackedPositions)

@[simp] theorem relocateFoldMarkers_excerptRanges (move : Nat → Nat) :
    (positions.relocateFoldMarkers move).excerptRanges = positions.excerptRanges := by
  unfold relocateFoldMarkers
  split <;> rfl

@[simp] theorem relocateSecondaryCursorsForDelete_excerptRanges (rangeStart rangeEnd : Nat) :
    (positions.relocateSecondaryCursorsForDelete s rangeStart rangeEnd).excerptRanges =
      positions.excerptRanges := by
  simp only [relocateSecondaryCursorsForDelete]
  split <;> rfl

theorem relocateForDeletion_excerptRanges (rangeStart rangeEnd : Nat) :
    (positions.relocateForDeletion s rangeStart rangeEnd).excerptRanges =
      positions.excerptRanges.map (ExcerptRange.relocateForDelete rangeStart rangeEnd) := by
  simp only [relocateForDeletion, relocateDiagnosticsForDelete, relocateExcerptRangesForDelete,
    relocateSnippetRangesForDelete, relocateSecondaryCursorsForDelete_excerptRanges,
    relocateFoldMarkers_excerptRanges]

theorem relocateForInsertion_excerptRanges (offset length : Nat) :
    (positions.relocateForInsertion offset length).excerptRanges =
      positions.excerptRanges.map (ExcerptRange.relocateForInsert offset length) := by
  simp only [relocateForInsertion, relocateDiagnosticsForInsert, relocateExcerptRangesForInsert,
    relocateSnippetRangesForInsert, relocateSecondaryCursors, relocateFoldMarkers_excerptRanges]

theorem clampToContent_excerptRanges {snap : Nat → Option Nat} {length : Nat}
    {positions' : TrackedPositions} (h : positions.clampToContent snap length = some positions') :
    positions'.excerptRanges = positions.excerptRanges := by
  obtain ⟨point, -, h⟩ := Option.bind_eq_some_iff.1 h
  obtain ⟨mark, -, h⟩ := Option.bind_eq_some_iff.1 h
  cases h
  rfl

end TrackedPositions

theorem ExcerptRange.map_relocateForDelete_self (ranges : List ExcerptRange) (offset : Nat) :
    ranges.map (ExcerptRange.relocateForDelete offset offset) = ranges := by
  have hmove : ∀ position, Text.relocateForDelete position offset offset = position := by
    intro position
    simp only [Text.relocateForDelete]
    split <;> (try split) <;> omega
  refine (List.map_congr_left fun range _ => ?_).trans (List.map_id ranges)
  simp [ExcerptRange.relocateForDelete, hmove]

namespace Buffer

variable {p : Platform} {b b' : Buffer}

theorem applyInsert_excerptRanges {offset length : Nat} (hpos : 0 < length) :
    (b.applyInsert p offset length).excerptRanges =
      b.excerptRanges.map (ExcerptRange.relocateForInsert offset length) := by
  simp only [applyInsert, commitInsert, relocateTrackedState, gt_iff_lt, Nat.lt_irrefl, if_false,
    if_pos hpos, markUnsavedRangeInserted]
  exact TrackedPositions.relocateForInsertion_excerptRanges _ _ _

theorem applyDelete_excerptRanges (start length : Nat) :
    (b.applyDelete p start (start + length)).excerptRanges =
      b.excerptRanges.map (ExcerptRange.relocateForDelete start (start + length)) := by
  simp only [applyDelete, commitDelete, relocateTrackedState, Nat.add_sub_cancel_left, gt_iff_lt,
    Nat.lt_irrefl, if_false]
  split
  · exact TrackedPositions.relocateForDeletion_excerptRanges _ _ _ _
  · rename_i hzero
    rw [Nat.eq_zero_of_not_pos hzero, Nat.add_zero, ExcerptRange.map_relocateForDelete_self]

theorem applyDelete_point_le {size start length : Nat} (hpoint : b.point ≤ size)
    (hle : start + length ≤ size) : (b.applyDelete p start (start + length)).point ≤ size - length := by
  have hmoved : (b.relocateTrackedState p start length 0).point ≤ size - length :=
    relocateTrackedState_point_le hpoint hle
  rw [applyDelete, Nat.add_sub_cancel_left]
  exact hmoved

/-! ## Edits -/

/-- The content, and all that an edit carries along, is as it was. -/
structure Unmoved (b b' : Buffer) : Prop where
  storage : b'.storage = b.storage
  changes : b'.toUnsavedChanges = b.toUnsavedChanges
  recording : b'.toUndoRecording = b.toUndoRecording
  excerptRanges : b'.excerptRanges = b.excerptRanges
  point : b'.point = b.point

theorem Unmoved.refl (b : Buffer) : Unmoved b b := ⟨rfl, rfl, rfl, rfl, rfl⟩

structure EditedWithin (canAmend : Bool) (b b' : Buffer) (offset oldLength newLength : Nat)
    (excerptRanges : List ExcerptRange) : Prop where
  within : offset + oldLength ≤ b.storage.byteLength
  length : b'.storage.byteLength + oldLength = b.storage.byteLength + newLength
  changes : b'.toUnsavedChanges =
    b.toUnsavedChanges.relocated offset oldLength newLength b'.storage.byteLength
  point : b'.point ≤ b'.storage.byteLength
  excerptRanges : b'.excerptRanges = excerptRanges
  recording : b.toUndoRecording.recordOrAmendUndo b'.storage b'.excerptOffsets canAmend =
    some b'.toUndoRecording

/-- What an edit may do: nothing, put text in where the excerpts allow it, or take some out. -/
inductive Wrote (canAmend : Bool) (b b' : Buffer) : Prop
  | unmoved (h : Unmoved b b')
  | inserted {offset : Nat} {text : Bytes} (allowed : b.canInsertAtExcerpt offset = true)
      (bytes : b'.storage.bytes = Text.insertAt b.storage.bytes offset text)
      (h : EditedWithin canAmend b b' offset 0 text.length
        (b.excerptRanges.map (ExcerptRange.relocateForInsert offset text.length)))
  | erased {start length : Nat} (allowed : b.canDeleteExcerptRange start (start + length) = true)
      (bytes : b'.storage.bytes = eraseAt b.storage.bytes start length)
      (h : EditedWithin canAmend b b' start length 0
        (b.excerptRanges.map (ExcerptRange.relocateForDelete start (start + length))))

theorem Applied.editedWithin {canAmend : Bool} {applied recorded : Buffer} {storage : Storage}
    {offset oldLength newLength : Nat} (h : Applied b applied storage offset oldLength newLength)
    (hrec : applied.recordOrAmendUndo canAmend = some recorded)
    (hwithin : offset + oldLength ≤ b.storage.byteLength)
    (hlen : storage.byteLength + oldLength = b.storage.byteLength + newLength)
    (hpoint : applied.point ≤ storage.byteLength) :
    recorded.storage = storage ∧
      EditedWithin canAmend b { recorded with goalColumn := none } offset oldLength newLength
        applied.excerptRanges := by
  obtain ⟨hstorage, hedited⟩ := h.record hrec
  refine ⟨hstorage, hwithin, ?_, hedited.changes, ?_, ?_, ?_⟩
  · simpa only [hstorage] using hlen
  all_goals
    obtain ⟨recording, hrecording, heq⟩ := Option.bind_eq_some_iff.1 hrec
    cases heq
  · simpa only [h.storage] using hpoint
  · rfl
  · rw [← h.recording]
    exact hrecording

section Operations

variable (hpoint : b.point ≤ b.storage.byteLength)

include hpoint

theorem inserted_wrote {canAmend : Bool} {storage : Storage} {offset : Nat} {text : Bytes}
    {recorded : Buffer} (htext : ¬ text.isEmpty = true) (hallowed : ¬ (!b.canInsertAtExcerpt offset) = true)
    (hoffset : offset ≤ b.storage.byteLength) (hins : b.storage.inserted offset text = some storage)
    (hrec : ({ b with storage := storage }.applyInsert p offset text.length).recordOrAmendUndo
      canAmend = some recorded) :
    Wrote canAmend b { recorded with goalColumn := none } := by
  have heq := Storage.inserted_eq_some hins
  have hlen : storage.byteLength = b.storage.byteLength + text.length := by
    rw [heq]
    exact insertAt_length hoffset text
  have hmoved := @relocateTrackedState_point_le p { b with storage := storage } _ _ 0 text.length
    hpoint hoffset
  rw [Nat.sub_zero, ← hlen] at hmoved
  obtain ⟨hstorage, hedited⟩ :=
    (applied_insert b storage offset text.length).editedWithin hrec hoffset hlen hmoved
  have hpos : 0 < text.length := List.length_pos_iff.2 fun hnil => htext (List.isEmpty_iff.2 hnil)
  rw [applyInsert_excerptRanges hpos] at hedited
  exact .inserted (by simpa using hallowed) (congrArg Storage.bytes (hstorage.trans heq)) hedited

theorem insertAtImpl_wrote {byteOffset : Nat} {text : Bytes}
    (h : b.insertAtImpl p byteOffset text = some b') : Wrote false b b' := by
  simp only [insertAtImpl] at h
  split at h
  · cases h
    exact .unmoved (.refl b)
  · rename_i htext
    split at h
    · cases h
      exact .unmoved (.refl b)
    · rename_i hallowed
      obtain ⟨storage, hins, h⟩ := Option.bind_eq_some_iff.1 h
      obtain ⟨recorded, hrec, h⟩ := Option.bind_eq_some_iff.1 h
      cases h
      exact inserted_wrote hpoint htext hallowed (Nat.min_le_right _ _) hins hrec

theorem insertAt_wrote {byteOffset : Nat} {text : Bytes}
    (h : b.insertAt p byteOffset text = some (.ok b')) : Wrote false b b' :=
  insertAtImpl_wrote hpoint (whenWritable_eq_ok h)

theorem appendWhileReadOnly_wrote {text : Bytes}
    (h : b.appendWhileReadOnly p text = some (.ok b')) : Wrote false b b' := by
  simp only [appendWhileReadOnly] at h
  split at h
  · cases h
  · obtain ⟨appended, happended, h⟩ := Option.bind_eq_some_iff.1 h
    have hwrote := insertAtImpl_wrote hpoint happended
    split at h
    · cases h
      exact hwrote
    · cases h
      cases hwrote with
      | unmoved h =>
          exact .unmoved ⟨h.storage, h.changes, h.recording, h.excerptRanges, h.point⟩
      | inserted allowed bytes h =>
          exact .inserted allowed bytes
            ⟨h.within, h.length, h.changes, h.point, h.excerptRanges, h.recording⟩
      | erased allowed bytes h =>
          exact .erased allowed bytes
            ⟨h.within, h.length, h.changes, h.point, h.excerptRanges, h.recording⟩

theorem insertAtPoint_wrote {text : Bytes} (h : b.insertAtPoint p text = some (.ok b')) :
    Wrote true b b' := by
  have h := whenWritable_eq_ok h
  split at h
  · cases h
    exact .unmoved (.refl b)
  · rename_i htext
    split at h
    · cases h
      exact .unmoved (.refl b)
    · rename_i hallowed
      obtain ⟨storage, hins, h⟩ := Option.bind_eq_some_iff.1 h
      obtain ⟨recorded, hrec, h⟩ := Option.bind_eq_some_iff.1 h
      cases h
      exact inserted_wrote hpoint htext hallowed hpoint hins hrec

theorem eraseRange_wrote {start stop : Nat} (hle : start ≤ stop) (hstop : stop ≤ b.storage.byteLength)
    (h : b.eraseRange p start stop = some b') : Wrote false b b' := by
  obtain ⟨length, rfl⟩ := Nat.exists_eq_add_of_le hle
  simp only [eraseRange, Nat.add_sub_cancel_left] at h
  split at h
  · cases h
    exact .unmoved (.refl b)
  · rename_i hallowed
    obtain ⟨recorded, hrec, h⟩ := Option.bind_eq_some_iff.1 h
    cases h
    have hlen : (b.storage.erased start length).byteLength = b.storage.byteLength - length :=
      eraseAt_length hstop
    have hmoved := applyDelete_point_le (p := p)
      (b := { b with storage := b.storage.erased start length }) hpoint hstop
    have happlied := applied_delete (p := p) b (b.storage.erased start length) start (start + length)
    rw [Nat.add_sub_cancel_left] at happlied
    rw [← hlen] at hmoved
    obtain ⟨hstorage, hedited⟩ := happlied.editedWithin hrec hstop (by omega) hmoved
    rw [applyDelete_excerptRanges] at hedited
    exact .erased (by simpa using hallowed) (congrArg Storage.bytes hstorage) hedited

theorem deleteBackwardAtPoint_wrote (h : b.deleteBackwardAtPoint p = some (.ok b')) :
    Wrote false b b' := by
  have h := whenWritable_eq_ok h
  split at h
  · cases h
    exact .unmoved (.refl b)
  · obtain ⟨start, hstart, h⟩ := Option.bind_eq_some_iff.1 h
    exact eraseRange_wrote hpoint (previousGraphemeBoundary_le hpoint hstart) hpoint h

theorem deleteForwardAtPoint_wrote (h : b.deleteForwardAtPoint p = some (.ok b')) :
    Wrote false b b' := by
  have h := whenWritable_eq_ok h
  split at h
  · cases h
    exact .unmoved (.refl b)
  · obtain ⟨stop, hstop, h⟩ := Option.bind_eq_some_iff.1 h
    exact eraseRange_wrote hpoint (le_nextGraphemeBoundary hpoint hstop) (nextGraphemeBoundary_le hstop) h

theorem deleteRange_wrote {byteOffset byteLength : Nat} {deleted : Bytes}
    (h : b.deleteRange p byteOffset byteLength = some (.ok (b', deleted))) : Wrote false b b' := by
  have h := whenWritable_eq_ok h
  simp only at h
  split at h
  · cases h
    exact .unmoved (.refl b)
  · split at h
    · cases h
      exact .unmoved (.refl b)
    · obtain ⟨erased, herased, h⟩ := Option.bind_eq_some_iff.1 h
      cases h
      exact eraseRange_wrote hpoint (Nat.le_add_right _ _) (by omega) herased

end Operations

/-! ## Moves in the undo tree -/

theorem updateUnsavedRangesForRestore_excerptRanges (b : Buffer) (oldStorage : Storage) :
    (b.updateUnsavedRangesForRestore oldStorage).excerptRanges = b.excerptRanges := by
  simp only [updateUnsavedRangesForRestore]
  split
  · split <;> rfl
  · split
    · rfl
    · split <;> split <;> rfl

theorem updateDiagnosticsForRestore_excerptRanges (b : Buffer) (oldStorage : Storage) :
    (b.updateDiagnosticsForRestore oldStorage).excerptRanges = b.excerptRanges := by
  simp only [updateDiagnosticsForRestore, relocateForRestore]
  split
  · rfl
  · split
    · rfl
    · split <;> split <;> rfl

theorem adoptCurrentState_excerptRanges (h : b.adoptCurrentState p = some b') :
    b'.excerptRanges = b.excerptRanges := by
  obtain ⟨storage, -, h⟩ := Option.bind_eq_some_iff.1 h
  obtain ⟨positions, hpositions, h⟩ := Option.bind_eq_some_iff.1 h
  cases h
  have hranges := TrackedPositions.clampToContent_excerptRanges _ hpositions
  exact hranges

def withOffsets (ranges : List ExcerptRange) (offsets : List (Nat × Nat)) : List ExcerptRange :=
  List.zipWith (fun range offset => { range with start := offset.1, stop := offset.2 }) ranges offsets

theorem navigate_excerptRanges {tree : UndoTree} {sequence : Nat} {offsets : List (Nat × Nat)}
    (hsequence : tree.currentSequence = some sequence)
    (hlookup : b.excerptRangeOffsetSnapshots.lookup sequence = some offsets)
    (hlength : offsets.length = b.excerptRanges.length) (h : b.navigate p tree = some b') :
    b'.excerptRanges = withOffsets b.excerptRanges offsets := by
  obtain ⟨a, ha, h⟩ := Option.bind_eq_some_iff.1 h
  obtain ⟨restored, hrestored, h⟩ := Option.bind_eq_some_iff.1 h
  obtain rfl := Option.some.inj h
  have hadopted := adoptCurrentState_spec ha
  have hadoptedRanges : a.excerptRanges = b.excerptRanges := by
    have hranges := adoptCurrentState_excerptRanges ha
    exact hranges
  obtain ⟨offset, oldLength, newLength, hcommit⟩ := commitRestore_spec a b.storage
  have hranges := updateUnsavedRangesForRestore_excerptRanges
    (a.commitReplace offset oldLength newLength) b.storage
  obtain ⟨-, -, -, -, hrecording⟩ :=
    updateUnsavedRangesForRestore_spec (a.commitReplace offset oldLength newLength) b.storage
  rw [hcommit] at hrestored ⊢
  generalize (a.commitReplace offset oldLength newLength).updateUnsavedRangesForRestore b.storage = c
    at hrestored hranges hrecording ⊢
  have hc : c.excerptRanges = b.excerptRanges := hranges.trans hadoptedRanges
  have hrec := hrecording.trans hadopted.recording
  have htree : c.undoTree = tree := congrArg UndoRecording.undoTree hrec
  have hsnapshots : c.excerptRangeOffsetSnapshots = b.excerptRangeOffsetSnapshots :=
    (congrArg UndoRecording.excerptRangeOffsetSnapshots hrec).trans rfl
  rw [updateDiagnosticsForRestore_excerptRanges]
  simp only [restoreExcerptRangeOffsets, hc, htree, hsnapshots, hsequence, Option.bind_eq_bind,
    Option.bind_some, hlookup, hlength] at hrestored
  split at hrestored
  · rename_i hempty
    cases hrestored
    rw [List.isEmpty_iff] at hempty
    rw [Option.getD_some, hc, hempty]
    rfl
  · simp only [ne_eq, not_true, if_false, Option.some.injEq] at hrestored
    cases hrestored
    rfl

end Buffer

/-! ## Steps -/

namespace Session

variable {p : Platform}

/-- Insertions, deletions, moves of the point, undo and saves. -/
def Edits : Operation → Prop
  | .insertAt .. => True
  | .appendWhileReadOnly .. => True
  | .insertAtPoint .. => True
  | .deleteRange .. => True
  | .deleteBackwardAtPoint => True
  | .deleteForwardAtPoint => True
  | .setPoint .. => True
  | .moveForward => True
  | .moveBackward => True
  | .setExcerptRanges .. => True
  | .beginUndoGroup => True
  | .endUndoGroup => True
  | .undo => True
  | .redo => True
  | .tryJumpToUndoSequence .. => True
  | .beginSave .. => True
  | .finishSave => True
  | .abandonSave => True
  | _ => False

structure Moved (b b' : Buffer) : Prop where
  storage : b'.storage = b.storage
  changes : b'.toUnsavedChanges = b.toUnsavedChanges
  recording : b'.toUndoRecording = { b.toUndoRecording with canAmend := false }
  excerptRanges : b'.excerptRanges = b.excerptRanges
  point : b'.point ≤ b.storage.byteLength

structure Saved (changes : UnsavedChanges) (b b' : Buffer) : Prop where
  storage : b'.storage = b.storage
  changes : b'.toUnsavedChanges = changes
  recording : b'.toUndoRecording = b.toUndoRecording
  excerptRanges : b'.excerptRanges = b.excerptRanges
  point : b'.point = b.point

/-- What a step of an editing session does. -/
inductive EditStep (p : Platform) (s : Session) : Operation → Session → Prop
  | idle {op : Operation} : EditStep p s op s
  | wrote {op : Operation} {canAmend : Bool} {b : Buffer} (h : s.buffer.Wrote canAmend b) :
      EditStep p s op { s with buffer := b }
  | moved {op : Operation} {b : Buffer} (h : Moved s.buffer b) : EditStep p s op { s with buffer := b }
  | marked {ranges : List ExcerptRange} {b : Buffer} (h : s.buffer.setExcerptRanges ranges = some b) :
      EditStep p s (.setExcerptRanges ranges) { s with buffer := b }
  | begunGroup : EditStep p s .beginUndoGroup { s with buffer := s.buffer.beginUndoGroup }
  | endedGroup {b : Buffer} (h : s.buffer.endUndoGroup = some b) :
      EditStep p s .endUndoGroup { s with buffer := b }
  | navigated {op : Operation} {tree : UndoTree} {b : Buffer} (hmoves : s.MovesTo op tree)
      (h : s.buffer.navigate p tree = some b) : EditStep p s op { s with buffer := b }
  | saved {op : Operation} {b : Buffer} {plan : Option SavePlan} {changes : UnsavedChanges}
      (hchanges : changes = s.buffer.toUnsavedChanges.beginSave ∨
        changes = s.buffer.toUnsavedChanges.commitSave ∨
        changes = s.buffer.toUnsavedChanges.abandonSave) (h : Saved changes s.buffer b) :
      EditStep p s op { buffer := b, plan := plan }

theorem beginSave_saved {b b' : Buffer} {ensureFinalNewline trimTrailingWhitespace : Bool}
    {lineEndingOverride : Option LineEnding} {plan : SavePlan}
    (h : b.beginSave ensureFinalNewline trimTrailingWhitespace lineEndingOverride = .ok (b', plan)) :
    Saved b.toUnsavedChanges.beginSave b b' := by
  unfold Buffer.beginSave at h
  cases hsavable : b.requireSavable with
  | error message =>
      rw [hsavable] at h
      cases h
  | ok _ =>
      rw [hsavable] at h
      cases h
      exact ⟨rfl, rfl, rfl, rfl, rfl⟩

theorem editStep {s s' : Session} {op : Operation} (hop : Edits op)
    (hpoint : s.buffer.point ≤ s.buffer.storage.byteLength) (hstep : s.step p op = some s') :
    EditStep p s op s' := by
  cases op with
  | insertAt byteOffset text =>
      rcases settle_eq_some hstep with ⟨b, hb, rfl⟩ | rfl
      · exact .wrote (Buffer.insertAt_wrote hpoint hb)
      · exact .idle
  | appendWhileReadOnly text =>
      rcases settle_eq_some hstep with ⟨b, hb, rfl⟩ | rfl
      · exact .wrote (Buffer.appendWhileReadOnly_wrote hpoint hb)
      · exact .idle
  | insertAtPoint text =>
      rcases settle_eq_some hstep with ⟨b, hb, rfl⟩ | rfl
      · exact .wrote (Buffer.insertAtPoint_wrote hpoint hb)
      · exact .idle
  | deleteRange byteOffset byteLength =>
      rcases settle_eq_some hstep with ⟨b, hb, rfl⟩ | rfl
      · obtain ⟨deleted, hb⟩ := map_fst_eq_ok hb
        exact .wrote (Buffer.deleteRange_wrote hpoint hb)
      · exact .idle
  | deleteBackwardAtPoint =>
      rcases settle_eq_some hstep with ⟨b, hb, rfl⟩ | rfl
      · exact .wrote (Buffer.deleteBackwardAtPoint_wrote hpoint hb)
      · exact .idle
  | deleteForwardAtPoint =>
      rcases settle_eq_some hstep with ⟨b, hb, rfl⟩ | rfl
      · exact .wrote (Buffer.deleteForwardAtPoint_wrote hpoint hb)
      · exact .idle
  | setPoint byteOffset =>
      obtain ⟨b, hb, rfl⟩ := update_eq_some hstep
      obtain ⟨point, hsnap, hb⟩ := Option.bind_eq_some_iff.1 hb
      cases hb
      exact .moved ⟨rfl, rfl, rfl, rfl, Buffer.snap_le hsnap⟩
  | moveForward =>
      obtain ⟨b, hb, rfl⟩ := update_eq_some hstep
      obtain ⟨point, hnext, hb⟩ := Option.bind_eq_some_iff.1 hb
      cases hb
      exact .moved ⟨rfl, rfl, rfl, rfl, nextGraphemeBoundary_le hnext⟩
  | moveBackward =>
      obtain ⟨b, hb, rfl⟩ := update_eq_some hstep
      obtain ⟨point, hprevious, hb⟩ := Option.bind_eq_some_iff.1 hb
      cases hb
      exact .moved ⟨rfl, rfl, rfl, rfl,
        Nat.le_trans (previousGraphemeBoundary_le hpoint hprevious) hpoint⟩
  | setExcerptRanges ranges =>
      obtain ⟨b, hb, rfl⟩ := update_eq_some hstep
      exact .marked hb
  | beginUndoGroup =>
      obtain ⟨b, hb, rfl⟩ := update_eq_some hstep
      cases hb
      exact .begunGroup
  | endUndoGroup =>
      obtain ⟨b, hb, rfl⟩ := update_eq_some hstep
      exact .endedGroup hb
  | undo =>
      obtain ⟨b, hb, rfl⟩ := update_eq_some hstep
      rcases Buffer.undo_navigate hb with ⟨-, rfl⟩ | ⟨tree, hable, htree, hb⟩
      · exact .idle
      · exact .navigated (.undo hable htree) hb
  | redo =>
      obtain ⟨b, hb, rfl⟩ := update_eq_some hstep
      rcases Buffer.redo_navigate hb with ⟨-, rfl⟩ | ⟨tree, hable, htree, hb⟩
      · exact .idle
      · exact .navigated (.redo hable htree) hb
  | tryJumpToUndoSequence sequence =>
      obtain ⟨b, hb, rfl⟩ := update_eq_some hstep
      obtain ⟨⟨b, moved⟩, hjump, rfl⟩ := Option.map_eq_some_iff.1 hb
      rcases Buffer.tryJumpToUndoSequence_navigate hjump with ⟨-, rfl⟩ | ⟨tree, htree, hb⟩
      · exact .idle
      · exact .navigated (.tryJumpToUndoSequence htree) hb
  | beginSave ensureFinalNewline trimTrailingWhitespace lineEndingOverride =>
      simp only [Session.step] at hstep
      split at hstep
      · rename_i b plan hb
        cases hstep
        exact .saved (Or.inl rfl) (beginSave_saved hb)
      · cases hstep
        exact .idle
  | finishSave =>
      obtain ⟨plan, -, hstep⟩ := Option.bind_eq_some_iff.1 hstep
      cases hstep
      exact .saved (Or.inr (Or.inl rfl)) ⟨rfl, rfl, rfl, rfl, rfl⟩
  | abandonSave =>
      cases hstep
      exact .saved (Or.inr (Or.inr rfl)) ⟨rfl, rfl, rfl, rfl, rfl⟩
  | _ => exact hop.elim

theorem MovesTo.step_eq {s s' : Session} {op : Operation} {tree : UndoTree} (h : s.MovesTo op tree)
    (hstep : s.step p op = some s') :
    ∃ b, s' = { s with buffer := b } ∧ s.buffer.navigate p tree = some b := by
  cases h with
  | undo hable htree =>
      obtain ⟨b, hb, rfl⟩ := update_eq_some hstep
      rcases Buffer.undo_navigate hb with ⟨hunable, -⟩ | ⟨tree', -, htree', hb⟩
      · rw [hable] at hunable
        cases hunable
      · obtain rfl := Option.some.inj (htree.symm.trans htree')
        exact ⟨b, rfl, hb⟩
  | redo hable htree =>
      obtain ⟨b, hb, rfl⟩ := update_eq_some hstep
      rcases Buffer.redo_navigate hb with ⟨hunable, -⟩ | ⟨tree', -, htree', hb⟩
      · rw [hable] at hunable
        cases hunable
      · obtain rfl := Option.some.inj (htree.symm.trans htree')
        exact ⟨b, rfl, hb⟩
  | tryJumpToUndoSequence htree =>
      obtain ⟨b, hb, rfl⟩ := update_eq_some hstep
      obtain ⟨⟨b, moved⟩, hjump, rfl⟩ := Option.map_eq_some_iff.1 hb
      rcases Buffer.tryJumpToUndoSequence_navigate hjump with ⟨hunknown, -⟩ | ⟨tree', htree', hb⟩
      · rw [Buffer.jumpTo_unknown hunknown] at htree
        cases htree
      · obtain ⟨rfl, -⟩ := Prod.mk.inj (Option.some.inj (htree.symm.trans htree'))
        exact ⟨b, rfl, hb⟩

theorem EditStep.point {s s' : Session} {op : Operation} (h : EditStep p s op s')
    (hpoint : s.buffer.point ≤ s.buffer.storage.byteLength) :
    s'.buffer.point ≤ s'.buffer.storage.byteLength := by
  cases h with
  | idle => exact hpoint
  | wrote h =>
      cases h with
      | unmoved h => rwa [h.storage, h.point]
      | inserted _ _ h => exact h.point
      | erased _ _ h => exact h.point
  | moved h =>
      rw [h.storage]
      exact h.point
  | marked h =>
      obtain ⟨recording, -, h⟩ := Option.bind_eq_some_iff.1 h
      cases h
      exact hpoint
  | begunGroup => exact hpoint
  | endedGroup h =>
      obtain ⟨recording, -, h⟩ := Option.bind_eq_some_iff.1 h
      cases h
      exact hpoint
  | navigated _ h => exact (Buffer.navigate_within h).point
  | saved _ h => rwa [h.storage, h.point]

end Session

end Ned.Text
