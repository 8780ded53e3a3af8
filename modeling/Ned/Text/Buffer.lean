import Ned.Library.Runs
import Ned.Text.Grapheme
import Ned.Text.Positions
import Ned.Text.SavePlan
import Ned.Text.ThreeWayMerge
import Ned.Text.Tracking
import Ned.Text.UndoTree

/-!
# Unsaved changes

The byte ranges in which a buffer differs from what was saved, and those in which it will differ once
the save in flight completes. Every edit carries both along.
-/

namespace Ned.Text

abbrev ByteRange := Nat × Nat

/-! ## Sets of ranges -/

/-- The merging loop of `MergeUnsavedRange`. -/
def absorb (mergedStart mergedEnd : Nat) : List ByteRange → List ByteRange
  | [] => [(mergedStart, mergedEnd)]
  | range :: ranges =>
      if range.1 ≤ mergedEnd then
        absorb (min mergedStart range.1) (max mergedEnd range.2) ranges
      else
        (mergedStart, mergedEnd) :: range :: ranges

def mergeUnsavedRange (start stop : Nat) : List ByteRange → List ByteRange
  | [] => absorb start stop []
  | range :: ranges =>
      if range.2 < start then
        range :: mergeUnsavedRange start stop ranges
      else
        absorb start stop (range :: ranges)

def moveRanges (move : Nat → Nat) (ranges : List ByteRange) : List ByteRange :=
  ranges.map fun range => (move range.1, move range.2)

def markRangeInserted (ranges : List ByteRange) (insertOffset length : Nat) : List ByteRange :=
  mergeUnsavedRange insertOffset (insertOffset + length)
    (moveRanges (relocateForInsert · insertOffset length) ranges)

def markRangeDeleted (ranges : List ByteRange) (rangeStart rangeEnd : Nat) (mark : ByteRange) :
    List ByteRange :=
  let left := (moveRanges (relocateForDelete · rangeStart rangeEnd) ranges).filter
    fun range => decide (range.1 < range.2)
  if mark.2 > mark.1 then mergeUnsavedRange mark.1 mark.2 left else left

/-- The byte that stands for a deletion: the one after it, else the one before it. -/
def deletionMark (rangeStart contentLength : Nat) : ByteRange :=
  let markEnd := min (rangeStart + 1) contentLength
  if markEnd ≤ rangeStart ∧ rangeStart > 0 then
    (rangeStart - 1, rangeStart)
  else
    (rangeStart, markEnd)

/-! ## Both sets -/

structure UnsavedChanges where
  unsavedChangeRanges : List ByteRange := []
  unsavedChangeGeneration : Nat := 0
  saving : Bool := false
  saveInFlightRanges : List ByteRange := []
  deriving DecidableEq

namespace UnsavedChanges

variable (changes : UnsavedChanges)

/-- Applies one marking to both sets; the second one is only kept while a save is in flight. -/
def mark (update : List ByteRange → List ByteRange) : UnsavedChanges :=
  { changes with
    unsavedChangeRanges := update changes.unsavedChangeRanges
    saveInFlightRanges :=
      if changes.saving then update changes.saveInFlightRanges else changes.saveInFlightRanges
    unsavedChangeGeneration := changes.unsavedChangeGeneration + 1 }

def markUnsavedRangeInserted (insertOffset length : Nat) : UnsavedChanges :=
  changes.mark fun ranges => markRangeInserted ranges insertOffset length

/-- `contentLength` is the length of the content after the deletion. -/
def markUnsavedRangeDeleted (rangeStart rangeEnd contentLength : Nat) : UnsavedChanges :=
  changes.mark fun ranges =>
    markRangeDeleted ranges rangeStart rangeEnd (deletionMark rangeStart contentLength)

def clear : UnsavedChanges :=
  { changes with
    unsavedChangeRanges := []
    unsavedChangeGeneration := changes.unsavedChangeGeneration + 1 }

/-- The whole content is one unsaved range. -/
def markWhole (contentLength : Nat) : UnsavedChanges :=
  { changes with
    unsavedChangeRanges := if contentLength > 0 then mergeUnsavedRange 0 contentLength [] else []
    unsavedChangeGeneration := changes.unsavedChangeGeneration + 1 }

/-! ## The save in flight -/

def beginSave : UnsavedChanges := { changes with saving := true, saveInFlightRanges := [] }

def commitSave : UnsavedChanges :=
  { unsavedChangeRanges := changes.saveInFlightRanges
    saveInFlightRanges := []
    saving := false
    unsavedChangeGeneration := changes.unsavedChangeGeneration + 1 }

def abandonSave : UnsavedChanges := { changes with saving := false, saveInFlightRanges := [] }

end UnsavedChanges

/-!
## Buffers

An editable text with its cursor, its undo tree, the changes since the last save, and the saves and
loads in progress. An operation is `none` where the code would not return, and an error where it
throws; it throws before it changes anything.
-/

open Ned.Library

/-- What the buffer takes from outside: grapheme breaking and sorting. -/
structure Platform where
  graphemeBreak : GraphemeBreak
  keySort : KeySort

/-- How far the content has been seen, for a buffer that only grows at its end. -/
structure SeenFrontier where
  seenByteOffset : Nat := 0
  pendingSeenByte : Nat := 0
  seenGeneration : Nat := 0
  unseenTracking : Bool := false
  seenBaseline : Bool := false
  deriving DecidableEq

def SeenFrontier.disarm (seen : SeenFrontier) : SeenFrontier :=
  if !seen.unseenTracking && !seen.seenBaseline && seen.seenByteOffset == 0 then
    seen
  else
    { seenByteOffset := 0, pendingSeenByte := 0, seenGeneration := seen.seenGeneration + 1,
      unseenTracking := false, seenBaseline := false }

/-- What an edit does to the frontier: only an append at the very end keeps it. -/
def SeenFrontier.relocate (seen : SeenFrontier) (offset oldLength newLength contentLength : Nat) :
    SeenFrontier :=
  let tailAppend := oldLength == 0 && decide (offset ≥ seen.seenByteOffset) &&
    offset + newLength == contentLength
  if seen.unseenTracking && !tailAppend then seen.disarm else seen

structure Buffer extends TrackedPositions, SeenFrontier, UnsavedChanges, UndoRecording, Tracking where
  name : String
  storage : Storage
  savedSnapshot : Storage
  savingSnapshotBytes : Nat := 0
  goalColumn : Option Nat := none
  readOnly : Bool := false
  readOnlyReason : Option String := none
  loading : Bool := false
  saveGeneration : Nat := 0
  fileGeneration : Nat := 0
  lineEnding : LineEnding := .lf
  charset : Charset := .utf8
  charsetChosen : Bool := false
  diskCharset : Option Charset := none

namespace Buffer

/-- A buffer over its initial content, which also counts as saved. -/
def ofStorage (name : String) (storage : Storage) : Buffer :=
  { toTrackedPositions := {}
    toSeenFrontier := {}
    toUnsavedChanges := {}
    toUndoRecording := { undoTree := .ofState storage }
    toTracking := .initial
    name := name
    storage := storage
    savedSnapshot := storage }

/-- The empty buffer an asynchronous load fills, after `MarkLoading`. -/
def placeholder (name : String) (forceReadOnly : Bool) : Buffer :=
  { ofStorage name .empty with loading := true, readOnly := forceReadOnly }

variable (p : Platform) (b : Buffer)

def modified : Bool :=
  if !b.unsavedChangeRanges.isEmpty then
    true
  else
    b.storage.byteLength == 0 && b.savedSnapshot.byteLength != 0

def modifiedAfterPendingSave : Bool :=
  if !b.saving then
    b.modified
  else if !b.saveInFlightRanges.isEmpty then
    true
  else
    b.storage.byteLength == 0 && b.savingSnapshotBytes != 0

def readOnlyErrorMessage : String :=
  match b.readOnlyReason with
  | some reason => "Buffer is read-only: " ++ reason
  | none => "Buffer is read-only."

/-- The check every edit makes on entry. -/
def whenWritable {α : Type} (edit : Option α) : Option (Except String α) :=
  if b.readOnly then some (.error b.readOnlyErrorMessage) else edit.map .ok

def snap (byteOffset : Nat) : Option Nat :=
  snapToGraphemeBoundary p.graphemeBreak b.storage byteOffset

/-! ## Publishing a change -/

def commitInsert (offset length : Nat) : Buffer :=
  { b with toTracking := b.toTracking.commitInsert offset length }

def commitDelete (rangeStart rangeEnd : Nat) : Buffer :=
  { b with toTracking := b.toTracking.commitDelete rangeStart rangeEnd }

def commitReplace (offset oldLength newLength : Nat) : Buffer :=
  { b with toTracking := b.toTracking.commitReplace offset oldLength newLength }

def commitBarrier : Buffer :=
  { b with
    toTracking := b.toTracking.commitBarrier
    toSeenFrontier := b.toSeenFrontier.disarm
    toTrackedPositions := b.toTrackedPositions.clearDiagnostics }

def markUnsavedRangeDeleted (rangeStart rangeEnd : Nat) : Buffer :=
  { b with
    toUnsavedChanges :=
      b.toUnsavedChanges.markUnsavedRangeDeleted rangeStart rangeEnd b.storage.byteLength }

def markUnsavedRangeInserted (insertOffset length : Nat) : Buffer :=
  { b with toUnsavedChanges := b.toUnsavedChanges.markUnsavedRangeInserted insertOffset length }

/-- Everything that has an offset, carried through an edit the storage already holds. -/
def relocateTrackedState (offset oldLength newLength : Nat) : Buffer :=
  let b := { b with
    toSeenFrontier :=
      b.toSeenFrontier.relocate offset oldLength newLength b.storage.byteLength }
  let b :=
    if oldLength > 0 then
      { b with
        toTrackedPositions :=
          b.toTrackedPositions.relocateForDeletion p.keySort offset
            (offset + oldLength) }.markUnsavedRangeDeleted offset (offset + oldLength)
    else
      b
  if newLength > 0 then
    { b with
      toTrackedPositions :=
        b.toTrackedPositions.relocateForInsertion offset newLength }.markUnsavedRangeInserted offset
          newLength
  else
    b

def applyInsert (offset length : Nat) : Buffer :=
  (b.relocateTrackedState p offset 0 length).commitInsert offset length

def applyDelete (rangeStart rangeEnd : Nat) : Buffer :=
  (b.relocateTrackedState p rangeStart (rangeEnd - rangeStart) 0).commitDelete rangeStart rangeEnd

/-! ## Recording for undo -/

/-- The offsets `SnapshotExcerptRangeOffsets` keeps. -/
def excerptOffsets : List (Nat × Nat) := b.excerptRanges.map fun range => (range.start, range.stop)

def recordOrAmendUndo (canAmend : Bool) : Option Buffer := do
  let recording ← b.toUndoRecording.recordOrAmendUndo b.storage b.excerptOffsets canAmend
  some { b with toUndoRecording := recording }

def recordOrAmendLoadAppend : Option Buffer := do
  let recording ← b.toUndoRecording.recordOrAmendLoadAppend b.storage b.excerptOffsets
  some { b with toUndoRecording := recording }

def beginUndoGroup : Buffer := { b with toUndoRecording := b.toUndoRecording.beginUndoGroup }

def endUndoGroup : Option Buffer := do
  let recording ← b.toUndoRecording.endUndoGroup b.storage b.excerptOffsets
  some { b with toUndoRecording := recording }

/-! ## Editing -/

def insertAtImpl (byteOffset : Nat) (text : Bytes) : Option Buffer :=
  let byteOffset := min byteOffset b.storage.byteLength
  if text.isEmpty then
    some b
  else if !b.canInsertAtExcerpt byteOffset then
    some b
  else do
    let storage ← b.storage.inserted byteOffset text
    let b := { b with storage := storage }.applyInsert p byteOffset text.length
    let b ← b.recordOrAmendUndo false
    some { b with goalColumn := none }

def insertAt (byteOffset : Nat) (text : Bytes) : Option (Except String Buffer) :=
  b.whenWritable (b.insertAtImpl p byteOffset text)

def appendWhileReadOnly (text : Bytes) : Option (Except String Buffer) :=
  if !b.readOnly then
    some (.error "AppendWhileReadOnly called on a writable buffer.")
  else do
    let b ← b.insertAtImpl p b.storage.byteLength text
    some (.ok
      (if b.unseenTracking then
        b
      else
        { b with unseenTracking := true, seenGeneration := b.seenGeneration + 1 }))

def insertAtPoint (text : Bytes) : Option (Except String Buffer) :=
  b.whenWritable <|
    if text.isEmpty then
      some b
    else if !b.canInsertAtExcerpt b.point then
      some b
    else do
      let insertOffset := b.point
      let storage ← b.storage.inserted insertOffset text
      let b := { b with storage := storage }.applyInsert p insertOffset text.length
      let b ← b.recordOrAmendUndo true
      some { b with goalColumn := none }

/-- What the three deletions do once they know their range. -/
def eraseRange (start stop : Nat) : Option Buffer :=
  if !b.canDeleteExcerptRange start stop then
    some b
  else do
    let b := { b with storage := b.storage.erased start (stop - start) }.applyDelete p start stop
    let b ← b.recordOrAmendUndo false
    some { b with goalColumn := none }

def deleteBackwardAtPoint : Option (Except String Buffer) :=
  b.whenWritable <|
    if b.point = 0 then
      some b
    else do
      let start ← previousGraphemeBoundary p.graphemeBreak b.storage b.point
      b.eraseRange p start b.point

def deleteForwardAtPoint : Option (Except String Buffer) :=
  b.whenWritable <|
    if b.point ≥ b.storage.byteLength then
      some b
    else do
      let stop ← nextGraphemeBoundary p.graphemeBreak b.storage b.point
      b.eraseRange p b.point stop

/-- The buffer, and the text deleted. -/
def deleteRange (byteOffset byteLength : Nat) : Option (Except String (Buffer × Bytes)) :=
  b.whenWritable <|
    let byteOffset := min byteOffset b.storage.byteLength
    let byteLength := min byteLength (b.storage.byteLength - byteOffset)
    if byteLength = 0 then
      some (b, [])
    else if !b.canDeleteExcerptRange byteOffset (byteOffset + byteLength) then
      some (b, [])
    else do
      let deleted := b.storage.substring byteOffset byteLength
      let b ← b.eraseRange p byteOffset (byteOffset + byteLength)
      some (b, deleted)

/-! ## Cursors -/

def setPoint (byteOffset : Nat) : Option Buffer := do
  let point ← b.snap p byteOffset
  some { b with point := point, canAmend := false, goalColumn := none }

def setMark (byteOffset : Nat) : Option Buffer := do
  let mark ← b.snap p byteOffset
  some { b with mark := some mark }

def clearMark : Buffer := { b with mark := none }

def moveForward : Option Buffer := do
  let point ← nextGraphemeBoundary p.graphemeBreak b.storage b.point
  some { b with point := point, canAmend := false, goalColumn := none }

def moveBackward : Option Buffer := do
  let point ← previousGraphemeBoundary p.graphemeBreak b.storage b.point
  some { b with point := point, canAmend := false, goalColumn := none }

def addCursorAt (point : Nat) (mark : Option Nat) : Option Buffer := do
  let point ← b.snap p (min point b.storage.byteLength)
  let mark ← mark.mapM fun mark => b.snap p (min mark b.storage.byteLength)
  if point = b.point ∨ b.secondaryCursors.any (·.point == point) then
    some b
  else
    let added : TrackedPositions :=
      { b.toTrackedPositions with
        secondaryCursors :=
          b.secondaryCursors ++ [{ point := point, mark := mark, goalColumn := none }]
        addedCursorOrder := b.addedCursorOrder ++ [point] }
    some { b with toTrackedPositions := added.normalizeSecondaryCursors p.keySort }

def narrowToRegion (start stop : Nat) : Buffer :=
  let startLine := b.storage.byteOffsetToLine (min (min start stop) b.storage.byteLength)
  let endLine := b.storage.byteOffsetToLine (min (max start stop) b.storage.byteLength)
  let snappedStart := b.storage.lineToByteOffset startLine
  let snappedEnd :=
    if endLine + 1 < b.storage.lineCount then
      b.storage.lineToByteOffset (endLine + 1)
    else
      b.storage.byteLength
  let maxPoint := if snappedEnd > snappedStart then snappedEnd - 1 else snappedStart
  { b with
    narrowedRange := some (snappedStart, snappedEnd)
    point := max snappedStart (min b.point maxPoint) }

def widen : Buffer := { b with narrowedRange := none }

def setExcerptRanges (ranges : List ExcerptRange) : Option Buffer := do
  let b := { b with excerptRanges := ranges, excerptRangeOffsetSnapshots := [] }
  let recording ← b.toUndoRecording.snapshotExcerptRangeOffsets b.excerptOffsets
  some { b with toUndoRecording := recording }

def setSnippetRanges (ranges : List SnippetRange) : Buffer := { b with snippetRanges := ranges }

def setDiagnostics (diagnostics : List Diagnostic) : Buffer :=
  { b with diagnostics := diagnostics, diagnosticsGeneration := b.diagnosticsGeneration + 1 }

/-! ## Undo -/

def updateUnsavedRangesForRestore (oldStorage : Storage) : Buffer :=
  if storageContentEquals b.storage b.savedSnapshot then
    if b.unsavedChangeRanges.isEmpty then
      b
    else
      { b with toUnsavedChanges := b.toUnsavedChanges.clear }
  else
    match changedByteRange oldStorage b.storage with
    | none => b
    | some span =>
        let b :=
          if span.oldEnd > span.oldStart then
            b.markUnsavedRangeDeleted span.oldStart span.oldEnd
          else
            b
        if span.newEnd > span.newStart then
          b.markUnsavedRangeInserted span.newStart (span.newEnd - span.newStart)
        else
          b

/-- Relocates positions through the diff of a restore, its delete half first. -/
def relocateForRestore (oldStorage : Storage)
    (delete insert : TrackedPositions → Nat → Nat → TrackedPositions) : Buffer :=
  match changedByteRange oldStorage b.storage with
  | none => b
  | some span =>
      let positions :=
        if span.oldEnd > span.oldStart then
          delete b.toTrackedPositions span.oldStart span.oldEnd
        else
          b.toTrackedPositions
      { b with
        toTrackedPositions :=
          if span.newEnd > span.newStart then
            insert positions span.newStart (span.newEnd - span.newStart)
          else
            positions }

def updateDiagnosticsForRestore (oldStorage : Storage) : Buffer :=
  if b.diagnostics.isEmpty then
    b
  else
    b.relocateForRestore oldStorage TrackedPositions.relocateDiagnosticsForDelete
      TrackedPositions.relocateDiagnosticsForInsert

def updateExcerptRangesForRestore (oldStorage : Storage) : Buffer :=
  if b.excerptRanges.isEmpty then
    b
  else
    b.relocateForRestore oldStorage TrackedPositions.relocateExcerptRangesForDelete
      TrackedPositions.relocateExcerptRangesForInsert

/-- The offsets recorded at the current node, `none` when they do not fit the excerpts. -/
def restoreExcerptRangeOffsets : Option (Option Buffer) :=
  if b.excerptRanges.isEmpty then
    some (some b)
  else do
    let sequence ← b.undoTree.currentSequence
    match b.excerptRangeOffsetSnapshots.lookup sequence with
    | none => some none
    | some offsets =>
        if offsets.length ≠ b.excerptRanges.length then
          some none
        else
          some (some
            { b with
              excerptRanges := List.zipWith
                (fun range offset => { range with start := offset.1, stop := offset.2 })
                b.excerptRanges offsets })

/-- `CommitReplace` of the one region a restore changed. -/
def commitRestore (oldStorage : Storage) : Buffer :=
  match changedByteRange oldStorage b.storage with
  | some span =>
      b.commitReplace span.oldStart (span.oldEnd - span.oldStart) (span.newEnd - span.newStart)
  | none => b.commitReplace 0 0 0

/-- The state of the current node as the content, with the cursors clamped into it. -/
def adoptCurrentState : Option Buffer := do
  let storage ← b.undoTree.currentState
  let b := { b with storage := storage }
  let positions ← b.toTrackedPositions.clearSecondaryCursors.clearSnippetRanges.clampToContent
    (b.snap p) storage.byteLength
  some
    { b with
      toTrackedPositions := positions
      canAmend := false
      canAmendLoadAppend := false
      goalColumn := none }

def applyUndoTreeNavigation (oldStorage : Storage) : Option Buffer := do
  let b ← b.adoptCurrentState p
  let b := (b.commitRestore oldStorage).updateUnsavedRangesForRestore oldStorage
  let restored ← b.restoreExcerptRangeOffsets
  let b := restored.getD (b.updateExcerptRangesForRestore oldStorage)
  some (b.updateDiagnosticsForRestore oldStorage)

def canUndo : Option Bool := b.undoTree.canUndo

def canRedo : Option Bool := b.undoTree.canRedo

/-- The undo tree moved to another node, and the buffer after it. -/
def navigate (tree : UndoTree) : Option Buffer :=
  { b with undoTree := tree }.applyUndoTreeNavigation p b.storage

def undo : Option Buffer := do
  if ← b.canUndo then
    let tree ← b.undoTree.undo
    b.navigate p tree
  else
    some b

def redo : Option Buffer := do
  if ← b.canRedo then
    let tree ← b.undoTree.redo
    b.navigate p tree
  else
    some b

def tryJumpToUndoSequence (sequence : Nat) : Option (Buffer × Bool) :=
  if !b.undoTree.hasSequence sequence then
    some (b, false)
  else do
    let (tree, known) ← b.undoTree.jumpTo sequence
    if known then do
      let b ← b.navigate p tree
      some (b, true)
    else
      some ({ b with undoTree := tree }, false)

def restoreUndoTree (nodes : List UndoTree.SerializedNode) (currentId : Nat) :
    Option (Except String Buffer) := do
  match ← UndoTree.deserialize nodes currentId with
  | .error message => some (.error message)
  | .ok restored => do
      let current ← restored.currentState
      if storageContentEquals current b.storage then
        some (.ok { b with undoTree := restored, canAmend := false })
      else
        some (.error
          "Buffer::RestoreUndoTree: restored tree's current content doesn't match buffer content")

/-! ## Saving -/

def requireSavable : Except String Unit :=
  if b.loading then
    .error ("ned: cannot save \"" ++ b.name ++ "\" -- still loading in the background")
  else if b.saving then
    .error ("ned: cannot save \"" ++ b.name ++ "\" -- a save is already in progress")
  else
    .ok ()

def startSavePlan (ending : LineEnding) (trimTrailingWhitespace ensureFinalNewline : Bool) :
    Buffer × SavePlan :=
  let plan : SavePlan :=
    { snapshot := b.storage
      lineEnding := ending
      trimTrailingWhitespace := trimTrailingWhitespace
      ensureFinalNewline := ensureFinalNewline
      charset := b.charset }
  ({ b with
      toUnsavedChanges := b.toUnsavedChanges.beginSave
      savingSnapshotBytes := plan.snapshot.byteLength }, plan)

def beginSave (ensureFinalNewline trimTrailingWhitespace : Bool)
    (lineEndingOverride : Option LineEnding) : Except String (Buffer × SavePlan) := do
  b.requireSavable
  return b.startSavePlan (lineEndingOverride.getD b.lineEnding) trimTrailingWhitespace
    ensureFinalNewline

/-- What `FinishSave` does beside the path and the timestamp. -/
def commitSave (plan : SavePlan) : Buffer :=
  { b with
    toUnsavedChanges := b.toUnsavedChanges.commitSave
    savedSnapshot := plan.snapshot
    lineEnding := plan.lineEnding
    charset := plan.charset
    diskCharset := if b.charsetChosen then some plan.charset else b.diskCharset
    saveGeneration := b.saveGeneration + 1 }

def abandonSave : Buffer := { b with toUnsavedChanges := b.toUnsavedChanges.abandonSave }

/-! ## Loading -/

def replaceContentForLoad (content : Bytes) : Option Buffer := do
  let storage ← Storage.ofText content
  some { b with storage := storage }.commitBarrier

def finishLoad (content : Bytes) (detectedEnding : Option LineEnding) (charset : Charset) :
    Option Buffer := do
  let storage ← Storage.ofText content
  some { b with
    readOnly := false
    storage := storage
    undoTree := .ofState storage
    savedSnapshot := storage
    lineEnding := detectedEnding.getD b.lineEnding
    charset := charset
    loading := false }.commitBarrier

def replaceContentForHugeLoad (content : Bytes) : Buffer :=
  { b with
    storage := .ofPieceTable content
    savedSnapshot := .ofPieceTable content }.commitBarrier

/-- `none` where the assertion on the two storages fails. -/
def appendHugeLoadChunk (fragment : Bytes) : Option Buffer :=
  if b.storage.huge && b.savedSnapshot.huge then do
    let appendOffset := b.storage.byteLength
    let b := { b with
      storage := b.storage.concatenated (.ofPieceTable fragment)
      savedSnapshot := b.savedSnapshot.concatenated (.ofPieceTable fragment) }
    let b ← b.recordOrAmendLoadAppend
    some (b.commitInsert appendOffset (b.storage.byteLength - appendOffset))
  else
    none

def finishHugeLoad : Buffer :=
  { b with readOnly := false, lineEnding := .lf, loading := false }.commitReplace 0 0 0

/-! ## Wholesale replacement -/

/-- What the three wholesale replacements share: new content, a point, one undo step, a barrier. -/
def adopt (storage : Storage) (point : Nat) : Option Buffer := do
  let b := { b with storage := storage }
  let point ← b.snap p (min point storage.byteLength)
  let b := { b with
    toTrackedPositions := { b.toTrackedPositions.clearForReplacement with point := point } }
  let b ← b.recordOrAmendUndo false
  some { b with goalColumn := none }.commitBarrier

/-- `AdoptReverted`, for the storage and the charset of the buffer just read. -/
def adoptReverted (fresh : Storage) (charset : Charset) : Option Buffer := do
  let b ← { b with charset := charset }.adopt p fresh b.point
  some { b with
    savedSnapshot := fresh
    toUnsavedChanges := b.toUnsavedChanges.clear
    saveGeneration := b.saveGeneration + 1
    fileGeneration := b.fileGeneration + 1 }

/-- The buffer after a merge with fresh disk content, and the number of conflicts. -/
def mergeFresh (fresh : Storage) : Option (Buffer × Nat) := do
  let result ← threeWayMerge p.keySort b.savedSnapshot.bytes b.storage.bytes fresh.bytes
  let storage ← Storage.ofText result.mergedText
  let b ← b.adopt p storage (result.firstConflictOffset.getD b.point)
  some
    ({ b with
        toUnsavedChanges := b.toUnsavedChanges.markWhole b.storage.byteLength
        savedSnapshot := fresh
        fileGeneration := b.fileGeneration + 1 }, result.conflictCount)

def restoreContent (content : Bytes) : Option Buffer := do
  let storage ← Storage.ofText content
  let b ← b.adopt p storage b.point
  some { b with toUnsavedChanges := b.toUnsavedChanges.markWhole b.storage.byteLength }

end Buffer

/-!
## Sessions

A buffer under any order of its operations, together with the save plan that is on its way to disk.
An operation that throws leaves the session as it was.
-/

inductive Operation where
  | insertAt (byteOffset : Nat) (text : Bytes)
  | appendWhileReadOnly (text : Bytes)
  | insertAtPoint (text : Bytes)
  | deleteRange (byteOffset byteLength : Nat)
  | deleteBackwardAtPoint
  | deleteForwardAtPoint
  | setPoint (byteOffset : Nat)
  | setMark (byteOffset : Nat)
  | clearMark
  | moveForward
  | moveBackward
  | addCursorAt (point : Nat) (mark : Option Nat)
  | narrowToRegion (start stop : Nat)
  | widen
  | setExcerptRanges (ranges : List ExcerptRange)
  | setSnippetRanges (ranges : List SnippetRange)
  | setDiagnostics (diagnostics : List Diagnostic)
  | beginUndoGroup
  | endUndoGroup
  | undo
  | redo
  | tryJumpToUndoSequence (sequence : Nat)
  | restoreUndoTree (nodes : List UndoTree.SerializedNode) (currentId : Nat)
  | beginSave (ensureFinalNewline trimTrailingWhitespace : Bool)
      (lineEndingOverride : Option LineEnding)
  | finishSave
  | abandonSave
  | replaceContentForLoad (content : Bytes)
  | finishLoad (content : Bytes) (detectedEnding : Option LineEnding) (charset : Charset)
  | replaceContentForHugeLoad (content : Bytes)
  | appendHugeLoadChunk (fragment : Bytes)
  | finishHugeLoad
  | adoptReverted (fresh : Storage) (charset : Charset)
  | mergeFresh (fresh : Storage)
  | restoreContent (content : Bytes)
  | createAnchor (offset : Nat) (policy : AnchorPolicy)
  | destroyAnchor (id : AnchorId)
  deriving DecidableEq

structure Session where
  buffer : Buffer
  plan : Option SavePlan

namespace Session

def ofBuffer (buffer : Buffer) : Session := { buffer := buffer, plan := none }

variable (p : Platform) (s : Session)

/-- Keeps the buffer of an operation that returned, and the session of one that threw. -/
def settle (outcome : Option (Except String Buffer)) : Option Session := do
  match ← outcome with
  | .ok b => some { s with buffer := b }
  | .error _ => some s

def update (outcome : Option Buffer) : Option Session := do
  let b ← outcome
  some { s with buffer := b }

/-- `finishSave` is only possible with a plan, which it consumes. -/
def step : Operation → Option Session
  | .insertAt byteOffset text => s.settle (s.buffer.insertAt p byteOffset text)
  | .appendWhileReadOnly text => s.settle (s.buffer.appendWhileReadOnly p text)
  | .insertAtPoint text => s.settle (s.buffer.insertAtPoint p text)
  | .deleteRange byteOffset byteLength =>
      s.settle ((s.buffer.deleteRange p byteOffset byteLength).map (Except.map Prod.fst))
  | .deleteBackwardAtPoint => s.settle (s.buffer.deleteBackwardAtPoint p)
  | .deleteForwardAtPoint => s.settle (s.buffer.deleteForwardAtPoint p)
  | .setPoint byteOffset => s.update (s.buffer.setPoint p byteOffset)
  | .setMark byteOffset => s.update (s.buffer.setMark p byteOffset)
  | .clearMark => s.update (some s.buffer.clearMark)
  | .moveForward => s.update (s.buffer.moveForward p)
  | .moveBackward => s.update (s.buffer.moveBackward p)
  | .addCursorAt point mark => s.update (s.buffer.addCursorAt p point mark)
  | .narrowToRegion start stop => s.update (some (s.buffer.narrowToRegion start stop))
  | .widen => s.update (some s.buffer.widen)
  | .setExcerptRanges ranges => s.update (s.buffer.setExcerptRanges ranges)
  | .setSnippetRanges ranges => s.update (some (s.buffer.setSnippetRanges ranges))
  | .setDiagnostics diagnostics => s.update (some (s.buffer.setDiagnostics diagnostics))
  | .beginUndoGroup => s.update (some s.buffer.beginUndoGroup)
  | .endUndoGroup => s.update s.buffer.endUndoGroup
  | .undo => s.update (s.buffer.undo p)
  | .redo => s.update (s.buffer.redo p)
  | .tryJumpToUndoSequence sequence =>
      s.update ((s.buffer.tryJumpToUndoSequence p sequence).map Prod.fst)
  | .restoreUndoTree nodes currentId => s.settle (s.buffer.restoreUndoTree nodes currentId)
  | .beginSave ensureFinalNewline trimTrailingWhitespace lineEndingOverride =>
      match s.buffer.beginSave ensureFinalNewline trimTrailingWhitespace lineEndingOverride with
      | .ok (b, plan) => some { buffer := b, plan := some plan }
      | .error _ => some s
  | .finishSave => do
      let plan ← s.plan
      some { buffer := s.buffer.commitSave plan, plan := none }
  | .abandonSave => some { buffer := s.buffer.abandonSave, plan := none }
  | .replaceContentForLoad content => s.update (s.buffer.replaceContentForLoad content)
  | .finishLoad content detectedEnding charset =>
      s.update (s.buffer.finishLoad content detectedEnding charset)
  | .replaceContentForHugeLoad content =>
      s.update (some (s.buffer.replaceContentForHugeLoad content))
  | .appendHugeLoadChunk fragment => s.update (s.buffer.appendHugeLoadChunk fragment)
  | .finishHugeLoad => s.update (some s.buffer.finishHugeLoad)
  | .adoptReverted fresh charset => s.update (s.buffer.adoptReverted p fresh charset)
  | .mergeFresh fresh => s.update ((s.buffer.mergeFresh p fresh).map Prod.fst)
  | .restoreContent content => s.update (s.buffer.restoreContent p content)
  | .createAnchor offset policy =>
      s.update (some
        { s.buffer with toTracking := (s.buffer.toTracking.createAnchor offset policy).2 })
  | .destroyAnchor id =>
      s.update (some { s.buffer with toTracking := s.buffer.toTracking.destroyAnchor id })

/-- The operations after which the buffer has another undo tree. -/
def replacesUndoTree : Operation → Bool
  | .finishLoad .. => true
  | .restoreUndoTree nodes currentId =>
      match s.buffer.restoreUndoTree nodes currentId with
      | some (.ok _) => true
      | _ => false
  | _ => false

/-- The operations that may amend the current undo node rather than add one. -/
def mayAmend : Operation → Bool
  | .insertAtPoint _ => s.buffer.canAmend
  | .appendHugeLoadChunk _ => s.buffer.canAmendLoadAppend
  | _ => false

end Session

end Ned.Text
