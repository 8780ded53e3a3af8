import Ned.Text.Theorems.Storage
import Ned.Text.Buffer

/-!
# What each operation of a buffer does

One lemma per operation, saying what it leaves of the storage, the saved snapshot, the unsaved
changes, the undo recording and the tracking. The proofs about runs use these and unfold no
operation.
-/

namespace Ned.Text

/-- Both sets of ranges carried through an edit, its delete half first. -/
def UnsavedChanges.relocated (changes : UnsavedChanges)
    (offset oldLength newLength contentLength : Nat) : UnsavedChanges :=
  let changes :=
    if oldLength > 0 then
      changes.markUnsavedRangeDeleted offset (offset + oldLength) contentLength
    else
      changes
  if newLength > 0 then changes.markUnsavedRangeInserted offset newLength else changes

namespace Buffer

variable {p : Platform} {b b' : Buffer}

/-! ## Relocation -/

section Relocation

variable (p : Platform) (b : Buffer) (offset oldLength newLength : Nat)

@[simp] theorem relocateTrackedState_storage :
    (b.relocateTrackedState p offset oldLength newLength).storage = b.storage := by
  simp only [relocateTrackedState]
  split <;> split <;> rfl

@[simp] theorem relocateTrackedState_savedSnapshot :
    (b.relocateTrackedState p offset oldLength newLength).savedSnapshot = b.savedSnapshot := by
  simp only [relocateTrackedState]
  split <;> split <;> rfl

@[simp] theorem relocateTrackedState_loading :
    (b.relocateTrackedState p offset oldLength newLength).loading = b.loading := by
  simp only [relocateTrackedState]
  split <;> split <;> rfl

@[simp] theorem relocateTrackedState_toUndoRecording :
    (b.relocateTrackedState p offset oldLength newLength).toUndoRecording = b.toUndoRecording := by
  simp only [relocateTrackedState]
  split <;> split <;> rfl

@[simp] theorem relocateTrackedState_toTracking :
    (b.relocateTrackedState p offset oldLength newLength).toTracking = b.toTracking := by
  simp only [relocateTrackedState]
  split <;> split <;> rfl

theorem relocateTrackedState_toUnsavedChanges :
    (b.relocateTrackedState p offset oldLength newLength).toUnsavedChanges =
      b.toUnsavedChanges.relocated offset oldLength newLength b.storage.byteLength := by
  simp only [relocateTrackedState, UnsavedChanges.relocated]
  split <;> split <;> rfl

end Relocation

/-! ## Edits -/

/-- What is the same after every operation but a save and a load. -/
structure Kept (b b' : Buffer) : Prop where
  savedSnapshot : b'.savedSnapshot = b.savedSnapshot
  loading : b'.loading = b.loading

structure Edited (canAmend : Bool) (b b' : Buffer) (offset oldLength newLength : Nat) : Prop
    extends Kept b b' where
  changes : b'.toUnsavedChanges =
    b.toUnsavedChanges.relocated offset oldLength newLength b'.storage.byteLength
  tracking : b'.toTracking = b.toTracking.commit (.replace offset oldLength newLength)
  recording : ∃ offsets,
    b.toUndoRecording.recordOrAmendUndo b'.storage offsets canAmend = some b'.toUndoRecording

def Inserted (canAmend : Bool) (b b' : Buffer) : Prop :=
  ∃ offset text, text ≠ [] ∧ b.storage.inserted offset text = some b'.storage ∧
    Edited canAmend b b' offset 0 text.length

def Erased (b b' : Buffer) : Prop :=
  ∃ start stop, b'.storage = b.storage.erased start (stop - start) ∧
    Edited false b b' start (stop - start) 0

theorem recordOrAmendUndo_spec {canAmend : Bool} (h : b.recordOrAmendUndo canAmend = some b') :
    Kept b b' ∧ b'.storage = b.storage ∧ b'.toUnsavedChanges = b.toUnsavedChanges ∧
      b'.toTracking = b.toTracking ∧ ∃ offsets,
        b.toUndoRecording.recordOrAmendUndo b.storage offsets canAmend = some b'.toUndoRecording := by
  obtain ⟨recording, hrec, heq⟩ := Option.bind_eq_some_iff.1 h
  cases heq
  exact ⟨⟨rfl, rfl⟩, rfl, rfl, rfl, _, hrec⟩

structure Applied (b b' : Buffer) (edited : Storage) (offset oldLength newLength : Nat) : Prop
    extends Kept b b' where
  storage : b'.storage = edited
  changes : b'.toUnsavedChanges =
    b.toUnsavedChanges.relocated offset oldLength newLength edited.byteLength
  tracking : b'.toTracking = b.toTracking.commit (.replace offset oldLength newLength)
  recording : b'.toUndoRecording = b.toUndoRecording

theorem applied_relocate (b : Buffer) (storage : Storage) (offset oldLength newLength : Nat) :
    Applied b
      (commitReplace ({ b with storage := storage }.relocateTrackedState p offset oldLength newLength)
        offset oldLength newLength) storage offset oldLength newLength :=
  ⟨⟨relocateTrackedState_savedSnapshot p _ _ _ _, relocateTrackedState_loading p _ _ _ _⟩,
    relocateTrackedState_storage p _ _ _ _, relocateTrackedState_toUnsavedChanges p _ _ _ _,
    congrArg (fun t : Tracking => t.commit (.replace offset oldLength newLength))
      (relocateTrackedState_toTracking p _ _ _ _),
    relocateTrackedState_toUndoRecording p _ _ _ _⟩

theorem applied_insert (b : Buffer) (storage : Storage) (offset length : Nat) :
    Applied b ({ b with storage := storage }.applyInsert p offset length) storage offset 0 length :=
  applied_relocate b storage offset 0 length

theorem applied_delete (b : Buffer) (storage : Storage) (start stop : Nat) :
    Applied b ({ b with storage := storage }.applyDelete p start stop) storage start (stop - start)
      0 :=
  applied_relocate b storage start (stop - start) 0

theorem Applied.record {canAmend : Bool} {applied recorded : Buffer} {storage : Storage}
    {offset oldLength newLength : Nat} (h : Applied b applied storage offset oldLength newLength)
    (hrec : applied.recordOrAmendUndo canAmend = some recorded) :
    recorded.storage = storage ∧
      Edited canAmend b { recorded with goalColumn := none } offset oldLength newLength := by
  obtain ⟨hkept, hstorage, hchanges, htracking, offsets, hrec⟩ := recordOrAmendUndo_spec hrec
  have hstorage' : recorded.storage = storage := hstorage.trans h.storage
  refine ⟨hstorage', ⟨⟨hkept.savedSnapshot.trans h.savedSnapshot, hkept.loading.trans h.loading⟩,
    ?_, htracking.trans h.tracking, offsets, ?_⟩⟩
  · rw [← hstorage'] at h
    exact hchanges.trans h.changes
  · rw [h.recording, ← hstorage] at hrec
    exact hrec

theorem insertAtImpl_spec {byteOffset : Nat} {text : Bytes}
    (h : b.insertAtImpl p byteOffset text = some b') : b' = b ∨ Inserted false b b' := by
  simp only [insertAtImpl] at h
  split at h
  · exact Or.inl (Option.some.inj h).symm
  · rename_i htext
    split at h
    · exact Or.inl (Option.some.inj h).symm
    · obtain ⟨storage, hins, h⟩ := Option.bind_eq_some_iff.1 h
      obtain ⟨recorded, hrec, h⟩ := Option.bind_eq_some_iff.1 h
      cases h
      obtain ⟨hstorage, hedited⟩ := (applied_insert b storage _ _).record hrec
      exact Or.inr ⟨_, text, fun hnil => htext (List.isEmpty_iff.2 hnil),
        hins.trans (congrArg some hstorage.symm), hedited⟩

theorem eraseRange_spec {start stop : Nat} (h : b.eraseRange p start stop = some b') :
    b' = b ∨ Erased b b' := by
  simp only [eraseRange] at h
  split at h
  · exact Or.inl (Option.some.inj h).symm
  · obtain ⟨recorded, hrec, h⟩ := Option.bind_eq_some_iff.1 h
    cases h
    obtain ⟨hstorage, hedited⟩ := (applied_delete b _ _ _).record hrec
    exact Or.inr ⟨_, _, hstorage, hedited⟩

/-! ## Operations that only move positions -/

/-- Storage, changes, recording and tracking are as they were. -/
structure Still (b b' : Buffer) : Prop extends Kept b b' where
  storage : b'.storage = b.storage
  changes : b'.toUnsavedChanges = b.toUnsavedChanges
  recording : b'.toUndoRecording = b.toUndoRecording
  tracking : b'.toTracking = b.toTracking

theorem Still.refl (b : Buffer) : Still b b := ⟨⟨rfl, rfl⟩, rfl, rfl, rfl, rfl⟩

theorem Still.trans {b₁ b₂ b₃ : Buffer} (h : Still b₁ b₂) (h' : Still b₂ b₃) : Still b₁ b₃ :=
  ⟨⟨h'.savedSnapshot.trans h.savedSnapshot, h'.loading.trans h.loading⟩,
    h'.storage.trans h.storage, h'.changes.trans h.changes, h'.recording.trans h.recording,
    h'.tracking.trans h.tracking⟩

theorem relocateForRestore_still (b : Buffer) (oldStorage : Storage)
    (delete insert : TrackedPositions → Nat → Nat → TrackedPositions) :
    Still b (b.relocateForRestore oldStorage delete insert) := by
  simp only [relocateForRestore]
  split <;> exact ⟨⟨rfl, rfl⟩, rfl, rfl, rfl, rfl⟩

theorem updateDiagnosticsForRestore_still (b : Buffer) (oldStorage : Storage) :
    Still b (b.updateDiagnosticsForRestore oldStorage) := by
  simp only [updateDiagnosticsForRestore]
  split
  · exact .refl b
  · exact relocateForRestore_still b oldStorage _ _

theorem updateExcerptRangesForRestore_still (b : Buffer) (oldStorage : Storage) :
    Still b (b.updateExcerptRangesForRestore oldStorage) := by
  simp only [updateExcerptRangesForRestore]
  split
  · exact .refl b
  · exact relocateForRestore_still b oldStorage _ _

theorem restoreExcerptRangeOffsets_still {restored : Option Buffer}
    (h : b.restoreExcerptRangeOffsets = some restored) (oldStorage : Storage) :
    Still b (restored.getD (b.updateExcerptRangesForRestore oldStorage)) := by
  simp only [restoreExcerptRangeOffsets] at h
  split at h
  · cases h
    exact .refl b
  · obtain ⟨sequence, -, h⟩ := Option.bind_eq_some_iff.1 h
    split at h
    · cases h
      exact updateExcerptRangesForRestore_still b oldStorage
    · split at h
      · cases h
        exact updateExcerptRangesForRestore_still b oldStorage
      · cases h
        exact ⟨⟨rfl, rfl⟩, rfl, rfl, rfl, rfl⟩

/-! ## Restores -/

/-- What a restore leaves of the unsaved changes: nothing where the saved content is back, and else
the one region in which the versions differ, relocated. -/
def RestoredChanges (oldStorage storage saved : Storage) (changes changes' : UnsavedChanges) : Prop :=
  (storage.bytes = saved.bytes ∧ changes'.unsavedChangeRanges = [] ∧
      changes'.saveInFlightRanges = changes.saveInFlightRanges ∧ changes'.saving = changes.saving) ∨
    storage.bytes ≠ saved.bytes ∧
      ((storage.bytes = oldStorage.bytes ∧ changes' = changes) ∨
        ∃ offset oldLength newLength, (0 < oldLength ∨ 0 < newLength) ∧
          changes' = changes.relocated offset oldLength newLength storage.byteLength)

theorem updateUnsavedRangesForRestore_spec (b : Buffer) (oldStorage : Storage) :
    RestoredChanges oldStorage b.storage b.savedSnapshot b.toUnsavedChanges
        (b.updateUnsavedRangesForRestore oldStorage).toUnsavedChanges ∧
      Kept b (b.updateUnsavedRangesForRestore oldStorage) ∧
      (b.updateUnsavedRangesForRestore oldStorage).storage = b.storage ∧
      (b.updateUnsavedRangesForRestore oldStorage).toTracking = b.toTracking ∧
      (b.updateUnsavedRangesForRestore oldStorage).toUndoRecording = b.toUndoRecording := by
  simp only [updateUnsavedRangesForRestore]
  split
  · rename_i heq
    have heq := (storageContentEquals_iff _ _).1 heq
    split
    · rename_i hempty
      exact ⟨Or.inl ⟨heq, List.isEmpty_iff.1 hempty, rfl, rfl⟩, ⟨rfl, rfl⟩, rfl, rfl, rfl⟩
    · exact ⟨Or.inl ⟨heq, rfl, rfl, rfl⟩, ⟨rfl, rfl⟩, rfl, rfl, rfl⟩
  · rename_i hdiff
    rw [storageContentEquals_iff] at hdiff
    split
    · rename_i hnone
      have hsame := (changedByteRange_eq_none_iff _ _).1 hnone
      exact ⟨Or.inr ⟨hdiff, Or.inl ⟨hsame.symm, rfl⟩⟩, ⟨rfl, rfl⟩, rfl, rfl, rfl⟩
    · rename_i span hspan
      obtain ⟨hstart, hold, hnew, -, -⟩ := changedByteRange_bounds hspan
      have hrel : span.oldStart + (span.oldEnd - span.oldStart) = span.oldEnd := by omega
      have hpos : 0 < span.oldEnd - span.oldStart ∨ 0 < span.newEnd - span.newStart :=
        (changedByteRange_nonempty hspan).imp Nat.sub_pos_of_lt Nat.sub_pos_of_lt
      refine ⟨Or.inr ⟨hdiff, Or.inr ⟨span.oldStart, _, _, hpos, ?_⟩⟩, ⟨?_, ?_⟩, ?_, ?_, ?_⟩
      · simp only [UnsavedChanges.relocated, hrel, gt_iff_lt, Nat.sub_pos_iff_lt, ← hstart]
        split <;> split <;> rfl
      all_goals split <;> split <;> rfl

theorem commitRestore_spec (b : Buffer) (oldStorage : Storage) :
    ∃ offset oldLength newLength, b.commitRestore oldStorage =
      b.commitReplace offset oldLength newLength := by
  simp only [commitRestore]
  split
  · exact ⟨_, _, _, rfl⟩
  · exact ⟨_, _, _, rfl⟩

/-- What a restore commits: the region in which the versions differ. -/
def restoreCommit (oldStorage storage : Storage) : Tracking.Commit :=
  match changedByteRange oldStorage storage with
  | some span =>
      .replace span.oldStart (span.oldEnd - span.oldStart) (span.newEnd - span.newStart)
  | none => .replace 0 0 0

theorem commitRestore_tracking (b : Buffer) (oldStorage : Storage) :
    (b.commitRestore oldStorage).toTracking =
      b.toTracking.commit (restoreCommit oldStorage b.storage) := by
  simp only [commitRestore, restoreCommit]
  cases changedByteRange oldStorage b.storage with
  | none => rfl
  | some span => rfl

theorem commitRestore_storage (b : Buffer) (oldStorage : Storage) :
    (b.commitRestore oldStorage).storage = b.storage := by
  simp only [commitRestore]
  split <;> rfl

/-- `adoptCurrentState` leaves the changes and the tracking alone. -/
structure Adopted (b b' : Buffer) : Prop extends Kept b b' where
  current : b.undoTree.currentState = some b'.storage
  changes : b'.toUnsavedChanges = b.toUnsavedChanges
  tracking : b'.toTracking = b.toTracking
  recording : b'.toUndoRecording =
    { b.toUndoRecording with canAmend := false, canAmendLoadAppend := false }

theorem adoptCurrentState_spec (h : b.adoptCurrentState p = some b') : Adopted b b' := by
  obtain ⟨storage, hcurrent, h⟩ := Option.bind_eq_some_iff.1 h
  obtain ⟨positions, -, h⟩ := Option.bind_eq_some_iff.1 h
  cases h
  exact ⟨⟨rfl, rfl⟩, hcurrent, rfl, rfl, rfl⟩

/-- The content became the state of the current node of `recording`. -/
structure Restored (oldStorage : Storage) (recording : UndoRecording) (b b' : Buffer) : Prop
    extends Kept b b' where
  current : recording.undoTree.currentState = some b'.storage
  changes : RestoredChanges oldStorage b'.storage b.savedSnapshot b.toUnsavedChanges
    b'.toUnsavedChanges
  tracking : ∃ offset oldLength newLength,
    b'.toTracking = b.toTracking.commit (.replace offset oldLength newLength)
  recording : b'.toUndoRecording = { recording with canAmend := false, canAmendLoadAppend := false }

theorem applyUndoTreeNavigation_spec {oldStorage : Storage}
    (h : b.applyUndoTreeNavigation p oldStorage = some b') :
    Restored oldStorage b.toUndoRecording b b' := by
  obtain ⟨a, ha, h⟩ := Option.bind_eq_some_iff.1 h
  obtain ⟨restored, hrestored, h⟩ := Option.bind_eq_some_iff.1 h
  have hadopted := adoptCurrentState_spec ha
  have hstill := (restoreExcerptRangeOffsets_still hrestored oldStorage).trans
    (updateDiagnosticsForRestore_still _ oldStorage)
  obtain rfl := Option.some.inj h
  obtain ⟨offset, oldLength, newLength, hcommit⟩ := commitRestore_spec a oldStorage
  rw [hcommit] at hstill
  obtain ⟨hchanges, hkept, hstorage, htracking, hrecording⟩ :=
    updateUnsavedRangesForRestore_spec (a.commitReplace offset oldLength newLength) oldStorage
  rw [hcommit]
  have hstorage' := hstill.storage.trans hstorage
  refine ⟨⟨?_, ?_⟩, ?_, ?_, ⟨offset, oldLength, newLength, ?_⟩, ?_⟩
  · exact hstill.savedSnapshot.trans (hkept.savedSnapshot.trans hadopted.savedSnapshot)
  · exact hstill.loading.trans (hkept.loading.trans hadopted.loading)
  · exact hadopted.current.trans (congrArg some hstorage'.symm)
  · rw [hstill.changes, hstorage', ← hadopted.savedSnapshot, ← hadopted.changes]
    exact hchanges
  · rw [hstill.tracking, htracking, ← hadopted.tracking]
    rfl
  · rw [hstill.recording, hrecording, ← hadopted.recording]
    rfl

theorem navigate_spec {tree : UndoTree} (h : b.navigate p tree = some b') :
    Restored b.storage { b.toUndoRecording with undoTree := tree } b b' := by
  obtain ⟨hkept, hcurrent, hchanges, htracking, hrecording⟩ := applyUndoTreeNavigation_spec h
  exact ⟨⟨hkept.savedSnapshot, hkept.loading⟩, hcurrent, hchanges, htracking, hrecording⟩

theorem navigate_tracking {tree : UndoTree} (h : b.navigate p tree = some b') :
    b'.toTracking = b.toTracking.commit (restoreCommit b.storage b'.storage) := by
  obtain ⟨a, ha, h⟩ := Option.bind_eq_some_iff.1 h
  obtain ⟨restored, hrestored, h⟩ := Option.bind_eq_some_iff.1 h
  obtain rfl := Option.some.inj h
  have hstill := (restoreExcerptRangeOffsets_still hrestored b.storage).trans
    (updateDiagnosticsForRestore_still _ b.storage)
  obtain ⟨-, -, hstorage, htracking, -⟩ :=
    updateUnsavedRangesForRestore_spec (a.commitRestore b.storage) b.storage
  rw [hstill.tracking, hstill.storage, htracking, hstorage, commitRestore_tracking,
    commitRestore_storage, (adoptCurrentState_spec ha).tracking]

theorem undo_navigate (h : b.undo p = some b') :
    (b.canUndo = some false ∧ b' = b) ∨ ∃ tree, b.canUndo = some true ∧ b.undoTree.undo = some tree ∧
      b.navigate p tree = some b' := by
  obtain ⟨able, hable, h⟩ := Option.bind_eq_some_iff.1 h
  cases able with
  | false => exact Or.inl ⟨hable, (Option.some.inj h).symm⟩
  | true =>
      obtain ⟨tree, htree, h⟩ := Option.bind_eq_some_iff.1 h
      exact Or.inr ⟨tree, hable, htree, h⟩

theorem undo_spec (h : b.undo p = some b') :
    (b.canUndo = some false ∧ b' = b) ∨ ∃ tree, b.canUndo = some true ∧ b.undoTree.undo = some tree ∧
      Restored b.storage { b.toUndoRecording with undoTree := tree } b b' := by
  rcases undo_navigate h with hsame | ⟨tree, hable, htree, h⟩
  · exact Or.inl hsame
  · exact Or.inr ⟨tree, hable, htree, navigate_spec h⟩

theorem redo_navigate (h : b.redo p = some b') :
    (b.canRedo = some false ∧ b' = b) ∨ ∃ tree, b.canRedo = some true ∧ b.undoTree.redo = some tree ∧
      b.navigate p tree = some b' := by
  obtain ⟨able, hable, h⟩ := Option.bind_eq_some_iff.1 h
  cases able with
  | false => exact Or.inl ⟨hable, (Option.some.inj h).symm⟩
  | true =>
      obtain ⟨tree, htree, h⟩ := Option.bind_eq_some_iff.1 h
      exact Or.inr ⟨tree, hable, htree, h⟩

theorem redo_spec (h : b.redo p = some b') :
    (b.canRedo = some false ∧ b' = b) ∨ ∃ tree, b.canRedo = some true ∧ b.undoTree.redo = some tree ∧
      Restored b.storage { b.toUndoRecording with undoTree := tree } b b' := by
  rcases redo_navigate h with hsame | ⟨tree, hable, htree, h⟩
  · exact Or.inl hsame
  · exact Or.inr ⟨tree, hable, htree, navigate_spec h⟩

theorem jumpTo_unknown {tree : UndoTree} {sequence : Nat} (h : tree.hasSequence sequence = false) :
    tree.jumpTo sequence = some (tree, false) := by
  rw [UndoTree.hasSequence, Option.isSome_eq_false_iff, Option.isNone_iff_eq_none] at h
  rw [UndoTree.jumpTo, h]

theorem tryJumpToUndoSequence_cases {sequence : Nat} {moved : Bool}
    (h : b.tryJumpToUndoSequence p sequence = some (b', moved)) :
    (moved = false ∧ b.undoTree.hasSequence sequence = false ∧ b' = b) ∨
      (moved = true ∧ b.undoTree.hasSequence sequence = true ∧
        ∃ tree, b.undoTree.jumpTo sequence = some (tree, true) ∧ b.navigate p tree = some b') := by
  simp only [tryJumpToUndoSequence] at h
  split at h
  · rename_i hhas
    cases h
    exact Or.inl ⟨rfl, Bool.not_eq_true' _ ▸ hhas, rfl⟩
  · rename_i hhas
    rw [Bool.not_eq_true, Bool.not_eq_false'] at hhas
    obtain ⟨⟨tree, known⟩, hjump, h⟩ := Option.bind_eq_some_iff.1 h
    cases known with
    | true =>
        obtain ⟨b₁, hb₁, h⟩ := Option.bind_eq_some_iff.1 h
        cases h
        exact Or.inr ⟨rfl, hhas, tree, hjump, hb₁⟩
    | false =>
        -- only an unknown sequence is not jumped to
        rw [UndoTree.jumpTo] at hjump
        rw [UndoTree.hasSequence] at hhas
        split at hjump
        · rename_i hunknown
          rw [hunknown] at hhas
          cases hhas
        · obtain ⟨node, -, hjump⟩ := Option.bind_eq_some_iff.1 hjump
          split at hjump
          · cases hjump
          · obtain ⟨parent, -, hjump⟩ := Option.bind_eq_some_iff.1 hjump
            cases hjump

theorem tryJumpToUndoSequence_navigate {sequence : Nat} {moved : Bool}
    (h : b.tryJumpToUndoSequence p sequence = some (b', moved)) :
    (b.undoTree.hasSequence sequence = false ∧ b' = b) ∨
      ∃ tree, b.undoTree.jumpTo sequence = some (tree, true) ∧ b.navigate p tree = some b' := by
  rcases tryJumpToUndoSequence_cases h with ⟨-, hunknown⟩ | ⟨-, -, hjump⟩
  · exact Or.inl hunknown
  · exact Or.inr hjump

theorem tryJumpToUndoSequence_spec {sequence : Nat} {moved : Bool}
    (h : b.tryJumpToUndoSequence p sequence = some (b', moved)) :
    b' = b ∨ ∃ tree, b.undoTree.jumpTo sequence = some (tree, true) ∧
      Restored b.storage { b.toUndoRecording with undoTree := tree } b b' := by
  rcases tryJumpToUndoSequence_navigate h with ⟨-, hsame⟩ | ⟨tree, hjump, h⟩
  · exact Or.inl hsame
  · exact Or.inr ⟨tree, hjump, navigate_spec h⟩

/-! ## Edits at their entry -/

theorem whenWritable_eq_ok {α : Type} {edit : Option α} {x : α}
    (h : b.whenWritable edit = some (.ok x)) : edit = some x := by
  unfold whenWritable at h
  split at h
  · cases h
  · obtain ⟨y, hy, h⟩ := Option.map_eq_some_iff.1 h
    cases h
    exact hy

theorem insertAt_spec {byteOffset : Nat} {text : Bytes}
    (h : b.insertAt p byteOffset text = some (.ok b')) : b' = b ∨ Inserted false b b' :=
  insertAtImpl_spec (whenWritable_eq_ok h)

theorem insertAtPoint_spec {text : Bytes} (h : b.insertAtPoint p text = some (.ok b')) :
    b' = b ∨ Inserted true b b' := by
  have h := whenWritable_eq_ok h
  split at h
  · exact Or.inl (Option.some.inj h).symm
  · rename_i htext
    split at h
    · exact Or.inl (Option.some.inj h).symm
    · obtain ⟨storage, hins, h⟩ := Option.bind_eq_some_iff.1 h
      obtain ⟨recorded, hrec, h⟩ := Option.bind_eq_some_iff.1 h
      cases h
      obtain ⟨hstorage, hedited⟩ := (applied_insert b storage _ _).record hrec
      exact Or.inr ⟨_, text, fun hnil => htext (List.isEmpty_iff.2 hnil),
        hins.trans (congrArg some hstorage.symm), hedited⟩

theorem deleteBackwardAtPoint_spec (h : b.deleteBackwardAtPoint p = some (.ok b')) :
    b' = b ∨ Erased b b' := by
  have h := whenWritable_eq_ok h
  split at h
  · exact Or.inl (Option.some.inj h).symm
  · obtain ⟨start, -, h⟩ := Option.bind_eq_some_iff.1 h
    exact eraseRange_spec h

theorem deleteForwardAtPoint_spec (h : b.deleteForwardAtPoint p = some (.ok b')) :
    b' = b ∨ Erased b b' := by
  have h := whenWritable_eq_ok h
  split at h
  · exact Or.inl (Option.some.inj h).symm
  · obtain ⟨stop, -, h⟩ := Option.bind_eq_some_iff.1 h
    exact eraseRange_spec h

theorem deleteRange_spec {byteOffset byteLength : Nat} {deleted : Bytes}
    (h : b.deleteRange p byteOffset byteLength = some (.ok (b', deleted))) :
    b' = b ∨ Erased b b' := by
  have h := whenWritable_eq_ok h
  simp only at h
  split at h
  · cases h
    exact Or.inl rfl
  · split at h
    · cases h
      exact Or.inl rfl
    · obtain ⟨erased, herased, h⟩ := Option.bind_eq_some_iff.1 h
      cases h
      exact eraseRange_spec herased

/-! ## Saves and loads -/

theorem beginSave_eq_ok {ensureFinalNewline trimTrailingWhitespace : Bool}
    {lineEndingOverride : Option LineEnding} {plan : SavePlan}
    (h : b.beginSave ensureFinalNewline trimTrailingWhitespace lineEndingOverride = .ok (b', plan)) :
    b.loading = false ∧ b.saving = false ∧ plan.snapshot = b.storage ∧ Kept b b' ∧
      b'.storage = b.storage ∧ b'.toUnsavedChanges = b.toUnsavedChanges.beginSave ∧
      b'.toTracking = b.toTracking := by
  unfold beginSave requireSavable at h
  cases hloading : b.loading with
  | true =>
      rw [hloading] at h
      cases h
  | false =>
      cases hsaving : b.saving with
      | true =>
          rw [hloading, hsaving] at h
          cases h
      | false =>
          rw [hloading, hsaving] at h
          cases h
          exact ⟨rfl, rfl, rfl, ⟨rfl, hloading ▸ rfl⟩, rfl, rfl, rfl⟩

structure Appended (fragment : Bytes) (b b' : Buffer) : Prop where
  storage : b'.storage = b.storage.concatenated (.ofPieceTable fragment)
  savedSnapshot : b'.savedSnapshot = b.savedSnapshot.concatenated (.ofPieceTable fragment)
  loading : b'.loading = b.loading
  changes : b'.toUnsavedChanges = b.toUnsavedChanges
  tracking : ∃ offset length, b'.toTracking = b.toTracking.commit (.replace offset 0 length)
  recording : ∃ offsets,
    b.toUndoRecording.recordOrAmendLoadAppend b'.storage offsets = some b'.toUndoRecording

theorem appendHugeLoadChunk_spec {fragment : Bytes} (h : b.appendHugeLoadChunk fragment = some b') :
    Appended fragment b b' := by
  simp only [appendHugeLoadChunk] at h
  split at h
  · obtain ⟨recorded, hrec, h⟩ := Option.bind_eq_some_iff.1 h
    obtain ⟨recording, hrecording, hrec⟩ := Option.bind_eq_some_iff.1 hrec
    cases hrec
    cases h
    exact ⟨rfl, rfl, rfl, rfl, ⟨_, _, rfl⟩, _, hrecording⟩
  · cases h

end Buffer

end Ned.Text
