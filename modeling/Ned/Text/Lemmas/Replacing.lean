import Ned.Text.Lemmas.Edits
import Ned.Text.Lemmas.Excerpts
import Ned.Text.Theorems.MultiCursor

/-!
# Replacing a range

A replacement is a deletion and an insertion. Inside an editable excerpt, or without excerpts, neither is
refused, and both return if the storage takes the text.
-/

namespace Ned.Text

open Ned.Library

namespace UndoRecording

variable {r : UndoRecording}

theorem snapshotExcerptRangeOffsets_total (offsets : List (Nat × Nat))
    (h : r.undoTree.currentNode.isSome) : ∃ r', r.snapshotExcerptRangeOffsets offsets = some r' ∧
      r'.undoTree.currentNode.isSome := by
  obtain ⟨node, hnode⟩ := Option.isSome_iff_exists.1 h
  rw [snapshotExcerptRangeOffsets]
  split
  · exact ⟨r, rfl, h⟩
  · exact ⟨_, Option.bind_eq_some_iff.2 ⟨_, currentSequence_of_node hnode, rfl⟩, h⟩

theorem recordOrAmendUndo_total (storage : Storage) (offsets : List (Nat × Nat))
    (h : r.undoTree.currentNode.isSome) :
    ∃ r', r.recordOrAmendUndo storage offsets false = some r' ∧ r'.undoTree.currentNode.isSome := by
  obtain ⟨node, hnode⟩ := Option.isSome_iff_exists.1 h
  simp only [recordOrAmendUndo, Bool.false_and, Bool.false_eq_true, if_false]
  split
  · exact ⟨_, rfl, h⟩
  · have htree := UndoTree.record_eq hnode storage
    generalize hnew : UndoTree.mk _ _ _ _ _ = tree at htree
    have hcurrent : tree.currentNode.isSome := by
      subst hnew
      exact Option.isSome_iff_exists.2 ⟨_, UndoTree.record_new⟩
    obtain ⟨r', hr', hnode'⟩ := @snapshotExcerptRangeOffsets_total
      { r with canAmendLoadAppend := false, undoTree := tree } offsets hcurrent
    have hrecord : record { r with canAmendLoadAppend := false } storage offsets = some r' :=
      Option.bind_eq_some_iff.2 ⟨tree, htree, hr'⟩
    exact ⟨{ r' with canAmend := false }, Option.bind_eq_some_iff.2 ⟨r', hrecord, rfl⟩, hnode'⟩

end UndoRecording

namespace ExcerptRange

variable {ranges : List ExcerptRange} {start stop length : Nat}

def afterInsert (ranges : List ExcerptRange) (offset length : Nat) : List ExcerptRange :=
  if length = 0 then ranges else ranges.map (relocateForInsert offset length)

def afterDelete (ranges : List ExcerptRange) (start stop : Nat) : List ExcerptRange :=
  ranges.map (relocateForDelete start stop)

/-- Where the ranges lie after a text of some length has replaced what was between two offsets. -/
def afterReplace (ranges : List ExcerptRange) (start stop length : Nat) : List ExcerptRange :=
  afterInsert (afterDelete ranges start stop) start length

def Allows (ranges : List ExcerptRange) (start stop : Nat) : Prop :=
  ranges = [] ∨ ∃ range ∈ ranges, range.editable = true ∧ range.start ≤ start ∧ stop ≤ range.stop

theorem afterDelete_self : afterDelete ranges start start = ranges := map_relocateForDelete_self ranges start

@[simp] theorem afterReplace_nil : afterReplace [] start stop length = [] := by
  rw [afterReplace, afterDelete, List.map_nil, afterInsert, List.map_nil, ite_self]

theorem Allows.afterDelete (h : Allows ranges start stop) (hle : start ≤ stop) :
    Allows (afterDelete ranges start stop) start start := by
  rcases h with rfl | ⟨range, hmem, heditable, hstart, hstop⟩
  · exact .inl rfl
  · refine .inr ⟨range.relocateForDelete start stop, List.mem_map_of_mem hmem, heditable, ?_, ?_⟩
    · simp only [ExcerptRange.relocateForDelete, Text.relocateForDelete]
      split <;> (try split) <;> omega
    · simp only [ExcerptRange.relocateForDelete, Text.relocateForDelete]
      split <;> omega

end ExcerptRange

namespace Buffer

open ExcerptRange (Allows afterInsert afterDelete afterReplace)

variable {p : Platform} {b b' : Buffer} {bytes text : Bytes} {ranges : List ExcerptRange}
  {start stop byteOffset byteLength : Nat}

theorem canDeleteExcerptRange_iff :
    b.canDeleteExcerptRange start stop = true ↔ Allows b.excerptRanges start stop := by
  simp [TrackedPositions.canDeleteExcerptRange, Allows, and_assoc]

theorem canInsertAtExcerpt_iff :
    b.canInsertAtExcerpt byteOffset = true ↔ Allows b.excerptRanges byteOffset byteOffset := by
  simp [TrackedPositions.canInsertAtExcerpt, Allows, and_assoc]

/-- The content and the excerpts are new; that the buffer may be edited is not. -/
structure Became (b b' : Buffer) (bytes : Bytes) (ranges : List ExcerptRange) : Prop where
  storage : b'.storage = { b.storage with bytes := bytes }
  excerptRanges : b'.excerptRanges = ranges
  readOnly : b'.readOnly = b.readOnly
  recorded : b'.undoTree.currentNode.isSome

theorem Became.refl (h : b.undoTree.currentNode.isSome) : Became b b b.storage.bytes b.excerptRanges :=
  ⟨rfl, rfl, rfl, h⟩

theorem Became.trans {b'' : Buffer} {bytes' : Bytes} {ranges' : List ExcerptRange}
    (h : Became b b' bytes ranges) (h' : Became b' b'' bytes' ranges') : Became b b'' bytes' ranges' :=
  ⟨h'.storage.trans (by rw [h.storage]), h'.excerptRanges, h'.readOnly.trans h.readOnly, h'.recorded⟩

theorem applyDelete_readOnly (rangeStart rangeEnd : Nat) :
    (b.applyDelete p rangeStart rangeEnd).readOnly = b.readOnly := by
  simp only [applyDelete, commitDelete, relocateTrackedState, gt_iff_lt, Nat.lt_irrefl, if_false]
  split <;> rfl

theorem Applied.became {applied : Buffer} {offset oldLength newLength : Nat}
    (happlied : Applied b applied { b.storage with bytes := bytes } offset oldLength newLength)
    (h : b.undoTree.currentNode.isSome) (hwritable : applied.readOnly = b.readOnly) :
    ∃ b', ((applied.recordOrAmendUndo false).bind fun b => some { b with goalColumn := none }) =
      some b' ∧ Became b b' bytes applied.excerptRanges := by
  obtain ⟨r', hr', hnode⟩ := @UndoRecording.recordOrAmendUndo_total b.toUndoRecording applied.storage
    applied.excerptOffsets h
  rw [← happlied.recording] at hr'
  have hrecord : applied.recordOrAmendUndo false = some { applied with toUndoRecording := r' } :=
    Option.bind_eq_some_iff.2 ⟨r', hr', rfl⟩
  exact ⟨_, Option.bind_eq_some_iff.2 ⟨_, hrecord, rfl⟩, happlied.storage, rfl, hwritable, hnode⟩

variable (p) in
theorem insertAt_became (h : b.undoTree.currentNode.isSome) (hwritable : b.readOnly = false)
    (hoffset : byteOffset ≤ b.storage.byteLength) (hallows : Allows b.excerptRanges byteOffset byteOffset)
    (hbuilds : (b.storage.inserted 0 text).isSome) :
    ∃ b', b.insertAt p byteOffset text = some (.ok b') ∧
      Became b b' (Text.insertAt b.storage.bytes byteOffset text)
        (afterInsert b.excerptRanges byteOffset text.length) := by
  rw [Buffer.insertAt, whenWritable, if_neg (by simp [hwritable]), insertAtImpl, Nat.min_eq_left hoffset]
  by_cases hempty : text = []
  · subst hempty
    refine ⟨b, rfl, ?_⟩
    rw [show Text.insertAt b.storage.bytes byteOffset [] = b.storage.bytes by simp [Text.insertAt],
      afterInsert, if_pos List.length_nil]
    exact .refl h
  · have hpos : 0 < text.length := List.length_pos_iff.2 hempty
    obtain ⟨b', hb', hbecame⟩ := Applied.became (@applied_insert p b
      { b.storage with bytes := Text.insertAt b.storage.bytes byteOffset text } byteOffset text.length) h
      (applyInsert_readOnly _ _)
    rw [applyInsert_excerptRanges hpos] at hbecame
    refine ⟨b', ?_, ?_⟩
    · have hins := inserted_of_isSome hbuilds b.storage.bytes byteOffset
      rw [if_neg (mt List.isEmpty_iff.1 hempty), if_neg (by simp [canInsertAtExcerpt_iff.2 hallows])]
      exact congrArg (Option.map Except.ok) (Option.bind_eq_some_iff.2 ⟨_, hins, hb'⟩)
    · rw [afterInsert, if_neg (Nat.pos_iff_ne_zero.1 hpos)]
      exact hbecame

theorem insertAt_eq_none (hwritable : b.readOnly = false) (hoffset : byteOffset ≤ b.storage.byteLength)
    (hallows : Allows b.excerptRanges byteOffset byteOffset)
    (hbuilds : b.storage.inserted 0 text = none) : b.insertAt p byteOffset text = none := by
  have hne : text.isEmpty = false := by
    cases htext : text.isEmpty with
    | false => rfl
    | true => simp [Storage.inserted, htext] at hbuilds
  have hfails : b.storage.inserted byteOffset text = none := by
    simp only [Storage.inserted, hne, Bool.false_eq_true, if_false] at hbuilds ⊢
    split at hbuilds
    · cases hbuilds
    · rename_i hno
      rw [if_neg hno]
  rw [Buffer.insertAt, whenWritable, if_neg (by simp [hwritable]), insertAtImpl, Nat.min_eq_left hoffset]
  simp [hne, canInsertAtExcerpt_iff.2 hallows, hfails]

variable (p) in
theorem deleteRange_became (h : b.undoTree.currentNode.isSome) (hwritable : b.readOnly = false)
    (hend : byteOffset + byteLength ≤ b.storage.byteLength)
    (hallows : Allows b.excerptRanges byteOffset (byteOffset + byteLength)) :
    ∃ b' deleted, b.deleteRange p byteOffset byteLength = some (.ok (b', deleted)) ∧
      Became b b' (eraseAt b.storage.bytes byteOffset byteLength)
        (afterDelete b.excerptRanges byteOffset (byteOffset + byteLength)) := by
  have hoffset : byteOffset ≤ b.storage.byteLength := Nat.le_trans (Nat.le_add_right _ _) hend
  rw [Buffer.deleteRange, whenWritable, if_neg (by simp [hwritable])]
  simp only [Nat.min_eq_left hoffset, Nat.min_eq_left (Nat.le_sub_of_add_le' hend)]
  by_cases hempty : byteLength = 0
  · subst hempty
    refine ⟨b, [], rfl, ?_⟩
    rw [show eraseAt b.storage.bytes byteOffset 0 = b.storage.bytes by simp [eraseAt], Nat.add_zero,
      ExcerptRange.afterDelete_self]
    exact .refl h
  · have hcan := canDeleteExcerptRange_iff.2 hallows
    have herased : b.storage.erased byteOffset byteLength =
        { b.storage with bytes := eraseAt b.storage.bytes byteOffset byteLength } := rfl
    obtain ⟨b', hb', hbecame⟩ := Applied.became (@applied_delete p b
      (b.storage.erased byteOffset byteLength) byteOffset (byteOffset + byteLength)) h
      (applyDelete_readOnly _ _)
    rw [applyDelete_excerptRanges] at hbecame
    have herase : b.eraseRange p byteOffset (byteOffset + byteLength) = some b' := by
      rw [eraseRange, if_neg (by simp [hcan]), Nat.add_sub_cancel_left]
      exact hb'
    refine ⟨b', b.storage.substring byteOffset byteLength, ?_, hbecame⟩
    have hresult : ((b.eraseRange p byteOffset (byteOffset + byteLength)).bind fun b' =>
        some (b', b.storage.substring byteOffset byteLength)) =
          some (b', b.storage.substring byteOffset byteLength) :=
      Option.bind_eq_some_iff.2 ⟨b', herase, rfl⟩
    rw [if_neg hempty, if_neg (by simp [hcan])]
    exact congrArg (Option.map Except.ok) hresult

theorem deleteRange_readOnly (h : b.readOnly = true) :
    b.deleteRange p byteOffset byteLength = some (.error b.readOnlyErrorMessage) := by
  rw [Buffer.deleteRange, whenWritable, if_pos h]

end Buffer

end Ned.Text
