import Ned.Library.Insertions
import Ned.Text.Lemmas.Points
import Ned.Text.Lemmas.Edits
import Ned.Text.Lemmas.Navigation
import Ned.Text.Motions

/-!
# Typing at every cursor

A text typed at every cursor, one cursor after the other, goes in at all of them at once.
-/

namespace Ned.Text

open Ned.Library

namespace Buffer

variable {p : Platform} {t : Bytes} {b b' b₀ : Buffer}

def cursorPoints (b : Buffer) : List Nat := b.point :: b.secondaryCursors.map Cursor.point

/-- The text went in at `x`, inside an undo group, and every cursor was carried along. -/
structure Entered (t : Bytes) (x : Nat) (b b' : Buffer) : Prop where
  storage : b'.storage = { b.storage with bytes := Text.insertAt b.storage.bytes x t }
  writable : b'.readOnly = false
  whole : b'.excerptRanges = []
  point : b'.point = relocateForInsert b.point x t.length
  cursors : b'.secondaryCursors.map Cursor.point =
    (b.secondaryCursors.map Cursor.point).map (relocateForInsert · x t.length)
  tree : b'.undoTree = b.undoTree
  depth : b'.undoGroupDepth = b.undoGroupDepth
  dirty : b.undoGroupDirty = true ∨ t ≠ [] → b'.undoGroupDirty = true

/-! ## One cursor -/

theorem relocateForInsert_zero (offset x : Nat) : relocateForInsert offset x 0 = offset := by
  simp [relocateForInsert]

theorem inserted_of_isSome {storage : Storage} {o : Nat} (h : (storage.inserted o t).isSome)
    (bytes : Bytes) (x : Nat) : Storage.inserted { storage with bytes := bytes } x t =
      some { storage with bytes := Text.insertAt bytes x t } := by
  unfold Storage.inserted at h ⊢
  split
  · rename_i hempty
    rw [List.isEmpty_iff.1 hempty]
    simp [Text.insertAt]
  · rename_i hne
    rw [if_neg hne] at h
    split at h
    · rename_i hbuilds
      rw [if_pos hbuilds]
    · cases h

theorem relocateForInsertion_secondaryCursors (positions : TrackedPositions) (offset length : Nat) :
    (positions.relocateForInsertion offset length).secondaryCursors =
      positions.secondaryCursors.map (Cursor.relocate (relocateForInsert · offset length)) := by
  simp only [TrackedPositions.relocateForInsertion, TrackedPositions.relocateDiagnosticsForInsert,
    TrackedPositions.relocateExcerptRangesForInsert, TrackedPositions.relocateSnippetRangesForInsert,
    TrackedPositions.relocateSecondaryCursors, TrackedPositions.relocateFoldMarkers]
  split <;> rfl

theorem applyInsert_toTrackedPositions {offset length : Nat} (hpos : 0 < length) :
    (b.applyInsert p offset length).toTrackedPositions =
      b.toTrackedPositions.relocateForInsertion offset length := by
  simp only [applyInsert, commitInsert, relocateTrackedState, gt_iff_lt, Nat.lt_irrefl, if_false,
    if_pos hpos, markUnsavedRangeInserted]

theorem applyInsert_readOnly (offset length : Nat) :
    (b.applyInsert p offset length).readOnly = b.readOnly := by
  simp only [applyInsert, commitInsert, relocateTrackedState, gt_iff_lt, Nat.lt_irrefl, if_false]
  split <;> rfl

theorem recordOrAmendUndo_grouped {r : UndoRecording} (hdepth : 0 < r.undoGroupDepth)
    (storage : Storage) (offsets : List (Nat × Nat)) (canAmend : Bool) :
    r.recordOrAmendUndo storage offsets canAmend =
      some { r with canAmendLoadAppend := false, undoGroupDirty := true } := by
  simp only [UndoRecording.recordOrAmendUndo, gt_iff_lt, hdepth, if_true]

theorem recordOrAmendUndo_of_grouped {r : UndoRecording} (hr : b.toUndoRecording = r)
    (hdepth : 0 < r.undoGroupDepth) (canAmend : Bool) :
    b.recordOrAmendUndo canAmend = some
      { b with toUndoRecording := { r with canAmendLoadAppend := false, undoGroupDirty := true } } := by
  rw [recordOrAmendUndo, hr, recordOrAmendUndo_grouped hdepth]
  rfl

theorem insertAtPoint_eq {edited : Storage} {recorded : Buffer} (hwritable : b.readOnly = false)
    (hempty : t ≠ []) (hallowed : b.canInsertAtExcerpt b.point = true)
    (hins : b.storage.inserted b.point t = some edited)
    (hrecord : ({ b with storage := edited }.applyInsert p b.point t.length).recordOrAmendUndo true =
      some recorded) :
    b.insertAtPoint p t = some (.ok { recorded with goalColumn := none }) := by
  rw [insertAtPoint, whenWritable, if_neg (by simp [hwritable]),
    if_neg (mt List.isEmpty_iff.1 hempty), if_neg (by simp [hallowed])]
  have hrest : (({ b with storage := edited }.applyInsert p b.point t.length).recordOrAmendUndo
      true).bind (fun b => some { b with goalColumn := none }) =
        some { recorded with goalColumn := none } := by rw [hrecord, Option.bind_some]
  exact congrArg (Option.map Except.ok) (Option.bind_eq_some_iff.2 ⟨edited, hins, hrest⟩)

theorem insertAtPoint_entered (hwritable : b.readOnly = false) (hwhole : b.excerptRanges = [])
    (hdepth : 0 < b.undoGroupDepth) {o : Nat} (hreturns : (b.storage.inserted o t).isSome) :
    ∃ b', b.insertAtPoint p t = some (.ok b') ∧ Entered t b.point b b' := by
  by_cases hempty : t = []
  · refine ⟨b, by simp [insertAtPoint, whenWritable, hwritable, hempty], ?_⟩
    subst hempty
    refine ⟨by simp [Text.insertAt], hwritable, hwhole, (relocateForInsert_zero _ _).symm, ?_, rfl,
      rfl, ?_⟩
    · simp [relocateForInsert_zero]
    · simp
  · have hins := inserted_of_isSome hreturns b.storage.bytes b.point
    have hpos : 0 < t.length := List.length_pos_iff.2 hempty
    have hallowed : b.canInsertAtExcerpt b.point = true := by
      simp [TrackedPositions.canInsertAtExcerpt, hwhole]
    have happlied := applied_insert (p := p) b
      { b.storage with bytes := Text.insertAt b.storage.bytes b.point t } b.point t.length
    have hrecord := recordOrAmendUndo_of_grouped happlied.recording hdepth true
    refine ⟨_, insertAtPoint_eq hwritable hempty hallowed hins hrecord, ?_⟩
    · refine ⟨happlied.storage, (applyInsert_readOnly _ _).trans hwritable, ?_, ?_, ?_, rfl, rfl,
        fun _ => rfl⟩
      · rw [applyInsert_toTrackedPositions hpos, TrackedPositions.relocateForInsertion_excerptRanges]
        simp [hwhole]
      · rw [applyInsert_toTrackedPositions hpos, TrackedPositions.relocateForInsertion_point]
      · rw [applyInsert_toTrackedPositions hpos, relocateForInsertion_secondaryCursors, List.map_map,
          List.map_map]
        rfl

/-! ## Every cursor -/

/-- The secondary cursors' points. -/
abbrev secondaryPoints (b : Buffer) : List Nat := b.secondaryCursors.map Cursor.point

theorem swapCursor_spec {i x : Nat} (hx : b.secondaryPoints[i]? = some x) :
    ∃ b', b.swapCursor i = some b' ∧ b'.point = x ∧
      b'.secondaryPoints = b.secondaryPoints.set i b.point ∧ b'.storage = b.storage ∧
      b'.readOnly = b.readOnly ∧ b'.excerptRanges = b.excerptRanges ∧
      b'.toUndoRecording = b.toUndoRecording := by
  rw [secondaryPoints, List.getElem?_map, Option.map_eq_some_iff] at hx
  obtain ⟨cursor, hcursor, rfl⟩ := hx
  have hswap : b.swapCursor i = some _ := Option.bind_eq_some_iff.2 ⟨cursor, hcursor, rfl⟩
  refine ⟨_, hswap, rfl, ?_, rfl, rfl, rfl, rfl⟩
  simp [secondaryPoints, List.map_set]

theorem round_entered {i x : Nat} (hwritable : b.readOnly = false) (hwhole : b.excerptRanges = [])
    (hdepth : 0 < b.undoGroupDepth) {o : Nat} (hreturns : (b.storage.inserted o t).isSome)
    (hx : b.secondaryPoints[i]? = some x) :
    ∃ b₁ b₂ b', b.swapCursor i = some b₁ ∧ b₁.insertAtPoint p t = some (.ok b₂) ∧
      b₂.swapCursor i = some b' ∧ Entered t x b b' := by
  obtain ⟨b₁, hswap, hpoint, hcursors, hstorage, hreadOnly, hexcerpts, hrecording⟩ :=
    swapCursor_spec hx
  obtain ⟨b₂, hinsert, hentered⟩ := insertAtPoint_entered (p := p) (hreadOnly.trans hwritable)
    (hexcerpts.trans hwhole) (hrecording ▸ hdepth) (hstorage ▸ hreturns)
  have hlt : i < b.secondaryPoints.length := (List.getElem?_eq_some_iff.1 hx).1
  have hback : b₂.secondaryPoints[i]? = some (relocateForInsert b.point x t.length) := by
    rw [secondaryPoints, hentered.cursors, ← secondaryPoints, hcursors, hpoint, List.getElem?_map,
      List.getElem?_set_self hlt]
    rfl
  obtain ⟨b', hswap', hpoint', hcursors', hstorage', hreadOnly', hexcerpts', hrecording'⟩ :=
    swapCursor_spec hback
  refine ⟨b₁, b₂, b', hswap, hinsert, hswap', ?_, ?_, ?_, hpoint', ?_, ?_, ?_, ?_⟩
  · rw [hstorage', hentered.storage, hstorage, hpoint]
  · exact hreadOnly'.trans hentered.writable
  · exact hexcerpts'.trans hentered.whole
  · -- the swapped-out primary is back, and so is the cursor that was swapped in
    show b'.secondaryPoints = _
    rw [hcursors', secondaryPoints, hentered.cursors, ← secondaryPoints, hcursors, hentered.point,
      hpoint, ← List.map_set, List.set_set]
    obtain ⟨hlt, rfl⟩ := List.getElem?_eq_some_iff.1 hx
    rw [List.set_getElem_self]
  · rw [hrecording', hentered.tree, hrecording]
  · rw [hrecording', hentered.depth, hrecording]
  · intro h
    rw [hrecording']
    exact hentered.dirty (hrecording ▸ h)

/-- The text is in at the positions done, and every cursor is where that has taken it. -/
structure Walked (t : Bytes) (b₀ : Buffer) (done : List Nat) (b : Buffer) : Prop where
  storage : b.storage = { b₀.storage with bytes := insertEach t done b₀.storage.bytes }
  writable : b.readOnly = false
  whole : b.excerptRanges = []
  point : b.point = landing t.length done b₀.point
  cursors : b.secondaryPoints = b₀.secondaryPoints.map (landing t.length done)
  tree : b.undoTree = b₀.undoTree
  depth : b.undoGroupDepth = b₀.undoGroupDepth
  dirty : done ≠ [] → t ≠ [] → b.undoGroupDirty = true

theorem Walked.start (hwritable : b₀.readOnly = false) (hwhole : b₀.excerptRanges = []) :
    Walked t b₀ [] b₀ :=
  ⟨by simp, hwritable, hwhole, by simp, by simp [Function.comp_def], rfl, rfl, fun h => absurd rfl h⟩

/-- The at-or-after rule carries a cursor to where the next copy takes it. -/
theorem relocateForInsert_landing (length : Nat) (done : List Nat) (q y : Nat) :
    relocateForInsert (landing length done y) (landing length done q) length =
      landing length (q :: done) y := by
  simp only [relocateForInsert, ge_iff_le, landing_le_iff, landing_cons]

/-- The step: typing at a cursor whose position is not done yet. -/
theorem Walked.enter {done : List Nat} {q : Nat} (h : Walked t b₀ done b)
    (hentered : Entered t (landing t.length done q) b b') (hnodup : (q :: done).Nodup)
    (hq : q ≤ b₀.storage.byteLength) : Walked t b₀ (q :: done) b' := by
  obtain ⟨hnot, hdone⟩ := List.nodup_cons.1 hnodup
  refine ⟨?_, hentered.writable, hentered.whole, ?_, ?_, hentered.tree.trans h.tree,
    hentered.depth.trans h.depth, fun _ ht => hentered.dirty (Or.inr ht)⟩
  · rw [hentered.storage, h.storage, insertEach_cons hdone hnot hq]
    simp only [Text.insertAt, List.append_assoc]
  · rw [hentered.point, h.point, relocateForInsert_landing]
  · show b'.secondaryCursors.map Cursor.point = _
    rw [hentered.cursors, ← secondaryPoints, h.cursors, List.map_map]
    exact List.map_congr_left fun y _ => relocateForInsert_landing t.length done q y

section

variable (hnodup : b₀.cursorPoints.Nodup)
  (hwithin : ∀ q ∈ b₀.cursorPoints, q ≤ b₀.storage.byteLength) (hdepth : 0 < b₀.undoGroupDepth)
  {o : Nat} (hreturns : (b₀.storage.inserted o t).isSome)

include hnodup hwithin hdepth hreturns

/-- The loop: after `i` rounds the primary's position and `i` others are done. -/
theorem forEachSecondary_walked (rounds : Nat) {i : Nat} {done : List Nat} {b : Buffer}
    (hrounds : b₀.secondaryPoints.length < i + rounds) (hi : i ≤ b₀.secondaryPoints.length)
    (hdone : done.Perm (b₀.point :: b₀.secondaryPoints.take i)) (h : Walked t b₀ done b) :
    ∃ b' done', forEachSecondary (fun b => b.insertAtPoint p t) i rounds b = some (b', none) ∧
      Walked t b₀ done' b' ∧ done'.Perm b₀.cursorPoints := by
  induction rounds generalizing i done b with
  | zero => exact absurd hrounds (Nat.not_lt.2 hi)
  | succ rounds ih =>
      have hlength : b.secondaryCursors.length = b₀.secondaryPoints.length := by
        have := congrArg List.length h.cursors
        simpa using this
      unfold forEachSecondary
      split
      · rename_i hlt
        rw [hlength] at hlt
        generalize hq : b₀.secondaryPoints[i] = q
        have hget : b₀.secondaryPoints[i]? = some q := by rw [List.getElem?_eq_getElem hlt, hq]
        have hnext : (q :: done).Perm (b₀.point :: b₀.secondaryPoints.take (i + 1)) := by
          rw [List.take_add_one, hget]
          exact (hdone.cons q).trans
            ((List.Perm.swap _ _ _).trans ((List.perm_append_singleton q _).symm.cons _))
        have hsub : (b₀.point :: b₀.secondaryPoints.take (i + 1)).Sublist b₀.cursorPoints :=
          (List.take_sublist _ _).cons_cons _
        have hfresh : (q :: done).Nodup := hnext.nodup_iff.2 (hnodup.sublist hsub)
        have hmem : q ∈ b₀.cursorPoints := List.mem_cons_of_mem _ (List.mem_of_getElem? hget)
        have hreturns' : (b.storage.inserted o t).isSome := by
          rw [h.storage, inserted_of_isSome hreturns]
          rfl
        have hx : b.secondaryPoints[i]? = some (landing t.length done q) := by
          rw [h.cursors, List.getElem?_map, hget]
          rfl
        obtain ⟨b₁, b₂, b', hswap, hinsert, hback, hentered⟩ :=
          round_entered (p := p) h.writable h.whole (h.depth ▸ hdepth) hreturns' hx
        simp only [hswap, hinsert, hback, Option.bind_eq_bind, Option.bind_some]
        exact ih (by omega) hlt hnext (h.enter hentered hfresh (hwithin q hmem))
      · rename_i hge
        rw [hlength] at hge
        refine ⟨b, done, rfl, h, ?_⟩
        rwa [List.take_of_length_le (Nat.le_of_not_lt hge)] at hdone

end

/-! ## Leaving the group -/

theorem endUndoGroup_spec {r : UndoRecording} {node : UndoTree.Node} (storage : Storage)
    (hnode : r.undoTree.currentNode = some node) : ∃ r', r.endUndoGroup storage [] = some r' ∧
      (r.undoGroupDepth = 1 → r.undoGroupDirty = true →
        r.undoTree.record storage = some r'.undoTree) := by
  unfold UndoRecording.endUndoGroup
  split
  · rename_i hzero
    refine ⟨r, rfl, fun hone => ?_⟩
    rw [hzero] at hone
    cases hone
  · simp only
    split
    · obtain ⟨tree, htree⟩ : ∃ tree, r.undoTree.record storage = some tree :=
        ⟨_, UndoTree.record_eq hnode storage⟩
      refine ⟨{ r with
        undoTree := tree
        undoGroupDepth := r.undoGroupDepth - 1
        undoGroupDirty := false
        canAmend := false }, ?_, fun _ _ => htree⟩
      simp only [UndoRecording.record, htree, UndoRecording.snapshotExcerptRangeOffsets,
        Option.bind_eq_bind, Option.bind_some, List.isEmpty_nil, if_true]
    · rename_i hopen
      refine ⟨_, rfl, fun hone hdirty => absurd ⟨?_, hdirty⟩ hopen⟩
      rw [hone]

/-- One undo after a record brings the state before it back. -/
theorem undo_record {state : Storage} {tree : UndoTree} {node : UndoTree.Node}
    (hnode : tree.currentNode = some node) (hrecord : tree.record state = some b.undoTree) :
    ∃ b', b.undo p = some b' ∧ b'.storage = node.state := by
  rw [UndoTree.record_eq hnode] at hrecord
  have htree := Option.some.inj hrecord
  have hcurrent : b.undoTree.currentNode = some (tree.recorded state) := by
    rw [← htree]
    exact UndoTree.record_new
  have hundo : b.undoTree.undo = some { b.undoTree with current := tree.current } := by
    rw [UndoTree.undo, hcurrent]
    rfl
  have hparent : UndoTree.currentNode { b.undoTree with current := tree.current } =
      some (node.push tree.nodes.length) := by
    rw [← htree]
    exact UndoTree.record_current hnode
  obtain ⟨b', hb', hat⟩ := navigate_at p b hparent
  refine ⟨b', ?_, ?_⟩
  · have hable : b.canUndo = some true := by
      rw [canUndo, UndoTree.canUndo, hcurrent]
      rfl
    simp only [undo, hable, hundo, Option.bind_eq_bind, Option.bind_some, if_true]
    exact hb'
  · have hstate := hat.state
    rw [UndoTree.currentState, hparent] at hstate
    exact (Option.some.inj hstate).symm

/-! ## The theorem -/

/-- A writable buffer without excerpts outside any undo group, whose content is the one the undo
tree has, and whose cursors are distinct positions of it. -/
structure AtRest (b : Buffer) : Prop where
  writable : b.readOnly = false
  whole : b.excerptRanges = []
  outside : b.undoGroupDepth = 0
  recorded : b.undoTree.currentState = some b.storage
  distinct : b.cursorPoints.Nodup
  within : ∀ q ∈ b.cursorPoints, q ≤ b.storage.byteLength

/-- A text went in at every cursor at once. -/
structure TypedEverywhere (p : Platform) (t : Bytes) (b b' : Buffer) : Prop where
  content : b'.storage =
    { b.storage with bytes := insertEach t b.cursorPoints b.storage.bytes }
  point : b'.point = landing t.length b.cursorPoints b.point
  cursors : b'.secondaryPoints.Perm (b.secondaryPoints.map (landing t.length b.cursorPoints))
  copies : ∀ q ∈ b.cursorPoints,
    substr b'.storage.bytes (landing t.length b.cursorPoints q - t.length) t.length = t
  sorted : b'.secondaryPoints.Pairwise (· < ·)
  apart : b'.point ∉ b'.secondaryPoints
  undone : t ≠ [] → ∃ b'', b'.undo p = some b'' ∧ b''.storage = b.storage

/-- Normalizing sorts the cursors, and closing the group records all the typing as one state. -/
theorem endCursorIteration_typed {b₁ : Buffer} {done : List Nat} {node : UndoTree.Node}
    (hnode : b₀.undoTree.currentNode = some node) (hstate : node.state = b₀.storage)
    (hdepth : b₀.undoGroupDepth = 1) (hnodup : b₀.cursorPoints.Nodup)
    (hwithin : ∀ q ∈ b₀.cursorPoints, q ≤ b₀.storage.byteLength) (h : Walked t b₀ done b₁)
    (hdone : done.Perm b₀.cursorPoints) :
    ∃ b', b₁.endCursorIteration p = some b' ∧ TypedEverywhere p t b₀ b' := by
  have hpoint := h.point
  have hcursors := h.cursors
  rw [landing_perm hdone] at hpoint hcursors
  have hpoints : (b₁.point :: b₁.secondaryPoints).Nodup := by
    rw [hpoint, hcursors, ← List.map_cons]
    exact hnodup.map landing_injective
  obtain ⟨hapart, hdistinct⟩ := List.nodup_cons.1 hpoints
  let inactive : TrackedPositions := { b₁.toTrackedPositions with cursorIterationActive := false }
  obtain ⟨hsorted, hincreasing⟩ :=
    TrackedPositions.normalize_of_distinct p.keySort inactive hdistinct hapart
  have hnode₁ : b₁.toUndoRecording.undoTree.currentNode = some node := h.tree ▸ hnode
  obtain ⟨r', hr', hrecord⟩ := endUndoGroup_spec b₁.storage hnode₁
  have hoffsets : excerptOffsets { b₁ with
      toTrackedPositions := inactive.normalizeSecondaryCursors p.keySort } = [] := by
    show (b₁.excerptRanges.map _) = []
    rw [h.whole]
    rfl
  have hend : b₁.endCursorIteration p = some _ := Option.bind_eq_some_iff.2 ⟨r', hoffsets ▸ hr', rfl⟩
  have hlengths : ∀ q ∈ b₀.cursorPoints, q ≤ b₀.storage.bytes.length := hwithin
  have hcontent : b₁.storage =
      { b₀.storage with bytes := insertEach t b₀.cursorPoints b₀.storage.bytes } := by
    rw [h.storage, insertEach_perm hdone]
  have hperm := (p.keySort.perm Cursor.point b₁.secondaryCursors).map Cursor.point
  refine ⟨_, hend, hcontent, hpoint, ?_, ?_, ?_, ?_, ?_⟩
  · show ((inactive.normalizeSecondaryCursors p.keySort).secondaryCursors.map _).Perm _
    rw [hsorted]
    exact hperm.trans (List.Perm.of_eq hcursors)
  · intro q hq
    show substr b₁.storage.bytes _ _ = t
    rw [hcontent]
    exact (copy_before_landing hnodup hlengths hq).2
  · show ((inactive.normalizeSecondaryCursors p.keySort).secondaryCursors.map _).Pairwise _
    rw [hsorted]
    exact List.pairwise_map.2 hincreasing
  · show b₁.point ∉ (inactive.normalizeSecondaryCursors p.keySort).secondaryCursors.map _
    rw [hsorted]
    exact fun hmem => hapart (hperm.mem_iff.1 hmem)
  · intro ht
    have hnonempty : done ≠ [] := fun hnil => List.cons_ne_nil _ _ (List.nil_perm.1 (hnil ▸ hdone))
    have hdirty := hrecord (h.depth.trans hdepth) (h.dirty hnonempty ht)
    rw [← hstate]
    exact undo_record hnode₁ hdirty

theorem forEachCursor_typed {o : Nat} (hrest : b.AtRest)
    (hreturns : (b.storage.inserted o t).isSome) :
    ∃ b', b.forEachCursor p (fun b => b.insertAtPoint p t) = some (b', none) ∧
      TypedEverywhere p t b b' := by
  obtain ⟨b₀, hb₀⟩ : ∃ b₀ : Buffer, b₀ = { b.beginUndoGroup with cursorIterationActive := true } :=
    ⟨_, rfl⟩
  have hpoints : b₀.cursorPoints = b.cursorPoints := by rw [hb₀]; rfl
  have hstorage : b₀.storage = b.storage := by rw [hb₀]; rfl
  have hdepth : b₀.undoGroupDepth = 1 := by
    rw [hb₀]
    exact congrArg (· + 1) hrest.outside
  have hwritable : b₀.readOnly = false := by rw [hb₀]; exact hrest.writable
  have hwhole : b₀.excerptRanges = [] := by rw [hb₀]; exact hrest.whole
  obtain ⟨node, hnode, hstate⟩ := Option.bind_eq_some_iff.1 hrest.recorded
  have hnode₀ : b₀.undoTree.currentNode = some node := by rw [hb₀]; exact hnode
  have hnodup : b₀.cursorPoints.Nodup := hpoints ▸ hrest.distinct
  have hwithin : ∀ q ∈ b₀.cursorPoints, q ≤ b₀.storage.byteLength := by
    rw [hpoints, hstorage]
    exact hrest.within
  have hone : 0 < b₀.undoGroupDepth := hdepth ▸ Nat.one_pos
  have hreturns₀ : (b₀.storage.inserted o t).isSome := hstorage ▸ hreturns
  -- the primary, then the others
  obtain ⟨b₁, hinsert, hentered⟩ := insertAtPoint_entered (p := p) hwritable hwhole hone hreturns₀
  have hfirst : Walked t b₀ [b₀.point] b₁ := by
    apply (Walked.start hwritable hwhole).enter
    · rwa [landing_nil]
    · exact List.nodup_singleton _
    · exact hwithin _ List.mem_cons_self
  have hlength : b₁.secondaryCursors.length = b₀.secondaryPoints.length := by
    simpa using congrArg List.length hfirst.cursors
  obtain ⟨b₂, done, hloop, hwalked, hdone⟩ :=
    forEachSecondary_walked (p := p) hnodup hwithin hone hreturns₀ (i := 0)
      (b₁.secondaryCursors.length + 1) (by omega) (Nat.zero_le _) (List.Perm.refl _) hfirst
  obtain ⟨b', hend, htyped⟩ := endCursorIteration_typed (p := p) hnode₀
    ((Option.some.inj hstate).trans hstorage.symm) hdepth hnodup hwithin hwalked hdone
  refine ⟨b', ?_, ?_⟩
  · simp only [forEachCursor, ← hb₀, hinsert, hloop, hend, Option.bind_eq_bind, Option.bind_some]
  · obtain ⟨hcontent, hpoint, hcursors, hcopies, hsorted, hapart, hundone⟩ := htyped
    subst hb₀
    exact ⟨hcontent, hpoint, hcursors, hcopies, hsorted, hapart, hundone⟩

/-- The cursors after typing are those before it, each past the copies at and before it. -/
theorem TypedEverywhere.cursorPoints (h : TypedEverywhere p t b b') :
    b'.cursorPoints.Perm (b.cursorPoints.map (landing t.length b.cursorPoints)) := by
  rw [Buffer.cursorPoints, h.point]
  exact h.cursors.cons _

/-- Typing a text at every cursor of a buffer at rest, when the text can be put in at all, is one
insertion at all of them: each copy goes before its cursor's byte, each cursor to the end of its own
copy, and one undo takes everything back. Which of the cursors is the primary makes no difference. -/
theorem forEachCursor_insertAtPoint {o : Nat} (hrest : b.AtRest)
    (hreturns : (b.storage.inserted o t).isSome) :
    ∃ b', b.forEachCursor p (fun b => b.insertAtPoint p t) = some (b', none) ∧
      TypedEverywhere p t b b' ∧
      ∀ other : Buffer, other.AtRest → other.storage = b.storage →
        other.cursorPoints.Perm b.cursorPoints →
        ∃ other', other.forEachCursor p (fun b => b.insertAtPoint p t) = some (other', none) ∧
          other'.storage = b'.storage ∧ other'.cursorPoints.Perm b'.cursorPoints := by
  obtain ⟨b', hb', htyped⟩ := forEachCursor_typed (p := p) hrest hreturns
  refine ⟨b', hb', htyped, ?_⟩
  intro other hother hstorage hperm
  obtain ⟨other', hother', htyped'⟩ :=
    forEachCursor_typed (p := p) hother (hstorage.symm ▸ hreturns)
  refine ⟨other', hother', ?_, ?_⟩
  · rw [htyped'.content, htyped.content, hstorage, insertEach_perm hperm]
  · have hmoved := htyped'.cursorPoints
    rw [landing_perm hperm] at hmoved
    exact hmoved.trans ((hperm.map _).trans htyped.cursorPoints.symm)

/-- At a primary between two others. -/
theorem forEachCursor_insertAtPoint_three :
    let p : Platform := { graphemeBreak := fun s _ _ => (true, s), keySort := .insertion }
    let b : Buffer :=
      { ofStorage "scratch" { bytes := [97, 98, 99], huge := false } with
        point := 1
        secondaryCursors :=
          [{ point := 3, mark := none, goalColumn := none },
            { point := 0, mark := none, goalColumn := none }] }
    ∃ b', b.forEachCursor p (fun b => b.insertAtPoint p [88, 89]) = some (b', none) ∧
      TypedEverywhere p [88, 89] b b' ∧
      ∀ other : Buffer, other.AtRest → other.storage = b.storage →
        other.cursorPoints.Perm b.cursorPoints →
        ∃ other', other.forEachCursor p (fun b => b.insertAtPoint p [88, 89]) = some (other', none) ∧
          other'.storage = b'.storage ∧ other'.cursorPoints.Perm b'.cursorPoints := by
  intro p b
  have hrest : b.AtRest :=
    ⟨rfl, rfl, rfl, rfl, by decide, by decide⟩
  exact forEachCursor_insertAtPoint (o := 0) hrest (by decide +kernel)

/-- An empty text records nothing, and one undo takes back what was typed before it. -/
theorem not_undo_forEachCursor_restores :
    ¬∀ (p : Platform) (t : Bytes) (b b' : Buffer), b.AtRest →
      ((b.forEachCursor p fun b => b.insertAtPoint p t).bind fun r => r.1.undo p) = some b' →
        b'.storage = b.storage := by
  intro h
  let p : Platform := { graphemeBreak := fun s _ _ => (true, s), keySort := .insertion }
  let b : Buffer :=
    { ofStorage "scratch" { bytes := [97], huge := false } with
      point := 1
      undoTree :=
        { nodes :=
            [{ state := .empty, parent := none, children := [1], mostRecentChild := 0,
               sequence := 0 },
              { state := { bytes := [97], huge := false }, parent := some 0, children := [],
                mostRecentChild := 0, sequence := 1 }]
          root := 0
          current := 1
          nextSequence := 2
          bySequence := [(0, 0), (1, 1)] } }
  have hrest : b.AtRest := ⟨rfl, rfl, rfl, rfl, by decide, by decide⟩
  have hundone : (((b.forEachCursor p fun b => b.insertAtPoint p []).bind fun r => r.1.undo p).map
      (·.storage)) = some .empty := by decide +kernel
  obtain ⟨b', hb', hempty⟩ := Option.map_eq_some_iff.1 hundone
  have hsame := h p [] b b' hrest hb'
  rw [hempty] at hsame
  exact absurd hsame (by decide)

end Buffer

end Ned.Text
