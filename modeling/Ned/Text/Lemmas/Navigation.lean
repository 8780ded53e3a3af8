import Ned.Text.Lemmas.Grapheme
import Ned.Text.Lemmas.Buffer
import Ned.Text.Lemmas.UndoRecording

/-!
# Moving in the undo tree

A move to any node of the tree succeeds, so a trail can be walked up and down again.
-/

namespace Ned.Text

open Ned.Library

namespace Buffer

variable (p : Platform) (b : Buffer)

theorem snap_total (offset : Nat) : ∃ r, b.snap p offset = some r :=
  snapToGraphemeBoundary_total p.graphemeBreak b.storage offset

theorem clampToContent_total {snap : Nat → Option Nat} (hsnap : ∀ offset, ∃ r, snap offset = some r)
    (positions : TrackedPositions) (length : Nat) :
    ∃ positions', positions.clampToContent snap length = some positions' := by
  obtain ⟨point, hpoint⟩ := hsnap (min positions.point length)
  have hmark : ∃ mark, positions.mark.mapM (fun mark => snap (min mark length)) = some mark := by
    cases positions.mark with
    | none => exact ⟨none, rfl⟩
    | some mark =>
        obtain ⟨r, hr⟩ := hsnap (min mark length)
        exact ⟨some r, by simp [hr]⟩
  obtain ⟨mark, hmark⟩ := hmark
  simp only [TrackedPositions.clampToContent, hpoint, hmark, Option.bind_eq_bind, Option.bind_some]
  exact ⟨_, rfl⟩

theorem restoreExcerptRangeOffsets_total {sequence : Nat}
    (h : b.undoTree.currentSequence = some sequence) :
    ∃ restored, b.restoreExcerptRangeOffsets = some restored := by
  unfold restoreExcerptRangeOffsets
  split
  · exact ⟨_, rfl⟩
  · rw [h, Option.bind_eq_bind, Option.bind_some]
    split
    · exact ⟨_, rfl⟩
    · split <;> exact ⟨_, rfl⟩

theorem navigate_total {tree : UndoTree} {node : UndoTree.Node} (h : tree.currentNode = some node) :
    ∃ b', b.navigate p tree = some b' := by
  have hstate : tree.currentState = some node.state := by
    rw [UndoTree.currentState, h]
    rfl
  obtain ⟨positions, hpositions⟩ := clampToContent_total
    (snap_total p { b with undoTree := tree, storage := node.state })
    b.toTrackedPositions.clearSecondaryCursors.clearSnippetRanges node.state.byteLength
  have hadopt : ∃ a, { b with undoTree := tree }.adoptCurrentState p = some a := by
    simp only [adoptCurrentState, hstate, hpositions, Option.bind_eq_bind, Option.bind_some]
    exact ⟨_, rfl⟩
  obtain ⟨a, ha⟩ := hadopt
  obtain ⟨offset, oldLength, newLength, hcommit⟩ := commitRestore_spec a b.storage
  obtain ⟨-, -, -, -, hrecording⟩ :=
    updateUnsavedRangesForRestore_spec (a.commitReplace offset oldLength newLength) b.storage
  have htree : ((a.commitReplace offset oldLength newLength).updateUnsavedRangesForRestore
      b.storage).undoTree = tree :=
    congrArg UndoRecording.undoTree (hrecording.trans (adoptCurrentState_spec ha).recording)
  have hsequence : ((a.commitReplace offset oldLength newLength).updateUnsavedRangesForRestore
      b.storage).undoTree.currentSequence = some node.sequence := by
    rw [htree, UndoTree.currentSequence, h]
    rfl
  obtain ⟨restored, hrestored⟩ := restoreExcerptRangeOffsets_total _ hsequence
  simp only [navigate, applyUndoTreeNavigation, ha, hcommit, hrestored, Option.bind_eq_bind,
    Option.bind_some]
  exact ⟨_, rfl⟩

/-- The content is the state of the current node of this tree. -/
structure At (tree : UndoTree) (b : Buffer) : Prop where
  undoTree : b.undoTree = tree
  state : tree.currentState = some b.storage

theorem navigate_at {tree : UndoTree} {node : UndoTree.Node} (h : tree.currentNode = some node) :
    ∃ b', b.navigate p tree = some b' ∧ At tree b' := by
  obtain ⟨b', hb'⟩ := navigate_total p b h
  have hrestored := navigate_spec hb'
  exact ⟨b', hb', congrArg UndoRecording.undoTree hrestored.recording, hrestored.current⟩

variable {p b}

theorem undo_at {n : Nat}
    (h : UndoTree.Trail b.undoTree.nodes b.undoTree.root b.undoTree.current (n + 1)) :
    ∃ a b', b.undo p = some b' ∧ At { b.undoTree with current := a } b' ∧
      UndoTree.Trail b.undoTree.nodes b.undoTree.root a n ∧ ∀ c : Buffer,
        c.undoTree = { b.undoTree with current := a } → ∃ c', c.redo p = some c' ∧ At b.undoTree c' := by
  obtain ⟨a, hable, hundo, ha, hredoable, hredo⟩ := UndoTree.undo_of_trail_succ h
  obtain ⟨current, hcurrent⟩ := h.exists_node
  obtain ⟨node, hnode⟩ := ha.exists_node
  have hparent : UndoTree.currentNode { b.undoTree with current := a } = some node := hnode
  obtain ⟨b', hb', hat⟩ := navigate_at p b hparent
  refine ⟨a, b', ?_, hat, ha, fun c hc => ?_⟩
  · simp only [undo, canUndo, hable, hundo, Option.bind_eq_bind, Option.bind_some, if_true]
    exact hb'
  · obtain ⟨c', hc', hat'⟩ := navigate_at p c hcurrent
    refine ⟨c', ?_, hat'⟩
    simp only [redo, canRedo, hc, hredoable, hredo, Option.bind_eq_bind, Option.bind_some, if_true]
    exact hc'

end Buffer

/-! ## Undoing everything -/

namespace Session

variable {p : Platform}

theorem undo_all {n : Nat} {s : Session} {tree : UndoTree} (hat : s.buffer.At tree)
    (htrail : UndoTree.Trail tree.nodes tree.root tree.current n) :
    ∃ s₁ s₂, run (step p) s (List.replicate n .undo) = some s₁ ∧
      s₁.buffer.At { tree with current := tree.root } ∧
      run (step p) s₁ (List.replicate n .redo) = some s₂ ∧ s₂.buffer.At tree := by
  induction n generalizing s tree with
  | zero =>
      obtain ⟨-, hroot⟩ := UndoTree.canUndo_of_trail_zero htrail
      have hsame : { tree with current := tree.root } = tree :=
        congrArg (fun a => { tree with current := a }) hroot.symm
      exact ⟨s, s, rfl, hsame ▸ hat, rfl, hat⟩
  | succ n ih =>
      obtain ⟨a, b', hundo, hat', ha, hredo⟩ := Buffer.undo_at (p := p) (hat.undoTree ▸ htrail)
      rw [hat.undoTree] at hat' ha hredo
      have hstep : step p s .undo = some { s with buffer := b' } := by
        rw [step, hundo]
        rfl
      obtain ⟨s₁, s₂, hrun₁, hroot, hrun₂, hback⟩ := ih (s := { s with buffer := b' }) hat' ha
      obtain ⟨c, hc, hagain⟩ := hredo s₂.buffer hback.undoTree
      have hstep' : step p s₂ .redo = some { s₂ with buffer := c } := by
        rw [step, hc]
        rfl
      refine ⟨s₁, { s₂ with buffer := c }, ?_, hroot, ?_, hagain⟩
      · rw [List.replicate_succ, run_cons, hstep]
        exact hrun₁
      · rw [List.replicate_succ', run_append, hrun₂, Option.bind_some, run_cons, hstep']
        rfl

end Session

end Ned.Text
