import Ned.Text.Lemmas.Buffer
import Ned.Text.Lemmas.Tracking

/-!
# Steps of a session

Every operation but the two on anchors publishes at most one commit.
-/

namespace Ned.Text

namespace Session

variable {p : Platform} {s s' : Session} {b : Buffer}

theorem settle_eq_some {outcome : Option (Except String Buffer)} (h : s.settle outcome = some s') :
    (∃ b, outcome = some (.ok b) ∧ s' = { s with buffer := b }) ∨ s' = s := by
  obtain ⟨result, hresult, h⟩ := Option.bind_eq_some_iff.1 h
  cases result with
  | ok b => exact Or.inl ⟨b, hresult, (Option.some.inj h).symm⟩
  | error message => exact Or.inr (Option.some.inj h).symm

theorem update_eq_some {outcome : Option Buffer} (h : s.update outcome = some s') :
    ∃ b, outcome = some b ∧ s' = { s with buffer := b } := by
  obtain ⟨b, hb, h⟩ := Option.bind_eq_some_iff.1 h
  exact ⟨b, hb, (Option.some.inj h).symm⟩

theorem map_fst_eq_ok {outcome : Option (Except String (Buffer × Bytes))}
    (h : outcome.map (Except.map Prod.fst) = some (.ok b)) :
    ∃ deleted, outcome = some (.ok (b, deleted)) := by
  obtain ⟨result, hresult, h⟩ := Option.map_eq_some_iff.1 h
  cases result with
  | error message => cases h
  | ok pair =>
      cases h
      exact ⟨pair.2, hresult⟩

end Session

/-! ## Commits -/

def Tracking.Advances (t t' : Tracking) : Prop := t' = t ∨ ∃ c, t' = t.commit c

namespace Session

/-- The operation moves to the current node of this tree. -/
inductive MovesTo (s : Session) : Operation → UndoTree → Prop
  | undo {tree : UndoTree} (hable : s.buffer.canUndo = some true)
      (htree : s.buffer.undoTree.undo = some tree) : MovesTo s .undo tree
  | redo {tree : UndoTree} (hable : s.buffer.canRedo = some true)
      (htree : s.buffer.undoTree.redo = some tree) : MovesTo s .redo tree
  | tryJumpToUndoSequence {sequence : Nat} {tree : UndoTree}
      (htree : s.buffer.undoTree.jumpTo sequence = some (tree, true)) :
      MovesTo s (.tryJumpToUndoSequence sequence) tree

/-- What an operation may commit: a barrier, an insertion, a deletion, or what a restore changed. -/
inductive Publishes (s : Session) (op : Operation) : Tracking.Commit → Prop
  | barrier : Publishes s op .barrier
  | inserted (offset length : Nat) : Publishes s op (.replace offset 0 length)
  | erased (offset length : Nat) : Publishes s op (.replace offset length 0)
  | restored {tree : UndoTree} {target : Storage} (hmoves : s.MovesTo op tree)
      (htarget : tree.currentState = some target) :
      Publishes s op (Buffer.restoreCommit s.buffer.storage target)

/-- A step of the operation commits at most once, and what it may. -/
def Announces (s : Session) (op : Operation) (t : Tracking) : Prop :=
  t = s.buffer.toTracking ∨ ∃ c, s.Publishes op c ∧ t = s.buffer.toTracking.commit c

end Session

namespace Buffer

variable {p : Platform} {b b' : Buffer} {s : Session} {op : Operation}

theorem Inserted.announces {canAmend : Bool}
    (h : b' = s.buffer ∨ Inserted canAmend s.buffer b') : s.Announces op b'.toTracking := by
  rcases h with rfl | ⟨_, _, _, _, h⟩
  · exact Or.inl rfl
  · exact Or.inr ⟨_, .inserted _ _, h.tracking⟩

theorem Erased.announces (h : b' = s.buffer ∨ Erased s.buffer b') :
    s.Announces op b'.toTracking := by
  rcases h with rfl | ⟨_, _, _, h⟩
  · exact Or.inl rfl
  · exact Or.inr ⟨_, .erased _ _, h.tracking⟩

theorem navigate_announces {tree : UndoTree} (hmoves : s.MovesTo op tree)
    (h : s.buffer.navigate p tree = some b') : s.Announces op b'.toTracking :=
  Or.inr ⟨_, .restored hmoves (navigate_spec h).current, navigate_tracking h⟩

theorem appendWhileReadOnly_announces {text : Bytes}
    (h : s.buffer.appendWhileReadOnly p text = some (.ok b')) : s.Announces op b'.toTracking := by
  unfold appendWhileReadOnly at h
  split at h
  · cases h
  · obtain ⟨a, ha, h⟩ := Option.bind_eq_some_iff.1 h
    have hadv : s.Announces op a.toTracking := Inserted.announces (insertAtImpl_spec ha)
    cases h
    split <;> exact hadv

theorem adopt_tracking {storage : Storage} {point : Nat} (h : b.adopt p storage point = some b') :
    b'.toTracking = b.toTracking.commit .barrier := by
  simp only [adopt] at h
  obtain ⟨snapped, -, h⟩ := Option.bind_eq_some_iff.1 h
  obtain ⟨recorded, hrec, h⟩ := Option.bind_eq_some_iff.1 h
  obtain ⟨-, -, -, htracking, -⟩ := recordOrAmendUndo_spec hrec
  cases h
  exact congrArg (fun t : Tracking => t.commit .barrier) htracking

theorem restoreUndoTree_tracking {nodes : List UndoTree.SerializedNode} {currentId : Nat}
    (h : b.restoreUndoTree nodes currentId = some (.ok b')) : b'.toTracking = b.toTracking := by
  obtain ⟨result, -, h⟩ := Option.bind_eq_some_iff.1 h
  cases result with
  | error message => cases h
  | ok tree =>
      obtain ⟨current, -, h⟩ := Option.bind_eq_some_iff.1 h
      split at h
      · cases h
        rfl
      · cases h

end Buffer

namespace Session

open Buffer

variable {p : Platform} {s s' : Session}

/-- The operations on anchors, which are not commits. -/
def isAnchorOperation : Operation → Bool
  | .createAnchor .. => true
  | .destroyAnchor .. => true
  | _ => false

theorem step_announces {op : Operation} (hop : isAnchorOperation op = false)
    (h : s.step p op = some s') : s.Announces op s'.buffer.toTracking := by
  cases op with
  | insertAt byteOffset text =>
      rcases settle_eq_some h with ⟨b, hb, rfl⟩ | rfl
      · exact Inserted.announces (insertAt_spec hb)
      · exact Or.inl rfl
  | appendWhileReadOnly text =>
      rcases settle_eq_some h with ⟨b, hb, rfl⟩ | rfl
      · exact appendWhileReadOnly_announces hb
      · exact Or.inl rfl
  | insertAtPoint text =>
      rcases settle_eq_some h with ⟨b, hb, rfl⟩ | rfl
      · exact Inserted.announces (insertAtPoint_spec hb)
      · exact Or.inl rfl
  | deleteRange byteOffset byteLength =>
      rcases settle_eq_some h with ⟨b, hb, rfl⟩ | rfl
      · obtain ⟨deleted, hb⟩ := map_fst_eq_ok hb
        exact Erased.announces (deleteRange_spec hb)
      · exact Or.inl rfl
  | deleteBackwardAtPoint =>
      rcases settle_eq_some h with ⟨b, hb, rfl⟩ | rfl
      · exact Erased.announces (deleteBackwardAtPoint_spec hb)
      · exact Or.inl rfl
  | deleteForwardAtPoint =>
      rcases settle_eq_some h with ⟨b, hb, rfl⟩ | rfl
      · exact Erased.announces (deleteForwardAtPoint_spec hb)
      · exact Or.inl rfl
  | setPoint byteOffset =>
      obtain ⟨b, hb, rfl⟩ := update_eq_some h
      obtain ⟨point, -, hb⟩ := Option.bind_eq_some_iff.1 hb
      cases hb
      exact Or.inl rfl
  | setMark byteOffset =>
      obtain ⟨b, hb, rfl⟩ := update_eq_some h
      obtain ⟨mark, -, hb⟩ := Option.bind_eq_some_iff.1 hb
      cases hb
      exact Or.inl rfl
  | clearMark =>
      obtain ⟨b, hb, rfl⟩ := update_eq_some h
      cases hb
      exact Or.inl rfl
  | moveForward =>
      obtain ⟨b, hb, rfl⟩ := update_eq_some h
      obtain ⟨point, -, hb⟩ := Option.bind_eq_some_iff.1 hb
      cases hb
      exact Or.inl rfl
  | moveBackward =>
      obtain ⟨b, hb, rfl⟩ := update_eq_some h
      obtain ⟨point, -, hb⟩ := Option.bind_eq_some_iff.1 hb
      cases hb
      exact Or.inl rfl
  | addCursorAt point mark =>
      obtain ⟨b, hb, rfl⟩ := update_eq_some h
      obtain ⟨snapped, -, hb⟩ := Option.bind_eq_some_iff.1 hb
      obtain ⟨snappedMark, -, hb⟩ := Option.bind_eq_some_iff.1 hb
      split at hb <;> cases hb <;> exact Or.inl rfl
  | narrowToRegion start stop =>
      obtain ⟨b, hb, rfl⟩ := update_eq_some h
      cases hb
      exact Or.inl rfl
  | widen =>
      obtain ⟨b, hb, rfl⟩ := update_eq_some h
      cases hb
      exact Or.inl rfl
  | setExcerptRanges ranges =>
      obtain ⟨b, hb, rfl⟩ := update_eq_some h
      obtain ⟨recording, -, hb⟩ := Option.bind_eq_some_iff.1 hb
      cases hb
      exact Or.inl rfl
  | setSnippetRanges ranges =>
      obtain ⟨b, hb, rfl⟩ := update_eq_some h
      cases hb
      exact Or.inl rfl
  | setDiagnostics diagnostics =>
      obtain ⟨b, hb, rfl⟩ := update_eq_some h
      cases hb
      exact Or.inl rfl
  | beginUndoGroup =>
      obtain ⟨b, hb, rfl⟩ := update_eq_some h
      cases hb
      exact Or.inl rfl
  | endUndoGroup =>
      obtain ⟨b, hb, rfl⟩ := update_eq_some h
      obtain ⟨recording, -, hb⟩ := Option.bind_eq_some_iff.1 hb
      cases hb
      exact Or.inl rfl
  | undo =>
      obtain ⟨b, hb, rfl⟩ := update_eq_some h
      rcases undo_navigate hb with ⟨-, rfl⟩ | ⟨tree, hable, htree, hb⟩
      · exact Or.inl rfl
      · exact navigate_announces (.undo hable htree) hb
  | redo =>
      obtain ⟨b, hb, rfl⟩ := update_eq_some h
      rcases redo_navigate hb with ⟨-, rfl⟩ | ⟨tree, hable, htree, hb⟩
      · exact Or.inl rfl
      · exact navigate_announces (.redo hable htree) hb
  | tryJumpToUndoSequence sequence =>
      obtain ⟨b, hb, rfl⟩ := update_eq_some h
      obtain ⟨⟨b, moved⟩, hjump, rfl⟩ := Option.map_eq_some_iff.1 hb
      rcases tryJumpToUndoSequence_navigate hjump with ⟨-, rfl⟩ | ⟨tree, htree, hjump⟩
      · exact Or.inl rfl
      · exact navigate_announces (.tryJumpToUndoSequence htree) hjump
  | restoreUndoTree nodes currentId =>
      rcases settle_eq_some h with ⟨b, hb, rfl⟩ | rfl
      · exact Or.inl (restoreUndoTree_tracking hb)
      · exact Or.inl rfl
  | beginSave ensureFinalNewline trimTrailingWhitespace lineEndingOverride =>
      simp only [step] at h
      split at h
      · rename_i b plan hb
        cases h
        exact Or.inl (beginSave_eq_ok hb).2.2.2.2.2.2
      · cases h
        exact Or.inl rfl
  | finishSave =>
      obtain ⟨plan, -, h⟩ := Option.bind_eq_some_iff.1 h
      cases h
      exact Or.inl rfl
  | abandonSave =>
      cases h
      exact Or.inl rfl
  | replaceContentForLoad content =>
      obtain ⟨b, hb, rfl⟩ := update_eq_some h
      obtain ⟨storage, -, hb⟩ := Option.bind_eq_some_iff.1 hb
      cases hb
      exact Or.inr ⟨.barrier, .barrier, rfl⟩
  | finishLoad content detectedEnding charset =>
      obtain ⟨b, hb, rfl⟩ := update_eq_some h
      obtain ⟨storage, -, hb⟩ := Option.bind_eq_some_iff.1 hb
      cases hb
      exact Or.inr ⟨.barrier, .barrier, rfl⟩
  | replaceContentForHugeLoad content =>
      obtain ⟨b, hb, rfl⟩ := update_eq_some h
      cases hb
      exact Or.inr ⟨.barrier, .barrier, rfl⟩
  | appendHugeLoadChunk fragment =>
      obtain ⟨b, hb, rfl⟩ := update_eq_some h
      obtain ⟨offset, length, htracking⟩ := (appendHugeLoadChunk_spec hb).tracking
      exact Or.inr ⟨_, .inserted offset length, htracking⟩
  | finishHugeLoad =>
      obtain ⟨b, hb, rfl⟩ := update_eq_some h
      cases hb
      exact Or.inr ⟨.replace 0 0 0, .inserted 0 0, rfl⟩
  | adoptReverted fresh charset =>
      obtain ⟨b, hb, rfl⟩ := update_eq_some h
      obtain ⟨adopted, hadopted, hb⟩ := Option.bind_eq_some_iff.1 hb
      have htracking := adopt_tracking hadopted
      cases hb
      exact Or.inr ⟨.barrier, .barrier, htracking⟩
  | mergeFresh fresh =>
      obtain ⟨b, hb, rfl⟩ := update_eq_some h
      obtain ⟨merged, hmerged, rfl⟩ := Option.map_eq_some_iff.1 hb
      obtain ⟨result, -, hmerged⟩ := Option.bind_eq_some_iff.1 hmerged
      obtain ⟨storage, -, hmerged⟩ := Option.bind_eq_some_iff.1 hmerged
      obtain ⟨adopted, hadopted, hmerged⟩ := Option.bind_eq_some_iff.1 hmerged
      have htracking := adopt_tracking hadopted
      cases hmerged
      exact Or.inr ⟨.barrier, .barrier, htracking⟩
  | restoreContent content =>
      obtain ⟨b, hb, rfl⟩ := update_eq_some h
      obtain ⟨storage, -, hb⟩ := Option.bind_eq_some_iff.1 hb
      obtain ⟨adopted, hadopted, hb⟩ := Option.bind_eq_some_iff.1 hb
      have htracking := adopt_tracking hadopted
      cases hb
      exact Or.inr ⟨.barrier, .barrier, htracking⟩
  | createAnchor offset policy => cases hop
  | destroyAnchor id => cases hop

theorem step_advances {op : Operation} (hop : isAnchorOperation op = false)
    (h : s.step p op = some s') : s.buffer.toTracking.Advances s'.buffer.toTracking :=
  (step_announces hop h).imp id fun ⟨c, _, hc⟩ => ⟨c, hc⟩

end Session

end Ned.Text
