import Ned.Text.Lemmas.Session
import Ned.Text.Lemmas.UnsavedRanges

/-!
# Saves

A buffer that reports itself unmodified holds what was saved, in every session whose undo steps and
load appends avoid the two states in which the changes are lost sight of.
-/

namespace Ned.Text

open Ned.Library

/-- A buffer as it is opened: over its content, or as the placeholder of a load. -/
inductive Buffer.Opened : Buffer → Prop
  | ofStorage (name : String) (storage : Storage) : Opened (.ofStorage name storage)
  | placeholder (name : String) (forceReadOnly : Bool) : Opened (.placeholder name forceReadOnly)

namespace Session

variable {p : Platform}

/-- The operations of an editing session. Only a buffer that is loading is given loaded content. -/
def Permitted (s : Session) : Operation → Prop
  | .insertAt .. => True
  | .insertAtPoint .. => True
  | .deleteRange .. => True
  | .deleteBackwardAtPoint => True
  | .deleteForwardAtPoint => True
  | .setPoint .. => True
  | .moveForward => True
  | .moveBackward => True
  | .beginUndoGroup => True
  | .endUndoGroup => True
  | .undo => True
  | .redo => True
  | .tryJumpToUndoSequence .. => True
  | .beginSave .. => True
  | .finishSave => True
  | .abandonSave => True
  | .replaceContentForHugeLoad .. => s.buffer.loading = true
  | .appendHugeLoadChunk .. => s.buffer.loading = true
  | .finishHugeLoad => True
  | _ => False

/-- A restore to the saved content that the save in flight, with no edit marked since it began, is
about to replace by something else. -/
def MissesSave (s : Session) (target : Storage) : Prop :=
  ∃ plan, s.plan = some plan ∧ s.buffer.saveInFlightRanges = [] ∧ target.bytes ≠ [] ∧
    target.bytes = s.buffer.savedSnapshot.bytes ∧ target.bytes ≠ plan.snapshot.bytes

/-- The operation neither restores past a save in flight nor appends to a buffer that was emptied. -/
def KeepsTrack (s : Session) : Operation → Prop
  | .undo => ∀ tree target, s.buffer.canUndo = some true → s.buffer.undoTree.undo = some tree →
      tree.currentState = some target → ¬ s.MissesSave target
  | .redo => ∀ tree target, s.buffer.canRedo = some true → s.buffer.undoTree.redo = some tree →
      tree.currentState = some target → ¬ s.MissesSave target
  | .tryJumpToUndoSequence sequence => ∀ tree target,
      s.buffer.undoTree.jumpTo sequence = some (tree, true) →
      tree.currentState = some target → ¬ s.MissesSave target
  | .appendHugeLoadChunk fragment =>
      ¬(s.buffer.unsavedChangeRanges = [] ∧ s.buffer.storage.bytes = [] ∧
        s.buffer.savedSnapshot.bytes ≠ [] ∧ fragment ≠ [])
  | _ => True

/-! ## The invariant -/

/-- Content that is not marked as changed is the saved content, and content that is not marked as
changed since a save began is what that save writes. -/
structure Sound (s : Session) : Prop where
  saved : s.buffer.unsavedChangeRanges = [] → s.buffer.storage.bytes ≠ [] →
    s.buffer.storage.bytes = s.buffer.savedSnapshot.bytes
  inFlight : ∀ plan, s.plan = some plan → s.buffer.saveInFlightRanges = [] →
    s.buffer.storage.bytes ≠ [] → s.buffer.storage.bytes = plan.snapshot.bytes
  saving : s.buffer.saving = s.plan.isSome
  loading : s.buffer.loading = true → s.plan = none

theorem Sound.eq_saved {s : Session} (h : Sound s) (hmod : s.buffer.modified = false) :
    s.buffer.storage.bytes = s.buffer.savedSnapshot.bytes := by
  unfold Buffer.modified at hmod
  split at hmod
  · cases hmod
  · rename_i hranges
    rw [Bool.not_eq_true', Bool.not_eq_false, List.isEmpty_iff] at hranges
    by_cases hempty : s.buffer.storage.bytes = []
    · have hsaved : s.buffer.savedSnapshot.bytes = [] := by
        simpa [Storage.byteLength, hempty] using hmod
      rw [hempty, hsaved]
    · exact h.saved hranges hempty

theorem sound_ofBuffer {b : Buffer} (h : b.Opened) : Sound (ofBuffer b) := by
  cases h with
  | ofStorage name storage =>
      refine ⟨fun _ _ => rfl, ?_, rfl, fun _ => rfl⟩
      intro plan hplan
      cases hplan
  | placeholder name forceReadOnly =>
      refine ⟨fun _ _ => rfl, ?_, rfl, fun _ => rfl⟩
      intro plan hplan
      cases hplan

section Steps

variable {s : Session} {b : Buffer}

theorem Sound.quiet (h : Sound s) (hkept : s.buffer.Kept b) (hstorage : b.storage = s.buffer.storage)
    (hchanges : b.toUnsavedChanges = s.buffer.toUnsavedChanges) :
    Sound { s with buffer := b } := by
  refine ⟨?_, ?_, ?_, ?_⟩
  · simpa only [hchanges, hstorage, hkept.savedSnapshot] using h.saved
  · simpa only [hchanges, hstorage] using h.inFlight
  · simpa only [hchanges] using h.saving
  · simpa only [hkept.loading] using h.loading

/-- Content in which something was inserted or erased is marked. -/
theorem Sound.relocated (h : Sound s) (hkept : s.buffer.Kept b) {offset oldLength newLength : Nat}
    (hpos : 0 < oldLength ∨ 0 < newLength)
    (hchanges : b.toUnsavedChanges = s.buffer.toUnsavedChanges.relocated offset oldLength newLength
      b.storage.byteLength) :
    Sound { s with buffer := b } := by
  have hmarked : b.storage.bytes ≠ [] → b.unsavedChangeRanges ≠ [] ∧
      (s.buffer.saving = true → b.saveInFlightRanges ≠ []) := by
    intro hne
    rw [hchanges]
    exact UnsavedChanges.relocated_marked hpos (List.length_pos_iff.2 hne)
  refine ⟨fun hranges hne => absurd hranges (hmarked hne).1, fun plan hplan hranges hne => ?_, ?_, ?_⟩
  · have hsaving : s.buffer.saving = true := by rw [h.saving, hplan, Option.isSome_some]
    exact absurd hranges ((hmarked hne).2 hsaving)
  · simpa only [hchanges, UnsavedChanges.relocated_saving] using h.saving
  · simpa only [hkept.loading] using h.loading

theorem Sound.inserted (h : Sound s) {canAmend : Bool}
    (hb : b = s.buffer ∨ s.buffer.Inserted canAmend b) : Sound { s with buffer := b } := by
  rcases hb with rfl | ⟨offset, text, hne, -, hedited⟩
  · exact h
  · exact h.relocated hedited.toKept (Or.inr (List.length_pos_iff.2 hne)) hedited.changes

theorem Sound.erased (h : Sound s) (hb : b = s.buffer ∨ s.buffer.Erased b) :
    Sound { s with buffer := b } := by
  rcases hb with rfl | ⟨start, stop, hstorage, hedited⟩
  · exact h
  · rcases Nat.eq_zero_or_pos (stop - start) with hzero | hpos
    · have hchanges := hedited.changes
      rw [hzero, UnsavedChanges.relocated_zero] at hchanges
      refine h.quiet hedited.toKept ?_ hchanges
      rw [hstorage, hzero]
      simp [Storage.erased, eraseAt]
    · exact h.relocated hedited.toKept (Or.inl hpos) hedited.changes

theorem Sound.restored (h : Sound s) {recording : UndoRecording}
    (hb : s.buffer.Restored s.buffer.storage recording b) (hmiss : ¬ s.MissesSave b.storage) :
    Sound { s with buffer := b } := by
  rcases hb.changes with ⟨hsaved, hranges, hinFlight, hsaving⟩ | ⟨-, ⟨hsame, hchanges⟩ |
    ⟨offset, oldLength, newLength, hpos, hchanges⟩⟩
  · refine ⟨fun _ _ => ?_, fun plan hplan hflight hne => ?_, ?_, ?_⟩
    · rw [hb.savedSnapshot]
      exact hsaved
    · -- the saved content is back while a save is in flight
      by_contra hdiff
      exact hmiss ⟨plan, hplan, hinFlight ▸ hflight, hne, hsaved, hdiff⟩
    · rw [hsaving]
      exact h.saving
    · simpa only [hb.loading] using h.loading
  · refine ⟨?_, ?_, ?_, ?_⟩
    · simpa only [hchanges, hsame, hb.savedSnapshot] using h.saved
    · simpa only [hchanges, hsame] using h.inFlight
    · simpa only [hchanges] using h.saving
    · simpa only [hb.loading] using h.loading
  · exact h.relocated hb.toKept hpos hchanges

theorem Sound.appended (h : Sound s) {fragment : Bytes} (hb : s.buffer.Appended fragment b)
    (hloading : s.buffer.loading = true)
    (hkeeps : s.KeepsTrack (.appendHugeLoadChunk fragment)) : Sound { s with buffer := b } := by
  have hplan := h.loading hloading
  refine ⟨fun hranges hne => ?_, fun plan hsome => ?_, ?_, fun _ => hplan⟩
  · have hstorage : b.storage.bytes = s.buffer.storage.bytes ++ fragment := congrArg _ hb.storage
    have hsaved : b.savedSnapshot.bytes = s.buffer.savedSnapshot.bytes ++ fragment :=
      congrArg _ hb.savedSnapshot
    rw [hb.changes] at hranges
    simp only [hstorage, hsaved] at hne ⊢
    by_cases hempty : s.buffer.storage.bytes = []
    · by_cases hsavedEmpty : s.buffer.savedSnapshot.bytes = []
      · rw [hempty, hsavedEmpty]
      · refine absurd ⟨hranges, hempty, hsavedEmpty, ?_⟩ hkeeps
        rintro rfl
        exact hne (by rw [hempty, List.append_nil])
    · rw [h.saved hranges hempty]
  · rw [hplan] at hsome
    cases hsome
  · rw [hb.changes]
    exact h.saving

end Steps

/-! ## Runs -/

theorem Sound.step {s s' : Session} {op : Operation} (h : Sound s) (hop : s.Permitted op)
    (hkeeps : s.KeepsTrack op) (hstep : s.step p op = some s') : Sound s' := by
  cases op with
  | insertAt byteOffset text =>
      rcases settle_eq_some hstep with ⟨b, hb, rfl⟩ | rfl
      · exact h.inserted (Buffer.insertAt_spec hb)
      · exact h
  | insertAtPoint text =>
      rcases settle_eq_some hstep with ⟨b, hb, rfl⟩ | rfl
      · exact h.inserted (Buffer.insertAtPoint_spec hb)
      · exact h
  | deleteRange byteOffset byteLength =>
      rcases settle_eq_some hstep with ⟨b, hb, rfl⟩ | rfl
      · obtain ⟨deleted, hb⟩ := map_fst_eq_ok hb
        exact h.erased (Buffer.deleteRange_spec hb)
      · exact h
  | deleteBackwardAtPoint =>
      rcases settle_eq_some hstep with ⟨b, hb, rfl⟩ | rfl
      · exact h.erased (Buffer.deleteBackwardAtPoint_spec hb)
      · exact h
  | deleteForwardAtPoint =>
      rcases settle_eq_some hstep with ⟨b, hb, rfl⟩ | rfl
      · exact h.erased (Buffer.deleteForwardAtPoint_spec hb)
      · exact h
  | setPoint byteOffset =>
      obtain ⟨b, hb, rfl⟩ := update_eq_some hstep
      obtain ⟨point, -, hb⟩ := Option.bind_eq_some_iff.1 hb
      cases hb
      exact h.quiet ⟨rfl, rfl⟩ rfl rfl
  | moveForward =>
      obtain ⟨b, hb, rfl⟩ := update_eq_some hstep
      obtain ⟨point, -, hb⟩ := Option.bind_eq_some_iff.1 hb
      cases hb
      exact h.quiet ⟨rfl, rfl⟩ rfl rfl
  | moveBackward =>
      obtain ⟨b, hb, rfl⟩ := update_eq_some hstep
      obtain ⟨point, -, hb⟩ := Option.bind_eq_some_iff.1 hb
      cases hb
      exact h.quiet ⟨rfl, rfl⟩ rfl rfl
  | beginUndoGroup =>
      obtain ⟨b, hb, rfl⟩ := update_eq_some hstep
      cases hb
      exact h.quiet ⟨rfl, rfl⟩ rfl rfl
  | endUndoGroup =>
      obtain ⟨b, hb, rfl⟩ := update_eq_some hstep
      obtain ⟨recording, -, hb⟩ := Option.bind_eq_some_iff.1 hb
      cases hb
      exact h.quiet ⟨rfl, rfl⟩ rfl rfl
  | undo =>
      obtain ⟨b, hb, rfl⟩ := update_eq_some hstep
      rcases Buffer.undo_spec hb with ⟨-, rfl⟩ | ⟨tree, hable, htree, hb⟩
      · exact h
      · exact h.restored hb (hkeeps tree b.storage hable htree hb.current)
  | redo =>
      obtain ⟨b, hb, rfl⟩ := update_eq_some hstep
      rcases Buffer.redo_spec hb with ⟨-, rfl⟩ | ⟨tree, hable, htree, hb⟩
      · exact h
      · exact h.restored hb (hkeeps tree b.storage hable htree hb.current)
  | tryJumpToUndoSequence sequence =>
      obtain ⟨b, hb, rfl⟩ := update_eq_some hstep
      obtain ⟨⟨b, moved⟩, hjump, rfl⟩ := Option.map_eq_some_iff.1 hb
      rcases Buffer.tryJumpToUndoSequence_spec hjump with rfl | ⟨tree, htree, hjump⟩
      · exact h
      · exact h.restored hjump (hkeeps tree b.storage htree hjump.current)
  | beginSave ensureFinalNewline trimTrailingWhitespace lineEndingOverride =>
      simp only [Session.step] at hstep
      split at hstep
      · rename_i b plan hb
        cases hstep
        obtain ⟨hloading, hsaving, hplan, hkept, hstorage, hchanges, -⟩ := Buffer.beginSave_eq_ok hb
        refine ⟨?_, fun _ hsome _ _ => ?_, ?_, fun hload => ?_⟩
        · rw [hchanges, hstorage, hkept.savedSnapshot]
          exact h.saved
        · obtain rfl := Option.some.inj hsome
          rw [hplan, hstorage]
        · rw [hchanges]
          rfl
        · rw [hkept.loading, hloading] at hload
          cases hload
      · cases hstep
        exact h
  | finishSave =>
      obtain ⟨plan, hplan, hstep⟩ := Option.bind_eq_some_iff.1 hstep
      cases hstep
      refine ⟨h.inFlight plan hplan, fun _ hsome => ?_, rfl, fun _ => rfl⟩
      cases hsome
  | abandonSave =>
      cases hstep
      refine ⟨h.saved, fun _ hsome => ?_, rfl, fun _ => rfl⟩
      cases hsome
  | replaceContentForHugeLoad content =>
      obtain ⟨b, hb, rfl⟩ := update_eq_some hstep
      cases hb
      have hplan := h.loading hop
      refine ⟨fun _ _ => rfl, fun _ hsome => ?_, h.saving, fun _ => hplan⟩
      rw [hplan] at hsome
      cases hsome
  | appendHugeLoadChunk fragment =>
      obtain ⟨b, hb, rfl⟩ := update_eq_some hstep
      exact h.appended (Buffer.appendHugeLoadChunk_spec hb) hop hkeeps
  | finishHugeLoad =>
      obtain ⟨b, hb, rfl⟩ := update_eq_some hstep
      cases hb
      refine ⟨h.saved, h.inFlight, h.saving, fun hload => ?_⟩
      cases hload
  | _ => exact hop.elim

/-- In every session whose steps all keep track of the changes, a buffer that reports itself
unmodified is byte-equal to the content last written or read. -/
theorem modified_sound {b : Buffer} (hb : b.Opened) {ops : List Operation} {s : Session}
    (hadm : Admissible (Session.step p) (fun s op => s.Permitted op ∧ s.KeepsTrack op) (ofBuffer b)
      ops)
    (hrun : run (Session.step p) (ofBuffer b) ops = some s) (hmod : s.buffer.modified = false) :
    s.buffer.storage.bytes = s.buffer.savedSnapshot.bytes := by
  have hsound : Sound s :=
    run_invariant_of_admissible Sound (fun _ _ _ h hop hstep => h.step hop.1 hop.2 hstep)
      (sound_ofBuffer hb) hadm hrun
  exact hsound.eq_saved hmod

/-- A deletion in a saved buffer, undone. -/
theorem modified_sound_sample :
    let step := Session.step { graphemeBreak := fun s _ _ => (true, s), keySort := .insertion }
    ∃ s, run step (ofBuffer (.ofStorage "sample" { bytes := [97, 98], huge := false }))
        [.deleteRange 1 1, .undo] = some s ∧ s.buffer.modified = false ∧
      s.buffer.storage.bytes = s.buffer.savedSnapshot.bytes := by
  intro step
  have hrun : (run step (ofBuffer (.ofStorage "sample" { bytes := [97, 98], huge := false }))
      [.deleteRange 1 1, .undo]).map (·.buffer.modified) = some false := by decide +kernel
  obtain ⟨s, hs, hmod⟩ := Option.map_eq_some_iff.1 hrun
  refine ⟨s, hs, hmod, modified_sound (.ofStorage "sample" _) ?_ hs hmod⟩
  refine ⟨⟨trivial, trivial⟩, fun s' hs' => ⟨⟨trivial, fun _ _ _ _ _ => ?_⟩, fun _ _ => trivial⟩⟩
  rintro ⟨plan, hplan, -⟩
  rcases settle_eq_some hs' with ⟨b, -, rfl⟩ | rfl <;> cases hplan

/-- "A" becomes "AB", a save of "AB" begins, the edit is undone, and the save finishes: the content
is "A", what was written is "AB", and nothing is marked as changed. -/
theorem not_modified_sound :
    ¬ ∀ (p : Platform) (b : Buffer) (ops : List Operation) (s : Session), b.Opened →
      Admissible (Session.step p) Permitted (ofBuffer b) ops →
      run (Session.step p) (ofBuffer b) ops = some s → s.buffer.modified = false →
      s.buffer.storage.bytes = s.buffer.savedSnapshot.bytes := by
  intro h
  let p : Platform := { graphemeBreak := fun s _ _ => (true, s), keySort := .insertion }
  let b : Buffer := .ofStorage "sample" { bytes := [65], huge := false }
  let ops : List Operation := [.insertAt 1 [66], .beginSave true true none, .undo, .finishSave]
  have hrun : (run (Session.step p) (ofBuffer b) ops).map
      (fun s => (s.buffer.modified, s.buffer.storage.bytes, s.buffer.savedSnapshot.bytes)) =
        some (false, [65], [65, 66]) := by decide +kernel
  obtain ⟨s, hs, hstate⟩ := Option.map_eq_some_iff.1 hrun
  simp only [Prod.mk.injEq] at hstate
  have heq := h p b ops s (.ofStorage _ _) ⟨trivial, fun _ _ => ⟨trivial, fun _ _ =>
    ⟨trivial, fun _ _ => ⟨trivial, fun _ _ => trivial⟩⟩⟩⟩ hs hstate.1
  rw [hstate.2.1, hstate.2.2] at heq
  cases heq

end Session

end Ned.Text
