import Ned.Text.Lemmas.Edits
import Ned.Text.Theorems.Saves

/-!
# Unsaved ranges

Both sets of ranges are in order and inside the content, in every session whose undo steps bring back
no content whose end the ranges are carried past.
-/

namespace Ned.Text

open Ned.Library

/-- Strictly sorted, pairwise disjoint, without empty ranges, and inside content of this size. -/
structure WellFormedRanges (size : Nat) (ranges : List ByteRange) : Prop
    extends Intervals size ranges where
  sorted : ranges.Pairwise fun a b => a.1 < b.1

namespace Session

variable {p : Platform}

/-- No content that the operation brings back spills. -/
def StaysInside (s : Session) (op : Operation) : Prop :=
  ∀ tree target, s.MovesTo op tree → tree.currentState = some target →
    ¬ s.buffer.toUnsavedChanges.Spills s.buffer.storage target s.buffer.savedSnapshot

/-! ## The invariant -/

structure InOrder (s : Session) : Prop where
  fits : s.buffer.toUnsavedChanges.Fits s.buffer.storage.byteLength
  point : s.buffer.point ≤ s.buffer.storage.byteLength

theorem InOrder.wellFormedRanges {s : Session} (h : InOrder s) :
    WellFormedRanges s.buffer.storage.byteLength s.buffer.unsavedChangeRanges ∧
      WellFormedRanges s.buffer.storage.byteLength s.buffer.saveInFlightRanges :=
  ⟨⟨h.fits.unsaved, h.fits.unsaved.sorted⟩, ⟨h.fits.inFlight, h.fits.inFlight.sorted⟩⟩

theorem inOrder_ofBuffer {b : Buffer} (h : b.Opened) : InOrder (ofBuffer b) := by
  cases h with
  | ofStorage name storage => exact ⟨⟨.nil, .nil, fun _ => rfl⟩, Nat.zero_le _⟩
  | placeholder name forceReadOnly => exact ⟨⟨.nil, .nil, fun _ => rfl⟩, Nat.zero_le _⟩

section Steps

variable {s s' : Session} {b : Buffer}

theorem InOrder.edited (h : InOrder s) {canAmend : Bool} {offset oldLength newLength : Nat}
    {ranges : List ExcerptRange} (honeSided : oldLength = 0 ∨ newLength = 0)
    (hb : s.buffer.EditedWithin canAmend b offset oldLength newLength ranges) :
    InOrder { s with buffer := b } := by
  refine ⟨?_, hb.point⟩
  simp only [hb.changes]
  apply h.fits.relocated hb.within hb.length
  rintro ⟨hold, hnew, -⟩
  exact honeSided.elim hold.ne' hnew.ne'

/-! ## Restores -/

theorem InOrder.restored (h : InOrder s) (hb : s.buffer.RestoredWithin s.buffer.storage b)
    (hspills : ¬ s.buffer.toUnsavedChanges.Spills s.buffer.storage b.storage
      s.buffer.savedSnapshot) : InOrder { s with buffer := b } := by
  refine ⟨?_, hb.point⟩
  simp only [hb.changes]
  exact h.fits.restored hspills

end Steps

/-! ## Runs -/

theorem InOrder.step {s s' : Session} {op : Operation} (h : InOrder s) (hop : Edits op)
    (hinside : s.StaysInside op) (hstep : s.step p op = some s') : InOrder s' := by
  have hedit := editStep hop h.point hstep
  have hpoint := hedit.point h.point
  cases hedit with
  | idle => exact h
  | wrote hb =>
      cases hb with
      | unmoved hb =>
          refine ⟨?_, hpoint⟩
          simpa only [hb.storage, hb.changes] using h.fits
      | inserted _ _ hb => exact h.edited (Or.inl rfl) hb
      | erased _ _ hb => exact h.edited (Or.inr rfl) hb
  | moved hb =>
      refine ⟨?_, hpoint⟩
      simpa only [hb.storage, hb.changes] using h.fits
  | marked hb =>
      obtain ⟨recording, -, hb⟩ := Option.bind_eq_some_iff.1 hb
      cases hb
      exact ⟨h.fits, hpoint⟩
  | begunGroup => exact ⟨h.fits, hpoint⟩
  | endedGroup hb =>
      obtain ⟨recording, -, hb⟩ := Option.bind_eq_some_iff.1 hb
      cases hb
      exact ⟨h.fits, hpoint⟩
  | navigated hmoves hb =>
      exact h.restored (Buffer.navigate_within hb)
        (hinside _ _ hmoves (Buffer.navigate_spec hb).current)
  | saved hchanges hb =>
      refine ⟨?_, hpoint⟩
      simp only [hb.storage, hb.changes]
      rcases hchanges with rfl | rfl | rfl
      · exact ⟨h.fits.unsaved, .nil, fun hidle => by cases hidle⟩
      · exact ⟨h.fits.inFlight, .nil, fun _ => rfl⟩
      · exact ⟨h.fits.unsaved, .nil, fun _ => rfl⟩

/-- In every session of edits and saves whose restores do not spill, both sets of ranges stay
strictly sorted, disjoint, nonempty and inside the content. -/
theorem ranges_wellFormed {b : Buffer} (hb : b.Opened) {ops : List Operation} {s : Session}
    (hadm : Admissible (Session.step p) (fun s op => Edits op ∧ s.StaysInside op) (ofBuffer b) ops)
    (hrun : run (Session.step p) (ofBuffer b) ops = some s) :
    WellFormedRanges s.buffer.storage.byteLength s.buffer.unsavedChangeRanges ∧
      WellFormedRanges s.buffer.storage.byteLength s.buffer.saveInFlightRanges := by
  have horder : InOrder s :=
    run_invariant_of_admissible InOrder (fun _ _ _ h hop hstep => h.step hop.1 hop.2 hstep)
      (inOrder_ofBuffer hb) hadm hrun
  exact horder.wellFormedRanges

/-- A deletion at the end of a saved buffer, undone. -/
theorem ranges_wellFormed_sample :
    let step := Session.step { graphemeBreak := fun s _ _ => (true, s), keySort := .insertion }
    ∃ s, run step (ofBuffer (.ofStorage "sample" { bytes := [97, 98], huge := false }))
        [.deleteRange 1 1, .undo] = some s ∧
      WellFormedRanges s.buffer.storage.byteLength s.buffer.unsavedChangeRanges ∧
      WellFormedRanges s.buffer.storage.byteLength s.buffer.saveInFlightRanges := by
  intro step
  have hrun : (run step (ofBuffer (.ofStorage "sample" { bytes := [97, 98], huge := false }))
      [.deleteRange 1 1, .undo]).isSome = true := by decide +kernel
  obtain ⟨s, hs⟩ := Option.isSome_iff_exists.1 hrun
  refine ⟨s, hs, ranges_wellFormed (.ofStorage "sample" _) ?_ hs⟩
  refine ⟨⟨trivial, fun tree target hmoves => by cases hmoves⟩, fun s' hs' => ⟨⟨trivial, ?_⟩,
    fun _ _ => trivial⟩⟩
  have hdeleted : (step (ofBuffer (.ofStorage "sample" { bytes := [97, 98], huge := false }))
      (.deleteRange 1 1)).map (fun s => (s.buffer.undoTree.undo.bind (·.currentState),
        s.buffer.storage.bytes, s.buffer.saveInFlightRanges)) =
        some (some { bytes := [97, 98], huge := false }, [97], []) := by decide +kernel
  simp only [step, hs', Option.map_some, Option.some.injEq] at hdeleted
  obtain ⟨hundo, hrest⟩ := Prod.mk.inj hdeleted
  obtain ⟨hstorage, hinFlight⟩ := Prod.mk.inj hrest
  rintro tree target ⟨-, htree⟩ htarget
  rw [htree, Option.bind_some, htarget] at hundo
  cases hundo
  rintro (⟨-, r, hr, -⟩ | ⟨-, hbegins, -⟩)
  · rw [hinFlight] at hr
    cases hr
  · rw [hstorage] at hbegins
    exact hbegins (List.prefix_append [97] [98])

/-- "A" becomes "AB" and, in one group, "AC". Undoing the group marks both bytes and one past them. -/
theorem not_ranges_wellFormed :
    ¬ ∀ (p : Platform) (b : Buffer) (ops : List Operation) (s : Session), b.Opened →
      (∀ op ∈ ops, Edits op) → run (Session.step p) (ofBuffer b) ops = some s →
      WellFormedRanges s.buffer.storage.byteLength s.buffer.unsavedChangeRanges ∧
        WellFormedRanges s.buffer.storage.byteLength s.buffer.saveInFlightRanges := by
  intro h
  let p : Platform := { graphemeBreak := fun s _ _ => (true, s), keySort := .insertion }
  let b : Buffer := .ofStorage "sample" { bytes := [65], huge := false }
  let ops : List Operation := [.insertAt 1 [66], .beginUndoGroup, .deleteRange 1 1, .insertAt 1 [67],
    .endUndoGroup, .undo]
  have hrun : (run (Session.step p) (ofBuffer b) ops).map
      (fun s => (s.buffer.storage.bytes, s.buffer.unsavedChangeRanges)) =
        some ([65, 66], [(0, 3)]) := by decide +kernel
  obtain ⟨s, hs, hstate⟩ := Option.map_eq_some_iff.1 hrun
  obtain ⟨hstorage, hranges⟩ := Prod.mk.inj hstate
  have hops : ∀ op ∈ ops, Edits op := by simp [ops, Edits]
  obtain ⟨hunsaved, -⟩ := h p b ops s (.ofStorage _ _) hops hs
  rw [hranges, Storage.byteLength, hstorage] at hunsaved
  have hpast := hunsaved.within (0, 3) (List.mem_cons_self ..)
  exact absurd hpast (by decide)

end Session

end Ned.Text
