import Ned.Library.Ranges
import Ned.Text.Lemmas.Buffer

/-!
# Unsaved changes

A marking leaves a range behind wherever the content still has a byte to mark.
-/

namespace Ned.Text

theorem absorb_ne_nil (start stop : Nat) (ranges : List ByteRange) : absorb start stop ranges ≠ [] := by
  induction ranges generalizing start stop with
  | nil => exact List.cons_ne_nil _ _
  | cons range ranges ih =>
      unfold absorb
      split
      · exact ih _ _
      · exact List.cons_ne_nil _ _

theorem mergeUnsavedRange_ne_nil (start stop : Nat) (ranges : List ByteRange) :
    mergeUnsavedRange start stop ranges ≠ [] := by
  cases ranges with
  | nil => exact absorb_ne_nil _ _ _
  | cons range ranges =>
      unfold mergeUnsavedRange
      split
      · exact List.cons_ne_nil _ _
      · exact absorb_ne_nil _ _ _

theorem markRangeInserted_ne_nil (ranges : List ByteRange) (offset length : Nat) :
    markRangeInserted ranges offset length ≠ [] := mergeUnsavedRange_ne_nil _ _ _

theorem deletionMark_nonempty {start contentLength : Nat} (h : 0 < contentLength) :
    (deletionMark start contentLength).1 < (deletionMark start contentLength).2 := by
  simp only [deletionMark]
  split
  · rename_i hmark
    exact Nat.sub_lt hmark.2 Nat.one_pos
  · rename_i hmark
    simp only
    omega

theorem markRangeDeleted_ne_nil (ranges : List ByteRange) (start stop : Nat) {contentLength : Nat}
    (h : 0 < contentLength) :
    markRangeDeleted ranges start stop (deletionMark start contentLength) ≠ [] := by
  simp only [markRangeDeleted]
  rw [if_pos (deletionMark_nonempty h)]
  exact mergeUnsavedRange_ne_nil _ _ _

namespace UnsavedChanges

variable {changes : UnsavedChanges}

@[simp] theorem relocated_saving (changes : UnsavedChanges)
    (offset oldLength newLength contentLength : Nat) :
    (changes.relocated offset oldLength newLength contentLength).saving = changes.saving := by
  simp only [relocated]
  split <;> split <;> rfl

def Marked (changes changes' : UnsavedChanges) : Prop :=
  changes'.unsavedChangeRanges ≠ [] ∧ (changes.saving = true → changes'.saveInFlightRanges ≠ [])

theorem mark_marked {update : List ByteRange → List ByteRange} (h : ∀ ranges, update ranges ≠ []) :
    Marked changes (changes.mark update) := by
  refine ⟨h _, fun hsaving => ?_⟩
  rw [mark, hsaving, if_pos rfl]
  exact h _

theorem relocated_marked {offset oldLength newLength contentLength : Nat}
    (h : 0 < oldLength ∨ 0 < newLength) (hlen : 0 < contentLength) :
    Marked changes (changes.relocated offset oldLength newLength contentLength) := by
  have hdelete : ∀ stop,
      Marked changes (changes.markUnsavedRangeDeleted offset stop contentLength) :=
    fun stop => mark_marked fun ranges => markRangeDeleted_ne_nil ranges offset stop hlen
  simp only [relocated]
  by_cases hnew : newLength > 0
  · rw [if_pos hnew]
    have hinsert : ∀ changes : UnsavedChanges,
        Marked changes (changes.markUnsavedRangeInserted offset newLength) :=
      fun changes => mark_marked fun ranges => markRangeInserted_ne_nil ranges offset newLength
    split
    · exact hinsert (changes.markUnsavedRangeDeleted offset (offset + oldLength) contentLength)
    · exact hinsert _
  · rw [if_neg hnew, if_pos (h.resolve_right hnew)]
    exact hdelete _

theorem relocated_zero (offset contentLength : Nat) :
    changes.relocated offset 0 0 contentLength = changes := by
  simp [relocated]

end UnsavedChanges

/-!
## Unsaved ranges stay apart

Merging and relocating keep the ranges sorted, disjoint, nonempty and inside the content, unless an
edit replaces the end of the content by something else.
-/

open Ned.Library

variable {size start stop lo : Nat} {ranges : List ByteRange}

/-! ## Merging -/

theorem absorb_low (hstart : lo ≤ start) (hlo : ∀ r ∈ ranges, lo ≤ r.1) :
    ∀ r ∈ absorb start stop ranges, lo ≤ r.1 := by
  induction ranges generalizing start stop with
  | nil =>
      intro r hr
      obtain rfl := List.mem_singleton.1 hr
      exact hstart
  | cons range ranges ih =>
      have hrest := fun r hr => hlo r (List.mem_cons_of_mem _ hr)
      unfold absorb
      split
      · exact ih (Nat.le_min.2 ⟨hstart, hlo range (List.mem_cons_self ..)⟩) hrest
      · intro r hr
        rcases List.mem_cons.1 hr with rfl | hr
        · exact hstart
        · exact hlo r hr

theorem absorb_intervals (h : Intervals size ranges) (hlt : start < stop) (hle : stop ≤ size) :
    Intervals size (absorb start stop ranges) := by
  induction ranges generalizing start stop with
  | nil =>
      apply Intervals.nil.cons hlt hle
      intro r hr
      cases hr
  | cons range ranges ih =>
      unfold absorb
      split
      · apply ih h.tail
        · exact Nat.lt_of_le_of_lt (Nat.min_le_left _ _) (Nat.lt_of_lt_of_le hlt (Nat.le_max_left _ _))
        · exact Nat.max_le.2 ⟨hle, h.head_within⟩
      · rename_i hafter
        have hbefore := Nat.le_of_not_le hafter
        apply h.cons hlt hle
        intro r hr
        rcases List.mem_cons.1 hr with rfl | hr
        · exact hbefore
        · have hrange := Nat.le_trans (Nat.le_of_lt h.head_nonempty) (h.head_le r hr)
          exact Nat.le_trans hbefore hrange

theorem mergeUnsavedRange_low (hstart : lo ≤ start) (hlo : ∀ r ∈ ranges, lo ≤ r.1) :
    ∀ r ∈ mergeUnsavedRange start stop ranges, lo ≤ r.1 := by
  induction ranges with
  | nil => exact absorb_low hstart hlo
  | cons range ranges ih =>
      unfold mergeUnsavedRange
      split
      · intro r hr
        rcases List.mem_cons.1 hr with rfl | hr
        · exact hlo r (List.mem_cons_self ..)
        · exact ih (fun a ha => hlo a (List.mem_cons_of_mem _ ha)) r hr
      · exact absorb_low hstart hlo

theorem mergeUnsavedRange_intervals (h : Intervals size ranges) (hlt : start < stop)
    (hle : stop ≤ size) : Intervals size (mergeUnsavedRange start stop ranges) := by
  induction ranges with
  | nil => exact absorb_intervals h hlt hle
  | cons range ranges ih =>
      unfold mergeUnsavedRange
      split
      · rename_i hbefore
        exact (ih h.tail).cons h.head_nonempty h.head_within
          (mergeUnsavedRange_low (Nat.le_of_lt hbefore) h.head_le)
      · exact absorb_intervals h hlt hle

/-! ## What a merge covers -/

def Reaches (offset : Nat) (ranges : List ByteRange) : Prop := ∃ r ∈ ranges, offset ≤ r.2

/-! ## Markings -/

theorem relocateForInsert_strictMono (insertOffset length : Nat) :
    StrictMono (relocateForInsert · insertOffset length) := by
  intro a b hab
  simp only [relocateForInsert]
  split <;> split <;> omega

theorem relocateForInsert_le {offset : Nat} (h : offset ≤ size) (insertOffset length : Nat) :
    relocateForInsert offset insertOffset length ≤ size + length := by
  simp only [relocateForInsert]
  split <;> omega

theorem relocateForDelete_monotone (rangeStart rangeEnd : Nat) :
    Monotone (relocateForDelete · rangeStart rangeEnd) := by
  intro a b hab
  simp only [relocateForDelete]
  split <;> split <;> (try split) <;> (try split) <;> omega

theorem relocateForDelete_le {offset rangeStart rangeEnd : Nat} (h : offset ≤ size)
    (hstop : rangeEnd ≤ size) (hle : rangeStart ≤ rangeEnd) :
    relocateForDelete offset rangeStart rangeEnd ≤ size - (rangeEnd - rangeStart) := by
  simp only [relocateForDelete]
  split
  · omega
  · split <;> omega

theorem markRangeInserted_intervals {insertOffset length : Nat} (h : Intervals size ranges)
    (hle : insertOffset ≤ size) (hpos : 0 < length) :
    Intervals (size + length) (markRangeInserted ranges insertOffset length) := by
  apply mergeUnsavedRange_intervals
  · exact h.map (relocateForInsert_strictMono insertOffset length)
      fun r hr => relocateForInsert_le (h.within r hr) insertOffset length
  · exact Nat.lt_add_of_pos_right hpos
  · exact Nat.add_le_add_right hle length

theorem markRangeDeleted_intervals {rangeStart rangeEnd : Nat} {mark : ByteRange}
    (h : Intervals size ranges) (hle : rangeStart ≤ rangeEnd) (hstop : rangeEnd ≤ size)
    (hmark : mark.1 < mark.2 → mark.2 ≤ size - (rangeEnd - rangeStart)) :
    Intervals (size - (rangeEnd - rangeStart)) (markRangeDeleted ranges rangeStart rangeEnd mark) := by
  have hleft := h.map_filter (relocateForDelete_monotone rangeStart rangeEnd)
    fun r hr => relocateForDelete_le (h.within r hr) hstop hle
  simp only [markRangeDeleted]
  split
  · rename_i hlt
    exact mergeUnsavedRange_intervals hleft hlt (hmark hlt)
  · exact hleft

theorem deletionMark_le {offset contentLength mid : Nat} (hoffset : offset ≤ mid)
    (h : offset < mid ∨ contentLength = mid)
    (hlt : (deletionMark offset contentLength).1 < (deletionMark offset contentLength).2) :
    (deletionMark offset contentLength).2 ≤ mid := by
  simp only [deletionMark] at hlt ⊢
  split
  · exact hoffset
  · rename_i hmark
    rw [if_neg hmark] at hlt
    simp only at hlt ⊢
    omega

/-! ## Both sets -/

namespace UnsavedChanges

variable {changes : UnsavedChanges}

/-- Both sets are in order and inside content of this size. -/
structure Fits (size : Nat) (changes : UnsavedChanges) : Prop where
  unsaved : Intervals size changes.unsavedChangeRanges
  inFlight : Intervals size changes.saveInFlightRanges
  idle : changes.saving = false → changes.saveInFlightRanges = []

theorem Fits.mark {size' : Nat} {update : List ByteRange → List ByteRange} (h : Fits size changes)
    (hupdate : ∀ ranges, Intervals size ranges → Intervals size' (update ranges)) :
    Fits size' (changes.mark update) := by
  refine ⟨hupdate _ h.unsaved, ?_, ?_⟩
  · simp only [UnsavedChanges.mark]
    split
    · exact hupdate _ h.inFlight
    · rename_i hsaving
      rw [h.idle (Bool.eq_false_iff.2 hsaving)]
      exact .nil
  · intro hsaving
    have hsaving : changes.saving = false := hsaving
    simp only [UnsavedChanges.mark, hsaving]
    exact h.idle hsaving

/-- The edit replaces the end of the content, so that its delete half leaves no byte to mark. -/
def ReplacesEnd (size offset oldLength newLength : Nat) : Prop :=
  0 < oldLength ∧ 0 < newLength ∧ offset + oldLength = size

theorem Fits.relocated {offset oldLength newLength contentLength : Nat} (h : Fits size changes)
    (hle : offset + oldLength ≤ size) (hlen : contentLength + oldLength = size + newLength)
    (hend : ¬ ReplacesEnd size offset oldLength newLength) :
    Fits contentLength (changes.relocated offset oldLength newLength contentLength) := by
  -- the delete half leaves content of the size without the old bytes
  have hdeleted : Fits (size - oldLength)
      (if oldLength > 0 then
        changes.markUnsavedRangeDeleted offset (offset + oldLength) contentLength
      else changes) := by
    split
    · rename_i hold
      apply h.mark
      intro ranges hranges
      have hmid : offset < size - oldLength ∨ contentLength = size - oldLength := by
        by_contra hboth
        rw [not_or] at hboth
        exact hend ⟨hold, by omega, by omega⟩
      have hmark := deletionMark_le (by omega : offset ≤ size - oldLength) hmid
      have hkept := markRangeDeleted_intervals hranges (Nat.le_add_right offset oldLength) hle
        (by rw [Nat.add_sub_cancel_left]; exact hmark)
      rw [Nat.add_sub_cancel_left] at hkept
      exact hkept
    · rename_i hold
      rw [Nat.eq_zero_of_not_pos hold]
      exact h
  simp only [UnsavedChanges.relocated]
  split
  · rename_i hnew
    have hsize : contentLength = size - oldLength + newLength := by omega
    rw [hsize] at hdeleted ⊢
    exact hdeleted.mark fun ranges hranges =>
      markRangeInserted_intervals hranges (by omega) hnew
  · have hsize : contentLength = size - oldLength := by omega
    rw [hsize] at hdeleted ⊢
    exact hdeleted

end UnsavedChanges

/-! ## Restores -/

namespace UnsavedChanges

variable {changes : UnsavedChanges} {oldStorage storage saved : Storage}

def restored (changes : UnsavedChanges) (oldStorage storage saved : Storage) : UnsavedChanges :=
  if storageContentEquals storage saved then
    if changes.unsavedChangeRanges.isEmpty then changes else changes.clear
  else
    match changedByteRange oldStorage storage with
    | none => changes
    | some span =>
        changes.relocated span.oldStart (span.oldEnd - span.oldStart) (span.newEnd - span.newStart)
          storage.byteLength

/-- The saved content comes back while a save in flight marks bytes past its end, or other content
comes back and has another end. -/
def Spills (changes : UnsavedChanges) (oldStorage storage saved : Storage) : Prop :=
  (storage.bytes = saved.bytes ∧ Reaches (storage.byteLength + 1) changes.saveInFlightRanges) ∨
    storage.bytes ≠ saved.bytes ∧ EndsApart oldStorage.bytes storage.bytes

theorem changedByteRange_length {span : ChangedSpan}
    (h : changedByteRange oldStorage storage = some span) :
    span.oldStart + (span.oldEnd - span.oldStart) ≤ oldStorage.byteLength ∧
      storage.byteLength + (span.oldEnd - span.oldStart) =
        oldStorage.byteLength + (span.newEnd - span.newStart) := by
  obtain ⟨suffix, -, hle, rfl⟩ := changedByteRange_eq_some h
  have hp := commonPrefixLength_le oldStorage storage
  simp only
  omega

theorem replacesEnd_iff {span : ChangedSpan} (h : changedByteRange oldStorage storage = some span) :
    ReplacesEnd oldStorage.byteLength span.oldStart (span.oldEnd - span.oldStart)
        (span.newEnd - span.newStart) ↔ EndsApart oldStorage.bytes storage.bytes := by
  obtain ⟨-, hold, -, -, -⟩ := changedByteRange_bounds h
  rw [← changedByteRange_replacesEnd_iff h, ReplacesEnd, Nat.sub_pos_iff_lt, Nat.sub_pos_iff_lt,
    Nat.add_sub_cancel' hold]

theorem Fits.restored (h : Fits oldStorage.byteLength changes)
    (hspills : ¬ Spills changes oldStorage storage saved) :
    Fits storage.byteLength (changes.restored oldStorage storage saved) := by
  rw [Spills, not_or] at hspills
  obtain ⟨hflight, hends⟩ := hspills
  simp only [UnsavedChanges.restored]
  split
  · rename_i hsaved
    have hinFlight : Intervals storage.byteLength changes.saveInFlightRanges := by
      apply h.inFlight.mono
      intro r hr
      by_contra hpast
      exact hflight ⟨(storageContentEquals_iff _ _).1 hsaved, r, hr, Nat.lt_of_not_le hpast⟩
    split
    · rename_i hempty
      rw [List.isEmpty_iff] at hempty
      exact ⟨hempty ▸ .nil, hinFlight, h.idle⟩
    · exact ⟨.nil, hinFlight, h.idle⟩
  · rename_i hsaved
    rw [storageContentEquals_iff] at hsaved
    cases hspan : changedByteRange oldStorage storage with
    | none =>
        have hsame := (changedByteRange_eq_none_iff _ _).1 hspan
        have hlen : storage.byteLength = oldStorage.byteLength := congrArg List.length hsame.symm
        exact hlen ▸ h
    | some span =>
        obtain ⟨hwithin, hlength⟩ := changedByteRange_length hspan
        apply h.relocated hwithin hlength
        intro hend
        exact hends ⟨hsaved, (replacesEnd_iff hspan).1 hend⟩

end UnsavedChanges

end Ned.Text
