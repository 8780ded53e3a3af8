import Ned.Text.Theorems.Storage

/-!
# The changed region

The one region in which two versions differ is exact: nothing outside it has changed, and it cannot
be made smaller at either end. An offset outside it is remapped to the offset of the same byte.
-/

namespace Ned.Text

/-- Replacing the old region by the new one makes one version of the other, and neither end of the
region can be moved inward. -/
structure ExactSplice (old new : Bytes) (span : ChangedSpan) : Prop where
  start_eq : span.oldStart = span.newStart
  old_ordered : span.oldStart ≤ span.oldEnd
  old_within : span.oldEnd ≤ old.length
  new_ordered : span.newStart ≤ span.newEnd
  new_within : span.newEnd ≤ new.length
  splice : old.take span.oldStart ++ (substr new span.newStart (span.newEnd - span.newStart) ++
    old.drop span.oldEnd) = new
  agree : ∀ i < span.oldStart, old[i]? = new[i]?
  differ : old[span.oldStart]? ≠ new[span.oldStart]?
  longest : ∀ k, k ≤ old.length - span.oldStart → k ≤ new.length - span.newStart →
    old.drop (old.length - k) = new.drop (new.length - k) → k ≤ old.length - span.oldEnd

/-- An offset outside the old region is taken to the same byte; the start of the region stays. -/
structure Remaps (old new : Bytes) (span : ChangedSpan) (remap : Nat → Nat) : Prop where
  before : ∀ offset < span.oldStart, remap offset = offset
  start : remap span.oldStart = span.oldStart
  after : ∀ offset, span.oldEnd ≤ offset → offset ≠ span.oldStart →
    new.drop (remap offset) = old.drop offset
  sameByte : ∀ offset, offset ≠ span.oldStart → ¬(span.oldStart < offset ∧ offset < span.oldEnd) →
    new[remap offset]? = old[offset]?

section

variable {old new : Storage} {span : ChangedSpan}

theorem oldStart_eq (h : changedByteRange old new = some span) :
    span.oldStart = commonPrefixLength old new := by
  obtain ⟨suffix, -, -, rfl⟩ := changedByteRange_eq_some h
  rfl

theorem take_changedByteRange (h : changedByteRange old new = some span) :
    old.bytes.take span.oldStart = new.bytes.take span.oldStart :=
  oldStart_eq h ▸ take_commonPrefixLength old new

theorem suffix_le (h : changedByteRange old new = some span) {k : Nat}
    (hold : k ≤ old.byteLength - span.oldStart) (hnew : k ≤ new.byteLength - span.newStart)
    (hdrop : old.bytes.drop (old.byteLength - k) = new.bytes.drop (new.byteLength - k)) :
    k ≤ old.byteLength - span.oldEnd := by
  have hp := commonPrefixLength_le old new
  obtain ⟨suffix, hsuffix, hle, rfl⟩ := changedByteRange_eq_some h
  simp only at hold hnew ⊢
  have hk : k ≤ commonLength old.bytes.reverse new.bytes.reverse := by
    apply le_commonLength
    · rw [List.length_reverse]
      exact Nat.le_trans hold (Nat.sub_le _ _)
    · rw [List.length_reverse]
      exact Nat.le_trans hnew (Nat.sub_le _ _)
    · exact drop_eq_iff_take_reverse_eq.1 hdrop
  have hbound : k ≤ suffix := by
    rw [hsuffix]
    exact Nat.le_min.2 ⟨by omega, hk⟩
  omega

theorem exactSplice (h : changedByteRange old new = some span) :
    ExactSplice old.bytes new.bytes span := by
  obtain ⟨hstart, hold, hnew, holdWithin, hnewWithin⟩ := changedByteRange_bounds h
  have htake := take_changedByteRange h
  refine ⟨hstart, hold, holdWithin, hnew, hnewWithin, ?_, fun i hi => ?_, ?_, fun k => ?_⟩
  · have hregion : span.newStart + (span.newEnd - span.newStart) = span.newEnd := by omega
    rw [htake, drop_changedByteRange h, ← List.append_assoc, hstart, ← take_add_substr, hregion,
      List.take_append_drop]
  · rw [← List.getElem?_take_of_lt hi, htake, List.getElem?_take_of_lt hi]
  · rw [oldStart_eq h]
    exact getElem?_commonPrefixLength_ne (bytes_ne_of_changedByteRange h)
  · exact suffix_le h

theorem remapOffset_before {offset : Nat} (h : offset ≤ span.oldStart) :
    remapOffset offset span = offset := if_pos h

theorem remapOffset_after {offset : Nat} (hstart : span.oldStart < offset)
    (hstop : span.oldEnd ≤ offset) :
    remapOffset offset span = offset - span.oldEnd + span.newEnd := by
  rw [remapOffset, if_neg (Nat.not_le.2 hstart), if_pos hstop]

theorem drop_remapOffset (h : changedByteRange old new = some span) {offset : Nat}
    (hstop : span.oldEnd ≤ offset) (hne : offset ≠ span.oldStart) :
    new.bytes.drop (remapOffset offset span) = old.bytes.drop offset := by
  have hordered := (exactSplice h).old_ordered
  have hoffset : span.oldEnd + (offset - span.oldEnd) = offset := by omega
  rw [remapOffset_after (by omega) hstop, Nat.add_comm, ← List.drop_drop,
    ← drop_changedByteRange h, List.drop_drop, hoffset]

theorem remaps (h : changedByteRange old new = some span) :
    Remaps old.bytes new.bytes span (remapOffset · span) := by
  refine ⟨fun offset hlt => remapOffset_before (Nat.le_of_lt hlt),
    remapOffset_before (Nat.le_refl _), fun offset hstop hne => drop_remapOffset h hstop hne,
    fun offset hne houtside => ?_⟩
  rcases Nat.lt_or_gt_of_ne hne with hlt | hgt
  · rw [remapOffset_before (Nat.le_of_lt hlt)]
    exact ((exactSplice h).agree offset hlt).symm
  · have hstop : span.oldEnd ≤ offset := Nat.le_of_not_lt fun hlt => houtside ⟨hgt, hlt⟩
    have hhead := congrArg List.head? (drop_remapOffset h hstop hne)
    rw [List.head?_drop, List.head?_drop] at hhead
    exact hhead

end

/-- There is no changed region exactly where the versions are equal, and else it is the smallest and
is remapped through exactly; and the block reads find what a scan byte by byte does. -/
theorem changedByteRange_exact (old new : Storage) :
    (changedByteRange old new = none ↔ old.bytes = new.bytes) ∧
    (∀ span, changedByteRange old new = some span →
      ExactSplice old.bytes new.bytes span ∧
        Remaps old.bytes new.bytes span (remapOffsetBetween · old new)) ∧
    (changedByteRange old new = none → ∀ offset, remapOffsetBetween offset old new = offset) ∧
    commonPrefixLength old new = commonLength old.bytes new.bytes ∧
    ∀ maxLen, maxLen ≤ old.byteLength → maxLen ≤ new.byteLength →
      commonSuffixLength old new maxLen =
        min maxLen (commonLength old.bytes.reverse new.bytes.reverse) := by
  refine ⟨changedByteRange_eq_none_iff old new, fun span h => ⟨exactSplice h, ?_⟩, fun h offset => ?_,
    commonPrefixLength_eq_commonLength old new,
    fun maxLen hold hnew => commonSuffixLength_eq_commonLength hold hnew⟩
  · simp only [remapOffsetBetween, h]
    exact remaps h
  · simp only [remapOffsetBetween, h]

/-- "a" becomes "b": offset 0 stays, and the byte there is another one. -/
theorem not_remaps_start :
    ¬ ∀ (old new : Storage) (span : ChangedSpan) (offset : Nat),
      changedByteRange old new = some span →
      ¬(span.oldStart < offset ∧ offset < span.oldEnd) →
      new.bytes[remapOffsetBetween offset old new]? = old.bytes[offset]? := by
  intro h
  have hsame := h { bytes := [97], huge := false } { bytes := [98], huge := false }
    { oldStart := 0, oldEnd := 1, newStart := 0, newEnd := 1 } 0 (by decide +kernel) (by decide)
  have hremap : remapOffsetBetween 0 { bytes := [97], huge := false }
      { bytes := [98], huge := false } = 0 := by decide +kernel
  rw [hremap] at hsame
  cases hsame

end Ned.Text
