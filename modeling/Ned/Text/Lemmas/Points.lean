import Ned.Text.Lemmas.Navigation
import Ned.Text.Lemmas.UnsavedRanges
import Ned.Text.Positions

/-!
# Lemmas on cursors

What normalizing the secondary cursors keeps.
-/

namespace Ned.Text

open Ned.Library

theorem uniqueFrom_sublist (kept : Cursor) (cursors : List Cursor) :
    (uniqueFrom kept cursors).Sublist (kept :: cursors) := by
  induction cursors generalizing kept with
  | nil => exact List.Sublist.refl _
  | cons cursor cursors ih =>
      simp only [uniqueFrom]
      split
      · exact (ih kept).trans (List.Sublist.cons_cons kept (List.sublist_cons_self cursor cursors))
      · exact (ih cursor).cons_cons kept

theorem uniqueByPoint_sublist (cursors : List Cursor) :
    (uniqueByPoint cursors).Sublist cursors := by
  cases cursors with
  | nil => exact List.Sublist.refl _
  | cons cursor cursors => exact uniqueFrom_sublist cursor cursors

theorem uniqueFrom_of_increasing {kept : Cursor} {cursors : List Cursor}
    (h : (kept :: cursors).Pairwise fun x y => x.point < y.point) :
    uniqueFrom kept cursors = kept :: cursors := by
  induction cursors generalizing kept with
  | nil => rfl
  | cons cursor cursors ih =>
      obtain ⟨hkept, hrest⟩ := List.pairwise_cons.1 h
      have hne : kept.point ≠ cursor.point := Nat.ne_of_lt (hkept cursor List.mem_cons_self)
      simp only [uniqueFrom, if_neg hne, ih hrest]

theorem uniqueByPoint_of_increasing {cursors : List Cursor}
    (h : cursors.Pairwise fun x y => x.point < y.point) : uniqueByPoint cursors = cursors := by
  cases cursors with
  | nil => rfl
  | cons cursor cursors => exact uniqueFrom_of_increasing h

namespace TrackedPositions

variable {s : KeySort} {positions : TrackedPositions}

theorem mem_of_mem_normalize {c : Cursor}
    (h : c ∈ (positions.normalizeSecondaryCursors s).secondaryCursors) :
    c ∈ positions.secondaryCursors :=
  (s.mem_sort Cursor.point).1 ((uniqueByPoint_sublist _).subset (List.mem_filter.1 h).1)

variable (s positions) in
theorem normalize_of_distinct (hnodup : (positions.secondaryCursors.map Cursor.point).Nodup)
    (hpoint : positions.point ∉ positions.secondaryCursors.map Cursor.point) :
    (positions.normalizeSecondaryCursors s).secondaryCursors =
        s.sort Cursor.point positions.secondaryCursors ∧
      (s.sort Cursor.point positions.secondaryCursors).Pairwise fun x y => x.point < y.point := by
  have hperm := s.perm Cursor.point positions.secondaryCursors
  have hne : (s.sort Cursor.point positions.secondaryCursors).Pairwise
      fun x y => x.point ≠ y.point :=
    List.pairwise_map.1 ((hperm.map Cursor.point).nodup_iff.2 hnodup)
  have hlt := ((s.sorted Cursor.point positions.secondaryCursors).and hne).imp
    fun h => Nat.lt_of_le_of_ne h.1 h.2
  refine ⟨?_, hlt⟩
  simp only [normalizeSecondaryCursors, uniqueByPoint_of_increasing hlt]
  rw [List.filter_eq_self]
  intro cursor hcursor
  have hmem := (s.mem_sort Cursor.point).1 hcursor
  rw [bne_iff_ne]
  exact fun heq => hpoint (heq ▸ List.mem_map_of_mem hmem)

end TrackedPositions

end Ned.Text

/-!
## The point stays inside the content

Every grapheme boundary that is found lies inside the text, and every edit carries the point along
with the bytes around it.
-/

namespace Ned.Text

open Ned.Library

/-! ## Boundaries -/

section Boundaries

variable {breakStateful : GraphemeBreak} {rope : Storage} {o r : Nat}

theorem backNCodepoints_le {n : Nat} (ho : o ≤ rope.byteLength)
    (h : backNCodepoints rope n o = some r) : r ≤ o := by
  obtain ⟨r', hr', hle⟩ := backNCodepoints_total rope n ho
  obtain rfl := Option.some.inj (h.symm.trans hr')
  exact hle

theorem nextBreak_le {total fuel : Nat} {state : Int} {cp1 : UInt32}
    (h : nextBreak breakStateful rope total fuel state cp1 o = some r) : r ≤ total := by
  induction fuel generalizing state cp1 o with
  | zero => cases h
  | succ fuel ih =>
      unfold nextBreak at h
      split at h
      · rename_i hlt
        obtain ⟨next, -, h⟩ := Option.bind_eq_some_iff.1 h
        split at h
        split at h
        · cases h
          exact Nat.le_of_lt hlt
        · exact ih h
      · cases h
        exact Nat.le_refl _

theorem nextGraphemeBoundary_le (h : nextGraphemeBoundary breakStateful rope o = some r) :
    r ≤ rope.byteLength := by
  simp only [nextGraphemeBoundary] at h
  split at h
  · cases h
    exact Nat.le_refl _
  · obtain ⟨first, -, h⟩ := Option.bind_eq_some_iff.1 h
    exact nextBreak_le h

theorem le_nextBreak {low total fuel : Nat} {state : Int} {cp1 : UInt32} (ho : low ≤ o)
    (htotal : low ≤ total) (h : nextBreak breakStateful rope total fuel state cp1 o = some r) :
    low ≤ r := by
  induction fuel generalizing state cp1 o with
  | zero => cases h
  | succ fuel ih =>
      unfold nextBreak at h
      split at h
      · obtain ⟨next, -, h⟩ := Option.bind_eq_some_iff.1 h
        split at h
        split at h
        · cases h
          exact ho
        · exact ih (Nat.le_add_right_of_le ho) h
      · cases h
        exact htotal

theorem le_nextGraphemeBoundary (ho : o ≤ rope.byteLength)
    (h : nextGraphemeBoundary breakStateful rope o = some r) : o ≤ r := by
  simp only [nextGraphemeBoundary] at h
  split at h
  · cases h
    exact ho
  · obtain ⟨first, -, h⟩ := Option.bind_eq_some_iff.1 h
    exact le_nextBreak (Nat.le_add_right _ _) ho h

theorem lastBreakBefore_lt {stop fuel offset : Nat} {state : Int} {cp1 : UInt32}
    {last found : Nat × Bool} (hlast : last.1 < stop)
    (h : lastBreakBefore breakStateful rope stop fuel state cp1 offset last = some found) :
    found.1 < stop := by
  induction fuel generalizing state cp1 offset last with
  | zero => cases h
  | succ fuel ih =>
      unfold lastBreakBefore at h
      split at h
      · rename_i hlt
        obtain ⟨next, -, h⟩ := Option.bind_eq_some_iff.1 h
        refine ih ?_ h
        split
        · exact hlt
        · exact hlast
      · cases h
        exact hlast

theorem scanBreaks_lt {scanStart stop : Nat} {found : Nat × Bool} (hstart : scanStart < stop)
    (h : scanBreaks breakStateful rope scanStart stop = some found) : found.1 < stop := by
  obtain ⟨first, -, h⟩ := Option.bind_eq_some_iff.1 h
  exact lastBreakBefore_lt hstart h

theorem previousBreak_le {attempts lookback : Nat} (ho : o ≤ rope.byteLength)
    (h : previousBreak breakStateful rope o attempts lookback = some r) : r ≤ o := by
  induction attempts generalizing lookback with
  | zero => exact backNCodepoints_le ho h
  | succ attempts ih =>
      unfold previousBreak at h
      obtain ⟨start, hstart, h⟩ := Option.bind_eq_some_iff.1 h
      simp only at h
      split at h
      · rename_i hlt
        obtain ⟨⟨boundary, found⟩, hscan, h⟩ := Option.bind_eq_some_iff.1 h
        simp only at h
        split at h
        · cases h
          exact Nat.le_of_lt (scanBreaks_lt hlt hscan)
        · exact ih h
      · obtain ⟨⟨boundary, found⟩, hscan, h⟩ := Option.bind_eq_some_iff.1 h
        cases hscan
        simp only at h
        split at h
        · cases h
          exact backNCodepoints_le ho hstart
        · exact ih h

theorem previousGraphemeBoundary_le (ho : o ≤ rope.byteLength)
    (h : previousGraphemeBoundary breakStateful rope o = some r) : r ≤ o := by
  unfold previousGraphemeBoundary at h
  split at h
  · cases h
    exact Nat.zero_le _
  · exact previousBreak_le ho h

theorem snapBreak_le {attempts lookback : Nat} (ho : o ≤ rope.byteLength)
    (h : snapBreak breakStateful rope o attempts lookback = some r) : r ≤ o := by
  induction attempts generalizing lookback with
  | zero => exact backNCodepoints_le ho h
  | succ attempts ih =>
      unfold snapBreak at h
      obtain ⟨start, hstart, h⟩ := Option.bind_eq_some_iff.1 h
      obtain ⟨⟨boundary, found⟩, hscan, h⟩ := Option.bind_eq_some_iff.1 h
      have hboundary : boundary ≤ o :=
        Nat.le_of_lt_succ (scanBreaks_lt (Nat.lt_succ_of_le (backNCodepoints_le ho hstart)) hscan)
      simp only at h
      split at h
      · cases h
        exact hboundary
      · exact ih h

theorem snapToGraphemeBoundary_le (h : snapToGraphemeBoundary breakStateful rope o = some r) :
    r ≤ rope.byteLength := by
  simp only [snapToGraphemeBoundary] at h
  have hsnap := snapToCodepoint_le rope (min o rope.byteLength)
  split at h
  · cases h
    exact hsnap
  · exact Nat.le_trans (snapBreak_le hsnap h) hsnap

end Boundaries

/-! ## Relocation -/

namespace TrackedPositions

variable (s : KeySort) (positions : TrackedPositions)

@[simp] theorem relocateFoldMarkers_point (move : Nat → Nat) :
    (positions.relocateFoldMarkers move).point = positions.point := by
  unfold relocateFoldMarkers
  split <;> rfl

@[simp] theorem relocateSecondaryCursorsForDelete_point (rangeStart rangeEnd : Nat) :
    (positions.relocateSecondaryCursorsForDelete s rangeStart rangeEnd).point = positions.point := by
  simp only [relocateSecondaryCursorsForDelete]
  split <;> rfl

theorem relocateForDeletion_point (rangeStart rangeEnd : Nat) :
    (positions.relocateForDeletion s rangeStart rangeEnd).point =
      relocateForDelete positions.point rangeStart rangeEnd := by
  simp only [relocateForDeletion, relocateDiagnosticsForDelete, relocateExcerptRangesForDelete,
    relocateSnippetRangesForDelete, relocateSecondaryCursorsForDelete_point, relocateFoldMarkers_point]

theorem relocateForInsertion_point (offset length : Nat) :
    (positions.relocateForInsertion offset length).point =
      relocateForInsert positions.point offset length := by
  simp only [relocateForInsertion, relocateDiagnosticsForInsert, relocateExcerptRangesForInsert,
    relocateSnippetRangesForInsert, relocateSecondaryCursors, relocateFoldMarkers_point]

theorem clampToContent_point {snap : Nat → Option Nat} {length : Nat} {positions' : TrackedPositions}
    (h : positions.clampToContent snap length = some positions') :
    snap (min positions.point length) = some positions'.point := by
  obtain ⟨point, hpoint, h⟩ := Option.bind_eq_some_iff.1 h
  obtain ⟨mark, -, h⟩ := Option.bind_eq_some_iff.1 h
  cases h
  exact hpoint

end TrackedPositions

/-! ## The point of a buffer -/

namespace Buffer

variable {p : Platform} {b b' : Buffer}

theorem relocateTrackedState_point_le {size offset oldLength newLength : Nat} (hpoint : b.point ≤ size)
    (hle : offset + oldLength ≤ size) :
    (b.relocateTrackedState p offset oldLength newLength).point ≤ size - oldLength + newLength := by
  have hdeleted := relocateForDelete_le hpoint hle (Nat.le_add_right offset oldLength)
  rw [Nat.add_sub_cancel_left] at hdeleted
  simp only [relocateTrackedState, markUnsavedRangeInserted, markUnsavedRangeDeleted]
  split
  · split
    · simp only [TrackedPositions.relocateForInsertion_point,
        TrackedPositions.relocateForDeletion_point]
      exact relocateForInsert_le hdeleted offset newLength
    · rename_i hold
      rw [Nat.eq_zero_of_not_pos hold]
      simp only [TrackedPositions.relocateForInsertion_point]
      exact relocateForInsert_le hpoint offset newLength
  · split
    · simp only [TrackedPositions.relocateForDeletion_point]
      exact Nat.le_add_right_of_le hdeleted
    · rename_i hold
      rw [Nat.eq_zero_of_not_pos hold]
      exact Nat.le_add_right_of_le hpoint

/-! ## Restores -/

theorem updateUnsavedRangesForRestore_changes (b : Buffer) (oldStorage : Storage) :
    (b.updateUnsavedRangesForRestore oldStorage).toUnsavedChanges =
      b.toUnsavedChanges.restored oldStorage b.storage b.savedSnapshot := by
  simp only [updateUnsavedRangesForRestore, UnsavedChanges.restored]
  split
  · split <;> rfl
  · cases hspan : changedByteRange oldStorage b.storage with
    | none => rfl
    | some span =>
        obtain ⟨hstart, hold, hnew, -, -⟩ := changedByteRange_bounds hspan
        have hrel : span.oldStart + (span.oldEnd - span.oldStart) = span.oldEnd := by omega
        simp only [UnsavedChanges.relocated, hrel, gt_iff_lt, Nat.sub_pos_iff_lt, ← hstart]
        split <;> split <;> rfl

theorem updateUnsavedRangesForRestore_point (b : Buffer) (oldStorage : Storage) :
    (b.updateUnsavedRangesForRestore oldStorage).point = b.point := by
  simp only [updateUnsavedRangesForRestore]
  split
  · split <;> rfl
  · split
    · rfl
    · split <;> split <;> rfl

theorem commitRestore_point (b : Buffer) (oldStorage : Storage) :
    (b.commitRestore oldStorage).point = b.point := by
  simp only [commitRestore]
  split <;> rfl

theorem updateDiagnosticsForRestore_point (b : Buffer) (oldStorage : Storage) :
    (b.updateDiagnosticsForRestore oldStorage).point = b.point := by
  simp only [updateDiagnosticsForRestore, relocateForRestore]
  split
  · rfl
  · split
    · rfl
    · split <;> split <;> rfl

theorem updateExcerptRangesForRestore_point (b : Buffer) (oldStorage : Storage) :
    (b.updateExcerptRangesForRestore oldStorage).point = b.point := by
  simp only [updateExcerptRangesForRestore, relocateForRestore]
  split
  · rfl
  · split
    · rfl
    · split <;> split <;> rfl

theorem restoreExcerptRangeOffsets_point {restored : Option Buffer}
    (h : b.restoreExcerptRangeOffsets = some restored) (oldStorage : Storage) :
    (restored.getD (b.updateExcerptRangesForRestore oldStorage)).point = b.point := by
  simp only [restoreExcerptRangeOffsets] at h
  split at h
  · cases h
    rfl
  · obtain ⟨sequence, -, h⟩ := Option.bind_eq_some_iff.1 h
    split at h
    · cases h
      exact updateExcerptRangesForRestore_point b oldStorage
    · split at h
      · cases h
        exact updateExcerptRangesForRestore_point b oldStorage
      · cases h
        rfl

theorem snap_le {offset r : Nat} (h : b.snap p offset = some r) : r ≤ b.storage.byteLength :=
  snapToGraphemeBoundary_le h

theorem adoptCurrentState_point (h : b.adoptCurrentState p = some b') :
    b'.point ≤ b'.storage.byteLength := by
  obtain ⟨storage, -, h⟩ := Option.bind_eq_some_iff.1 h
  obtain ⟨positions, hpositions, h⟩ := Option.bind_eq_some_iff.1 h
  cases h
  have hsnap := TrackedPositions.clampToContent_point _ hpositions
  exact snap_le (b := { b with storage := storage }) hsnap

/-- A restore leaves the point inside the content, and the changes as the diff says. -/
structure RestoredWithin (oldStorage : Storage) (b b' : Buffer) : Prop where
  changes : b'.toUnsavedChanges =
    b.toUnsavedChanges.restored oldStorage b'.storage b.savedSnapshot
  point : b'.point ≤ b'.storage.byteLength

theorem navigate_within {tree : UndoTree} (h : b.navigate p tree = some b') :
    RestoredWithin b.storage b b' := by
  obtain ⟨a, ha, h⟩ := Option.bind_eq_some_iff.1 h
  obtain ⟨restored, hrestored, h⟩ := Option.bind_eq_some_iff.1 h
  have hadopted := adoptCurrentState_spec ha
  have hstill := (restoreExcerptRangeOffsets_still hrestored b.storage).trans
    (updateDiagnosticsForRestore_still _ b.storage)
  have hpoint := (updateDiagnosticsForRestore_point _ b.storage).trans
    ((restoreExcerptRangeOffsets_point hrestored b.storage).trans
      ((updateUnsavedRangesForRestore_point _ b.storage).trans (commitRestore_point a b.storage)))
  obtain rfl := Option.some.inj h
  obtain ⟨offset, oldLength, newLength, hcommit⟩ := commitRestore_spec a b.storage
  rw [hcommit] at hstill hpoint ⊢
  obtain ⟨-, -, hstorage, -, -⟩ :=
    updateUnsavedRangesForRestore_spec (a.commitReplace offset oldLength newLength) b.storage
  have hstorage' := hstill.storage.trans hstorage
  refine ⟨?_, ?_⟩
  · rw [hstill.changes, hstorage', updateUnsavedRangesForRestore_changes]
    have hchanges := hadopted.changes
    have hsaved := hadopted.savedSnapshot
    simp only at hchanges hsaved
    rw [← hchanges, ← hsaved]
    rfl
  · rw [hpoint, hstorage']
    exact adoptCurrentState_point ha

end Buffer

end Ned.Text
