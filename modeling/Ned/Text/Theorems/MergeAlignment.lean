import Ned.Library.Fallible
import Ned.Text.Lemmas.PaneRows
import Ned.Text.Lemmas.RefinedSides

/-!
# Merge panes line up

The panes of a merge have as many rows each, and a line that no side changes is on one row in all of
them, unless a side has lines of its own right before it: the search takes their first line for its
counterpart.
-/

namespace Ned.Text

open Ned.Library

variable {chunks : List AlignedChunk} {chunk : AlignedChunk} {m s m' s' c c' l l' : Nat}

/-! ## Tiles -/

theorem TilesTo.le (h : TilesTo chunks m s m' s') : m ≤ m' ∧ s ≤ s' := by
  induction chunks generalizing m s with
  | nil => exact ⟨Nat.le_of_eq h.1, Nat.le_of_eq h.2⟩
  | cons head chunks ih =>
      have := ih h.2.2.2
      omega

theorem TilesTo.mem_ge (h : TilesTo chunks m s m' s') (hmem : chunk ∈ chunks) :
    m ≤ chunk.mergedLine ∧ s ≤ chunk.sideLine ∧ chunk.mergedLine + chunk.mergedCount ≤ m' ∧
      chunk.sideLine + chunk.sideCount ≤ s' := by
  induction chunks generalizing m s with
  | nil => cases hmem
  | cons head chunks ih =>
      obtain ⟨hmerged, hside, -, hrest⟩ := h
      have hle := hrest.le
      rcases List.mem_cons.1 hmem with rfl | hmem
      · omega
      · have := ih hrest hmem
        omega

theorem TilesTo.count (h : TilesTo chunks m s m' s') (hmem : chunk ∈ chunks)
    (hunchanged : chunk.changed = false) : chunk.mergedCount = chunk.sideCount := by
  induction chunks generalizing m s with
  | nil => cases hmem
  | cons head chunks ih =>
      rcases List.mem_cons.1 hmem with rfl | hmem
      · exact h.2.2.1 hunchanged
      · exact ih h.2.2.2 hmem

/-- Lines of the side's own right before a merged line. -/
def OwnLinesAt (chunks : List AlignedChunk) (c : Nat) : Prop :=
  ∃ chunk ∈ chunks, chunk.mergedLine = c ∧ chunk.mergedCount = 0 ∧ chunk.sideCount ≠ 0

/-- Without lines of the side's own, a chunk of merged lines starts where the tiles do. -/
theorem TilesTo.sideLine_eq_iff (h : TilesTo chunks m s m' s') (hmem : chunk ∈ chunks)
    (hmerged : chunk.mergedLine = m) (hcount : chunk.mergedCount ≠ 0) :
    chunk.sideLine = s ↔ ¬OwnLinesAt chunks m := by
  induction chunks generalizing s with
  | nil => cases hmem
  | cons head chunks ih =>
      obtain ⟨hheadMerged, hheadSide, hheadCount, hrest⟩ := h
      rcases List.mem_cons.1 hmem with rfl | hmem
      · refine ⟨fun _ => ?_, fun _ => hheadSide⟩
        rintro ⟨own, hown, hline, hzero, -⟩
        rcases List.mem_cons.1 hown with rfl | hown
        · exact hcount hzero
        · have := (hrest.mem_ge hown).1
          omega
      · have hge := hrest.mem_ge hmem
        have hempty : head.mergedCount = 0 := by omega
        rw [hempty, Nat.add_zero] at hrest
        have hih := ih hrest hmem
        constructor
        · intro hline
          have hzero : head.sideCount = 0 := by omega
          rw [hzero, Nat.add_zero] at hih
          rintro ⟨own, hown, hown'⟩
          rcases List.mem_cons.1 hown with rfl | hown
          · exact hown'.2.2 hzero
          · exact hih.1 hline ⟨own, hown, hown'⟩
        · intro hnone
          have hzero : head.sideCount = 0 := by
            by_contra hne
            exact hnone ⟨head, List.mem_cons_self, hheadMerged, hempty, hne⟩
          rw [hzero, Nat.add_zero] at hih
          exact hih.2 fun ⟨own, hown, hown'⟩ => hnone ⟨own, List.mem_cons_of_mem _ hown, hown'⟩

/-! ## The line of a side -/

/-- The search from the first chunk on. -/
def lineIn (s' c : Nat) : List AlignedChunk → Option Nat
  | [] => some s'
  | chunk :: chunks =>
      if chunk.endsBy c then lineIn s' c chunks
      else if chunk.mergedLine = c then some chunk.sideLine
      else if !chunk.changed then some (chunk.sideLine + (c - chunk.mergedLine))
      else none

theorem sideLineAt_advance : (SideCursor.advance c ⟨s', chunks⟩).sideLineAt c = lineIn s' c chunks := by
  induction chunks with
  | nil => rfl
  | cons chunk chunks ih =>
      simp only [SideCursor.advance, List.dropWhile_cons, lineIn] at ih ⊢
      split
      · exact ih
      · rfl

theorem endsBy_iff : chunk.endsBy c = true ↔
    chunk.mergedLine + chunk.mergedCount ≤ c ∧ ¬(chunk.mergedCount = 0 ∧ chunk.mergedLine = c) := by
  simp only [AlignedChunk.endsBy, Bool.not_eq_true', Bool.or_eq_false_iff, decide_eq_false_iff_not,
    Bool.and_eq_false_iff, beq_eq_false_iff_ne]
  omega

theorem not_endsBy_iff : ¬chunk.endsBy c = true ↔
    c < chunk.mergedLine + chunk.mergedCount ∨ chunk.mergedCount = 0 ∧ chunk.mergedLine = c := by
  rw [endsBy_iff]
  omega

theorem endsBy_mono (h : chunk.endsBy c = true) (hle : c ≤ c') : chunk.endsBy c' = true := by
  rw [endsBy_iff] at h ⊢
  omega

theorem lineIn_bounds (h : TilesTo chunks m s m' s') (hc : m ≤ c) (hline : lineIn s' c chunks = some l) :
    s ≤ l ∧ l ≤ s' := by
  induction chunks generalizing m s with
  | nil =>
      cases hline
      exact ⟨Nat.le_of_eq h.2, Nat.le_refl _⟩
  | cons chunk chunks ih =>
      obtain ⟨hmerged, hside, hcount, hrest⟩ := h
      have hle := hrest.le
      rw [lineIn] at hline
      split at hline
      · rename_i hends
        have := endsBy_iff.1 hends
        have := ih hrest (by omega) hline
        omega
      · rename_i hends
        have := not_endsBy_iff.1 hends
        split at hline
        · cases hline
          omega
        · split at hline
          · rename_i hunchanged
            have := hcount (by simpa using hunchanged)
            cases hline
            omega
          · cases hline

theorem lineIn_mono (h : TilesTo chunks m s m' s') (hc : m ≤ c) (hlt : c < c')
    (hline : lineIn s' c chunks = some l) (hline' : lineIn s' c' chunks = some l') : l ≤ l' := by
  induction chunks generalizing m s with
  | nil =>
      cases hline
      cases hline'
      exact Nat.le_refl _
  | cons chunk chunks ih =>
      have htiles := h
      obtain ⟨hmerged, hside, hcount, hrest⟩ := h
      rw [lineIn] at hline
      split at hline
      · rename_i hends
        rw [lineIn, if_pos (endsBy_mono hends (Nat.le_of_lt hlt))] at hline'
        exact ih hrest (by have := endsBy_iff.1 hends; omega) hline hline'
      · rename_i hends
        have hnot := not_endsBy_iff.1 hends
        split at hline
        · cases hline
          have := (lineIn_bounds htiles (by omega) hline').1
          omega
        · rename_i hne
          split at hline
          · rename_i hunchanged
            have := hcount (by simpa using hunchanged)
            cases hline
            rw [lineIn] at hline'
            split at hline'
            · rename_i hends'
              have := (lineIn_bounds hrest (by have := endsBy_iff.1 hends'; omega) hline').1
              omega
            · rw [if_neg (by omega)] at hline'
              cases hline'
              omega
          · cases hline

theorem lineIn_zero (h : TilesTo chunks 0 0 m' s') : lineIn s' 0 chunks = some 0 := by
  cases chunks with
  | nil => exact congrArg some h.2.symm
  | cons chunk chunks =>
      obtain ⟨hmerged, hside, -, -⟩ := h
      have hends : ¬chunk.endsBy 0 = true := not_endsBy_iff.2 (by omega)
      rw [lineIn, if_neg hends, if_pos hmerged, hside]

/-- A line of an unchanged chunk is found, though before its counterpart if the side has lines of its
own there. -/
theorem lineIn_unchanged (h : TilesTo chunks m s m' s') (hmem : chunk ∈ chunks)
    (hunchanged : chunk.changed = false) (hle : chunk.mergedLine ≤ c)
    (hlt : c < chunk.mergedLine + chunk.mergedCount) :
    ∃ l, lineIn s' c chunks = some l ∧ l ≤ chunk.sideLine + (c - chunk.mergedLine) ∧
      (l = chunk.sideLine + (c - chunk.mergedLine) ↔ ¬OwnLinesAt chunks c) := by
  induction chunks generalizing m s with
  | nil => cases hmem
  | cons head chunks ih =>
      have htiles := h
      obtain ⟨hmerged, hside, hcount, hrest⟩ := h
      by_cases hends : head.endsBy c = true
      · have hend := endsBy_iff.1 hends
        have hmem' : chunk ∈ chunks := by
          rcases List.mem_cons.1 hmem with rfl | hmem
          · omega
          · exact hmem
        obtain ⟨l, hline, hbound, hiff⟩ := ih hrest hmem'
        refine ⟨l, by rw [lineIn, if_pos hends, hline], hbound, hiff.trans (not_congr ?_)⟩
        constructor
        · exact fun ⟨own, hown, hown'⟩ => ⟨own, List.mem_cons_of_mem _ hown, hown'⟩
        · rintro ⟨own, hown, hown'⟩
          rcases List.mem_cons.1 hown with rfl | hown
          · omega
          · exact ⟨own, hown, hown'⟩
      · have hend := not_endsBy_iff.1 hends
        have hge := htiles.mem_ge hmem
        by_cases hat : head.mergedLine = c
        · have hchunk : chunk.mergedLine = m := by omega
          have heq := htiles.sideLine_eq_iff hmem hchunk (by omega)
          have hcm : c = m := by omega
          refine ⟨head.sideLine, by rw [lineIn, if_neg hends, if_pos hat], by omega, ?_⟩
          rw [hcm, ← heq]
          omega
        · -- the line is inside the first chunk, which is then the unchanged one
          have hhead : chunk = head := by
            rcases List.mem_cons.1 hmem with rfl | hmem
            · rfl
            · have := (hrest.mem_ge hmem).1
              omega
          subst hhead
          refine ⟨chunk.sideLine + (c - chunk.mergedLine), ?_, Nat.le_refl _, iff_of_true rfl ?_⟩
          · rw [lineIn, if_neg hends, if_neg hat, if_pos (by simp [hunchanged])]
          · rintro ⟨own, hown, hline, hzero, -⟩
            rcases List.mem_cons.1 hown with rfl | hown
            · omega
            · have := (hrest.mem_ge hown).1
              omega

theorem lineIn_behind (h : TilesTo chunks m s m' s') (hmem : chunk ∈ chunks)
    (hunchanged : chunk.changed = false) (hle : chunk.mergedLine ≤ c)
    (hlt : c < chunk.mergedLine + chunk.mergedCount) (hafter : c < c')
    (hline : lineIn s' c' chunks = some l) : chunk.sideLine + (c - chunk.mergedLine) < l := by
  induction chunks generalizing m s with
  | nil => cases hmem
  | cons head chunks ih =>
      have htiles := h
      obtain ⟨hmerged, hside, hcount, hrest⟩ := h
      rw [lineIn] at hline
      split at hline
      · rename_i hends
        have hend := endsBy_iff.1 hends
        rcases List.mem_cons.1 hmem with rfl | hmem
        · have := (lineIn_bounds hrest (by omega) hline).1
          have := hcount hunchanged
          omega
        · exact ih hrest hmem hline
      · rename_i hends
        have hend := not_endsBy_iff.1 hends
        rcases List.mem_cons.1 hmem with rfl | hmem
        · rw [if_neg (by omega), if_pos (by simp [hunchanged])] at hline
          cases hline
          omega
        · have := hrest.mem_ge hmem
          omega

/-! ## Sync points -/

/-- A merged line and its line in every side, if it has one in each. -/
def pointAt (sides : List MergeSide) (c : Nat) : Option SyncPoint :=
  (sides.mapM fun side => lineIn side.lineCount c side.chunks).map (c :: ·)

/-- A cursor finds, from a line on, what a search from the first chunk does. -/
structure Trails (c : Nat) (cursor : SideCursor) (side : MergeSide) : Prop where
  lineCount : cursor.lineCount = side.lineCount
  finds : ∀ c', c ≤ c' → lineIn side.lineCount c' cursor.rest = lineIn side.lineCount c' side.chunks

theorem lineIn_dropWhile (hle : c ≤ c') :
    lineIn s' c' (chunks.dropWhile (·.endsBy c)) = lineIn s' c' chunks := by
  induction chunks with
  | nil => rfl
  | cons chunk chunks ih =>
      rw [List.dropWhile_cons]
      split
      · rename_i hends
        rw [ih, lineIn, if_pos (endsBy_mono hends hle)]
      · rfl

variable {cursor : SideCursor} {cursors : List SideCursor} {side : MergeSide} {sides : List MergeSide}
  {point : SyncPoint} {n count k : Nat}

theorem Trails.advance (h : Trails c cursor side) : Trails c (cursor.advance c) side :=
  ⟨h.lineCount, fun c' hle => (lineIn_dropWhile hle).trans (h.finds c' hle)⟩

theorem Trails.line (h : Trails c cursor side) :
    (cursor.advance c).sideLineAt c = lineIn side.lineCount c side.chunks := by
  rw [← h.finds c (Nat.le_refl _), ← h.lineCount]
  exact sideLineAt_advance

theorem sideLinesAt_spec (h : List.Forall₂ (Trails c) cursors sides) :
    (SideCursor.sideLinesAt c cursors).2 = sides.mapM (fun side => lineIn side.lineCount c side.chunks) ∧
      List.Forall₂ (Trails c) (SideCursor.sideLinesAt c cursors).1 sides := by
  induction h with
  | nil => exact ⟨rfl, .nil⟩
  | @cons cursor side cursors sides hcursor hcursors ih =>
      have hline := hcursor.line
      rw [SideCursor.sideLinesAt, List.mapM_cons, ← ih.1, ← hline]
      simp only
      cases hcase : (cursor.advance c).sideLineAt c with
      | none => exact ⟨rfl, .cons hcursor.advance hcursors⟩
      | some line =>
          refine ⟨?_, .cons hcursor.advance ih.2⟩
          cases (SideCursor.sideLinesAt c cursors).2 <;> rfl

theorem syncPointsFrom_eq (h : List.Forall₂ (Trails c) cursors sides) :
    syncPointsFrom count c cursors = (List.range' c count).filterMap (pointAt sides) := by
  induction count generalizing c cursors with
  | zero => rfl
  | succ count ih =>
      obtain ⟨hlines, hnext⟩ := sideLinesAt_spec h
      have hrest := ih (hnext.imp fun cursor side hcursor =>
        (⟨hcursor.lineCount, fun c' hle => hcursor.finds c' (Nat.le_of_succ_le hle)⟩ :
          Trails (c + 1) cursor side))
      rw [syncPointsFrom, List.range'_succ, List.filterMap_cons, pointAt, ← hlines]
      simp only [hrest]
      cases (SideCursor.sideLinesAt c cursors).2 <;> rfl

/-- The end of every pane. -/
def endPoint (n : Nat) (sides : List MergeSide) : SyncPoint := n :: sides.map (·.lineCount)

theorem syncPoints_eq : syncPoints n sides = (0 :: sides.map fun _ => 0) ::
    ((List.range' 1 (n - 1)).filterMap (pointAt sides) ++ [endPoint n sides]) := by
  have hfollows : List.Forall₂ (Trails 1)
      (sides.map fun side => (⟨side.lineCount, side.chunks⟩ : SideCursor)) sides := by
    induction sides with
    | nil => exact .nil
    | cons side sides ih => exact .cons ⟨rfl, fun _ _ => rfl⟩ ih
  rw [syncPoints, syncPointsFrom_eq hfollows]
  rfl

theorem getD_endPoint (hside : sides[k]? = some side) :
    (endPoint n sides).getD (k + 1) 0 = side.lineCount := by
  simp [endPoint, hside]

theorem pointAt_spec (h : pointAt sides c = some point) : point.length = sides.length + 1 ∧
    point.getD 0 0 = c ∧ ∀ k side, sides[k]? = some side →
      lineIn side.lineCount c side.chunks = some (point.getD (k + 1) 0) := by
  obtain ⟨lines, hlines, rfl⟩ := Option.map_eq_some_iff.1 h
  have hall := forall₂_of_mapM hlines
  refine ⟨congrArg Nat.succ hall.length_eq.symm, rfl, fun k side hside => ?_⟩
  obtain ⟨line, hline, hfound⟩ := getElem?_of_forall₂ hall hside
  simp [hfound, hline]

/-- Every side is in tiles beside the merged lines. -/
def AllTiled (n : Nat) (sides : List MergeSide) : Prop :=
  ∀ side ∈ sides, TilesTo side.chunks 0 0 n side.lineCount

section

variable (htiled : AllTiled n sides)

include htiled

theorem pointAt_zero : pointAt sides 0 = some (0 :: sides.map fun _ => 0) := by
  have hlines : sides.mapM (fun side => lineIn side.lineCount 0 side.chunks) =
      some (sides.map fun _ => 0) := by
    induction sides with
    | nil => rfl
    | cons side sides ih =>
        rw [List.mapM_cons, lineIn_zero (htiled side List.mem_cons_self),
          ih fun other hother => htiled other (List.mem_cons_of_mem _ hother)]
        rfl
  rw [pointAt, hlines]
  rfl

theorem pointAt_le {next : SyncPoint} (h : pointAt sides c = some point) (hnext : pointAt sides c' = some next)
    (hlt : c < c') (k : Nat) : point.getD k 0 ≤ next.getD k 0 := by
  obtain ⟨hlength, hmerged, hsides⟩ := pointAt_spec h
  obtain ⟨hlength', hmerged', hsides'⟩ := pointAt_spec hnext
  cases k with
  | zero => omega
  | succ k =>
      cases hside : sides[k]? with
      | none =>
          have hk := List.getElem?_eq_none_iff.1 hside
          rw [List.getD_eq_default _ _ (by omega)]
          exact Nat.zero_le _
      | some side =>
          exact lineIn_mono (htiled side (List.mem_of_getElem? hside)) (Nat.zero_le _) hlt
            (hsides k side hside) (hsides' k side hside)

theorem pointAt_le_end (h : pointAt sides c = some point) (hc : c ≤ n) (k : Nat) :
    point.getD k 0 ≤ (endPoint n sides).getD k 0 := by
  obtain ⟨hlength, hmerged, hsides⟩ := pointAt_spec h
  cases k with
  | zero =>
      rw [hmerged]
      exact hc
  | succ k =>
      cases hside : sides[k]? with
      | none =>
          have hk := List.getElem?_eq_none_iff.1 hside
          rw [List.getD_eq_default _ _ (by omega)]
          exact Nat.zero_le _
      | some side =>
          rw [getD_endPoint hside]
          exact (lineIn_bounds (htiled side (List.mem_of_getElem? hside)) (Nat.zero_le _)
            (hsides k side hside)).2

/-- The points go up in every pane. -/
theorem syncPoints_ascending : Ascending (sides.length + 1) (syncPoints n sides) := by
  have hzero := pointAt_zero htiled
  rw [syncPoints_eq]
  constructor
  · intro point hpoint
    rcases List.mem_cons.1 hpoint with rfl | hpoint
    · exact (pointAt_spec hzero).1
    · rcases List.mem_append.1 hpoint with hpoint | hpoint
      · obtain ⟨c, -, hc⟩ := List.mem_filterMap.1 hpoint
        exact (pointAt_spec hc).1
      · cases List.mem_singleton.1 hpoint
        simp [endPoint]
  · refine .cons (fun next hnext k => ?_) (List.pairwise_append.2 ⟨?_, List.pairwise_singleton _ _, ?_⟩)
    · rcases List.mem_append.1 hnext with hnext | hnext
      · obtain ⟨c, hc, hnext⟩ := List.mem_filterMap.1 hnext
        have := List.mem_range'_1.1 hc
        exact pointAt_le htiled hzero hnext (by omega) k
      · cases List.mem_singleton.1 hnext
        exact pointAt_le_end htiled hzero (Nat.zero_le _) k
    · apply List.pairwise_filterMap.2
      have hrange : (List.range' 1 (n - 1)).Pairwise (· < ·) := List.pairwise_lt_range' _
      apply hrange.imp
      intro c c' hlt point hpoint next hnext k
      exact pointAt_le htiled hpoint hnext hlt k
    · intro point hpoint next hnext k
      cases List.mem_singleton.1 hnext
      obtain ⟨c, hc, hpoint⟩ := List.mem_filterMap.1 hpoint
      have := List.mem_range'_1.1 hc
      exact pointAt_le_end htiled hpoint (by omega) k

theorem syncPoints_split (hc : c < n) (h : pointAt sides c = some point) :
    ∃ before behind, syncPoints n sides = before ++ point :: behind ∧
      ∀ next ∈ behind, (∃ c', c < c' ∧ pointAt sides c' = some next) ∨ next = endPoint n sides := by
  rw [syncPoints_eq]
  cases c with
  | zero =>
      rw [pointAt_zero htiled] at h
      cases h
      refine ⟨[], _, rfl, fun next hnext => ?_⟩
      rcases List.mem_append.1 hnext with hnext | hnext
      · obtain ⟨c, hc, hnext⟩ := List.mem_filterMap.1 hnext
        exact .inl ⟨c, (List.mem_range'_1.1 hc).1, hnext⟩
      · exact .inr (List.mem_singleton.1 hnext)
  | succ c =>
      have hrange : List.range' 1 (n - 1) = List.range' 1 c ++ (c + 1) :: List.range' (c + 2) (n - c - 2) := by
        rw [show n - 1 = c + (n - c - 2 + 1) by omega, ← List.range'_append_1, Nat.add_comm 1 c,
          List.range'_succ]
      refine ⟨(0 :: sides.map fun _ => 0) :: (List.range' 1 c).filterMap (pointAt sides),
        (List.range' (c + 2) (n - c - 2)).filterMap (pointAt sides) ++ [endPoint n sides], ?_, ?_⟩
      · rw [hrange, List.filterMap_append, List.filterMap_cons, h]
        simp
      · intro next hnext
        rcases List.mem_append.1 hnext with hnext | hnext
        · obtain ⟨c', hc', hnext⟩ := List.mem_filterMap.1 hnext
          exact .inl ⟨c', (List.mem_range'_1.1 hc').1, hnext⟩
        · exact .inr (List.mem_singleton.1 hnext)

end

/-! ## Panes -/

theorem alignPanes_getElem? {lines : Nat} (hlines : (n :: sides.map (·.lineCount))[k]? = some lines) :
    (alignPanes n sides)[k]? = some
      (PaneRows.padPane k (syncPoints n sides) ⟨0, List.replicate lines 0⟩).alignment := by
  rw [alignPanes, List.getElem?_map, getElem?_padSegments, List.getElem?_map, hlines]
  rfl

theorem PaneRows.lineCount_alignment (rows : PaneRows) :
    rows.alignment.lineCount = rows.rowsAfter.length := by
  rw [PaneAlignment.lineCount, alignment, length_rowsFrom, Nat.add_sub_cancel]

theorem PaneRows.alignedRow_alignment {rows : PaneRows} {line : Nat} (h : line ≤ rows.rowsAfter.length) :
    rows.alignment.alignedRow line = rows.above line := by
  have hrow := rows.alignment.alignedRow_eq (rows.lineCount_alignment ▸ h)
  rw [alignment, getElem?_rowsFrom h] at hrow
  exact (Option.some.inj hrow).symm

theorem getD_lineCounts {lines : Nat} (hlines : (n :: sides.map (·.lineCount))[k]? = some lines) :
    (endPoint n sides).getD k 0 = lines := by
  rw [endPoint, List.getD_eq_getElem?_getD, hlines]
  rfl

theorem syncPoints_le_end (htiled : AllTiled n sides) (hpoint : point ∈ syncPoints n sides) (k : Nat) :
    point.getD k 0 ≤ (endPoint n sides).getD k 0 := by
  rw [syncPoints_eq, ← List.cons_append] at hpoint
  have horder := (syncPoints_ascending htiled).order
  rw [syncPoints_eq, ← List.cons_append] at horder
  rcases List.mem_append.1 hpoint with hpoint | hpoint
  · exact (List.pairwise_append.1 horder).2.2 point hpoint _ (List.mem_singleton_self _) k
  · cases List.mem_singleton.1 hpoint
    exact Nat.le_refl _

/-- The last point at a line of a pane gives its row. -/
theorem alignedRow_point (htiled : AllTiled n sides) {lines : Nat}
    (hlines : (n :: sides.map (·.lineCount))[k]? = some lines) {before behind : List SyncPoint}
    (hsplit : syncPoints n sides = before ++ point :: behind)
    (hbehind : ∀ next ∈ behind, point.getD k 0 < next.getD k 0) :
    (PaneRows.padPane k (syncPoints n sides) ⟨0, List.replicate lines 0⟩).alignment.alignedRow
      (point.getD k 0) = heights (before ++ [point]) := by
  have hend := getD_lineCounts hlines
  have hlast : ∀ point ∈ syncPoints n sides, point.getD k 0 ≤ (List.replicate lines 0).length := by
    intro point hpoint
    rw [List.length_replicate, ← hend]
    exact syncPoints_le_end htiled hpoint k
  have hpads := PaneRows.padsAbove_eq (hsplit ▸ syncPoints_ascending htiled) hbehind
  have hhead : ((before ++ [point]).head (by simp)).getD k 0 = 0 := by
    have hfirst : (syncPoints n sides).head? = (before ++ [point]).head? := by
      rw [hsplit]
      cases before <;> rfl
    rw [syncPoints_eq, List.head?_cons, List.head?_eq_some_head (by simp)] at hfirst
    rw [← Option.some.inj hfirst]
    cases k with
    | zero => rfl
    | succ k =>
        rw [List.getD_cons_succ, List.getD_eq_getElem?_getD, List.getElem?_map]
        cases sides[k]? <;> rfl
  rw [PaneRows.alignedRow_alignment, PaneRows.above_padPane hlast]
  · have hblank : (PaneRows.mk 0 (List.replicate lines 0)).above (point.getD k 0) = point.getD k 0 := by
      simp [PaneRows.above]
    rw [hblank, hsplit]
    omega
  · rw [PaneRows.length_padPane]
    exact hlast point (by rw [hsplit]; simp)

/-- Every pane has as many rows as all segments are high. -/
theorem totalRows_eq (htiled : AllTiled n sides) {lines : Nat}
    (hlines : (n :: sides.map (·.lineCount))[k]? = some lines) :
    (PaneRows.padPane k (syncPoints n sides) ⟨0, List.replicate lines 0⟩).alignment.totalRows =
      heights (syncPoints n sides) := by
  have hsplit : syncPoints n sides = ((0 :: sides.map fun _ => 0) ::
      (List.range' 1 (n - 1)).filterMap (pointAt sides)) ++ endPoint n sides :: [] :=
    syncPoints_eq
  have hrow := alignedRow_point htiled hlines hsplit (by simp)
  rw [← hsplit, getD_lineCounts hlines] at hrow
  rw [← hrow, PaneAlignment.totalRows, List.getLast_eq_getElem]
  have hcount := PaneRows.lineCount_alignment
    (PaneRows.padPane k (syncPoints n sides) ⟨0, List.replicate lines 0⟩)
  rw [PaneRows.length_padPane, List.length_replicate] at hcount
  have hlast := PaneAlignment.alignedRow_eq (Nat.le_of_eq hcount.symm)
  have hlength := PaneAlignment.length_rowOfLine
    (PaneRows.padPane k (syncPoints n sides) ⟨0, List.replicate lines 0⟩).alignment
  obtain ⟨hlt, hlast⟩ := List.getElem?_eq_some_iff.1 hlast
  rw [← hlast]
  congr 1

/-! ## The merge view -/

/-- A side from the markers of a merged text, or one that is compared with its own text too. -/
def SideOf (merged : Bytes) (side : MergeSide) : Prop :=
  ∃ hunks kind markers, parseConflictHunks merged = some hunks ∧
    mergeSideFromMarkers merged hunks kind = some (some markers) ∧
      (side = markers ∨ ∃ sideText, refineMergeSide markers sideText = some side)

/-- No count wraps below zero. -/
def CountsFit (merged : Bytes) : Prop :=
  ∃ hunks, parseConflictHunks merged = some hunks ∧ ∀ kind, ∃ result,
    mergeSideFromMarkers merged hunks kind = some result ∧ ∀ markers, result = some markers →
      ∀ sideText, (refineMergeSide markers sideText).isSome = true

def UnchangedAt (chunks : List AlignedChunk) (line : Nat) : Prop :=
  ∃ chunk ∈ chunks, chunk.changed = false ∧ chunk.mergedLine ≤ line ∧
    line < chunk.mergedLine + chunk.mergedCount

/-- The panes of the merged text, the first, and of the sides. -/
structure LinesUp (merged : Bytes) (sides : List MergeSide) : Prop where
  fits : CountsFit merged
  tiled : ∀ side ∈ sides, Tiled merged side
  count : (alignPanes (splitLines merged).length sides).length = sides.length + 1
  total : ∀ pane ∈ alignPanes (splitLines merged).length sides,
    ∀ other ∈ alignPanes (splitLines merged).length sides, pane.totalRows = other.totalRows
  increasing : ∀ pane ∈ alignPanes (splitLines merged).length sides, pane.rowOfLine.Pairwise (· < ·)
  aligned : ∀ line, (∀ side ∈ sides, UnchangedAt side.chunks line) →
    ∀ k side, sides[k]? = some side → ∀ chunk ∈ side.chunks, chunk.changed = false →
      chunk.mergedLine ≤ line → line < chunk.mergedLine + chunk.mergedCount →
        (alignPanes (splitLines merged).length sides)[0]?.map (·.alignedRow line) =
          (alignPanes (splitLines merged).length sides)[k + 1]?.map
            (·.alignedRow (chunk.sideLine + (line - chunk.mergedLine)))
  scrolls : ∀ pane ∈ alignPanes (splitLines merged).length sides,
    pane.rowAtTop (pane.topForRow 0) = 0 ∧ ∀ row, pane.leadingRows < row → 0 < pane.lineCount →
      row ≤ pane.alignedRow (pane.lineCount - 1) → pane.rowAtTop (pane.topForRow row) = row

variable {merged : Bytes}

theorem countsFit (merged : Bytes) : CountsFit merged := by
  obtain ⟨hunks, hparse, hplaced⟩ := parseConflictHunks_placed merged
  refine ⟨hunks, hparse, fun kind => ?_⟩
  obtain ⟨result, hresult, haligned⟩ := mergeSideFromMarkers_aligned hplaced kind
  refine ⟨result, hresult, fun markers hmarkers sideText => ?_⟩
  obtain ⟨blocks, hblocks⟩ := haligned markers hmarkers
  obtain ⟨side, hside, -⟩ := hblocks.refine sideText
  rw [hside]
  rfl

theorem SideOf.tiled (h : SideOf merged side) : Tiled merged side := by
  obtain ⟨hunks, kind, markers, hparse, hmarkers, hside⟩ := h
  obtain ⟨hunks', hparse', hplaced⟩ := parseConflictHunks_placed merged
  rw [hparse] at hparse'
  cases hparse'
  obtain ⟨result, hresult, haligned⟩ := mergeSideFromMarkers_aligned hplaced kind
  rw [hmarkers] at hresult
  cases hresult
  obtain ⟨blocks, hblocks⟩ := haligned markers rfl
  rcases hside with rfl | ⟨sideText, hside⟩
  · exact hblocks.tiled
  · obtain ⟨side', hside', htiled⟩ := hblocks.refine sideText
    rw [hside] at hside'
    cases hside'
    exact htiled

theorem mem_alignPanes {pane : PaneAlignment} (h : pane ∈ alignPanes n sides) :
    ∃ k lines, (n :: sides.map (·.lineCount))[k]? = some lines ∧
      pane = (PaneRows.padPane k (syncPoints n sides) ⟨0, List.replicate lines 0⟩).alignment := by
  obtain ⟨k, hk⟩ := List.mem_iff_getElem?.1 h
  cases hlines : (n :: sides.map (·.lineCount))[k]? with
  | none =>
      rw [alignPanes, List.getElem?_map, getElem?_padSegments, List.getElem?_map, hlines] at hk
      cases hk
  | some lines =>
      rw [alignPanes_getElem? hlines] at hk
      exact ⟨k, lines, hlines, (Option.some.inj hk).symm⟩

theorem length_alignPanes : (alignPanes n sides).length = sides.length + 1 := by
  have hpad : ∀ points panes, (padSegments points panes).length = panes.length := by
    intro points panes
    fun_induction padSegments points panes with
    | case1 start stop points panes ih => rw [ih, padSegment, List.length_mapIdx]
    | case2 => rfl
  simp [alignPanes, hpad]

/-- A line that no side changes: its row is that of its counterpart exactly if the side has no lines of
its own before it. -/
theorem row_eq_iff (htiled : AllTiled n sides) {line : Nat}
    (hunchanged : ∀ side ∈ sides, UnchangedAt side.chunks line) (hside : sides[k]? = some side)
    (hmem : chunk ∈ side.chunks) (hchunk : chunk.changed = false) (hle : chunk.mergedLine ≤ line)
    (hlt : line < chunk.mergedLine + chunk.mergedCount) :
    (alignPanes n sides)[0]?.map (·.alignedRow line) =
        (alignPanes n sides)[k + 1]?.map (·.alignedRow (chunk.sideLine + (line - chunk.mergedLine))) ↔
      ¬OwnLinesAt side.chunks line := by
  have htile := htiled side (List.mem_of_getElem? hside)
  have hbounds := htile.mem_ge hmem
  have hcount := htile.count hmem hchunk
  obtain ⟨point, hpoint⟩ : ∃ point, pointAt sides line = some point := by
    have hsome : (sides.mapM fun side => lineIn side.lineCount line side.chunks).isSome = true := by
      apply isSome_mapM
      intro other hother
      obtain ⟨own, hown, hown', hownLe, hownLt⟩ := hunchanged other hother
      obtain ⟨l, hl, -⟩ := lineIn_unchanged (htiled other hother) hown hown' hownLe hownLt
      rw [hl]
      rfl
    obtain ⟨lines, hlines⟩ := Option.isSome_iff_exists.1 hsome
    exact ⟨line :: lines, by rw [pointAt, hlines]; rfl⟩
  obtain ⟨before, behind, hsplit, hbehind⟩ := syncPoints_split htiled (by omega : line < n) hpoint
  obtain ⟨-, hmerged, hsides⟩ := pointAt_spec hpoint
  obtain ⟨l, hl, hlLe, hiff⟩ := lineIn_unchanged htile hmem hchunk hle hlt
  have hfound := hsides k side hside
  rw [hl] at hfound
  obtain rfl : l = point.getD (k + 1) 0 := Option.some.inj hfound
  have hside' : (n :: sides.map (·.lineCount))[k + 1]? = some side.lineCount := by simp [hside]
  have hmergedBehind : ∀ next ∈ behind, point.getD 0 0 < next.getD 0 0 := by
    intro next hnext
    rw [hmerged]
    rcases hbehind next hnext with ⟨c', hc', hnext⟩ | rfl
    · rw [(pointAt_spec hnext).2.1]
      exact hc'
    · simp only [endPoint, List.getD_cons_zero]
      omega
  have hsideBehind : ∀ next ∈ behind, chunk.sideLine + (line - chunk.mergedLine) < next.getD (k + 1) 0 := by
    intro next hnext
    rcases hbehind next hnext with ⟨c', hc', hnext⟩ | rfl
    · exact lineIn_behind htile hmem hchunk hle hlt hc' ((pointAt_spec hnext).2.2 k side hside)
    · rw [getD_endPoint hside]
      omega
  have hmergedLines : (n :: sides.map (·.lineCount))[0]? = some n := rfl
  have hrowMerged := alignedRow_point htiled hmergedLines hsplit hmergedBehind
  have hrowSide := alignedRow_point htiled hside' hsplit
    fun next hnext => Nat.lt_of_le_of_lt hlLe (hsideBehind next hnext)
  rw [hmerged, ← hrowSide] at hrowMerged
  rw [alignPanes_getElem? hmergedLines, alignPanes_getElem? hside', Option.map_some, Option.map_some,
    Option.some.injEq, hrowMerged, ← hiff]
  refine ⟨fun hrow => ?_, fun hline => by rw [hline]⟩
  by_contra hne
  have hsorted : (PaneRows.padPane (k + 1) (syncPoints n sides)
      ⟨0, List.replicate side.lineCount 0⟩).alignment.rowOfLine.Pairwise (· < ·) :=
    PaneRows.pairwise_rowsFrom.1
  have hlines := PaneRows.lineCount_alignment
    (PaneRows.padPane (k + 1) (syncPoints n sides) ⟨0, List.replicate side.lineCount 0⟩)
  rw [PaneRows.length_padPane, List.length_replicate] at hlines
  have hrowLt := PaneAlignment.alignedRow_lt hsorted (Nat.lt_of_le_of_ne hlLe hne) (by omega)
  exact absurd hrow (Nat.ne_of_lt hrowLt)

/-- Lines of the side's own stand nowhere right before a line that no side changes. -/
def OwnLinesApart (sides : List MergeSide) : Prop :=
  ∀ line, (∀ side ∈ sides, UnchangedAt side.chunks line) →
    ∀ side ∈ sides, ¬OwnLinesAt side.chunks line

/-- The panes of a merge line up exactly if no side has lines of its own right before a line that no
side changes. A pane with leading rows cannot be scrolled to its first line. -/
theorem linesUp_iff {merged : Bytes} {sides : List MergeSide} (h : ∀ side ∈ sides, SideOf merged side) :
    (LinesUp merged sides ↔ OwnLinesApart sides) ∧
      ∀ pane ∈ alignPanes (splitLines merged).length sides,
        pane.rowAtTop (pane.topForRow pane.leadingRows) = 0 := by
  have hsides : ∀ side ∈ sides, Tiled merged side := fun side hside => (h side hside).tiled
  have htiled : AllTiled (splitLines merged).length sides := fun side hside => (hsides side hside).tiles
  have hincreasing : ∀ pane ∈ alignPanes (splitLines merged).length sides,
      pane.rowOfLine.Pairwise (· < ·) := by
    intro pane hpane
    obtain ⟨k, lines, -, rfl⟩ := mem_alignPanes hpane
    exact PaneRows.pairwise_rowsFrom.1
  refine ⟨⟨fun hup line hunchanged side hside => ?_, fun hapart => ?_⟩, fun pane hpane =>
    PaneAlignment.rowAtTop_top (hincreasing pane hpane) (Nat.le_refl _)⟩
  · obtain ⟨chunk, hmem, hchunk, hle, hlt⟩ := hunchanged side hside
    obtain ⟨k, hk⟩ := List.mem_iff_getElem?.1 hside
    exact (row_eq_iff htiled hunchanged hk hmem hchunk hle hlt).1
      (hup.aligned line hunchanged k side hk chunk hmem hchunk hle hlt)
  · constructor
    · exact countsFit merged
    · exact hsides
    · exact length_alignPanes
    · intro pane hpane other hother
      obtain ⟨k, lines, hlines, rfl⟩ := mem_alignPanes hpane
      obtain ⟨k', lines', hlines', rfl⟩ := mem_alignPanes hother
      rw [totalRows_eq htiled hlines, totalRows_eq htiled hlines']
    · exact hincreasing
    · intro line hunchanged k side hk chunk hmem hchunk hle hlt
      exact (row_eq_iff htiled hunchanged hk hmem hchunk hle hlt).2
        (hapart line hunchanged side (List.mem_of_getElem? hk))
    · intro pane hpane
      exact ⟨PaneAlignment.rowAtTop_top (hincreasing pane hpane) (Nat.zero_le _),
        fun row hrow hlines hlast => PaneAlignment.rowAtTop_topForRow hlines hrow hlast⟩

/-- `a`, `b` beside `a`, `c`. -/
theorem linesUp_changed : LinesUp [97, 10, 98, 10]
    [{ text := [97, 10, 99, 10], lineCount := 2, chunks := [⟨0, 1, 0, 1, false⟩, ⟨1, 1, 1, 1, true⟩] }] := by
  apply (linesUp_iff _).1.2
  · intro line _ side hside
    cases List.mem_singleton.1 hside
    simp [OwnLinesAt]
  · intro side hside
    cases List.mem_singleton.1 hside
    exact ⟨[], .ours, ⟨[97, 10, 98, 10], 2, [⟨0, 2, 0, 2, false⟩]⟩, by decide, by decide,
      .inr ⟨[97, 10, 99, 10], by decide⟩⟩

/-- `a`, `b` beside `a`, `x`, `b`: the side's `b` is a row below the merged one. -/
theorem not_linesUp_inserted : ¬∀ merged sides,
    (∀ side ∈ sides, SideOf merged side) → LinesUp merged sides := by
  intro h
  have hup := h [97, 10, 98, 10]
    [⟨[97, 10, 120, 10, 98, 10], 3, [⟨0, 1, 0, 1, false⟩, ⟨1, 0, 1, 1, true⟩, ⟨1, 1, 2, 1, false⟩]⟩]
    (by
      intro side hside
      cases List.mem_singleton.1 hside
      exact ⟨[], .ours, ⟨[97, 10, 98, 10], 2, [⟨0, 2, 0, 2, false⟩]⟩, by decide, by decide,
        .inr ⟨[97, 10, 120, 10, 98, 10], by decide⟩⟩)
  have hrow := hup.aligned 1
    (by
      intro side hside
      cases List.mem_singleton.1 hside
      exact ⟨⟨1, 1, 2, 1, false⟩, by decide, rfl, by decide, by decide⟩)
    0 _ rfl ⟨1, 1, 2, 1, false⟩ (by decide) rfl (by decide) (by decide)
  exact absurd hrow (by decide)

end Ned.Text
