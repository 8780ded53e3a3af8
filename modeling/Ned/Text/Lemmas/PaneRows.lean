import Ned.Text.MergeAlignment
import Mathlib.Algebra.Order.BigOperators.Group.List
import Mathlib.Algebra.Ring.Nat
import Mathlib.Data.List.GetD

/-!
# Rows of a pane

Where a pane's lines are follows from the heights of the segments before them. Behind the last point
that is at a line, no blank row comes before it.
-/

namespace Ned.Text

variable {rows : PaneRows} {panes : List PaneRows} {start stop point : SyncPoint}
  {points behind : List SyncPoint} {height line k i : Nat} {pads : List Nat}

/-! ## One pane -/

namespace PaneRows

def above (line : Nat) (rows : PaneRows) : Nat :=
  rows.leading + (rows.rowsAfter.take line).sum + line

theorem getElem?_rowsFrom {row : Nat} (h : line ≤ pads.length) :
    (rowsFrom row pads)[line]? = some (row + (pads.take line).sum + line) := by
  induction pads generalizing row line with
  | nil =>
      obtain rfl := Nat.le_zero.1 h
      simp [rowsFrom]
  | cons pad pads ih =>
      cases line with
      | zero => simp [rowsFrom]
      | succ line =>
          rw [rowsFrom, List.getElem?_cons_succ, ih (Nat.le_of_succ_le_succ h)]
          simp only [List.take_succ_cons, List.sum_cons]
          congr 1
          omega

theorem length_rowsFrom {row : Nat} : (rowsFrom row pads).length = pads.length + 1 := by
  induction pads generalizing row with
  | nil => rfl
  | cons pad pads ih => rw [rowsFrom, List.length_cons, ih, List.length_cons]

theorem pairwise_rowsFrom {row : Nat} : (rowsFrom row pads).Pairwise (· < ·) ∧
    ∀ r ∈ rowsFrom row pads, row ≤ r := by
  induction pads generalizing row with
  | nil => simp [rowsFrom]
  | cons pad pads ih =>
      obtain ⟨hpairwise, hle⟩ := @ih (row + 1 + pad)
      rw [rowsFrom]
      refine ⟨.cons (fun r hr => ?_) hpairwise, fun r hr => ?_⟩
      · have := hle r hr
        omega
      · rcases List.mem_cons.1 hr with rfl | hr
        · exact Nat.le_refl _
        · have := hle r hr
          omega

theorem sum_take_modify {p : Nat} (h : i < pads.length) :
    ((pads.modify i (· + p)).take line).sum = (pads.take line).sum + if i < line then p else 0 := by
  induction pads generalizing i line with
  | nil => exact absurd h (Nat.not_lt_zero _)
  | cons pad pads ih =>
      cases line with
      | zero => simp
      | succ line =>
          cases i with
          | zero => simp; omega
          | succ i =>
              have hrest := @ih line i (Nat.lt_of_succ_lt_succ h)
              simp only [List.modify_succ_cons, List.take_succ_cons, List.sum_cons, hrest,
                Nat.succ_lt_succ_iff]
              omega

theorem length_pad {a b : Nat} : (rows.pad height a b).rowsAfter.length = rows.rowsAfter.length := by
  simp only [pad]
  split
  · rfl
  · split
    · rfl
    · simp

theorem above_pad {a b : Nat} (h : b ≤ rows.rowsAfter.length) :
    (rows.pad height a b).above line = rows.above line + if b ≤ line then height - (b - a) else 0 := by
  simp only [pad]
  split
  · rename_i hzero
    rw [hzero, ite_self, Nat.add_zero]
  · split
    · rename_i hstop
      rw [hstop, if_pos (Nat.zero_le _)]
      simp only [above]
      omega
    · have hmodify := @sum_take_modify line (b - 1) rows.rowsAfter (height - (b - a)) (by omega)
      simp only [above, hmodify]
      by_cases hle : b ≤ line
      · rw [if_pos hle, if_pos (by omega)]
        omega
      · rw [if_neg hle, if_neg (by omega)]
        omega

def padPane (k : Nat) : List SyncPoint → PaneRows → PaneRows
  | start :: stop :: points, rows =>
      padPane k (stop :: points) (rows.pad (segmentHeight start stop) (start.getD k 0) (stop.getD k 0))
  | _, rows => rows

def padsAbove (k line : Nat) : List SyncPoint → Nat
  | start :: stop :: points =>
      (if stop.getD k 0 ≤ line then segmentHeight start stop - (stop.getD k 0 - start.getD k 0) else 0) +
        padsAbove k line (stop :: points)
  | _ => 0

theorem length_padPane : (padPane k points rows).rowsAfter.length = rows.rowsAfter.length := by
  fun_induction padPane k points rows with
  | case1 start stop points rows ih => rw [ih, length_pad]
  | case2 => rfl

theorem above_padPane (h : ∀ point ∈ points, point.getD k 0 ≤ rows.rowsAfter.length) :
    (padPane k points rows).above line = rows.above line + padsAbove k line points := by
  fun_induction padPane k points rows with
  | case1 start stop points rows ih =>
      have hstop : stop.getD k 0 ≤ rows.rowsAfter.length := h stop (by simp)
      rw [ih (fun point hpoint => by rw [length_pad]; exact h point (List.mem_cons_of_mem _ hpoint)),
        above_pad hstop, padsAbove, Nat.add_assoc]
  | case2 points rows hshort =>
      cases points with
      | nil => rfl
      | cons start points =>
          cases points with
          | nil => rfl
          | cons stop points => exact absurd rfl (hshort _ _ _)

end PaneRows

theorem getElem?_padSegments : (padSegments points panes)[k]? =
    panes[k]?.map (PaneRows.padPane k points) := by
  fun_induction padSegments points panes with
  | case1 start stop points panes ih =>
      rw [ih, padSegment, List.getElem?_mapIdx, Option.map_map]
      rfl
  | case2 points panes hshort =>
      have hpane : PaneRows.padPane k points = id := by
        funext rows
        cases points with
        | nil => rfl
        | cons start points =>
            cases points with
            | nil => rfl
            | cons stop points => exact absurd rfl (hshort _ _ _)
      rw [hpane, Option.map_id]
      rfl

/-! ## Heights -/

theorem le_foldl_max {xs : List Nat} (init : Nat) :
    init ≤ xs.foldl max init ∧ ∀ x ∈ xs, x ≤ xs.foldl max init := by
  induction xs generalizing init with
  | nil => simp
  | cons x xs ih =>
      obtain ⟨hinit, hmem⟩ := ih (max init x)
      refine ⟨Nat.le_trans (Nat.le_max_left _ _) hinit, fun y hy => ?_⟩
      rcases List.mem_cons.1 hy with rfl | hy
      · exact Nat.le_trans (Nat.le_max_right _ _) hinit
      · exact hmem y hy

theorem le_segmentHeight (hlength : start.length = stop.length) :
    stop.getD k 0 - start.getD k 0 ≤ segmentHeight start stop := by
  by_cases hk : k < stop.length
  · apply (le_foldl_max 0).2
    rw [List.getD_eq_getElem _ _ hk, List.getD_eq_getElem _ _ (hlength ▸ hk)]
    exact List.mem_iff_getElem.2 ⟨k, by simp [hk, hlength], List.getElem_zipWith⟩
  · rw [List.getD_eq_default _ _ (Nat.le_of_not_lt hk), Nat.zero_sub]
    exact Nat.zero_le _

def heights : List SyncPoint → Nat
  | start :: stop :: points => segmentHeight start stop + heights (stop :: points)
  | _ => 0

/-- Points of one shape, whose lines only go up. -/
structure Ascending (width : Nat) (points : List SyncPoint) : Prop where
  width : ∀ point ∈ points, point.length = width
  order : points.Pairwise fun point next => ∀ k, point.getD k 0 ≤ next.getD k 0

theorem Ascending.of_cons {width : Nat} (h : Ascending width (point :: points)) : Ascending width points :=
  ⟨fun p hp => h.width p (List.mem_cons_of_mem _ hp), (List.pairwise_cons.1 h.order).2⟩

namespace PaneRows

theorem padsAbove_zero (h : ∀ point ∈ behind, line < point.getD k 0) :
    padsAbove k line (point :: behind) = 0 := by
  induction behind generalizing point with
  | nil => rfl
  | cons next behind ih =>
      rw [padsAbove, if_neg (Nat.not_le.2 (h next List.mem_cons_self)), Nat.zero_add]
      exact ih fun p hp => h p (List.mem_cons_of_mem _ hp)

theorem padsAbove_eq {width : Nat} (hpoints : Ascending width (points ++ point :: behind))
    (hbehind : ∀ next ∈ behind, point.getD k 0 < next.getD k 0) :
    padsAbove k (point.getD k 0) (points ++ point :: behind) + point.getD k 0 =
      heights (points ++ [point]) + ((points ++ [point]).head (by simp)).getD k 0 := by
  induction points with
  | nil =>
      rw [List.nil_append, padsAbove_zero hbehind]
      rfl
  | cons start points ih =>
      have hrest := ih hpoints.of_cons
      obtain ⟨stop, tail, htail⟩ : ∃ stop tail, points ++ point :: behind = stop :: tail := by
        cases points <;> exact ⟨_, _, rfl⟩
      obtain ⟨tail', htail'⟩ : ∃ tail', points ++ [point] = stop :: tail' := by
        cases points with
        | nil => cases htail; exact ⟨_, rfl⟩
        | cons next points => cases htail; exact ⟨_, rfl⟩
      have hmem : point = stop ∨ point ∈ tail := by
        have : point ∈ points ++ point :: behind := by simp
        rw [htail] at this
        exact List.mem_cons.1 this
      simp only [List.cons_append, htail, htail', List.head_cons] at hpoints hrest ⊢
      have hstart : ∀ k, start.getD k 0 ≤ stop.getD k 0 :=
        (List.pairwise_cons.1 hpoints.order).1 stop List.mem_cons_self
      have hstop : stop.getD k 0 ≤ point.getD k 0 := by
        rcases hmem with rfl | hmem
        · exact Nat.le_refl _
        · exact (List.pairwise_cons.1 (List.pairwise_cons.1 hpoints.order).2).1 point hmem k
      have hheight := @le_segmentHeight start stop k (by
        rw [hpoints.width start (by simp), hpoints.width stop (by simp)])
      rw [padsAbove, heights, if_pos hstop]
      have := hstart k
      omega

end PaneRows

/-! ## Scrolling -/

namespace PaneAlignment

variable {pane : PaneAlignment} {row : Nat}

theorem length_rowOfLine (pane : PaneAlignment) : pane.rowOfLine.length = pane.lineCount + 1 := by
  have := List.length_pos_iff.2 pane.nonempty
  rw [lineCount]
  omega

theorem alignedRow_eq (h : line ≤ pane.lineCount) : pane.rowOfLine[line]? = some (pane.alignedRow line) := by
  have hlength := pane.length_rowOfLine
  rw [alignedRow, Nat.min_eq_left h, List.getD_eq_getElem _ _ (by omega), List.getElem?_eq_getElem]

theorem alignedRow_zero (pane : PaneAlignment) : pane.alignedRow 0 = pane.leadingRows := by
  have h := pane.alignedRow_eq (Nat.zero_le _)
  rw [leadingRows, List.head_eq_getElem]
  rw [List.getElem?_eq_getElem (by rw [pane.length_rowOfLine]; omega)] at h
  exact (Option.some.inj h).symm

theorem alignedRow_lt (hsorted : pane.rowOfLine.Pairwise (· < ·)) {line next : Nat} (hlt : line < next)
    (hnext : next ≤ pane.lineCount) : pane.alignedRow line < pane.alignedRow next := by
  have hlength := pane.length_rowOfLine
  have hline := List.getElem?_eq_some_iff.1 (pane.alignedRow_eq (Nat.le_trans (Nat.le_of_lt hlt) hnext))
  have hafter := List.getElem?_eq_some_iff.1 (pane.alignedRow_eq hnext)
  obtain ⟨h, hline⟩ := hline
  obtain ⟨h', hafter⟩ := hafter
  rw [← hline, ← hafter]
  exact List.pairwise_iff_getElem.1 hsorted line next h h' hlt

theorem takeWhile_spec {p : Nat → Bool} {xs : List Nat} :
    (∀ i x, i < (xs.takeWhile p).length → xs[i]? = some x → p x = true) ∧
      ∀ x, xs[(xs.takeWhile p).length]? = some x → p x = false := by
  induction xs with
  | nil => simp
  | cons y xs ih =>
      rw [List.takeWhile_cons]
      cases hp : p y with
      | false =>
          simp only [Bool.false_eq_true, if_false, List.length_nil, Nat.not_lt_zero, false_implies,
            implies_true, List.getElem?_cons_zero, Option.some.injEq, true_and]
          rintro x rfl
          exact hp
      | true =>
          simp only [if_true, List.length_cons]
          refine ⟨fun i x hi hx => ?_, fun x hx => ih.2 x hx⟩
          cases i with
          | zero =>
              cases hx
              exact hp
          | succ i => exact ih.1 i x (Nat.lt_of_succ_lt_succ hi) hx

theorem lineAtAlignedRow_spec (hlines : 0 < pane.lineCount) (hrow : pane.leadingRows ≤ row) :
    pane.lineAtAlignedRow row < pane.lineCount ∧ pane.alignedRow (pane.lineAtAlignedRow row) ≤ row ∧
      (pane.lineAtAlignedRow row + 1 < pane.lineCount →
        row < pane.alignedRow (pane.lineAtAlignedRow row + 1)) := by
  obtain ⟨hbefore, hafter⟩ := @takeWhile_spec (fun r => decide (r ≤ row))
    (pane.rowOfLine.take pane.lineCount)
  have hread : ∀ line < pane.lineCount,
      (pane.rowOfLine.take pane.lineCount)[line]? = some (pane.alignedRow line) := by
    intro line hline
    rw [List.getElem?_take_of_lt hline, pane.alignedRow_eq (Nat.le_of_lt hline)]
  have hle : ((pane.rowOfLine.take pane.lineCount).takeWhile fun r => decide (r ≤ row)).length ≤
      pane.lineCount := by
    have hbegins := (List.takeWhile_prefix (fun r => decide (r ≤ row))
      (l := pane.rowOfLine.take pane.lineCount)).length_le
    rw [List.length_take] at hbegins
    omega
  have hpos : 0 < ((pane.rowOfLine.take pane.lineCount).takeWhile fun r => decide (r ≤ row)).length := by
    by_contra hzero
    have hfirst := hafter (pane.alignedRow 0)
      (by rw [Nat.eq_zero_of_not_pos hzero]; exact hread 0 hlines)
    rw [alignedRow_zero] at hfirst
    exact absurd hrow (of_decide_eq_false hfirst)
  simp only [lineAtAlignedRow]
  refine ⟨by omega, ?_, fun hnext => ?_⟩
  · exact of_decide_eq_true (hbefore _ _ (Nat.sub_lt hpos Nat.one_pos) (hread _ (by omega)))
  · rw [Nat.sub_add_cancel hpos] at hnext ⊢
    exact Nat.lt_of_not_le (of_decide_eq_false (hafter _ (hread _ hnext)))

theorem rowAtTop_topForRow (hlines : 0 < pane.lineCount)
    (hrow : pane.leadingRows < row) (hlast : row ≤ pane.alignedRow (pane.lineCount - 1)) :
    pane.rowAtTop (pane.topForRow row) = row := by
  obtain ⟨hlt, hle, hnext⟩ := lineAtAlignedRow_spec hlines (Nat.le_of_lt hrow)
  rw [topForRow, if_neg (Nat.pos_iff_ne_zero.1 hlines)]
  by_cases hat : pane.alignedRow (pane.lineAtAlignedRow row) ≥ row
  · have hne : pane.lineAtAlignedRow row ≠ 0 := by
      intro hzero
      rw [hzero, alignedRow_zero] at hat
      exact absurd hrow (Nat.not_lt.2 hat)
    simp only [if_pos hat, rowAtTop, if_neg hne]
    rw [if_pos (Nat.lt_of_lt_of_le (Nat.zero_lt_of_lt hrow) hat)]
    exact Nat.le_antisymm hle hat
  · have hmore : pane.lineAtAlignedRow row + 1 < pane.lineCount := by
      by_contra hend
      have hline : pane.lineAtAlignedRow row = pane.lineCount - 1 := by omega
      rw [hline] at hat
      exact hat hlast
    have hafter := hnext hmore
    simp only [if_neg hat, if_pos hmore, rowAtTop, Nat.succ_ne_zero, if_false]
    rw [if_pos (by omega)]
    omega

theorem rowAtTop_top (hsorted : pane.rowOfLine.Pairwise (· < ·)) (hrow : row ≤ pane.leadingRows) :
    pane.rowAtTop (pane.topForRow row) = 0 := by
  have htop : pane.rowAtTop {} = 0 := by
    simp [rowAtTop, alignedRow_zero]
  by_cases hlines : pane.lineCount = 0
  · rw [topForRow, if_pos hlines, htop]
  · have hzero : pane.lineAtAlignedRow row = 0 := by
      by_contra hline
      have hbefore := (@takeWhile_spec (fun r => decide (r ≤ row))
        (pane.rowOfLine.take pane.lineCount)).1
      have hlength := (List.takeWhile_prefix (fun r => decide (r ≤ row))
        (l := pane.rowOfLine.take pane.lineCount)).length_le
      rw [List.length_take] at hlength
      simp only [lineAtAlignedRow] at hline
      have hmany : 1 < pane.lineCount := by omega
      have hsecond : (pane.rowOfLine.take pane.lineCount)[1]? = some (pane.alignedRow 1) := by
        rw [List.getElem?_take_of_lt hmany, pane.alignedRow_eq (Nat.le_of_lt hmany)]
      have hle := of_decide_eq_true (hbefore 1 _ (by omega) hsecond)
      have hlt := alignedRow_lt hsorted Nat.zero_lt_one (Nat.le_of_lt hmany)
      rw [alignedRow_zero] at hlt
      omega
    rw [topForRow, if_neg hlines, hzero]
    simp only [alignedRow_zero, if_pos hrow]
    exact htop

end PaneAlignment

end Ned.Text
