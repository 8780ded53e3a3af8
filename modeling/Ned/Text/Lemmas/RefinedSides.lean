import Ned.Text.Lemmas.MergeSides

/-!
# Sides whose text is known

The changes of a side against the merged text and those of its text against the one from the markers,
joined where they touch. What they add to either text says where a line between them is.
-/

namespace Ned.Text

open Ned.Library

/-- Chunks that follow each other in both texts, from these lines to those. -/
def TilesTo : List AlignedChunk → Nat → Nat → Nat → Nat → Prop
  | [], m, s, m', s' => m = m' ∧ s = s'
  | chunk :: chunks, m, s, m', s' =>
      chunk.mergedLine = m ∧ chunk.sideLine = s ∧ (chunk.changed = false → chunk.mergedCount = chunk.sideCount) ∧
        TilesTo chunks (m + chunk.mergedCount) (s + chunk.sideCount) m' s'

namespace ChangedRegion

/-- What the pieces before a line add. -/
def shift (extra : ChangedRegion → Int) (pieces : List ChangedRegion) (i : Nat) : Int :=
  (pieces.map fun piece => if piece.last ≤ i then extra piece else 0).sum

/-- No piece takes away more lines than it has, and those that take some away do not overlap. -/
structure Spare (extra : ChangedRegion → Int) (pieces : List ChangedRegion) : Prop where
  fits : ∀ piece ∈ pieces, (piece.first : Int) - piece.last ≤ extra piece
  apart : pieces.Pairwise fun piece next => extra piece < 0 → extra next < 0 → piece.last ≤ next.first

structure Sorted (pieces : List ChangedRegion) : Prop where
  order : pieces.Pairwise fun piece next => piece.first ≤ next.first
  fits : ∀ piece ∈ pieces, piece.first ≤ piece.last
  merged : Spare mergedExtra pieces
  side : Spare sideExtra pieces

/-- A region is its pieces, joined. -/
structure Joins (region : ChangedRegion) (pieces : List ChangedRegion) : Prop where
  order : region.first ≤ region.last
  within : ∀ piece ∈ pieces, region.first ≤ piece.first ∧ piece.last ≤ region.last
  merged : region.mergedExtra = (pieces.map mergedExtra).sum
  side : region.sideExtra = (pieces.map sideExtra).sum

variable {extra : ChangedRegion → Int} {pieces done rest : List ChangedRegion} {region piece : ChangedRegion}
  {first last i : Nat}

theorem Spare.of_cons (h : Spare extra (piece :: pieces)) : Spare extra pieces :=
  ⟨fun p hp => h.fits p (List.mem_cons_of_mem _ hp), (List.pairwise_cons.1 h.apart).2⟩

theorem Spare.sublist (h : Spare extra pieces) (hsub : rest.Sublist pieces) : Spare extra rest :=
  ⟨fun p hp => h.fits p (hsub.subset hp), h.apart.sublist hsub⟩

theorem Spare.sum_ge (h : Spare extra pieces) (hfirst : ∀ p ∈ pieces, extra p < 0 → first ≤ p.first)
    (hlast : ∀ p ∈ pieces, p.last ≤ last) (hle : first ≤ last) :
    (first : Int) - last ≤ (pieces.map extra).sum := by
  induction pieces generalizing first with
  | nil => simp only [List.map_nil, List.sum_nil]; omega
  | cons piece pieces ih =>
      rw [List.map_cons, List.sum_cons]
      have hrest := h.of_cons
      have hpiece := h.fits piece List.mem_cons_self
      have hend := hlast piece List.mem_cons_self
      by_cases hneg : extra piece < 0
      · have hstart := hfirst piece List.mem_cons_self hneg
        have hsum := @ih piece.last hrest
          (fun p hp hp' => (List.pairwise_cons.1 h.apart).1 p hp hneg hp')
          (fun p hp => hlast p (List.mem_cons_of_mem _ hp)) hend
        omega
      · have hsum := ih hrest (fun p hp => hfirst p (List.mem_cons_of_mem _ hp))
          (fun p hp => hlast p (List.mem_cons_of_mem _ hp)) hle
        omega

theorem Joins.single (h : piece.first ≤ piece.last) : piece.Joins [piece] := by
  refine ⟨h, fun p hp => ?_, by simp, by simp⟩
  cases List.mem_singleton.1 hp
  exact ⟨Nat.le_refl _, Nat.le_refl _⟩

theorem Joins.join (h : region.Joins pieces) (hfirst : region.first ≤ piece.first) :
    (region.join piece).Joins (pieces ++ [piece]) := by
  constructor
  · exact Nat.le_trans h.order (Nat.le_max_left _ _)
  · intro p hp
    rcases List.mem_append.1 hp with hp | hp
    · exact ⟨(h.within p hp).1, Nat.le_trans (h.within p hp).2 (Nat.le_max_left _ _)⟩
    · cases List.mem_singleton.1 hp
      exact ⟨hfirst, Nat.le_max_right _ _⟩
  · simp [ChangedRegion.join, h.merged]
  · simp [ChangedRegion.join, h.side]

theorem shift_eq (hdone : ∀ p ∈ done, p.last ≤ i) (hrest : ∀ p ∈ rest, i < p.last) :
    shift extra (done ++ rest) i = (done.map extra).sum := by
  have hafter : (rest.map fun p => if p.last ≤ i then extra p else 0).sum = 0 := by
    apply List.sum_eq_zero
    intro x hx
    obtain ⟨p, hp, rfl⟩ := List.mem_map.1 hx
    rw [if_neg (Nat.not_le.2 (hrest p hp))]
  have hbefore : done.map (fun p => if p.last ≤ i then extra p else 0) = done.map extra :=
    List.map_congr_left fun p hp => if_pos (hdone p hp)
  rw [shift, List.map_append, List.sum_append, hafter, hbefore, Int.add_zero]

end ChangedRegion

open ChangedRegion

/-- Each line of an unchanged chunk belongs to a line of the text from the markers that no piece has. -/
def PairedBy (pieces : List ChangedRegion) (lineCount : Nat) (chunk : AlignedChunk) : Prop :=
  ∀ j < chunk.mergedCount, ∃ i < lineCount, (∀ piece ∈ pieces, ¬(piece.first ≤ i ∧ i < piece.last)) ∧
    ((chunk.mergedLine + j : Nat) : Int) = i + shift mergedExtra pieces i ∧
    ((chunk.sideLine + j : Nat) : Int) = i + shift sideExtra pieces i

theorem TilesTo.append {chunks : List AlignedChunk} {m s m' s' : Nat} {chunk : AlignedChunk}
    (h : TilesTo chunks m s m' s') (hmerged : chunk.mergedLine = m') (hside : chunk.sideLine = s')
    (hcount : chunk.changed = false → chunk.mergedCount = chunk.sideCount) :
    TilesTo (chunks ++ [chunk]) m s (m' + chunk.mergedCount) (s' + chunk.sideCount) := by
  induction chunks generalizing m s with
  | nil =>
      obtain ⟨rfl, rfl⟩ := h
      exact ⟨hmerged, hside, hcount, rfl, rfl⟩
  | cons head chunks ih => exact ⟨h.1, h.2.1, h.2.2.1, ih h.2.2.2⟩

namespace RefineScan

/-- The scan has written the chunks up to a line, with these pieces before it. -/
structure Reached (pieces : List ChangedRegion) (lineCount : Nat) (done : List ChangedRegion)
    (scan : RefineScan) : Prop where
  merged : (scan.mergedLine : Int) = scan.markerLine + (done.map mergedExtra).sum
  side : (scan.sideLine : Int) = scan.markerLine + (done.map sideExtra).sum
  before : ∀ piece ∈ done, piece.last ≤ scan.markerLine
  tiles : TilesTo scan.chunks 0 0 scan.mergedLine scan.sideLine
  paired : ∀ chunk ∈ scan.chunks, chunk.changed = false → PairedBy pieces lineCount chunk

variable {pieces done rest group : List ChangedRegion} {lineCount stop : Nat} {scan : RefineScan}
  {region : ChangedRegion}

theorem Reached.unchanged (h : Reached (done ++ rest) lineCount done scan)
    (hsorted : Sorted (done ++ rest)) (hrest : ∀ piece ∈ rest, stop ≤ piece.first)
    (hle : scan.markerLine ≤ stop) (hstop : stop ≤ lineCount) :
    ∃ scan', scan.unchanged stop = some scan' ∧ Reached (done ++ rest) lineCount done scan' ∧
      scan'.markerLine = stop := by
  refine ⟨_, by simp only [RefineScan.unchanged, toCount_eq hle]; rfl, ?_, rfl⟩
  have hmerged := h.merged
  have hside := h.side
  constructor
  · simp only [Nat.cast_add]
    omega
  · simp only [Nat.cast_add]
    omega
  · exact fun piece hpiece => Nat.le_trans (h.before piece hpiece) hle
  · split
    · exact h.tiles.append rfl rfl fun _ => rfl
    · rename_i hnot
      have hzero : stop - scan.markerLine = 0 := Nat.eq_zero_of_not_pos hnot
      simpa only [hzero, Nat.add_zero] using h.tiles
  · intro chunk hchunk hunchanged
    have hnew : ∀ j < stop - scan.markerLine, ∃ i < lineCount,
        (∀ piece ∈ done ++ rest, ¬(piece.first ≤ i ∧ i < piece.last)) ∧
          ((scan.mergedLine + j : Nat) : Int) = i + shift mergedExtra (done ++ rest) i ∧
          ((scan.sideLine + j : Nat) : Int) = i + shift sideExtra (done ++ rest) i := by
      intro j hj
      have hdone : ∀ p ∈ done, p.last ≤ scan.markerLine + j := fun p hp =>
        Nat.le_trans (h.before p hp) (Nat.le_add_right _ _)
      have hafter : ∀ p ∈ rest, scan.markerLine + j < p.first := fun p hp =>
        Nat.lt_of_lt_of_le (by omega) (hrest p hp)
      have hlast : ∀ p ∈ rest, scan.markerLine + j < p.last := fun p hp =>
        Nat.lt_of_lt_of_le (hafter p hp) (hsorted.fits p (List.mem_append_right _ hp))
      refine ⟨scan.markerLine + j, by omega, ?_, ?_, ?_⟩
      · intro piece hpiece
        rcases List.mem_append.1 hpiece with hpiece | hpiece
        · have := hdone piece hpiece
          omega
        · have := hafter piece hpiece
          omega
      · rw [shift_eq hdone hlast]
        omega
      · rw [shift_eq hdone hlast]
        omega
    simp only at hchunk
    split at hchunk
    · rcases List.mem_append.1 hchunk with hchunk | hchunk
      · exact h.paired chunk hchunk hunchanged
      · cases List.mem_singleton.1 hchunk
        exact hnew
    · exact h.paired chunk hchunk hunchanged

theorem Reached.appendRegion (h : Reached (done ++ (group ++ rest)) lineCount done scan)
    (hsorted : Sorted (done ++ (group ++ rest))) (hjoins : region.Joins group)
    (hrest : ∀ piece ∈ rest, region.first ≤ piece.first) (hle : scan.markerLine ≤ region.first)
    (hlast : region.last ≤ lineCount) :
    ∃ scan', scan.region region = some scan' ∧
      Reached (done ++ (group ++ rest)) lineCount (done ++ group) scan' ∧
      scan'.markerLine = region.last := by
  obtain ⟨middle, hmiddle, hreached, hline⟩ := h.unchanged hsorted
    (fun piece hpiece => (List.mem_append.1 hpiece).elim (fun hp => (hjoins.within piece hp).1)
      (hrest piece)) hle (Nat.le_trans hjoins.order hlast)
  have hsub : group.Sublist (done ++ (group ++ rest)) :=
    (List.sublist_append_left _ _).trans (List.sublist_append_right _ _)
  have hmerged := (hsorted.merged.sublist hsub).sum_ge (fun p hp _ => (hjoins.within p hp).1)
    (fun p hp => (hjoins.within p hp).2) hjoins.order
  have hside := (hsorted.side.sublist hsub).sum_ge (fun p hp _ => (hjoins.within p hp).1)
    (fun p hp => (hjoins.within p hp).2) hjoins.order
  have horder := hjoins.order
  have hspan : toCount ((region.last : Int) - region.first) = some (region.last - region.first) :=
    toCount_eq hjoins.order
  have hmergedCount : toCount ((region.last - region.first : Nat) + region.mergedExtra) =
      some ((region.last - region.first : Nat) + region.mergedExtra).toNat := by
    rw [toCount, if_pos]
    rw [hjoins.merged]
    omega
  have hsideCount : toCount ((region.last - region.first : Nat) + region.sideExtra) =
      some ((region.last - region.first : Nat) + region.sideExtra).toNat := by
    rw [toCount, if_pos]
    rw [hjoins.side]
    omega
  refine ⟨_, by simp only [RefineScan.region, hmiddle, hspan, hmergedCount, hsideCount,
    Option.bind_eq_bind, Option.bind_some]; rfl, ?_, rfl⟩
  have hmergedLine := hreached.merged
  have hsideLine := hreached.side
  have hregionMerged := hjoins.merged
  have hregionSide := hjoins.side
  constructor
  · simp only [Nat.cast_add, List.map_append, List.sum_append]
    omega
  · simp only [Nat.cast_add, List.map_append, List.sum_append]
    omega
  · intro piece hpiece
    rcases List.mem_append.1 hpiece with hpiece | hpiece
    · have := hreached.before piece hpiece
      simp only
      omega
    · exact (hjoins.within piece hpiece).2
  · exact hreached.tiles.append rfl rfl fun h => by cases h
  · intro chunk hchunk hunchanged
    rcases List.mem_append.1 hchunk with hchunk | hchunk
    · exact hreached.paired chunk hchunk hunchanged
    · cases List.mem_singleton.1 hchunk
      cases hunchanged

theorem Reached.joinFrom (h : Reached (done ++ (group ++ rest)) lineCount done scan)
    (hsorted : Sorted (done ++ (group ++ rest))) (hjoins : region.Joins group)
    (hrest : ∀ piece ∈ rest, region.first ≤ piece.first) (hle : scan.markerLine ≤ region.first)
    (hlast : region.last ≤ lineCount) (hwithin : ∀ piece ∈ rest, piece.last ≤ lineCount) :
    ∃ scan', RefineScan.regions (ChangedRegion.joinFrom region rest) scan = some scan' ∧
      Reached (done ++ (group ++ rest)) lineCount (done ++ (group ++ rest)) scan' ∧
      scan'.markerLine ≤ lineCount := by
  induction rest generalizing done group scan region with
  | nil =>
      obtain ⟨scan', hscan, hreached, hline⟩ := h.appendRegion hsorted hjoins hrest hle hlast
      refine ⟨scan', by simp [ChangedRegion.joinFrom, RefineScan.regions, hscan], ?_, hline ▸ hlast⟩
      rw [List.append_nil] at hreached ⊢
      exact hreached
  | cons piece rest ih =>
      have hpieceFits := hsorted.fits piece (by simp)
      have hpieceLast := hwithin piece List.mem_cons_self
      have hnext : ∀ p ∈ rest, piece.first ≤ p.first := by
        have hsub : (piece :: rest).Sublist (done ++ (group ++ piece :: rest)) :=
          (List.sublist_append_right _ _).trans (List.sublist_append_right _ _)
        exact (List.pairwise_cons.1 (hsorted.order.sublist hsub)).1
      have hpiece := hrest piece List.mem_cons_self
      have hrest' : ∀ p ∈ rest, p.last ≤ lineCount := fun p hp => hwithin p (List.mem_cons_of_mem _ hp)
      rw [ChangedRegion.joinFrom]
      split
      · have hall : group ++ piece :: rest = group ++ [piece] ++ rest := by simp
        rw [hall] at h hsorted ⊢
        exact ih h hsorted (hjoins.join hpiece) (fun p hp => Nat.le_trans hpiece (hnext p hp)) hle
          (Nat.max_le.2 ⟨hlast, hpieceLast⟩) hrest'
      · rename_i hapart
        obtain ⟨scan₁, hscan₁, hreached, hline⟩ := h.appendRegion hsorted hjoins hrest hle hlast
        have hall : done ++ (group ++ piece :: rest) = (done ++ group) ++ ([piece] ++ rest) := by simp
        rw [hall] at hreached hsorted ⊢
        obtain ⟨scan₂, hscan₂, h₂⟩ := ih hreached hsorted (Joins.single hpieceFits) hnext
          (by omega) hpieceLast hrest'
        exact ⟨scan₂, by rw [RefineScan.regions, hscan₁]; exact hscan₂, h₂⟩

theorem regions_spec (hsorted : Sorted pieces) (hwithin : ∀ piece ∈ pieces, piece.last ≤ lineCount) :
    ∃ scan, ((RefineScan.regions (ChangedRegion.joinAll pieces) {}).bind
        fun scan => scan.unchanged lineCount) = some scan ∧
      Reached pieces lineCount pieces scan ∧ scan.markerLine = lineCount := by
  have hstart : Reached pieces lineCount [] {} :=
    ⟨rfl, rfl, by simp, ⟨rfl, rfl⟩, by simp⟩
  have hmiddle : ∃ scan, RefineScan.regions (ChangedRegion.joinAll pieces) {} = some scan ∧
      Reached pieces lineCount pieces scan ∧ scan.markerLine ≤ lineCount := by
    cases pieces with
    | nil => exact ⟨{}, rfl, hstart, Nat.zero_le _⟩
    | cons piece pieces =>
        have hreached : Reached ([] ++ ([piece] ++ pieces)) lineCount [] {} := hstart
        exact hreached.joinFrom hsorted (Joins.single (hsorted.fits piece List.mem_cons_self))
          (List.pairwise_cons.1 hsorted.order).1 (Nat.zero_le _) (hwithin piece List.mem_cons_self)
          fun p hp => hwithin p (List.mem_cons_of_mem _ hp)
  obtain ⟨scan, hscan, hreached, hline⟩ := hmiddle
  have hempty : pieces ++ [] = pieces := List.append_nil pieces
  have hall : Reached (pieces ++ []) lineCount pieces scan := by rwa [hempty]
  obtain ⟨scan', hscan', hlast, hline'⟩ := hall.unchanged (hempty.symm ▸ hsorted) (by simp) hline
    (Nat.le_refl _)
  rw [hempty] at hlast
  exact ⟨scan', by rw [hscan]; exact hscan', hlast, hline'⟩

end RefineScan

/-! ## The pieces of a side -/

namespace ChangedRegion

def ofLeft (change : Change) : ChangedRegion :=
  { first := change.first, last := change.last, mergedExtra := change.extra }

def ofRight (change : Change) : ChangedRegion :=
  { first := change.first, last := change.last, sideExtra := change.extra }

variable {left right : List Change} {pieces : List ChangedRegion}

theorem spare_of_perm {extra : ChangedRegion → Int} {of : Change → ChangedRegion}
    {changes : List Change} {others : List ChangedRegion}
    (hof : ∀ change, (of change).first = change.first ∧ (of change).last = change.last ∧
      extra (of change) = change.extra)
    (hchanges : Change.Apart changes)
    (hothers : ∀ piece ∈ others, piece.first ≤ piece.last ∧ extra piece = 0)
    (hperm : pieces.Perm (changes.map of ++ others))
    (horder : pieces.Pairwise fun piece next => piece.first ≤ next.first) : Spare extra pieces := by
  constructor
  · intro piece hpiece
    rcases List.mem_append.1 (hperm.mem_iff.1 hpiece) with hpiece | hpiece
    · obtain ⟨change, hchange, rfl⟩ := List.mem_map.1 hpiece
      obtain ⟨hfirst, hlast, hextra⟩ := hof change
      rw [hfirst, hlast, hextra]
      exact (hchanges.fits change hchange).2
    · obtain ⟨hle, hzero⟩ := hothers piece hpiece
      rw [hzero]
      omega
  · have hfilter : (pieces.filter fun piece => decide (extra piece < 0)).Perm
        ((changes.map of).filter fun piece => decide (extra piece < 0)) := by
      have hnone : others.filter (fun piece => decide (extra piece < 0)) = [] := by
        apply List.filter_eq_nil_iff.2
        intro piece hpiece
        rw [(hothers piece hpiece).2]
        simp
      have h := hperm.filter fun piece => decide (extra piece < 0)
      rwa [List.filter_append, hnone, List.append_nil] at h
    have hapart : (changes.map of).Pairwise fun piece next => piece.last ≤ next.first := by
      apply List.pairwise_map.2 (hchanges.order.imp _)
      intro change next h
      rw [(hof change).2.1, (hof next).1]
      exact h
    have hshrinks : ∀ piece ∈ (changes.map of).filter (fun piece => decide (extra piece < 0)),
        piece.first < piece.last := by
      intro piece hpiece
      obtain ⟨hmem, hneg⟩ := List.mem_filter.1 hpiece
      obtain ⟨change, hchange, rfl⟩ := List.mem_map.1 hmem
      obtain ⟨hfirst, hlast, hextra⟩ := hof change
      have hfits := (hchanges.fits change hchange).2
      have hneg := of_decide_eq_true hneg
      omega
    have hfiltered := hapart.filter fun piece => decide (extra piece < 0)
    have heq := KeySort.eq_of_perm ChangedRegion.first hfilter (horder.filter _)
      (hfiltered.imp_of_mem fun hpiece _ hle => Nat.lt_of_lt_of_le (hshrinks _ hpiece) hle)
    rw [← heq] at hfiltered
    refine (List.pairwise_filter.1 hfiltered).imp fun h hpiece hnext => ?_
    exact h (decide_eq_true hpiece) (decide_eq_true hnext)

/-- The changes against the merged text and those against the side's text. -/
structure PiecesOf (pieces : List ChangedRegion) (left right : List Change) : Prop where
  perm : pieces.Perm (left.map ofLeft ++ right.map ofRight)
  order : pieces.Pairwise fun piece next => piece.first ≤ next.first
  left : Change.Apart left
  right : Change.Apart right

theorem PiecesOf.sorted (h : PiecesOf pieces left right) : Sorted pieces := by
  have hleft : ∀ piece ∈ left.map ofLeft, piece.first ≤ piece.last ∧ piece.sideExtra = 0 := by
    intro piece hpiece
    obtain ⟨change, hchange, rfl⟩ := List.mem_map.1 hpiece
    exact ⟨(h.left.fits change hchange).1, rfl⟩
  have hright : ∀ piece ∈ right.map ofRight, piece.first ≤ piece.last ∧ piece.mergedExtra = 0 := by
    intro piece hpiece
    obtain ⟨change, hchange, rfl⟩ := List.mem_map.1 hpiece
    exact ⟨(h.right.fits change hchange).1, rfl⟩
  constructor
  · exact h.order
  · intro piece hpiece
    rcases List.mem_append.1 (h.perm.mem_iff.1 hpiece) with hpiece | hpiece
    · exact (hleft piece hpiece).1
    · exact (hright piece hpiece).1
  · exact spare_of_perm (fun _ => ⟨rfl, rfl, rfl⟩) h.left hright h.perm h.order
  · exact spare_of_perm (fun _ => ⟨rfl, rfl, rfl⟩) h.right hleft
      (h.perm.trans List.perm_append_comm) h.order

theorem sum_of_perm {f : ChangedRegion → Int} {of other : Change → ChangedRegion}
    {changes others : List Change} (hother : ∀ change, f (other change) = 0)
    (hperm : pieces.Perm (changes.map of ++ others.map other)) :
    (pieces.map f).sum = (changes.map (f ∘ of)).sum := by
  have hzero : ((others.map other).map f).sum = 0 := by
    apply List.sum_eq_zero
    intro y hy
    rw [List.map_map] at hy
    obtain ⟨change, -, rfl⟩ := List.mem_map.1 hy
    exact hother change
  rw [(hperm.map f).sum_eq, List.map_append, List.sum_append, hzero, Int.add_zero, List.map_map]

theorem PiecesOf.shift_merged (h : PiecesOf pieces left right) (i : Nat) :
    shift mergedExtra pieces i = Change.shift left i :=
  sum_of_perm (fun _ => ite_self _) h.perm

theorem PiecesOf.shift_side (h : PiecesOf pieces left right) (i : Nat) :
    shift sideExtra pieces i = Change.shift right i :=
  sum_of_perm (fun _ => ite_self _) (h.perm.trans List.perm_append_comm)

theorem PiecesOf.sum_merged (h : PiecesOf pieces left right) :
    (pieces.map mergedExtra).sum = (left.map Change.extra).sum :=
  sum_of_perm (fun _ => rfl) h.perm

theorem PiecesOf.sum_side (h : PiecesOf pieces left right) :
    (pieces.map sideExtra).sum = (right.map Change.extra).sum :=
  sum_of_perm (fun _ => rfl) (h.perm.trans List.perm_append_comm)

end ChangedRegion

/-! ## The side -/

/-- The chunks of a side tile both texts, and unchanged ones pair equal lines. -/
structure Tiled (merged : Bytes) (side : MergeSide) : Prop where
  tiles : TilesTo side.chunks 0 0 (splitLines merged).length side.lineCount
  lineCount : side.lineCount = (splitLines side.text).length
  equal : ∀ chunk ∈ side.chunks, chunk.changed = false → ∀ j < chunk.mergedCount,
    (splitLines merged)[chunk.mergedLine + j]? = (splitLines side.text)[chunk.sideLine + j]?

variable {merged sideText : Bytes} {markers side : MergeSide} {blocks : List (Block Line)}

theorem tilesTo_chunksAt {m s : Nat} : TilesTo (chunksAt m s blocks) m s
    (m + (Block.lefts blocks).length) (s + (Block.rights blocks).length) := by
  induction blocks generalizing m s with
  | nil => exact ⟨rfl, rfl⟩
  | cons block blocks ih =>
      refine ⟨rfl, rfl, fun h => (Block.length_eq_of_unchanged h).symm, ?_⟩
      simpa [Nat.add_assoc] using @ih (m + block.left.length) (s + block.right.length)

theorem equal_of_mem_chunksAt {lefts rights : List Line} {chunk : AlignedChunk}
    (hmem : chunk ∈ chunksAt lefts.length rights.length blocks) (hunchanged : chunk.changed = false)
    {j : Nat} (hj : j < chunk.mergedCount) : (lefts ++ Block.lefts blocks)[chunk.mergedLine + j]? =
      (rights ++ Block.rights blocks)[chunk.sideLine + j]? := by
  induction blocks generalizing lefts rights with
  | nil => cases hmem
  | cons block blocks ih =>
      rcases List.mem_cons.1 hmem with rfl | hmem
      · simp only at hunchanged hj
        simp only [Block.lefts_cons, Block.rights_cons]
        rw [List.getElem?_append_right (Nat.le_add_right _ _),
          List.getElem?_append_right (Nat.le_add_right _ _), Nat.add_sub_cancel_left,
          Nat.add_sub_cancel_left, List.getElem?_append_left hj, ← block.same hunchanged,
          List.getElem?_append_left hj]
      · have h := @ih (lefts ++ block.left) (rights ++ block.right) (by simpa using hmem)
        simpa using h

theorem AlignedBy.tiled (h : AlignedBy merged side blocks) : Tiled merged side := by
  constructor
  · rw [h.chunks, h.mergedLines, h.lineCount]
    simpa using @tilesTo_chunksAt blocks 0 0
  · rw [h.lineCount, h.sideLines]
  · rw [h.chunks, h.mergedLines, h.sideLines]
    intro chunk hmem hunchanged j hj
    exact @equal_of_mem_chunksAt blocks [] [] chunk hmem hunchanged j hj

/-! ## The changes of either text -/

theorem ofChunk_chunksAt {m s : Nat} :
    ((chunksAt m s blocks).filter (·.changed)).map ChangedRegion.ofChunk =
      (Block.changesAt s (blocks.map Block.flip)).map ofLeft := by
  induction blocks generalizing m s with
  | nil => rfl
  | cons block blocks ih =>
      have hih := @ih (m + block.left.length) (s + block.right.length)
      simp only [chunksAt, List.map_cons, Block.changesAt, List.filter_cons]
      cases hchanged : block.changed with
      | false => simpa [Block.flip, hchanged] using hih
      | true => simpa [Block.flip, hchanged, ChangedRegion.ofChunk, ofLeft] using hih

def blocksOf (tail : List Line) : List (Segment Line) → List (Block Line)
  | [] => [keptBlock tail]
  | segment :: segments =>
      keptBlock segment.kept :: changedBlock segment.removed segment.added :: blocksOf tail segments

variable {tail : List Line} {segments : List (Segment Line)}

theorem lefts_blocksOf : Block.lefts (blocksOf tail segments) = Segment.before segments tail := by
  induction segments with
  | nil => simp [blocksOf, keptBlock, Segment.before]
  | cons segment segments ih => simp [blocksOf, keptBlock, changedBlock, ih]

theorem rights_blocksOf : Block.rights (blocksOf tail segments) = Segment.after segments tail := by
  induction segments with
  | nil => simp [blocksOf, keptBlock, Segment.after]
  | cons segment segments ih => simp [blocksOf, keptBlock, changedBlock, ih]

theorem ofHunk_hunksAt {i j : Nat} : (hunksAt i j segments).map ChangedRegion.ofHunk =
    (Block.changesAt i (blocksOf tail segments)).map ofRight := by
  induction segments generalizing i j with
  | nil => rfl
  | cons segment segments ih =>
      have hih := @ih (i + segment.kept.length + segment.removed.length)
        (j + segment.kept.length + segment.added.length)
      simpa [hunksAt, blocksOf, Block.changesAt, keptBlock, changedBlock, ChangedRegion.ofHunk,
        ofRight] using hih

theorem Change.Avoids.of_pieces {changes : List Change} {of : Change → ChangedRegion}
    {pieces : List ChangedRegion} {i : Nat} (hof : ∀ change, (of change).first = change.first ∧
      (of change).last = change.last) (hsub : ∀ change ∈ changes, of change ∈ pieces)
    (h : ∀ piece ∈ pieces, ¬(piece.first ≤ i ∧ i < piece.last)) : Change.Avoids changes i := by
  intro change hchange
  have hpiece := h _ (hsub change hchange)
  rwa [(hof change).1, (hof change).2] at hpiece

theorem AlignedBy.refine (h : AlignedBy merged markers blocks) (sideText : Bytes) :
    ∃ side, refineMergeSide markers sideText = some side ∧ Tiled merged side := by
  obtain ⟨hunks, hdiff, segments, tail, hbefore, hafter, rfl, -⟩ :=
    diffLines_scripted (splitLines markers.text) (splitLines sideText)
  have hpieces : PiecesOf (changedPieces markers.chunks (hunksAt 0 0 segments))
      (Block.changesAt 0 (blocks.map Block.flip)) (Block.changesAt 0 (blocksOf tail segments)) := by
    refine ⟨?_, KeySort.insertion.sorted _ _, Block.changesAt_apart, Block.changesAt_apart⟩
    rw [changedPieces, h.chunks, ofChunk_chunksAt, ofHunk_hunksAt]
    exact KeySort.insertion.perm _ _
  have hmarkers : markers.lineCount = (splitLines markers.text).length := by
    rw [h.lineCount, h.sideLines]
  have hleftLength : (Block.lefts (blocks.map Block.flip)).length = markers.lineCount := by
    rw [Block.lefts_flip, h.lineCount]
  have hrightLength : (Block.lefts (blocksOf tail segments)).length = markers.lineCount := by
    rw [lefts_blocksOf, ← hbefore, hmarkers]
  have hwithin : ∀ piece ∈ changedPieces markers.chunks (hunksAt 0 0 segments),
      piece.last ≤ markers.lineCount := by
    intro piece hpiece
    rcases List.mem_append.1 (hpieces.perm.mem_iff.1 hpiece) with hpiece | hpiece
    · obtain ⟨change, hchange, rfl⟩ := List.mem_map.1 hpiece
      have := (Block.changesAt_ge hchange).2.2
      rwa [hleftLength, Nat.zero_add] at this
    · obtain ⟨change, hchange, rfl⟩ := List.mem_map.1 hpiece
      have := (Block.changesAt_ge hchange).2.2
      rwa [hrightLength, Nat.zero_add] at this
  obtain ⟨scan, hscan, hreached, hline⟩ := RefineScan.regions_spec hpieces.sorted hwithin
  obtain ⟨middle, hregions, hunchanged⟩ := Option.bind_eq_some_iff.1 hscan
  have hmergedLine := hreached.merged
  have hsideLine := hreached.side
  rw [hline, hpieces.sum_merged, Block.sum_changesAt, hleftLength, Block.rights_flip,
    ← h.mergedLines] at hmergedLine
  rw [hline, hpieces.sum_side, Block.sum_changesAt, hrightLength, rights_blocksOf, ← hafter] at hsideLine
  refine ⟨_, by simp only [refineMergeSide, hdiff, hregions, hunchanged, Option.bind_eq_bind,
    Option.bind_some]; rfl, ?_⟩
  constructor
  · have htiles := hreached.tiles
    rw [show scan.mergedLine = (splitLines merged).length by omega,
      show scan.sideLine = (splitLines sideText).length by omega] at htiles
    exact htiles
  · rfl
  · intro chunk hchunk hchanged j hj
    obtain ⟨i, hi, havoids, hmerged, hside⟩ := hreached.paired chunk hchunk hchanged j hj
    have hleft : Change.Avoids (Block.changesAt 0 (blocks.map Block.flip)) (0 + i) := by
      rw [Nat.zero_add]
      exact @Change.Avoids.of_pieces _ ofLeft _ _ (fun _ => ⟨rfl, rfl⟩)
        (fun change hchange => hpieces.perm.mem_iff.2
          (List.mem_append_left _ (List.mem_map_of_mem hchange))) havoids
    have hright : Change.Avoids (Block.changesAt 0 (blocksOf tail segments)) (0 + i) := by
      rw [Nat.zero_add]
      exact @Change.Avoids.of_pieces _ ofRight _ _ (fun _ => ⟨rfl, rfl⟩)
        (fun change hchange => hpieces.perm.mem_iff.2
          (List.mem_append_right _ (List.mem_map_of_mem hchange))) havoids
    obtain ⟨k, hk, -, hkline⟩ := Block.right_of_left (hleftLength ▸ hi) hleft
    obtain ⟨l, hl, -, hlline⟩ := Block.right_of_left (hrightLength ▸ hi) hright
    rw [Nat.zero_add, ← hpieces.shift_merged] at hk
    rw [Nat.zero_add, ← hpieces.shift_side] at hl
    rw [show chunk.mergedLine + j = k by omega, show chunk.sideLine + j = l by omega]
    rw [Block.rights_flip, Block.lefts_flip, ← h.mergedLines, ← h.sideLines] at hkline
    rw [rights_blocksOf, lefts_blocksOf, ← hbefore, ← hafter] at hlline
    exact hkline.trans hlline.symm

end Ned.Text
