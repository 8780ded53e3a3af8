import Ned.Editor.Vcs.Lemmas.DiffPatch

/-!
# Mapping a line back through a diff

A line of the new side is sent to the line of the old side that it came from, or that the block it was
added by stands for, and later lines are not sent further to the front.
-/

namespace Ned.Editor.Vcs

open Text

/-- How a diff's new lines are to be mapped to old ones. -/
structure MapsBack (d : UnifiedDiff) (oldLineOf : Nat → Nat) : Prop where
  unchanged : ∀ before text after, d.rows = before ++ .unchanged text :: after →
    oldLineOf ((newSide before).length + 1) = (oldSide before).length + 1
  added : ∀ front text after, d.rows = front ++ .added text :: after →
    ∃ (before : List Row) (removed added : List LineText),
      front = before ++ (removed.map .removed ++ added.map .added) ∧
      Settled before ∧
      (removed = [] → oldLineOf ((newSide front).length + 1) = (oldSide front).length + 1) ∧
      (removed ≠ [] → ∃ k < removed.length,
        oldLineOf ((newSide front).length + 1) = (oldSide before).length + 1 + k)
  monotone : ∀ newLine newLine', newLine ≤ newLine' → oldLineOf newLine ≤ oldLineOf newLine'

section

variable {currentFile : Bytes} {oldBefore newBefore newLine newLine' : Nat} {hunk : Hunk}
  {hunks : List Hunk} {rest : List LineText}

/-! ## Three regimes -/

namespace DiffHunkText

variable {text : DiffHunkText} {texts : List DiffHunkText} {delta : Int}

/-- The line is above the hunk. -/
def Above (text : DiffHunkText) (newLine : Nat) : Prop :=
  if text.newCount = 0 then newLine ≤ text.newStart else newLine < text.newStart

theorem above_iff : (if text.newCount = 0 then decide (newLine ≤ text.newStart)
    else decide (newLine < text.newStart)) = true ↔ text.Above newLine := by
  unfold Above
  split <;> exact decide_eq_true_iff

theorem Above.mapThrough (h : text.Above newLine) :
    mapThrough newLine delta (text :: texts) = shifted newLine delta := by
  rw [Vcs.mapThrough]
  exact if_pos (above_iff.2 h)

theorem mapThrough_past (h : ¬text.Above newLine) (hpast : text.newStart + text.newCount ≤ newLine) :
    mapThrough newLine delta (text :: texts) =
      mapThrough newLine (delta + (text.oldCount - text.newCount)) texts := by
  rw [Vcs.mapThrough]
  exact (if_neg (mt above_iff.1 h)).trans (if_pos hpast)

theorem mapThrough_inside (h : ¬text.Above newLine) (hin : newLine < text.newStart + text.newCount) :
    mapThrough newLine delta (text :: texts) =
      (walkBody newLine (splitLines text.bodyText)
        { oldLine := if text.oldCount = 0 then text.oldStart + 1 else text.oldStart
          newCursor := text.newStart }).getD (shifted newLine delta) := by
  rw [Vcs.mapThrough]
  exact (if_neg (mt above_iff.1 h)).trans (if_neg (Nat.not_le.2 hin))

end DiffHunkText

section Read

variable (currentFile) (oldBefore newBefore) (hunk)

theorem Hunk.read_above_iff : (hunk.read currentFile oldBefore newBefore).Above newLine ↔
    newLine ≤ newBefore + hunk.gap.length := by
  unfold DiffHunkText.Above
  simp only [read, rangeOf]
  by_cases hzero : (newSide hunk.rows).length = 0
  · simp only [hzero, if_true]
  · simp only [hzero, if_false]
    exact Nat.lt_succ_iff

theorem Hunk.read_end (h : newBefore + hunk.gap.length < newLine) :
    (hunk.read currentFile oldBefore newBefore).newStart +
      (hunk.read currentFile oldBefore newBefore).newCount ≤ newLine ↔
        newBefore + hunk.gap.length + (newSide hunk.rows).length < newLine := by
  simp only [read, rangeOf]
  by_cases hzero : (newSide hunk.rows).length = 0
  · simp only [hzero, if_true]
    omega
  · simp only [hzero, if_false]
    omega

theorem Hunk.read_oldLine : (if (hunk.read currentFile oldBefore newBefore).oldCount = 0 then
      (hunk.read currentFile oldBefore newBefore).oldStart + 1
    else (hunk.read currentFile oldBefore newBefore).oldStart) = oldBefore + hunk.gap.length + 1 := by
  simp only [read, rangeOf]
  by_cases hzero : (oldSide hunk.rows).length = 0
  · simp only [hzero, if_true]
  · simp only [hzero, if_false]

end Read

theorem shifted_eq (h : newBefore < newLine) :
    shifted newLine ((oldBefore : Int) - newBefore) = oldBefore + (newLine - newBefore) := by
  have hpos : ¬((newLine : Int) + (oldBefore - newBefore) < 1) := by omega
  rw [shifted, if_neg hpos]
  omega

variable (currentFile) in
/-- What the hunks make of a line, after as many old and new lines. -/
def mapHunks (oldBefore newBefore : Nat) (hunks : List Hunk) (newLine : Nat) : Nat :=
  mapThrough newLine ((oldBefore : Int) - newBefore) (readHunks currentFile oldBefore newBefore hunks)

theorem mapHunks_nil (h : newBefore < newLine) :
    mapHunks currentFile oldBefore newBefore [] newLine = oldBefore + (newLine - newBefore) :=
  shifted_eq h

theorem mapHunks_above (hfrom : newBefore < newLine) (hto : newLine ≤ newBefore + hunk.gap.length) :
    mapHunks currentFile oldBefore newBefore (hunk :: hunks) newLine =
      oldBefore + (newLine - newBefore) :=
  (DiffHunkText.Above.mapThrough ((hunk.read_above_iff currentFile oldBefore newBefore).2 hto)).trans
    (shifted_eq hfrom)

/-- Where the walk over a hunk starts. -/
def Hunk.start (hunk : Hunk) (oldBefore newBefore : Nat) : Walk where
  oldLine := oldBefore + hunk.gap.length + 1
  newCursor := newBefore + hunk.gap.length + 1

theorem mapHunks_inside (hfrom : newBefore + hunk.gap.length < newLine)
    (hto : newLine ≤ newBefore + hunk.gap.length + (newSide hunk.rows).length) :
    walkRows newLine hunk.rows (hunk.start oldBefore newBefore) =
      some (mapHunks currentFile oldBefore newBefore (hunk :: hunks) newLine) := by
  have hsome : (newSide hunk.rows).length ≠ 0 := by omega
  obtain ⟨result, hresult⟩ := Option.isSome_iff_exists.1 <|
    @walkRows_isSome hunk.rows (hunk.start oldBefore newBefore) newLine hfrom
      (by simp only [Hunk.start]; omega)
  have habove : ¬(hunk.read currentFile oldBefore newBefore).Above newLine :=
    mt (hunk.read_above_iff currentFile oldBefore newBefore).1 (Nat.not_le.2 hfrom)
  have hin := mt (hunk.read_end currentFile oldBefore newBefore hfrom).1 (Nat.not_lt.2 hto)
  have hstart : (hunk.read currentFile oldBefore newBefore).newStart =
      newBefore + hunk.gap.length + 1 := if_neg hsome
  have hbody : (hunk.read currentFile oldBefore newBefore).bodyText =
      (hunk.body.map (·.render)).flatten := rfl
  rw [hresult, mapHunks, readHunks, DiffHunkText.mapThrough_inside habove (Nat.not_le.1 hin),
    Hunk.read_oldLine, hstart, hbody, splitLines_body, walkBody_render]
  exact (congrArg (fun found => some (Option.getD found _)) hresult).symm

theorem mapHunks_past
    (h : newBefore + hunk.gap.length + (newSide hunk.rows).length < newLine) :
    mapHunks currentFile oldBefore newBefore (hunk :: hunks) newLine =
      mapHunks currentFile (oldBefore + hunk.gap.length + (oldSide hunk.rows).length)
        (newBefore + hunk.gap.length + (newSide hunk.rows).length) hunks newLine := by
  have hbelow : newBefore + hunk.gap.length < newLine := Nat.lt_of_le_of_lt (Nat.le_add_right _ _) h
  have habove : ¬(hunk.read currentFile oldBefore newBefore).Above newLine :=
    mt (hunk.read_above_iff currentFile oldBefore newBefore).1 (Nat.not_le.2 hbelow)
  have hpast := (hunk.read_end currentFile oldBefore newBefore hbelow).2 h
  have hdelta : (oldBefore : Int) - newBefore +
      ((oldSide hunk.rows).length - (newSide hunk.rows).length) =
        ((oldBefore + hunk.gap.length + (oldSide hunk.rows).length : Nat) : Int) -
          (newBefore + hunk.gap.length + (newSide hunk.rows).length : Nat) := by
    omega
  rw [mapHunks, readHunks, DiffHunkText.mapThrough_past habove hpast, mapHunks, ← hdelta]
  rfl

/-! ## Order -/

theorem Hunk.start_settled (hunk : Hunk) (oldBefore newBefore : Nat) :
    (hunk.start oldBefore newBefore).Settled := ⟨rfl, rfl⟩

/-- A line inside a hunk is sent to one of its old lines, or to the one after it. -/
theorem mapHunks_bounds (hfrom : newBefore + hunk.gap.length < newLine)
    (hto : newLine ≤ newBefore + hunk.gap.length + (newSide hunk.rows).length) :
    oldBefore + hunk.gap.length < mapHunks currentFile oldBefore newBefore (hunk :: hunks) newLine ∧
      mapHunks currentFile oldBefore newBefore (hunk :: hunks) newLine ≤
        oldBefore + hunk.gap.length + (oldSide hunk.rows).length + 1 := by
  have hwalk := @mapHunks_inside currentFile oldBefore newBefore newLine hunk hunks hfrom hto
  have hsound := (hunk.start_settled oldBefore newBefore).sound
  constructor
  · exact walkRows_ge hsound hwalk
  · have hle := walkRows_le hsound hwalk
    rwa [Hunk.start, Nat.add_right_comm] at hle

theorem mapHunks_gt (h : newBefore < newLine) :
    oldBefore < mapHunks currentFile oldBefore newBefore hunks newLine := by
  induction hunks generalizing oldBefore newBefore with
  | nil =>
      rw [mapHunks_nil h]
      omega
  | cons hunk hunks ih =>
      by_cases habove : newLine ≤ newBefore + hunk.gap.length
      · rw [mapHunks_above h habove]
        omega
      · by_cases hin : newLine ≤ newBefore + hunk.gap.length + (newSide hunk.rows).length
        · have hbounds := @mapHunks_bounds currentFile oldBefore newBefore newLine hunk hunks
            (Nat.not_le.1 habove) hin
          omega
        · rw [mapHunks_past (Nat.not_le.1 hin)]
          have hrest := @ih (oldBefore + hunk.gap.length + (oldSide hunk.rows).length)
            (newBefore + hunk.gap.length + (newSide hunk.rows).length) (Nat.not_le.1 hin)
          omega

theorem mapHunks_mono (h : newBefore < newLine) (hle : newLine ≤ newLine') :
    mapHunks currentFile oldBefore newBefore hunks newLine ≤
      mapHunks currentFile oldBefore newBefore hunks newLine' := by
  induction hunks generalizing oldBefore newBefore with
  | nil =>
      rw [mapHunks_nil h, mapHunks_nil (Nat.lt_of_lt_of_le h hle)]
      omega
  | cons hunk hunks ih =>
      by_cases hpast' : newBefore + hunk.gap.length + (newSide hunk.rows).length < newLine'
      · have hafter := @mapHunks_gt currentFile
          (oldBefore + hunk.gap.length + (oldSide hunk.rows).length)
          (newBefore + hunk.gap.length + (newSide hunk.rows).length) newLine' hunks hpast'
        rw [mapHunks_past hpast']
        by_cases habove : newLine ≤ newBefore + hunk.gap.length
        · rw [mapHunks_above h habove]
          omega
        · by_cases hpast : newBefore + hunk.gap.length + (newSide hunk.rows).length < newLine
          · rw [mapHunks_past hpast]
            exact ih hpast
          · have hbounds := @mapHunks_bounds currentFile oldBefore newBefore newLine hunk hunks
              (Nat.not_le.1 habove) (Nat.not_lt.1 hpast)
            omega
      · have hto' := Nat.not_lt.1 hpast'
        by_cases habove : newLine ≤ newBefore + hunk.gap.length
        · rw [mapHunks_above h habove]
          by_cases habove' : newLine' ≤ newBefore + hunk.gap.length
          · rw [mapHunks_above (Nat.lt_of_lt_of_le h hle) habove']
            omega
          · have hbounds := @mapHunks_bounds currentFile oldBefore newBefore newLine' hunk hunks
              (Nat.not_le.1 habove') hto'
            omega
        · have hfrom := Nat.not_le.1 habove
          exact walkRows_mono (hunk.start_settled oldBefore newBefore).sound
            (mapHunks_inside hfrom (Nat.le_trans hle hto'))
            (mapHunks_inside (Nat.lt_of_lt_of_le hfrom hle) hto') hle

/-! ## Rows of a diff -/

/-- The rows of hunks, and of the unchanged lines after them. -/
def rowsOf (hunks : List Hunk) (rest : List LineText) : List Row :=
  hunks.flatMap UnifiedDiff.hunkRows ++ rest.map .unchanged

theorem rowsOf_cons : rowsOf (hunk :: hunks) rest = UnifiedDiff.hunkRows hunk ++ rowsOf hunks rest := by
  rw [rowsOf, rowsOf, List.flatMap_cons, List.append_assoc]

@[simp] theorem length_newSide_hunkRows (hunk : Hunk) :
    (newSide (UnifiedDiff.hunkRows hunk)).length = hunk.gap.length + (newSide hunk.rows).length := by
  simp [UnifiedDiff.hunkRows]

@[simp] theorem length_oldSide_hunkRows (hunk : Hunk) :
    (oldSide (UnifiedDiff.hunkRows hunk)).length = hunk.gap.length + (oldSide hunk.rows).length := by
  simp [UnifiedDiff.hunkRows]

theorem edge_not_mem_rows (hunk : Hunk) : Row.edge ∉ hunk.rows := by
  intro h
  obtain ⟨line, -, hline⟩ := List.mem_filterMap.1 h
  cases line <;> cases hline

/-- Where a place in a list that is put together from two lies. -/
theorem append_eq_append_cons {α : Type} {xs ys before after : List α} {x : α}
    (h : xs ++ ys = before ++ x :: after) :
    (∃ after', xs = before ++ x :: after') ∨
      ∃ before', before = xs ++ before' ∧ ys = before' ++ x :: after := by
  rcases List.append_eq_append_iff.1 h with ⟨before', hbefore, hys⟩ | ⟨tail, hxs, htail⟩
  · exact .inr ⟨before', hbefore, hys⟩
  · cases tail with
    | nil => exact .inr ⟨[], by simpa using hxs.symm, by simpa using htail.symm⟩
    | cons y tail =>
        obtain ⟨rfl, -⟩ := List.cons.inj htail
        exact .inl ⟨tail, hxs⟩

theorem locate {before after : List Row} {row : Row} (hrow : row ≠ .edge)
    (h : rowsOf (hunk :: hunks) rest = before ++ row :: after) :
    (∃ front text back, hunk.gap = front ++ text :: back ∧ before = front.map .unchanged ∧
      row = .unchanged text) ∨
    (∃ front back, hunk.rows = front ++ row :: back ∧
      before = hunk.gap.map .unchanged ++ .edge :: front) ∨
    ∃ before', before = UnifiedDiff.hunkRows hunk ++ before' ∧
      rowsOf hunks rest = before' ++ row :: after := by
  rw [rowsOf_cons] at h
  rcases append_eq_append_cons h with ⟨after', hhunk⟩ | hbehind
  · rw [UnifiedDiff.hunkRows] at hhunk
    rcases append_eq_append_cons hhunk with ⟨tail, hgap⟩ | ⟨inner, rfl, hinner⟩
    · obtain ⟨front, back, hsplit, hfront, hback⟩ := List.map_eq_append_iff.1 hgap
      obtain ⟨text, back, rfl, htext, -⟩ := List.map_eq_cons_iff.1 hback
      exact .inl ⟨front, text, back, hsplit, hfront.symm, htext.symm⟩
    · cases inner with
      | nil => exact absurd (List.cons.inj hinner).1.symm hrow
      | cons first front =>
          obtain ⟨rfl, hfront⟩ := List.cons.inj hinner
          rcases append_eq_append_cons hfront with ⟨back, hback⟩ | ⟨inner, -, hedge⟩
          · exact .inr (.inl ⟨front, back, hback, rfl⟩)
          · cases inner with
            | nil => exact absurd (List.cons.inj hedge).1.symm hrow
            | cons _ inner =>
                have hnone := (List.cons.inj hedge).2.symm
                exact absurd hnone (List.append_ne_nil_of_right_ne_nil _ (List.cons_ne_nil _ _))
  · exact .inr (.inr hbehind)

theorem mapHunks_unchanged {before after : List Row} {text : LineText}
    (h : rowsOf hunks rest = before ++ .unchanged text :: after) :
    mapHunks currentFile oldBefore newBefore hunks (newBefore + (newSide before).length + 1) =
      oldBefore + (oldSide before).length + 1 := by
  induction hunks generalizing oldBefore newBefore before with
  | nil =>
      obtain ⟨front, back, -, rfl, -⟩ := List.map_eq_append_iff.1 h
      rw [mapHunks_nil (by omega), newSide_map_unchanged, oldSide_map_unchanged]
      omega
  | cons hunk hunks ih =>
      rcases locate (by exact fun h => by cases h) h with
        ⟨front, text, back, hgap, rfl, -⟩ | ⟨front, back, hrows, rfl⟩ | ⟨before', rfl, hrest⟩
      · have hlength := congrArg List.length hgap
        rw [List.length_append, List.length_cons] at hlength
        rw [newSide_map_unchanged, oldSide_map_unchanged, mapHunks_above (by omega) (by omega)]
        omega
      · have hlength := congrArg (fun rows => (newSide rows).length) hrows
        simp only [newSide_append, newSide_unchanged, List.length_append, List.length_cons] at hlength
        have hwalk := @mapHunks_inside currentFile oldBefore newBefore
          (newBefore + hunk.gap.length + (newSide front).length + 1) hunk hunks (by omega) (by omega)
        rw [hrows, walkRows_unchanged (by simp only [Hunk.start]; omega)] at hwalk
        have hresult := Option.some.inj hwalk
        simp only [newSide_append, newSide_map_unchanged, newSide_edge, oldSide_append,
          oldSide_map_unchanged, oldSide_edge, List.length_append]
        rw [← Nat.add_assoc, ← hresult, Hunk.start]
        simp only
        omega
      · rw [newSide_append, oldSide_append, List.length_append, List.length_append,
          length_newSide_hunkRows, length_oldSide_hunkRows, mapHunks_past (by omega)]
        have hih := @ih (oldBefore + hunk.gap.length + (oldSide hunk.rows).length)
          (newBefore + hunk.gap.length + (newSide hunk.rows).length) before' hrest
        simp only [← Nat.add_assoc]
        exact hih

/-! ## Added lines -/

theorem RemovedFirst.left {rows rows' : List Row} (h : RemovedFirst (rows ++ rows')) :
    RemovedFirst rows := by
  rintro before added removed after rfl
  exact h before added removed (after ++ rows') (by simp)

theorem RemovedFirst.right {rows rows' : List Row} (h : RemovedFirst (rows ++ rows')) :
    RemovedFirst rows' := by
  rintro before added removed after rfl
  exact h (rows ++ before) added removed after (by simp)

theorem settled_concat {rows : List Row} {row : Row} (h : (∃ text, row = .unchanged text) ∨ row = .edge) :
    Settled (rows ++ [row]) := by
  intro last hlast
  rw [List.getLast?_concat] at hlast
  obtain rfl := Option.some.inj hlast
  exact h

theorem RemovedFirst.exists_block {rows : List Row} (h : RemovedFirst rows) :
    ∃ (before : List Row) (removed added : List LineText),
      rows = before ++ (removed.map .removed ++ added.map .added) ∧ Settled before := by
  induction rows using List.reverseRecOn with
  | nil => exact ⟨[], [], [], rfl, fun row hrow => absurd hrow (Option.not_mem_none row)⟩
  | append_singleton rows row ih =>
      obtain ⟨before, removed, added, rfl, hsettled⟩ := ih h.left
      cases row with
      | unchanged text =>
          exact ⟨_, [], [], (List.append_nil _).symm, settled_concat (.inl ⟨text, rfl⟩)⟩
      | edge => exact ⟨_, [], [], (List.append_nil _).symm, settled_concat (.inr rfl)⟩
      | added text => exact ⟨before, removed, added ++ [text], by simp, hsettled⟩
      | removed text =>
          rcases List.eq_nil_or_concat added with rfl | ⟨front, last, rfl⟩
          · exact ⟨before, removed ++ [text], [], by simp, hsettled⟩
          · exact absurd (by simp) (h (before ++ (removed.map .removed ++ front.map .added)) last text [])

theorem settled_start {gap : List LineText} {before : List Row} (h : Settled before) :
    Settled (gap.map .unchanged ++ .edge :: before) := by
  intro row hrow
  rw [List.getLast?_append, List.getLast?_cons] at hrow
  cases hlast : before.getLast? with
  | none =>
      rw [hlast] at hrow
      exact .inr (Option.some.inj hrow).symm
  | some last =>
      rw [hlast] at hrow
      obtain rfl := Option.some.inj hrow
      exact h last hlast

theorem settled_behind {before : List Row} (h : Settled before) :
    Settled (UnifiedDiff.hunkRows hunk ++ before) := by
  rcases List.eq_nil_or_concat before with rfl | ⟨front, last, rfl⟩
  · rw [List.append_nil, UnifiedDiff.hunkRows, ← List.cons_append, ← List.append_assoc]
    exact settled_concat (.inr rfl)
  · rw [List.concat_eq_append] at h ⊢
    rw [← List.append_assoc]
    exact settled_concat (h last (by simp))

theorem mapHunks_added_inside {front back : List Row} {text : LineText}
    (hrows : hunk.rows = front ++ .added text :: back) (hfirst : RemovedFirst hunk.rows) :
    ∃ (before : List Row) (removed added : List LineText),
      front = before ++ (removed.map .removed ++ added.map .added) ∧ Settled before ∧
      mapHunks currentFile oldBefore newBefore (hunk :: hunks)
        (newBefore + hunk.gap.length + (newSide front).length + 1) =
          oldBefore + hunk.gap.length + (oldSide before).length + 1 +
            if removed = [] then 0 else min added.length (removed.length - 1) := by
  rw [hrows] at hfirst
  obtain ⟨before, removed, added, rfl, hsettled⟩ := hfirst.left.exists_block
  refine ⟨before, removed, added, rfl, hsettled, ?_⟩
  have hedges : Row.edge ∉ before := by
    intro hmem
    refine edge_not_mem_rows hunk ?_
    rw [hrows]
    exact List.mem_append_left _ (List.mem_append_left _ hmem)
  have hlength := congrArg (fun rows => (newSide rows).length) hrows
  simp only [newSide_append, newSide_added, List.length_append, List.length_cons] at hlength
  have hwalk := @mapHunks_inside currentFile oldBefore newBefore
    (newBefore + hunk.gap.length +
      (newSide (before ++ (removed.map .removed ++ added.map .added))).length + 1) hunk hunks (by omega)
    (by simp only [newSide_append, List.length_append]; omega)
  rw [hrows, walkRows_added (by simp only [Hunk.start]; omega), List.foldl_append] at hwalk
  have hopen := Walk.foldl_settled (hunk.start_settled oldBefore newBefore) hsettled hedges
  rw [hopen.partner removed added, Walk.foldl_oldLine, Hunk.start] at hwalk
  rw [← Option.some.inj hwalk]
  split
  · rw [Nat.add_zero, Nat.add_right_comm]
  · rw [Nat.add_right_comm (oldBefore + hunk.gap.length)]

theorem mapHunks_added {front after : List Row} {text : LineText}
    (h : rowsOf hunks rest = front ++ .added text :: after) (hfirst : RemovedFirst (rowsOf hunks rest)) :
    ∃ (before : List Row) (removed added : List LineText),
      front = before ++ (removed.map .removed ++ added.map .added) ∧ Settled before ∧
      mapHunks currentFile oldBefore newBefore hunks (newBefore + (newSide front).length + 1) =
        oldBefore + (oldSide before).length + 1 +
          if removed = [] then 0 else min added.length (removed.length - 1) := by
  induction hunks generalizing oldBefore newBefore front with
  | nil =>
      obtain ⟨-, back, -, -, hback⟩ := List.map_eq_append_iff.1 h
      obtain ⟨text', -, -, htext, -⟩ := List.map_eq_cons_iff.1 hback
      cases htext
  | cons hunk hunks ih =>
      rcases locate (by exact fun h => by cases h) h with
        ⟨-, text', -, -, -, hrow⟩ | ⟨inner, back, hrows, rfl⟩ | ⟨front', rfl, hrest⟩
      · cases hrow
      · have hhunk : RemovedFirst hunk.rows := by
          rw [rowsOf_cons, UnifiedDiff.hunkRows, List.append_assoc, List.cons_append,
            List.append_assoc] at hfirst
          exact (@RemovedFirst.right [.edge] _ hfirst.right).left
        obtain ⟨before, removed, added, rfl, hsettled, hmap⟩ :=
          @mapHunks_added_inside currentFile oldBefore newBefore hunk hunks _ _ _ hrows hhunk
        refine ⟨hunk.gap.map .unchanged ++ .edge :: before, removed, added, by simp,
          settled_start hsettled, ?_⟩
        have hnew : (newSide (hunk.gap.map .unchanged ++ .edge :: (before ++
            (removed.map .removed ++ added.map .added)))).length =
              hunk.gap.length + (newSide (before ++ (removed.map .removed ++ added.map .added))).length := by
          rw [newSide_append, newSide_map_unchanged, newSide_edge, List.length_append]
        have hold : (oldSide (hunk.gap.map .unchanged ++ .edge :: before)).length =
            hunk.gap.length + (oldSide before).length := by
          rw [oldSide_append, oldSide_map_unchanged, oldSide_edge, List.length_append]
        rw [hnew, hold, ← Nat.add_assoc, ← Nat.add_assoc]
        exact hmap
      · have hrestFirst : RemovedFirst (rowsOf hunks rest) := by
          rw [rowsOf_cons] at hfirst
          exact hfirst.right
        obtain ⟨before, removed, added, rfl, hsettled, hmap⟩ :=
          @ih (oldBefore + hunk.gap.length + (oldSide hunk.rows).length)
            (newBefore + hunk.gap.length + (newSide hunk.rows).length) front' hrest hrestFirst
        refine ⟨UnifiedDiff.hunkRows hunk ++ before, removed, added, (List.append_assoc _ _ _).symm,
          settled_behind hsettled, ?_⟩
        rw [newSide_append, oldSide_append, List.length_append, List.length_append,
          length_newSide_hunkRows, length_oldSide_hunkRows, mapHunks_past (by omega)]
        simp only [← Nat.add_assoc]
        exact hmap

/-! ## Lines and rows -/

/-! ## The theorem -/

theorem UnifiedDiff.NamesFile.mapNewLineToOldLine {d : UnifiedDiff} (h : d.NamesFile) :
    ∃ currentFile, Vcs.mapNewLineToOldLine d.render = mapHunks currentFile 0 0 d.hunks := by
  obtain ⟨currentFile, hhunks⟩ := h.parseDiffHunks
  refine ⟨currentFile, funext fun newLine => ?_⟩
  rw [Vcs.mapNewLineToOldLine, hhunks]
  rfl

theorem mapHunks_zero (hunks : List Hunk) : mapHunks currentFile 0 0 hunks 0 = 1 := by
  cases hunks with
  | nil => rfl
  | cons hunk hunks =>
      have habove := (hunk.read_above_iff currentFile 0 0).2 (Nat.zero_le _)
      exact habove.mapThrough

/-- In a diff that names its file, every line of the new side is mapped back as it should be. -/
theorem mapNewLineToOldLine_mapsBack (d : UnifiedDiff) (hnames : d.NamesFile)
    (hfirst : RemovedFirst d.rows) : MapsBack d (mapNewLineToOldLine d.render) := by
  obtain ⟨currentFile, hmap⟩ := hnames.mapNewLineToOldLine
  rw [hmap]
  refine ⟨fun before text after hrows => ?_, fun front text after hrows => ?_,
    fun newLine newLine' hle => ?_⟩
  · have hunchanged := @mapHunks_unchanged currentFile 0 0 d.hunks d.rest before after text hrows
    rwa [Nat.zero_add, Nat.zero_add] at hunchanged
  · obtain ⟨before, removed, added, rfl, hsettled, hadded⟩ :=
      @mapHunks_added currentFile 0 0 d.hunks d.rest front after text hrows hfirst
    rw [Nat.zero_add, Nat.zero_add] at hadded
    refine ⟨before, removed, added, rfl, hsettled, ?_, ?_⟩
    · rintro rfl
      rw [hadded, if_pos rfl]
      simp
    · intro hremoved
      have hpos := List.length_pos_iff.2 hremoved
      exact ⟨min added.length (removed.length - 1), by omega, by rw [hadded, if_neg hremoved]⟩
  · rcases Nat.eq_zero_or_pos newLine with rfl | hpos
    · rw [mapHunks_zero]
      rcases Nat.eq_zero_or_pos newLine' with rfl | hpos'
      · exact Nat.le_of_eq (mapHunks_zero _).symm
      · exact mapHunks_gt hpos'
    · exact mapHunks_mono hpos hle

end

/-! ## Two headers -/

/-- A line added before another one, under a header. -/
def sampleDiff (header : LineText) (hheader : (ascii ['@', '@', ' ']).isPrefixOf header.1 = false) :
    UnifiedDiff where
  preamble := [header]
  hunks :=
    [{ gap := [], body := [.added ⟨ascii ['x'], by decide⟩], oldCountShown := true,
       newCountShown := false, heading := ⟨[], by decide⟩ }]
  rest := [⟨ascii ['y'], by decide⟩]
  noHunkBefore line hline := by
    obtain rfl := List.mem_singleton.1 hline
    exact hheader

theorem removedFirst_sampleDiff (header : LineText)
    (hheader : (ascii ['@', '@', ' ']).isPrefixOf header.1 = false) :
    RemovedFirst (sampleDiff header hheader).rows := by
  intro before added removed after h
  have hremoved : Row.removed removed ∈ (sampleDiff header hheader).rows := by
    rw [h]
    simp
  simp [sampleDiff, UnifiedDiff.rows, UnifiedDiff.hunkRows, Hunk.rows, BodyLine.row] at hremoved

/-- `diff --git a/f b/f`. -/
def plainHeader : LineText :=
  ⟨ascii ['d', 'i', 'f', 'f', ' ', '-', '-', 'g', 'i', 't', ' ', 'a', '/', 'f', ' ', 'b', '/', 'f'],
    by decide⟩

/-- `diff --git "a/\303" "b/\303"`. -/
def quotedHeader : LineText :=
  ⟨ascii ['d', 'i', 'f', 'f', ' ', '-', '-', 'g', 'i', 't', ' ', '"', 'a', '/', '\\', '3', '0', '3',
    '"', ' ', '"', 'b', '/', '\\', '3', '0', '3', '"'], by decide⟩

theorem mapNewLineToOldLine_mapsBack_plain :
    MapsBack (sampleDiff plainHeader (by decide))
      (mapNewLineToOldLine (sampleDiff plainHeader (by decide)).render) :=
  mapNewLineToOldLine_mapsBack _
    ⟨[], [], ⟨ascii [' ', 'a', '/', 'f'], by decide⟩, ⟨ascii ['f'], by decide⟩, plainHeader, rfl,
      by decide, by decide, by decide, fun line hline => absurd hline List.not_mem_nil⟩
    (removedFirst_sampleDiff _ _)

theorem not_mapsBack : ¬∀ d : UnifiedDiff, RemovedFirst d.rows →
    MapsBack d (mapNewLineToOldLine d.render) := by
  intro h
  have hmaps := h (sampleDiff quotedHeader (by decide)) (removedFirst_sampleDiff _ _)
  have hline := hmaps.unchanged [.edge, .added ⟨ascii ['x'], by decide⟩, .edge] _ [] rfl
  have hnone : parseDiffHunks (sampleDiff quotedHeader (by decide)).render = [] := by
    rw [parseDiffHunks, UnifiedDiff.splitLines_render]
    show hunksOf [] ((quotedHeader.1 ++ [newline]) :: renderHunks 0 0 _) = []
    rw [hunksOf, if_pos (by decide)]
    exact hunksOf_nowhere
  rw [mapNewLineToOldLine, hnone] at hline
  exact absurd hline (by decide)

end Ned.Editor.Vcs
