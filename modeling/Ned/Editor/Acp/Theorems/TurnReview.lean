import Ned.Editor.Acp.Lemmas.TurnReview

/-!
# Undoing a turn in a file

The hunks of a turn hold all that it changed, with contexts that it did not, and to undo them from
the bottom up gives the text it started from.
-/

namespace Ned.Editor.Acp

open Library Text

/-- The lines of a hunk stand in either text between the same unchanged ones. -/
def Surrounded (a b : List Line) (hunk : ReviewHunk) : Prop :=
  (∃ pre post, a = pre ++ (hunk.contextBefore ++ (hunk.oldLines ++ (hunk.contextAfter ++ post))) ∧
    hunk.oldStart = pre.length + hunk.contextBefore.length) ∧
  ∃ pre post, b = pre ++ (hunk.contextBefore ++ (hunk.newLines ++ (hunk.contextAfter ++ post))) ∧
    hunk.newStart = pre.length + hunk.contextBefore.length

/-- One hunk and its context end before the context of the next. -/
def EndsBefore (hunk next : ReviewHunk) : Prop :=
  hunk.oldStart + hunk.oldLines.length + hunk.contextAfter.length + next.contextBefore.length ≤
    next.oldStart ∧
  hunk.newStart + hunk.newLines.length + hunk.contextAfter.length + next.contextBefore.length ≤
    next.newStart

/-- Whatever the turn changed is in the lines of a hunk, and the contexts are outside of them all. -/
structure ContextsUnchanged (a b : List Line) (raw : List LineDiffHunk) (hunks : List ReviewHunk) :
    Prop where
  covered : ∀ change ∈ raw, ∃ hunk ∈ hunks, PartOf change hunk
  surrounded : ∀ hunk ∈ hunks, Surrounded a b hunk
  apart : hunks.Pairwise EndsBefore

section

variable {a b pa pb tail : List Line} {i j fileIndex : Nat} {segments : List (Segment Line)}
  {hunk : ReviewHunk}

theorem reviewAt_fileIndex (h : hunk ∈ reviewAt fileIndex tail i j segments) :
    hunk.fileIndex = fileIndex := by
  induction segments generalizing i j with
  | nil => cases h
  | cons segment segments ih =>
      rcases List.mem_cons.1 h with rfl | h
      · rfl
      · exact ih h

theorem length_reviewAt : (reviewAt fileIndex tail i j segments).length = segments.length := by
  induction segments generalizing i j with
  | nil => rfl
  | cons segment segments ih => rw [reviewAt, List.length_cons, ih, List.length_cons]

theorem reviewAt_surrounded (hfar : Far segments) (ha : a = pa ++ Segment.before segments tail)
    (hb : b = pb ++ Segment.after segments tail)
    (h : hunk ∈ reviewAt fileIndex tail pa.length pb.length segments) : Surrounded a b hunk := by
  induction segments generalizing pa pb with
  | nil => cases h
  | cons segment segments ih =>
      obtain ⟨hfar', hhead⟩ := hfar.of_cons
      rcases List.mem_cons.1 h with rfl | h
      · have hcontext := take_after_eq tail fun next hnext =>
          Nat.le_trans (by decide) (Nat.le_of_lt (hhead next hnext))
        refine ⟨⟨_, (Segment.before segments tail).drop kReviewContextLines, ?_,
            length_context pa segment.kept⟩,
          _, (Segment.after segments tail).drop kReviewContextLines, ?_,
            length_context pb segment.kept⟩
        · rw [ha, Segment.before, split_context, hcontext]
        · rw [hb, Segment.after, split_context]
      · simp only [← List.length_append] at h
        refine ih hfar' ?_ ?_ h
        · rw [ha, Segment.before, List.append_assoc, List.append_assoc]
        · rw [hb, Segment.after, List.append_assoc, List.append_assoc]

theorem reviewAt_ge (hfar : ∀ segment ∈ segments, 2 * kReviewContextLines < segment.kept.length)
    (h : hunk ∈ reviewAt fileIndex tail i j segments) :
    i + 2 * kReviewContextLines < hunk.oldStart ∧ j + 2 * kReviewContextLines < hunk.newStart := by
  induction segments generalizing i j with
  | nil => cases h
  | cons segment segments ih =>
      have hkept := hfar segment List.mem_cons_self
      rcases List.mem_cons.1 h with rfl | h
      · simp only
        omega
      · have hge := ih (fun next hnext => hfar next (List.mem_cons_of_mem _ hnext)) h
        omega

theorem reviewAt_context (h : hunk ∈ reviewAt fileIndex tail i j segments) :
    hunk.contextBefore.length ≤ kReviewContextLines ∧
      hunk.contextAfter.length ≤ kReviewContextLines := by
  induction segments generalizing i j with
  | nil => cases h
  | cons segment segments ih =>
      rcases List.mem_cons.1 h with rfl | h
      · simp only [List.length_drop, List.length_take]
        omega
      · exact ih h

theorem reviewAt_apart (hfar : Far segments) :
    (reviewAt fileIndex tail i j segments).Pairwise EndsBefore := by
  induction segments generalizing i j with
  | nil => exact .nil
  | cons segment segments ih =>
      refine .cons ?_ (ih hfar.of_cons.1)
      intro next hnext
      have hge := reviewAt_ge (fun segment hmem => hfar segment hmem) hnext
      have hcontext := reviewAt_context hnext
      simp only [EndsBefore, List.length_take]
      omega

theorem reviewAt_increasing (hfar : Far segments) :
    (reviewAt fileIndex tail i j segments).Pairwise fun hunk next =>
      hunk.newStart < next.newStart := by
  induction segments generalizing i j with
  | nil => exact .nil
  | cons segment segments ih =>
      refine .cons ?_ (ih hfar.of_cons.1)
      intro next hnext
      have hge := reviewAt_ge (fun segment hmem => hfar segment hmem) hnext
      simp only
      omega

end

/-- The hunks of a turn are the changes of a script whose changes are far apart. -/
theorem turnHunks_coarse (name : String) (before after : Bytes) (fileIndex : Nat) :
    ∃ raw coarse tail, diffLines (splitLines before) (splitLines after) = some raw ∧
      turnHunks { name := name, before := { exists' := true, text := before },
                  after := some { exists' := true, text := after } } fileIndex =
        some (reviewAt fileIndex tail 0 0 coarse) ∧
      splitLines before = Segment.before coarse tail ∧
      splitLines after = Segment.after coarse tail ∧ Far coarse ∧
      ∀ change ∈ raw, ∃ hunk ∈ reviewAt fileIndex tail 0 0 coarse, PartOf change hunk := by
  obtain ⟨raw, hraw, segments, tail, ha, hb, rfl, _⟩ :=
    diffLines_scripted (splitLines before) (splitLines after)
  obtain ⟨coarse, hgroup, hbefore, hafter, hfar, _, hcovers⟩ :=
    @groupHunks_spec _ _ tail [] [] segments fileIndex (hunksAt 0 0 segments).length
      (by rw [length_hunksAt]) ha hb (.inl rfl)
  refine ⟨_, coarse, tail, hraw, ?_, ha.trans hbefore.symm, hb.trans hafter.symm, hfar, hcovers⟩
  simp only [turnHunks, Bool.not_true, Bool.and_self, Bool.false_eq_true, if_false, hraw,
    Option.bind_eq_bind, Option.bind_some]
  exact hgroup

theorem undoOrder_reviewAt (s : KeySort) (fileIndex : Nat) (tail : List Line) {coarse : List (Segment Line)}
    (hfar : Far coarse) :
    undoOrder s (reviewAt fileIndex tail 0 0 coarse) fileIndex =
      (reviewAt fileIndex tail 0 0 coarse).reverse := by
  have hall : ∀ hunk ∈ reviewAt fileIndex tail 0 0 coarse, (hunk.fileIndex == fileIndex) = true :=
    fun hunk hmem => by rw [reviewAt_fileIndex hmem, beq_self_eq_true]
  rw [undoOrder, List.filter_eq_self.2 hall, s.sort_eq_of_pairwise_lt]
  exact reviewAt_increasing hfar

/-- The hunks of a turn hold all that it changed, and undone from the bottom up they give exactly
the text before it. -/
theorem undoLoop_turnHunks (s : KeySort) (name : String) (before after : Bytes) (fileIndex : Nat) :
    ∃ raw hunks, diffLines (splitLines before) (splitLines after) = some raw ∧
      turnHunks { name := name, before := { exists' := true, text := before },
                  after := some { exists' := true, text := after } } fileIndex = some hunks ∧
      ContextsUnchanged (splitLines before) (splitLines after) raw hunks ∧
      undoLoop (undoOrder s hunks fileIndex) { exists' := true, text := after } =
        { state := { exists' := true, text := before }, undone := hunks.length, stranded := 0 } := by
  obtain ⟨raw, coarse, tail, hraw, hhunks, ha, hb, hfar, hcovers⟩ :=
    turnHunks_coarse name before after fileIndex
  have hsurrounded : ∀ hunk ∈ reviewAt fileIndex tail 0 0 coarse,
      Surrounded (splitLines before) (splitLines after) hunk :=
    fun hunk hmem => @reviewAt_surrounded _ _ [] [] tail fileIndex coarse hunk hfar ha hb hmem
  refine ⟨raw, _, hraw, hhunks, ⟨hcovers, hsurrounded, reviewAt_apart hfar⟩, ?_⟩
  have hundo := @undo_reviewAt [] [] tail 0 fileIndex coarse hfar (.inl rfl)
    (by rw [List.nil_append, ← hb]; exact lined_splitLines after)
    (by rw [List.nil_append, ← ha]; exact lined_splitLines before)
  rw [List.nil_append, List.nil_append, ← ha, ← hb, join, join, flatten_splitLines,
    flatten_splitLines, List.length_nil] at hundo
  rw [undoOrder_reviewAt s fileIndex tail hfar, hundo, length_reviewAt]

end Ned.Editor.Acp
