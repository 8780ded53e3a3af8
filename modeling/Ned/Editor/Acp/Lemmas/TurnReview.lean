import Ned.Text.Lemmas.LineDiff
import Ned.Text.Lemmas.Lines
import Ned.Editor.Acp.TurnReview

/-!
# The hunks of a turn

The hunks are the changes of a coarser script, whose changes are more than two contexts apart. A
hunk whose lines stand where the turn left them is found there.
-/

namespace Ned.Editor.Acp

open Library Text

/-! ## Finding -/

section

variable {lines pattern before middle after pre post : List Line} {beforeCount expected start : Nat}
  {best : Option (Nat × Nat)}

/-- The distance of the best place so far, unless it is `0`, is that of another place. -/
def Honest (expected : Nat) (best : Option (Nat × Nat)) : Prop :=
  ∀ place distance, best = some (place, distance) → distance = 0 → place = expected

theorem nearer_honest (h : Honest expected best) :
    Honest expected (nearer lines pattern beforeCount expected best start) := by
  have hzero : (if start + beforeCount > expected then start + beforeCount - expected
      else expected - (start + beforeCount)) = 0 → start + beforeCount = expected := by
    intro hzero
    split at hzero <;> omega
  simp only [nearer]
  generalize (if start + beforeCount > expected then start + beforeCount - expected
    else expected - (start + beforeCount)) = distance at hzero
  have hplace : Honest expected (some (start + beforeCount, distance)) := by
    intro place _ heq hdistance
    cases heq
    exact hzero hdistance
  split
  · cases best with
    | none => exact hplace
    | some found =>
        simp only
        split
        · exact hplace
        · exact h
  · exact h

theorem nearer_exact (h : Honest expected best) (hstart : start + beforeCount = expected)
    (hmatch : (lines.drop start).take pattern.length = pattern) :
    nearer lines pattern beforeCount expected best start = some (expected, 0) := by
  rw [nearer, if_pos hmatch]
  simp only [hstart, gt_iff_lt, Nat.lt_irrefl, if_false, Nat.sub_self]
  cases best with
  | none => rfl
  | some found =>
      obtain ⟨place, distance⟩ := found
      simp only
      split
      · rfl
      · have hzero : distance = 0 := by omega
        rw [h place distance rfl hzero, hzero]

theorem nearer_keeps :
    nearer lines pattern beforeCount expected (some (expected, 0)) start = some (expected, 0) := by
  rw [nearer]
  split
  · simp
  · rfl

theorem foldl_nearer_keeps (starts : List Nat) :
    starts.foldl (nearer lines pattern beforeCount expected) (some (expected, 0)) =
      some (expected, 0) := by
  induction starts with
  | nil => rfl
  | cons start starts ih => rw [List.foldl_cons, nearer_keeps, ih]

theorem foldl_nearer_exact (start : Nat) {starts : List Nat} (h : Honest expected best) (hmem : start ∈ starts)
    (hstart : start + beforeCount = expected)
    (hmatch : (lines.drop start).take pattern.length = pattern) :
    starts.foldl (nearer lines pattern beforeCount expected) best = some (expected, 0) := by
  induction starts generalizing best with
  | nil => exact absurd hmem List.not_mem_nil
  | cons first starts ih =>
      rw [List.foldl_cons]
      rcases List.mem_cons.1 hmem with rfl | hmem
      · rw [nearer_exact h hstart hmatch]
        exact foldl_nearer_keeps starts
      · exact ih (nearer_honest h) hmem

theorem find_exact (pre post : List Line)
    (hlines : lines = pre ++ (before ++ middle ++ after) ++ post)
    (hexpected : expected = pre.length + before.length)
    (hempty : before ++ middle ++ after = [] → lines = []) :
    find lines before middle after expected = some expected := by
  rw [find]
  by_cases hnone : before ++ middle ++ after = []
  · have hnil := hempty hnone
    rw [hnil] at hlines
    simp only [hnone, hnil, List.isEmpty_nil, if_true]
    simp only [List.append_eq_nil_iff] at hnone
    simp only [List.nil_eq, List.append_eq_nil_iff] at hlines
    simp [hexpected, hlines.1.1, hnone.1.1]
  · rw [if_neg (by rwa [List.isEmpty_iff])]
    have hlength : lines.length = pre.length + (before ++ middle ++ after).length + post.length := by
      rw [hlines, List.length_append, List.length_append]
    rw [if_neg (by omega), foldl_nearer_exact pre.length (fun _ _ h => by cases h)]
    · rfl
    · exact List.mem_range.2 (by omega)
    · exact hexpected.symm
    · rw [hlines, List.append_assoc _ _ post, List.drop_left, List.take_left]

end

/-! ## Grouping -/

/-- A change with the ones behind it that are near enough to share its hunk. -/
def joinNear (segment : Segment Line) : List (Segment Line) → Segment Line × List (Segment Line)
  | [] => (segment, [])
  | next :: segments =>
      if next.kept.length ≤ 2 * kReviewContextLines then
        joinNear (segment.join next) segments
      else
        (segment, next :: segments)

/-- The hunks of a coarse script that starts at line `i` of the one text and `j` of the other. -/
def reviewAt (fileIndex : Nat) (tail : List Line) : Nat → Nat → List (Segment Line) → List ReviewHunk
  | _, _, [] => []
  | i, j, segment :: segments =>
      { fileIndex := fileIndex
        oldStart := i + segment.kept.length
        newStart := j + segment.kept.length
        contextBefore := segment.kept.drop (segment.kept.length - kReviewContextLines)
        oldLines := segment.removed
        newLines := segment.added
        contextAfter := (Segment.after segments tail).take kReviewContextLines } ::
        reviewAt fileIndex tail (i + segment.kept.length + segment.removed.length)
          (j + segment.kept.length + segment.added.length) segments

section

variable {a b tail pa pb : List Line} {i j : Nat} {segment : Segment Line}
  {segments : List (Segment Line)} {last : LineDiffHunk}

theorem joinNear_kept (segment : Segment Line) (segments : List (Segment Line)) : (joinNear segment segments).1.kept = segment.kept := by
  induction segments generalizing segment with
  | nil => rfl
  | cons next segments ih =>
      rw [joinNear]
      split
      · exact ih _
      · rfl

theorem joinNear_before (segment : Segment Line) (segments : List (Segment Line))
    (tail : List Line) : Segment.before ((joinNear segment segments).1 ::
    (joinNear segment segments).2) tail = Segment.before (segment :: segments) tail := by
  induction segments generalizing segment with
  | nil => rfl
  | cons next segments ih =>
      rw [joinNear]
      split
      · rw [ih, Segment.before_join]
      · rfl

theorem joinNear_after (segment : Segment Line) (segments : List (Segment Line))
    (tail : List Line) : Segment.after ((joinNear segment segments).1 ::
    (joinNear segment segments).2) tail = Segment.after (segment :: segments) tail := by
  induction segments generalizing segment with
  | nil => rfl
  | cons next segments ih =>
      rw [joinNear]
      split
      · rw [ih, Segment.after_join]
      · rfl

theorem joinNear_length (segment : Segment Line) (segments : List (Segment Line)) : (joinNear segment segments).2.length ≤ segments.length := by
  induction segments generalizing segment with
  | nil => exact Nat.le_refl _
  | cons next segments ih =>
      rw [joinNear]
      split
      · exact Nat.le_succ_of_le (ih _)
      · exact Nat.le_refl _

theorem joinNear_far (segment : Segment Line) (segments : List (Segment Line)) : ∀ next ∈ (joinNear segment segments).2.head?,
    2 * kReviewContextLines < next.kept.length := by
  induction segments generalizing segment with
  | nil => exact fun _ h => by cases h
  | cons next segments ih =>
      rw [joinNear]
      split
      · exact ih _
      · rename_i hfar
        intro other hother
        cases hother
        exact Nat.not_le.1 hfar

theorem joinNear_removed (segment : Segment Line) (segments : List (Segment Line)) :
    segment.removed.length ≤ (joinNear segment segments).1.removed.length ∧
      segment.added.length ≤ (joinNear segment segments).1.added.length := by
  induction segments generalizing segment with
  | nil => exact ⟨Nat.le_refl _, Nat.le_refl _⟩
  | cons next segments ih =>
      rw [joinNear]
      split
      · have hle := ih (segment.join next)
        simp only [Segment.join, List.length_append] at hle ⊢
        omega
      · exact ⟨Nat.le_refl _, Nat.le_refl _⟩

/-- A raw hunk in the ranges of two texts. -/
def InRanges (raw : LineDiffHunk) (aStart aEnd bStart bEnd : Nat) : Prop :=
  (aStart ≤ raw.aStart ∧ raw.aStart + raw.aCount ≤ aEnd) ∧
    bStart ≤ raw.bStart ∧ raw.bStart + raw.bCount ≤ bEnd

theorem joinNear_covers (segment : Segment Line) (segments : List (Segment Line)) (i j : Nat)
    (raw : LineDiffHunk)
    (h : raw ∈ hunksAt (i + segment.kept.length + segment.removed.length)
      (j + segment.kept.length + segment.added.length) segments) :
    let (joined, rest) := joinNear segment segments
    raw ∈ hunksAt (i + joined.kept.length + joined.removed.length)
        (j + joined.kept.length + joined.added.length) rest ∨
      InRanges raw (i + joined.kept.length)
        (i + joined.kept.length + joined.removed.length) (j + joined.kept.length)
        (j + joined.kept.length + joined.added.length) := by
  induction segments generalizing segment with
  | nil => exact .inl h
  | cons next segments ih =>
      simp only [joinNear]
      split
      · have hle := joinNear_removed (segment.join next) segments
        have hkept := joinNear_kept (segment.join next) segments
        simp only [Segment.join, List.length_append] at hle hkept ih
        rcases List.mem_cons.1 h with rfl | h
        · right
          simp only [InRanges, Segment.join, hkept]
          omega
        · apply ih (segment.join next)
          simpa only [Segment.join, List.length_append, ← Nat.add_assoc] using h
      · exact .inl h

theorem lastOfGroup_hunksAt (segment : Segment Line) (segments : List (Segment Line)) (i j : Nat)
    (last : LineDiffHunk)
    (ha : last.aStart + last.aCount = i + segment.kept.length + segment.removed.length)
    (hb : last.bStart + last.bCount = j + segment.kept.length + segment.added.length) :
    let (joined, rest) := joinNear segment segments
    ∃ last', lastOfGroup last
        (hunksAt (i + segment.kept.length + segment.removed.length)
          (j + segment.kept.length + segment.added.length) segments) =
        (last', hunksAt (i + joined.kept.length + joined.removed.length)
          (j + joined.kept.length + joined.added.length) rest) ∧
      last'.aStart + last'.aCount = i + joined.kept.length + joined.removed.length ∧
      last'.bStart + last'.bCount = j + joined.kept.length + joined.added.length := by
  induction segments generalizing segment last with
  | nil => exact ⟨last, rfl, ha, hb⟩
  | cons next segments ih =>
      simp only [hunksAt, lastOfGroup, joinNear]
      by_cases hnear : next.kept.length ≤ 2 * kReviewContextLines
      · rw [if_pos hnear, if_pos (by omega)]
        have hgo := ih (segment.join next)
          { aStart := i + segment.kept.length + segment.removed.length + next.kept.length
            aCount := next.removed.length
            bStart := j + segment.kept.length + segment.added.length + next.kept.length
            bCount := next.added.length }
          (by simp only [Segment.join, List.length_append]; omega)
          (by simp only [Segment.join, List.length_append]; omega)
        simpa only [Segment.join, List.length_append, ← Nat.add_assoc] using hgo
      · rw [if_neg hnear, if_neg (by omega)]
        exact ⟨last, rfl, ha, hb⟩

theorem slice_eq {lines p q r : List Line} {start stop : Nat} (h : lines = p ++ (q ++ r))
    (hstart : start = p.length) (hstop : stop = p.length + q.length) :
    slice lines start stop = some q := by
  have hlength : lines.length = p.length + (q.length + r.length) := by
    rw [h, List.length_append, List.length_append]
  rw [slice, if_pos (by omega), hstart, hstop, h, List.take_length_add_append, List.take_left,
    List.drop_left]

theorem reviewHunk_eq (fileIndex : Nat) (first : LineDiffHunk) (ha : a = pa ++ Segment.before (segment :: segments) tail)
    (hb : b = pb ++ Segment.after (segment :: segments) tail)
    (hkept : kReviewContextLines ≤ segment.kept.length ∨ pb = [])
    (hfirst : first.aStart = pa.length + segment.kept.length)
    (hfirst' : first.bStart = pb.length + segment.kept.length)
    (hlast : last.aStart + last.aCount = pa.length + segment.kept.length + segment.removed.length)
    (hlast' : last.bStart + last.bCount = pb.length + segment.kept.length + segment.added.length) :
    reviewHunk a b fileIndex first last = some
      { fileIndex := fileIndex
        oldStart := pa.length + segment.kept.length
        newStart := pb.length + segment.kept.length
        contextBefore := segment.kept.drop (segment.kept.length - kReviewContextLines)
        oldLines := segment.removed
        newLines := segment.added
        contextAfter := (Segment.after segments tail).take kReviewContextLines } := by
  obtain ⟨rest, hrest⟩ : ∃ rest, Segment.after segments tail = rest := ⟨_, rfl⟩
  have hlength : b.length =
      pb.length + (segment.kept.length + (segment.added.length + rest.length)) := by
    simp only [hb, Segment.after, hrest, List.length_append]
  have hpb : kReviewContextLines ≤ segment.kept.length ∨ pb.length = 0 :=
    hkept.imp_right List.length_eq_zero_iff.2
  have hold : slice a first.aStart (last.aStart + last.aCount) = some segment.removed := by
    apply slice_eq (p := pa ++ segment.kept) (r := Segment.before segments tail)
    · rw [ha, Segment.before, List.append_assoc]
    · rw [hfirst, List.length_append]
    · rw [hlast, List.length_append]
  have hnew : slice b first.bStart (last.bStart + last.bCount) = some segment.added := by
    apply slice_eq (p := pb ++ segment.kept) (r := rest)
    · rw [hb, Segment.after, List.append_assoc, hrest]
    · rw [hfirst', List.length_append]
    · rw [hlast', List.length_append]
  have hbefore : slice b (first.bStart - min first.bStart kReviewContextLines) first.bStart =
      some (segment.kept.drop (segment.kept.length - kReviewContextLines)) := by
    apply slice_eq (p := pb ++ segment.kept.take (segment.kept.length - kReviewContextLines))
      (r := segment.added ++ rest)
    · rw [hb, Segment.after, hrest, List.append_assoc, ← List.append_assoc (List.take _ _),
        List.take_append_drop]
    · rw [hfirst', List.length_append, List.length_take]
      omega
    · rw [hfirst', List.length_append, List.length_take, List.length_drop]
      omega
  have hafter : slice b (last.bStart + last.bCount)
      (min b.length (last.bStart + last.bCount + kReviewContextLines)) =
      some (rest.take kReviewContextLines) := by
    apply slice_eq (p := pb ++ (segment.kept ++ segment.added)) (r := rest.drop kReviewContextLines)
    · rw [hb, Segment.after, hrest, List.take_append_drop]
      simp only [List.append_assoc]
    · rw [hlast', List.length_append, List.length_append]
      omega
    · rw [hlast', hlength, List.length_append, List.length_append, List.length_take]
      omega
  rw [reviewHunk, hold, hnew, hbefore, hafter, hfirst, hfirst', hrest]
  rfl

/-- A script whose hunks are more than two contexts apart. -/
def Far (segments : List (Segment Line)) : Prop :=
  ∀ segment ∈ segments.tail, 2 * kReviewContextLines < segment.kept.length

def PartOf (raw : LineDiffHunk) (hunk : ReviewHunk) : Prop :=
  InRanges raw hunk.oldStart (hunk.oldStart + hunk.oldLines.length) hunk.newStart
    (hunk.newStart + hunk.newLines.length)

theorem groupHunks_spec (fileIndex : Nat) {fuel : Nat} (hfuel : segments.length ≤ fuel)
    (ha : a = pa ++ Segment.before segments tail) (hb : b = pb ++ Segment.after segments tail)
    (hkept : pb = [] ∨ ∀ segment ∈ segments.head?, kReviewContextLines ≤ segment.kept.length) :
    ∃ coarse, groupHunks a b fileIndex fuel (hunksAt pa.length pb.length segments) =
        some (reviewAt fileIndex tail pa.length pb.length coarse) ∧
      Segment.before coarse tail = Segment.before segments tail ∧
      Segment.after coarse tail = Segment.after segments tail ∧ Far coarse ∧
      coarse.head?.map Segment.kept = segments.head?.map Segment.kept ∧
      ∀ raw ∈ hunksAt pa.length pb.length segments,
        ∃ hunk ∈ reviewAt fileIndex tail pa.length pb.length coarse, PartOf raw hunk := by
  induction fuel generalizing segments pa pb with
  | zero =>
      rw [List.length_eq_zero_iff.1 (Nat.le_zero.1 hfuel)]
      exact ⟨[], rfl, rfl, rfl, fun _ h => by simp at h, rfl, fun _ h => by cases h⟩
  | succ fuel ih =>
      cases segments with
      | nil => exact ⟨[], rfl, rfl, rfl, fun _ h => by simp at h, rfl, fun _ h => by cases h⟩
      | cons segment segments =>
          have hlength := joinNear_length segment segments
          have hbefore := joinNear_before segment segments tail
          have hafter := joinNear_after segment segments tail
          have hsame := joinNear_kept segment segments
          have hfar := joinNear_far segment segments
          have hcovers := joinNear_covers segment segments pa.length pb.length
          have hle := joinNear_removed segment segments
          obtain ⟨last, hgroup, hend, hend'⟩ := lastOfGroup_hunksAt segment segments pa.length
            pb.length
            { aStart := pa.length + segment.kept.length, aCount := segment.removed.length,
              bStart := pb.length + segment.kept.length, bCount := segment.added.length } rfl rfl
          generalize joinNear segment segments = group at *
          obtain ⟨joined, rest⟩ := group
          simp only at hlength hbefore hafter hsame hfar hcovers hle hgroup hend hend'
          rw [← hbefore] at ha
          rw [← hafter] at hb
          have hhunk := reviewHunk_eq fileIndex
            { aStart := pa.length + segment.kept.length, aCount := segment.removed.length,
              bStart := pb.length + segment.kept.length, bCount := segment.added.length } ha hb
            (by rw [hsame]; exact hkept.symm.imp_left fun h => h segment rfl) (by rw [hsame])
            (by rw [hsame]) hend hend'
          obtain ⟨coarse, hrun, hbefore', hafter', hfar', hhead, hcovers'⟩ :=
            @ih (pa ++ (joined.kept ++ joined.removed)) (pb ++ (joined.kept ++ joined.added)) rest
              (Nat.le_trans hlength (Nat.le_of_succ_le_succ hfuel))
              (by rw [ha, Segment.before]; simp only [List.append_assoc])
              (by rw [hb, Segment.after]; simp only [List.append_assoc])
              (.inr fun next hnext => Nat.le_trans (by decide) (Nat.le_of_lt (hfar next hnext)))
          simp only [List.length_append, ← Nat.add_assoc] at hrun hcovers'
          refine ⟨joined :: coarse, ?_, ?_, ?_, ?_, ?_, ?_⟩
          · simp only [hunksAt, groupHunks, hgroup, hhunk, hrun, reviewAt, hafter',
              Option.bind_eq_bind, Option.bind_some]
          · rw [Segment.before, hbefore', ← Segment.before, hbefore]
          · rw [Segment.after, hafter', ← Segment.after, hafter]
          · intro next hnext
            cases coarse with
            | nil => cases hnext
            | cons head coarse =>
                rcases List.mem_cons.1 hnext with rfl | hnext
                · cases rest with
                  | nil => cases hhead
                  | cons other rest =>
                      have hkept' : next.kept = other.kept := Option.some.inj hhead
                      rw [hkept']
                      exact hfar other rfl
                · exact hfar' next hnext
          · exact congrArg some hsame
          · intro raw hraw
            rcases List.mem_cons.1 hraw with rfl | hraw
            · refine ⟨_, List.mem_cons_self, ?_⟩
              simp only [PartOf, InRanges, hsame]
              omega
            · rcases hcovers raw hraw with hraw | hin
              · obtain ⟨hunk, hmem, hpart⟩ := hcovers' raw hraw
                exact ⟨hunk, List.mem_cons_of_mem _ hmem, hpart⟩
              · exact ⟨_, List.mem_cons_self, hin⟩

end

/-! ## Undoing -/

section

variable {P R Q added removed kept rest context tail : List Line} {i j fileIndex : Nat}
  {segments : List (Segment Line)} {undoing : Undoing} {hunk : ReviewHunk}

theorem split_context (P kept lines rest : List Line) : P ++ (kept ++ (lines ++ rest)) =
    (P ++ kept.take (kept.length - kReviewContextLines)) ++
      (kept.drop (kept.length - kReviewContextLines) ++
        (lines ++ (rest.take kReviewContextLines ++ rest.drop kReviewContextLines))) := by
  rw [List.take_append_drop, List.append_assoc, ← List.append_assoc (List.take _ kept),
    List.take_append_drop]

theorem length_context (P kept : List Line) : P.length + kept.length =
    (P ++ kept.take (kept.length - kReviewContextLines)).length +
      (kept.drop (kept.length - kReviewContextLines)).length := by
  rw [List.length_append, List.length_take, List.length_drop]
  omega

theorem undo_eq (hcreated : hunk.created = false) (hdeleted : hunk.deleted = false)
    (hbefore : hunk.contextBefore = kept.drop (kept.length - kReviewContextLines))
    (hold : hunk.oldLines = removed) (hnew : hunk.newLines = added)
    (hafter : hunk.contextAfter = rest.take kReviewContextLines)
    (hplace : hunk.newStart = P.length + kept.length) (hP : P = [] ∨ kept ≠ [])
    (hlined : Lined (P ++ (kept ++ (added ++ rest))))
    (hstate : undoing.state = { exists' := true, text := join (P ++ (kept ++ (added ++ rest))) }) :
    undoing.undo hunk =
      { undoing with
        state := { exists' := true, text := join (P ++ (kept ++ (removed ++ rest))) }
        undone := undoing.undone + 1 } := by
  have hfind : locateHunk undoing.state hunk = some hunk.newStart := by
    rw [locateHunk, hcreated, hdeleted, hstate]
    simp only [Bool.false_eq_true, if_false, Bool.not_true, join, hlined.splitLines_flatten]
    rw [hbefore, hnew, hafter]
    refine find_exact (P ++ kept.take (kept.length - kReviewContextLines))
      (rest.drop kReviewContextLines) ?_ ?_ ?_
    · rw [split_context]
      simp only [List.append_assoc]
    · rw [hplace, length_context]
    · intro hnone
      simp only [List.append_eq_nil_iff, List.drop_eq_nil_iff, List.take_eq_nil_iff] at hnone
      have hpos : ¬ kReviewContextLines = 0 := by decide
      have hkept : kept = [] := List.length_eq_zero_iff.1 (by omega)
      have hP' := hP.resolve_right (absurd hkept)
      have hrest := hnone.2.resolve_left hpos
      simp [hP', hkept, hnone.1.2, hrest]
  have hstate' : stateOf undoing.state hunk = .applied := by
    rw [stateOf, hfind]
    rfl
  have hrevert : revertHunk undoing.state hunk =
      some { exists' := true, text := join (P ++ (kept ++ (removed ++ rest))) } := by
    rw [revertHunk, hfind]
    simp only [hcreated, hdeleted, Bool.false_eq_true, if_false, hstate, join,
      hlined.splitLines_flatten, hold, hnew]
    have htake : (P ++ (kept ++ (added ++ rest))).take hunk.newStart = P ++ kept := by
      rw [hplace, ← List.append_assoc, ← List.length_append, List.take_left]
    have hdrop : (P ++ (kept ++ (added ++ rest))).drop (hunk.newStart + added.length) = rest := by
      rw [hplace, ← List.append_assoc, ← List.append_assoc, ← List.length_append,
        ← List.length_append, List.drop_left]
    rw [htake, hdrop]
    simp only [List.append_assoc]
  rw [Undoing.undo, hstate', hrevert]
  rfl

variable (tail) in
theorem take_after_eq (hfar : ∀ segment ∈ segments.head?, kReviewContextLines ≤ segment.kept.length) :
    (Segment.after segments tail).take kReviewContextLines =
      (Segment.before segments tail).take kReviewContextLines := by
  cases segments with
  | nil => rfl
  | cons segment segments =>
      have hle := hfar segment rfl
      rw [Segment.after, Segment.before, List.take_append_of_le_length hle,
        List.take_append_of_le_length hle]

theorem lined_before (hb : Lined (P ++ Segment.after segments tail))
    (ha : Lined (R ++ Segment.before segments tail))
    (hkept : ∀ segment ∈ segments.head?, segment.kept ≠ []) :
    Lined (P ++ Segment.before segments tail) := by
  cases segments with
  | nil => exact hb
  | cons segment segments => exact hb.mix ha (.inl (hkept segment rfl))

theorem Far.of_cons {segment : Segment Line} (h : Far (segment :: segments)) :
    Far segments ∧ ∀ next ∈ segments.head?, 2 * kReviewContextLines < next.kept.length :=
  ⟨fun next hnext => h next (List.mem_of_mem_tail hnext),
    fun next hnext => h next (List.mem_of_head? hnext)⟩

theorem undo_reviewAt (hfar : Far segments)
    (hP : P = [] ∨ ∀ segment ∈ segments.head?, segment.kept ≠ [])
    (hb : Lined (P ++ Segment.after segments tail))
    (ha : Lined (R ++ Segment.before segments tail)) :
    undoLoop (reviewAt fileIndex tail i P.length segments).reverse
        { exists' := true, text := join (P ++ Segment.after segments tail) } =
      { state := { exists' := true, text := join (P ++ Segment.before segments tail) }
        undone := segments.length, stranded := 0 } := by
  induction segments generalizing P R i with
  | nil => rfl
  | cons segment segments ih =>
      obtain ⟨hfar', hhead⟩ := hfar.of_cons
      have hkept : ∀ next ∈ segments.head?, next.kept ≠ [] := fun next hnext hnil => by
        have hlt := hhead next hnext
        rw [hnil] at hlt
        cases hlt
      have hb' : Lined ((P ++ (segment.kept ++ segment.added)) ++ Segment.after segments tail) := by
        simpa only [Segment.after, List.append_assoc] using hb
      have ha' : Lined ((R ++ (segment.kept ++ segment.removed)) ++ Segment.before segments tail) := by
        simpa only [Segment.before, List.append_assoc] using ha
      have hlined := lined_before hb' ha' hkept
      have hrest := ih (i := i + segment.kept.length + segment.removed.length) hfar' (.inr hkept) hb' ha'
      simp only [List.append_assoc, List.length_append, ← Nat.add_assoc] at hrest hlined
      rw [reviewAt, List.reverse_cons, undoLoop, List.foldl_append, Segment.after, ← undoLoop, hrest]
      have hcontext := take_after_eq tail fun next hnext =>
        Nat.le_trans (by decide) (Nat.le_of_lt (hhead next hnext))
      exact undo_eq rfl rfl rfl rfl rfl hcontext rfl (hP.imp_right fun h => h segment rfl) hlined rfl

end

end Ned.Editor.Acp
