import Ned.Editor.Acp.Theorems.TurnReview

/-!
# A file with some hunks undone

It has the old lines of these hunks between unchanged ones. A hunk is found at the nearest of all places
where its lines and contexts stand.
-/

namespace Ned.Editor.Acp

open Library Text

/-! ## Finding -/

def distance (expected place : Nat) : Nat :=
  if place > expected then place - expected else expected - place

def OccursAt (lines pattern : List Line) (start : Nat) : Prop :=
  start + pattern.length ≤ lines.length ∧ (lines.drop start).take pattern.length = pattern ∧
    (pattern = [] → lines = [])

/-- Where else the pattern stands is farther from where it is expected, or as far and behind. -/
def Nearest (lines pattern : List Line) (beforeCount expected start : Nat) : Prop :=
  ∀ other, OccursAt lines pattern other → other ≠ start →
    distance expected (start + beforeCount) < distance expected (other + beforeCount) ∨
      distance expected (start + beforeCount) = distance expected (other + beforeCount) ∧ start < other

section

variable {lines pattern before middle after : List Line} {beforeCount expected start place n : Nat}
  {best : Option (Nat × Nat)}

/-- The best place among the first ones. -/
def BestOf (lines pattern : List Line) (beforeCount expected n : Nat) : Option (Nat × Nat) → Prop
  | none => ∀ other < n, (lines.drop other).take pattern.length ≠ pattern
  | some (place, far) => ∃ start < n, place = start + beforeCount ∧
      far = distance expected (start + beforeCount) ∧
      (lines.drop start).take pattern.length = pattern ∧
      ∀ other < n, (lines.drop other).take pattern.length = pattern → other ≠ start →
        far < distance expected (other + beforeCount) ∨
          far = distance expected (other + beforeCount) ∧ start < other

theorem nearer_none (hmatch : (lines.drop n).take pattern.length = pattern) :
    nearer lines pattern beforeCount expected none n =
      some (n + beforeCount, distance expected (n + beforeCount)) := by
  rw [nearer, if_pos hmatch]
  rfl

theorem nearer_some (hmatch : (lines.drop n).take pattern.length = pattern) (place far : Nat) :
    nearer lines pattern beforeCount expected (some (place, far)) n =
      if distance expected (n + beforeCount) < far then
        some (n + beforeCount, distance expected (n + beforeCount))
      else
        some (place, far) := by
  rw [nearer, if_pos hmatch]
  rfl

theorem BestOf.next (h : BestOf lines pattern beforeCount expected n best) :
    BestOf lines pattern beforeCount expected (n + 1)
      (nearer lines pattern beforeCount expected best n) := by
  by_cases hmatch : (lines.drop n).take pattern.length = pattern
  · cases best with
    | none =>
        rw [nearer_none hmatch]
        refine ⟨n, Nat.lt_succ_self n, rfl, rfl, hmatch, fun other hother hmatch' hne => ?_⟩
        exact absurd hmatch' (h other (Nat.lt_of_le_of_ne (Nat.le_of_lt_succ hother) hne))
    | some found =>
        obtain ⟨place, far⟩ := found
        obtain ⟨start, hstart, rfl, rfl, hfound, hbest⟩ := h
        rw [nearer_some hmatch]
        by_cases hcloser : distance expected (n + beforeCount) < distance expected (start + beforeCount)
        · rw [if_pos hcloser]
          refine ⟨n, Nat.lt_succ_self n, rfl, rfl, hmatch, fun other hother hmatch' hne => ?_⟩
          have hother' : other < n := Nat.lt_of_le_of_ne (Nat.le_of_lt_succ hother) hne
          by_cases hsame : other = start
          · exact .inl (hsame ▸ hcloser)
          · have := hbest other hother' hmatch' hsame
            omega
        · rw [if_neg hcloser]
          refine ⟨start, Nat.lt_succ_of_lt hstart, rfl, rfl, hfound, fun other hother hmatch' hne => ?_⟩
          rcases Nat.lt_succ_iff_lt_or_eq.1 hother with hother | rfl
          · exact hbest other hother hmatch' hne
          · omega
  · rw [nearer, if_neg hmatch]
    cases best with
    | none =>
        intro other hother
        rcases Nat.lt_succ_iff_lt_or_eq.1 hother with hother | rfl
        · exact h other hother
        · exact hmatch
    | some found =>
        obtain ⟨place, far⟩ := found
        obtain ⟨start, hstart, hplace, hfar, hfound, hbest⟩ := h
        refine ⟨start, Nat.lt_succ_of_lt hstart, hplace, hfar, hfound, fun other hother hmatch' hne => ?_⟩
        rcases Nat.lt_succ_iff_lt_or_eq.1 hother with hother | rfl
        · exact hbest other hother hmatch' hne
        · exact absurd hmatch' hmatch

theorem bestOf_foldl (lines pattern : List Line) (beforeCount expected n : Nat) :
    BestOf lines pattern beforeCount expected n
      ((List.range n).foldl (nearer lines pattern beforeCount expected) none) := by
  induction n with
  | zero => exact fun other hother => absurd hother (Nat.not_lt_zero _)
  | succ n ih =>
      rw [List.range_succ, List.foldl_append]
      exact ih.next

theorem find_spec (lines before middle after : List Line) (expected : Nat) :
    (find lines before middle after expected = none ∧
      ∀ start, ¬OccursAt lines (before ++ middle ++ after) start) ∨
    ∃ start, find lines before middle after expected = some (start + before.length) ∧
      OccursAt lines (before ++ middle ++ after) start ∧
      Nearest lines (before ++ middle ++ after) before.length expected start := by
  rw [find]
  by_cases hempty : before ++ middle ++ after = []
  · have hbefore : before = [] := by simpa using (List.append_eq_nil_iff.1 (List.append_eq_nil_iff.1 hempty).1).1
    simp only [hempty, List.isEmpty_nil, if_true]
    by_cases hlines : lines = []
    · refine .inr ⟨0, by simp [hlines, hbefore], ⟨by simp, by simp, fun _ => hlines⟩, ?_⟩
      intro other hother hne
      have := hother.1
      rw [hlines] at this
      exact absurd (by simpa using this) hne
    · refine .inl ⟨by simp [hlines], fun start hstart => hlines (hstart.2.2 rfl)⟩
  · have hnonempty : ¬(before ++ middle ++ after).isEmpty = true := by rwa [List.isEmpty_iff]
    simp only [if_neg hnonempty]
    by_cases hlong : (before ++ middle ++ after).length > lines.length
    · refine .inl ⟨if_pos hlong, fun start hstart => ?_⟩
      have := hstart.1
      omega
    · have hoccurs : ∀ start, OccursAt lines (before ++ middle ++ after) start ↔
          start < lines.length - (before ++ middle ++ after).length + 1 ∧
            (lines.drop start).take (before ++ middle ++ after).length = before ++ middle ++ after := by
        intro start
        refine ⟨fun h => ⟨by have := h.1; omega, h.2.1⟩, fun h => ⟨by have := h.1; omega, h.2, ?_⟩⟩
        exact fun hnil => absurd hnil hempty
      have hbest := bestOf_foldl lines (before ++ middle ++ after) before.length expected
        (lines.length - (before ++ middle ++ after).length + 1)
      rw [if_neg hlong]
      cases hcase : (List.range (lines.length - (before ++ middle ++ after).length + 1)).foldl
          (nearer lines (before ++ middle ++ after) before.length expected) none with
      | none =>
          rw [hcase] at hbest
          exact .inl ⟨rfl, fun start hstart =>
            hbest start ((hoccurs start).1 hstart).1 ((hoccurs start).1 hstart).2⟩
      | some found =>
          obtain ⟨place, far⟩ := found
          rw [hcase] at hbest
          obtain ⟨start, hstart, rfl, rfl, hmatch, hnearest⟩ := hbest
          refine .inr ⟨start, rfl, (hoccurs start).2 ⟨hstart, hmatch⟩, fun other hother hne => ?_⟩
          exact hnearest other ((hoccurs other).1 hother).1 ((hoccurs other).1 hother).2 hne

theorem find_eq_none_iff : find lines before middle after expected = none ↔
    ∀ start, ¬OccursAt lines (before ++ middle ++ after) start := by
  rcases find_spec lines before middle after expected with ⟨hnone, hnot⟩ | ⟨start, hsome, hoccurs, -⟩
  · exact iff_of_true hnone hnot
  · rw [hsome]
    exact iff_of_false (by simp) fun hnot => hnot start hoccurs

theorem find_eq_some_iff (hoccurs : OccursAt lines (before ++ middle ++ after) start) :
    find lines before middle after expected = some (start + before.length) ↔
      Nearest lines (before ++ middle ++ after) before.length expected start := by
  rcases find_spec lines before middle after expected with ⟨-, hnot⟩ | ⟨found, hsome, hfound, hnearest⟩
  · exact absurd hoccurs (hnot start)
  · rw [hsome, Option.some.injEq, Nat.add_right_cancel_iff]
    constructor
    · rintro rfl
      exact hnearest
    · intro h
      by_contra hne
      have h₁ := h found hfound hne
      have h₂ := hnearest start hoccurs (Ne.symm hne)
      omega

end

/-! ## A file with some hunks undone -/

/-- What stands in place of a hunk when those with an index in `undone` are taken back. -/
def standing (undone : Nat → Bool) (index : Nat) (hunk : ReviewHunk) : List Line :=
  if undone index then hunk.oldLines else hunk.newLines

/-- The lines after the turn from `cursor` on with some hunks taken back. The first has the index
`index`. -/
def withUndone (lines : List Line) (undone : Nat → Bool) : Nat → Nat → List ReviewHunk → List Line
  | _, cursor, [] => lines.drop cursor
  | index, cursor, hunk :: hunks =>
      (lines.drop cursor).take (hunk.newStart - cursor) ++ (standing undone index hunk ++
        withUndone lines undone (index + 1) (hunk.newStart + hunk.newLines.length) hunks)

/-- Where the `n`-th of the hunks stands among these lines. -/
def ownPlace (undone : Nat → Bool) : Nat → Nat → List ReviewHunk → Nat → Nat
  | _, _, [], _ => 0
  | _, cursor, hunk :: _, 0 => hunk.newStart - cursor
  | index, cursor, hunk :: hunks, n + 1 =>
      hunk.newStart - cursor + ((standing undone index hunk).length +
        ownPlace undone (index + 1) (hunk.newStart + hunk.newLines.length) hunks n)

/-- What a script leads to when only some of its changes are made. -/
def mixed (tail : List Line) (undone : Nat → Bool) : Nat → List (Segment Line) → List Line
  | _, [] => tail
  | index, segment :: segments =>
      segment.kept ++ ((if undone index then segment.removed else segment.added) ++
        mixed tail undone (index + 1) segments)

section

variable {a b pb tail : List Line} {i j n index fileIndex : Nat} {segments : List (Segment Line)}
  {undone undone' : Nat → Bool} {hunk : ReviewHunk}

theorem withUndone_reviewAt (hb : b = pb ++ Segment.after segments tail) :
    withUndone b undone index pb.length (reviewAt fileIndex tail i pb.length segments) =
      mixed tail undone index segments := by
  induction segments generalizing pb i index with
  | nil => rw [reviewAt, withUndone, mixed, hb, List.drop_left, Segment.after]
  | cons segment segments ih =>
      have hrest := @ih (pb ++ (segment.kept ++ segment.added))
        (i + segment.kept.length + segment.removed.length) (index + 1)
        (by rw [hb, Segment.after]; simp only [List.append_assoc])
      simp only [List.length_append, ← Nat.add_assoc] at hrest
      rw [reviewAt, withUndone, mixed, hrest, Nat.add_sub_cancel_left, standing]
      congr 1
      rw [hb, Segment.after, List.drop_left, List.take_left]

theorem mixed_congr (h : ∀ m, index ≤ m → undone m = undone' m) :
    mixed tail undone index segments = mixed tail undone' index segments := by
  induction segments generalizing index with
  | nil => rfl
  | cons segment segments ih =>
      rw [mixed, mixed, h index (Nat.le_refl _), ih fun m hm => h m (Nat.le_of_succ_le hm)]

theorem mixed_none (h : ∀ m, undone m = false) :
    mixed tail undone index segments = Segment.after segments tail := by
  induction segments generalizing index with
  | nil => rfl
  | cons segment segments ih =>
      rw [mixed, h index, ih, Segment.after]
      rfl

theorem mixed_all (h : ∀ m < segments.length, undone (index + m) = true) :
    mixed tail undone index segments = Segment.before segments tail := by
  induction segments generalizing index with
  | nil => rfl
  | cons segment segments ih =>
      have hrest : ∀ m < segments.length, undone (index + 1 + m) = true := by
        intro m hm
        rw [Nat.add_assoc, Nat.add_comm 1 m]
        exact h (m + 1) (Nat.succ_lt_succ hm)
      rw [mixed, ih hrest, show undone index = true from h 0 (Nat.succ_pos _), Segment.before]
      rfl

theorem terminated_standing {segment next : Segment Line} (hkept : next.kept ≠ [])
    (ha : Lined (Segment.before (segment :: next :: segments) tail))
    (hb : Lined (Segment.after (segment :: next :: segments) tail)) :
    ∀ line ∈ segment.kept ++ (if undone index then segment.removed else segment.added),
      Terminated line := by
  rw [Segment.before, ← List.append_assoc] at ha
  rw [Segment.after, ← List.append_assoc] at hb
  cases undone index with
  | true => exact ha.terminated fun hnil => hkept (List.append_eq_nil_iff.1 hnil).1
  | false => exact hb.terminated fun hnil => hkept (List.append_eq_nil_iff.1 hnil).1

theorem lined_mixed (hfar : Far segments) (ha : Lined (Segment.before segments tail))
    (hb : Lined (Segment.after segments tail)) : Lined (mixed tail undone index segments) := by
  induction segments generalizing index with
  | nil => exact ha
  | cons segment segments ih =>
      obtain ⟨hfar', hhead⟩ := hfar.of_cons
      cases segments with
      | nil =>
          rw [mixed, mixed]
          cases undone index with
          | true => exact ha
          | false => exact hb
      | cons next segments =>
          have hkept : next.kept ≠ [] := fun hnil =>
            Nat.not_lt_zero _ (List.length_eq_zero_iff.2 hnil ▸ hhead next rfl)
          have hrest := @ih (index + 1) hfar' ha.of_append.2.of_append.2 hb.of_append.2.of_append.2
          rw [mixed, ← List.append_assoc]
          exact .append (terminated_standing hkept ha hb) hrest

theorem mixed_take (hfar : ∀ segment ∈ segments.head?, kReviewContextLines ≤ segment.kept.length) :
    (mixed tail undone index segments).take kReviewContextLines =
      (Segment.after segments tail).take kReviewContextLines := by
  cases segments with
  | nil => rfl
  | cons segment segments =>
      have hle := hfar segment rfl
      rw [Segment.after, mixed, List.take_append_of_le_length hle, List.take_append_of_le_length hle]

/-- What a hunk stands between, whether it is undone or not. -/
structure Stands (undone : Nat → Bool) (tail : List Line) (index : Nat) (segments : List (Segment Line))
    (n : Nat) (hunk : ReviewHunk) (place : Nat) (P kept rest : List Line) : Prop where
  before : hunk.contextBefore = kept.drop (kept.length - kReviewContextLines)
  after : hunk.contextAfter = rest.take kReviewContextLines
  place : place = P.length + kept.length
  first : (P = [] ∧ ∃ segment ∈ segments.head?, kept = segment.kept) ∨
    ∃ segment ∈ segments.tail, kept = segment.kept
  lines : ∀ undone', (∀ m, m ≠ index + n → undone' m = undone m) →
    mixed tail undone' index segments = P ++ (kept ++ (standing undone' (index + n) hunk ++ rest))

theorem reviewAt_stands (hfar : Far segments)
    (h : (reviewAt fileIndex tail i j segments)[n]? = some hunk) :
    ∃ P kept rest, Stands undone tail index segments n hunk
      (ownPlace undone index j (reviewAt fileIndex tail i j segments) n) P kept rest := by
  induction segments generalizing i j n index with
  | nil => cases h
  | cons segment segments ih =>
      obtain ⟨hfar', hhead⟩ := hfar.of_cons
      cases n with
      | zero =>
          cases h
          refine ⟨[], segment.kept, mixed tail undone (index + 1) segments, rfl, ?_, ?_,
            .inl ⟨rfl, segment, rfl, rfl⟩, ?_⟩
          · exact (mixed_take fun next hnext =>
              Nat.le_trans (by decide) (Nat.le_of_lt (hhead next hnext))).symm
          · rw [reviewAt, ownPlace, Nat.add_sub_cancel_left, List.length_nil, Nat.zero_add]
          · intro undone' hundone
            rw [mixed, mixed_congr fun m hm => hundone m (by omega)]
            rfl
      | succ n =>
          obtain ⟨P, kept, rest, hstands⟩ := @ih (i + segment.kept.length + segment.removed.length)
            (j + segment.kept.length + segment.added.length) n (index + 1) hfar' h
          refine ⟨segment.kept ++
            ((if undone index then segment.removed else segment.added) ++ P), kept, rest,
            hstands.before, hstands.after, ?_, .inr ?_, ?_⟩
          · rw [reviewAt, ownPlace, hstands.place, Nat.add_sub_cancel_left, List.length_append,
              List.length_append, Nat.add_assoc, Nat.add_assoc]
            rfl
          · rcases hstands.first with ⟨-, other, hother, hkept⟩ | ⟨other, hother, hkept⟩
            · exact ⟨other, List.mem_of_mem_head? hother, hkept⟩
            · exact ⟨other, List.mem_of_mem_tail hother, hkept⟩
          · intro undone' hundone
            have hindex : index + 1 + n = index + (n + 1) := by omega
            rw [mixed, hundone index (by omega), hstands.lines undone' fun m hm => hundone m (by omega),
              hindex]
            simp only [List.append_assoc]

theorem reviewAt_not_created (h : hunk ∈ reviewAt fileIndex tail i j segments) :
    hunk.created = false ∧ hunk.deleted = false := by
  induction segments generalizing i j with
  | nil => cases h
  | cons segment segments ih =>
      rcases List.mem_cons.1 h with rfl | h
      · exact ⟨rfl, rfl⟩
      · exact ih h

end

section

variable {P kept rest lines pattern pre tail : List Line} {index n place i j fileIndex : Nat}
  {segments : List (Segment Line)} {undone : Nat → Bool} {hunk : ReviewHunk}

theorem occursAt_of_eq (post : List Line) (hlines : lines = pre ++ (pattern ++ post)) (hempty : pattern = [] → lines = []) :
    OccursAt lines pattern pre.length := by
  refine ⟨?_, ?_, hempty⟩
  · rw [hlines, List.length_append, List.length_append]
    omega
  · rw [hlines, List.drop_left, List.take_left]

theorem Stands.occursAt (h : Stands undone tail index segments n hunk place P kept rest)
    (hfar : Far segments) :
    place - hunk.contextBefore.length + hunk.contextBefore.length = place ∧
      OccursAt (mixed tail undone index segments)
        (hunk.contextBefore ++ standing undone (index + n) hunk ++ hunk.contextAfter)
        (place - hunk.contextBefore.length) := by
  have hplace := h.place.trans (length_context P kept)
  rw [← h.before] at hplace
  have hlines := h.lines undone fun _ _ => rfl
  rw [split_context, ← h.before, ← h.after] at hlines
  have hstart : place - hunk.contextBefore.length =
      (P ++ kept.take (kept.length - kReviewContextLines)).length := by omega
  refine ⟨by omega, ?_⟩
  rw [hstart]
  refine occursAt_of_eq (rest.drop kReviewContextLines) ?_ ?_
  · rw [hlines]
    simp only [List.append_assoc]
  · intro hnone
    obtain ⟨hnone, hafter⟩ := List.append_eq_nil_iff.1 hnone
    obtain ⟨hbefore, hstanding⟩ := List.append_eq_nil_iff.1 hnone
    rw [h.after, List.take_eq_nil_iff] at hafter
    rw [h.before, List.drop_eq_nil_iff] at hbefore
    have hpos : 0 < kReviewContextLines := by decide
    have hkept : kept = [] := List.length_eq_zero_iff.1 (by omega)
    have hrest := hafter.resolve_left (Nat.ne_of_gt hpos)
    have hP : P = [] := by
      rcases h.first with ⟨hP, -⟩ | ⟨other, hother, hkept'⟩
      · exact hP
      · have hlong := hfar other hother
        rw [← hkept', hkept] at hlong
        exact absurd hlong (Nat.not_lt_zero _)
    rw [h.lines undone fun _ _ => rfl, hP, hkept, hstanding, hrest]
    rfl

theorem locateHunk_text (hcreated : hunk.created = false) (hdeleted : hunk.deleted = false)
    (hlined : Lined lines) : locateHunk { exists' := true, text := join lines } hunk =
      find lines hunk.contextBefore hunk.newLines hunk.contextAfter hunk.newStart := by
  rw [locateHunk, hcreated, hdeleted]
  simp only [Bool.false_eq_true, if_false, Bool.not_true, join, hlined.splitLines_flatten]

theorem Stands.revertHunk (h : Stands undone tail index segments n hunk place P kept rest)
    (hcreated : hunk.created = false) (hdeleted : hunk.deleted = false)
    (hlined : Lined (mixed tail undone index segments)) (hnot : undone (index + n) = false)
    (hlocate : locateHunk { exists' := true, text := join (mixed tail undone index segments) } hunk =
      some place) :
    revertHunk { exists' := true, text := join (mixed tail undone index segments) } hunk =
      some { exists' := true, text := join (P ++ (kept ++ (hunk.oldLines ++ rest))) } := by
  have hlines := h.lines undone fun _ _ => rfl
  rw [standing, if_neg (by rw [hnot]; decide)] at hlines
  rw [Acp.revertHunk, hlocate]
  simp only [hcreated, hdeleted, Bool.false_eq_true, if_false, join, hlined.splitLines_flatten]
  have htake : (P ++ (kept ++ (hunk.newLines ++ rest))).take place = P ++ kept := by
    rw [h.place, ← List.append_assoc, ← List.length_append, List.take_left]
  have hdrop : (P ++ (kept ++ (hunk.newLines ++ rest))).drop (place + hunk.newLines.length) = rest := by
    rw [h.place, ← List.append_assoc, ← List.append_assoc, ← List.length_append, ← List.length_append,
      List.drop_left]
  rw [hlines, htake, hdrop]
  simp only [List.append_assoc]

theorem Stands.undone_iff (h : Stands undone tail index segments n hunk place P kept rest)
    (hfar : Far segments) (hcreated : hunk.created = false) (hdeleted : hunk.deleted = false)
    (hlined : Lined (mixed tail undone index segments)) (hundone : undone (index + n) = true) :
    (stateOf { exists' := true, text := join (mixed tail undone index segments) } hunk = .undone ∧
      Acp.revertHunk { exists' := true, text := join (mixed tail undone index segments) } hunk = none) ↔
    ∀ start, ¬OccursAt (mixed tail undone index segments)
      (hunk.contextBefore ++ hunk.newLines ++ hunk.contextAfter) start := by
  have hlocate := locateHunk_text hcreated hdeleted hlined
  have hoccurs := (h.occursAt hfar).2
  rw [standing, if_pos hundone] at hoccurs
  rw [← find_eq_none_iff, ← hlocate]
  constructor
  · rintro ⟨hstate, -⟩
    by_contra hsome
    rw [stateOf, if_pos (Option.isSome_iff_ne_none.2 hsome)] at hstate
    cases hstate
  · intro hnone
    have hold : (find (mixed tail undone index segments) hunk.contextBefore hunk.oldLines hunk.contextAfter
        hunk.newStart).isSome := by
      rw [Option.isSome_iff_ne_none]
      exact fun hnone => find_eq_none_iff.1 hnone _ hoccurs
    refine ⟨?_, by rw [Acp.revertHunk, hnone]⟩
    rw [stateOf, hnone]
    simp only [hcreated, hdeleted, join, hlined.splitLines_flatten, hold, Option.isSome_none,
      Bool.false_eq_true, if_false, Bool.and_self, if_true]

end

end Ned.Editor.Acp
