import Ned.Text.Lemmas.LineDiff

/-!
# The diff is a correct edit script

What the hunks of a diff are to a reader: ranges of the two texts in order, with equal lines
between them, whose exchange makes the one text the other.
-/

namespace Ned.Text

open Ned.Library

def LineDiffHunk.aEnd (hunk : LineDiffHunk) : Nat := hunk.aStart + hunk.aCount

def LineDiffHunk.bEnd (hunk : LineDiffHunk) : Nat := hunk.bStart + hunk.bCount

/-- The base from line `i` on, with the range of each hunk replaced. -/
def replaceHunks (a b : List Line) : Nat → List LineDiffHunk → List Line
  | i, [] => a.drop i
  | i, hunk :: hunks =>
      (a.take hunk.aStart).drop i ++
        ((b.take hunk.bEnd).drop hunk.bStart ++ replaceHunks a b hunk.aEnd hunks)

/-- The lines behind one hunk and in front of the next are the same in both texts. -/
def SharedBetween (a b : List Line) (hunk next : LineDiffHunk) : Prop :=
  (a.take next.aStart).drop hunk.aEnd = (b.take next.bStart).drop hunk.bEnd

/-- Hunks that turn `a` into `b`. No two of them touch in either text, and the lines between them,
in front of the first and behind the last are the same in both. -/
structure IsScript (a b : List Line) (hunks : List LineDiffHunk) : Prop where
  increasing : hunks.Pairwise fun hunk next => hunk.aEnd < next.aStart ∧ hunk.bEnd < next.bStart
  nonempty : ∀ hunk ∈ hunks, 0 < hunk.aCount ∨ 0 < hunk.bCount
  inBounds : ∀ hunk ∈ hunks, hunk.aEnd ≤ a.length ∧ hunk.bEnd ≤ b.length
  shared : List.IsChain (SharedBetween a b)
    ({ aStart := 0, aCount := 0, bStart := 0, bCount := 0 } ::
      (hunks ++ [{ aStart := a.length, aCount := 0, bStart := b.length, bCount := 0 }]))
  replaces : replaceHunks a b 0 hunks = b

section

variable {a b : List Line} {hunks : List LineDiffHunk} {hunk : LineDiffHunk} {i j : Nat}
  {segments : List (Segment Line)} {tail : List Line}

theorem hunksAt_ge (h : hunk ∈ hunksAt i j segments) : i ≤ hunk.aStart ∧ j ≤ hunk.bStart := by
  induction segments generalizing i j with
  | nil => exact absurd h List.not_mem_nil
  | cons segment segments ih =>
      rcases List.mem_cons.1 h with rfl | h
      · exact ⟨Nat.le_add_right _ _, Nat.le_add_right _ _⟩
      · have hge := ih h
        omega

theorem hunksAt_gt (hkept : ∀ segment ∈ segments, segment.kept ≠ [])
    (h : hunk ∈ hunksAt i j segments) : i < hunk.aStart ∧ j < hunk.bStart := by
  cases segments with
  | nil => exact absurd h List.not_mem_nil
  | cons segment segments =>
      have hpos := List.length_pos_iff.2 (hkept segment List.mem_cons_self)
      rcases List.mem_cons.1 h with rfl | h
      · exact ⟨Nat.lt_add_of_pos_right hpos, Nat.lt_add_of_pos_right hpos⟩
      · have hge := hunksAt_ge h
        omega

theorem hunksAt_increasing (h : Segment.Separated segments) :
    (hunksAt i j segments).Pairwise fun hunk next =>
      hunk.aEnd < next.aStart ∧ hunk.bEnd < next.bStart := by
  induction segments generalizing i j with
  | nil => exact .nil
  | cons segment segments ih => exact .cons (fun _ hnext => hunksAt_gt h.apart hnext) (ih h.of_cons)

theorem hunksAt_nonempty (h : Segment.Separated segments) (hmem : hunk ∈ hunksAt i j segments) :
    0 < hunk.aCount ∨ 0 < hunk.bCount := by
  induction segments generalizing i j with
  | nil => exact absurd hmem List.not_mem_nil
  | cons segment segments ih =>
      rcases List.mem_cons.1 hmem with rfl | hmem
      · exact (h.changed segment List.mem_cons_self).imp List.length_pos_iff.2 List.length_pos_iff.2
      · exact ih h.of_cons hmem

theorem hunksAt_le (tail : List Line) (h : hunk ∈ hunksAt i j segments) :
    hunk.aEnd ≤ i + (Segment.before segments tail).length ∧
      hunk.bEnd ≤ j + (Segment.after segments tail).length := by
  induction segments generalizing i j with
  | nil => exact absurd h List.not_mem_nil
  | cons segment segments ih =>
      simp only [Segment.before, Segment.after, List.length_append]
      rcases List.mem_cons.1 h with rfl | h
      · simp only [LineDiffHunk.aEnd, LineDiffHunk.bEnd]
        omega
      · have hle := ih h
        omega

theorem slice_append (xs ys zs : List Line) :
    ((xs ++ (ys ++ zs)).take (xs.length + ys.length)).drop xs.length = ys := by
  rw [List.take_length_add_append, List.take_left, List.drop_left]

theorem hunksAt_shared (head : LineDiffHunk) (pa pb : List Line)
    (hi : head.aEnd = pa.length) (hj : head.bEnd = pb.length)
    (ha : a = pa ++ Segment.before segments tail) (hb : b = pb ++ Segment.after segments tail) :
    List.IsChain (SharedBetween a b) (head :: (hunksAt pa.length pb.length segments ++
      [{ aStart := a.length, aCount := 0, bStart := b.length, bCount := 0 }])) := by
  induction segments generalizing pa pb head with
  | nil =>
      refine .cons_cons ?_ (.singleton _)
      simp only [SharedBetween, hi, hj, ha, hb, Segment.before, Segment.after, List.take_length,
        List.drop_left]
  | cons segment segments ih =>
      have hrest := ih
        { aStart := pa.length + segment.kept.length, aCount := segment.removed.length,
          bStart := pb.length + segment.kept.length, bCount := segment.added.length }
        (pa ++ (segment.kept ++ segment.removed)) (pb ++ (segment.kept ++ segment.added))
        (by simp [LineDiffHunk.aEnd, Nat.add_assoc]) (by simp [LineDiffHunk.bEnd, Nat.add_assoc])
        (by rw [ha, Segment.before]; simp) (by rw [hb, Segment.after]; simp)
      simp only [List.length_append, ← Nat.add_assoc] at hrest
      rw [hunksAt, List.cons_append, List.isChain_cons_cons]
      refine ⟨?_, hrest⟩
      simp only [SharedBetween, hi, hj, ha, hb, Segment.before, Segment.after, slice_append]

theorem hunksAt_replaces (pa pb : List Line) (ha : a = pa ++ Segment.before segments tail)
    (hb : b = pb ++ Segment.after segments tail) :
    replaceHunks a b pa.length (hunksAt pa.length pb.length segments) =
      Segment.after segments tail := by
  induction segments generalizing pa pb with
  | nil => rw [ha]; exact List.drop_left
  | cons segment segments ih =>
      have hrest := ih (pa ++ (segment.kept ++ segment.removed))
        (pb ++ (segment.kept ++ segment.added))
        (by rw [ha, Segment.before]; simp) (by rw [hb, Segment.after]; simp)
      simp only [List.length_append, ← Nat.add_assoc] at hrest
      have hkept : (a.take (pa.length + segment.kept.length)).drop pa.length = segment.kept := by
        rw [ha, Segment.before, slice_append]
      have hadded := slice_append (pb ++ segment.kept) segment.added (Segment.after segments tail)
      rw [List.length_append, List.append_assoc, ← Segment.after, ← hb] at hadded
      rw [hunksAt, replaceHunks, LineDiffHunk.aEnd, LineDiffHunk.bEnd, hrest, hkept, hadded,
        Segment.after]

theorem Scripted.isScript (h : Scripted a b hunks) : IsScript a b hunks := by
  obtain ⟨segments, tail, ha, hb, rfl, hseparated⟩ := h
  have hle : ∀ hunk ∈ hunksAt 0 0 segments, hunk.aEnd ≤ a.length ∧ hunk.bEnd ≤ b.length := by
    intro hunk hmem
    rw [ha, hb]
    simpa only [Nat.zero_add] using hunksAt_le tail hmem
  have hreplaces : replaceHunks a b 0 (hunksAt 0 0 segments) = Segment.after segments tail :=
    hunksAt_replaces [] [] ha hb
  exact
    { increasing := hunksAt_increasing hseparated
      nonempty := fun _ hmem => hunksAt_nonempty hseparated hmem
      inBounds := hle
      shared := hunksAt_shared _ [] [] rfl rfl ha hb
      replaces := hreplaces.trans hb.symm }

end

/-- With any positive limit the comparison ends, reads nothing out of bounds, splits every pair of
ranges inside them if at all, and makes a script that leads from the one text to the other. -/
theorem compare_isScript (a b : List Line) (halfLimit : Int) (hlimit : 0 < halfLimit) :
    (∀ a0 a1 b0 b1 : Int, 0 ≤ a0 → a0 < a1 → a1 ≤ a.length → 0 ≤ b0 → b0 < b1 → b1 ≤ b.length →
      ∃ split, MyersDiff.middleSnake a b a0 a1 b0 b1 halfLimit = some split ∧
        ∀ x y, split = some (x, y) → (a0 ≤ x ∧ x ≤ a1) ∧ b0 ≤ y ∧ y ≤ b1) ∧
    (∃ hunks, MyersDiff.compare a b halfLimit (a.length + b.length + 1) 0 a.length 0 b.length [] =
      some hunks ∧ IsScript a b hunks) ∧
    ∃ hunks, diffLines a b = some hunks ∧ IsScript a b hunks := by
  refine ⟨?_, ?_, ?_⟩
  · intro a0 a1 b0 b1 ha0 ha ha1 hb0 hb hb1
    obtain ⟨split, hsplit, hbox⟩ := MyersDiff.middleSnake_inBox hlimit ha0 ha ha1 hb0 hb hb1
    exact ⟨split, hsplit, fun x y hpoint => hbox (x, y) hpoint⟩
  · obtain ⟨hunks, hrun, hscripted⟩ := run_scripted a b hlimit
    exact ⟨hunks, hrun, hscripted.isScript⟩
  · obtain ⟨hunks, hrun, hscripted⟩ := diffLines_scripted a b
    exact ⟨hunks, hrun, hscripted.isScript⟩

theorem compare_isScript_repeated :
    (∃ hunks, MyersDiff.compare [[97], [98], [97]] [[97], [97], [98]] 1 7 0 3 0 3 [] = some hunks ∧
      IsScript [[97], [98], [97]] [[97], [97], [98]] hunks) :=
  (compare_isScript [[97], [98], [97]] [[97], [97], [98]] 1 (by decide)).2.1

end Ned.Text
