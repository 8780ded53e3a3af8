import Ned.Text.Lemmas.Points
import Ned.Text.Lemmas.Navigation
import Ned.Text.Lemmas.Rope
import Ned.Text.Motions

/-!
# Where snapping lands

An offset inside the text is snapped forward, to the end of the text, when no codepoint starts
before it; every other offset is snapped back or stays.
-/

namespace Ned.Text

open Ned.Library

/-- The offset is at an end of the text, or a codepoint starts before it. -/
def SnapsBack (text : Bytes) (o : Nat) : Prop :=
  o = 0 ∨ text.length ≤ o ∨ ∃ c ∈ text.take o, isStartByte c = true

theorem snapsBack_min {text : Bytes} {o : Nat} :
    SnapsBack text (min o text.length) ↔ SnapsBack text o := by
  unfold SnapsBack
  rw [take_min_length]
  constructor
  · rintro (hzero | hle | hstart)
    · rcases Nat.le_total o text.length with hle | hle
      · exact Or.inl (Nat.min_eq_left hle ▸ hzero)
      · exact Or.inr (Or.inl hle)
    · exact Or.inr (Or.inl (Nat.le_trans hle (Nat.min_le_left _ _)))
    · exact Or.inr (Or.inr hstart)
  · rintro (rfl | hle | hstart)
    · exact Or.inl (Nat.zero_min _)
    · exact Or.inr (Or.inl (Nat.le_of_eq (Nat.min_eq_right hle).symm))
    · exact Or.inr (Or.inr hstart)

/-! ## Codepoint indices -/

/-- What two readings of codepoint indices have in common, wherever the text is cut into leaves. -/
structure IndexesCodepoints (text : Bytes) (toCodepoint toByte : Nat → Nat) : Prop where
  count : ∀ o, toCodepoint o = countCodepoints (text.take o)
  zero : toByte 0 = 0
  inside : ∀ k < countCodepoints text,
    toByte k ≤ text.length ∧ countCodepoints (text.take (toByte k)) = k
  past : ∀ k, 0 < k → countCodepoints text ≤ k → toByte k = text.length

theorem Rope.Holds.indexesCodepoints {rope : Rope} {text : Bytes} (h : rope.Holds text) :
    IndexesCodepoints text rope.byteOffsetToCodepointOffset rope.codepointOffsetToByteOffset where
  count := h.byteOffsetToCodepointOffset
  zero := by cases hroot : rope.root <;> simp [Rope.codepointOffsetToByteOffset, hroot]
  inside k hk := by
    obtain ⟨root⟩ := rope
    cases root with
    | none =>
        cases h
        cases hk
    | some node =>
        have hcount : node.measure.codepointLength = countCodepoints text :=
          MeasuredTree.Denotes.count_eq codepointCounter h
        by_cases hzero : k = 0
        · simp [Rope.codepointOffsetToByteOffset, hzero]
        · obtain ⟨r, hr, hle, hstarts⟩ := MeasuredTree.Denotes.find_count codepointCounter
            (fun k s _ hk => scanTo_codepoint s k ▸ countCodepoints_codepointStart hk) h
            (Nat.le_of_lt hk)
          have hr : Id.run (MeasuredTree.find Rope.view Counts.byteLength Counts.codepointLength
            (fun k => scanCodepointStart k 0 0) node k) = r := hr
          simp only [Rope.codepointOffsetToByteOffset, hzero, if_false, hcount, Nat.not_le.2 hk, hr]
          exact ⟨hle, hstarts⟩
  past k hpos hk := by
    obtain ⟨root⟩ := rope
    cases root with
    | none =>
        cases h
        rfl
    | some node =>
        have hcount : node.measure.codepointLength = countCodepoints text :=
          MeasuredTree.Denotes.count_eq codepointCounter h
        simp only [Rope.codepointOffsetToByteOffset, hcount, if_neg (Nat.ne_of_gt hpos), if_pos hk]
        exact MeasuredTree.Denotes.size_eq h

theorem Storage.indexesCodepoints (storage : Storage) : IndexesCodepoints storage.bytes
    storage.byteOffsetToCodepointOffset storage.codepointOffsetToByteOffset where
  count _ := rfl
  zero := rfl
  inside k hk := by
    unfold Storage.codepointOffsetToByteOffset
    split
    · rename_i hzero
      simp [hzero]
    · exact countCodepoints_codepointStart (Nat.le_of_lt hk)
  past k hpos hk := by
    rw [Storage.codepointOffsetToByteOffset, if_neg (Nat.ne_of_gt hpos)]
    exact codepointStart_of_le hk

section

variable {text : Bytes} {toCodepoint toByte : Nat → Nat} {o : Nat}

theorem countCodepoints_take_mono (text : Bytes) {a b : Nat} (h : a ≤ b) :
    countCodepoints (text.take a) ≤ countCodepoints (text.take b) :=
  (List.take_sublist_take_left h).countP_le

theorem countCodepoints_take_le (text : Bytes) (o : Nat) :
    countCodepoints (text.take o) ≤ countCodepoints text :=
  (List.take_sublist o text).countP_le

theorem IndexesCodepoints.toByte_le (h : IndexesCodepoints text toCodepoint toByte) (k : Nat) :
    toByte k ≤ text.length := by
  by_cases hk : k < countCodepoints text
  · exact (h.inside k hk).1
  · by_cases hzero : k = 0
    · rw [hzero, h.zero]
      exact Nat.zero_le _
    · exact Nat.le_of_eq (h.past k (Nat.pos_of_ne_zero hzero) (Nat.le_of_not_lt hk))

theorem snapToCodepointBy_le_length (h : IndexesCodepoints text toCodepoint toByte) (o : Nat) :
    snapToCodepointBy toCodepoint toByte o ≤ text.length := by
  simp only [snapToCodepointBy]
  split <;> exact h.toByte_le _

/-- With a codepoint start before the offset, the index of the codepoint before it is no wraparound. -/
theorem snapToCodepointBy_le (h : IndexesCodepoints text toCodepoint toByte)
    (hstart : 0 < countCodepoints (text.take o)) : snapToCodepointBy toCodepoint toByte o ≤ o := by
  simp only [snapToCodepointBy, h.count]
  split
  · rw [if_neg (Nat.ne_of_gt hstart)]
    have hlast : countCodepoints (text.take o) - 1 < countCodepoints text :=
      Nat.lt_of_lt_of_le (Nat.sub_one_lt (Nat.ne_of_gt hstart)) (countCodepoints_take_le text o)
    obtain ⟨-, hcount⟩ := h.inside _ hlast
    apply Nat.le_of_not_lt
    intro hlt
    have hmono := countCodepoints_take_mono text (Nat.le_of_lt hlt)
    rw [hcount] at hmono
    omega
  · rename_i heq
    exact Nat.le_of_eq (Decidable.of_not_not heq)

theorem snapToCodepointBy_zero (h : IndexesCodepoints text toCodepoint toByte) :
    snapToCodepointBy toCodepoint toByte 0 = 0 := by
  simp [snapToCodepointBy, h.count, h.zero]

/-- Without one, the index wraps around and is past every codepoint. -/
theorem snapToCodepointBy_wraps (h : IndexesCodepoints text toCodepoint toByte)
    (hsize : text.length ≤ sizeMax) (hpos : 0 < o) (hnone : countCodepoints (text.take o) = 0) :
    snapToCodepointBy toCodepoint toByte o = text.length := by
  have hmax : countCodepoints text ≤ sizeMax := Nat.le_trans List.countP_le_length hsize
  simp only [snapToCodepointBy, h.count, hnone, h.zero, if_pos (Nat.ne_of_lt hpos), if_true]
  exact h.past _ (by decide) hmax

theorem snapToCodepointBy_le_iff (h : IndexesCodepoints text toCodepoint toByte)
    (hsize : text.length ≤ sizeMax) (o : Nat) :
    snapToCodepointBy toCodepoint toByte (min o text.length) ≤ min o text.length ↔
      SnapsBack text o := by
  have hstarts : 0 < countCodepoints (text.take (min o text.length)) ↔
      ∃ c ∈ text.take o, isStartByte c = true := by
    rw [take_min_length]
    exact List.countP_pos_iff
  by_cases hstart : 0 < countCodepoints (text.take (min o text.length))
  · exact iff_of_true (snapToCodepointBy_le h hstart) (Or.inr (Or.inr (hstarts.1 hstart)))
  · have hnone := Nat.eq_zero_of_not_pos hstart
    by_cases hzero : min o text.length = 0
    · rw [hzero, snapToCodepointBy_zero h]
      refine iff_of_true (Nat.le_refl 0) ?_
      rcases Nat.le_total o text.length with hle | hle
      · exact Or.inl (Nat.min_eq_left hle ▸ hzero)
      · exact Or.inr (Or.inl hle)
    · rw [snapToCodepointBy_wraps h hsize (Nat.pos_of_ne_zero hzero) hnone]
      constructor
      · intro hle
        exact Or.inr (Or.inl (Nat.le_trans hle (Nat.min_le_left _ _)))
      · rintro (rfl | hle | hsome)
        · exact absurd (Nat.zero_min _) hzero
        · rw [Nat.min_eq_right hle]
        · exact absurd (hstarts.2 hsome) hstart

end

/-! ## Snapping -/

theorem snap_le_iff {breakStateful : GraphemeBreak} (storage : Storage)
    {toCodepoint toByte : Nat → Nat}
    (h : IndexesCodepoints storage.bytes toCodepoint toByte) (hsize : storage.byteLength ≤ sizeMax)
    (o : Nat) : ∃ r,
      (if snapToCodepointBy toCodepoint toByte (min o storage.byteLength) = 0 ∨
          snapToCodepointBy toCodepoint toByte (min o storage.byteLength) = storage.byteLength then
        some (snapToCodepointBy toCodepoint toByte (min o storage.byteLength))
      else
        snapBreak breakStateful storage
          (snapToCodepointBy toCodepoint toByte (min o storage.byteLength)) 10 32) = some r ∧
        (r ≤ min o storage.byteLength ↔ SnapsBack storage.bytes o) := by
  have hiff := snapToCodepointBy_le_iff h hsize o
  have hle := snapToCodepointBy_le_length h (min o storage.byteLength)
  have hlength : storage.bytes.length = storage.byteLength := rfl
  rw [hlength] at hiff hle
  split
  · exact ⟨_, rfl, hiff⟩
  · rename_i hinner
    rw [not_or] at hinner
    have hlt := Nat.lt_of_le_of_ne hle hinner.2
    obtain ⟨r, hr⟩ := snapBreak_total breakStateful storage hlt 10 32
    refine ⟨r, hr, ?_⟩
    by_cases hback : SnapsBack storage.bytes o
    · exact iff_of_true (Nat.le_trans (snapBreak_le hle hr) (hiff.2 hback)) hback
    · -- the index wrapped around, so the codepoint is past the end
      refine absurd ?_ hinner.2
      have hpos : 0 < min o storage.byteLength := by
        apply Nat.pos_of_ne_zero
        intro hzero
        rw [hzero, snapToCodepointBy_zero h] at hinner
        exact hinner.1 rfl
      have hnone : countCodepoints (storage.bytes.take (min o storage.byteLength)) = 0 := by
        apply Nat.eq_zero_of_not_pos
        intro hstart
        exact hback (hiff.1 (snapToCodepointBy_le h hstart))
      exact snapToCodepointBy_wraps h hsize hpos hnone

theorem Rope.snapToGraphemeBoundary_le_iff {breakStateful : GraphemeBreak} {rope : Rope}
    (hrope : rope.Built) (hsize : rope.byteLength ≤ sizeMax) (o : Nat) :
    ∃ r, rope.snapToGraphemeBoundary breakStateful o = some r ∧
      (r ≤ min o rope.byteLength ↔ SnapsBack rope.toString o) := by
  obtain ⟨text, h⟩ := hrope.exists_holds
  have hindex := h.indexesCodepoints
  simp only [Rope.snapToGraphemeBoundary]
  rw [h.byteLength] at hsize ⊢
  rw [h.toString]
  exact snap_le_iff { bytes := text, huge := false } hindex hsize o

theorem snapToGraphemeBoundary_le_iff {breakStateful : GraphemeBreak} {storage : Storage}
    (hsize : storage.byteLength ≤ sizeMax) (o : Nat) :
    ∃ r, snapToGraphemeBoundary breakStateful storage o = some r ∧
      (r ≤ min o storage.byteLength ↔ SnapsBack storage.bytes o) :=
  snap_le_iff storage storage.indexesCodepoints hsize o

/-! ## Motions find an offset -/

section

variable (storage : Storage) (holds : UInt32 → Bool)

theorem skipForwardWithin_total (fuel : Nat) {o : Nat} (hfuel : storage.byteLength ≤ o + fuel) :
    ∃ r, skipForwardWithin storage holds (fuel + 1) o = some r := by
  induction fuel generalizing o with
  | zero =>
      rw [skipForwardWithin, if_neg (show ¬o < storage.byteLength from Nat.not_lt.2 hfuel)]
      exact ⟨o, rfl⟩
  | succ fuel ih =>
      unfold skipForwardWithin
      split
      · rename_i hlt
        obtain ⟨d, hd, hpos⟩ := codepointAt_total (byteAt_isSome storage) o
        have hpos := hpos hlt
        have hnext : storage.nextCodepointBoundary o = some (o + d.byteLength) := by
          rw [Storage.nextCodepointBoundary, nextCodepointBoundary, if_neg (Nat.not_le.2 hlt), hd]
          rfl
        simp only [Storage.codepointAt, hd, hnext, Option.bind_eq_bind, Option.bind_some]
        split
        · exact ih (by omega)
        · exact ⟨o, rfl⟩
      · exact ⟨o, rfl⟩

theorem skipForward_total (o : Nat) : ∃ r, skipForward storage holds o = some r :=
  skipForwardWithin_total storage holds _ (Nat.le_add_left _ _)

theorem previousCodepointBoundary_lt {o : Nat} (hpos : 0 < o) (ho : o ≤ storage.byteLength) :
    ∃ r, storage.previousCodepointBoundary o = some r ∧ r < o := by
  have hread := byteAt_isSome storage
  obtain ⟨r, hr, hle⟩ := backToLead_total hread (o - 1) 0 (by omega)
  obtain ⟨d, hd, -⟩ := codepointAt_total hread r
  rw [Storage.previousCodepointBoundary, previousCodepointBoundary, if_neg (Nat.ne_of_gt hpos)]
  simp only [hr, hd, Option.bind_eq_bind, Option.bind_some]
  refine ⟨_, rfl, ?_⟩
  split <;> omega

theorem skipBackwardWithin_total (fuel : Nat) {o : Nat} (hfuel : o ≤ fuel)
    (ho : o ≤ storage.byteLength) :
    ∃ r, skipBackwardWithin storage holds (fuel + 1) o = some r ∧ r ≤ storage.byteLength := by
  induction fuel generalizing o with
  | zero =>
      rw [skipBackwardWithin, if_neg (Nat.not_lt.2 hfuel)]
      exact ⟨o, rfl, ho⟩
  | succ fuel ih =>
      unfold skipBackwardWithin
      split
      · rename_i hpos
        obtain ⟨previous, hprevious, hlt⟩ := previousCodepointBoundary_lt storage hpos ho
        obtain ⟨d, hd, -⟩ := codepointAt_total (byteAt_isSome storage) previous
        simp only [hprevious, Storage.codepointAt, hd, Option.bind_eq_bind, Option.bind_some]
        split
        · exact ih (by omega) (by omega)
        · exact ⟨o, rfl, ho⟩
      · exact ⟨o, rfl, ho⟩

theorem skipBackward_total {o : Nat} (ho : o ≤ storage.byteLength) :
    ∃ r, skipBackward storage holds o = some r ∧ r ≤ storage.byteLength :=
  skipBackwardWithin_total storage holds o (Nat.le_refl o) ho

end

namespace Buffer

/-- The motions that compute an offset and set the point there. -/
inductive Motion where
  | forwardWord
  | backwardWord
  | forwardSentence
  | backwardSentence
  deriving DecidableEq

def target (b : Buffer) : Motion → Option Nat
  | .forwardWord => b.forwardWordOffset
  | .backwardWord => b.backwardWordOffset
  | .forwardSentence => b.forwardSentenceOffset
  | .backwardSentence => b.backwardSentenceOffset

def move (p : Platform) (b : Buffer) : Motion → Option Buffer
  | .forwardWord => b.moveForwardWord p
  | .backwardWord => b.moveBackwardWord p
  | .forwardSentence => b.moveForwardSentence p
  | .backwardSentence => b.moveBackwardSentence p

section

variable {p : Platform} {b : Buffer}

theorem move_eq (motion : Motion) : b.move p motion = (b.target motion).bind (b.setPoint p) := by
  cases motion <;> rfl

theorem hopSentenceEnd_total {o : Nat} (ho : o ≤ b.storage.byteLength) :
    ∃ r, b.hopSentenceEnd o = some r ∧ r ≤ b.storage.byteLength := by
  unfold hopSentenceEnd
  split
  · rename_i hpos
    obtain ⟨previous, hprevious, hlt⟩ := previousCodepointBoundary_lt b.storage hpos ho
    obtain ⟨d, hd, -⟩ := codepointAt_total (byteAt_isSome b.storage) previous
    simp only [hprevious, Storage.codepointAt, hd, Option.bind_eq_bind, Option.bind_some]
    refine ⟨_, rfl, ?_⟩
    split
    · exact Nat.le_trans (Nat.le_of_lt hlt) ho
    · exact ho
  · exact ⟨o, rfl, ho⟩

theorem target_total (hpoint : b.point ≤ b.storage.byteLength) (motion : Motion) :
    ∃ o, b.target motion = some o := by
  cases motion with
  | forwardWord =>
      obtain ⟨o, ho⟩ := skipForward_total b.storage (fun codepoint => !isWordCodepoint codepoint)
        b.point
      simp only [target, forwardWordOffset, ho, Option.bind_eq_bind, Option.bind_some]
      exact skipForward_total _ _ o
  | backwardWord =>
      obtain ⟨o, ho, hle⟩ := skipBackward_total b.storage
        (fun codepoint => !isWordCodepoint codepoint) hpoint
      obtain ⟨r, hr, -⟩ := skipBackward_total b.storage isWordCodepoint hle
      simp only [target, backwardWordOffset, ho, Option.bind_eq_bind, Option.bind_some]
      exact ⟨r, hr⟩
  | forwardSentence =>
      obtain ⟨o, ho⟩ := skipForward_total b.storage
        (fun codepoint => !isSentenceEndCodepoint codepoint) b.point
      simp only [target, forwardSentenceOffset, ho, Option.bind_eq_bind, Option.bind_some]
      split
      · rename_i hlt
        obtain ⟨d, hd, -⟩ := codepointAt_total (byteAt_isSome b.storage) o
        have hnext : b.storage.nextCodepointBoundary o = some (o + d.byteLength) := by
          rw [Storage.nextCodepointBoundary, nextCodepointBoundary, if_neg (Nat.not_le.2 hlt), hd]
          rfl
        rw [hnext, Option.bind_some]
        exact skipForward_total _ _ _
      · exact ⟨o, rfl⟩
  | backwardSentence =>
      obtain ⟨o, ho, hle⟩ := skipBackward_total b.storage isSpaceOrNewlineCodepoint hpoint
      obtain ⟨hop, hhop, hle⟩ := hopSentenceEnd_total hle
      obtain ⟨r, hr, -⟩ := skipBackward_total b.storage
        (fun codepoint => !isSentenceEndCodepoint codepoint) hle
      simp only [target, backwardSentenceOffset, ho, hhop, hr, Option.bind_eq_bind, Option.bind_some]
      exact skipForward_total _ _ r

end

/-- Where the operations that snap an offset put what they place. -/
structure SnapsWhatItPlaces (p : Platform) (b : Buffer) : Prop where
  point : ∀ o, ∃ b', b.setPoint p o = some b' ∧
    (b'.point ≤ min o b.storage.byteLength ↔ SnapsBack b.storage.bytes o)
  mark : ∀ o, ∃ b' landed, b.setMark p o = some b' ∧ b'.mark = some landed ∧
    (landed ≤ min o b.storage.byteLength ↔ SnapsBack b.storage.bytes o)
  cursor : ∀ o mark, ∃ (b' : Buffer) (added : Cursor), b.addCursorAt p o mark = some b' ∧
    (added.point ≤ min o b.storage.byteLength ↔ SnapsBack b.storage.bytes o) ∧
    (∀ m, mark = some m → ∃ landed, added.mark = some landed ∧
      (landed ≤ min m b.storage.byteLength ↔ SnapsBack b.storage.bytes m)) ∧
    ∀ c ∈ b'.secondaryCursors, c ∈ b.secondaryCursors ∨ c = added
  motion : ∀ motion, ∃ o b', b.target motion = some o ∧ b.move p motion = some b' ∧
    (b'.point ≤ min o b.storage.byteLength ↔ SnapsBack b.storage.bytes o)

section

variable {p : Platform} {b : Buffer}

theorem snap_le_iff (hsize : b.storage.byteLength ≤ sizeMax) (o : Nat) :
    ∃ r, b.snap p o = some r ∧
      (r ≤ min o b.storage.byteLength ↔ SnapsBack b.storage.bytes o) :=
  snapToGraphemeBoundary_le_iff hsize o

theorem setPoint_le_iff (hsize : b.storage.byteLength ≤ sizeMax) (o : Nat) :
    ∃ b', b.setPoint p o = some b' ∧
      (b'.point ≤ min o b.storage.byteLength ↔ SnapsBack b.storage.bytes o) := by
  obtain ⟨r, hr, hiff⟩ := snap_le_iff (p := p) hsize o
  refine ⟨{ b with point := r, canAmend := false, goalColumn := none }, ?_, hiff⟩
  rw [setPoint, hr]
  rfl

theorem setMark_le_iff (hsize : b.storage.byteLength ≤ sizeMax) (o : Nat) :
    ∃ b' landed, b.setMark p o = some b' ∧ b'.mark = some landed ∧
      (landed ≤ min o b.storage.byteLength ↔ SnapsBack b.storage.bytes o) := by
  obtain ⟨r, hr, hiff⟩ := snap_le_iff (p := p) hsize o
  refine ⟨{ b with mark := some r }, r, ?_, rfl, hiff⟩
  rw [setMark, hr]
  rfl

theorem snap_min_le_iff (hsize : b.storage.byteLength ≤ sizeMax) (o : Nat) :
    ∃ r, b.snap p (min o b.storage.byteLength) = some r ∧
      (r ≤ min o b.storage.byteLength ↔ SnapsBack b.storage.bytes o) := by
  obtain ⟨r, hr, hiff⟩ := snap_le_iff (p := p) hsize (min o b.storage.byteLength)
  refine ⟨r, hr, ?_⟩
  rw [Nat.min_assoc, Nat.min_self] at hiff
  rw [hiff]
  exact snapsBack_min

theorem addCursorAt_le_iff (hsize : b.storage.byteLength ≤ sizeMax) (o : Nat) (mark : Option Nat) :
    ∃ (b' : Buffer) (added : Cursor), b.addCursorAt p o mark = some b' ∧
      (added.point ≤ min o b.storage.byteLength ↔ SnapsBack b.storage.bytes o) ∧
      (∀ m, mark = some m → ∃ landed, added.mark = some landed ∧
        (landed ≤ min m b.storage.byteLength ↔ SnapsBack b.storage.bytes m)) ∧
      ∀ c ∈ b'.secondaryCursors, c ∈ b.secondaryCursors ∨ c = added := by
  obtain ⟨point, hpoint, hiff⟩ := snap_min_le_iff (p := p) hsize o
  obtain ⟨landed, hlanded, hmark⟩ : ∃ landed,
      mark.mapM (fun m => b.snap p (min m b.storage.byteLength)) = some landed ∧
      ∀ m, mark = some m → ∃ r, landed = some r ∧
        (r ≤ min m b.storage.byteLength ↔ SnapsBack b.storage.bytes m) := by
    cases mark with
    | none => exact ⟨none, rfl, fun m hm => by cases hm⟩
    | some m =>
        obtain ⟨r, hr, hiff⟩ := snap_min_le_iff (p := p) hsize m
        refine ⟨some r, by simp [hr], fun m' hm => ?_⟩
        cases hm
        exact ⟨r, rfl, hiff⟩
  simp only [addCursorAt, hpoint, hlanded, Option.bind_eq_bind, Option.bind_some]
  split
  · exact ⟨_, { point := point, mark := landed, goalColumn := none }, rfl, hiff, hmark,
      fun c hc => Or.inl hc⟩
  · refine ⟨_, { point := point, mark := landed, goalColumn := none }, rfl, hiff, hmark, ?_⟩
    intro c hc
    have hc := TrackedPositions.mem_of_mem_normalize hc
    simpa using hc

theorem move_le_iff (hpoint : b.point ≤ b.storage.byteLength)
    (hsize : b.storage.byteLength ≤ sizeMax) (motion : Motion) :
    ∃ o b', b.target motion = some o ∧ b.move p motion = some b' ∧
      (b'.point ≤ min o b.storage.byteLength ↔ SnapsBack b.storage.bytes o) := by
  obtain ⟨o, ho⟩ := target_total hpoint motion
  obtain ⟨b', hb', hiff⟩ := setPoint_le_iff (p := p) hsize o
  refine ⟨o, b', ho, ?_, hiff⟩
  rw [move_eq, ho, Option.bind_some, hb']

end

end Buffer

/-! ## The theorem -/

/-- A snapped offset stays at or before the one asked for exactly when that one is at an end of the
text or has a codepoint start before it. So it is for every rope that edits make and every grapheme
breaking, and for what a buffer's operations place. -/
theorem snap_stays_back_iff (p : Platform) :
    (∀ (rope : Rope) (o : Nat), rope.Built → rope.byteLength ≤ sizeMax →
      ∃ r, rope.snapToGraphemeBoundary p.graphemeBreak o = some r ∧
        (r ≤ min o rope.byteLength ↔ SnapsBack rope.toString o)) ∧
      ∀ b : Buffer, b.point ≤ b.storage.byteLength → b.storage.byteLength ≤ sizeMax →
        b.SnapsWhatItPlaces p := by
  constructor
  · intro rope o hrope hsize
    exact Rope.snapToGraphemeBoundary_le_iff hrope hsize o
  · intro b hpoint hsize
    exact
      { point := Buffer.setPoint_le_iff hsize
        mark := Buffer.setMark_le_iff hsize
        cursor := Buffer.addCursorAt_le_iff hsize
        motion := Buffer.move_le_iff hpoint hsize }

/-- At a rope and a buffer that start with two stray continuation bytes. -/
theorem snap_stays_back_iff_stray :
    (∃ rope r, Rope.ofText [0x80, 0x80, 97] = some rope ∧
      rope.snapToGraphemeBoundary (fun s _ _ => (true, s)) 2 = some r ∧
      (r ≤ min 2 rope.byteLength ↔ SnapsBack rope.toString 2)) ∧
      (Buffer.ofStorage "scratch" { bytes := [0x80, 0x80, 97], huge := false }).SnapsWhatItPlaces
        { graphemeBreak := fun s _ _ => (true, s), keySort := .insertion } := by
  let p : Platform := { graphemeBreak := fun s _ _ => (true, s), keySort := .insertion }
  have hsome : Rope.ofText [0x80, 0x80, 97] =
      some ⟨some (.leaf (Counts.of [0x80, 0x80, 97]) [0x80, 0x80, 97])⟩ := by
    decide +kernel
  obtain ⟨r, hr, hiff⟩ := (snap_stays_back_iff p).1 _ 2 (.ofText (by decide) hsome) (by decide)
  exact ⟨⟨_, r, hsome, hr, hiff⟩, (snap_stays_back_iff p).2 _ (by decide) (by decide)⟩

/-- Between the two stray continuation bytes no codepoint has started, and the snap goes to the
end. -/
theorem not_snap_stays_back :
    ¬∀ (breakStateful : GraphemeBreak) (rope : Rope) (o r : Nat), rope.Built →
      rope.snapToGraphemeBoundary breakStateful o = some r → r ≤ min o rope.byteLength := by
  intro h
  have hsome : Rope.ofText [0x80, 0x80, 97] =
      some ⟨some (.leaf (Counts.of [0x80, 0x80, 97]) [0x80, 0x80, 97])⟩ := by
    decide +kernel
  have hle := h (fun s _ _ => (true, s)) _ 1 3 (.ofText (by decide) hsome) (by decide +kernel)
  exact absurd hle (by decide +kernel)

end Ned.Text
