import Ned.Text.Grapheme
import Ned.Text.Theorems.Storage

/-!
# Grapheme boundaries are always found

Every scan stays inside the text and moves on, so no step reads out of bounds or runs out of fuel.
-/

namespace Ned.Text

section Reads

variable {f : Nat → Option UInt8} {total : Nat}

theorem decodeTail_total (h : ∀ i < total, (f i).isSome) : ∀ (n offset : Nat) (cp : UInt32),
    offset + n ≤ total → ∃ r, decodeTail f offset n cp = some r
  | 0, _, _, _ => ⟨_, rfl⟩
  | n + 1, offset, cp, hle => by
      obtain ⟨b, hb⟩ := Option.isSome_iff_exists.1 (h offset (by omega))
      rw [decodeTail, hb, Option.bind_eq_bind, Option.bind_some]
      split
      · exact decodeTail_total h _ _ _ (by omega)
      · exact ⟨_, rfl⟩

theorem codepointAt_total (h : ∀ i < total, (f i).isSome) (o : Nat) :
    ∃ d, codepointAt f total o = some d ∧ (o < total → 0 < d.byteLength) := by
  unfold codepointAt
  split
  · rename_i hge
    exact ⟨_, rfl, fun hlt => absurd hlt (Nat.not_lt.2 hge)⟩
  · rename_i hlt
    obtain ⟨b, hb⟩ := Option.isSome_iff_exists.1 (h o (Nat.lt_of_not_ge hlt))
    rw [hb, Option.bind_eq_bind, Option.bind_some]
    split
    · exact ⟨_, rfl, fun _ => Nat.one_pos⟩
    · cases hlead : decodeLead b with
      | none => exact ⟨_, rfl, fun _ => Nat.one_pos⟩
      | some lead =>
          obtain ⟨len, cp⟩ := lead
          have hpos := decodeLead_pos hlead
          simp only
          split
          · exact ⟨_, rfl, fun _ => Nat.one_pos⟩
          · rename_i hfits
            obtain ⟨r, hr⟩ := decodeTail_total h (len - 1) (o + 1) cp (by omega)
            simp only [hr, Option.bind_eq_bind, Option.bind_some]
            cases r with
            | none => exact ⟨_, rfl, fun _ => Nat.one_pos⟩
            | some cp =>
                simp only
                split
                · exact ⟨_, rfl, fun _ => hpos⟩
                · exact ⟨_, rfl, fun _ => Nat.one_pos⟩

theorem backToLead_total (h : ∀ i < total, (f i).isSome) : ∀ (o steps : Nat), o < total →
    ∃ r, backToLead f o steps = some r ∧ r ≤ o
  | 0, _, _ => ⟨0, rfl, Nat.le_refl 0⟩
  | o + 1, steps, ho => by
      obtain ⟨b, hb⟩ := Option.isSome_iff_exists.1 (h (o + 1) ho)
      rw [backToLead, hb, Option.bind_eq_bind, Option.bind_some]
      split
      · obtain ⟨r, hr, hle⟩ := backToLead_total h o (steps + 1) (by omega)
        exact ⟨r, hr, Nat.le_succ_of_le hle⟩
      · exact ⟨_, rfl, Nat.le_refl _⟩

theorem previousCodepointBoundary_total (h : ∀ i < total, (f i).isSome) {o : Nat} (ho : o ≤ total) :
    ∃ r, previousCodepointBoundary f total o = some r ∧ r ≤ o := by
  unfold previousCodepointBoundary
  split
  · rename_i hzero
    exact ⟨0, rfl, Nat.zero_le _⟩
  · rename_i hpos
    obtain ⟨r, hr, hle⟩ := backToLead_total h (o - 1) 0 (by omega)
    obtain ⟨d, hd, -⟩ := codepointAt_total h r
    simp only [hr, hd, Option.bind_eq_bind, Option.bind_some]
    refine ⟨_, rfl, ?_⟩
    split <;> omega

end Reads

variable (breakStateful : GraphemeBreak) (rope : Storage)

theorem byteAt_isSome (i : Nat) (hi : i < rope.byteLength) : (rope.bytes[i]?).isSome := by
  rw [List.getElem?_eq_getElem hi]
  rfl

theorem backNCodepoints_total (n : Nat) {o : Nat} (ho : o ≤ rope.byteLength) :
    ∃ r, backNCodepoints rope n o = some r ∧ r ≤ o := by
  induction n generalizing o with
  | zero => exact ⟨o, rfl, Nat.le_refl o⟩
  | succ n ih =>
      unfold backNCodepoints
      split
      · obtain ⟨r, hr, hle⟩ := previousCodepointBoundary_total (byteAt_isSome rope) ho
        obtain ⟨r', hr', hle'⟩ := ih (Nat.le_trans hle ho)
        exact ⟨r', by rw [Storage.previousCodepointBoundary, hr]; exact hr', Nat.le_trans hle' hle⟩
      · exact ⟨o, rfl, Nat.le_refl o⟩

theorem lastBreakBefore_total {stop : Nat} (hstop : stop ≤ rope.byteLength) (fuel : Nat)
    {state : Int} {cp1 : UInt32} {offset : Nat} {last : Nat × Bool} (hfuel : stop ≤ offset + fuel) :
    ∃ r, lastBreakBefore breakStateful rope stop (fuel + 1) state cp1 offset last = some r := by
  induction fuel generalizing state cp1 offset last with
  | zero =>
      unfold lastBreakBefore
      rw [if_neg (show ¬offset < stop from Nat.not_lt.2 hfuel)]
      exact ⟨last, rfl⟩
  | succ fuel ih =>
      unfold lastBreakBefore
      split
      · rename_i hlt
        obtain ⟨d, hd, hpos⟩ := codepointAt_total (byteAt_isSome rope) offset
        have hpos := hpos (Nat.lt_of_lt_of_le hlt hstop)
        simp only [Storage.codepointAt, hd, Option.bind_eq_bind, Option.bind_some]
        exact ih (by omega)
      · exact ⟨last, rfl⟩

theorem scanBreaks_total (scanStart : Nat) {stop : Nat} (hstop : stop ≤ rope.byteLength) :
    ∃ r, scanBreaks breakStateful rope scanStart stop = some r := by
  obtain ⟨d, hd, -⟩ := codepointAt_total (byteAt_isSome rope) scanStart
  simp only [scanBreaks, Storage.codepointAt, hd, Option.bind_eq_bind, Option.bind_some]
  exact lastBreakBefore_total breakStateful rope hstop _ (by omega)

theorem snapBreak_total {o : Nat} (ho : o < rope.byteLength) (attempts lookback : Nat) :
    ∃ r, snapBreak breakStateful rope o attempts lookback = some r := by
  induction attempts generalizing lookback with
  | zero =>
      obtain ⟨r, hr, -⟩ := backNCodepoints_total rope lookback (Nat.le_of_lt ho)
      exact ⟨r, hr⟩
  | succ attempts ih =>
      obtain ⟨start, hstart, -⟩ := backNCodepoints_total rope lookback (Nat.le_of_lt ho)
      obtain ⟨⟨boundary, found⟩, hscan⟩ := scanBreaks_total breakStateful rope start ho
      simp only [snapBreak, hstart, hscan, Option.bind_eq_bind, Option.bind_some]
      split
      · exact ⟨boundary, rfl⟩
      · exact ih _

theorem codepointStart_le (text : Bytes) (k : Nat) : codepointStart text k ≤ text.length := by
  induction text generalizing k with
  | nil => exact Nat.le_refl 0
  | cons c text ih =>
      unfold codepointStart
      split
      · have := ih k
        simp only [List.length_cons]
        omega
      · cases k with
        | zero => exact Nat.zero_le _
        | succ k =>
            have := ih k
            simp only [List.length_cons]
            omega

theorem codepointOffsetToByteOffset_le (k : Nat) :
    rope.codepointOffsetToByteOffset k ≤ rope.byteLength := by
  unfold Storage.codepointOffsetToByteOffset
  split
  · exact Nat.zero_le _
  · exact codepointStart_le _ _

theorem snapToCodepoint_le (o : Nat) : snapToCodepoint rope o ≤ rope.byteLength := by
  simp only [snapToCodepoint]
  split <;> exact codepointOffsetToByteOffset_le rope _

theorem snapToGraphemeBoundary_total (o : Nat) :
    ∃ r, snapToGraphemeBoundary breakStateful rope o = some r := by
  simp only [snapToGraphemeBoundary]
  split
  · exact ⟨_, rfl⟩
  · rename_i hinner
    rw [not_or] at hinner
    exact snapBreak_total breakStateful rope
      (Nat.lt_of_le_of_ne (snapToCodepoint_le rope _) hinner.2) _ _

/-! ## What holds the bytes makes no difference -/

section Holders

variable (g : GraphemeBreak) (bytes : Bytes) (h h' : Bool)

theorem backNCodepoints_huge (n o : Nat) :
    backNCodepoints ⟨bytes, h⟩ n o = backNCodepoints ⟨bytes, h'⟩ n o := by
  induction n generalizing o with
  | zero => rfl
  | succ n ih =>
      simp only [backNCodepoints, ih]
      rfl

theorem lastBreakBefore_huge (stop n : Nat) (state : Int) (cp : UInt32) (o : Nat) (last : Nat × Bool) :
    lastBreakBefore g ⟨bytes, h⟩ stop n state cp o last =
      lastBreakBefore g ⟨bytes, h'⟩ stop n state cp o last := by
  induction n generalizing state cp o last with
  | zero => rfl
  | succ n ih =>
      simp only [lastBreakBefore, ih]
      rfl

theorem scanBreaks_huge (start stop : Nat) :
    scanBreaks g ⟨bytes, h⟩ start stop = scanBreaks g ⟨bytes, h'⟩ start stop := by
  simp only [scanBreaks, lastBreakBefore_huge g bytes h h']
  rfl

theorem snapToCodepoint_huge (o : Nat) :
    snapToCodepoint ⟨bytes, h⟩ o = snapToCodepoint ⟨bytes, h'⟩ o := rfl

theorem snapBreak_huge (o attempts lookback : Nat) :
    snapBreak g ⟨bytes, h⟩ o attempts lookback = snapBreak g ⟨bytes, h'⟩ o attempts lookback := by
  induction attempts generalizing lookback with
  | zero => simp only [snapBreak, backNCodepoints_huge bytes h h']
  | succ attempts ih =>
      simp only [snapBreak, backNCodepoints_huge bytes h h', scanBreaks_huge g bytes h h', ih]

theorem snapToGraphemeBoundary_huge (o : Nat) :
    snapToGraphemeBoundary g ⟨bytes, h⟩ o = snapToGraphemeBoundary g ⟨bytes, h'⟩ o := by
  simp only [snapToGraphemeBoundary, snapBreak_huge g bytes h h', snapToCodepoint_huge bytes h h']
  rfl

end Holders

end Ned.Text
