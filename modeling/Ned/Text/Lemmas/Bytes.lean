import Ned.Library.Lemmas.MeasuredTree
import Ned.Text.Bytes

/-!
# Lemmas on bytes

The scans of a leaf, put together over the leaves of a tree, find what a scan of the flat text finds.
-/

namespace Ned.Text

open Ned.Library MeasuredTree

/-! ## Lengths -/

theorem insertAt_length {text : Bytes} {offset : Nat} (h : offset ≤ text.length) (inserted : Bytes) :
    (insertAt text offset inserted).length = text.length + inserted.length := by
  simp only [insertAt, List.length_append, List.length_take, List.length_drop]
  omega

theorem eraseAt_length {text : Bytes} {offset length : Nat} (h : offset + length ≤ text.length) :
    (eraseAt text offset length).length = text.length - length := by
  simp only [eraseAt, List.length_append, List.length_take, List.length_drop]
  omega

/-! ## Clamping -/

theorem drop_min_length (text : Bytes) (o : Nat) : text.drop (min o text.length) = text.drop o :=
  List.drop_eq_drop_min.symm

theorem take_min_length (text : Bytes) (o : Nat) : text.take (min o text.length) = text.take o :=
  List.take_eq_take_min.symm

theorem cut_min {start : UInt8 → Bool} {text : Bytes} {o : Nat} (h : Cut start text o) :
    Cut start text (min o text.length) := by
  rcases Nat.le_total o text.length with ho | ho
  · rwa [Nat.min_eq_left ho]
  · exact .of_length_le (by omega)

theorem take_drop_min (text : Bytes) (o n : Nat) :
    (text.drop (min o text.length)).take (min n (text.length - min o text.length)) =
      substr text o n := by
  rw [drop_min_length, substr]
  have h : text.length - min o text.length = (text.drop o).length := by
    rw [List.length_drop]
    omega
  rw [h, take_min_length]

theorem drop_drop_min (text : Bytes) (o n : Nat) :
    (text.drop (min o text.length)).drop (min n (text.length - min o text.length)) =
      text.drop (o + n) := by
  rw [drop_min_length]
  have h : text.length - min o text.length = (text.drop o).length := by
    rw [List.length_drop]
    omega
  rw [h, drop_min_length, List.drop_drop]

/-! ## Line starts -/

theorem scanLineStart_eq (text : Bytes) : ∀ {line seen : Nat} (i : Nat), seen < line →
    (scanLineStart line seen i text).getD (i + text.length) = i + lineStart text (line - seen) := by
  induction text with
  | nil =>
      intro line seen i h
      obtain ⟨k, hk⟩ : ∃ k, line - seen = k + 1 := ⟨line - seen - 1, by omega⟩
      simp only [scanLineStart, hk, lineStart, Option.getD_none, List.length_nil]
  | cons c text ih =>
      intro line seen i h
      obtain ⟨k, hk⟩ : ∃ k, line - seen = k + 1 := ⟨line - seen - 1, by omega⟩
      simp only [scanLineStart, hk, lineStart, List.length_cons]
      split
      · split
        · rename_i hlast
          have : k = 0 := by omega
          subst this
          cases text <;> simp [lineStart]
        · rename_i hmore
          have := ih (i + 1) (show seen + 1 < line by omega)
          rw [show line - (seen + 1) = k by omega] at this
          rw [show i + (text.length + 1) = i + 1 + text.length by omega, this]
          omega
      · have := ih (i + 1) h
        rw [hk] at this
        rw [show i + (text.length + 1) = i + 1 + text.length by omega, this]
        omega

theorem lineStart_of_lt {text : Bytes} : ∀ {line : Nat}, countNewlines text < line →
    lineStart text line = text.length := by
  induction text with
  | nil =>
      intro line h
      cases line <;> rfl
  | cons c text ih =>
      intro line h
      obtain ⟨line, rfl⟩ : ∃ k, line = k + 1 := ⟨line - 1, by omega⟩
      simp only [countNewlines_cons] at h
      simp only [lineStart, List.length_cons]
      split
      · rename_i hc
        rw [if_pos hc] at h
        rw [ih (by omega)]
        omega
      · rename_i hc
        rw [if_neg hc] at h
        rw [ih (by omega)]
        omega

theorem lineStart_append (s t : Bytes) : ∀ line : Nat,
    lineStart (s ++ t) line =
      if countNewlines s ≥ line then lineStart s line
      else s.length + lineStart t (line - countNewlines s) := by
  induction s with
  | nil =>
      intro line
      cases line with
      | zero => cases t <;> rfl
      | succ line => simp
  | cons c s ih =>
      intro line
      cases line with
      | zero => simp [lineStart]
      | succ line =>
          simp only [List.cons_append, lineStart, countNewlines_cons, List.length_cons, ih]
          by_cases hc : isNewline c = true
          · simp only [hc, if_true]
            by_cases hle : countNewlines s ≥ line
            · rw [if_pos hle, if_pos (by omega)]
            · rw [if_neg hle, if_neg (by omega),
                show line + 1 - (countNewlines s + 1) = line - countNewlines s by omega]
              omega
          · simp only [hc, Bool.false_eq_true, if_false, Nat.add_zero]
            split <;> omega

theorem scanTo_line (text : Bytes) {line : Nat} (h : 0 < line) :
    scanTo (fun line => scanLineStart line 0 0) line text = lineStart text line := by
  have := scanLineStart_eq text 0 h
  simpa [scanTo] using this

theorem scanSplits_line (start : UInt8 → Bool) :
    ScanSplits newlineCounter start (fun line => scanLineStart line 0 0) := by
  intro k s t hk _
  rw [scanTo_line _ hk, scanTo_line _ hk, lineStart_append]
  show (if countNewlines s ≥ k then _ else _) = if countNewlines s ≥ k then _ else _
  split
  · rfl
  · rename_i h
    rw [scanTo_line _ (show 0 < k - s.countP newlineCounter.holds from by
      show 0 < k - countNewlines s
      omega)]
    rfl

/-! ## Codepoint starts -/

theorem scanCodepointStart_eq (text : Bytes) : ∀ {k seen : Nat} (i : Nat), seen ≤ k →
    (scanCodepointStart k seen i text).getD (i + text.length) =
      i + codepointStart text (k - seen) := by
  induction text with
  | nil =>
      intro k seen i h
      simp only [scanCodepointStart, codepointStart, Option.getD_none, List.length_nil]
  | cons c text ih =>
      intro k seen i h
      simp only [scanCodepointStart, codepointStart, List.length_cons]
      split
      · rw [show i + (text.length + 1) = i + 1 + text.length by omega, ih (i + 1) h]
        omega
      · split
        · rename_i hk
          simp [hk]
        · rename_i hk
          obtain ⟨d, hd⟩ : ∃ d, k - seen = d + 1 := ⟨k - seen - 1, by omega⟩
          rw [show i + (text.length + 1) = i + 1 + text.length by omega, ih (i + 1) (by omega), hd,
            show k - (seen + 1) = d by omega]
          simp only []
          omega

theorem codepointStart_of_le {text : Bytes} : ∀ {k : Nat}, countCodepoints text ≤ k →
    codepointStart text k = text.length := by
  induction text with
  | nil => exact fun _ => rfl
  | cons c text ih =>
      intro k h
      simp only [countCodepoints_cons] at h
      simp only [codepointStart, List.length_cons]
      split
      · rename_i hc
        rw [if_pos hc] at h
        rw [ih (by omega)]
        omega
      · rename_i hc
        rw [if_neg hc] at h
        cases k with
        | zero => omega
        | succ k =>
            simp only []
            rw [ih (by omega)]
            omega

theorem countCodepoints_codepointStart {text : Bytes} : ∀ {k : Nat}, k ≤ countCodepoints text →
    codepointStart text k ≤ text.length ∧
      countCodepoints (text.take (codepointStart text k)) = k := by
  induction text with
  | nil =>
      intro k h
      rw [Nat.le_zero.1 h]
      exact ⟨Nat.le_refl _, rfl⟩
  | cons c text ih =>
      intro k h
      simp only [countCodepoints_cons] at h
      by_cases hc : isContinuationByte c = true
      · rw [if_pos hc] at h
        obtain ⟨hle, hcount⟩ := ih h
        simp only [codepointStart, hc, if_true]
        rw [Nat.add_comm 1, List.take_succ_cons, countCodepoints_cons, if_pos hc, hcount]
        exact ⟨Nat.succ_le_succ hle, rfl⟩
      · rw [if_neg hc] at h
        cases k with
        | zero => simp [codepointStart, hc]
        | succ k =>
            obtain ⟨hle, hcount⟩ := ih (Nat.le_of_succ_le_succ h)
            simp only [codepointStart, hc, Bool.false_eq_true, if_false]
            rw [Nat.add_comm 1, List.take_succ_cons, countCodepoints_cons, if_neg hc, hcount]
            exact ⟨Nat.succ_le_succ hle, rfl⟩

theorem codepointStart_zero {text : Bytes} (h : Starts isStartByte text) :
    codepointStart text 0 = 0 := by
  obtain ⟨c, u, rfl, hc⟩ := h
  simp only [isStartByte, Bool.not_eq_true'] at hc
  simp [codepointStart, hc]

theorem codepointStart_append (s t : Bytes) (ht : Starts isStartByte t) : ∀ k : Nat,
    codepointStart (s ++ t) k =
      if countCodepoints s ≥ k then codepointStart s k
      else s.length + codepointStart t (k - countCodepoints s) := by
  induction s with
  | nil =>
      intro k
      cases k with
      | zero => simpa [codepointStart] using codepointStart_zero ht
      | succ k => simp
  | cons c s ih =>
      intro k
      simp only [List.cons_append, codepointStart, countCodepoints_cons, List.length_cons, ih]
      by_cases hc : isContinuationByte c = true
      · simp only [hc, if_true, Nat.add_zero]
        split <;> omega
      · simp only [hc, Bool.false_eq_true, if_false]
        cases k with
        | zero => simp
        | succ k =>
            dsimp only
            by_cases hle : countCodepoints s ≥ k
            · rw [if_pos hle, if_pos (by omega)]
            · rw [if_neg hle, if_neg (by omega),
                show k + 1 - (countCodepoints s + 1) = k - countCodepoints s by omega]
              omega

theorem scanTo_codepoint (text : Bytes) (k : Nat) :
    scanTo (fun k => scanCodepointStart k 0 0) k text = codepointStart text k := by
  have := scanCodepointStart_eq text (k := k) 0 (Nat.zero_le k)
  simpa [scanTo] using this

theorem scanSplits_codepoint :
    ScanSplits codepointCounter isStartByte (fun k => scanCodepointStart k 0 0) := by
  intro k s t _ ht
  rw [scanTo_codepoint, scanTo_codepoint, scanTo_codepoint]
  exact codepointStart_append s t ht k

end Ned.Text
