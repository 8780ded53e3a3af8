import Ned.Library.Lemmas.MeasuredTree
import Ned.Text.Bytes

/-!
# Lemmas on UTF-8 and chunks

Well-formed text starts with a start byte, and has one among any four bytes in a row.
-/

namespace Ned.Text

open Ned.Library MeasuredTree

/-! ## Encoded codepoints -/

theorem isContinuationByte_eq (c : UInt8) :
    isContinuationByte c = (decide (128 ≤ c.toNat) && decide (c.toNat < 192)) := by
  have h : ∀ n : Fin 256, isContinuationByte (UInt8.ofFin n) =
      (decide (128 ≤ n.val) && decide (n.val < 192)) := by decide +kernel
  exact h c.toFin

theorem isStartByte_of_lt {c : UInt8} (h : c.toNat < 128) : isStartByte c = true := by
  rw [isStartByte, isContinuationByte_eq, decide_eq_false (by omega)]
  rfl

theorem isStartByte_of_ge {c : UInt8} (h : 192 ≤ c.toNat) : isStartByte c = true := by
  rw [isStartByte, isContinuationByte_eq, decide_eq_false (show ¬c.toNat < 192 by omega),
    Bool.and_false]
  rfl

theorem toNat_lead (high : Nat) (x : UInt32) (i a : Nat) (hhigh : high = 2 ^ i * a)
    (hx : x.toNat < 2 ^ i) (hlt : high + 2 ^ i ≤ 256) :
    (UInt32.toUInt8 (UInt32.ofNat high ||| x)).toNat = high + x.toNat := by
  have hmod : high % 2 ^ 32 = high := Nat.mod_eq_of_lt (by omega)
  rw [UInt32.toNat_toUInt8, UInt32.toNat_or, UInt32.toNat_ofNat', hmod, hhigh,
    ← Nat.two_pow_add_eq_or_of_lt hx, ← hhigh]
  exact Nat.mod_eq_of_lt (by omega)

theorem encode_starts {cp : UInt32} (h : IsScalarValue cp) :
    Starts isStartByte (encodeCodepointUtf8 cp) := by
  have hcp : cp.toNat ≤ 0x10FFFF := UInt32.le_iff_toNat_le.1 h.1
  unfold encodeCodepointUtf8
  split
  · rename_i h1
    have h1 : cp.toNat < 128 := UInt32.lt_iff_toNat_lt.1 h1
    refine ⟨_, _, rfl, isStartByte_of_lt ?_⟩
    rw [UInt32.toNat_toUInt8]
    omega
  · split
    · rename_i h2
      have h2 : cp.toNat < 2048 := UInt32.lt_iff_toNat_lt.1 h2
      have hx : (cp >>> 6).toNat = cp.toNat / 64 := by
        simp [Nat.shiftRight_eq_div_pow]
      refine ⟨_, _, rfl, isStartByte_of_ge ?_⟩
      have := toNat_lead 0xC0 (cp >>> 6) 6 3 rfl (by omega) (by omega)
      exact this ▸ Nat.le_add_right _ _
    · split
      · rename_i h3
        have h3 : cp.toNat < 65536 := UInt32.lt_iff_toNat_lt.1 h3
        have hx : (cp >>> 12).toNat = cp.toNat / 4096 := by
          simp [Nat.shiftRight_eq_div_pow]
        refine ⟨_, _, rfl, isStartByte_of_ge ?_⟩
        have := toNat_lead 0xE0 (cp >>> 12) 5 7 rfl (by omega) (by omega)
        rw [show ((0xE0 : UInt32)) = UInt32.ofNat 0xE0 from rfl, this]
        omega
      · have hx : (cp >>> 18).toNat = cp.toNat / 262144 := by
          simp [Nat.shiftRight_eq_div_pow]
        refine ⟨_, _, rfl, isStartByte_of_ge ?_⟩
        have := toNat_lead 0xF0 (cp >>> 18) 4 15 rfl (by omega) (by omega)
        rw [show ((0xF0 : UInt32)) = UInt32.ofNat 0xF0 from rfl, this]
        omega

theorem encode_length_le (cp : UInt32) : (encodeCodepointUtf8 cp).length ≤ 4 := by
  unfold encodeCodepointUtf8
  split
  · simp
  · split
    · simp
    · split <;> simp

/-! ## Decoders read in bounds only -/

section Reads

variable {f g : Nat → Option UInt8} {total : Nat}

theorem decodeTail_congr (h : ∀ i < total, f i = g i) : ∀ {n offset : Nat} {cp : UInt32},
    offset + n ≤ total → decodeTail f offset n cp = decodeTail g offset n cp
  | 0, _, _, _ => rfl
  | n + 1, offset, cp, hle => by
      rw [decodeTail, decodeTail, h offset (by omega)]
      cases g offset with
      | none => rfl
      | some b =>
          simp only [Option.bind_eq_bind, Option.bind_some]
          rw [decodeTail_congr h (by omega)]

theorem decodeLead_pos {b0 : UInt8} {len : Nat} {cp : UInt32} (h : decodeLead b0 = some (len, cp)) :
    0 < len := by
  unfold decodeLead at h
  split at h
  · cases h; omega
  · split at h
    · cases h; omega
    · split at h
      · cases h; omega
      · cases h

theorem codepointAt_congr (h : ∀ i < total, f i = g i) (o : Nat) :
    codepointAt f total o = codepointAt g total o := by
  unfold codepointAt
  split
  · rfl
  · rw [h o (by omega)]
    cases g o with
    | none => rfl
    | some b0 =>
        simp only [Option.bind_eq_bind, Option.bind_some]
        split
        · rfl
        · cases hlead : decodeLead b0 with
          | none => rfl
          | some lead =>
              obtain ⟨len, cp⟩ := lead
              have hpos := decodeLead_pos hlead
              dsimp only
              split
              · rfl
              · rw [decodeTail_congr h (by omega)]

theorem backToLead_congr (h : ∀ i < total, f i = g i) : ∀ {o steps : Nat}, o < total →
    backToLead f o steps = backToLead g o steps
  | 0, _, _ => rfl
  | o + 1, steps, ho => by
      rw [backToLead, backToLead, h (o + 1) ho]
      cases g (o + 1) with
      | none => rfl
      | some b =>
          simp only [Option.bind_eq_bind, Option.bind_some]
          rw [backToLead_congr h (by omega)]

theorem previousCodepointBoundary_congr (h : ∀ i < total, f i = g i) {o : Nat} (ho : o ≤ total) :
    previousCodepointBoundary f total o = previousCodepointBoundary g total o := by
  unfold previousCodepointBoundary
  split
  · rfl
  · rw [backToLead_congr h (by omega)]
    simp only [codepointAt_congr h]

theorem nextCodepointBoundary_congr (h : ∀ i < total, f i = g i) (o : Nat) :
    nextCodepointBoundary f total o = nextCodepointBoundary g total o := by
  unfold nextCodepointBoundary
  rw [codepointAt_congr h]

end Reads

/-! ## Well-formed text -/

theorem wellFormedUtf8_of_codepoints {text : Bytes} (codepoints : List UInt32)
    (hscalar : codepoints.all (fun cp => decide (IsScalarValue cp)) = true)
    (htext : text = codepoints.flatMap encodeCodepointUtf8) : WellFormedUtf8 text :=
  ⟨codepoints, fun cp h => of_decide_eq_true (List.all_eq_true.1 hscalar cp h), htext⟩

theorem WellFormedUtf8.cases {s : Bytes} (h : WellFormedUtf8 s) :
    s = [] ∨ ∃ cp t, IsScalarValue cp ∧ WellFormedUtf8 t ∧ s = encodeCodepointUtf8 cp ++ t := by
  obtain ⟨cs, hcs, rfl⟩ := h
  cases cs with
  | nil => exact Or.inl rfl
  | cons cp cs =>
      refine Or.inr ⟨cp, cs.flatMap encodeCodepointUtf8, hcs cp (by simp),
        ⟨cs, fun c hc => hcs c (by simp [hc]), rfl⟩, rfl⟩

theorem WellFormedUtf8.starts {s : Bytes} (h : WellFormedUtf8 s) (hne : s ≠ []) :
    Starts isStartByte s := by
  rcases h.cases with rfl | ⟨cp, t, hcp, _, rfl⟩
  · exact absurd rfl hne
  · exact (encode_starts hcp).append

theorem WellFormedUtf8.cut_zero {s : Bytes} (h : WellFormedUtf8 s) : Cut isStartByte s 0 := by
  by_cases hne : s = []
  · exact .of_length_le (by simp [hne])
  · exact (h.starts hne).cut_zero

theorem WellFormedUtf8.start_near {s : Bytes} (h : WellFormedUtf8 s) {i : Nat}
    (hi : i < s.length) : ∃ j c, j ≤ i ∧ i < j + 4 ∧ s[j]? = some c ∧ isStartByte c = true := by
  obtain ⟨cs, hcs, rfl⟩ := h
  induction cs generalizing i with
  | nil => simp at hi
  | cons cp cs ih =>
      obtain ⟨c, u, heq, hc⟩ := encode_starts (hcs cp (by simp))
      have hlen := encode_length_le cp
      rw [List.flatMap_cons] at hi ⊢
      by_cases hlt : i < (encodeCodepointUtf8 cp).length
      · refine ⟨0, c, Nat.zero_le i, by omega, ?_, hc⟩
        rw [heq]
        rfl
      · rw [List.length_append] at hi
        obtain ⟨j, c', hj, hij, hget, hc'⟩ :=
          ih (fun c hc => hcs c (by simp [hc])) (i := i - (encodeCodepointUtf8 cp).length) (by omega)
        refine ⟨j + (encodeCodepointUtf8 cp).length, c', by omega, by omega, ?_, hc'⟩
        rw [List.getElem?_append_right (by omega)]
        simpa using hget

/-! ## Codepoint boundaries -/

theorem IsCodepointBoundary.cut {s : Bytes} {o : Nat} (h : IsCodepointBoundary s o) :
    Cut isStartByte s o := by
  intro c hc
  refine h.2.cut_zero c ?_
  rw [List.getElem?_drop]
  simpa using hc

/-!
## Lemmas on chunks

The chunk loop ends exactly when it starts with an underflow or meets no stall.
-/

variable {text : Bytes} {byteAt : Nat → Option UInt8} {chunkSize : Nat}

/-! ## Continuation bytes -/

theorem continuationAt_lt {i : Nat} (h : continuationAt text i = true) : i < text.length := by
  by_cases hi : i < text.length
  · exact hi
  · rw [continuationAt, List.getElem?_eq_none (by omega)] at h
    cases h

theorem continuationAt_of_getElem? {i : Nat} {c : UInt8} (h : text[i]? = some c) :
    continuationAt text i = isContinuationByte c := by
  rw [continuationAt, h]
  rfl

theorem cut_iff {o : Nat} : Cut isStartByte text o ↔ continuationAt text o = false := by
  constructor
  · intro h
    by_cases ho : o < text.length
    · have := h _ (List.getElem?_eq_getElem ho)
      rw [continuationAt_of_getElem? (List.getElem?_eq_getElem ho)]
      simpa [isStartByte] using this
    · rw [continuationAt, List.getElem?_eq_none (by omega)]
      rfl
  · intro h c hc
    rw [continuationAt_of_getElem? hc] at h
    simp [isStartByte, h]

theorem WellFormedUtf8.not_continuationAt_all (h : WellFormedUtf8 text) {p : Nat}
    (hp : p < text.length) : ∃ j, j ≤ p ∧ p < j + 4 ∧ continuationAt text j = false := by
  obtain ⟨j, c, hj, hpj, hget, hc⟩ := h.start_near hp
  refine ⟨j, hj, hpj, ?_⟩
  rw [continuationAt_of_getElem? hget]
  simpa [isStartByte] using hc

theorem WellFormedUtf8.not_stallsAt (h : WellFormedUtf8 text) (hsize : 4 ≤ chunkSize) (p : Nat) :
    ¬StallsAt chunkSize text p := by
  intro ⟨hlt, _, hrun⟩
  obtain ⟨j, hj, hpj, hc⟩ := h.not_continuationAt_all hlt
  rw [hrun j (by omega) hj] at hc
  cases hc

theorem WellFormedUtf8.not_underflows (h : WellFormedUtf8 text) :
    ¬Underflows chunkSize text := by
  intro hrun
  have hlt := continuationAt_lt (hrun chunkSize (Nat.le_refl _))
  obtain ⟨j, hj, _, hc⟩ := h.not_continuationAt_all hlt
  rw [hrun j hj] at hc
  cases hc

/-! ## The inner loop -/

theorem backUp_of_ge {k : Nat} (h : text.length ≤ k) : backUp byteAt text.length k = some k := by
  cases k with
  | zero => rw [backUp, if_neg (by omega)]
  | succ k => rw [backUp, if_neg (by omega)]

theorem backUp_eq (hbyte : ∀ i < text.length, byteAt i = text[i]?) {k : Nat}
    (hk : k < text.length) :
    (∃ j ≤ k, continuationAt text j = false ∧
      (∀ i, j < i → i ≤ k → continuationAt text i = true) ∧
        backUp byteAt text.length k = some j) ∨
      ((∀ i ≤ k, continuationAt text i = true) ∧ backUp byteAt text.length k = some sizeMax) := by
  induction k with
  | zero =>
      have hget := List.getElem?_eq_getElem hk
      have hc := continuationAt_of_getElem? hget
      simp only [backUp, if_pos hk, hbyte 0 hk, hget, Option.bind_eq_bind, Option.bind_some, ← hc]
      by_cases h0 : continuationAt text 0 = true
      · right
        refine ⟨fun i hi => ?_, by rw [if_pos h0]⟩
        rw [Nat.le_zero.1 hi]
        exact h0
      · left
        exact ⟨0, Nat.le_refl 0, by simpa using h0, fun i _ _ => by omega, by rw [if_neg h0]⟩
  | succ k ih =>
      have hget := List.getElem?_eq_getElem hk
      have hc := continuationAt_of_getElem? hget
      simp only [backUp, if_pos hk, hbyte (k + 1) hk, hget, Option.bind_eq_bind, Option.bind_some,
        ← hc]
      by_cases hk1 : continuationAt text (k + 1) = true
      · rw [if_pos hk1]
        rcases ih (by omega) with ⟨j, hj, hjc, hrun, heq⟩ | ⟨hrun, heq⟩
        · left
          refine ⟨j, by omega, hjc, fun i hi hik => ?_, heq⟩
          by_cases hik' : i = k + 1
          · exact hik' ▸ hk1
          · exact hrun i hi (by omega)
        · right
          refine ⟨fun i hi => ?_, heq⟩
          by_cases hik' : i = k + 1
          · exact hik' ▸ hk1
          · exact hrun i (by omega)
      · left
        exact ⟨k + 1, Nat.le_refl _, by simpa using hk1, fun i _ _ => by omega, by rw [if_neg hk1]⟩

/-! ## The outer loop -/

theorem chunkEnd_cases (hbyte : ∀ i < text.length, byteAt i = text[i]?) (hpos : 0 < chunkSize)
    {offset : Nat} (hlt : offset < text.length)
    (hoffset : offset = 0 ∨ continuationAt text offset = false) :
    (∃ e, offset < e ∧ e ≤ text.length ∧ e ≤ offset + chunkSize ∧ continuationAt text e = false ∧
      (∀ p, offset < p → StallsAt chunkSize text p → e ≤ p) ∧
        backUp byteAt text.length (min (offset + chunkSize) text.length) = some e) ∨
      (StallsAt chunkSize text offset ∧
        backUp byteAt text.length (min (offset + chunkSize) text.length) = some offset) ∨
      (offset = 0 ∧ Underflows chunkSize text ∧
        backUp byteAt text.length (min (offset + chunkSize) text.length) = some sizeMax) := by
  by_cases hend : text.length ≤ offset + chunkSize
  · left
    rw [Nat.min_eq_right hend]
    refine ⟨text.length, hlt, Nat.le_refl _, hend, ?_, ?_, backUp_of_ge (Nat.le_refl _)⟩
    · rw [continuationAt, List.getElem?_eq_none (Nat.le_refl _)]
      rfl
    · intro p hp ⟨hpl, _, _⟩
      omega
  · have hk : offset + chunkSize < text.length := by omega
    rw [Nat.min_eq_left (by omega)]
    rcases backUp_eq hbyte hk with ⟨j, hj, hjc, hrun, heq⟩ | ⟨hrun, heq⟩
    · rcases Nat.lt_trichotomy j offset with hjo | rfl | hjo
      · -- the end never passes a byte that starts a chunk
        rcases hoffset with rfl | hc
        · omega
        · rw [hrun offset hjo (by omega)] at hc
          cases hc
      · exact Or.inr (Or.inl ⟨⟨hk, hjc, hrun⟩, heq⟩)
      · left
        refine ⟨j, hjo, by omega, hj, hjc, ?_, heq⟩
        intro p hp ⟨_, _, hprun⟩
        by_cases hjp : j ≤ p
        · exact hjp
        · rw [hprun j (by omega) (by omega)] at hjc
          cases hjc
    · rcases hoffset with rfl | hc
      · exact Or.inr (Or.inr ⟨rfl, fun i hi => hrun i (by omega), heq⟩)
      · rw [hrun offset (by omega)] at hc
        cases hc

theorem chunkRanges_tiles (start : UInt8 → Bool)
    (hstart : ∀ c, isStartByte c = true → start c = true)
    (hbyte : ∀ i < text.length, byteAt i = text[i]?) (hpos : 0 < chunkSize)
    (hunder : ¬Underflows chunkSize text) (hstall : ∀ p, ¬StallsAt chunkSize text p) :
    ∀ fuel offset : Nat, text.length < offset + fuel → offset ≤ text.length →
      (offset = 0 ∨ continuationAt text offset = false) → Cut start text offset →
        ∃ ranges, chunkRanges byteAt text.length chunkSize fuel offset = some ranges ∧
          Tiles start text offset ranges
  | 0, offset, hfuel, hle, _, _ => by omega
  | fuel + 1, offset, hfuel, hle, hoffset, hcut => by
      rw [chunkRanges]
      by_cases hlt : offset < text.length
      · rcases chunkEnd_cases hbyte hpos hlt hoffset with
          ⟨e, hoe, hel, _, hec, _, heq⟩ | ⟨hs, _⟩ | ⟨_, hu, _⟩
        · obtain ⟨rest, hrest, htiles⟩ := chunkRanges_tiles start hstart hbyte hpos hunder
            hstall fuel e (by omega) hel (Or.inr hec)
            (fun c hc => hstart c (cut_iff.2 hec c hc))
          refine ⟨(offset, e - offset) :: rest, ?_, rfl, by omega, by omega, hcut, ?_⟩
          · simp only [if_pos hlt, heq, hrest, Option.bind_eq_bind, Option.bind_some]
          · rw [show offset + (e - offset) = e by omega]
            exact htiles
        · exact absurd hs (hstall offset)
        · exact absurd hu hunder
      · rw [if_neg hlt]
        exact ⟨[], rfl, by simp only [Tiles]; omega⟩

theorem chunkRanges_underflow (hbyte : ∀ i < text.length, byteAt i = text[i]?)
    (hpos : 0 < chunkSize) (hlen : text.length ≤ stringMax) (hunder : Underflows chunkSize text)
    (fuel : Nat) : chunkRanges byteAt text.length chunkSize (fuel + 2) 0 = some [(0, sizeMax)] := by
  have hlt : chunkSize < text.length := continuationAt_lt (hunder chunkSize (Nat.le_refl _))
  have hmax : ¬sizeMax < text.length := by
    unfold sizeMax
    unfold stringMax at hlen
    omega
  rcases chunkEnd_cases hbyte hpos (show 0 < text.length by omega) (Or.inl rfl) with
    ⟨e, _, _, hes, hec, _, _⟩ | ⟨hs, _⟩ | ⟨_, _, heq⟩
  · rw [hunder e (by omega)] at hec
    cases hec
  · rw [StallsAt, hunder 0 (Nat.zero_le _)] at hs
    cases hs.2.1
  · rw [chunkRanges, if_pos (by omega), heq]
    simp only [Option.bind_eq_bind, Option.bind_some, chunkRanges, if_neg hmax, Nat.sub_zero]

theorem eq_of_chunkRanges_underflow {fuel : Nat} {ranges : List (Nat × Nat)}
    (hbyte : ∀ i < text.length, byteAt i = text[i]?) (hpos : 0 < chunkSize)
    (hlen : text.length ≤ stringMax) (hunder : Underflows chunkSize text)
    (h : chunkRanges byteAt text.length chunkSize fuel 0 = some ranges) :
    ranges = [(0, sizeMax)] := by
  match fuel with
  | 0 => cases h
  | 1 =>
      have hlt := continuationAt_lt (hunder 0 (Nat.zero_le _))
      rw [chunkRanges, if_pos hlt] at h
      obtain ⟨_, _, h⟩ := Option.bind_eq_some_iff.1 h
      cases h
  | fuel + 2 =>
      rw [chunkRanges_underflow hbyte hpos hlen hunder] at h
      exact (Option.some.inj h).symm

theorem chunkRanges_stall (hbyte : ∀ i < text.length, byteAt i = text[i]?) (hpos : 0 < chunkSize)
    (hunder : ¬Underflows chunkSize text) {p : Nat} (hstall : StallsAt chunkSize text p) :
    ∀ {fuel offset : Nat}, offset ≤ p → (offset = 0 ∨ continuationAt text offset = false) →
      chunkRanges byteAt text.length chunkSize fuel offset = none
  | 0, _, _, _ => rfl
  | fuel + 1, offset, hle, hoffset => by
      have hpl := hstall.1
      rw [chunkRanges, if_pos (by omega)]
      rcases chunkEnd_cases hbyte hpos (by omega) hoffset with
        ⟨e, hoe, hel, hes, hec, hmax, heq⟩ | ⟨hs, heq⟩ | ⟨_, hu, _⟩
      · have hne : offset ≠ p := by
          rintro rfl
          rw [hstall.2.2 e hoe hes] at hec
          cases hec
        rw [heq]
        simp only [Option.bind_eq_bind, Option.bind_some]
        rw [chunkRanges_stall hbyte hpos hunder hstall (hmax p (by omega) hstall) (Or.inr hec)]
        rfl
      · rw [heq]
        simp only [Option.bind_eq_bind, Option.bind_some]
        rw [chunkRanges_stall hbyte hpos hunder hstall hle hoffset]
        rfl
      · exact absurd hu hunder

end Ned.Text
