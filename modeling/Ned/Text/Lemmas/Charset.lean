import Ned.Text.Charset
import Ned.Text.Lemmas.Chunks

/-!
# Lemmas on charsets

What the two loops read. The encoder reads encoded codepoints and the decoder reads what the encoder
appends for them, so that either undoes the other.
-/

namespace Ned.Text

open Ned.Library

/-! ## Bits -/

theorem toNat_or_add {u y : UInt32} (k : Nat) (hu : 2 ^ k ∣ u.toNat) (hy : y.toNat < 2 ^ k) :
    (u ||| y).toNat = u.toNat + y.toNat := by
  obtain ⟨a, ha⟩ := hu
  rw [UInt32.toNat_or, ha, Nat.two_pow_add_eq_or_of_lt hy]

theorem toNat_continuationByte (bits : UInt32) :
    (continuationByte bits).toNat = 128 + bits.toNat % 64 := by
  have hbits : (bits &&& 0x3F).toNat = bits.toNat % 64 := by
    rw [UInt32.toNat_and]
    exact Nat.and_two_pow_sub_one_eq_mod bits.toNat 6
  have hlt : (bits &&& 0x3F).toNat < 2 ^ 6 := hbits ▸ Nat.mod_lt _ (by decide)
  unfold continuationByte
  rw [UInt32.toNat_toUInt8, toNat_or_add 6 (by decide) hlt, hbits]
  show (128 + bits.toNat % 64) % 256 = 128 + bits.toNat % 64
  omega

theorem encodeCodepointUtf8_toNat {cp : UInt32} (h : cp.toNat ≤ 0x10FFFF) :
    (encodeCodepointUtf8 cp).map UInt8.toNat =
      if cp.toNat < 0x80 then
        [cp.toNat]
      else if cp.toNat < 0x800 then
        [192 + cp.toNat / 64, 128 + cp.toNat % 64]
      else if cp.toNat < 0x10000 then
        [224 + cp.toNat / 4096, 128 + cp.toNat / 64 % 64, 128 + cp.toNat % 64]
      else
        [240 + cp.toNat / 262144, 128 + cp.toNat / 4096 % 64, 128 + cp.toNat / 64 % 64,
          128 + cp.toNat % 64] := by
  have h6 : (cp >>> 6).toNat = cp.toNat / 64 := by simp [Nat.shiftRight_eq_div_pow]
  have h12 : (cp >>> 12).toNat = cp.toNat / 4096 := by simp [Nat.shiftRight_eq_div_pow]
  have h18 : (cp >>> 18).toNat = cp.toNat / 262144 := by simp [Nat.shiftRight_eq_div_pow]
  unfold encodeCodepointUtf8
  simp only [UInt32.lt_iff_toNat_lt]
  show (if cp.toNat < 0x80 then _ else if cp.toNat < 0x800 then _ else if cp.toNat < 0x10000 then _
    else _ : Bytes).map UInt8.toNat = _
  split
  · simp only [List.map_cons, List.map_nil, UInt32.toNat_toUInt8]
    congr 1
    omega
  · split
    · have hlead := toNat_lead 0xC0 (cp >>> 6) 6 3 rfl (by omega) (by omega)
      rw [List.map_cons, List.map_cons, toNat_continuationByte]
      rw [show ((0xC0 : UInt32)) = UInt32.ofNat 0xC0 from rfl, hlead, h6]
      rfl
    · split
      · have hlead := toNat_lead 0xE0 (cp >>> 12) 5 7 rfl (by omega) (by omega)
        rw [List.map_cons, List.map_cons, List.map_cons, toNat_continuationByte,
          toNat_continuationByte, show ((0xE0 : UInt32)) = UInt32.ofNat 0xE0 from rfl, hlead, h6, h12]
        rfl
      · have hlead := toNat_lead 0xF0 (cp >>> 18) 4 15 rfl (by omega) (by omega)
        rw [List.map_cons, List.map_cons, List.map_cons, List.map_cons, toNat_continuationByte,
          toNat_continuationByte, toNat_continuationByte,
          show ((0xF0 : UInt32)) = UInt32.ofNat 0xF0 from rfl, hlead, h6, h12, h18]
        rfl

/-! ## Sequences -/

theorem toNat_low_six (b : UInt8) : (b &&& 0x3F).toUInt32.toNat = b.toNat % 64 := by
  rw [UInt8.toNat_toUInt32, UInt8.toNat_and]
  exact Nat.and_two_pow_sub_one_eq_mod b.toNat 6

theorem toNat_shiftLeft {x : UInt32} {k : UInt32} (hk : k.toNat < 32)
    (h : x.toNat * 2 ^ k.toNat < 2 ^ 32) : (x <<< k).toNat = x.toNat * 2 ^ k.toNat := by
  rw [UInt32.toNat_shiftLeft, Nat.mod_eq_of_lt hk, Nat.shiftLeft_eq, Nat.mod_eq_of_lt h]

theorem toNat_two (b0 b1 : UInt8) :
    (((b0 &&& 0x1F).toUInt32 <<< 6) ||| (b1 &&& 0x3F).toUInt32).toNat =
      b0.toNat % 32 * 64 + b1.toNat % 64 := by
  have hlead : (b0 &&& 0x1F).toUInt32.toNat = b0.toNat % 32 := by
    rw [UInt8.toNat_toUInt32, UInt8.toNat_and]
    exact Nat.and_two_pow_sub_one_eq_mod b0.toNat 5
  have hhigh : ((b0 &&& 0x1F).toUInt32 <<< 6).toNat = b0.toNat % 32 * 64 := by
    rw [toNat_shiftLeft (by decide) (by rw [hlead]; simp; omega), hlead]
    rfl
  rw [toNat_or_add 6 (hhigh ▸ Nat.dvd_mul_left 64 _) (by rw [toNat_low_six]; omega), hhigh,
    toNat_low_six]

theorem toNat_three (b0 b1 b2 : UInt8) :
    (((b0 &&& 0x0F).toUInt32 <<< 12) ||| ((b1 &&& 0x3F).toUInt32 <<< 6) |||
      (b2 &&& 0x3F).toUInt32).toNat =
        b0.toNat % 16 * 4096 + b1.toNat % 64 * 64 + b2.toNat % 64 := by
  have hlead : (b0 &&& 0x0F).toUInt32.toNat = b0.toNat % 16 := by
    rw [UInt8.toNat_toUInt32, UInt8.toNat_and]
    exact Nat.and_two_pow_sub_one_eq_mod b0.toNat 4
  have hhigh : ((b0 &&& 0x0F).toUInt32 <<< 12).toNat = b0.toNat % 16 * 4096 := by
    rw [toNat_shiftLeft (by decide) (by rw [hlead]; simp; omega), hlead]
    rfl
  have hmid : ((b1 &&& 0x3F).toUInt32 <<< 6).toNat = b1.toNat % 64 * 64 := by
    rw [toNat_shiftLeft (by decide) (by rw [toNat_low_six]; simp; omega), toNat_low_six]
    rfl
  have hboth : (((b0 &&& 0x0F).toUInt32 <<< 12) ||| ((b1 &&& 0x3F).toUInt32 <<< 6)).toNat =
      b0.toNat % 16 * 4096 + b1.toNat % 64 * 64 := by
    rw [toNat_or_add 12 (hhigh ▸ Nat.dvd_mul_left 4096 _) (by rw [hmid]; omega), hhigh, hmid]
  rw [toNat_or_add 6 (by rw [hboth]; omega) (by rw [toNat_low_six]; omega), hboth, toNat_low_six]

theorem toNat_four (b0 b1 b2 b3 : UInt8) :
    (((b0 &&& 0x07).toUInt32 <<< 18) ||| ((b1 &&& 0x3F).toUInt32 <<< 12) |||
      ((b2 &&& 0x3F).toUInt32 <<< 6) ||| (b3 &&& 0x3F).toUInt32).toNat =
        b0.toNat % 8 * 262144 + b1.toNat % 64 * 4096 + b2.toNat % 64 * 64 + b3.toNat % 64 := by
  have hlead : (b0 &&& 0x07).toUInt32.toNat = b0.toNat % 8 := by
    rw [UInt8.toNat_toUInt32, UInt8.toNat_and]
    exact Nat.and_two_pow_sub_one_eq_mod b0.toNat 3
  have hhigh : ((b0 &&& 0x07).toUInt32 <<< 18).toNat = b0.toNat % 8 * 262144 := by
    rw [toNat_shiftLeft (by decide) (by rw [hlead]; simp; omega), hlead]
    rfl
  have hmid : ((b1 &&& 0x3F).toUInt32 <<< 12).toNat = b1.toNat % 64 * 4096 := by
    rw [toNat_shiftLeft (by decide) (by rw [toNat_low_six]; simp; omega), toNat_low_six]
    rfl
  have hlow : ((b2 &&& 0x3F).toUInt32 <<< 6).toNat = b2.toNat % 64 * 64 := by
    rw [toNat_shiftLeft (by decide) (by rw [toNat_low_six]; simp; omega), toNat_low_six]
    rfl
  have htwo : (((b0 &&& 0x07).toUInt32 <<< 18) ||| ((b1 &&& 0x3F).toUInt32 <<< 12)).toNat =
      b0.toNat % 8 * 262144 + b1.toNat % 64 * 4096 := by
    rw [toNat_or_add 18 (hhigh ▸ Nat.dvd_mul_left 262144 _) (by rw [hmid]; omega), hhigh, hmid]
  have hthree : (((b0 &&& 0x07).toUInt32 <<< 18) ||| ((b1 &&& 0x3F).toUInt32 <<< 12) |||
      ((b2 &&& 0x3F).toUInt32 <<< 6)).toNat =
        b0.toNat % 8 * 262144 + b1.toNat % 64 * 4096 + b2.toNat % 64 * 64 := by
    rw [toNat_or_add 12 (by rw [htwo]; omega) (by rw [hlow]; omega), htwo, hlow]
  rw [toNat_or_add 6 (by rw [hthree]; omega) (by rw [toNat_low_six]; omega), hthree, toNat_low_six]

theorem sequenceLength_eq (lead : UInt8) :
    sequenceLength lead =
      if lead.toNat < 0x80 then 1
      else if 0xC2 ≤ lead.toNat ∧ lead.toNat ≤ 0xDF then 2
      else if 0xE0 ≤ lead.toNat ∧ lead.toNat ≤ 0xEF then 3
      else if 0xF0 ≤ lead.toNat ∧ lead.toNat ≤ 0xF4 then 4
      else 0 := by
  simp only [sequenceLength, ge_iff_le, UInt8.lt_iff_toNat_lt, UInt8.le_iff_toNat_le,
    Bool.and_eq_true, decide_eq_true_eq]
  rfl

theorem isScalarValue_iff (cp : UInt32) :
    IsScalarValue cp ↔ cp.toNat ≤ 0x10FFFF ∧ (cp.toNat < 0xD800 ∨ 0xDFFF < cp.toNat) := by
  simp only [IsScalarValue, gt_iff_lt, UInt32.lt_iff_toNat_lt, UInt32.le_iff_toNat_le]
  rfl

theorem eq_encode_iff {text : Bytes} {cp : UInt32} :
    text = encodeCodepointUtf8 cp ↔
      text.map UInt8.toNat = (encodeCodepointUtf8 cp).map UInt8.toNat :=
  (List.map_injective_iff.2 fun _ _ => UInt8.toNat_inj.1).eq_iff.symm

theorem isContinuationByte_iff (c : UInt8) :
    isContinuationByte c = true ↔ 128 ≤ c.toNat ∧ c.toNat < 192 := by
  rw [isContinuationByte_eq, Bool.and_eq_true, decide_eq_true_eq, decide_eq_true_eq]

theorem decodeSequence_eq_some_iff {lead : UInt8} {tail : Bytes} {cp : UInt32}
    (hlength : sequenceLength lead = (lead :: tail).length) :
    decodeSequence (lead :: tail) = some cp ↔
      IsScalarValue cp ∧ lead :: tail = encodeCodepointUtf8 cp := by
  rw [sequenceLength_eq] at hlength
  rw [eq_encode_iff, isScalarValue_iff]
  match tail with
  | [] =>
      have hlead : lead.toNat < 128 := by
        simp only [List.length_cons, List.length_nil] at hlength
        split_ifs at hlength <;> omega
      have hdecode : decodeSequence [lead] = some lead.toUInt32 := rfl
      rw [hdecode, Option.some_inj]
      constructor
      · rintro rfl
        refine ⟨⟨by simp; omega, by simp; omega⟩, ?_⟩
        rw [encodeCodepointUtf8_toNat (by simp; omega), if_pos (by simpa using hlead)]
        simp
      · rintro ⟨⟨hle, -⟩, heq⟩
        rw [encodeCodepointUtf8_toNat hle] at heq
        split_ifs at heq <;> simp at heq
        rw [← UInt32.toNat_inj, UInt8.toNat_toUInt32, heq]
  | [b1] =>
      have hlead : 0xC2 ≤ lead.toNat ∧ lead.toNat ≤ 0xDF := by
        simp only [List.length_cons, List.length_nil] at hlength
        split_ifs at hlength <;> omega
      have hvalue := toNat_two lead b1
      simp only [decodeSequence, List.tail_cons, List.all_cons, List.all_nil, Bool.and_true,
        isContinuationByte_iff]
      generalize ((lead &&& 0x1F).toUInt32 <<< 6) ||| (b1 &&& 0x3F).toUInt32 = value at hvalue ⊢
      constructor
      · intro h
        obtain ⟨hb1, heq⟩ := Option.ite_none_right_eq_some.1 h
        cases heq
        refine ⟨⟨by omega, by omega⟩, ?_⟩
        rw [encodeCodepointUtf8_toNat (by omega), if_neg (by omega), if_pos (by omega)]
        simp only [List.map_cons, List.map_nil, List.cons.injEq, and_true]
        omega
      · rintro ⟨⟨hle, -⟩, heq⟩
        rw [encodeCodepointUtf8_toNat hle] at heq
        split_ifs at heq <;> simp at heq
        rw [if_pos (by omega), Option.some_inj, ← UInt32.toNat_inj]
        omega
  | [b1, b2] =>
      have hlead : 0xE0 ≤ lead.toNat ∧ lead.toNat ≤ 0xEF := by
        simp only [List.length_cons, List.length_nil] at hlength
        split_ifs at hlength <;> omega
      have hvalue := toNat_three lead b1 b2
      simp only [decodeSequence, List.tail_cons, List.all_cons, List.all_nil, Bool.and_true,
        Bool.and_eq_true, isContinuationByte_iff]
      generalize ((lead &&& 0x0F).toUInt32 <<< 12) ||| ((b1 &&& 0x3F).toUInt32 <<< 6) |||
        (b2 &&& 0x3F).toUInt32 = value at hvalue ⊢
      have hbad : (value < 0x800 || (value ≥ 0xD800 && value ≤ 0xDFFF)) = true ↔
          value.toNat < 0x800 ∨ 0xD800 ≤ value.toNat ∧ value.toNat ≤ 0xDFFF := by
        simp only [ge_iff_le, Bool.or_eq_true, Bool.and_eq_true, decide_eq_true_eq,
          UInt32.lt_iff_toNat_lt, UInt32.le_iff_toNat_le]
        rfl
      simp only [hbad]
      constructor
      · intro h
        obtain ⟨hcont, h⟩ := Option.ite_none_right_eq_some.1 h
        obtain ⟨hgood, heq⟩ := Option.ite_none_left_eq_some.1 h
        cases heq
        refine ⟨⟨by omega, by omega⟩, ?_⟩
        rw [encodeCodepointUtf8_toNat (by omega), if_neg (by omega), if_neg (by omega),
          if_pos (by omega)]
        simp only [List.map_cons, List.map_nil, List.cons.injEq, and_true]
        omega
      · rintro ⟨⟨hle, hscalar⟩, heq⟩
        rw [encodeCodepointUtf8_toNat hle] at heq
        split_ifs at heq <;> simp at heq
        rw [if_pos (by omega), if_neg (by omega), Option.some_inj, ← UInt32.toNat_inj]
        omega
  | [b1, b2, b3] =>
      have hlead : 0xF0 ≤ lead.toNat ∧ lead.toNat ≤ 0xF4 := by
        simp only [List.length_cons, List.length_nil] at hlength
        split_ifs at hlength <;> omega
      have hvalue := toNat_four lead b1 b2 b3
      simp only [decodeSequence, List.tail_cons, List.all_cons, List.all_nil, Bool.and_true,
        Bool.and_eq_true, isContinuationByte_iff]
      generalize ((lead &&& 0x07).toUInt32 <<< 18) ||| ((b1 &&& 0x3F).toUInt32 <<< 12) |||
        ((b2 &&& 0x3F).toUInt32 <<< 6) ||| (b3 &&& 0x3F).toUInt32 = value at hvalue ⊢
      have hbad : (value < 0x10000 || value > 0x10FFFF) = true ↔
          value.toNat < 0x10000 ∨ 0x10FFFF < value.toNat := by
        simp only [gt_iff_lt, Bool.or_eq_true, decide_eq_true_eq, UInt32.lt_iff_toNat_lt]
        rfl
      simp only [hbad]
      constructor
      · intro h
        obtain ⟨hcont, h⟩ := Option.ite_none_right_eq_some.1 h
        obtain ⟨hgood, heq⟩ := Option.ite_none_left_eq_some.1 h
        cases heq
        refine ⟨⟨by omega, by omega⟩, ?_⟩
        rw [encodeCodepointUtf8_toNat (by omega), if_neg (by omega), if_neg (by omega),
          if_neg (by omega)]
        simp only [List.map_cons, List.map_nil, List.cons.injEq, and_true]
        omega
      · rintro ⟨⟨hle, -⟩, heq⟩
        rw [encodeCodepointUtf8_toNat hle] at heq
        split_ifs at heq <;> simp at heq
        rw [if_pos (by omega), if_neg (by omega), Option.some_inj, ← UInt32.toNat_inj]
        omega
  | b1 :: b2 :: b3 :: b4 :: tail =>
      simp only [List.length_cons] at hlength
      split_ifs at hlength <;> omega

/-! ## What a charset holds -/

/-- A scalar value the charset can hold. -/
def Charset.Holds (charset : Charset) (cp : UInt32) : Prop :=
  IsScalarValue cp ∧ (charset = .latin1 → cp ≤ 0xFF)

theorem exists_encode_cons {cp : UInt32} (h : IsScalarValue cp) :
    ∃ lead tail, encodeCodepointUtf8 cp = lead :: tail ∧
      sequenceLength lead = (lead :: tail).length := by
  rw [isScalarValue_iff] at h
  have hbytes := encodeCodepointUtf8_toNat h.1
  cases hencode : encodeCodepointUtf8 cp with
  | nil =>
      rw [hencode] at hbytes
      split_ifs at hbytes <;> cases hbytes
  | cons lead tail =>
      refine ⟨lead, tail, rfl, ?_⟩
      have hlength := congrArg List.length hbytes
      rw [hencode] at hbytes hlength
      rw [sequenceLength_eq]
      rw [List.length_map] at hlength
      rw [hlength]
      split_ifs at hbytes ⊢ <;> simp at hbytes ⊢ <;> omega

theorem characterScanner_speaks (charset : Charset) :
    (characterScanner charset).Speaks charset.Holds encodeCodepointUtf8
      (encodeCodepoint charset) where
  front_code := by
    intro cp more ⟨hscalar, hlatin⟩
    obtain ⟨lead, tail, hencode, hlength⟩ := exists_encode_cons hscalar
    have hdecode := (decodeSequence_eq_some_iff hlength).2 ⟨hscalar, hencode.symm⟩
    have hfit : ¬(charset = .latin1 ∧ cp > 0xFF) := by
      rintro ⟨hcharset, hgt⟩
      exact absurd (hlatin hcharset) (UInt32.not_le.2 hgt)
    have htake : (lead :: (tail ++ more)).take (lead :: tail).length = lead :: tail := by
      rw [← List.cons_append, List.take_left]
    rw [hencode]
    simp only [characterScanner, List.cons_append, nextCharacter, hlength]
    rw [if_neg (by simp), if_neg (by simp), htake, hdecode]
    simp only [if_neg hfit]
  of_front := by
    intro input n v h
    cases input with
    | nil => cases h
    | cons lead pending =>
        simp only [characterScanner, nextCharacter] at h
        split at h
        · cases h
        · split at h
          · cases h
          · rename_i hzero hlong
            have hle : sequenceLength lead ≤ (lead :: pending).length := Nat.le_of_not_lt hlong
            split at h
            · cases h
            · rename_i cp hdecode
              split at h
              · cases h
              · rename_i hfit
                cases h
                obtain ⟨k, hk⟩ := Nat.exists_eq_succ_of_ne_zero hzero
                have htake : (lead :: pending).take (sequenceLength lead) = lead :: pending.take k := by
                  rw [hk, List.take_succ_cons]
                have hlength : sequenceLength lead = (lead :: pending.take k).length := by
                  rw [← htake, List.length_take_of_le hle]
                rw [htake] at hdecode
                obtain ⟨hscalar, hencode⟩ := (decodeSequence_eq_some_iff hlength).1 hdecode
                refine ⟨cp, (lead :: pending).drop (sequenceLength lead), ⟨hscalar, ?_⟩, ?_, ?_, rfl⟩
                · exact fun hcharset => UInt32.not_lt.1 fun hgt => hfit ⟨hcharset, hgt⟩
                · rw [← hencode, ← htake, List.take_append_drop]
                · rw [← hencode, hlength]

/-! ## UTF-16 -/

theorem toNat_unit (first second : UInt8) :
    ((first.toUInt16 <<< 8) ||| second.toUInt16).toNat = first.toNat * 256 + second.toNat := by
  have hfirst := first.toNat_lt
  have hsecond := second.toNat_lt
  have hhigh : (first.toUInt16 <<< 8).toNat = 2 ^ 8 * first.toNat := by
    rw [UInt16.toNat_shiftLeft, UInt8.toNat_toUInt16]
    show first.toNat <<< 8 % 2 ^ 16 = _
    rw [Nat.shiftLeft_eq]
    omega
  rw [UInt16.toNat_or, hhigh, UInt8.toNat_toUInt16, ← Nat.two_pow_add_eq_or_of_lt hsecond]
  omega

theorem toNat_high (unit : UInt16) : (unit >>> 8).toUInt8.toNat = unit.toNat / 256 := by
  have hlt := unit.toNat_lt
  simp [Nat.shiftRight_eq_div_pow]
  omega

theorem toNat_low (unit : UInt16) : (unit &&& 0xFF).toUInt8.toNat = unit.toNat % 256 := by
  rw [UInt16.toNat_toUInt8, UInt16.toNat_and]
  have := Nat.and_two_pow_sub_one_eq_mod unit.toNat 8
  have hff : (0xFF : UInt16).toNat = 2 ^ 8 - 1 := rfl
  rw [hff, this]
  exact Nat.mod_mod _ _

theorem appendUtf16Unit_eq_iff {unit : UInt16} {bigEndian : Bool} {first second : UInt8} :
    appendUtf16Unit unit bigEndian = [first, second] ↔ unitAt bigEndian first second = unit := by
  have hfirst := first.toNat_lt
  have hsecond := second.toNat_lt
  cases bigEndian <;>
  · simp only [appendUtf16Unit, unitAt, List.cons.injEq, and_true, ← UInt8.toNat_inj, toNat_high,
      toNat_low, ← UInt16.toNat_inj, toNat_unit, reduceIte, Bool.false_eq_true]
    omega

theorem exists_appendUtf16Unit (unit : UInt16) (bigEndian : Bool) :
    ∃ first second, appendUtf16Unit unit bigEndian = [first, second] := by
  cases bigEndian <;> exact ⟨_, _, rfl⟩

theorem isHighSurrogate_iff (unit : UInt16) :
    isHighSurrogate unit = true ↔ 0xD800 ≤ unit.toNat ∧ unit.toNat ≤ 0xDBFF := by
  simp only [isHighSurrogate, ge_iff_le, Bool.and_eq_true, decide_eq_true_eq,
    UInt16.le_iff_toNat_le]
  rfl

theorem isLowSurrogate_iff (unit : UInt16) :
    isLowSurrogate unit = true ↔ 0xDC00 ≤ unit.toNat ∧ unit.toNat ≤ 0xDFFF := by
  simp only [isLowSurrogate, ge_iff_le, Bool.and_eq_true, decide_eq_true_eq, UInt16.le_iff_toNat_le]
  rfl

theorem toNat_surrogatePair {high low : UInt16} (hhigh : isHighSurrogate high = true)
    (hlow : isLowSurrogate low = true) :
    (surrogatePair high low).toNat =
      0x10000 + (high.toNat - 0xD800) * 1024 + (low.toNat - 0xDC00) := by
  rw [isHighSurrogate_iff] at hhigh
  rw [isLowSurrogate_iff] at hlow
  have hle : (0xD800 : UInt16) ≤ high := UInt16.le_iff_toNat_le.2 hhigh.1
  have hle' : (0xDC00 : UInt16) ≤ low := UInt16.le_iff_toNat_le.2 hlow.1
  have hh : (high - 0xD800).toUInt32.toNat = high.toNat - 0xD800 := by
    rw [UInt16.toNat_toUInt32, UInt16.toNat_sub_of_le _ _ hle]
    rfl
  have hl : (low - 0xDC00).toUInt32.toNat = low.toNat - 0xDC00 := by
    rw [UInt16.toNat_toUInt32, UInt16.toNat_sub_of_le _ _ hle']
    rfl
  have hshift : ((high - 0xD800).toUInt32 <<< 10).toNat = (high.toNat - 0xD800) * 1024 := by
    rw [toNat_shiftLeft (by decide) (by rw [hh]; simp; omega), hh]
    rfl
  unfold surrogatePair
  rw [UInt32.toNat_add,
    toNat_or_add 10 (by rw [hshift]; exact Nat.dvd_mul_left 1024 _) (by rw [hl]; omega), hshift, hl]
  show (0x10000 + _) % 2 ^ 32 = _
  omega

section Units

variable {charset : Charset} {cp : UInt32} {high low : UInt16}

theorem encodeCodepoint_unit (hcharset : charset ≠ .latin1) (hcp : cp.toNat < 0x10000) :
    encodeCodepoint charset cp = appendUtf16Unit cp.toUInt16 (charset == .utf16Be) := by
  have hlt : ¬cp ≥ 0x10000 := by
    intro hge
    exact absurd (UInt32.le_iff_toNat_le.1 hge) (Nat.not_le_of_lt hcp)
  simp only [encodeCodepoint, if_neg hcharset, if_neg hlt]

theorem encodeCodepoint_surrogatePair (hcharset : charset ≠ .latin1)
    (hhigh : isHighSurrogate high = true) (hlow : isLowSurrogate low = true) :
    encodeCodepoint charset (surrogatePair high low) =
      appendUtf16Unit high (charset == .utf16Be) ++ appendUtf16Unit low (charset == .utf16Be) := by
  have hpair := toNat_surrogatePair hhigh hlow
  rw [isHighSurrogate_iff] at hhigh
  rw [isLowSurrogate_iff] at hlow
  have hge : (0x10000 : UInt32) ≤ surrogatePair high low := by
    rw [UInt32.le_iff_toNat_le, hpair]
    simp
    omega
  have hoffset : (surrogatePair high low - 0x10000).toNat =
      (high.toNat - 0xD800) * 1024 + (low.toNat - 0xDC00) := by
    rw [UInt32.toNat_sub_of_le _ _ hge, hpair]
    simp
    omega
  simp only [encodeCodepoint, if_neg hcharset, ge_iff_le, if_pos hge]
  generalize surrogatePair high low - 0x10000 = offset at hoffset
  have hfirst : ((0xD800 : UInt32) + (offset >>> 10)).toUInt16 = high := by
    rw [← UInt16.toNat_inj, UInt32.toNat_toUInt16, UInt32.toNat_add]
    simp [Nat.shiftRight_eq_div_pow]
    omega
  have hsecond : ((0xDC00 : UInt32) + (offset &&& 0x3FF)).toUInt16 = low := by
    have hmask : (offset &&& 0x3FF).toNat = offset.toNat % 1024 := by
      rw [UInt32.toNat_and]
      exact Nat.and_two_pow_sub_one_eq_mod offset.toNat 10
    rw [← UInt16.toNat_inj, UInt32.toNat_toUInt16, UInt32.toNat_add, hmask]
    simp
    omega
  rw [hfirst, hsecond]

theorem isScalarValue_surrogatePair (hhigh : isHighSurrogate high = true)
    (hlow : isLowSurrogate low = true) : IsScalarValue (surrogatePair high low) := by
  have hpair := toNat_surrogatePair hhigh hlow
  rw [isHighSurrogate_iff] at hhigh
  rw [isLowSurrogate_iff] at hlow
  rw [isScalarValue_iff]
  omega

theorem exists_surrogatePair (hge : 0x10000 ≤ cp.toNat) (hle : cp.toNat ≤ 0x10FFFF) :
    ∃ high low, isHighSurrogate high = true ∧ isLowSurrogate low = true ∧
      cp = surrogatePair high low := by
  obtain ⟨high, hh⟩ : ∃ high : UInt16, high.toNat = 0xD800 + (cp.toNat - 0x10000) / 1024 :=
    ⟨UInt16.ofNat _, (UInt16.toNat_ofNat' ..).trans (Nat.mod_eq_of_lt (by omega))⟩
  obtain ⟨low, hl⟩ : ∃ low : UInt16, low.toNat = 0xDC00 + (cp.toNat - 0x10000) % 1024 :=
    ⟨UInt16.ofNat _, (UInt16.toNat_ofNat' ..).trans (Nat.mod_eq_of_lt (by omega))⟩
  have hhigh : isHighSurrogate high = true := (isHighSurrogate_iff high).2 (by omega)
  have hlow : isLowSurrogate low = true := (isLowSurrogate_iff low).2 (by omega)
  refine ⟨high, low, hhigh, hlow, ?_⟩
  rw [← UInt32.toNat_inj, toNat_surrogatePair hhigh hlow, hh, hl]
  omega

theorem isScalarValue_unit {unit : UInt16} (hhigh : isHighSurrogate unit = false)
    (hlow : isLowSurrogate unit = false) : IsScalarValue unit.toUInt32 := by
  have hlt := unit.toNat_lt
  rw [← Bool.not_eq_true, isHighSurrogate_iff] at hhigh
  rw [← Bool.not_eq_true, isLowSurrogate_iff] at hlow
  rw [isScalarValue_iff, UInt16.toNat_toUInt32]
  omega

theorem unitScanner_speaks (hcharset : charset ≠ .latin1) :
    (unitScanner (charset == .utf16Be)).Speaks IsScalarValue (encodeCodepoint charset)
      encodeCodepointUtf8 where
  front_code := by
    intro cp more hscalar
    have hnat := (isScalarValue_iff cp).1 hscalar
    rcases Nat.lt_or_ge cp.toNat 0x10000 with hlt | hge
    · obtain ⟨first, second, hbytes⟩ := exists_appendUtf16Unit cp.toUInt16 (charset == .utf16Be)
      have hunit := appendUtf16Unit_eq_iff.1 hbytes
      have hback : cp.toUInt16.toNat = cp.toNat := by
        rw [UInt32.toNat_toUInt16]
        exact Nat.mod_eq_of_lt hlt
      have hlow : ¬isLowSurrogate cp.toUInt16 = true := by
        rw [isLowSurrogate_iff, hback]
        omega
      have hhigh : ¬isHighSurrogate cp.toUInt16 = true := by
        rw [isHighSurrogate_iff, hback]
        omega
      have hcp : cp.toUInt16.toUInt32 = cp := by
        rw [← UInt32.toNat_inj, UInt16.toNat_toUInt32, hback]
      rw [encodeCodepoint_unit hcharset hlt, hbytes]
      simp only [unitScanner, List.cons_append, nextUnit, hunit, if_neg hlow, if_neg hhigh, hcp]
      rfl
    · obtain ⟨high, low, hhigh, hlow, rfl⟩ := exists_surrogatePair hge hnat.1
      obtain ⟨first, second, hbytes⟩ := exists_appendUtf16Unit high (charset == .utf16Be)
      obtain ⟨third, fourth, hbytes'⟩ := exists_appendUtf16Unit low (charset == .utf16Be)
      have hnot : ¬isLowSurrogate high = true := by
        rw [isHighSurrogate_iff] at hhigh
        rw [isLowSurrogate_iff]
        omega
      rw [encodeCodepoint_surrogatePair hcharset hhigh hlow, hbytes, hbytes']
      simp only [unitScanner, List.cons_append, List.nil_append, nextUnit,
        appendUtf16Unit_eq_iff.1 hbytes, appendUtf16Unit_eq_iff.1 hbytes', if_neg hnot, if_pos hhigh,
        if_pos hlow]
      rfl
  of_front := by
    intro input n v h
    cases input with
    | nil => cases h
    | cons first input =>
        cases input with
        | nil => cases h
        | cons second pending =>
            simp only [unitScanner, nextUnit] at h
            split at h
            · cases h
            · rename_i hlow
              have hbytes : appendUtf16Unit (unitAt (charset == .utf16Be) first second)
                  (charset == .utf16Be) = [first, second] := appendUtf16Unit_eq_iff.2 rfl
              split at h
              · rename_i hhigh
                split at h
                · rename_i third fourth more
                  have hbytes' : appendUtf16Unit (unitAt (charset == .utf16Be) third fourth)
                      (charset == .utf16Be) = [third, fourth] := appendUtf16Unit_eq_iff.2 rfl
                  split at h
                  · rename_i hlow'
                    cases h
                    refine ⟨_, more, isScalarValue_surrogatePair hhigh hlow', ?_, ?_, rfl⟩
                    · rw [encodeCodepoint_surrogatePair hcharset hhigh hlow', hbytes, hbytes']
                      rfl
                    · rw [encodeCodepoint_surrogatePair hcharset hhigh hlow', hbytes, hbytes']
                      rfl
                  · cases h
                · cases h
              · rename_i hhigh
                cases h
                have hlt := (unitAt (charset == .utf16Be) first second).toNat_lt
                have hunit : (unitAt (charset == .utf16Be) first second).toUInt32.toUInt16 =
                    unitAt (charset == .utf16Be) first second := by
                  rw [← UInt16.toNat_inj, UInt32.toNat_toUInt16, UInt16.toNat_toUInt32]
                  exact Nat.mod_eq_of_lt hlt
                have hencode : encodeCodepoint charset
                    (unitAt (charset == .utf16Be) first second).toUInt32 = [first, second] := by
                  rw [encodeCodepoint_unit hcharset (by rw [UInt16.toNat_toUInt32]; exact hlt), hunit,
                    hbytes]
                refine ⟨_, pending, isScalarValue_unit ?_ ?_, ?_, ?_, rfl⟩
                · exact Bool.eq_false_iff.2 hhigh
                · exact Bool.eq_false_iff.2 hlow
                · rw [hencode]
                  rfl
                · rw [hencode]
                  rfl

end Units

end Ned.Text
