import Ned.Text.Lemmas.Charset

/-!
# Decoders and encoders

The state of a decoder or an encoder after some input, whatever pieces it came in, and what the whole
functions accept.
-/

namespace Ned.Text

open Ned.Library

variable {charset : Charset} {text bytes : Bytes}

/-- What is given out at the end of a scan: all or nothing. -/
theorem accepted_iff (scanned : Scanned UInt8 Bytes) :
    (if !(!scanned.bad) || !(!scanned.bad &&
        List.isEmpty (if scanned.bad then [] else scanned.rest)) then
      none
    else
      some scanned.values.flatten) = some text ↔
      ∃ values, scanned = ⟨values, [], false⟩ ∧ text = values.flatten := by
  obtain ⟨values, rest, bad⟩ := scanned
  cases bad <;> cases rest <;> simp [eq_comm]

/-! ## The decoder -/

/-- The decoder after UTF-16 input. -/
def decoderAfter (charset : Charset) (input : Bytes) : CharsetDecoder :=
  let scanned := (unitScanner (charset == .utf16Be)).scan input
  { charset := charset
    carry := if scanned.bad then [] else scanned.rest
    failed := scanned.bad }

theorem decoder_follows (hfamily : isUtf8Family charset = false) (hlatin : charset ≠ .latin1) :
    Follows (unitScanner (charset == .utf16Be)) CharsetDecoder.feed (decoderAfter charset) := by
  intro input more
  have hscan := (unitScanner (charset == .utf16Be)).scan_append input more
  cases hbad : ((unitScanner (charset == .utf16Be)).scan input).bad with
  | true =>
      rw [if_pos hbad] at hscan
      simp only [CharsetDecoder.feed, decoderAfter, hscan, hbad, reduceIte, Bool.not_true]
  | false =>
      rw [if_neg (by simp [hbad])] at hscan
      simp only [CharsetDecoder.feed, decoderAfter, hscan, hbad, hfamily, if_neg hlatin, reduceIte,
        Bool.false_eq_true]

theorem decodeCharset_eq (hfamily : isUtf8Family charset = false) (hlatin : charset ≠ .latin1) :
    decodeCharset bytes charset = some text ↔
      ∃ values, (unitScanner (charset == .utf16Be)).scan bytes = ⟨values, [], false⟩ ∧
        text = values.flatten := by
  have hfeed := (decoder_follows hfamily hlatin).whole bytes
  have hstart : decoderAfter charset [] = { charset := charset } := rfl
  rw [hstart] at hfeed
  unfold decodeCharset
  rw [hfeed]
  exact accepted_iff _

/-! ## The encoder -/

/-- The encoder after an input. -/
def encoderAfter (charset : Charset) (input : Bytes) : CharsetEncoder :=
  let scanned := (characterScanner charset).scan input
  { charset := charset
    carry := if scanned.bad then [] else scanned.rest
    consumed := if scanned.bad then input.length - scanned.rest.length else input.length
    failed := scanned.bad }

theorem encoder_follows (hfamily : isUtf8Family charset = false) :
    Follows (characterScanner charset) CharsetEncoder.feed (encoderAfter charset) := by
  intro input more
  have hscan := (characterScanner charset).scan_append input more
  have hle := ((characterScanner charset).scan_reads input).length_le
  cases hbad : ((characterScanner charset).scan input).bad with
  | true =>
      rw [if_pos hbad] at hscan
      have hlength : (input ++ more).length -
          (((characterScanner charset).scan input).rest ++ more).length =
            input.length - ((characterScanner charset).scan input).rest.length := by
        rw [List.length_append, List.length_append, Nat.add_sub_add_right]
      simp only [CharsetEncoder.feed, encoderAfter, hscan, hbad, reduceIte, Bool.not_true, hlength]
  | false =>
      rw [if_neg (by simp [hbad])] at hscan
      have hinput : (input ++ more).length = input.length + more.length := List.length_append
      have hbase : input.length - ((characterScanner charset).scan input).rest.length +
          (((characterScanner charset).scan input).rest ++ more).length = (input ++ more).length := by
        rw [List.length_append, hinput]
        omega
      have hrest := ((characterScanner charset).scan_reads
        (((characterScanner charset).scan input).rest ++ more)).length_le
      simp only [CharsetEncoder.feed, encoderAfter, hscan, hbad, hfamily, reduceIte,
        Bool.false_eq_true]
      split
      · rename_i hnext
        simp only [hnext, Bool.not_true, Prod.mk.injEq, and_true, true_and,
          CharsetEncoder.mk.injEq]
        omega
      · rename_i hnext
        simp only [hnext, Bool.not_false, hinput]

theorem encodeCharset_eq (hfamily : isUtf8Family charset = false) :
    encodeCharset text charset = some bytes ↔
      ∃ values, (characterScanner charset).scan text = ⟨values, [], false⟩ ∧
        bytes = values.flatten := by
  have hfeed := (encoder_follows hfamily).whole text
  have hstart : encoderAfter charset [] = { charset := charset } := rfl
  rw [hstart] at hfeed
  unfold encodeCharset
  rw [hfeed]
  exact accepted_iff _

/-! ## Both ways -/

/-- The text of the codepoints in UTF-8, and their bytes in the charset. -/
def Spells (charset : Charset) (text bytes : Bytes) : Prop :=
  ∃ codepoints : List UInt32, (∀ cp ∈ codepoints, charset.Holds cp) ∧
    text = codepoints.flatMap encodeCodepointUtf8 ∧
      bytes = codepoints.flatMap (encodeCodepoint charset)

theorem encodeCharset_eq_some_iff (hfamily : isUtf8Family charset = false) :
    encodeCharset text charset = some bytes ↔ Spells charset text bytes := by
  rw [encodeCharset_eq hfamily]
  constructor
  · rintro ⟨values, hscan, rfl⟩
    obtain ⟨codepoints, hholds, rfl, rfl⟩ := (characterScanner_speaks charset).scan_eq_iff.1 hscan
    exact ⟨codepoints, hholds, rfl, List.flatMap_def.symm⟩
  · rintro ⟨codepoints, hholds, rfl, rfl⟩
    exact ⟨_, (characterScanner_speaks charset).scan_eq_iff.2 ⟨codepoints, hholds, rfl, rfl⟩,
      List.flatMap_def⟩

theorem decodeCharset_latin1 :
    decodeCharset bytes .latin1 = some (bytes.flatMap fun c => encodeCodepointUtf8 c.toUInt32) := rfl

theorem spells_latin1_iff :
    Spells .latin1 text bytes ↔ text = bytes.flatMap fun c => encodeCodepointUtf8 c.toUInt32 := by
  constructor
  · rintro ⟨codepoints, hholds, rfl, rfl⟩
    rw [List.flatMap_assoc]
    refine List.flatMap_congr fun cp hcp => ?_
    have hle : cp.toNat ≤ 255 := UInt32.le_iff_toNat_le.1 ((hholds cp hcp).2 rfl)
    have hback : cp.toUInt8.toUInt32 = cp := by
      rw [← UInt32.toNat_inj, UInt8.toNat_toUInt32, UInt32.toNat_toUInt8]
      exact Nat.mod_eq_of_lt (Nat.lt_succ_of_le hle)
    have hencode : encodeCodepoint .latin1 cp = [cp.toUInt8] := rfl
    rw [hencode, List.flatMap_singleton, hback]
  · rintro rfl
    refine ⟨bytes.map UInt8.toUInt32, fun cp hcp => ?_, (List.flatMap_map _ _ _).symm, ?_⟩
    · obtain ⟨c, -, rfl⟩ := List.mem_map.1 hcp
      have hlt := c.toNat_lt
      rw [Charset.Holds, isScalarValue_iff, UInt32.le_iff_toNat_le, UInt8.toNat_toUInt32]
      exact ⟨by omega, fun _ => Nat.le_of_lt_succ hlt⟩
    · rw [List.flatMap_map]
      have hencode : ∀ c : UInt8, encodeCodepoint .latin1 c.toUInt32 = [c] := by
        intro c
        have hback : c.toUInt32.toUInt8 = c := UInt8.toUInt8_toUInt32 c
        rw [encodeCodepoint, if_pos rfl, hback]
      simp only [hencode, List.flatMap_singleton']

theorem decodeCharset_eq_some_iff (hfamily : isUtf8Family charset = false) :
    decodeCharset bytes charset = some text ↔ Spells charset text bytes := by
  by_cases hlatin : charset = .latin1
  · subst hlatin
    rw [decodeCharset_latin1, spells_latin1_iff, Option.some_inj, eq_comm]
  · rw [decodeCharset_eq hfamily hlatin]
    constructor
    · rintro ⟨values, hscan, rfl⟩
      obtain ⟨codepoints, hscalar, rfl, rfl⟩ := (unitScanner_speaks hlatin).scan_eq_iff.1 hscan
      exact ⟨codepoints, fun cp hcp => ⟨hscalar cp hcp, fun h => absurd h hlatin⟩,
        List.flatMap_def.symm, rfl⟩
    · rintro ⟨codepoints, hholds, rfl, rfl⟩
      exact ⟨_, (unitScanner_speaks hlatin).scan_eq_iff.2
        ⟨codepoints, fun cp hcp => (hholds cp hcp).1, rfl, rfl⟩, List.flatMap_def⟩

/-! ## Pieces -/

theorem decoder_pieces (hfamily : isUtf8Family charset = false) (pieces : List Bytes) :
    feedAll CharsetDecoder.feed { charset := charset } pieces =
      CharsetDecoder.feed { charset := charset } pieces.flatten := by
  by_cases hlatin : charset = .latin1
  · subst hlatin
    refine feedAll_eq_feed_flatten rfl (fun piece more => ?_) pieces
    simp [CharsetDecoder.feed, isUtf8Family]
  · exact (decoder_follows hfamily hlatin).pieces pieces

theorem encoder_pieces (hfamily : isUtf8Family charset = false) (pieces : List Bytes) :
    feedAll CharsetEncoder.feed { charset := charset } pieces =
      CharsetEncoder.feed { charset := charset } pieces.flatten :=
  (encoder_follows hfamily).pieces pieces

/-!
## Charset coding

Decoding and encoding undo each other, and neither sees how its input is cut into pieces.
-/

variable {charset : Charset} {text bytes : Bytes}

/-- The first character of the text the charset cannot hold, complete or not, starts at `offset`. -/
def FailsAt (charset : Charset) (text : Bytes) (offset : Nat) : Prop :=
  ∃ (codepoints : List UInt32) (rest : Bytes), (∀ cp ∈ codepoints, charset.Holds cp) ∧
    text = codepoints.flatMap encodeCodepointUtf8 ++ rest ∧
      offset = (codepoints.flatMap encodeCodepointUtf8).length ∧ rest ≠ [] ∧
        ∀ cp, charset.Holds cp → ¬encodeCodepointUtf8 cp <+: rest

theorem encoder_failsAt (hfamily : isUtf8Family charset = false)
    (hfails : encodeCharset text charset = none) :
    FailsAt charset text (CharsetEncoder.feed { charset := charset } text).1.failedAt := by
  have hfeed := (encoder_follows hfamily).whole text
  have hstart : encoderAfter charset [] = { charset := charset } := rfl
  rw [hstart] at hfeed
  rw [hfeed]
  have hreads := (characterScanner charset).scan_reads text
  have hstops := (characterScanner charset).scan_stops text
  have hnot : ¬((characterScanner charset).scan text).rest = [] := by
    intro hrest
    have hbad : ((characterScanner charset).scan text).bad = false := by
      refine Bool.eq_false_iff.2 fun hbad => ?_
      have := hstops.bad hbad
      rw [hrest] at this
      cases this
    have hwhole : (characterScanner charset).scan text =
        ⟨((characterScanner charset).scan text).values, [], false⟩ := by
      rw [← hrest, ← hbad]
    have := (encodeCharset_eq hfamily).2 ⟨_, hwhole, rfl⟩
    rw [hfails] at this
    cases this
  obtain ⟨codepoints, hholds, htext, -⟩ := (characterScanner_speaks charset).of_reads hreads
  refine ⟨codepoints, _, hholds, htext, ?_, hnot, fun cp hcp hbegins => ?_⟩
  · have hlength := congrArg List.length htext
    rw [List.length_append] at hlength
    simp only [CharsetEncoder.failedAt, encoderAfter]
    split <;> omega
  · obtain ⟨more, hmore⟩ := hbegins
    have hfront := (characterScanner_speaks charset).front_code more hcp
    rw [hmore] at hfront
    exact hstops.not_token _ _ hfront

/-- Decoding and encoding in a charset other than UTF-8 undo each other, the encoder takes exactly the
texts whose characters the charset can hold, and pieces read like the whole. -/
theorem charset_coding (hfamily : isUtf8Family charset = false) :
    (∀ bytes text, decodeCharset bytes charset = some text →
      encodeCharset text charset = some bytes) ∧
    (∀ text bytes, encodeCharset text charset = some bytes →
      decodeCharset bytes charset = some text) ∧
    (∀ text, (encodeCharset text charset).isSome ↔ ∃ codepoints : List UInt32,
      (∀ cp ∈ codepoints, charset.Holds cp) ∧ text = codepoints.flatMap encodeCodepointUtf8) ∧
    (∀ pieces, feedAll CharsetDecoder.feed { charset := charset } pieces =
      CharsetDecoder.feed { charset := charset } pieces.flatten) ∧
    (∀ pieces, feedAll CharsetEncoder.feed { charset := charset } pieces =
      CharsetEncoder.feed { charset := charset } pieces.flatten) ∧
    ∀ pieces, encodeCharset pieces.flatten charset = none →
      FailsAt charset pieces.flatten
        (feedAll CharsetEncoder.feed { charset := charset } pieces).1.failedAt := by
  refine ⟨fun bytes text h => ?_, fun text bytes h => ?_, fun text => ?_, decoder_pieces hfamily,
    encoder_pieces hfamily, fun pieces h => ?_⟩
  · rwa [encodeCharset_eq_some_iff hfamily, ← decodeCharset_eq_some_iff hfamily]
  · rwa [decodeCharset_eq_some_iff hfamily, ← encodeCharset_eq_some_iff hfamily]
  · rw [Option.isSome_iff_exists]
    simp only [encodeCharset_eq_some_iff hfamily]
    constructor
    · rintro ⟨bytes, codepoints, hholds, htext, -⟩
      exact ⟨codepoints, hholds, htext⟩
    · rintro ⟨codepoints, hholds, htext⟩
      exact ⟨_, codepoints, hholds, htext, rfl⟩
  · rw [encoder_pieces hfamily]
    exact encoder_failsAt hfamily h

theorem charset_coding_sample :
    encodeCharset [0xC3, 0xA9, 0x0A] .utf16Be = some [0, 0xE9, 0, 0x0A] ∧
      decodeCharset [0, 0xE9, 0, 0x0A] .utf16Be = some [0xC3, 0xA9, 0x0A] := by
  have hencode : encodeCharset [0xC3, 0xA9, 0x0A] .utf16Be = some [0, 0xE9, 0, 0x0A] := by decide
  exact ⟨hencode, (charset_coding rfl).2.1 _ _ hencode⟩

end Ned.Text
