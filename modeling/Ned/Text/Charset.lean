import Ned.Library.Scanner
import Ned.Text.Bytes

/-!
# Charsets

How the bytes of a file are encoded on disk. The text of a buffer is UTF-8; a load decodes into it and a
save encodes from it, both in pieces. A decoder or an encoder carries what a piece leaves incomplete
over to the next one.
-/

namespace Ned.Text

open Ned.Library

inductive Charset where
  | utf8
  | utf8Bom
  | latin1
  | utf16Le
  | utf16Be
  deriving DecidableEq

def kUtf8Bom : Bytes := [0xEF, 0xBB, 0xBF]

def kUtf16LeBom : Bytes := [0xFF, 0xFE]

def kUtf16BeBom : Bytes := [0xFE, 0xFF]

def sniffCharset (head : Bytes) : Charset :=
  if kUtf8Bom.isPrefixOf head then
    .utf8Bom
  else if kUtf16LeBom.isPrefixOf head then
    .utf16Le
  else if kUtf16BeBom.isPrefixOf head then
    .utf16Be
  else
    .utf8

def isUtf8Family (charset : Charset) : Bool := charset == .utf8 || charset == .utf8Bom

def charsetPreamble : Charset → Bytes
  | .utf8Bom => kUtf8Bom
  | .utf16Le => kUtf16LeBom
  | .utf16Be => kUtf16BeBom
  | .utf8 => []
  | .latin1 => []

def resolveUnstatedCharset (head : Bytes) (chosen : Option Charset) : Charset :=
  let sniffed := sniffCharset head
  match chosen with
  | none => sniffed
  | some chosen =>
      if isUtf8Family chosen then
        if sniffed != .utf8Bom then .utf8 else sniffed
      else
        chosen

/-- `stated` is what the surroundings of the file say, if anything does. -/
def resolveLoadCharset (stated : Option Charset) (head : Bytes) (chosen : Option Charset) : Charset :=
  resolveUnstatedCharset head
    (if chosen.isNone && sniffCharset head == .utf8 then stated else chosen)

def preambleLength (head : Bytes) (charset : Charset) : Nat :=
  if (charsetPreamble charset).isPrefixOf head then (charsetPreamble charset).length else 0

/-! ## Units and sequences -/

/-- The source writes it out a second time. -/
abbrev appendUtf8 (codepoint : UInt32) : Bytes := encodeCodepointUtf8 codepoint

def appendUtf16Unit (unit : UInt16) (bigEndian : Bool) : Bytes :=
  let high := (unit >>> 8).toUInt8
  let low := (unit &&& 0xFF).toUInt8
  if bigEndian then [high, low] else [low, high]

/-- The length of the sequence a lead byte starts, 0 for a byte that starts none. -/
def sequenceLength (lead : UInt8) : Nat :=
  if lead < 0x80 then
    1
  else if lead ≥ 0xC2 && lead ≤ 0xDF then
    2
  else if lead ≥ 0xE0 && lead ≤ 0xEF then
    3
  else if lead ≥ 0xF0 && lead ≤ 0xF4 then
    4
  else
    0

/-- The codepoint a sequence of the announced length spells. -/
def decodeSequence (bytes : Bytes) : Option UInt32 :=
  if bytes.tail.all isContinuationByte then
    match bytes with
    | [b0] => some b0.toUInt32
    | [b0, b1] => some (((b0 &&& 0x1F).toUInt32 <<< 6) ||| (b1 &&& 0x3F).toUInt32)
    | [b0, b1, b2] =>
        let codepoint := ((b0 &&& 0x0F).toUInt32 <<< 12) ||| ((b1 &&& 0x3F).toUInt32 <<< 6) |||
          (b2 &&& 0x3F).toUInt32
        if codepoint < 0x800 || (codepoint ≥ 0xD800 && codepoint ≤ 0xDFFF) then
          none
        else
          some codepoint
    | [b0, b1, b2, b3] =>
        let codepoint := ((b0 &&& 0x07).toUInt32 <<< 18) ||| ((b1 &&& 0x3F).toUInt32 <<< 12) |||
          ((b2 &&& 0x3F).toUInt32 <<< 6) ||| (b3 &&& 0x3F).toUInt32
        if codepoint < 0x10000 || codepoint > 0x10FFFF then none else some codepoint
    | _ => none
  else
    none

def unitAt (bigEndian : Bool) (first second : UInt8) : UInt16 :=
  if bigEndian then
    (first.toUInt16 <<< 8) ||| second.toUInt16
  else
    (second.toUInt16 <<< 8) ||| first.toUInt16

def isHighSurrogate (unit : UInt16) : Bool := unit ≥ 0xD800 && unit ≤ 0xDBFF

def isLowSurrogate (unit : UInt16) : Bool := unit ≥ 0xDC00 && unit ≤ 0xDFFF

def surrogatePair (high low : UInt16) : UInt32 :=
  (0x10000 : UInt32) + (((high - 0xD800).toUInt32 <<< 10) ||| (low - 0xDC00).toUInt32)

/-- One round of the loop of `CharsetDecoder::Feed`. -/
def nextUnit (bigEndian : Bool) : Bytes → Front Bytes
  | first :: second :: pending =>
      let unit := unitAt bigEndian first second
      if isLowSurrogate unit then
        .bad
      else if isHighSurrogate unit then
        match pending with
        | third :: fourth :: _ =>
            let low := unitAt bigEndian third fourth
            if isLowSurrogate low then .token 4 (appendUtf8 (surrogatePair unit low)) else .bad
        | _ => .short
      else
        .token 2 (appendUtf8 unit.toUInt32)
  | _ => .short

/-- What the encoder appends for a codepoint. -/
def encodeCodepoint (charset : Charset) (codepoint : UInt32) : Bytes :=
  if charset = .latin1 then
    [codepoint.toUInt8]
  else
    let bigEndian := charset == .utf16Be
    if codepoint ≥ 0x10000 then
      let offset := codepoint - 0x10000
      appendUtf16Unit ((0xD800 : UInt32) + (offset >>> 10)).toUInt16 bigEndian ++
        appendUtf16Unit ((0xDC00 : UInt32) + (offset &&& 0x3FF)).toUInt16 bigEndian
    else
      appendUtf16Unit codepoint.toUInt16 bigEndian

/-- One round of the loop of `CharsetEncoder::Feed`. -/
def nextCharacter (charset : Charset) : Bytes → Front Bytes
  | [] => .short
  | lead :: pending =>
      let length := sequenceLength lead
      if length = 0 then
        .bad
      else if length > (lead :: pending).length then
        .short
      else
        match decodeSequence ((lead :: pending).take length) with
        | none => .bad
        | some codepoint =>
            if charset = .latin1 ∧ codepoint > 0xFF then
              .bad
            else
              .token length (encodeCodepoint charset codepoint)

/-! ## Scanning -/

theorem nextUnit_token {bigEndian : Bool} {pending value : Bytes} {length : Nat}
    (h : nextUnit bigEndian pending = .token length value) :
    0 < length ∧ length ≤ pending.length ∧
      ∀ more, nextUnit bigEndian (pending ++ more) = .token length value := by
  revert h
  fun_cases nextUnit bigEndian pending <;> simp_all +zetaDelta [nextUnit]
  case case2 | case5 =>
      rintro rfl -
      omega

theorem nextUnit_bad {bigEndian : Bool} {pending : Bytes} (h : nextUnit bigEndian pending = .bad)
    (more : Bytes) : nextUnit bigEndian (pending ++ more) = .bad := by
  revert h
  fun_cases nextUnit bigEndian pending <;> simp_all +zetaDelta [nextUnit]

theorem nextCharacter_append {charset : Charset} {pending : Bytes}
    (h : nextCharacter charset pending ≠ .short) (more : Bytes) :
    nextCharacter charset (pending ++ more) = nextCharacter charset pending := by
  cases pending with
  | nil => exact absurd rfl h
  | cons lead pending =>
      simp only [nextCharacter, List.cons_append] at h ⊢
      split
      · rfl
      · rename_i hlength
        rw [if_neg hlength] at h
        by_cases hshort : sequenceLength lead > (lead :: pending).length
        · rw [if_pos hshort] at h
          exact absurd rfl h
        · have hle : sequenceLength lead ≤ (lead :: pending).length := Nat.le_of_not_lt hshort
          rw [if_neg hshort, if_neg, ← List.cons_append, List.take_append_of_le_length hle]
          simp only [List.length_cons, List.length_append] at hle ⊢
          omega

theorem nextCharacter_token {charset : Charset} {pending value : Bytes} {length : Nat}
    (h : nextCharacter charset pending = .token length value) :
    0 < length ∧ length ≤ pending.length := by
  revert h
  fun_cases nextCharacter charset pending <;> simp_all
  omega

/-- The loop of the decoder over UTF-16. -/
def unitScanner (bigEndian : Bool) : Scanner UInt8 Bytes where
  front := nextUnit bigEndian
  front_nil := rfl
  token_pos h := (nextUnit_token h).1
  token_le h := (nextUnit_token h).2.1
  token_append more h := (nextUnit_token h).2.2 more
  bad_append more h := nextUnit_bad h more

/-- The loop of the encoder. -/
def characterScanner (charset : Charset) : Scanner UInt8 Bytes where
  front := nextCharacter charset
  front_nil := rfl
  token_pos h := (nextCharacter_token h).1
  token_le h := (nextCharacter_token h).2
  token_append more h := by
    rw [nextCharacter_append (by simp [h]), h]
  bad_append more h := by
    rw [nextCharacter_append (by simp [h]), h]

/-! ## Decoding -/

/-- `carry` is an incomplete unit or surrogate pair. -/
structure CharsetDecoder where
  charset : Charset
  carry : Bytes := []
  failed : Bool := false
  deriving DecidableEq

namespace CharsetDecoder

/-- The decoder after `bytes`, what it appends to the text, and whether it goes on. -/
def feed (decoder : CharsetDecoder) (bytes : Bytes) : CharsetDecoder × Bytes × Bool :=
  if decoder.failed then
    (decoder, [], false)
  else if isUtf8Family decoder.charset then
    (decoder, bytes, true)
  else if decoder.charset = .latin1 then
    (decoder, bytes.flatMap fun c => appendUtf8 c.toUInt32, true)
  else
    let bigEndian := decoder.charset == .utf16Be
    let scanned := (unitScanner bigEndian).scan (decoder.carry ++ bytes)
    ({ decoder with
        carry := if scanned.bad then [] else scanned.rest
        failed := scanned.bad }, scanned.values.flatten, !scanned.bad)

def finish (decoder : CharsetDecoder) : Bool := !decoder.failed && decoder.carry.isEmpty

end CharsetDecoder

def decodeCharset (bytes : Bytes) (charset : Charset) : Option Bytes :=
  let (decoder, out, fed) := CharsetDecoder.feed { charset := charset } bytes
  if !fed || !decoder.finish then none else some out

/-! ## Encoding -/

/-- `carry` is an incomplete sequence, already counted into `consumed`. -/
structure CharsetEncoder where
  charset : Charset
  carry : Bytes := []
  consumed : Nat := 0
  failed : Bool := false
  deriving DecidableEq

namespace CharsetEncoder

/-- The encoder after `utf8`, what it appends to the output, and whether it goes on. -/
def feed (encoder : CharsetEncoder) (utf8 : Bytes) : CharsetEncoder × Bytes × Bool :=
  if encoder.failed then
    (encoder, [], false)
  else if isUtf8Family encoder.charset then
    ({ encoder with consumed := encoder.consumed + utf8.length }, utf8, true)
  else
    let base := encoder.consumed - encoder.carry.length
    let pending := encoder.carry ++ utf8
    let scanned := (characterScanner encoder.charset).scan pending
    if scanned.bad then
      ({ encoder with
          carry := []
          consumed := base + (pending.length - scanned.rest.length)
          failed := true }, scanned.values.flatten, false)
    else
      ({ encoder with carry := scanned.rest, consumed := encoder.consumed + utf8.length },
        scanned.values.flatten, true)

def finish (encoder : CharsetEncoder) : Bool := !encoder.failed && encoder.carry.isEmpty

def failedAt (encoder : CharsetEncoder) : Nat :=
  if encoder.failed then encoder.consumed else encoder.consumed - encoder.carry.length

end CharsetEncoder

def encodeCharset (utf8 : Bytes) (charset : Charset) : Option Bytes :=
  let (encoder, out, fed) := CharsetEncoder.feed { charset := charset } utf8
  if !fed || !encoder.finish then none else some out

end Ned.Text
