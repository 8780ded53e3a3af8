import Ned.Library.MeasuredTree
import Mathlib.Algebra.Group.Nat.Defs

/-!
# Bytes

Byte strings, the two kinds of bytes the storages count, and the scans they replace.
-/

namespace Ned.Text

open Ned.Library

abbrev Bytes := List UInt8

/-- The largest `std::size_t`. -/
def sizeMax : Nat := 2 ^ 64 - 1

/-- No `std::string` is longer. -/
def stringMax : Nat := 2 ^ 63 - 1

def newline : UInt8 := 10

def isContinuationByte (c : UInt8) : Bool := c &&& 0xC0 == 0x80

/-- A byte at which a codepoint may start. -/
def isStartByte (c : UInt8) : Bool := !isContinuationByte c

def isNewline (c : UInt8) : Bool := c == newline

def countCodepoints (text : Bytes) : Nat := text.countP isStartByte

def countNewlines (text : Bytes) : Nat := text.countP isNewline

@[simp] theorem countCodepoints_nil : countCodepoints [] = 0 := rfl

@[simp] theorem countCodepoints_cons (c : UInt8) (text : Bytes) :
    countCodepoints (c :: text) = countCodepoints text + if isContinuationByte c then 0 else 1 := by
  by_cases hc : isContinuationByte c = true <;>
    simp [countCodepoints, isStartByte, hc]

@[simp] theorem countCodepoints_append (s t : Bytes) :
    countCodepoints (s ++ t) = countCodepoints s + countCodepoints t :=
  List.countP_append

@[simp] theorem countNewlines_nil : countNewlines [] = 0 := rfl

@[simp] theorem countNewlines_cons (c : UInt8) (text : Bytes) :
    countNewlines (c :: text) = countNewlines text + if isNewline c then 1 else 0 :=
  List.countP_cons

@[simp] theorem countNewlines_append (s t : Bytes) :
    countNewlines (s ++ t) = countNewlines s + countNewlines t :=
  List.countP_append

def substr (text : Bytes) (offset length : Nat) : Bytes := (text.drop offset).take length

/-! ## Cached counts -/

/-- The cached fields of a storage node. -/
structure Counts where
  byteLength : Nat
  codepointLength : Nat
  lineCount : Nat
  deriving DecidableEq

instance : Add Counts where
  add a b :=
    { byteLength := a.byteLength + b.byteLength
      codepointLength := a.codepointLength + b.codepointLength
      lineCount := a.lineCount + b.lineCount }

def Counts.of (text : Bytes) : Counts :=
  { byteLength := text.length
    codepointLength := countCodepoints text
    lineCount := countNewlines text }

theorem Counts.of_append (s t : Bytes) : Counts.of (s ++ t) = Counts.of s + Counts.of t := by
  show Counts.mk _ _ _ = Counts.mk _ _ _
  simp only [List.length_append, countCodepoints_append, countNewlines_append, Counts.of]

def textMeasure : Measure Counts UInt8 where
  of := Counts.of
  size := Counts.byteLength
  of_append := Counts.of_append
  size_of _ := rfl

def codepointCounter : textMeasure.Counter where
  holds := isStartByte
  count := Counts.codepointLength
  count_of _ := rfl

def newlineCounter : textMeasure.Counter where
  holds := isNewline
  count := Counts.lineCount
  count_of _ := rfl

/-! ## Scans of a leaf -/

/-- The loop of `FindLineStart` over one leaf, with `seen` newlines before position `i`. -/
def scanLineStart (line seen i : Nat) : Bytes → Option Nat
  | [] => none
  | c :: text =>
      if isNewline c then
        if seen + 1 = line then some (i + 1) else scanLineStart line (seen + 1) (i + 1) text
      else
        scanLineStart line seen (i + 1) text

/-- The loop of `FindCodepointStart` over one leaf, with `seen` codepoints before position `i`. -/
def scanCodepointStart (codepointOffset seen i : Nat) : Bytes → Option Nat
  | [] => none
  | c :: text =>
      if isContinuationByte c then
        scanCodepointStart codepointOffset seen (i + 1) text
      else if seen = codepointOffset then
        some i
      else
        scanCodepointStart codepointOffset (seen + 1) (i + 1) text

/-! ## The flat string -/

/-- The offset after the `line`-th newline, the end of the text when it has fewer. -/
def lineStart : Bytes → Nat → Nat
  | _, 0 => 0
  | [], _ + 1 => 0
  | c :: text, line + 1 => 1 + lineStart text (if isNewline c then line else line + 1)

/-- The offset of the codepoint with the given index, the end of the text when it has fewer. -/
def codepointStart : Bytes → Nat → Nat
  | [], _ => 0
  | c :: text, k =>
      if isContinuationByte c then
        1 + codepointStart text k
      else
        match k with
        | 0 => 0
        | k + 1 => 1 + codepointStart text k

/-- `text` with `inserted` put at `offset`, clamped to the end. -/
def insertAt (text : Bytes) (offset : Nat) (inserted : Bytes) : Bytes :=
  text.take offset ++ inserted ++ text.drop offset

/-- `text` without the `length` bytes from `offset` on, clamped to the end. -/
def eraseAt (text : Bytes) (offset length : Nat) : Bytes :=
  text.take offset ++ text.drop (offset + length)

/-!
## Chunks

The loop with which both storages cut bytes into leaves. No chunk ends before a continuation byte:
the inner loop backs its end up as far as it takes.
-/

/-- The inner loop: backs `chunkEnd` up over continuation bytes. Past zero it wraps around. -/
def backUp (byteAt : Nat → Option UInt8) (length : Nat) : Nat → Option Nat
  | 0 =>
      if 0 < length then do
        let c ← byteAt 0
        some (if isContinuationByte c then sizeMax else 0)
      else
        some 0
  | chunkEnd + 1 =>
      if chunkEnd + 1 < length then do
        let c ← byteAt (chunkEnd + 1)
        if isContinuationByte c then backUp byteAt length chunkEnd else some (chunkEnd + 1)
      else
        some (chunkEnd + 1)

/-- The outer loop: the offset and length of each chunk, `none` when `fuel` does not suffice. -/
def chunkRanges (byteAt : Nat → Option UInt8) (length chunkSize : Nat) :
    Nat → Nat → Option (List (Nat × Nat))
  | 0, _ => none
  | fuel + 1, offset =>
      if offset < length then do
        let chunkEnd ← backUp byteAt length (min (offset + chunkSize) length)
        let rest ← chunkRanges byteAt length chunkSize fuel chunkEnd
        -- no wraparound here: `chunkEnd` stops at `offset`, or is `sizeMax` when `offset` is 0
        some ((offset, chunkEnd - offset) :: rest)
      else
        some []

/-! ## Where the loop goes wrong -/

def continuationAt (text : Bytes) (i : Nat) : Bool := text[i]?.any isContinuationByte

/-- At `p` the chunk end backs up to `p` itself: a chunk of continuation bytes follows a byte that is
none. -/
def StallsAt (chunkSize : Nat) (text : Bytes) (p : Nat) : Prop :=
  p + chunkSize < text.length ∧ continuationAt text p = false ∧
    ∀ i, p < i → i ≤ p + chunkSize → continuationAt text i = true

/-- From the start of the text the chunk end backs up past zero. -/
def Underflows (chunkSize : Nat) (text : Bytes) : Prop :=
  ∀ i ≤ chunkSize, continuationAt text i = true

/-- The ranges cut the text from `offset` on into nonempty pieces that may start where they do. -/
def Tiles (start : UInt8 → Bool) (text : Bytes) : Nat → List (Nat × Nat) → Prop
  | offset, [] => offset = text.length
  | offset, (p, n) :: rest =>
      p = offset ∧ 0 < n ∧ offset + n ≤ text.length ∧
        Library.MeasuredTree.Cut start text offset ∧ Tiles start text (offset + n) rest

/-!
## UTF-8

Encoding and decoding of single codepoints. A decoder reads bytes through `byteAt`, so that the same
text serves a flat string and the trees; `none` is a read out of bounds.
-/

/-! ## Encoding -/

/-- The byte `0x80 | (bits & 0x3F)`. -/
def continuationByte (bits : UInt32) : UInt8 := UInt32.toUInt8 (0x80 ||| (bits &&& 0x3F))

def encodeCodepointUtf8 (codepoint : UInt32) : Bytes :=
  if codepoint < 0x80 then
    [codepoint.toUInt8]
  else if codepoint < 0x800 then
    [UInt32.toUInt8 ((0xC0 : UInt32) ||| (codepoint >>> 6)), continuationByte codepoint]
  else if codepoint < 0x10000 then
    [UInt32.toUInt8 ((0xE0 : UInt32) ||| (codepoint >>> 12)), continuationByte (codepoint >>> 6),
      continuationByte codepoint]
  else
    [UInt32.toUInt8 ((0xF0 : UInt32) ||| (codepoint >>> 18)), continuationByte (codepoint >>> 12),
      continuationByte (codepoint >>> 6), continuationByte codepoint]

def isScalarValueEncoding (codepoint : UInt32) (length : Nat) : Bool :=
  let overlong := (length == 2 && codepoint < 0x80) || (length == 3 && codepoint < 0x800) ||
    (length == 4 && codepoint < 0x10000)
  !overlong && codepoint ≤ 0x10FFFF && (codepoint < 0xD800 || codepoint > 0xDFFF)

/-! ## Decoding -/

structure DecodedCodepoint where
  codepoint : UInt32
  byteLength : Nat
  deriving DecidableEq

/-- What a malformed byte decodes as. -/
def malformed : DecodedCodepoint := { codepoint := 0xFFFD, byteLength := 1 }

/-- Reads the continuation bytes after a lead byte; `some none` is a byte that is none. -/
def decodeTail (byteAt : Nat → Option UInt8) (offset : Nat) :
    Nat → UInt32 → Option (Option UInt32)
  | 0, cp => some (some cp)
  | n + 1, cp => do
      let b ← byteAt offset
      if isContinuationByte b then
        decodeTail byteAt (offset + 1) n ((cp <<< 6) ||| (b &&& 0x3F).toUInt32)
      else
        some none

/-- The length and the leading bits a lead byte announces. -/
def decodeLead (b0 : UInt8) : Option (Nat × UInt32) :=
  if b0 &&& 0xE0 == 0xC0 then
    some (2, (b0 &&& 0x1F).toUInt32)
  else if b0 &&& 0xF0 == 0xE0 then
    some (3, (b0 &&& 0x0F).toUInt32)
  else if b0 &&& 0xF8 == 0xF0 then
    some (4, (b0 &&& 0x07).toUInt32)
  else
    none

def codepointAt (byteAt : Nat → Option UInt8) (total byteOffset : Nat) :
    Option DecodedCodepoint :=
  if byteOffset ≥ total then
    some { codepoint := 0xFFFD, byteLength := 0 }
  else do
    let b0 ← byteAt byteOffset
    if b0 < 0x80 then
      some { codepoint := b0.toUInt32, byteLength := 1 }
    else
      match decodeLead b0 with
      | none => some malformed
      | some (len, cp) =>
          if byteOffset + len > total then
            some malformed
          else
            match ← decodeTail byteAt (byteOffset + 1) (len - 1) cp with
            | none => some malformed
            | some cp =>
                if isScalarValueEncoding cp len then
                  some { codepoint := cp, byteLength := len }
                else
                  some malformed

/-- The loop of `PreviousCodepointBoundary`. -/
def backToLead (byteAt : Nat → Option UInt8) : Nat → Nat → Option Nat
  | 0, _ => some 0
  | offset + 1, steps => do
      let b ← byteAt (offset + 1)
      if isContinuationByte b && steps < 3 then
        backToLead byteAt offset (steps + 1)
      else
        some (offset + 1)

def previousCodepointBoundary (byteAt : Nat → Option UInt8) (total byteOffset : Nat) :
    Option Nat :=
  if byteOffset = 0 then
    some 0
  else do
    let offset ← backToLead byteAt (byteOffset - 1) 0
    let decoded ← codepointAt byteAt total offset
    some (if offset + decoded.byteLength ≥ byteOffset then offset else byteOffset - 1)

def nextCodepointBoundary (byteAt : Nat → Option UInt8) (total byteOffset : Nat) : Option Nat :=
  if byteOffset ≥ total then
    some total
  else do
    let decoded ← codepointAt byteAt total byteOffset
    some (byteOffset + decoded.byteLength)

/-! ## Well-formed text -/

/-- A Unicode scalar value. -/
def IsScalarValue (codepoint : UInt32) : Prop :=
  codepoint ≤ 0x10FFFF ∧ (codepoint < 0xD800 ∨ codepoint > 0xDFFF)

instance (codepoint : UInt32) : Decidable (IsScalarValue codepoint) :=
  inferInstanceAs (Decidable (_ ∧ _))

/-- The text is a concatenation of encoded scalar values. -/
def WellFormedUtf8 (text : Bytes) : Prop :=
  ∃ codepoints : List UInt32, (∀ cp ∈ codepoints, IsScalarValue cp) ∧
    text = codepoints.flatMap encodeCodepointUtf8

/-- `offset`, clamped to the end, does not fall inside a codepoint. -/
def IsCodepointBoundary (text : Bytes) (offset : Nat) : Prop :=
  WellFormedUtf8 (text.take offset) ∧ WellFormedUtf8 (text.drop offset)

end Ned.Text
