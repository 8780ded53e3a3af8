import Ned.Text.Storage

/-!
# Grapheme clusters

Steps by grapheme cluster over a storage. Whether two codepoints are broken apart is decided by a
library, with a state that starts at 0 and is carried from one pair to the next.
-/

namespace Ned.Text

/-- From the state and a pair of codepoints: whether there is a break, and the next state. -/
abbrev GraphemeBreak := Int → UInt32 → UInt32 → Bool × Int

variable (breakStateful : GraphemeBreak) (rope : Storage)

def backNCodepoints : Nat → Nat → Option Nat
  | 0, offset => some offset
  | n + 1, offset =>
      if offset > 0 then do
        let previous ← rope.previousCodepointBoundary offset
        backNCodepoints n previous
      else
        some offset

/-- The loop of `NextGraphemeBoundary`. -/
def nextBreak (total : Nat) : Nat → Int → UInt32 → Nat → Option Nat
  | 0, _, _, _ => none
  | fuel + 1, state, cp1, offset =>
      if offset < total then do
        let next ← rope.codepointAt offset
        let (broken, state) := breakStateful state cp1 next.codepoint
        if broken then
          some offset
        else
          nextBreak total fuel state next.codepoint (offset + next.byteLength)
      else
        some total

def nextGraphemeBoundary (byteOffset : Nat) : Option Nat :=
  let total := rope.byteLength
  if byteOffset ≥ total then
    some total
  else do
    let first ← rope.codepointAt byteOffset
    nextBreak breakStateful rope total (total + 1) 0 first.codepoint (byteOffset + first.byteLength)

/-- The scans of `PreviousGraphemeBoundary` and `SnapToGraphemeBoundary`: the last break before
`stop`, and whether there was one. -/
def lastBreakBefore (stop : Nat) : Nat → Int → UInt32 → Nat → Nat × Bool → Option (Nat × Bool)
  | 0, _, _, _, _ => none
  | fuel + 1, state, cp1, offset, last =>
      if offset < stop then do
        let next ← rope.codepointAt offset
        let (broken, state) := breakStateful state cp1 next.codepoint
        lastBreakBefore stop fuel state next.codepoint (offset + next.byteLength)
          (if broken then (offset, true) else last)
      else
        some last

/-- The scan from `scanStart` up to, not including, `stop`. -/
def scanBreaks (scanStart stop : Nat) : Option (Nat × Bool) := do
  let first ← rope.codepointAt scanStart
  lastBreakBefore breakStateful rope stop (rope.byteLength + 2) 0 first.codepoint
    (scanStart + first.byteLength) (scanStart, false)

/-- The attempts of `PreviousGraphemeBoundary`, each with a window four times as wide. -/
def previousBreak (byteOffset : Nat) : Nat → Nat → Option Nat
  | 0, lookback => backNCodepoints rope lookback byteOffset
  | attempts + 1, lookback => do
      let scanStart ← backNCodepoints rope lookback byteOffset
      let (lastBoundary, foundBoundary) ←
        if scanStart < byteOffset then
          scanBreaks breakStateful rope scanStart byteOffset
        else
          some (scanStart, false)
      if foundBoundary || scanStart == 0 then
        some lastBoundary
      else
        previousBreak byteOffset attempts (lookback * 4)

def previousGraphemeBoundary (byteOffset : Nat) : Option Nat :=
  if byteOffset = 0 then some 0 else previousBreak breakStateful rope byteOffset 10 32

/-- The start of the codepoint that holds `byteOffset`; the index before 0 wraps around. -/
def snapToCodepoint (byteOffset : Nat) : Nat :=
  let codepointOffset := rope.byteOffsetToCodepointOffset byteOffset
  let snapped := rope.codepointOffsetToByteOffset codepointOffset
  if snapped ≠ byteOffset then
    rope.codepointOffsetToByteOffset (if codepointOffset = 0 then sizeMax else codepointOffset - 1)
  else
    snapped

/-- The attempts of `SnapToGraphemeBoundary`, whose scan includes `byteOffset` itself. -/
def snapBreak (byteOffset : Nat) : Nat → Nat → Option Nat
  | 0, lookback => backNCodepoints rope lookback byteOffset
  | attempts + 1, lookback => do
      let scanStart ← backNCodepoints rope lookback byteOffset
      -- a break at byteOffset is the last one found, so returning it early changes nothing
      let (lastBoundary, foundBoundary) ←
        scanBreaks breakStateful rope scanStart (byteOffset + 1)
      if foundBoundary || scanStart == 0 then
        some lastBoundary
      else
        snapBreak byteOffset attempts (lookback * 4)

def snapToGraphemeBoundary (byteOffset : Nat) : Option Nat :=
  let total := rope.byteLength
  let byteOffset := snapToCodepoint rope (min byteOffset total)
  if byteOffset = 0 ∨ byteOffset = total then
    some byteOffset
  else
    snapBreak breakStateful rope byteOffset 10 32

/-! ## Over a rope -/

/-- `snapToCodepoint` where codepoint indices are read by the two functions. -/
def snapToCodepointBy (toCodepoint toByte : Nat → Nat) (byteOffset : Nat) : Nat :=
  let codepointOffset := toCodepoint byteOffset
  let snapped := toByte codepointOffset
  if snapped ≠ byteOffset then
    toByte (if codepointOffset = 0 then sizeMax else codepointOffset - 1)
  else
    snapped

/-- Where leaves are cut shows in the codepoint indices of malformed text, and nowhere else. -/
def Rope.snapToGraphemeBoundary (rope : Rope) (byteOffset : Nat) : Option Nat :=
  let total := rope.byteLength
  let byteOffset :=
    snapToCodepointBy rope.byteOffsetToCodepointOffset rope.codepointOffsetToByteOffset
      (min byteOffset total)
  if byteOffset = 0 ∨ byteOffset = total then
    some byteOffset
  else
    snapBreak breakStateful { bytes := rope.toString, huge := false } byteOffset 10 32

end Ned.Text
