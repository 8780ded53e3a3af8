import Ned.Text.Buffer

/-!
# Motions by word and by sentence

Each computes an offset by steps of one codepoint and sets the point there, which snaps it.
-/

namespace Ned.Text

/-! ## Kinds of codepoint -/

def isWordCodepoint (codepoint : UInt32) : Bool :=
  (codepoint ≥ 97 && codepoint ≤ 122) || (codepoint ≥ 65 && codepoint ≤ 90) ||
    (codepoint ≥ 48 && codepoint ≤ 57) || codepoint == 95

def isSentenceEndCodepoint (codepoint : UInt32) : Bool :=
  codepoint == 46 || codepoint == 33 || codepoint == 63

def isSpaceOrNewlineCodepoint (codepoint : UInt32) : Bool :=
  codepoint == 32 || codepoint == 9 || codepoint == 10 || codepoint == 13

/-! ## Scans -/

section

variable (storage : Storage) (holds : UInt32 → Bool)

/-- Past the codepoints ahead for which `holds`. -/
def skipForwardWithin : Nat → Nat → Option Nat
  | 0, _ => none
  | fuel + 1, offset =>
      if offset < storage.byteLength then do
        let next ← storage.codepointAt offset
        if holds next.codepoint then do
          let offset ← storage.nextCodepointBoundary offset
          skipForwardWithin fuel offset
        else
          some offset
      else
        some offset

def skipForward (offset : Nat) : Option Nat :=
  skipForwardWithin storage holds (storage.byteLength + 1) offset

/-- Back over the codepoints behind for which `holds`. -/
def skipBackwardWithin : Nat → Nat → Option Nat
  | 0, _ => none
  | fuel + 1, offset =>
      if offset > 0 then do
        let previous ← storage.previousCodepointBoundary offset
        let behind ← storage.codepointAt previous
        if holds behind.codepoint then
          skipBackwardWithin fuel previous
        else
          some offset
      else
        some offset

def skipBackward (offset : Nat) : Option Nat :=
  skipBackwardWithin storage holds (offset + 1) offset

end

/-! ## Motions -/

namespace Buffer

variable (p : Platform) (b : Buffer)

/-- Where `MoveForwardWord` looks for the point. -/
def forwardWordOffset : Option Nat := do
  let offset ← skipForward b.storage (fun codepoint => !isWordCodepoint codepoint) b.point
  skipForward b.storage isWordCodepoint offset

def moveForwardWord : Option Buffer := do
  let offset ← b.forwardWordOffset
  b.setPoint p offset

def backwardWordOffset : Option Nat := do
  let offset ← skipBackward b.storage (fun codepoint => !isWordCodepoint codepoint) b.point
  skipBackward b.storage isWordCodepoint offset

def moveBackwardWord : Option Buffer := do
  let offset ← b.backwardWordOffset
  b.setPoint p offset

def forwardSentenceOffset : Option Nat := do
  let offset ← skipForward b.storage (fun codepoint => !isSentenceEndCodepoint codepoint) b.point
  if offset < b.storage.byteLength then do
    -- past the sentence-ending punctuation itself
    let offset ← b.storage.nextCodepointBoundary offset
    skipForward b.storage isSpaceOrNewlineCodepoint offset
  else
    some offset

def moveForwardSentence : Option Buffer := do
  let offset ← b.forwardSentenceOffset
  b.setPoint p offset

/-- Over one sentence-ending mark right behind, which the scan would find again. -/
def hopSentenceEnd (offset : Nat) : Option Nat :=
  if offset > 0 then do
    let previous ← b.storage.previousCodepointBoundary offset
    let behind ← b.storage.codepointAt previous
    some (if isSentenceEndCodepoint behind.codepoint then previous else offset)
  else
    some offset

def backwardSentenceOffset : Option Nat := do
  let offset ← skipBackward b.storage isSpaceOrNewlineCodepoint b.point
  let offset ← b.hopSentenceEnd offset
  let offset ← skipBackward b.storage (fun codepoint => !isSentenceEndCodepoint codepoint) offset
  skipForward b.storage isSpaceOrNewlineCodepoint offset

def moveBackwardSentence : Option Buffer := do
  let offset ← b.backwardSentenceOffset
  b.setPoint p offset

end Buffer

end Ned.Text

/-!
## Multiple cursors

An operation on the point run once per cursor: each secondary cursor is swapped into the point in
turn, and the primary rides along in its place.
-/

namespace Ned.Text

namespace Buffer

variable (p : Platform) (operation : Buffer → Option (Except String Buffer)) (b : Buffer)

/-- The three `std::swap`s with `SecondaryCursors_[i]`. -/
def swapCursor (i : Nat) : Option Buffer := do
  let cursor ← b.secondaryCursors[i]?
  some
    { b with
      point := cursor.point
      mark := cursor.mark
      goalColumn := cursor.goalColumn
      secondaryCursors :=
        b.secondaryCursors.set i { point := b.point, mark := b.mark, goalColumn := b.goalColumn } }

/-- The loop over the secondary cursors: the buffer it leaves, and what the operation threw. The
operation must not add cursors, so there are never more rounds than cursors. -/
def forEachSecondary (i : Nat) : Nat → Buffer → Option (Buffer × Option String)
  | 0, _ => none
  | rounds + 1, b =>
      if i < b.secondaryCursors.length then do
        let b ← b.swapCursor i
        match ← operation b with
        | .error why => do
            let b ← b.swapCursor i
            some (b, some why)
        | .ok b => do
            let b ← b.swapCursor i
            forEachSecondary (i + 1) rounds b
      else
        some (b, none)

/-- What leaving the scope does, thrown through or not. -/
def endCursorIteration : Option Buffer :=
  let inactive : TrackedPositions := { b.toTrackedPositions with cursorIterationActive := false }
  { b with toTrackedPositions := inactive.normalizeSecondaryCursors p.keySort }.endUndoGroup

def forEachCursor : Option (Buffer × Option String) := do
  let b := { b.beginUndoGroup with cursorIterationActive := true }
  let (b, thrown) ←
    match ← operation b with
    | .error why => some (b, some why)
    | .ok b => forEachSecondary operation 0 (b.secondaryCursors.length + 1) b
  let b ← b.endCursorIteration p
  some (b, thrown)

end Buffer

end Ned.Text
