import Ned.Text.LineDiff
import Mathlib.Data.List.Basic

/-!
# Hunks of a diff

The hunks of a unified diff, and the line of the old side that a line of the new side corresponds to,
as in `Editor/Vcs/DiffPatch.cpp`. The lines that `LineAt` finds from a place on are those that the rest
of the text is split into.
-/

namespace Ned.Editor.Vcs

open Text

def ascii (text : List Char) : Bytes := text.map fun c => UInt8.ofNat c.toNat

/-- A line without its newline. -/
def lineText (line : Line) : Bytes := if line.getLast? = some newline then line.dropLast else line

/-! ## Headers -/

/-- What follows the first `marker`, from `find`. -/
def afterFirst (marker : Bytes) : Bytes → Option Bytes
  | [] => if marker.isEmpty then some [] else none
  | c :: text =>
      if marker.isPrefixOf (c :: text) then some ((c :: text).drop marker.length)
      else afterFirst marker text

/-- What follows the last `marker`, from `rfind`. -/
def afterLast (marker : Bytes) : Bytes → Option Bytes
  | [] => if marker.isEmpty then some [] else none
  | c :: text =>
      match afterLast marker text with
      | some rest => some rest
      | none =>
          if marker.isPrefixOf (c :: text) then some ((c :: text).drop marker.length) else none

structure CountedRange where
  start : Nat
  count : Nat
  deriving DecidableEq

def isDigit (c : UInt8) : Bool := 48 ≤ c && c ≤ 57

/-- The loop over the digits, and what is left after it. -/
def parseDigits (value : Nat) : Bytes → Nat × Bytes
  | [] => (value, [])
  | c :: text =>
      if isDigit c then parseDigits (value * 10 + (c.toNat - 48)) text else (value, c :: text)

def parseNumber (text : Bytes) : Option (Nat × Bytes) :=
  if (text.head?).any isDigit then some (parseDigits 0 text) else none

/-- One side of a header. A count that is left out is one. -/
def parseCountedRange (headerLine marker : Bytes) : Option CountedRange := do
  let text ← afterFirst marker headerLine
  let (start, text) ← parseNumber text
  match text with
  | [] => some { start := start, count := 1 }
  | c :: text =>
      if c = 44 then do
        let (count, _) ← parseNumber text
        some { start := start, count := count }
      else some { start := start, count := 1 }

def parseNewSideRange (headerLine : Bytes) : Option CountedRange :=
  parseCountedRange headerLine (ascii [' ', '+'])

def parseOldSideRange (headerLine : Bytes) : Option CountedRange :=
  parseCountedRange headerLine (ascii [' ', '-'])

/-- The path behind the last `b/`, or nothing. -/
def parseGitDiffFilePath (headerLine : Bytes) : Bytes :=
  (afterLast (ascii [' ', 'b', '/']) headerLine).getD []

def isFileHeader (line : Line) : Bool :=
  (ascii ['d', 'i', 'f', 'f', ' ', '-', '-', 'g', 'i', 't']).isPrefixOf (lineText line)

def isHunkHeader (line : Line) : Bool := (ascii ['@', '@', ' ']).isPrefixOf (lineText line)

/-! ## Hunks -/

structure DiffHunkText where
  filePath : Bytes
  hunkHeader : Bytes
  bodyText : Bytes
  oldStart : Nat
  oldCount : Nat
  newStart : Nat
  newCount : Nat
  deriving DecidableEq

/-- A hunk whose header cannot be read, or whose file is not known, is left out. -/
def hunkOf (currentFile : Bytes) (header : Line) (body : List Line) : Option DiffHunkText := do
  let oldRange ← parseOldSideRange (lineText header)
  let newRange ← parseNewSideRange (lineText header)
  if currentFile.isEmpty then none
  else
    some { filePath := currentFile, hunkHeader := lineText header, bodyText := body.flatten,
           oldStart := oldRange.start, oldCount := oldRange.count, newStart := newRange.start,
           newCount := newRange.count }

/-- A line at which the body of a hunk ends. -/
def endsBody (line : Line) : Bool := isHunkHeader line || isFileHeader line

def hunksOf (currentFile : Bytes) : List Line → List DiffHunkText
  | [] => []
  | line :: lines =>
      if isFileHeader line then hunksOf (parseGitDiffFilePath (lineText line)) lines
      else if !isHunkHeader line then hunksOf currentFile lines
      else
        (hunkOf currentFile line (lines.takeWhile (!endsBody ·))).toList ++
          hunksOf currentFile (lines.dropWhile (!endsBody ·))
termination_by lines => lines.length
decreasing_by
  · exact Nat.lt_succ_self _
  · exact Nat.lt_succ_self _
  · exact Nat.lt_succ_of_le (List.dropWhile_sublist _).length_le

def parseDiffHunks (diffOutput : Bytes) : List DiffHunkText := hunksOf [] (splitLines diffOutput)

/-! ## Mapping a line -/

/-- Where the walk over a body is, and the block of changes it is in. -/
structure Walk where
  oldLine : Nat
  newCursor : Nat
  removedStart : Nat := 0
  removedCount : Nat := 0
  addedCount : Nat := 0
  deriving DecidableEq

namespace Walk

/-- Past a removed line, which starts a new block after an added one. -/
def removed (w : Walk) : Walk :=
  let w := if w.addedCount > 0 then { w with removedCount := 0, addedCount := 0 } else w
  let w := if w.removedCount = 0 then { w with removedStart := w.oldLine } else w
  { w with removedCount := w.removedCount + 1, oldLine := w.oldLine + 1 }

def added (w : Walk) : Walk := { w with addedCount := w.addedCount + 1, newCursor := w.newCursor + 1 }

def unchanged (w : Walk) : Walk :=
  { w with oldLine := w.oldLine + 1, newCursor := w.newCursor + 1, removedCount := 0, addedCount := 0 }

/-- Where an added line belongs: to the removed one at its place in the block, or to what follows. -/
def partner (w : Walk) : Nat :=
  if w.removedCount > 0 then w.removedStart + min w.addedCount (w.removedCount - 1) else w.oldLine

end Walk

/-- The loop over a body, which returns at the line that is looked for. -/
def walkBody (newLine : Nat) : List Line → Walk → Option Nat
  | [], _ => none
  | line :: lines, w =>
      match lineText line with
      | [] => walkBody newLine lines w
      | c :: _ =>
          if c = 92 then walkBody newLine lines w
          else if c = 45 then walkBody newLine lines w.removed
          else if c = 43 then
            if w.newCursor = newLine then some w.partner else walkBody newLine lines w.added
          else if w.newCursor = newLine then some w.oldLine
          else walkBody newLine lines w.unchanged

def shifted (newLine : Nat) (delta : Int) : Nat :=
  let mapped := newLine + delta
  if mapped < 1 then 1 else mapped.toNat

/-- The loop over the hunks; `delta` is old minus new over those above the line. -/
def mapThrough (newLine : Nat) (delta : Int) : List DiffHunkText → Nat
  | [] => shifted newLine delta
  | hunk :: hunks =>
      let above :=
        if hunk.newCount = 0 then decide (newLine ≤ hunk.newStart)
        else decide (newLine < hunk.newStart)
      if above then shifted newLine delta
      else if newLine ≥ hunk.newStart + hunk.newCount then
        mapThrough newLine (delta + (hunk.oldCount - hunk.newCount)) hunks
      else
        let oldLine := if hunk.oldCount = 0 then hunk.oldStart + 1 else hunk.oldStart
        (walkBody newLine (splitLines hunk.bodyText)
          { oldLine := oldLine, newCursor := hunk.newStart }).getD (shifted newLine delta)

def mapNewLineToOldLine (diffOutput : Bytes) (newLine : Nat) : Nat :=
  mapThrough newLine 0 (parseDiffHunks diffOutput)

end Ned.Editor.Vcs

/-!
## Unified diffs

What a unified diff of one file is: unchanged lines and hunks, which make up the old and the new side,
and the text that shows the hunks with their places.
-/

namespace Ned.Editor.Vcs

open Text

/-- A line's text, without a newline. -/
abbrev LineText := { text : Bytes // newline ∉ text }

def decimal (n : Nat) : Bytes :=
  if n < 10 then [UInt8.ofNat (48 + n)] else decimal (n / 10) ++ [UInt8.ofNat (48 + n % 10)]

/-! ## Rows -/

/-- What a diff says about a line, and where a hunk begins or ends. -/
inductive Row where
  | unchanged (text : LineText)
  | removed (text : LineText)
  | added (text : LineText)
  | edge
  deriving DecidableEq

namespace Row

def oldLine : Row → Option LineText
  | unchanged text => some text
  | removed text => some text
  | _ => none

def newLine : Row → Option LineText
  | unchanged text => some text
  | added text => some text
  | _ => none

end Row

/-- The lines of the old side that rows stand for. -/
def oldSide (rows : List Row) : List LineText := rows.filterMap (·.oldLine)

def newSide (rows : List Row) : List LineText := rows.filterMap (·.newLine)

/-- The removed lines of a block come before the added ones. -/
def RemovedFirst (rows : List Row) : Prop :=
  ∀ before added removed after, rows ≠ before ++ .added added :: .removed removed :: after

/-- The rows do not end in a block of changes. -/
def Settled (rows : List Row) : Prop :=
  ∀ row ∈ rows.getLast?, (∃ text, row = .unchanged text) ∨ row = .edge

/-- A line in the body of a hunk; a note is one that starts with a backslash. -/
inductive BodyLine where
  | unchanged (text : LineText)
  | removed (text : LineText)
  | added (text : LineText)
  | note (text : LineText)
  deriving DecidableEq

namespace BodyLine

def row : BodyLine → Option Row
  | unchanged text => some (.unchanged text)
  | removed text => some (.removed text)
  | added text => some (.added text)
  | note _ => none

def render : BodyLine → Line
  | unchanged text => 32 :: (text.1 ++ [newline])
  | removed text => 45 :: (text.1 ++ [newline])
  | added text => 43 :: (text.1 ++ [newline])
  | note text => 92 :: (text.1 ++ [newline])

end BodyLine

/-- A hunk, with the unchanged lines since the one before it. A count of one may be written out. -/
structure Hunk where
  gap : List LineText
  body : List BodyLine
  oldCountShown : Bool
  newCountShown : Bool
  heading : LineText

namespace Hunk

def rows (hunk : Hunk) : List Row := hunk.body.filterMap (·.row)

/-- The start and the count of one side, after `before` lines of it. -/
def range (before count : Nat) (countShown : Bool) : Bytes :=
  decimal (if count = 0 then before else before + 1) ++
    if count = 1 ∧ countShown = false then [] else 44 :: decimal count

def header (hunk : Hunk) (oldBefore newBefore : Nat) : Line :=
  ascii ['@', '@', ' ', '-'] ++ (range oldBefore (oldSide hunk.rows).length hunk.oldCountShown ++
    (ascii [' ', '+'] ++ (range newBefore (newSide hunk.rows).length hunk.newCountShown ++
      (ascii [' ', '@', '@'] ++ hunk.heading.1)))) ++ [newline]

end Hunk

/-- The lines of hunks, after as many old and new lines. -/
def renderHunks (oldBefore newBefore : Nat) : List Hunk → List Line
  | [] => []
  | hunk :: hunks =>
      hunk.header (oldBefore + hunk.gap.length) (newBefore + hunk.gap.length) ::
        (hunk.body.map (·.render) ++
          renderHunks (oldBefore + hunk.gap.length + (oldSide hunk.rows).length)
            (newBefore + hunk.gap.length + (newSide hunk.rows).length) hunks)

/-- A diff of one file: what stands before its first hunk, the hunks, and the unchanged lines after the
last one. -/
structure UnifiedDiff where
  preamble : List LineText
  hunks : List Hunk
  rest : List LineText
  noHunkBefore : ∀ line ∈ preamble, (ascii ['@', '@', ' ']).isPrefixOf line.1 = false

namespace UnifiedDiff

def render (d : UnifiedDiff) : Bytes :=
  ((d.preamble.map fun line => line.1 ++ [newline]) ++ renderHunks 0 0 d.hunks).flatten

def hunkRows (hunk : Hunk) : List Row :=
  hunk.gap.map .unchanged ++ (.edge :: (hunk.rows ++ [.edge]))

/-- The whole diff, row by row. -/
def rows (d : UnifiedDiff) : List Row := d.hunks.flatMap hunkRows ++ d.rest.map .unchanged

def oldLines (d : UnifiedDiff) : List LineText := oldSide d.rows

def newLines (d : UnifiedDiff) : List LineText := newSide d.rows

/-- A line before the hunks, the last of its kind, names the file as git does. -/
def NamesFile (d : UnifiedDiff) : Prop :=
  ∃ (earlier later : List LineText) (left path : LineText) (header : LineText),
    d.preamble = earlier ++ header :: later ∧
    header.1 = ascii ['d', 'i', 'f', 'f', ' ', '-', '-', 'g', 'i', 't'] ++ left.1 ++
      ascii [' ', 'b', '/'] ++ path.1 ∧
    path.1 ≠ [] ∧ path.1.getLast? ≠ some 47 ∧
    ∀ line ∈ later,
      (ascii ['d', 'i', 'f', 'f', ' ', '-', '-', 'g', 'i', 't']).isPrefixOf line.1 = false

end UnifiedDiff

end Ned.Editor.Vcs
