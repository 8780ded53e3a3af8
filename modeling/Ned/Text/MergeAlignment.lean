import Ned.Text.LineDiff
import Ned.Text.ThreeWayMerge

/-!
# Merge alignment

Which lines of a merged text and of the sides it was merged from correspond, and the blank rows each
pane needs so that they share a row. A side is its text and chunks that tile it and the merged text. A
result is `none` where an unsigned count would wrap below zero.
-/

namespace Ned.Text

open Ned.Library

/-- Lines of the merged text, and the lines of a side that correspond to them. -/
structure AlignedChunk where
  mergedLine : Nat
  mergedCount : Nat
  sideLine : Nat
  sideCount : Nat
  changed : Bool
  deriving DecidableEq

structure MergeSide where
  text : Bytes
  lineCount : Nat := 0
  chunks : List AlignedChunk := []
  deriving DecidableEq

inductive MergeSideKind
  | ours
  | base
  | theirs
  deriving DecidableEq

/-- A signed number as an unsigned one. -/
def toCount (x : Int) : Option Nat := if 0 ≤ x then some x.toNat else none

/-- The lines that start before an offset, which is a line start or the end of the text. -/
def linesBefore (text : Bytes) (byte : Nat) : Nat :=
  countNewlines (text.take byte) + if byte > 0 ∧ text[byte - 1]? ≠ some newline then 1 else 0

def ConflictHunk.sectionOf (hunk : ConflictHunk) : MergeSideKind → Option ConflictHunk.Range
  | .ours => some hunk.oursRange
  | .theirs => some hunk.theirsRange
  | .base => hunk.baseRange

/-! ## A side from the markers -/

/-- The side so far, and how far into the merged text it goes. -/
structure MarkerScan where
  side : MergeSide
  copiedTo : Nat
  mergedLine : Nat
  deriving DecidableEq

namespace MarkerScan

variable (merged : Bytes)

def appendUnchanged (stop : Nat) (scan : MarkerScan) : Option MarkerScan := do
  let count ← toCount (linesBefore merged stop - scan.mergedLine)
  let chunk : AlignedChunk :=
    { mergedLine := scan.mergedLine, mergedCount := count, sideLine := scan.side.lineCount,
      sideCount := count, changed := false }
  some
    { side :=
        { text := scan.side.text ++ substr merged scan.copiedTo (stop - scan.copiedTo)
          lineCount := scan.side.lineCount + count
          chunks := if count > 0 then scan.side.chunks ++ [chunk] else scan.side.chunks }
      copiedTo := stop
      mergedLine := scan.mergedLine + count }

/-- The section of a side in place of the hunk. -/
def appendSection (hunk : ConflictHunk) (range : ConflictHunk.Range) (scan : MarkerScan) :
    Option MarkerScan := do
  let content := substr merged range.start (range.stop - range.start)
  let sideCount := (splitLines content).length
  let mergedCount ← toCount (linesBefore merged hunk.endByte - scan.mergedLine)
  let chunk : AlignedChunk :=
    { mergedLine := scan.mergedLine, mergedCount := mergedCount, sideLine := scan.side.lineCount,
      sideCount := sideCount, changed := true }
  some
    { side :=
        { text := scan.side.text ++ content
          lineCount := scan.side.lineCount + sideCount
          chunks := scan.side.chunks ++ [chunk] }
      copiedTo := hunk.endByte
      mergedLine := scan.mergedLine + mergedCount }

/-- The loop over the hunks, which ends at one without the section. -/
def appendHunks (kind : MergeSideKind) : List ConflictHunk → MarkerScan → Option (Option MergeSide)
  | [], scan => do
      let scan ← scan.appendUnchanged merged merged.length
      some (some scan.side)
  | hunk :: hunks, scan =>
      match hunk.sectionOf kind with
      | none => some none
      | some range => do
          let scan ← scan.appendUnchanged merged hunk.startByte
          let scan ← scan.appendSection merged hunk range
          appendHunks kind hunks scan

end MarkerScan

/-- `none` inside where a hunk lacks the section. -/
def mergeSideFromMarkers (merged : Bytes) (hunks : List ConflictHunk) (kind : MergeSideKind) :
    Option (Option MergeSide) :=
  MarkerScan.appendHunks merged kind hunks { side := { text := [] }, copiedTo := 0, mergedLine := 0 }

/-! ## A side whose text is known -/

/-- Lines `[first, last)` of the side from the markers that are changed against the merged text, the
side's text, or both, and how many lines they add to each. -/
structure ChangedRegion where
  first : Nat
  last : Nat
  mergedExtra : Int := 0
  sideExtra : Int := 0
  deriving DecidableEq

namespace ChangedRegion

def ofChunk (chunk : AlignedChunk) : ChangedRegion :=
  { first := chunk.sideLine
    last := chunk.sideLine + chunk.sideCount
    mergedExtra := chunk.mergedCount - chunk.sideCount }

def ofHunk (hunk : LineDiffHunk) : ChangedRegion :=
  { first := hunk.aStart
    last := hunk.aStart + hunk.aCount
    sideExtra := hunk.bCount - hunk.aCount }

def join (region piece : ChangedRegion) : ChangedRegion :=
  { first := region.first
    last := max region.last piece.last
    mergedExtra := region.mergedExtra + piece.mergedExtra
    sideExtra := region.sideExtra + piece.sideExtra }

/-- Pieces that overlap or touch become one region. `region` is the last one. -/
def joinFrom (region : ChangedRegion) : List ChangedRegion → List ChangedRegion
  | [] => [region]
  | piece :: pieces =>
      if piece.first ≤ region.last then joinFrom (region.join piece) pieces
      else region :: joinFrom piece pieces

def joinAll : List ChangedRegion → List ChangedRegion
  | [] => []
  | piece :: pieces => joinFrom piece pieces

end ChangedRegion

/-- The pieces, stably sorted by their first line. -/
def changedPieces (chunks : List AlignedChunk) (hunks : List LineDiffHunk) : List ChangedRegion :=
  KeySort.insertion.sort ChangedRegion.first
    ((chunks.filter (·.changed)).map ChangedRegion.ofChunk ++ hunks.map ChangedRegion.ofHunk)

/-- The chunks so far, and the lines of the three texts they reach. -/
structure RefineScan where
  chunks : List AlignedChunk := []
  markerLine : Nat := 0
  mergedLine : Nat := 0
  sideLine : Nat := 0
  deriving DecidableEq

namespace RefineScan

def unchanged (stop : Nat) (scan : RefineScan) : Option RefineScan := do
  let count ← toCount (stop - scan.markerLine)
  let chunk : AlignedChunk :=
    { mergedLine := scan.mergedLine, mergedCount := count, sideLine := scan.sideLine,
      sideCount := count, changed := false }
  some
    { chunks := if count > 0 then scan.chunks ++ [chunk] else scan.chunks
      markerLine := stop
      mergedLine := scan.mergedLine + count
      sideLine := scan.sideLine + count }

def region (region : ChangedRegion) (scan : RefineScan) : Option RefineScan := do
  let scan ← scan.unchanged region.first
  let span ← toCount (region.last - region.first)
  let mergedCount ← toCount (span + region.mergedExtra)
  let sideCount ← toCount (span + region.sideExtra)
  let chunk : AlignedChunk :=
    { mergedLine := scan.mergedLine, mergedCount := mergedCount, sideLine := scan.sideLine,
      sideCount := sideCount, changed := true }
  some
    { chunks := scan.chunks ++ [chunk]
      markerLine := region.last
      mergedLine := scan.mergedLine + mergedCount
      sideLine := scan.sideLine + sideCount }

def regions : List ChangedRegion → RefineScan → Option RefineScan
  | [], scan => some scan
  | region :: rest, scan => do
      let scan ← scan.region region
      regions rest scan

end RefineScan

def refineMergeSide (fromMarkers : MergeSide) (sideText : Bytes) : Option MergeSide := do
  let markerLines := splitLines fromMarkers.text
  let sideLines := splitLines sideText
  let hunks ← diffLines markerLines sideLines
  let scan ← RefineScan.regions (ChangedRegion.joinAll (changedPieces fromMarkers.chunks hunks)) {}
  let scan ← scan.unchanged fromMarkers.lineCount
  some { text := sideText, lineCount := sideLines.length, chunks := scan.chunks }

/-! ## The rows of a pane -/

/-- The row of each line, and behind them the number of rows. -/
structure PaneAlignment where
  rowOfLine : List Nat
  nonempty : rowOfLine ≠ []
  deriving DecidableEq

/-- A scroll position: the top line, and blank rows above it. -/
structure PaneAlignment.Top where
  line : Nat := 0
  padding : Nat := 0
  deriving DecidableEq

namespace PaneAlignment

variable (pane : PaneAlignment)

def leadingRows : Nat := pane.rowOfLine.head pane.nonempty

def lineCount : Nat := pane.rowOfLine.length - 1

def totalRows : Nat := pane.rowOfLine.getLast pane.nonempty

def alignedRow (line : Nat) : Nat := pane.rowOfLine.getD (min line pane.lineCount) 0

/-- The last line whose row is not behind `row`. -/
def lineAtAlignedRow (row : Nat) : Nat :=
  ((pane.rowOfLine.take pane.lineCount).takeWhile fun r => decide (r ≤ row)).length - 1

def rowAtTop (top : Top) : Nat :=
  let above := if top.line = 0 then top.padding + pane.leadingRows else top.padding
  let row := pane.alignedRow top.line
  if row > above then row - above else 0

def topForRow (row : Nat) : Top :=
  if pane.lineCount = 0 then {}
  else
    let line := pane.lineAtAlignedRow row
    if pane.alignedRow line ≥ row then { line := line, padding := 0 }
    else if line + 1 < pane.lineCount then
      { line := line + 1, padding := pane.alignedRow (line + 1) - row }
    else { line := line, padding := 0 }

end PaneAlignment

/-! ## The rows of all panes -/

/-- A chunk that the search for a line leaves behind. An empty one at the line is not. -/
def AlignedChunk.endsBy (c : Nat) (chunk : AlignedChunk) : Bool :=
  !(decide (chunk.mergedLine + chunk.mergedCount > c) ||
    (chunk.mergedCount == 0 && chunk.mergedLine == c))

/-- The chunks of a side from its index on. -/
structure SideCursor where
  lineCount : Nat
  rest : List AlignedChunk
  deriving DecidableEq

namespace SideCursor

def advance (c : Nat) (cursor : SideCursor) : SideCursor :=
  { cursor with rest := cursor.rest.dropWhile (·.endsBy c) }

/-- `SideLineAt`, once the index has moved: `none` strictly inside a changed chunk. -/
def sideLineAt (c : Nat) (cursor : SideCursor) : Option Nat :=
  match cursor.rest with
  | [] => some cursor.lineCount
  | chunk :: _ =>
      if chunk.mergedLine = c then some chunk.sideLine
      else if !chunk.changed then some (chunk.sideLine + (c - chunk.mergedLine))
      else none

/-- The line of every side; the loop ends at the first side that has none. -/
def sideLinesAt (c : Nat) : List SideCursor → List SideCursor × Option (List Nat)
  | [] => ([], some [])
  | cursor :: cursors =>
      let cursor := cursor.advance c
      match cursor.sideLineAt c with
      | none => (cursor :: cursors, none)
      | some line =>
          let (cursors, lines) := sideLinesAt c cursors
          (cursor :: cursors, lines.map (line :: ·))

end SideCursor

/-- A line of every pane, that of the merged text first. -/
abbrev SyncPoint := List Nat

/-- The merged lines `[c, c + count)` that every side has a counterpart for. -/
def syncPointsFrom : Nat → Nat → List SideCursor → List SyncPoint
  | 0, _, _ => []
  | count + 1, c, cursors =>
      let (cursors, lines) := SideCursor.sideLinesAt c cursors
      let rest := syncPointsFrom count (c + 1) cursors
      match lines with
      | none => rest
      | some lines => (c :: lines) :: rest

def syncPoints (mergedLineCount : Nat) (sides : List MergeSide) : List SyncPoint :=
  (0 :: sides.map fun _ => 0) ::
    (syncPointsFrom (mergedLineCount - 1) 1 (sides.map fun side => ⟨side.lineCount, side.chunks⟩) ++
      [mergedLineCount :: sides.map (·.lineCount)])

/-- The blank rows of a pane. -/
structure PaneRows where
  leading : Nat
  rowsAfter : List Nat
  deriving DecidableEq

namespace PaneRows

/-- Pads the lines `[start, stop)` to a height. -/
def pad (height start stop : Nat) (rows : PaneRows) : PaneRows :=
  let pad := height - (stop - start)
  if pad = 0 then rows
  else if stop = 0 then { rows with leading := rows.leading + pad }
  else { rows with rowsAfter := rows.rowsAfter.modify (stop - 1) (· + pad) }

/-- Each line a row, and its blank rows behind it. -/
def rowsFrom : Nat → List Nat → List Nat
  | row, [] => [row]
  | row, pad :: pads => row :: rowsFrom (row + 1 + pad) pads

theorem rowsFrom_ne_nil (row : Nat) (pads : List Nat) : rowsFrom row pads ≠ [] := by
  cases pads <;> simp [rowsFrom]

def alignment (rows : PaneRows) : PaneAlignment :=
  { rowOfLine := rowsFrom rows.leading rows.rowsAfter, nonempty := rowsFrom_ne_nil _ _ }

end PaneRows

/-- The height of the tallest pane between two points. -/
def segmentHeight (start stop : SyncPoint) : Nat :=
  (List.zipWith (fun b a => b - a) stop start).foldl max 0

def padSegment (start stop : SyncPoint) (panes : List PaneRows) : List PaneRows :=
  panes.mapIdx fun pane rows =>
    rows.pad (segmentHeight start stop) (start.getD pane 0) (stop.getD pane 0)

def padSegments : List SyncPoint → List PaneRows → List PaneRows
  | start :: stop :: points, panes => padSegments (stop :: points) (padSegment start stop panes)
  | _, panes => panes

def alignPanes (mergedLineCount : Nat) (sides : List MergeSide) : List PaneAlignment :=
  let lineCounts := mergedLineCount :: sides.map (·.lineCount)
  let blank := lineCounts.map fun lineCount => { leading := 0, rowsAfter := List.replicate lineCount 0 }
  (padSegments (syncPoints mergedLineCount sides) blank).map PaneRows.alignment

end Ned.Text
