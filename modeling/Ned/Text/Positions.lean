import Ned.Library.Assoc
import Ned.Text.Bytes
import Mathlib.Data.List.Basic

/-!
# Tracked positions

The offsets a buffer keeps into its content, and how an insertion and a deletion move each kind.
-/

namespace Ned.Text

open Ned.Library

def relocateForInsert (offset insertOffset length : Nat) : Nat :=
  if offset ≥ insertOffset then offset + length else offset

def relocateForDelete (offset rangeStart rangeEnd : Nat) : Nat :=
  if offset ≥ rangeEnd then
    offset - (rangeEnd - rangeStart)
  else if offset > rangeStart then
    rangeStart
  else
    offset

/-! ## Kinds of positions -/

structure Cursor where
  point : Nat
  mark : Option Nat
  goalColumn : Option Nat
  deriving DecidableEq

inductive FoldMarker where
  | collapsed
  | childrenVisible
  deriving DecidableEq

/-- A snippet field. `parentId` is the field it is nested in, 0 for none. -/
structure SnippetRange where
  id : Nat
  start : Nat
  stop : Nat
  active : Bool
  parentId : Nat
  deriving DecidableEq

structure ExcerptRange where
  start : Nat
  stop : Nat
  editable : Bool
  deriving DecidableEq

structure Diagnostic where
  startByte : Nat
  endByte : Nat
  deriving DecidableEq

structure TrackedPositions where
  point : Nat := 0
  mark : Option Nat := none
  narrowedRange : Option (Nat × Nat) := none
  secondaryCursors : List Cursor := []
  addedCursorOrder : List Nat := []
  cursorIterationActive : Bool := false
  foldMarkers : List (Nat × FoldMarker) := []
  foldGeneration : Nat := 0
  snippetRanges : List SnippetRange := []
  excerptRanges : List ExcerptRange := []
  diagnostics : List Diagnostic := []
  diagnosticsGeneration : Nat := 0
  deriving DecidableEq

/-! ## Cursors -/

/-- `std::unique` by point, after the cursor kept last. -/
def uniqueFrom (kept : Cursor) : List Cursor → List Cursor
  | [] => [kept]
  | cursor :: cursors =>
      if kept.point = cursor.point then
        uniqueFrom kept cursors
      else
        kept :: uniqueFrom cursor cursors

def uniqueByPoint : List Cursor → List Cursor
  | [] => []
  | cursor :: cursors => uniqueFrom cursor cursors

namespace Cursor

/-- A cursor with both its offsets moved. -/
def relocate (move : Nat → Nat) (cursor : Cursor) : Cursor :=
  { cursor with point := move cursor.point, mark := cursor.mark.map move }

end Cursor

/-! ## Snippet fields -/

namespace SnippetRange

/-- A field and the fields it is nested in, at most `steps` of them. -/
def ancestorIds (ranges : List SnippetRange) : Nat → Nat → List Nat
  | 0, _ => []
  | steps + 1, id =>
      if id = 0 then
        []
      else
        id :: ancestorIds ranges steps
          (match ranges.find? (·.id == id) with
          | some parent => parent.parentId
          | none => 0)

/-- The fields that grow when text lands at their edges. -/
def inclusiveIds (ranges : List SnippetRange) : List Nat :=
  match ranges.find? (·.active) with
  | none => []
  | some range => ancestorIds ranges ranges.length range.id

def insertInclusive (insertOffset length : Nat) (range : SnippetRange) : SnippetRange :=
  { range with
    start := if insertOffset < range.start then range.start + length else range.start
    stop := if insertOffset ≤ range.stop then range.stop + length else range.stop }

def insertExclusive (insertOffset length : Nat) (range : SnippetRange) : SnippetRange :=
  { range with
    start := if insertOffset ≤ range.start then range.start + length else range.start
    stop := if insertOffset < range.stop then range.stop + length else range.stop }

/-- Keeps the range from being inverted. -/
def ordered (range : SnippetRange) : SnippetRange :=
  { range with stop := max range.start range.stop }

def relocateForInsert (ranges : List SnippetRange) (insertOffset length : Nat) :
    List SnippetRange :=
  let ids := inclusiveIds ranges
  ranges.map fun range =>
    if ids.contains range.id then
      (range.insertInclusive insertOffset length).ordered
    else
      (range.insertExclusive insertOffset length).ordered

def relocateForDelete (ranges : List SnippetRange) (rangeStart rangeEnd : Nat) :
    List SnippetRange :=
  ranges.map fun range =>
    { range with
      start := Text.relocateForDelete range.start rangeStart rangeEnd
      stop := Text.relocateForDelete range.stop rangeStart rangeEnd }

def setActive (ranges : List SnippetRange) (id : Nat) : List SnippetRange :=
  ranges.map fun range => { range with active := range.id == id }

end SnippetRange

/-! ## Excerpts and diagnostics -/

namespace ExcerptRange

def relocateForInsert (insertOffset length : Nat) (range : ExcerptRange) : ExcerptRange :=
  let start := if insertOffset < range.start then range.start + length else range.start
  let stop := if insertOffset ≤ range.stop then range.stop + length else range.stop
  { range with start := start, stop := max start stop }

def relocateForDelete (rangeStart rangeEnd : Nat) (range : ExcerptRange) : ExcerptRange :=
  { range with
    start := Text.relocateForDelete range.start rangeStart rangeEnd
    stop := Text.relocateForDelete range.stop rangeStart rangeEnd }

end ExcerptRange

namespace Diagnostic

def relocateForInsert (insertOffset length : Nat) (diagnostic : Diagnostic) : Diagnostic :=
  let startByte :=
    if insertOffset ≤ diagnostic.startByte then diagnostic.startByte + length
    else diagnostic.startByte
  let endByte :=
    if insertOffset ≤ diagnostic.endByte then diagnostic.endByte + length else diagnostic.endByte
  { startByte := startByte, endByte := max startByte endByte }

def relocateForDelete (rangeStart rangeEnd : Nat) (diagnostic : Diagnostic) : Diagnostic :=
  { startByte := Text.relocateForDelete diagnostic.startByte rangeStart rangeEnd
    endByte := Text.relocateForDelete diagnostic.endByte rangeStart rangeEnd }

end Diagnostic

/-! ## All positions -/

namespace TrackedPositions

variable (s : KeySort) (positions : TrackedPositions)

def normalizeSecondaryCursors : TrackedPositions :=
  { positions with
    secondaryCursors :=
      (uniqueByPoint (s.sort Cursor.point positions.secondaryCursors)).filter
        fun cursor => cursor.point != positions.point }

/-- Moves every fold marker; of two that meet, the first stays. -/
def relocateFoldMarkers (move : Nat → Nat) : TrackedPositions :=
  if positions.foldMarkers.isEmpty then
    positions
  else
    { positions with
      foldMarkers :=
        positions.foldMarkers.foldl (fun markers entry => emplace markers (move entry.1) entry.2) []
      foldGeneration := positions.foldGeneration + 1 }

def relocateSecondaryCursors (move : Nat → Nat) : TrackedPositions :=
  { positions with
    secondaryCursors := positions.secondaryCursors.map (Cursor.relocate move)
    addedCursorOrder := positions.addedCursorOrder.map move }

/-- Cursors that a deletion made meet are merged, but not while `ForEachCursor` walks them. -/
def relocateSecondaryCursorsForDelete (rangeStart rangeEnd : Nat) : TrackedPositions :=
  let moved := positions.relocateSecondaryCursors (relocateForDelete · rangeStart rangeEnd)
  if moved.cursorIterationActive then moved else moved.normalizeSecondaryCursors s

/-- The narrowed range after a deletion, widened when nothing of it is left. -/
def narrowedForDelete (range : Nat × Nat) (rangeStart rangeEnd : Nat) : Option (Nat × Nat) :=
  let narrowStart := relocateForDelete range.1 rangeStart rangeEnd
  let narrowEnd := relocateForDelete range.2 rangeStart rangeEnd
  if narrowStart ≥ narrowEnd then none else some (narrowStart, narrowEnd)

def relocateSnippetRangesForInsert (insertOffset length : Nat) : TrackedPositions :=
  { positions with
    snippetRanges := SnippetRange.relocateForInsert positions.snippetRanges insertOffset length }

def relocateSnippetRangesForDelete (rangeStart rangeEnd : Nat) : TrackedPositions :=
  { positions with
    snippetRanges := SnippetRange.relocateForDelete positions.snippetRanges rangeStart rangeEnd }

def relocateExcerptRangesForInsert (insertOffset length : Nat) : TrackedPositions :=
  { positions with
    excerptRanges :=
      positions.excerptRanges.map (ExcerptRange.relocateForInsert insertOffset length) }

def relocateExcerptRangesForDelete (rangeStart rangeEnd : Nat) : TrackedPositions :=
  { positions with
    excerptRanges :=
      positions.excerptRanges.map (ExcerptRange.relocateForDelete rangeStart rangeEnd) }

def relocateDiagnosticsForInsert (insertOffset length : Nat) : TrackedPositions :=
  { positions with
    diagnostics := positions.diagnostics.map (Diagnostic.relocateForInsert insertOffset length) }

def relocateDiagnosticsForDelete (rangeStart rangeEnd : Nat) : TrackedPositions :=
  { positions with
    diagnostics := positions.diagnostics.map (Diagnostic.relocateForDelete rangeStart rangeEnd) }

/-- The delete half of `RelocateTrackedState`. -/
def relocateForDeletion (rangeStart rangeEnd : Nat) : TrackedPositions :=
  let moved :=
    { positions with
      point := relocateForDelete positions.point rangeStart rangeEnd
      mark := positions.mark.map (relocateForDelete · rangeStart rangeEnd)
      narrowedRange := positions.narrowedRange.bind (narrowedForDelete · rangeStart rangeEnd) }
  ((((moved.relocateFoldMarkers
    (relocateForDelete · rangeStart rangeEnd)).relocateSecondaryCursorsForDelete s rangeStart
      rangeEnd).relocateSnippetRangesForDelete rangeStart rangeEnd).relocateExcerptRangesForDelete
        rangeStart rangeEnd).relocateDiagnosticsForDelete rangeStart rangeEnd

/-- The insert half of `RelocateTrackedState`. -/
def relocateForInsertion (offset length : Nat) : TrackedPositions :=
  let moved :=
    { positions with
      point := relocateForInsert positions.point offset length
      mark := positions.mark.map (relocateForInsert · offset length)
      narrowedRange := positions.narrowedRange.map fun range : Nat × Nat =>
        (relocateForInsert range.1 offset length, relocateForInsert range.2 offset length) }
  ((((moved.relocateFoldMarkers
    (relocateForInsert · offset length)).relocateSecondaryCursors
      (relocateForInsert · offset length)).relocateSnippetRangesForInsert offset
        length).relocateExcerptRangesForInsert offset length).relocateDiagnosticsForInsert offset
          length

def canInsertAtExcerpt (offset : Nat) : Bool :=
  positions.excerptRanges.isEmpty ||
    positions.excerptRanges.any fun range =>
      range.editable && decide (offset ≥ range.start) && decide (offset ≤ range.stop)

def canDeleteExcerptRange (rangeStart rangeEnd : Nat) : Bool :=
  positions.excerptRanges.isEmpty ||
    positions.excerptRanges.any fun range =>
      range.editable && decide (rangeStart ≥ range.start) && decide (rangeEnd ≤ range.stop)

def clearSecondaryCursors : TrackedPositions :=
  { positions with secondaryCursors := [], addedCursorOrder := [] }

def clearSnippetRanges : TrackedPositions := { positions with snippetRanges := [] }

/-- What a wholesale replacement does away with, beside the point. -/
def clearForReplacement : TrackedPositions :=
  { positions.clearSecondaryCursors with
    mark := none
    narrowedRange := none
    foldMarkers := []
    foldGeneration := positions.foldGeneration + 1 }

def clearDiagnostics : TrackedPositions :=
  { positions with diagnostics := [], diagnosticsGeneration := positions.diagnosticsGeneration + 1 }

/-- `ClampCursorsToContent` over content of the given length; `snap` is the grapheme snap. -/
def clampToContent (snap : Nat → Option Nat) (length : Nat) : Option TrackedPositions := do
  let point ← snap (min positions.point length)
  let mark ← positions.mark.mapM fun mark => snap (min mark length)
  let narrowedRange := positions.narrowedRange.bind fun range : Nat × Nat =>
    if min range.1 length ≥ min range.2 length then
      none
    else
      some (min range.1 length, min range.2 length)
  some
    { positions with
      point := point
      mark := mark
      narrowedRange := narrowedRange
      foldMarkers := positions.foldMarkers.filter fun entry => decide (entry.1 ≤ length)
      snippetRanges :=
        if positions.snippetRanges.any fun range => decide (range.stop > length) then
          []
        else
          positions.snippetRanges }

end TrackedPositions

/-!
## Composite texts

What excerpt ranges are for: a text stitched together from excerpts, each after some chrome of its
own. Only the bodies of editable excerpts are ever to change.
-/

/-- An excerpt of a composite text, with the chrome before it. -/
structure Excerpt where
  chrome : Bytes
  body : Bytes
  editable : Bool
  deriving DecidableEq

namespace Excerpt

/-- The text of excerpts, and the chrome that closes it. -/
def compose : List Excerpt → Bytes → Bytes
  | [], closing => closing
  | excerpt :: excerpts, closing => excerpt.chrome ++ (excerpt.body ++ compose excerpts closing)

/-- Where the bodies lie, in a composite text from `offset` on. -/
def rangesFrom (offset : Nat) : List Excerpt → List ExcerptRange
  | [] => []
  | excerpt :: excerpts =>
      let start := offset + excerpt.chrome.length
      let stop := start + excerpt.body.length
      { start := start, stop := stop, editable := excerpt.editable } :: rangesFrom stop excerpts

/-- What is not to change: everything but the bodies of editable excerpts. -/
def kept : List Excerpt → Bytes → Bytes
  | [], closing => closing
  | excerpt :: excerpts, closing =>
      excerpt.chrome ++ ((if excerpt.editable then [] else excerpt.body) ++ kept excerpts closing)

/-- Every excerpt but the first has chrome before it. -/
def Apart (excerpts : List Excerpt) : Prop := ∀ excerpt ∈ excerpts.tail, excerpt.chrome ≠ []

/-- What an excerpt keeps through every edit: all of it but the body of an editable one. -/
def frame (excerpt : Excerpt) : Bytes × Bool × Bytes :=
  (excerpt.chrome, excerpt.editable, if excerpt.editable then [] else excerpt.body)

end Excerpt

/-! ## Ranges in a text -/

namespace ExcerptRange

/-- The ranges are in order inside a text of this size, each two with a byte between them. -/
structure Separated (size : Nat) (ranges : List ExcerptRange) : Prop where
  ordered : ∀ range ∈ ranges, range.start ≤ range.stop
  apart : ranges.Pairwise fun a b => a.stop < b.start
  within : ∀ range ∈ ranges, range.stop ≤ size

def covers (ranges : List ExcerptRange) (offset : Nat) : Bool :=
  ranges.any fun range => range.editable && decide (range.start ≤ offset) && decide (offset < range.stop)

/-- The bytes outside all editable ranges, for a text from `offset` on. -/
def outsideFrom (ranges : List ExcerptRange) : Nat → Bytes → Bytes
  | _, [] => []
  | offset, byte :: text =>
      if covers ranges offset then
        outsideFrom ranges (offset + 1) text
      else
        byte :: outsideFrom ranges (offset + 1) text

def outside (ranges : List ExcerptRange) (text : Bytes) : Bytes := outsideFrom ranges 0 text

/-- The text before the first range, between each two, and after the last, from `offset` on. -/
def gapsFrom (text : Bytes) (offset : Nat) : List ExcerptRange → List Bytes
  | [] => [text.drop offset]
  | range :: ranges =>
      substr text offset (range.start - offset) :: gapsFrom text range.stop ranges

def gaps (ranges : List ExcerptRange) (text : Bytes) : List Bytes := gapsFrom text 0 ranges

end ExcerptRange

end Ned.Text
