import Ned.Library.Assoc
import Ned.Text.Bytes
import Ned.Text.LineDiff

/-!
# Three-way merge

A line-based merge of two texts over their common base. Hunks of either side are sorted by the base
line they start at, grouped where they overlap, and a group the sides disagree on becomes a conflict.
-/

namespace Ned.Text

open Ned.Library

inductive Side where
  | ours
  | theirs
  deriving DecidableEq

structure TaggedHunk where
  hunk : LineDiffHunk
  side : Side
  deriving DecidableEq

namespace TaggedHunk

def hStart (t : TaggedHunk) : Nat := t.hunk.aStart

def hEnd (t : TaggedHunk) : Nat := t.hunk.aStart + t.hunk.aCount

end TaggedHunk

structure MergeResult where
  mergedText : Bytes
  conflictCount : Nat
  firstConflictOffset : Option Nat
  deriving DecidableEq

namespace ThreeWayMerge

/-- `count` lines from `pos` on, `none` when one of them does not exist. -/
def linesFrom (lines : List Line) : Nat → Nat → Option (List Line)
  | _, 0 => some []
  | pos, count + 1 => do
      let line ← lines[pos]?
      let rest ← linesFrom lines (pos + 1) count
      some (line :: rest)

/-- The lines `[pos, stop)`. -/
def linesBetween (lines : List Line) (pos stop : Nat) : Option (List Line) :=
  linesFrom lines pos (stop - pos)

/-- One side's content over `[pos, stop)` of the base, its hunks substituted. -/
def effectiveContent (base side : List Line) (stop : Nat) :
    Nat → List LineDiffHunk → Option (List Line)
  | pos, [] => linesBetween base pos stop
  | pos, hunk :: hunks => do
      let kept ← linesBetween base pos hunk.aStart
      let replaced ← linesFrom side hunk.bStart hunk.bCount
      let rest ← effectiveContent base side stop (hunk.aStart + hunk.aCount) hunks
      some (kept ++ replaced ++ rest)

/-! ## Grouping -/

structure Group where
  start : Nat
  stop : Nat
  ours : List LineDiffHunk
  theirs : List LineDiffHunk
  deriving DecidableEq

namespace Group

def push (group : Group) (t : TaggedHunk) : Group :=
  match t.side with
  | .ours => { group with ours := group.ours ++ [t.hunk] }
  | .theirs => { group with theirs := group.theirs ++ [t.hunk] }

/-- A group of its own. -/
def ofHunk (t : TaggedHunk) : Group :=
  push { start := t.hStart, stop := t.hEnd, ours := [], theirs := [] } t

/-- Two insertions at one base position. -/
def collidingInsertion (group : Group) (t : TaggedHunk) : Bool :=
  t.hStart == t.hEnd && group.start == group.stop && t.hStart == group.stop

/-- Strict overlap; touching at a boundary does not count. -/
def overlaps (group : Group) (t : TaggedHunk) : Bool :=
  decide (t.hStart < group.stop) || group.collidingInsertion t

def join (group : Group) (t : TaggedHunk) : Group :=
  push { group with stop := max group.stop t.hEnd } t

end Group

/-- The groups of the hunks left, after the open group `groups.back()`. -/
def groupsFrom (group : Group) : List TaggedHunk → List Group
  | [] => [group]
  | t :: ts =>
      if group.overlaps t then
        groupsFrom (group.join t) ts
      else
        group :: groupsFrom (.ofHunk t) ts

def groupHunks : List TaggedHunk → List Group
  | [] => []
  | t :: ts => groupsFrom (.ofHunk t) ts

/-- The hunks of both sides, ordered by the base line they start at. -/
def sortedHunks (s : KeySort) (hunksOurs hunksTheirs : List LineDiffHunk) : List TaggedHunk :=
  s.sort TaggedHunk.hStart
    (hunksOurs.map ({ hunk := ·, side := .ours }) ++ hunksTheirs.map ({ hunk := ·, side := .theirs }))

/-! ## Writing -/

def bytesOf (text : String) : Bytes := text.toUTF8.toList

def oursMarker : Bytes := bytesOf "<<<<<<< buffer\n"

def separatorMarker : Bytes := bytesOf "=======\n"

def theirsMarker : Bytes := bytesOf ">>>>>>> disk\n"

/-- `appendLines`. -/
def joinLines (lines : List Line) : Bytes := lines.flatten

/-- What a group contributes to the merged text, and whether it is a conflict. -/
def writeGroup (base ours theirs : List Line) (group : Group) : Option (Bytes × Bool) :=
  if group.theirs.isEmpty then do
    let lines ← effectiveContent base ours group.stop group.start group.ours
    some (joinLines lines, false)
  else if group.ours.isEmpty then do
    let lines ← effectiveContent base theirs group.stop group.start group.theirs
    some (joinLines lines, false)
  else do
    let oursEffective ← effectiveContent base ours group.stop group.start group.ours
    let theirsEffective ← effectiveContent base theirs group.stop group.start group.theirs
    if oursEffective = theirsEffective then
      some (joinLines oursEffective, false)
    else
      some (oursMarker ++ joinLines oursEffective ++ separatorMarker ++ joinLines theirsEffective ++
        theirsMarker, true)

/-- The loop over the groups, from base line `cursor` on. -/
def writeGroups (base ours theirs : List Line) : Nat → MergeResult → List Group → Option MergeResult
  | cursor, result, [] => do
      let kept ← linesBetween base cursor base.length
      some { result with mergedText := result.mergedText ++ joinLines kept }
  | cursor, result, group :: groups => do
      let kept ← linesBetween base cursor group.start
      let mergedText := result.mergedText ++ joinLines kept
      let (text, conflict) ← writeGroup base ours theirs group
      writeGroups base ours theirs group.stop
        { mergedText := mergedText ++ text
          conflictCount := if conflict then result.conflictCount + 1 else result.conflictCount
          firstConflictOffset :=
            if conflict && result.firstConflictOffset.isNone then
              some mergedText.length
            else
              result.firstConflictOffset }
        groups

end ThreeWayMerge

open ThreeWayMerge in
def threeWayMerge (s : KeySort) (base ours theirs : Bytes) : Option MergeResult := do
  let baseLines := splitLines base
  let oursLines := splitLines ours
  let theirsLines := splitLines theirs
  let hunksOurs ← diffLines baseLines oursLines
  let hunksTheirs ← diffLines baseLines theirsLines
  writeGroups baseLines oursLines theirsLines 0
    { mergedText := [], conflictCount := 0, firstConflictOffset := none }
    (groupHunks (sortedHunks s hunksOurs hunksTheirs))

end Ned.Text

/-!
## Conflict hunks

Reads conflict markers back into a list of hunks. A malformed or unterminated run of markers is
skipped.
-/

namespace Ned.Text

structure ConflictHunk.Range where
  start : Nat
  stop : Nat
  deriving DecidableEq

/-- From its opening marker to one past the line of its closing one. -/
structure ConflictHunk where
  startByte : Nat
  endByte : Nat
  oursRange : ConflictHunk.Range
  baseRange : Option ConflictHunk.Range
  theirsRange : ConflictHunk.Range
  deriving DecidableEq

namespace ConflictHunk

def markerLength : Nat := 7

def space : UInt8 := 32

def opening : Bytes := List.replicate markerLength 60

def baseOpening : Bytes := List.replicate markerLength 124

def separator : Bytes := List.replicate markerLength 61

def closing : Bytes := List.replicate markerLength 62

def isLineStart (text : Bytes) (pos : Nat) : Bool :=
  pos == 0 || text[pos - 1]? == some newline

/-- The first position of the text at or after `start` that passes the test. -/
def findPosition (text : Bytes) (start : Nat) (test : Nat → Bool) : Option Nat :=
  (List.range' start (text.length - start)).find? test

def isLabeledMarker (text marker : Bytes) (pos : Nat) : Bool :=
  isLineStart text pos && substr text pos markerLength == marker &&
    text[pos + markerLength]? == some space

def findLabeledMarker (text : Bytes) (start : Nat) (marker : Bytes) : Option Nat :=
  findPosition text start (isLabeledMarker text marker)

def isSeparator (text : Bytes) (pos : Nat) : Bool :=
  isLineStart text pos && substr text pos markerLength == separator &&
    (pos + markerLength == text.length || text[pos + markerLength]? == some newline)

def findSeparator (text : Bytes) (start : Nat) : Option Nat :=
  findPosition text start (isSeparator text)

/-- One past the newline that ends a marker's line. -/
def lineEndAfter (text : Bytes) (markerStart : Nat) : Nat :=
  match findPosition text markerStart fun pos => text[pos]? == some newline with
  | none => text.length
  | some newline => newline + 1

/-- A position found, and before `limit`. -/
def foundBefore (found : Option Nat) (limit : Nat) : Bool :=
  found.any fun pos => decide (pos < limit)

/-- The hunk that opens at `startMarker`, `none` when it is malformed. -/
def parseHunkAt (text : Bytes) (startMarker : Nat) : Option ConflictHunk := do
  let oursStart := lineEndAfter text startMarker
  let sepMarker ← findSeparator text oursStart
  if foundBefore (findLabeledMarker text oursStart opening) sepMarker then
    none
  else
    -- a base section counts only before the separator
    let baseMarker := (findLabeledMarker text oursStart baseOpening).filter fun pos =>
      decide (pos ≤ sepMarker)
    let theirsStart := lineEndAfter text sepMarker
    let endMarker ← findLabeledMarker text theirsStart closing
    if foundBefore (findLabeledMarker text theirsStart opening) endMarker then
      none
    else
      some
        { startByte := startMarker
          endByte := lineEndAfter text endMarker
          oursRange := { start := oursStart, stop := baseMarker.getD sepMarker }
          baseRange := baseMarker.map fun pos => { start := lineEndAfter text pos, stop := sepMarker }
          theirsRange := { start := theirsStart, stop := endMarker } }

/-- The loop of `ParseConflictHunks`. -/
def parseFrom (text : Bytes) : Nat → Nat → Option (List ConflictHunk)
  | 0, _ => none
  | fuel + 1, pos =>
      if pos < text.length then
        match findLabeledMarker text pos opening with
        | none => some []
        | some startMarker =>
            match parseHunkAt text startMarker with
            | none => parseFrom text fuel (lineEndAfter text startMarker)
            | some hunk => do
                let hunks ← parseFrom text fuel hunk.endByte
                some (hunk :: hunks)
      else
        some []

end ConflictHunk

def parseConflictHunks (text : Bytes) : Option (List ConflictHunk) :=
  ConflictHunk.parseFrom text (text.length + 1) 0

end Ned.Text
