import Ned.Text.Buffer
import Ned.Text.Positions
import Mathlib.Data.List.Dedup
import Mathlib.Data.List.Sort
import Mathlib.Logic.Function.Basic

/-!
# Committing excerpts

The excerpts of a composite buffer that were edited, written back to the files they came from, as in
`Editor/Multibuffer.cpp`. Each file is either written, in memory or on disk, or skipped with a
reason.
-/

namespace Ned.Editor.Multibuffer

open Library Text

/-- An excerpt's range with the place its text came from. -/
structure SourcedRange (Path : Type) extends ExcerptRange where
  sourcePath : Path
  sourceStartByte : Nat
  sourceEndByte : Nat
  originalText : Bytes
  sourceOrdered : sourceStartByte ≤ sourceEndByte
  deriving DecidableEq

namespace SourcedRange

variable {Path : Type}

def sourceLength (range : SourcedRange Path) : Nat := range.sourceEndByte - range.sourceStartByte

/-- The range points to a place of this length in the source. -/
def repointed (range : SourcedRange Path) (newOriginalText : Bytes) (newSourceStart newLength : Nat) :
    SourcedRange Path :=
  { range with
    sourceStartByte := newSourceStart
    sourceEndByte := newSourceStart + newLength
    originalText := newOriginalText
    sourceOrdered := Nat.le_add_right _ _ }

/-- The source still has what the excerpt was made from. -/
def conflicts (range : SourcedRange Path) (source : Bytes) : Bool :=
  decide (range.sourceEndByte > source.length) ||
    substr source range.sourceStartByte range.sourceLength != range.originalText

end SourcedRange

/-- The first range with this place in the composite is repointed. -/
def markExcerptRangeCommitted {Path : Type} (start stop : Nat) (newOriginalText : Bytes)
    (newSourceStart newLength : Nat) : List (SourcedRange Path) → List (SourcedRange Path)
  | [] => []
  | range :: ranges =>
      if range.start = start ∧ range.stop = stop then
        range.repointed newOriginalText newSourceStart newLength :: ranges
      else
        range :: markExcerptRangeCommitted start stop newOriginalText newSourceStart newLength ranges

theorem markExcerptRangeCommitted_map {Path : Type} (start stop : Nat) (newOriginalText : Bytes)
    (newSourceStart newLength : Nat) (ranges : List (SourcedRange Path)) :
    (markExcerptRangeCommitted start stop newOriginalText newSourceStart newLength ranges).map
      (·.toExcerptRange) = ranges.map (·.toExcerptRange) := by
  induction ranges with
  | nil => rfl
  | cons range ranges ih =>
      rw [markExcerptRangeCommitted]
      split
      · rfl
      · rw [List.map_cons, List.map_cons, ih]

/-- A composite text with the ranges of its excerpts. -/
structure Composite (Path : Type) where
  text : Bytes
  ranges : List (SourcedRange Path)
  separated : ExcerptRange.Separated text.length (ranges.map (·.toExcerptRange))

namespace Composite

variable {Path : Type} [LinearOrder Path] (composite : Composite Path)

def currentText (range : SourcedRange Path) : Bytes :=
  substr composite.text range.start (range.stop - range.start)

/-- What is in the place of an excerpt counts as committed there. -/
def mark (range : SourcedRange Path) : Composite Path :=
  { composite with
    ranges := markExcerptRangeCommitted range.start range.stop (composite.currentText range)
      range.sourceStartByte (composite.currentText range).length composite.ranges
    separated := by
      rw [markExcerptRangeCommitted_map]
      exact composite.separated }

/-- An excerpt that is to be committed. -/
def changed (onlyPath : Option Path) (range : SourcedRange Path) : Bool :=
  range.editable && onlyPath.all (range.sourcePath == ·) &&
    composite.currentText range != range.originalText

def changedIndices (onlyPath : Option Path) (path : Path) : List Nat :=
  (List.range composite.ranges.length).filter fun i =>
    (composite.ranges[i]?).any fun range => composite.changed onlyPath range && range.sourcePath == path

/-- The keys of the map, in their order. -/
def changedPaths (onlyPath : Option Path) : List Path :=
  (((composite.ranges.filter (composite.changed onlyPath)).map (·.sourcePath)).dedup).insertionSort (· ≤ ·)

def changedByPath (onlyPath : Option Path) : List (Path × List Nat) :=
  (composite.changedPaths onlyPath).map fun path => (path, composite.changedIndices onlyPath path)

def sourceStart (i : Nat) : Nat := ((composite.ranges[i]?).map (·.sourceStartByte)).getD 0

/-- Sorted from the back of the source, in any order where the starts are the same. -/
def descending (p : Platform) (indices : List Nat) : List Nat :=
  (p.keySort.sort composite.sourceStart indices).reverse

def conflicted (source : Bytes) (indices : List Nat) : Bool :=
  indices.any fun i => (composite.ranges[i]?).any (·.conflicts source)

end Composite

/-! ## Writing a file -/

/-- What the file system makes of one write. `landed` is what of a content is in the file once the
stream has been closed. -/
structure WriteAttempt where
  inPlace : Bool
  opens : Bool
  writes : Bool
  landed : Bytes → Bytes
  renames : Bool

/-- Whether the write succeeded, and the file after it. -/
def writeFileAtomically (attempt : WriteAttempt) (file : Option Bytes) (content : Bytes) :
    Bool × Option Bytes :=
  if attempt.inPlace then
    if !attempt.opens then (false, file) else (attempt.writes, some (attempt.landed content))
  else if !attempt.opens then (false, file)
  else if !attempt.writes then (false, file)
  else if attempt.renames then (true, some (attempt.landed content))
  else (false, file)

/-! ## A commit -/

inductive CommitTarget where
  | liveBuffers
  | disk
  deriving DecidableEq

/-- What is not the editor's: which paths are remote, sizes and times on disk, and what opening and
reverting a buffer and writing a file come to. Reverting may throw. -/
structure Host (Path : Type) where
  remoteSource : Path → Bool
  fileSize : Path → Option Nat
  hugeFileThreshold : Nat
  openFile : Path → Option Bytes → Except String Buffer
  externallyModified : Path → Buffer → Bool
  revert : Path → Option Bytes → Buffer → Option Buffer
  attempt : Path → WriteAttempt

/-- Files by their path, and the open buffer of each. -/
structure Sources (Path : Type) where
  disk : Path → Option Bytes
  buffers : Path → Option Buffer

structure ProjectUndoRecord (Path : Type) where
  path : Path
  beforeSequence : Nat
  afterSequence : Nat
  deriving DecidableEq

structure CommitResult (Path : Type) where
  committedExcerpts : Nat := 0
  buffersCommitted : Nat := 0
  filesWritten : Nat := 0
  skipped : List (Path × String) := []
  deriving DecidableEq

/-- A commit under way. -/
structure Commit (Path : Type) where
  composite : Composite Path
  sources : Sources Path
  result : CommitResult Path := {}
  records : List (ProjectUndoRecord Path) := []

namespace Commit

variable {Path : Type} [LinearOrder Path] (c : Commit Path)

def skip (path : Path) (reason : String) : Commit Path :=
  { c with result := { c.result with skipped := c.result.skipped ++ [(path, reason)] } }

/-- One excerpt is recorded as committed. -/
def mark (range : SourcedRange Path) : Commit Path :=
  { c with
    composite := c.composite.mark range
    result := { c.result with committedExcerpts := c.result.committedExcerpts + 1 } }

def setFile (path : Path) (file : Option Bytes) : Commit Path :=
  { c with sources := { c.sources with disk := Function.update c.sources.disk path file } }

def setBuffer (path : Path) (buffer : Buffer) : Commit Path :=
  { c with sources := { c.sources with buffers := Function.update c.sources.buffers path (some buffer) } }

end Commit

/-- `std::string::replace`, which throws for a position past the end. -/
def replaceText (text : Bytes) (start length : Nat) (newText : Bytes) : Option Bytes :=
  if start > text.length then none else some (text.take start ++ newText ++ text.drop (start + length))

section

variable {Path : Type} [LinearOrder Path] (p : Platform) (host : Host Path)

/-- The loop over a file's excerpts, on the text of the file. -/
def commitToText : List Nat → Commit Path → Bytes → Option (Commit Path × Bytes)
  | [], c, fileText => some (c, fileText)
  | i :: indices, c, fileText => do
      let range ← c.composite.ranges[i]?
      let fileText ← replaceText fileText range.sourceStartByte range.sourceLength
        (c.composite.currentText range)
      commitToText indices (c.mark range) fileText

/-- `DeleteRange`, then `InsertAt`; either throws where the buffer is read-only. -/
def commitExcerpt (range : SourcedRange Path) (newText : Bytes) (source : Buffer) : Option Buffer := do
  let deleted ← source.deleteRange p range.sourceStartByte range.sourceLength
  let (source, _) ← deleted.toOption
  let inserted ← source.insertAt p range.sourceStartByte newText
  inserted.toOption

/-- The same loop, on an open buffer. -/
def commitToBuffer : List Nat → Commit Path → Buffer → Option (Commit Path × Buffer)
  | [], c, source => some (c, source)
  | i :: indices, c, source => do
      let range ← c.composite.ranges[i]?
      let source ← commitExcerpt p range (c.composite.currentText range) source
      commitToBuffer indices (c.mark range) source

/-- The file on disk is rewritten. The excerpts count as committed before the write is tried. -/
def commitToDisk (c : Commit Path) (path : Path) (indices : List Nat) : Option (Commit Path) :=
  match c.sources.disk path with
  | none => some (c.skip path "source file could not be read")
  | some fileText =>
      if c.composite.conflicted fileText indices then
        some (c.skip path "source file changed on disk since this multibuffer was built")
      else do
        let (c, fileText) ← commitToText (c.composite.descending p indices) c fileText
        let written := writeFileAtomically (host.attempt path) (c.sources.disk path) fileText
        let c := c.setFile path written.2
        if !written.1 then some (c.skip path "source file could not be written")
        else
          let c := { c with result := { c.result with filesWritten := c.result.filesWritten + 1 } }
          match c.sources.buffers path with
          | none => some c
          | some openBuffer => do
              let openBuffer ← host.revert path (c.sources.disk path) openBuffer
              some (c.setBuffer path openBuffer)

/-- An open buffer takes the edits, as one step of undo. -/
def commitToSource (c : Commit Path) (path : Path) (indices : List Nat) (source : Buffer) :
    Option (Commit Path) :=
  if host.externallyModified path source then
    some (c.skip path "source file changed on disk since this multibuffer was built")
  else if c.composite.conflicted source.storage.bytes indices then
    some (c.skip path "source buffer changed since this multibuffer was built")
  else do
    let beforeSequence ← source.undoTree.currentSequence
    let (c, source) ← commitToBuffer p (c.composite.descending p indices) c source.beginUndoGroup
    let source ← source.endUndoGroup
    let afterSequence ← source.undoTree.currentSequence
    let c := c.setBuffer path source
    some { c with
      result := { c.result with buffersCommitted := c.result.buffersCommitted + 1 }
      records := c.records ++
        [{ path := path, beforeSequence := beforeSequence, afterSequence := afterSequence }] }

def hugeSource (path : Path) : Bool := (host.fileSize path).any (· > host.hugeFileThreshold)

/-- Whether a file is rewritten on disk, no unsaved buffer standing in the way. -/
def writesDisk (target : CommitTarget) (sources : Sources Path) (path : Path) : Bool :=
  target == .disk && !host.remoteSource path && !hugeSource host path &&
    !(sources.buffers path).any (·.modified)

/-- The body of the loop over the files. -/
def commitFile (target : CommitTarget) (c : Commit Path) (path : Path) (indices : List Nat) :
    Option (Commit Path) :=
  if writesDisk host target c.sources path then commitToDisk p host c path indices
  else
    match c.sources.buffers path with
    | some source => commitToSource p host c path indices source
    | none =>
        if host.remoteSource path then some (c.skip path "isn't open here")
        else
          match host.openFile path (c.sources.disk path) with
          | .error message => some (c.skip path message)
          | .ok source => commitToSource p host (c.setBuffer path source) path indices source

def commitFiles (target : CommitTarget) : List (Path × List Nat) → Commit Path → Option (Commit Path)
  | [], c => some c
  | (path, indices) :: files, c => do
      let c ← commitFile p host target c path indices
      commitFiles target files c

/-- `none` where an exception leaves the function. -/
def commitExcerptChanges (sources : Sources Path) (composite : Composite Path)
    (onlyPath : Option Path) (target : CommitTarget) : Option (Commit Path) :=
  commitFiles p host target (composite.changedByPath onlyPath)
    { composite := composite, sources := sources }

end

/-- The description of the one transaction that a commit to several buffers is. -/
def Commit.transaction {Path : Type} (c : Commit Path) : Option (String × List (ProjectUndoRecord Path)) :=
  if c.records.length > 1 then
    some ("Commit " ++ toString c.result.committedExcerpts ++ " excerpt" ++
      (if c.result.committedExcerpts = 1 then "" else "s") ++ " (" ++ toString c.records.length ++
        " files)", c.records)
  else
    none

end Ned.Editor.Multibuffer
