import Ned.Text.Bytes

/-!
# Piece table

A persistent piece table: a measured tree whose leaves name spans of a mapped file or of an append
buffer. Append buffers live in a heap, shared and appended to in place. An operation is `none` where
it reads out of bounds or its chunk loop never ends.
-/

namespace Ned.Text

open Ned.Library

/-! ## Backing -/

inductive SpanSource where
  | kOriginal
  | kAdded
  deriving DecidableEq

/-- What a leaf keeps besides its counts. -/
structure Span where
  source : SpanSource
  start : Nat
  deriving DecidableEq

/-- The append buffers allocated so far, by address. -/
abbrev Heap := List Bytes

structure Backing where
  mappedFile : Option Bytes
  added : Option Nat
  deriving DecidableEq

def Backing.base (backing : Backing) (heap : Heap) : SpanSource → Option Bytes
  | .kOriginal => backing.mappedFile
  | .kAdded => do
      let address ← backing.added
      heap[address]?

/-- The append buffer of a table, allocated on first use. -/
def Backing.ensureAdded (heap : Heap) (backing : Backing) : Heap × Backing × Nat :=
  match backing.added with
  | none => (heap ++ [[]], { backing with added := some heap.length }, heap.length)
  | some address => (heap, backing, address)

abbrev PieceNode := MeasuredTree Counts Span

structure PieceTable where
  root : Option PieceNode
  backing : Backing
  deriving DecidableEq

namespace PieceTable

def kAddedChunkSize : Nat := 512

def kOriginalChunkSize : Nat := 256 * 1024

/-! ## Leaves -/

section Leaves

variable (heap : Heap) (backing : Backing)

def spanView (ms : Counts) (leaf : Span) : Option Bytes := do
  let base ← backing.base heap leaf.source
  if leaf.start + ms.byteLength ≤ base.length then
    some (substr base leaf.start ms.byteLength)
  else
    none

def makeLeaf (source : SpanSource) (start length : Nat) : Option (Option PieceNode) :=
  if length = 0 then
    some none
  else do
    let leaf : Span := { source := source, start := start }
    let text ← spanView heap backing { byteLength := length, codepointLength := 0, lineCount := 0 } leaf
    some (some (.leaf { byteLength := length, codepointLength := countCodepoints text,
                        lineCount := countNewlines text } leaf))

def splitLeaf (ms : Counts) (leaf : Span) (offset : Nat) :
    Option (Option PieceNode × Option PieceNode) := do
  let left ← makeLeaf heap backing leaf.source leaf.start offset
  let right ← makeLeaf heap backing leaf.source (leaf.start + offset) (ms.byteLength - offset)
  some (left, right)

def split (node : Option PieceNode) (offset : Nat) : Option (Option PieceNode × Option PieceNode) :=
  match node with
  | none => some (none, none)
  | some node => MeasuredTree.split Counts.byteLength (splitLeaf heap backing) node offset

/-- `BuildBalancedSpan`, with its chunk loop given `fuel` rounds. -/
def buildBalancedSpanWithin (fuel : Nat) (source : SpanSource) (start length chunkSize : Nat) :
    Option (Option PieceNode) :=
  if length = 0 then
    some none
  else do
    let base ← backing.base heap source
    let ranges ← chunkRanges (fun i => base[start + i]?) length chunkSize fuel 0
    let leaves ← ranges.mapM fun range => makeLeaf heap backing source (start + range.1) range.2
    some (MeasuredTree.buildBalanced leaves)

/-- `BuildBalancedSpan`: a loop that ends takes a byte a round. -/
def buildBalancedSpan (source : SpanSource) (start length chunkSize : Nat) :
    Option (Option PieceNode) :=
  buildBalancedSpanWithin heap backing (length + 1) source start length chunkSize

/-- The texts of the leaves, from left to right. -/
def nodeLeaves (node : Option PieceNode) : Option (List Bytes) :=
  match node with
  | none => some []
  | some node => node.leaves.mapM fun leaf => spanView heap backing leaf.1 leaf.2

/-- `BuildBalancedSpan` ends, and its leaves are nonempty and make up the text. -/
def Builds (source : SpanSource) (start length chunkSize : Nat) (text : Bytes) : Prop :=
  ∃ fuel node leaves,
    buildBalancedSpanWithin heap backing fuel source start length chunkSize = some node ∧
      nodeLeaves heap backing node = some leaves ∧ (∀ leaf ∈ leaves, leaf ≠ []) ∧
        leaves.flatten = text

end Leaves

/-! ## Construction -/

/-- `FromFileRange`: a fresh append buffer, and a span of the mapped file. -/
def fromFileRange (heap : Heap) (mappedFile : Bytes) (fileByteOffset length : Nat) :
    Option (Heap × PieceTable) := do
  let backing : Backing := { mappedFile := some mappedFile, added := some heap.length }
  let heap := heap ++ [[]]
  let root ← buildBalancedSpan heap backing .kOriginal fileByteOffset length kOriginalChunkSize
  some (heap, { root := root, backing := backing })

/-- `FromFile` on a path whose file holds `mappedFile`. -/
def fromFile (heap : Heap) (mappedFile : Bytes) : Option (Heap × PieceTable) :=
  fromFileRange heap mappedFile 0 mappedFile.length

/-! ## Sizes -/

def isEmpty (table : PieceTable) : Bool := table.root.isNone

def byteLength (table : PieceTable) : Nat :=
  match table.root with
  | none => 0
  | some node => node.measure.byteLength

def codepointLength (table : PieceTable) : Nat :=
  match table.root with
  | none => 0
  | some node => node.measure.codepointLength

def lineCount (table : PieceTable) : Nat :=
  (match table.root with
  | none => 0
  | some node => node.measure.lineCount) + 1

/-! ## Edits -/

def inserted (heap : Heap) (table : PieceTable) (byteOffset : Nat) (text : Bytes) :
    Option (Heap × PieceTable) :=
  if text.isEmpty then
    some (heap, table)
  else do
    let byteOffset := min byteOffset table.byteLength
    let (heap, newBacking, address) := Backing.ensureAdded heap table.backing
    let added ← heap[address]?
    let insertStart := added.length
    -- appends in place: every table that shares the buffer sees the longer one
    let heap := heap.set address (added ++ text)
    let (left, right) ← split heap table.backing table.root byteOffset
    let middle ← buildBalancedSpan heap newBacking .kAdded insertStart text.length kAddedChunkSize
    some (heap, { root := MeasuredTree.concat (MeasuredTree.concat left middle) right,
                  backing := newBacking })

def erased (heap : Heap) (table : PieceTable) (byteOffset byteLength : Nat) :
    Option PieceTable :=
  let byteOffset := min byteOffset table.byteLength
  let byteLength := min byteLength (table.byteLength - byteOffset)
  if byteLength = 0 then
    some table
  else do
    let (left, rest) ← split heap table.backing table.root byteOffset
    let (_, right) ← split heap table.backing rest byteLength
    some { root := MeasuredTree.concat left right, backing := table.backing }

/-! ## Queries -/

section Queries

variable (heap : Heap) (table : PieceTable)

def nodeToString (backing : Backing) (node : Option PieceNode) : Option Bytes :=
  match node with
  | none => some []
  | some node => MeasuredTree.toList (spanView heap backing) node

def toString : Option Bytes := nodeToString heap table.backing table.root

def substring (byteOffset byteLength : Nat) : Option Bytes := do
  let byteOffset := min byteOffset table.byteLength
  let byteLength := min byteLength (table.byteLength - byteOffset)
  let (_, rest) ← split heap table.backing table.root byteOffset
  let (middle, _) ← split heap table.backing rest byteLength
  nodeToString heap table.backing middle

def byteOffsetToLine (byteOffset : Nat) : Option Nat :=
  match table.root with
  | none => some 0
  | some node => MeasuredTree.countBefore (spanView heap table.backing) Counts.byteLength
      Counts.lineCount isNewline node (min byteOffset table.byteLength)

def lineToByteOffset (line : Nat) : Option Nat :=
  match table.root with
  | none => some 0
  | some node =>
      if line = 0 then
        some 0
      else if line > node.measure.lineCount then
        some node.measure.byteLength
      else
        MeasuredTree.find (spanView heap table.backing) Counts.byteLength Counts.lineCount
          (fun line => scanLineStart line 0 0) node line

def byteOffsetToCodepointOffset (byteOffset : Nat) : Option Nat :=
  match table.root with
  | none => some 0
  | some node => MeasuredTree.countBefore (spanView heap table.backing) Counts.byteLength
      Counts.codepointLength isStartByte node (min byteOffset table.byteLength)

def codepointOffsetToByteOffset (codepointOffset : Nat) : Option Nat :=
  match table.root with
  | none => some 0
  | some node =>
      if codepointOffset = 0 then
        some 0
      else if codepointOffset ≥ node.measure.codepointLength then
        some node.measure.byteLength
      else
        MeasuredTree.find (spanView heap table.backing) Counts.byteLength Counts.codepointLength
          (fun k => scanCodepointStart k 0 0) node codepointOffset

/-- A read of a leaf's `std::string_view`. -/
def readLeaf (text : Bytes) (offset : Nat) : Option UInt8 := text[offset]?

def byteAt (offset : Nat) : Option UInt8 :=
  match table.root with
  | none => none
  | some node =>
      MeasuredTree.itemAt (spanView heap table.backing) readLeaf Counts.byteLength node offset

def codepointAt (byteOffset : Nat) : Option DecodedCodepoint :=
  Text.codepointAt (byteAt heap table) table.byteLength byteOffset

def previousCodepointBoundary (byteOffset : Nat) : Option Nat :=
  Text.previousCodepointBoundary (byteAt heap table) table.byteLength byteOffset

def nextCodepointBoundary (byteOffset : Nat) : Option Nat :=
  Text.nextCodepointBoundary (byteAt heap table) table.byteLength byteOffset

end Queries

end PieceTable

end Ned.Text
