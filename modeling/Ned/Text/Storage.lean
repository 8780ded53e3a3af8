import Ned.Text.Bytes
import Ned.Text.PieceTable

/-!
# Storage

A persistent rope: a measured tree whose leaves hold their text. An operation that builds leaves is
`none` where its chunk loop never ends.
-/

namespace Ned.Text

open Ned.Library

abbrev RopeNode := MeasuredTree Counts Bytes

/-- `root_`, null for the empty text. -/
structure Rope where
  root : Option RopeNode
  deriving DecidableEq

namespace Rope

def kChunkSize : Nat := 512

/-- A leaf is read in place. -/
def view (_ : Counts) (text : Bytes) : Id Bytes := text

def makeLeaf (text : Bytes) : Option RopeNode :=
  if text.isEmpty then none else some (.leaf (Counts.of text) text)

def splitLeaf (_ : Counts) (text : Bytes) (offset : Nat) : Id (Option RopeNode × Option RopeNode) :=
  (makeLeaf (substr text 0 offset), makeLeaf (text.drop offset))

def split (node : Option RopeNode) (offset : Nat) : Option RopeNode × Option RopeNode :=
  match node with
  | none => (none, none)
  | some node => Id.run (MeasuredTree.split Counts.byteLength splitLeaf node offset)

/-- `BuildBalanced(text)`, with its chunk loop given `fuel` rounds. -/
def buildBalancedWithin (fuel : Nat) (text : Bytes) : Option (Option RopeNode) :=
  if text.isEmpty then
    some none
  else do
    let ranges ← chunkRanges (fun i => text[i]?) text.length kChunkSize fuel 0
    some (MeasuredTree.buildBalanced
      (ranges.map fun range => makeLeaf (substr text range.1 range.2)))

/-- `BuildBalanced(text)`: a loop that ends takes a byte a round. -/
def buildBalanced (text : Bytes) : Option (Option RopeNode) :=
  buildBalancedWithin (text.length + 1) text

/-- The texts of the leaves, from left to right. -/
def nodeLeaves (node : Option RopeNode) : List Bytes :=
  match node with
  | none => []
  | some node => node.leaves.map Prod.snd

/-- `BuildBalanced` ends, and its leaves are nonempty and make up the text. -/
def Builds (text : Bytes) : Prop :=
  ∃ fuel node, buildBalancedWithin fuel text = some node ∧
    (∀ leaf ∈ nodeLeaves node, leaf ≠ []) ∧ (nodeLeaves node).flatten = text

/-! ## Construction and edits -/

def empty : Rope := { root := none }

def ofText (text : Bytes) : Option Rope := do
  let root ← buildBalanced text
  some { root := root }

def isEmpty (rope : Rope) : Bool := rope.root.isNone

def byteLength (rope : Rope) : Nat :=
  match rope.root with
  | none => 0
  | some node => node.measure.byteLength

def codepointLength (rope : Rope) : Nat :=
  match rope.root with
  | none => 0
  | some node => node.measure.codepointLength

def lineCount (rope : Rope) : Nat :=
  (match rope.root with
  | none => 0
  | some node => node.measure.lineCount) + 1

def inserted (rope : Rope) (byteOffset : Nat) (text : Bytes) : Option Rope :=
  if text.isEmpty then
    some rope
  else do
    let byteOffset := min byteOffset rope.byteLength
    let (left, right) := split rope.root byteOffset
    let middle ← buildBalanced text
    some { root := MeasuredTree.concat (MeasuredTree.concat left middle) right }

def erased (rope : Rope) (byteOffset byteLength : Nat) : Rope :=
  let byteOffset := min byteOffset rope.byteLength
  let byteLength := min byteLength (rope.byteLength - byteOffset)
  if byteLength = 0 then
    rope
  else
    let (left, rest) := split rope.root byteOffset
    let (_, right) := split rest byteLength
    { root := MeasuredTree.concat left right }

/-! ## Queries -/

def nodeToString (node : Option RopeNode) : Bytes :=
  match node with
  | none => []
  | some node => Id.run (MeasuredTree.toList view node)

def toString (rope : Rope) : Bytes := nodeToString rope.root

def substring (rope : Rope) (byteOffset byteLength : Nat) : Bytes :=
  let byteOffset := min byteOffset rope.byteLength
  let byteLength := min byteLength (rope.byteLength - byteOffset)
  let (_, rest) := split rope.root byteOffset
  let (middle, _) := split rest byteLength
  nodeToString middle

def byteOffsetToLine (rope : Rope) (byteOffset : Nat) : Nat :=
  match rope.root with
  | none => 0
  | some node => Id.run (MeasuredTree.countBefore view Counts.byteLength Counts.lineCount isNewline
      node (min byteOffset rope.byteLength))

def lineToByteOffset (rope : Rope) (line : Nat) : Nat :=
  match rope.root with
  | none => 0
  | some node =>
      if line = 0 then
        0
      else if line > node.measure.lineCount then
        node.measure.byteLength
      else
        Id.run (MeasuredTree.find view Counts.byteLength Counts.lineCount
          (fun line => scanLineStart line 0 0) node line)

def byteOffsetToCodepointOffset (rope : Rope) (byteOffset : Nat) : Nat :=
  match rope.root with
  | none => 0
  | some node => Id.run (MeasuredTree.countBefore view Counts.byteLength Counts.codepointLength
      isStartByte node (min byteOffset rope.byteLength))

def codepointOffsetToByteOffset (rope : Rope) (codepointOffset : Nat) : Nat :=
  match rope.root with
  | none => 0
  | some node =>
      if codepointOffset = 0 then
        0
      else if codepointOffset ≥ node.measure.codepointLength then
        node.measure.byteLength
      else
        Id.run (MeasuredTree.find view Counts.byteLength Counts.codepointLength
          (fun k => scanCodepointStart k 0 0) node codepointOffset)

/-- A read of a leaf's `std::string`, whose terminator may be read too. -/
def readLeaf (text : Bytes) (offset : Nat) : Option UInt8 := (text ++ [0])[offset]?

def byteAt (rope : Rope) (offset : Nat) : Option UInt8 :=
  match rope.root with
  | none => none
  | some node => MeasuredTree.itemAt (fun _ text => some text) readLeaf Counts.byteLength node offset

def codepointAt (rope : Rope) (byteOffset : Nat) : Option DecodedCodepoint :=
  Text.codepointAt rope.byteAt rope.byteLength byteOffset

def previousCodepointBoundary (rope : Rope) (byteOffset : Nat) : Option Nat :=
  Text.previousCodepointBoundary rope.byteAt rope.byteLength byteOffset

def nextCodepointBoundary (rope : Rope) (byteOffset : Nat) : Option Nat :=
  Text.nextCodepointBoundary rope.byteAt rope.byteLength byteOffset

end Rope

/-!
## Text storage

What an `ITextStorage` denotes: its bytes, and whether they are held by a rope or by a piece table.
An operation that builds leaves is `none` where their chunk loop fails.
-/

structure Storage where
  bytes : Bytes
  huge : Bool
  deriving DecidableEq

namespace Storage

def empty : Storage := { bytes := [], huge := false }

/-- `Rope(text)` behind the interface. -/
def ofText (text : Bytes) : Option Storage := do
  let _ ← Rope.ofText text
  some { bytes := text, huge := false }

def ofPieceTable (text : Bytes) : Storage := { bytes := text, huge := true }

def byteLength (storage : Storage) : Nat := storage.bytes.length

def lineCount (storage : Storage) : Nat := countNewlines storage.bytes + 1

/-- The leaves an insertion builds, over an append buffer that ends with the text. -/
def builds (huge : Bool) (text : Bytes) : Bool :=
  if huge then
    (PieceTable.buildBalancedSpan [text] { mappedFile := none, added := some 0 } .kAdded 0
      text.length PieceTable.kAddedChunkSize).isSome
  else
    (Rope.buildBalanced text).isSome

def inserted (storage : Storage) (byteOffset : Nat) (text : Bytes) : Option Storage :=
  if text.isEmpty then
    some storage
  else if builds storage.huge text then
    some { storage with bytes := insertAt storage.bytes byteOffset text }
  else
    none

def erased (storage : Storage) (byteOffset byteLength : Nat) : Storage :=
  { storage with bytes := eraseAt storage.bytes byteOffset byteLength }

/-- `PieceTable::Concatenated`, for two huge storages over one mapped file. -/
def concatenated (storage fragment : Storage) : Storage :=
  { storage with bytes := storage.bytes ++ fragment.bytes }

def substring (storage : Storage) (byteOffset byteLength : Nat) : Bytes :=
  substr storage.bytes byteOffset byteLength

def byteOffsetToLine (storage : Storage) (byteOffset : Nat) : Nat :=
  countNewlines (storage.bytes.take byteOffset)

def lineToByteOffset (storage : Storage) (line : Nat) : Nat := lineStart storage.bytes line

def byteOffsetToCodepointOffset (storage : Storage) (byteOffset : Nat) : Nat :=
  countCodepoints (storage.bytes.take byteOffset)

def codepointOffsetToByteOffset (storage : Storage) (codepointOffset : Nat) : Nat :=
  if codepointOffset = 0 then 0 else codepointStart storage.bytes codepointOffset

def codepointAt (storage : Storage) (byteOffset : Nat) : Option DecodedCodepoint :=
  Text.codepointAt (fun i => storage.bytes[i]?) storage.byteLength byteOffset

def previousCodepointBoundary (storage : Storage) (byteOffset : Nat) : Option Nat :=
  Text.previousCodepointBoundary (fun i => storage.bytes[i]?) storage.byteLength byteOffset

def nextCodepointBoundary (storage : Storage) (byteOffset : Nat) : Option Nat :=
  Text.nextCodepointBoundary (fun i => storage.bytes[i]?) storage.byteLength byteOffset

end Storage

/-! ## Offset remapping -/

/-- The inner loops of `CommonPrefixLength` and, over reversed blocks, `CommonSuffixLength`. -/
def commonLength : Bytes → Bytes → Nat
  | a :: as, b :: bs => if a == b then commonLength as bs + 1 else 0
  | _, _ => 0

@[simp] theorem commonLength_nil_left (b : Bytes) : commonLength [] b = 0 := rfl

@[simp] theorem commonLength_nil_right (a : Bytes) : commonLength a [] = 0 := by
  cases a <;> rfl

theorem commonLength_cons (x y : UInt8) (a b : Bytes) :
    commonLength (x :: a) (y :: b) = if x == y then commonLength a b + 1 else 0 := rfl

/-- The block loop of `CommonPrefixLength`, whose blocks double. -/
def commonPrefixFrom (a b : Bytes) (maxLen checked blockSize : Nat) : Nat :=
  if _h : checked < maxLen ∧ 0 < blockSize then
    let len := min blockSize (maxLen - checked)
    let common := commonLength (substr a checked len) (substr b checked len)
    if common < len then
      checked + common
    else
      commonPrefixFrom a b maxLen (checked + len) (blockSize * 2)
  else
    maxLen
termination_by maxLen - checked

def commonPrefixLength (a b : Storage) : Nat :=
  commonPrefixFrom a.bytes b.bytes (min a.byteLength b.byteLength) 0 4096

/-- The block loop of `CommonSuffixLength`, walking backward from both ends. -/
def commonSuffixFrom (a b : Bytes) (maxLen checked blockSize : Nat) : Nat :=
  if _h : checked < maxLen ∧ 0 < blockSize then
    let len := min blockSize (maxLen - checked)
    let common := commonLength (substr a (a.length - checked - len) len).reverse
      (substr b (b.length - checked - len) len).reverse
    if common < len then
      checked + common
    else
      commonSuffixFrom a b maxLen (checked + len) (blockSize * 2)
  else
    maxLen
termination_by maxLen - checked

def commonSuffixLength (a b : Storage) (maxLen : Nat) : Nat :=
  commonSuffixFrom a.bytes b.bytes maxLen 0 4096

def storageContentEquals (a b : Storage) : Bool :=
  a.byteLength == b.byteLength && commonPrefixLength a b == a.byteLength

structure ChangedSpan where
  oldStart : Nat
  oldEnd : Nat
  newStart : Nat
  newEnd : Nat
  deriving DecidableEq

/-- The one changed region between two versions, `none` when they are byte-identical. -/
def changedByteRange (oldStorage newStorage : Storage) : Option ChangedSpan :=
  let oldLen := oldStorage.byteLength
  let newLen := newStorage.byteLength
  let common := commonPrefixLength oldStorage newStorage
  if common = oldLen ∧ common = newLen then
    none
  else
    let suffix := commonSuffixLength oldStorage newStorage (min oldLen newLen - common)
    some { oldStart := common, oldEnd := oldLen - suffix, newStart := common,
           newEnd := newLen - suffix }

def remapOffset (offset : Nat) (span : ChangedSpan) : Nat :=
  if offset ≤ span.oldStart then
    offset
  else if offset ≥ span.oldEnd then
    offset - span.oldEnd + span.newEnd
  else
    span.newStart

def remapOffsetBetween (offset : Nat) (oldStorage newStorage : Storage) : Nat :=
  match changedByteRange oldStorage newStorage with
  | some span => remapOffset offset span
  | none => offset

end Ned.Text
