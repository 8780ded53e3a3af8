import Mathlib.Algebra.Group.Nat.Defs
import Ned.Editor.Parse.Lexer

/-!
# The green tree

The parser's tree. A leaf that is small is stored inline, every other node on the heap, its children
before it. Sharing is left out: a node is cloned before it is changed. Offsets are kept in 32 bits,
and wrap.
-/

namespace Ned.Editor.Parse

def uint32 (n : Nat) : Nat := n % 2 ^ 32

/-! ## Lengths -/

namespace Point

def add (a b : Point) : Point :=
  if b.row > 0 then { row := uint32 (a.row + b.row), column := b.column }
  else { row := a.row, column := uint32 (a.column + b.column) }

def sub (a b : Point) : Point :=
  if a.row > b.row then { row := a.row - b.row, column := a.column }
  else { row := 0, column := if a.column > b.column then a.column - b.column else 0 }

end Point

namespace Length

def zero : Length := { bytes := 0, extent := { row := 0, column := 0 } }

def add (a b : Length) : Length :=
  { bytes := uint32 (a.bytes + b.bytes), extent := a.extent.add b.extent }

def sub (a b : Length) : Length :=
  { bytes := if a.bytes ≥ b.bytes then a.bytes - b.bytes else 0, extent := a.extent.sub b.extent }

def saturatingSub (a b : Length) : Length := if a.bytes > b.bytes then a.sub b else zero

end Length

/-! ## Nodes -/

structure SubtreeInlineData where
  visible : Bool := false
  named : Bool := false
  extra : Bool := false
  hasChanges : Bool := false
  isMissing : Bool := false
  isKeyword : Bool := false
  isOwed : Bool := false
  symbol : Nat := 0
  parseState : Nat := 0
  paddingColumns : Nat := 0
  paddingRows : Nat := 0
  lookaheadBytes : Nat := 0
  paddingBytes : Nat := 0
  sizeBytes : Nat := 0
  deriving DecidableEq

/-- A symbol and the state it was read in. -/
structure FirstLeaf where
  symbol : Nat := 0
  parseState : Nat := 0
  deriving DecidableEq

structure SubtreeHeapData where
  padding : Length := .zero
  size : Length := .zero
  lookaheadBytes : Nat := 0
  errorCost : Nat := 0
  symbol : Nat := 0
  parseState : Nat := 0
  visible : Bool := false
  named : Bool := false
  extra : Bool := false
  fragileLeft : Bool := false
  fragileRight : Bool := false
  hasChanges : Bool := false
  hasExternalTokens : Bool := false
  hasExternalScannerStateChange : Bool := false
  dependsOnColumn : Bool := false
  isMissing : Bool := false
  isKeyword : Bool := false
  isOwed : Bool := false
  visibleChildCount : Nat := 0
  namedChildCount : Nat := 0
  visibleDescendantCount : Nat := 0
  dynamicPrecedence : Int := 0
  repeatDepth : Nat := 0
  productionId : Nat := 0
  firstLeaf : FirstLeaf := {}
  deriving DecidableEq

inductive Subtree
  | inline (data : SubtreeInlineData)
  | heap (data : SubtreeHeapData) (children : List Subtree)

namespace Subtree

def children : Subtree → List Subtree
  | .inline _ => []
  | .heap _ children => children

def symbol : Subtree → Nat
  | .inline data => data.symbol
  | .heap data _ => data.symbol

def hasChanges : Subtree → Bool
  | .inline data => data.hasChanges
  | .heap data _ => data.hasChanges

def lookaheadBytes : Subtree → Nat
  | .inline data => data.lookaheadBytes
  | .heap data _ => data.lookaheadBytes

def dependsOnColumn : Subtree → Bool
  | .inline _ => false
  | .heap data _ => data.dependsOnColumn

def padding : Subtree → Length
  | .inline data => ⟨data.paddingBytes, ⟨data.paddingRows, data.paddingColumns⟩⟩
  | .heap data _ => data.padding

def size : Subtree → Length
  | .inline data => ⟨data.sizeBytes, ⟨0, data.sizeBytes⟩⟩
  | .heap data _ => data.size

def totalSize (tree : Subtree) : Length := tree.padding.add tree.size

def totalBytes (tree : Subtree) : Nat := tree.totalSize.bytes

end Subtree

def kMaxInlineTreeLength : Nat := 255

def subtreeCanInline (padding size : Length) (lookaheadBytes : Nat) : Bool :=
  padding.bytes < kMaxInlineTreeLength && padding.extent.row < 16 &&
    padding.extent.column < kMaxInlineTreeLength && size.bytes < kMaxInlineTreeLength &&
    size.extent.row == 0 && size.extent.column < kMaxInlineTreeLength && lookaheadBytes < 16

/-! ## Edits -/

structure InputEdit where
  startByte : Nat
  oldEndByte : Nat
  newEndByte : Nat
  startPoint : Point
  oldEndPoint : Point
  newEndPoint : Point
  deriving DecidableEq

/-- An edit in the coordinates of a node. -/
structure Edit where
  start : Length
  oldEnd : Length
  newEnd : Length
  deriving DecidableEq

namespace Edit

variable (edit : Edit)

def isNoop : Bool := edit.oldEnd.bytes == edit.start.bytes && edit.newEnd.bytes == edit.start.bytes

def isPureInsertion : Bool := edit.oldEnd.bytes == edit.start.bytes

def columnShifted : Bool := edit.newEnd.extent.column != edit.oldEnd.extent.column

end Edit

namespace Subtree

/-- Behind what the node has read, there is nothing to do. -/
def isBefore (tree : Subtree) (edit : Edit) : Bool :=
  let endByte := uint32 (tree.totalSize.bytes + tree.lookaheadBytes)
  edit.start.bytes > endByte || edit.isNoop && edit.start.bytes == endByte

/-- The padding and the size of a node after an edit. -/
def editedLengths (tree : Subtree) (edit : Edit) : Length × Length :=
  let totalSize := tree.totalSize
  if edit.oldEnd.bytes ≤ tree.padding.bytes then
    (edit.newEnd.add (tree.padding.sub edit.oldEnd), tree.size)
  else if edit.start.bytes < tree.padding.bytes then
    (edit.newEnd, tree.size.saturatingSub (edit.oldEnd.sub tree.padding))
  else if edit.start.bytes < totalSize.bytes ||
      edit.start.bytes == totalSize.bytes && edit.isPureInsertion then
    (tree.padding, (edit.newEnd.sub tree.padding).add (totalSize.saturatingSub edit.oldEnd))
  else
    (tree.padding, tree.size)

end Subtree

/-- Stores new lengths inline, or moves the leaf to the heap. -/
def SubtreeInlineData.resize (data : SubtreeInlineData) (padding size : Length) : Subtree :=
  if subtreeCanInline padding size data.lookaheadBytes then
    .inline
      { data with
        paddingBytes := padding.bytes % 2 ^ 8
        paddingRows := padding.extent.row &&& 0x0F
        paddingColumns := padding.extent.column % 2 ^ 8
        sizeBytes := size.bytes % 2 ^ 8
        hasChanges := true }
  else
    .heap
      { padding := padding
        size := size
        lookaheadBytes := data.lookaheadBytes
        symbol := data.symbol
        parseState := data.parseState
        visible := data.visible
        named := data.named
        extra := data.extra
        hasChanges := true
        isMissing := data.isMissing
        isKeyword := data.isKeyword
        isOwed := data.isOwed } []

/-- What the loop over the children of a node keeps from its start. -/
structure ChildLoop where
  parentDependsOnColumn : Bool
  columnShifted : Bool
  isPureInsertion : Bool
  padding : Length
  deriving DecidableEq

namespace ChildLoop

variable (loop : ChildLoop) (edit : Edit) (i : Nat) (childLeft childRight : Length) (child : Subtree)

/-- A node that starts after the edit ends the loop, unless columns make it go on. -/
def stops : Bool :=
  (childLeft.bytes > edit.oldEnd.bytes ||
      childLeft.bytes == edit.oldEnd.bytes && child.totalSize.bytes > 0 && i > 0) &&
    (!loop.parentDependsOnColumn || childLeft.extent.row > loop.padding.extent.row) &&
    (!child.dependsOnColumn || !loop.columnShifted ||
      childLeft.extent.row > edit.oldEnd.extent.row)

/-- The child that takes all of the inserted text. -/
def absorbs : Bool :=
  childRight.bytes > edit.start.bytes || childRight.bytes == edit.start.bytes && loop.isPureInsertion

end ChildLoop

/-- The edit in the coordinates of a child. -/
def Edit.within (edit : Edit) (childLeft : Length) : Edit :=
  { start := edit.start.saturatingSub childLeft
    oldEnd := edit.oldEnd.saturatingSub childLeft
    newEnd := edit.newEnd.saturatingSub childLeft }

/-- A node that is only marked. -/
def Edit.atStart (edit : Edit) : Edit := { edit with oldEnd := edit.start, newEnd := edit.start }

/-- The text has been inserted. -/
def Edit.absorbed (edit : Edit) : Edit := { edit with newEnd := edit.start }

mutual
/-- The entries on the stack of `SubtreeEdit` are for separate nodes, so each is dealt with where it
is pushed. -/
def Subtree.edit : Subtree → Edit → Subtree
  | .inline data, edit =>
      if (Subtree.inline data).isBefore edit then .inline data
      else
        let lengths := (Subtree.inline data).editedLengths edit
        data.resize lengths.1 lengths.2
  | .heap data children, edit =>
      if (Subtree.heap data children).isBefore edit then .heap data children
      else
        let lengths := (Subtree.heap data children).editedLengths edit
        let loop : ChildLoop :=
          { parentDependsOnColumn := data.dependsOnColumn
            columnShifted := edit.columnShifted
            isPureInsertion := edit.isPureInsertion
            padding := lengths.1 }
        .heap { data with padding := lengths.1, size := lengths.2, hasChanges := true }
          (Subtree.editChildren loop 0 .zero edit children)

def Subtree.editChildren (loop : ChildLoop) (i : Nat) (childLeft : Length) (edit : Edit) :
    List Subtree → List Subtree
  | [] => []
  | child :: rest =>
      let childRight := childLeft.add child.totalSize
      if uint32 (childRight.bytes + child.lookaheadBytes) < edit.start.bytes then
        child :: Subtree.editChildren loop (i + 1) childRight edit rest
      else if loop.stops edit i childLeft child then child :: rest
      else if loop.absorbs edit childRight then
        child.edit (edit.within childLeft) ::
          Subtree.editChildren loop (i + 1) childRight edit.absorbed rest
      else
        child.edit (edit.within childLeft).atStart ::
          Subtree.editChildren loop (i + 1) childRight edit rest
end

def subtreeEdit (self : Subtree) (inputEdit : InputEdit) : Subtree :=
  self.edit
    { start := ⟨inputEdit.startByte, inputEdit.startPoint⟩
      oldEnd := ⟨inputEdit.oldEndByte, inputEdit.oldEndPoint⟩
      newEnd := ⟨inputEdit.newEndByte, inputEdit.newEndPoint⟩ }

end Ned.Editor.Parse
