import Ned.Library.Assoc
import Ned.Text.Storage

/-!
# Undo tree

A tree of states in which nothing is discarded. Nodes live in an arena and are named by address, as
by the pointers of the source; an operation is `none` where it follows a pointer, or indexes a child
vector, out of bounds.
-/

namespace Ned.Text

open Ned.Library

namespace UndoTree

structure Node where
  state : Storage
  parent : Option Nat
  children : List Nat
  mostRecentChild : Nat
  sequence : Nat
  deriving DecidableEq

/-- A node of the flat view that is written to disk. -/
structure SerializedNode where
  id : Nat
  parentId : Option Nat
  content : Bytes
  mostRecentChild : Nat
  deriving DecidableEq

end UndoTree

structure UndoTree where
  nodes : List UndoTree.Node
  root : Nat
  current : Nat
  nextSequence : Nat
  bySequence : List (Nat × Nat)
  deriving DecidableEq

namespace UndoTree

def ofState (initialState : Storage) : UndoTree :=
  { nodes := [{ state := initialState, parent := none, children := [], mostRecentChild := 0,
                sequence := 0 }]
    root := 0
    current := 0
    nextSequence := 1
    bySequence := [(0, 0)] }

variable (tree : UndoTree)

/-- The node `current_` points to. -/
def currentNode : Option Node := tree.nodes[tree.current]?

def currentState : Option Storage := do
  let node ← tree.currentNode
  some node.state

def record (newState : Storage) : Option UndoTree := do
  let node ← tree.currentNode
  let child := tree.nodes.length
  some
    { tree with
      nodes := tree.nodes.set tree.current
          { node with children := node.children ++ [child], mostRecentChild := node.children.length } ++
        [{ state := newState, parent := some tree.current, children := [], mostRecentChild := 0,
           sequence := tree.nextSequence }]
      current := child
      nextSequence := tree.nextSequence + 1
      bySequence := emplace tree.bySequence tree.nextSequence child }

def amend (newState : Storage) : Option UndoTree := do
  let node ← tree.currentNode
  some { tree with nodes := tree.nodes.set tree.current { node with state := newState } }

def canUndo : Option Bool := do
  let node ← tree.currentNode
  some node.parent.isSome

def canRedo : Option Bool := do
  let node ← tree.currentNode
  some !node.children.isEmpty

def undo : Option UndoTree := do
  let node ← tree.currentNode
  match node.parent with
  | none => some tree
  | some parent => some { tree with current := parent }

def redo : Option UndoTree := do
  let node ← tree.currentNode
  if node.children.isEmpty then
    some tree
  else do
    let child ← node.children[node.mostRecentChild]?
    some { tree with current := child }

def childCount : Option Nat := do
  let node ← tree.currentNode
  some node.children.length

def currentSequence : Option Nat := do
  let node ← tree.currentNode
  some node.sequence

def hasSequence (sequence : Nat) : Bool := (tree.bySequence.lookup sequence).isSome

/-- The first position at which the parent's loop finds the target. -/
def repoint (parent : Node) (target : Nat) : Node :=
  match parent.children.findIdx? (· == target) with
  | none => parent
  | some i => { parent with mostRecentChild := i }

/-- `JumpTo`: the tree it leaves, and whether the sequence is known. -/
def jumpTo (sequence : Nat) : Option (UndoTree × Bool) :=
  match tree.bySequence.lookup sequence with
  | none => some (tree, false)
  | some target => do
      let node ← tree.nodes[target]?
      match node.parent with
      | none => some ({ tree with current := target }, true)
      | some address => do
          let parent ← tree.nodes[address]?
          some ({ tree with nodes := tree.nodes.set address (repoint parent target),
                            current := target }, true)

/-! ## Deserializing -/

/-- `byId.find`. -/
def findById (nodes : List SerializedNode) (id : Nat) : Option SerializedNode :=
  nodes.find? fun node => node.id == id

/-- Where the node with an id lives: at its position in the list. -/
def addressOf (nodes : List SerializedNode) (id : Nat) : Option Nat :=
  nodes.findIdx? fun node => node.id == id

def refuseDuplicateIds : List SerializedNode → Except String Unit
  | [] => .ok ()
  | node :: nodes =>
      if (findById nodes node.id).isSome then
        .error "UndoTree::Deserialize: duplicate node id"
      else
        refuseDuplicateIds nodes

/-- The id of the one node that has no parent. -/
def findRoot (nodes : List SerializedNode) : Except String Nat :=
  match nodes.filter fun node => node.parentId.isNone with
  | [] => .error "UndoTree::Deserialize: no root"
  | [root] => .ok root.id
  | _ => .error "UndoTree::Deserialize: more than one root"

/-- Follows a node's parents to the root. -/
def checkChain (nodes : List SerializedNode) (rootId : Nat) :
    Nat → SerializedNode → Except String Unit
  | steps, walker =>
      if walker.id = rootId then
        .ok ()
      else
        match steps with
        | 0 => .error "UndoTree::Deserialize: cycle in parent chain"
        | steps + 1 =>
            match walker.parentId with
            | none => .error "UndoTree::Deserialize: node unreachable from root"
            | some parentId =>
                match findById nodes parentId with
                | none => .error "UndoTree::Deserialize: dangling parentId"
                | some parent => checkChain nodes rootId steps parent

/-- Everything that is checked before a node is built; the root's id. -/
def validate (nodes : List SerializedNode) (currentId : Nat) : Except String Nat := do
  if nodes.isEmpty then
    .error "UndoTree::Deserialize: empty node list"
  refuseDuplicateIds nodes
  let rootId ← findRoot nodes
  if (findById nodes currentId).isNone then
    .error "UndoTree::Deserialize: unknown currentId"
  nodes.forM (checkChain nodes rootId (nodes.length + 1))
  return rootId

/-- The positions of the nodes that name a parent, in list order. -/
def childrenOf (nodes : List SerializedNode) (id : Nat) : List Nat :=
  (List.range nodes.length).filter fun i =>
    (nodes[i]?).any fun node => node.parentId == some id

/-- Fresh sequences in list order, 0 for the root. -/
def sequencesFrom (rootId : Nat) : Nat → List SerializedNode → List Nat
  | _, [] => []
  | nextSeq, node :: nodes =>
      if node.id = rootId then
        0 :: sequencesFrom rootId nextSeq nodes
      else
        nextSeq :: sequencesFrom rootId (nextSeq + 1) nodes

/-- A node as it is once its children are attached. -/
def buildNode (nodes : List SerializedNode) (node : SerializedNode) (sequence : Nat) :
    Option Node := do
  let state ← Storage.ofText node.content
  some
    { state := state
      parent := node.parentId.bind (addressOf nodes)
      children := childrenOf nodes node.id
      mostRecentChild := node.mostRecentChild
      sequence := sequence }

def buildNodes (nodes : List SerializedNode) : List SerializedNode → List Nat → Option (List Node)
  | node :: rest, sequence :: sequences => do
      let built ← buildNode nodes node sequence
      let others ← buildNodes nodes rest sequences
      some (built :: others)
  | _, _ => some []

def build (nodes : List SerializedNode) (rootId currentId : Nat) : Option UndoTree := do
  let sequences := sequencesFrom rootId 1 nodes
  let built ← buildNodes nodes nodes sequences
  let root ← addressOf nodes rootId
  let current ← addressOf nodes currentId
  some
    { nodes := built
      root := root
      current := current
      nextSequence := nodes.length
      bySequence := (sequences.zipIdx).foldl (fun entries e => emplace entries e.1 e.2) [] }

def deserialize (nodes : List SerializedNode) (currentId : Nat) : Option (Except String UndoTree) :=
  match validate nodes currentId with
  | .error message => some (.error message)
  | .ok rootId => (build nodes rootId currentId).map .ok

end UndoTree

end Ned.Text

/-!
## Undo recording

Which edits become a node of the undo tree, and which are amended into the current one: a group of
edits becomes one node, and so do consecutive keystrokes and consecutive load appends, but never one
of each.
-/

namespace Ned.Text

open Ned.Library

structure UndoRecording where
  undoTree : UndoTree
  undoGroupDepth : Nat := 0
  undoGroupDirty : Bool := false
  canAmend : Bool := false
  canAmendLoadAppend : Bool := false
  excerptRangeOffsetSnapshots : List (Nat × List (Nat × Nat)) := []
  deriving DecidableEq

namespace UndoRecording

variable (recording : UndoRecording) (storage : Storage) (offsets : List (Nat × Nat))

/-- Remembers the excerpts' offsets for the current node, when there are excerpts. -/
def snapshotExcerptRangeOffsets : Option UndoRecording :=
  if offsets.isEmpty then
    some recording
  else do
    let sequence ← recording.undoTree.currentSequence
    some
      { recording with
        excerptRangeOffsetSnapshots :=
          assign recording.excerptRangeOffsetSnapshots sequence offsets }

/-- `Record` and the snapshot of the offsets. -/
def record : Option UndoRecording := do
  let tree ← recording.undoTree.record storage
  snapshotExcerptRangeOffsets { recording with undoTree := tree } offsets

/-- `Amend`, which rewrites the current node in place, offsets included. -/
def amend : Option UndoRecording := do
  let tree ← recording.undoTree.amend storage
  snapshotExcerptRangeOffsets { recording with undoTree := tree } offsets

def beginUndoGroup : UndoRecording :=
  { recording with undoGroupDepth := recording.undoGroupDepth + 1 }

def endUndoGroup : Option UndoRecording :=
  if recording.undoGroupDepth = 0 then
    some recording
  else
    let closed := { recording with undoGroupDepth := recording.undoGroupDepth - 1 }
    if closed.undoGroupDepth = 0 ∧ closed.undoGroupDirty = true then do
      let recorded ← closed.record storage offsets
      some { recorded with canAmend := false, undoGroupDirty := false }
    else
      some closed

def recordOrAmendUndo (canAmend : Bool) : Option UndoRecording :=
  let cut := { recording with canAmendLoadAppend := false }
  if cut.undoGroupDepth > 0 then
    some { cut with undoGroupDirty := true }
  else if canAmend && cut.canAmend then
    cut.amend storage offsets
  else do
    let recorded ← cut.record storage offsets
    some { recorded with canAmend := canAmend }

def recordOrAmendLoadAppend : Option UndoRecording :=
  let cut := { recording with canAmend := false }
  if cut.undoGroupDepth > 0 then
    some { cut with undoGroupDirty := true }
  else if cut.canAmendLoadAppend then
    cut.amend storage offsets
  else do
    let recorded ← cut.record storage offsets
    some { recorded with canAmendLoadAppend := true }

end UndoRecording

end Ned.Text
