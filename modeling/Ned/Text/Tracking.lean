import Mathlib.Algebra.Group.Nat.Defs

/-!
# Edit journal

A document's edits, newest last, each stamped with the generation it produced. The journal is
bounded: it forgets its oldest edits, and the generations before them become unreachable.
-/

namespace Ned.Text

/-! ## Edits -/

/-- The bytes `[offset, offset + oldLength)` became `newLength` bytes, or a barrier. -/
structure EditOp where
  generation : Nat
  offset : Nat := 0
  oldLength : Nat := 0
  newLength : Nat := 0
  barrier : Bool := false
  deriving DecidableEq

namespace EditOp

def inserted (generation offset length : Nat) : EditOp :=
  { generation := generation, offset := offset, oldLength := 0, newLength := length }

def deleted (generation rangeStart rangeEnd : Nat) : EditOp :=
  { generation := generation, offset := rangeStart, oldLength := rangeEnd - rangeStart,
    newLength := 0 }

def replaced (generation offset oldLength newLength : Nat) : EditOp :=
  { generation := generation, offset := offset, oldLength := oldLength, newLength := newLength }

def barrierAt (generation : Nat) : EditOp := { generation := generation, barrier := true }

end EditOp

inductive Gravity where
  | left
  | right
  deriving DecidableEq

inductive InsideDelete where
  | clamp
  | invalidate
  deriving DecidableEq

structure AnchorPolicy where
  gravity : Gravity := .left
  insideDelete : InsideDelete := .clamp
  deriving DecidableEq

/-- `offset`, valid before `op`, expressed after it; `none` when it did not survive. -/
def relocateThrough (offset : Nat) (op : EditOp) (policy : AnchorPolicy) : Option Nat :=
  if op.barrier then
    none
  else
    let oldEnd := op.offset + op.oldLength
    if offset < op.offset then
      some offset
    else if offset = op.offset then
      some (if policy.gravity = .right then op.offset + op.newLength else op.offset)
    else if offset ≥ oldEnd then
      some (offset + op.newLength - op.oldLength)
    else if policy.insideDelete = .invalidate then
      none
    else
      some op.offset

def relocateThroughAll (offset : Nat) : List EditOp → AnchorPolicy → Option Nat
  | [], _ => some offset
  | op :: ops, policy => do
      let next ← relocateThrough offset op policy
      relocateThroughAll next ops policy

/-! ## The journal -/

structure EditJournal where
  ops : List EditOp
  oldestReachable : Nat
  deriving DecidableEq

namespace EditJournal

def kCapacity : Nat := 4096

def empty : EditJournal := { ops := [], oldestReachable := 0 }

/-- Discards the oldest edits until the capacity is met. -/
def trim (oldestReachable : Nat) : List EditOp → EditJournal
  | [] => { ops := [], oldestReachable := oldestReachable }
  | op :: ops =>
      if (op :: ops).length > kCapacity then
        trim op.generation ops
      else
        { ops := op :: ops, oldestReachable := oldestReachable }

def record (journal : EditJournal) (op : EditOp) : EditJournal :=
  trim journal.oldestReachable (journal.ops ++ [op])

/-- Every edit newer than `generation`, `none` when the journal does not reach that far back. -/
def opsSince (journal : EditJournal) (generation : Nat) : Option (List EditOp) :=
  if generation < journal.oldestReachable then
    none
  else
    some (journal.ops.filter fun op => op.generation > generation)

def relocate (journal : EditJournal) (offset generation : Nat) (policy : AnchorPolicy) :
    Option Nat := do
  let ops ← journal.opsSince generation
  relocateThroughAll offset ops policy

def oldestReachableGeneration (journal : EditJournal) : Nat := journal.oldestReachable

end EditJournal

end Ned.Text

/-!
## Anchor set

A table of slots, each holding an anchor that every edit relocates at once. A destroyed anchor frees
its slot; the version in its handle tells it from the anchors that reuse the slot.
-/

namespace Ned.Text

/-- A handle. Version 0 names no anchor. -/
structure AnchorId where
  index : Nat
  version : Nat
  deriving DecidableEq

namespace AnchorSet

structure Entry where
  offset : Nat
  policy : AnchorPolicy
  version : Nat
  occupied : Bool
  alive : Bool
  deriving DecidableEq

end AnchorSet

structure AnchorSet where
  entries : List AnchorSet.Entry
  freeSlots : List Nat
  nextVersion : Nat
  deriving DecidableEq

namespace AnchorSet

def empty : AnchorSet := { entries := [], freeSlots := [], nextVersion := 1 }

def kDefaultPolicy : AnchorPolicy := { gravity := .right, insideDelete := .clamp }

/-- The versions are 32 bits wide and skip 0 when they wrap around. -/
def bumpVersion (version : Nat) : Nat :=
  if (version + 1) % 2 ^ 32 = 0 then 1 else (version + 1) % 2 ^ 32

def create (anchors : AnchorSet) (offset : Nat) (policy : AnchorPolicy) : AnchorId × AnchorSet :=
  let version := anchors.nextVersion
  let nextVersion := bumpVersion version
  let entry : Entry :=
    { offset := offset, policy := policy, version := version, occupied := true, alive := true }
  match anchors.freeSlots.getLast? with
  | some index =>
      ({ index := index, version := version },
        { entries := anchors.entries.set index entry
          freeSlots := anchors.freeSlots.dropLast
          nextVersion := nextVersion })
  | none =>
      ({ index := anchors.entries.length % 2 ^ 32, version := version },
        { entries := anchors.entries ++ [entry]
          freeSlots := anchors.freeSlots
          nextVersion := nextVersion })

/-- The entry a handle still names. -/
def find (anchors : AnchorSet) (id : AnchorId) : Option Entry :=
  if id.version = 0 then
    none
  else
    match anchors.entries[id.index]? with
    | none => none
    | some entry => if !entry.occupied || entry.version ≠ id.version then none else some entry

def destroy (anchors : AnchorSet) (id : AnchorId) : AnchorSet :=
  match anchors.find id with
  | none => anchors
  | some entry =>
      { anchors with
        entries := anchors.entries.set id.index
          { entry with occupied := false, alive := false, version := 0 }
        freeSlots := anchors.freeSlots ++ [id.index] }

def offset (anchors : AnchorSet) (id : AnchorId) : Option Nat :=
  match anchors.find id with
  | none => none
  | some entry => if entry.alive then some entry.offset else none

/-- One entry, carried through an edit. -/
def Entry.applyEdit (op : EditOp) (entry : Entry) : Entry :=
  if !entry.occupied || !entry.alive then
    entry
  else
    match relocateThrough entry.offset op entry.policy with
    | none => { entry with alive := false }
    | some relocated => { entry with offset := relocated }

def applyEdit (anchors : AnchorSet) (offset oldLength newLength : Nat) : AnchorSet :=
  if oldLength = 0 ∧ newLength = 0 then
    anchors
  else
    let op := EditOp.replaced 0 offset oldLength newLength
    { anchors with entries := anchors.entries.map (Entry.applyEdit op) }

def applyBarrier (anchors : AnchorSet) : AnchorSet :=
  { anchors with entries := anchors.entries.map fun entry => { entry with alive := false } }

def liveCount (anchors : AnchorSet) : Nat :=
  anchors.entries.countP fun entry => entry.occupied && entry.alive

end AnchorSet

end Ned.Text

/-!
## Tracking

What a buffer publishes about its changes: a generation, the edits behind it, and the anchors they
move. The three are advanced together.
-/

namespace Ned.Text

structure Tracking where
  contentGeneration : Nat
  edits : EditJournal
  anchors : AnchorSet
  deriving DecidableEq

namespace Tracking

def initial : Tracking := { contentGeneration := 0, edits := .empty, anchors := .empty }

variable (t : Tracking)

def commitInsert (offset length : Nat) : Tracking :=
  { contentGeneration := t.contentGeneration + 1
    edits := t.edits.record (.inserted (t.contentGeneration + 1) offset length)
    anchors := t.anchors.applyEdit offset 0 length }

def commitDelete (rangeStart rangeEnd : Nat) : Tracking :=
  { contentGeneration := t.contentGeneration + 1
    edits := t.edits.record (.deleted (t.contentGeneration + 1) rangeStart rangeEnd)
    anchors := t.anchors.applyEdit rangeStart (rangeEnd - rangeStart) 0 }

def commitReplace (offset oldLength newLength : Nat) : Tracking :=
  { contentGeneration := t.contentGeneration + 1
    edits := t.edits.record (.replaced (t.contentGeneration + 1) offset oldLength newLength)
    anchors := t.anchors.applyEdit offset oldLength newLength }

/-- What `CommitBarrier` does to the tracking. -/
def commitBarrier : Tracking :=
  { contentGeneration := t.contentGeneration + 1
    edits := t.edits.record (.barrierAt (t.contentGeneration + 1))
    anchors := t.anchors.applyBarrier }

def createAnchor (offset : Nat) (policy : AnchorPolicy) : AnchorId × Tracking :=
  let (id, anchors) := t.anchors.create offset policy
  (id, { t with anchors := anchors })

def destroyAnchor (id : AnchorId) : Tracking := { t with anchors := t.anchors.destroy id }

def anchorOffset (id : AnchorId) : Option Nat := t.anchors.offset id

/-! ## Commits -/

/-- A change of content, as the journal and the anchors see it. -/
inductive Commit where
  | replace (offset oldLength newLength : Nat)
  | barrier
  deriving DecidableEq

def Commit.op (generation : Nat) : Commit → EditOp
  | .replace offset oldLength newLength => .replaced generation offset oldLength newLength
  | .barrier => .barrierAt generation

def commit : Commit → Tracking
  | .replace offset oldLength newLength => t.commitReplace offset oldLength newLength
  | .barrier => t.commitBarrier

end Tracking

end Ned.Text
