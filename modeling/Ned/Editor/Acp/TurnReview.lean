import Ned.Library.Assoc
import Ned.Text.LineDiff

/-!
# Reviewing a turn

The changes of an agent turn to one file as hunks, as in `Editor/Acp/TurnReview.cpp`. A hunk is
found again by its lines and the unchanged ones around it, and undone where it is found. `none`
stands for a read out of bounds.
-/

namespace Ned.Editor.Acp

open Library Text

/-- A file's text, or its absence. -/
structure FileState where
  exists' : Bool := false
  text : Bytes := []
  deriving DecidableEq

/-- A file before the turn and, once that has ended, after it. -/
structure TurnFile where
  name : String
  before : FileState
  after : Option FileState
  deriving DecidableEq

structure ReviewHunk where
  fileIndex : Nat := 0
  oldStart : Nat := 0
  newStart : Nat := 0
  contextBefore : List Line := []
  oldLines : List Line := []
  newLines : List Line := []
  contextAfter : List Line := []
  created : Bool := false
  deleted : Bool := false
  deriving DecidableEq

def kReviewContextLines : Nat := 3

inductive HunkState where
  | applied
  | undone
  | changed
  deriving DecidableEq

/-! ## Lines -/

def join (lines : List Line) : Bytes := lines.flatten

def slice (lines : List Line) (start stop : Nat) : Option (List Line) :=
  if start ≤ stop ∧ stop ≤ lines.length then
    some ((lines.take stop).drop start)
  else
    none

/-- The best place so far with its distance, and the place at `start` if the pattern is there. -/
def nearer (lines pattern : List Line) (beforeCount expected : Nat) (best : Option (Nat × Nat))
    (start : Nat) : Option (Nat × Nat) :=
  if (lines.drop start).take pattern.length = pattern then
    let at' := start + beforeCount
    let distance := if at' > expected then at' - expected else expected - at'
    match best with
    | none => some (at', distance)
    | some (place, bestDistance) =>
        if distance < bestDistance then some (at', distance) else some (place, bestDistance)
  else
    best

/-- Where `middle` sits between `before` and `after`, nearest `expected`. -/
def find (lines before middle after : List Line) (expected : Nat) : Option Nat :=
  let pattern := before ++ middle ++ after
  if pattern.isEmpty then
    if lines.isEmpty then some 0 else none
  else if pattern.length > lines.length then
    none
  else
    ((List.range (lines.length - pattern.length + 1)).foldl
      (nearer lines pattern before.length expected) none).map Prod.fst

/-! ## The hunks of a turn -/

/-- The last hunk that joins the one before it, and the hunks behind it. The hunks are increasing,
so that the difference is one of natural numbers. -/
def lastOfGroup (last : LineDiffHunk) : List LineDiffHunk → LineDiffHunk × List LineDiffHunk
  | [] => (last, [])
  | next :: raw =>
      if next.aStart - (last.aStart + last.aCount) ≤ 2 * kReviewContextLines then
        lastOfGroup next raw
      else
        (last, next :: raw)

/-- One hunk from the raw ones between two of them. -/
def reviewHunk (a b : List Line) (fileIndex : Nat) (first last : LineDiffHunk) :
    Option ReviewHunk := do
  let aEnd := last.aStart + last.aCount
  let bEnd := last.bStart + last.bCount
  let contextBefore ← slice b (first.bStart - min first.bStart kReviewContextLines) first.bStart
  let oldLines ← slice a first.aStart aEnd
  let newLines ← slice b first.bStart bEnd
  let contextAfter ← slice b bEnd (min b.length (bEnd + kReviewContextLines))
  some { fileIndex := fileIndex, oldStart := first.aStart, newStart := first.bStart,
         contextBefore := contextBefore, oldLines := oldLines, newLines := newLines,
         contextAfter := contextAfter }

/-- The loop over the raw hunks. Each turn of it takes at least one. -/
def groupHunks (a b : List Line) (fileIndex : Nat) :
    Nat → List LineDiffHunk → Option (List ReviewHunk)
  | _, [] => some []
  | 0, _ :: _ => none
  | fuel + 1, first :: raw => do
      let (last, rest) := lastOfGroup first raw
      let hunk ← reviewHunk a b fileIndex first last
      let hunks ← groupHunks a b fileIndex fuel rest
      some (hunk :: hunks)

def turnHunks (file : TurnFile) (fileIndex : Nat) : Option (List ReviewHunk) :=
  match file.after with
  | none => some []
  | some after =>
      if !file.before.exists' && !after.exists' then
        some []
      else if !file.before.exists' then
        some [{ fileIndex := fileIndex, newLines := splitLines after.text, created := true }]
      else if !after.exists' then
        some [{ fileIndex := fileIndex, oldLines := splitLines file.before.text, deleted := true }]
      else do
        let a := splitLines file.before.text
        let b := splitLines after.text
        let raw ← diffLines a b
        groupHunks a b fileIndex raw.length raw

/-! ## Finding and undoing a hunk -/

def locateHunk (current : FileState) (hunk : ReviewHunk) : Option Nat :=
  if hunk.created then
    if current.exists' && current.text == join hunk.newLines then some 0 else none
  else if hunk.deleted then
    if current.exists' then none else some 0
  else if !current.exists' then
    none
  else
    find (splitLines current.text) hunk.contextBefore hunk.newLines hunk.contextAfter hunk.newStart

def stateOf (current : FileState) (hunk : ReviewHunk) : HunkState :=
  if (locateHunk current hunk).isSome then
    .applied
  else if hunk.created then
    if current.exists' then .changed else .undone
  else if hunk.deleted then
    if current.exists' && current.text == join hunk.oldLines then .undone else .changed
  else if current.exists' && (find (splitLines current.text) hunk.contextBefore hunk.oldLines
      hunk.contextAfter hunk.newStart).isSome then
    .undone
  else
    .changed

def revertHunk (current : FileState) (hunk : ReviewHunk) : Option FileState :=
  match locateHunk current hunk with
  | none => none
  | some place =>
      if hunk.created then
        some {}
      else if hunk.deleted then
        some { exists' := true, text := join hunk.oldLines }
      else
        let lines := splitLines current.text
        some { exists' := true
               text := join (lines.take place ++ hunk.oldLines ++
                 lines.drop (place + hunk.newLines.length)) }

/-! ## Undoing a file -/

structure Undoing where
  state : FileState
  undone : Nat := 0
  stranded : Nat := 0
  deriving DecidableEq

def Undoing.undo (undoing : Undoing) (hunk : ReviewHunk) : Undoing :=
  if stateOf undoing.state hunk = .undone then
    undoing
  else
    match revertHunk undoing.state hunk with
    | some reverted => { undoing with state := reverted, undone := undoing.undone + 1 }
    | none => { undoing with stranded := undoing.stranded + 1 }

/-- The hunks of a file from the bottom up. The sort may leave equal ones in any order. -/
def undoOrder (s : KeySort) (hunks : List ReviewHunk) (fileIndex : Nat) : List ReviewHunk :=
  (s.sort ReviewHunk.newStart (hunks.filter fun hunk => hunk.fileIndex == fileIndex)).reverse

def undoLoop (order : List ReviewHunk) (current : FileState) : Undoing :=
  order.foldl Undoing.undo { state := current }

structure ReviewSession where
  files : List TurnFile
  hunks : List ReviewHunk
  kept : List Bool
  deriving DecidableEq

/-- The hunks of all files, the first of which has the index `fileIndex`. -/
def sessionHunks : Nat → List TurnFile → Option (List ReviewHunk)
  | _, [] => some []
  | fileIndex, file :: files => do
      let hunks ← turnHunks file fileIndex
      let rest ← sessionHunks (fileIndex + 1) files
      some (hunks ++ rest)

def makeReviewSession (files : List TurnFile) : Option ReviewSession := do
  let hunks ← sessionHunks 0 files
  some { files := files, hunks := hunks, kept := hunks.map fun _ => false }

/-- The message of an undo, the state it has written if any, and the session. `read` and `write`
are what the editor does with a file's text, and the latter may fail with a message of its own. -/
structure UndoOutcome where
  message : String
  written : Option FileState := none
  session : ReviewSession

def undoFile (s : KeySort) (read : Nat → Option FileState) (write : Nat → FileState → Option String)
    (session : ReviewSession) (index : Nat) : Option UndoOutcome :=
  match session.hunks[index]? with
  | none => some { message := "No change here.", session := session }
  | some hunk => do
      let file ← session.files[hunk.fileIndex]?
      let fileIndex := hunk.fileIndex
      match read fileIndex with
      | none => some { message := "Can't read " ++ file.name ++ ".", session := session }
      | some current =>
          let undoing := undoLoop (undoOrder s session.hunks fileIndex) current
          if undoing.stranded > 0 then
            some { message := toString undoing.stranded ++ " of " ++ file.name ++
                     "'s changes have changed since the turn; undo the others one at a time."
                   session := session }
          else if undoing.undone = 0 then
            some { message := "Nothing left to undo in " ++ file.name ++ ".", session := session }
          else
            match write fileIndex undoing.state with
            | some error => some { message := error, session := session }
            | none =>
                let kept := (session.hunks.zip session.kept).map fun (other, keep) =>
                  if other.fileIndex = fileIndex then false else keep
                some { message := "Undid " ++ toString undoing.undone ++
                         (if undoing.undone = 1 then " change" else " changes") ++ " in " ++
                         file.name ++ "."
                       written := some undoing.state
                       session := { session with kept := kept } }

end Ned.Editor.Acp
