import Ned.Text.Buffer

/-!
# Project-wide undo

The stacks of edits that touched several files, as in `Editor/Project/Undo.cpp`, over the open
buffers. A file is named by its path, and an edit of it by two sequences of its undo tree.
-/

namespace Ned.Editor.Project

open Text

abbrev Path := String

/-- `path::filename`. -/
def filename (path : Path) : String := (path.splitOn "/").getLast?.getD ""

structure OpenFile where
  path : Option Path
  session : Session

def OpenFile.withBuffer (file : OpenFile) (buffer : Buffer) : OpenFile :=
  { file with session := { file.session with buffer := buffer } }

structure ProjectUndoRecord where
  path : Path
  beforeSequence : Nat := 0
  afterSequence : Nat := 0
  deriving DecidableEq

structure ProjectEditTransaction where
  description : String
  records : List ProjectUndoRecord
  deriving DecidableEq

structure ProjectUndoOutcome where
  description : String := ""
  totalCount : Nat := 0
  appliedCount : Nat := 0
  divergedNames : List String := []
  deriving DecidableEq

/-- The open buffers, and the two stacks with their tops first. -/
structure Workspace where
  files : List OpenFile := []
  undoStack : List ProjectEditTransaction := []
  redoStack : List ProjectEditTransaction := []

section

variable (p : Platform) (pathKey : Path → Path)

/-! ## Open buffers -/

/-- Where `FindByPath` finds a buffer; `pathKey` is what the file system makes of a path. -/
def findByPath (files : List OpenFile) (path : Path) : Option Nat :=
  files.findIdx? fun file => file.path.map pathKey == some (pathKey path)

/-- What a buffer that is opened starts from. -/
inductive Source where
  | content (storage : Storage)
  | placeholder (forceReadOnly : Bool)
  deriving DecidableEq

def Source.buffer (name : String) : Source → Buffer
  | .content storage => .ofStorage name storage
  | .placeholder forceReadOnly => .placeholder name forceReadOnly

/-- A file that is open already is not opened again. -/
def openFile (files : List OpenFile) (path : Option Path) (name : String) (source : Source) :
    List OpenFile :=
  if (path.bind (findByPath pathKey files)).isSome then files
  else files ++ [{ path := path, session := .ofBuffer (source.buffer name) }]

/-! ## Edits of several files -/

/-- An edit with its positions resolved to bytes. -/
structure ResolvedEdit where
  startByte : Nat
  byteLength : Nat
  newText : Bytes
  deriving DecidableEq

/-- The buffer after one edit, and whether the edit returned. -/
def applyEdit (buffer : Buffer) (edit : ResolvedEdit) : Option (Buffer × Bool) := do
  match ← buffer.deleteRange p edit.startByte edit.byteLength with
  | .error _ => some (buffer, false)
  | .ok (deleted, _) =>
      match ← deleted.insertAt p edit.startByte edit.newText with
      | .error _ => some (deleted, false)
      | .ok inserted => some (inserted, true)

def applyEdits : List ResolvedEdit → Buffer → Option (Buffer × Bool)
  | [], buffer => some (buffer, true)
  | edit :: edits, buffer => do
      let (buffer, returned) ← applyEdit p buffer edit
      if returned then applyEdits edits buffer else some (buffer, false)

/-- An edit that throws leaves the undo group open. -/
def applyWorkspaceTextEdits (buffer : Buffer) (edits : List ResolvedEdit) :
    Option (Buffer × Bool) := do
  let (buffer, returned) ← applyEdits p edits buffer.beginUndoGroup
  if returned then do
    let buffer ← buffer.endUndoGroup
    some (buffer, true)
  else some (buffer, false)

/-- The record of a file that has a path. -/
def recordOf (file : OpenFile) (beforeSequence afterSequence : Nat) : List ProjectUndoRecord :=
  (file.path.map fun path =>
    { path := path, beforeSequence := beforeSequence, afterSequence := afterSequence }).toList

/-- The files after the edits of each, and the records unless an edit threw. -/
def applyProjectEdit : List (Nat × List ResolvedEdit) → List OpenFile →
    Option (List OpenFile × Option (List ProjectUndoRecord))
  | [], files => some (files, some [])
  | (place, edits) :: rest, files => do
      let file ← files[place]?
      let beforeSequence ← file.session.buffer.undoTree.currentSequence
      let (buffer, returned) ← applyWorkspaceTextEdits p file.session.buffer edits
      let files := files.set place (file.withBuffer buffer)
      if returned then do
        let afterSequence ← buffer.undoTree.currentSequence
        let (files, records) ← applyProjectEdit rest files
        some (files, records.map (recordOf file beforeSequence afterSequence ++ ·))
      else some (files, none)

def Workspace.recordTransaction (workspace : Workspace) (transaction : ProjectEditTransaction) : Workspace :=
  if transaction.records.length < 2 then workspace
  else { workspace with undoStack := transaction :: workspace.undoStack, redoStack := [] }

/-! ## Undo and redo -/

/-- One record more that was not applied. -/
def ProjectUndoOutcome.diverge (outcome : ProjectUndoOutcome) (name : String) :
    ProjectUndoOutcome :=
  { outcome with divergedNames := outcome.divergedNames ++ [name] }

/-- One record taken from its `expected` sequence to its `target`. -/
def rollRecord (expected target : ProjectUndoRecord → Nat) (record : ProjectUndoRecord)
    (files : List OpenFile) (outcome : ProjectUndoOutcome) :
    Option (List OpenFile × ProjectUndoOutcome) :=
  match findByPath pathKey files record.path with
  | none => some (files, outcome.diverge (filename record.path))
  | some place => do
      let file ← files[place]?
      let current ← file.session.buffer.undoTree.currentSequence
      if current ≠ expected record then
        some (files, outcome.diverge file.session.buffer.name)
      else do
        let (buffer, moved) ← file.session.buffer.tryJumpToUndoSequence p (target record)
        let files := files.set place (file.withBuffer buffer)
        if moved then some (files, { outcome with appliedCount := outcome.appliedCount + 1 })
        else some (files, outcome.diverge buffer.name)

def rollRecords (expected target : ProjectUndoRecord → Nat) :
    List ProjectUndoRecord → List OpenFile → ProjectUndoOutcome →
      Option (List OpenFile × ProjectUndoOutcome)
  | [], files, outcome => some (files, outcome)
  | record :: records, files, outcome => do
      let (files, outcome) ← rollRecord p pathKey expected target record files outcome
      rollRecords expected target records files outcome

/-- What an outcome says before any record is rolled. -/
def ProjectEditTransaction.outcome (transaction : ProjectEditTransaction) : ProjectUndoOutcome :=
  { description := transaction.description, totalCount := transaction.records.length }

def Workspace.undo (workspace : Workspace) : Option (Workspace × ProjectUndoOutcome) :=
  match workspace.undoStack with
  | [] => some (workspace, {})
  | transaction :: undoStack => do
      let (files, outcome) ← rollRecords p pathKey (·.afterSequence) (·.beforeSequence)
        transaction.records workspace.files transaction.outcome
      some ({ files := files, undoStack := undoStack,
              redoStack := transaction :: workspace.redoStack }, outcome)

def Workspace.redo (workspace : Workspace) : Option (Workspace × ProjectUndoOutcome) :=
  match workspace.redoStack with
  | [] => some (workspace, {})
  | transaction :: redoStack => do
      let (files, outcome) ← rollRecords p pathKey (·.beforeSequence) (·.afterSequence)
        transaction.records workspace.files transaction.outcome
      some ({ files := files, undoStack := transaction :: workspace.undoStack,
              redoStack := redoStack }, outcome)

/-! ## Runs -/

inductive Event where
  | openFile (path : Option Path) (name : String) (source : Source)
  | closeFile (place : Nat)
  | operate (place : Nat) (operation : Operation)
  | projectEdit (description : String) (perBufferEdits : List (Nat × List ResolvedEdit))
  | undo
  | redo
  deriving DecidableEq

def Workspace.step (workspace : Workspace) : Event → Option Workspace
  | .openFile path name source =>
      some { workspace with files := Project.openFile pathKey workspace.files path name source }
  | .closeFile place => some { workspace with files := workspace.files.eraseIdx place }
  | .operate place operation => do
      let file ← workspace.files[place]?
      let session ← file.session.step p operation
      some { workspace with files := workspace.files.set place { file with session := session } }
  | .projectEdit description perBufferEdits => do
      let (files, records) ← applyProjectEdit p perBufferEdits workspace.files
      match records with
      | none => some { workspace with files := files }
      | some records =>
          some (Workspace.recordTransaction { workspace with files := files }
            { description := description, records := records })
  | .undo => (workspace.undo p pathKey).map (·.1)
  | .redo => (workspace.redo p pathKey).map (·.1)

end

/-!
## What project-wide undo may do

Beside a run, which undo tree each open buffer has and what every recorded transaction found and left
in its files. Nothing in the editor reads it: it says what a sequence number should stand for.
-/

/-- A file of a transaction: its undo tree, and its content before and after. -/
structure Held where
  tree : Nat
  before : Bytes
  after : Bytes
  deriving DecidableEq

structure Chronicle where
  trees : List Nat := []
  nextTree : Nat := 0
  undoStack : List (List Held) := []
  redoStack : List (List Held) := []
  deriving DecidableEq

structure Watched where
  workspace : Workspace := {}
  chronicle : Chronicle := {}

namespace OpenFile

variable (file : OpenFile)

def recording : UndoRecording := file.session.buffer.toUndoRecording

def content : Bytes := file.session.buffer.storage.bytes

/-- The content is the state of the current undo node. -/
def Settled : Prop :=
  ∃ state, file.recording.undoTree.currentState = some state ∧ state.bytes = file.content

instance : Decidable file.Settled :=
  decidable_of_iff (file.recording.undoTree.currentState.map (·.bytes) = some file.content)
    Option.map_eq_some_iff

end OpenFile

/-! ## Keeping the chronicle -/

namespace Chronicle

variable (chronicle : Chronicle)

/-- What is held of a place between two moments. -/
def held (files files' : List OpenFile) (place : Nat) : List Held :=
  ((do
    let file ← files[place]?
    let file' ← files'[place]?
    let tree ← chronicle.trees[place]?
    let _ ← file.path
    some { tree := tree, before := file.content, after := file'.content }) : Option Held).toList

def step (workspace workspace' : Workspace) : Event → Chronicle
  | .openFile .. =>
      if workspace'.files.length = workspace.files.length then chronicle
      else
        { chronicle with
          trees := chronicle.trees ++ [chronicle.nextTree]
          nextTree := chronicle.nextTree + 1 }
  | .closeFile place => { chronicle with trees := chronicle.trees.eraseIdx place }
  | .operate place operation =>
      if (workspace.files[place]?).any (·.session.replacesUndoTree operation) then
        { chronicle with
          trees := chronicle.trees.set place chronicle.nextTree
          nextTree := chronicle.nextTree + 1 }
      else chronicle
  | .projectEdit _ perBufferEdits =>
      if workspace'.undoStack.length = workspace.undoStack.length then chronicle
      else
        { chronicle with
          undoStack := (perBufferEdits.flatMap fun edits =>
            chronicle.held workspace.files workspace'.files edits.1) :: chronicle.undoStack
          redoStack := [] }
  | .undo =>
      match chronicle.undoStack with
      | [] => chronicle
      | helds :: undoStack =>
          { chronicle with undoStack := undoStack, redoStack := helds :: chronicle.redoStack }
  | .redo =>
      match chronicle.redoStack with
      | [] => chronicle
      | helds :: redoStack =>
          { chronicle with undoStack := helds :: chronicle.undoStack, redoStack := redoStack }

end Chronicle

section

variable (p : Platform) (pathKey : Path → Path)

def Watched.step (watched : Watched) (event : Event) : Option Watched := do
  let workspace ← watched.workspace.step p pathKey event
  some { workspace := workspace
         chronicle := watched.chronicle.step watched.workspace workspace event }

/-! ## What an undo or a redo may do -/

/-- The name a record that is not applied is listed under. -/
def recordName (files : List OpenFile) (record : ProjectUndoRecord) : String :=
  match (findByPath pathKey files record.path).bind fun place => files[place]? with
  | none => filename record.path
  | some file => file.session.buffer.name

/-- Each record in turn either takes a buffer, which has the undo tree it had, from exactly one of the
transaction's contents to the other, or leaves every buffer alone and is listed. -/
inductive Rolled (trees : List Nat) (source target : Held → Bytes) :
    List ProjectUndoRecord → List Held → List OpenFile → List OpenFile → List String → Prop
  | done {files : List OpenFile} : Rolled trees source target [] [] files files []
  | applied {record : ProjectUndoRecord} {records : List ProjectUndoRecord} {held : Held}
      {helds : List Held} {files files' : List OpenFile} {names : List String} {place : Nat}
      {file file' : OpenFile} (hplace : findByPath pathKey files record.path = some place)
      (hfile : files[place]? = some file) (hpath : file'.path = file.path)
      (htree : trees[place]? = some held.tree) (hsource : file.content = source held)
      (htarget : file'.content = target held)
      (hrest : Rolled trees source target records helds (files.set place file') files' names) :
      Rolled trees source target (record :: records) (held :: helds) files files' names
  | diverged {record : ProjectUndoRecord} {records : List ProjectUndoRecord} {held : Held}
      {helds : List Held} {files files' : List OpenFile} {names : List String}
      (hrest : Rolled trees source target records helds files files' names) :
      Rolled trees source target (record :: records) (held :: helds) files files'
        (recordName pathKey files record :: names)

/-- The transaction on top of a stack was rolled, if there is one. -/
def RollsTop (trees : List Nat) (source target : Held → Bytes)
    (transactions : List ProjectEditTransaction) (helds : List (List Held))
    (files files' : List OpenFile) (outcome : ProjectUndoOutcome) : Prop :=
  match transactions, helds with
  | [], [] => files' = files ∧ outcome = {}
  | transaction :: _, held :: _ =>
      Rolled pathKey trees source target transaction.records held files files'
          outcome.divergedNames ∧
        outcome.totalCount = transaction.records.length ∧
        outcome.appliedCount + outcome.divergedNames.length = outcome.totalCount
  | _, _ => False

/-- An undo and a redo only move files between the two contents of the transaction on top. -/
def OnlyRolls (watched : Watched) : Event → Prop
  | .undo => ∀ workspace' outcome, watched.workspace.undo p pathKey = some (workspace', outcome) →
      RollsTop pathKey watched.chronicle.trees (·.after) (·.before) watched.workspace.undoStack
        watched.chronicle.undoStack watched.workspace.files workspace'.files outcome
  | .redo => ∀ workspace' outcome, watched.workspace.redo p pathKey = some (workspace', outcome) →
      RollsTop pathKey watched.chronicle.trees (·.before) (·.after) watched.workspace.redoStack
        watched.chronicle.redoStack watched.workspace.files workspace'.files outcome
  | _ => True

/-! ## Where they do -/

/-- The records of some transactions, with what they hold. -/
def pairs (transactions : List ProjectEditTransaction) (helds : List (List Held)) :
    List (ProjectUndoRecord × Held) :=
  (transactions.zip helds).flatMap fun pair => pair.1.records.zip pair.2

def Watched.pending (watched : Watched) : List (ProjectUndoRecord × Held) :=
  pairs watched.workspace.undoStack watched.chronicle.undoStack ++
    pairs watched.workspace.redoStack watched.chronicle.redoStack

/-- A buffer that the record's sequences fit is settled, and has the undo tree of the record. -/
def Recognised (files : List OpenFile) (trees : List Nat)
    (expected target : ProjectUndoRecord → Nat) (record : ProjectUndoRecord) (held : Held) : Prop :=
  ∀ place file, findByPath pathKey files record.path = some place → files[place]? = some file →
    file.recording.undoTree.currentSequence = some (expected record) →
    file.recording.undoTree.hasSequence (target record) = true →
    trees[place]? = some held.tree ∧ file.Settled

instance (files : List OpenFile) (trees : List Nat) (expected target : ProjectUndoRecord → Nat)
    (record : ProjectUndoRecord) (held : Held) :
    Decidable (Recognised pathKey files trees expected target record held) :=
  decidable_of_iff (∀ place ∈ findByPath pathKey files record.path, ∀ file ∈ files[place]?,
      file.recording.undoTree.currentSequence = some (expected record) →
      file.recording.undoTree.hasSequence (target record) = true →
      trees[place]? = some held.tree ∧ file.Settled)
    ⟨fun h place file hplace hfile => h place hplace file hfile,
      fun h place hplace file hfile => h place file hplace hfile⟩

/-- A transaction edits no file twice, and only files that have no undo group open. -/
def EditsClosed (files : List OpenFile) (perBufferEdits : List (Nat × List ResolvedEdit)) : Prop :=
  (perBufferEdits.map (·.1)).Nodup ∧ ∀ edits ∈ perBufferEdits, ∀ file,
    files[edits.1]? = some file → file.Settled ∧ file.recording.undoGroupDepth = 0 ∧
      file.recording.undoGroupDirty = false

instance (files : List OpenFile) (perBufferEdits : List (Nat × List ResolvedEdit)) :
    Decidable (EditsClosed files perBufferEdits) :=
  inferInstanceAs (Decidable ((perBufferEdits.map (·.1)).Nodup ∧ ∀ edits ∈ perBufferEdits,
    ∀ file ∈ files[edits.1]?, file.Settled ∧ file.recording.undoGroupDepth = 0 ∧
      file.recording.undoGroupDirty = false))

/-- No operation is amended into the node of a transaction that left the file as it was. -/
def AmendsNone (watched : Watched) (place : Nat) (operation : Operation) : Prop :=
  ∀ file, watched.workspace.files[place]? = some file → file.session.mayAmend operation = true →
    ∀ pair ∈ watched.pending, watched.chronicle.trees[place]? = some pair.2.tree →
      pair.1.beforeSequence = pair.1.afterSequence →
      file.recording.undoTree.currentSequence ≠ some pair.1.beforeSequence

instance (watched : Watched) (place : Nat) (operation : Operation) :
    Decidable (AmendsNone watched place operation) :=
  inferInstanceAs (Decidable (∀ file ∈ watched.workspace.files[place]?,
    file.session.mayAmend operation = true → ∀ pair ∈ watched.pending,
      watched.chronicle.trees[place]? = some pair.2.tree →
      pair.1.beforeSequence = pair.1.afterSequence →
      file.recording.undoTree.currentSequence ≠ some pair.1.beforeSequence))

def Allowed (watched : Watched) : Event → Prop
  | .operate place operation => AmendsNone watched place operation
  | .projectEdit _ perBufferEdits => EditsClosed watched.workspace.files perBufferEdits
  | .undo => ∀ pair ∈ pairs (watched.workspace.undoStack.take 1) watched.chronicle.undoStack,
      Recognised pathKey watched.workspace.files watched.chronicle.trees (·.afterSequence)
        (·.beforeSequence) pair.1 pair.2
  | .redo => ∀ pair ∈ pairs (watched.workspace.redoStack.take 1) watched.chronicle.redoStack,
      Recognised pathKey watched.workspace.files watched.chronicle.trees (·.beforeSequence)
        (·.afterSequence) pair.1 pair.2
  | .openFile .. => True
  | .closeFile .. => True

instance (watched : Watched) : (event : Event) → Decidable (Allowed pathKey watched event)
  | .openFile .. => inferInstanceAs (Decidable True)
  | .closeFile .. => inferInstanceAs (Decidable True)
  | .operate place operation => inferInstanceAs (Decidable (AmendsNone watched place operation))
  | .projectEdit _ perBufferEdits =>
      inferInstanceAs (Decidable (EditsClosed watched.workspace.files perBufferEdits))
  | .undo => inferInstanceAs (Decidable (∀ pair ∈
      pairs (watched.workspace.undoStack.take 1) watched.chronicle.undoStack,
      Recognised pathKey watched.workspace.files watched.chronicle.trees (·.afterSequence)
        (·.beforeSequence) pair.1 pair.2))
  | .redo => inferInstanceAs (Decidable (∀ pair ∈
      pairs (watched.workspace.redoStack.take 1) watched.chronicle.redoStack,
      Recognised pathKey watched.workspace.files watched.chronicle.trees (·.beforeSequence)
        (·.afterSequence) pair.1 pair.2))

end

end Ned.Editor.Project
