import Ned.Library.Ranges
import Ned.Library.Strides
import Ned.Text.Buffer
import Ned.Text.Storage
import Mathlib.Data.List.Sort

/-!
# Positions

Byte offsets and the protocol's positions, a line and the UTF-16 code units before the position on
it. Conversions over a storage decode each codepoint, those over a flat string go by its lead byte.
A loop that never ends and a read outside the text are `none`.
-/

namespace Ned.Editor.Lsp

open Text Library

structure Position where
  line : Nat := 0
  character : Nat := 0
  deriving DecidableEq

/-- `[start, stop)` in positions. -/
structure Range where
  start : Position
  stop : Position
  deriving DecidableEq

/-! ## Over a storage -/

def lineByteRangeEnd (content : Storage) (line : Nat) : Nat :=
  if line + 1 < content.lineCount then content.lineToByteOffset (line + 1) else content.byteLength

def utf16Units (codepoint : UInt32) : Nat := if codepoint > 0xFFFF then 2 else 1

/-- The codepoint under a cursor. -/
def storageStride (content : Storage) (cursor : Nat) : Option Stride :=
  (content.codepointAt cursor).map fun decoded =>
    { length := decoded.byteLength, width := utf16Units decoded.codepoint }

def bytePositionToLsp (content : Storage) (byteOffset : Nat) : Option Position :=
  let line := content.byteOffsetToLine byteOffset
  let lineStart := content.lineToByteOffset line
  (walk (storageStride content) (fun mark => mark.offset < byteOffset) (content.byteLength + 1)
    { offset := lineStart, measure := 0 }).map fun mark =>
      { line := line, character := mark.measure }

def positionToByte (content : Storage) (position : Position) : Option Nat :=
  let lineStart := content.lineToByteOffset position.line
  let lineEndExclusive := lineByteRangeEnd content position.line
  (walk (storageStride content)
    (fun mark => mark.offset < lineEndExclusive && mark.measure < position.character)
    (content.byteLength + 1) { offset := lineStart, measure := 0 }).map Mark.offset

/-! ## Over a flat string -/

/-- The length of a sequence, as its lead byte has it. -/
def leadLength (lead : UInt8) : Nat :=
  if lead &&& 0x80 == 0x00 then 1
  else if lead &&& 0xE0 == 0xC0 then 2
  else if lead &&& 0xF0 == 0xE0 then 3
  else if lead &&& 0xF8 == 0xF0 then 4
  else 1

def stepUtf8 (content : Bytes) (offset : Nat) : Option Stride := do
  let lead ← content[offset]?
  let length := min (leadLength lead) (content.length - offset)
  some { length := length, width := if length = 4 then 2 else 1 }

/-- The loop of `ByteRangeToLspRange`. -/
structure RangeScan where
  line : Nat := 0
  utf16 : Nat := 0
  cursor : Nat := 0
  start : Position := {}
  deriving DecidableEq

def RangeScan.position (scan : RangeScan) : Position :=
  { line := scan.line, character := scan.utf16 }

/-- The start of the range is noted where the cursor meets it. -/
def RangeScan.noteStart (startByte : Nat) (scan : RangeScan) : RangeScan :=
  if scan.cursor = startByte then { scan with start := scan.position } else scan

def RangeScan.advance (content : Bytes) (scan : RangeScan) : Option RangeScan := do
  let c ← content[scan.cursor]?
  if c = newline then
    some { scan with line := scan.line + 1, utf16 := 0, cursor := scan.cursor + 1 }
  else do
    let step ← stepUtf8 content scan.cursor
    some { scan with utf16 := scan.utf16 + step.width, cursor := scan.cursor + step.length }

def scanRange (content : Bytes) (startByte endByte : Nat) : Nat → RangeScan → Option RangeScan
  | 0, _ => none
  | fuel + 1, scan =>
      if scan.cursor < endByte then
        ((scan.noteStart startByte).advance content).bind (scanRange content startByte endByte fuel)
      else some scan

def byteRangeToLspRange (content : Bytes) (startByte endByte : Nat) : Option Range :=
  (scanRange content startByte endByte (content.length + 1) {}).map fun scan =>
    { start := (scan.noteStart startByte).start, stop := scan.position }

/-- `content.find('\n', cursor)`. -/
def findNewline (content : Bytes) (cursor : Nat) : Option Nat :=
  ((content.drop cursor).findIdx? isNewline).map (cursor + ·)

/-- The loop over the lines before a position, `none` when the text has too few. -/
def lineCursor (content : Bytes) : Nat → Nat → Option Nat
  | 0, cursor => some cursor
  | lines + 1, cursor =>
      if cursor < content.length then
        (findNewline content cursor).bind fun newline => lineCursor content lines (newline + 1)
      else some cursor

/-- `PositionToByte` over a flat string. -/
def positionToByteFlat (content : Bytes) (position : Position) : Option Nat :=
  match lineCursor content position.line 0 with
  | none => some content.length
  | some cursor =>
      (walk (stepUtf8 content)
        (fun mark => mark.offset < content.length && content[mark.offset]? != some newline &&
          mark.measure < position.character)
        (content.length + 1) { offset := cursor, measure := 0 }).map Mark.offset

/-!
## Applying edits

A server's list of edits, resolved against the content as it is, sorted from the back and applied one
after the other as one step of undo. Offsets are `size_t`, and wrap.
-/

structure WorkspaceTextEdit where
  start : Position
  stop : Position
  newText : Bytes
  deriving DecidableEq

structure ResolvedEdit where
  startByte : Nat
  endByte : Nat
  newText : Bytes
  deriving DecidableEq

def WorkspaceTextEdit.resolve (content : Storage) (edit : WorkspaceTextEdit) :
    Option ResolvedEdit := do
  let startByte ← positionToByte content edit.start
  let endByte ← positionToByte content edit.stop
  some { startByte := startByte, endByte := endByte, newText := edit.newText }

namespace ResolvedEdit

/-- `endByte - startByte`. -/
def byteLength (edit : ResolvedEdit) : Nat :=
  (edit.endByte + (sizeMax + 1) - edit.startByte) % (sizeMax + 1)

def relocateAnchor (edit : ResolvedEdit) (anchorByte : Nat) : Nat :=
  if edit.endByte ≤ anchorByte then
    ((anchorByte + (sizeMax + 1) - edit.byteLength) % (sizeMax + 1) + edit.newText.length) %
      (sizeMax + 1)
  else if edit.startByte < anchorByte then edit.startByte
  else anchorByte

/-- `DeleteRange`, then `InsertAt`. -/
def apply (p : Platform) (edit : ResolvedEdit) (b : Buffer) : Option (Except String Buffer) := do
  match ← b.deleteRange p edit.startByte edit.byteLength with
  | .error message => some (.error message)
  | .ok (b, _) => b.insertAt p edit.startByte edit.newText

end ResolvedEdit

/-- The loop over the sorted edits. -/
def applyResolved (p : Platform) : List ResolvedEdit → Buffer → Nat →
    Option (Except String (Buffer × Nat))
  | [], b, anchorByte => some (.ok (b, anchorByte))
  | edit :: edits, b, anchorByte => do
      match ← edit.apply p b with
      | .error message => some (.error message)
      | .ok b => applyResolved p edits b (edit.relocateAnchor anchorByte)

/-- Descending by start, in any order where the starts are the same. -/
def sortDescending (p : Platform) (content : Storage) (resolved : List ResolvedEdit) :
    List ResolvedEdit :=
  p.keySort.sort (fun edit => content.byteLength - edit.startByte) resolved

def applyWorkspaceTextEditsAndRelocate (p : Platform) (b : Buffer) (edits : List WorkspaceTextEdit)
    (anchorByte : Nat) : Option (Except String (Buffer × Nat)) := do
  let resolved ← edits.mapM (WorkspaceTextEdit.resolve b.storage)
  match ← applyResolved p (sortDescending p b.storage resolved) b.beginUndoGroup anchorByte with
  | .error message => some (.error message)
  | .ok (b, anchorByte) => do
      let b ← b.endUndoGroup
      some (.ok (b, anchorByte))

/-!
## Embedded documents

A document for each language that a text embeds: the text with everything outside the language's own ranges
padded with whitespace of the same width.
-/

structure InjectionRegion where
  startByte : Nat
  endByte : Nat
  language : Bytes
  deriving DecidableEq

structure EmbeddedDocument where
  language : Bytes
  documentText : Bytes
  ownedRanges : List (Nat × Nat)
  deriving DecidableEq

/-! ## Padding -/

def kFiller1 : Bytes := [0x20]

def kFiller2 : Bytes := [0xC2, 0xA0]

def kFiller3 : Bytes := [0xE3, 0x80, 0x80]

/-- Two no-break spaces, which have two UTF-16 units. -/
def kFiller4 : Bytes := [0xC2, 0xA0, 0xC2, 0xA0]

def fillerForByteLength (byteLength : Nat) : Bytes :=
  match byteLength with
  | 1 => kFiller1
  | 2 => kFiller2
  | 3 => kFiller3
  | _ => kFiller4

/-- Looks at the last range that starts by an offset, which `upper_bound` finds. -/
def byteInRanges (offset : Nat) (ranges : List (Nat × Nat)) : Bool :=
  match (ranges.takeWhile fun range => range.1 ≤ offset).getLast? with
  | none => false
  | some previous => previous.1 ≤ offset && offset < previous.2

/-- What stands in a document for one codepoint. -/
def padded (bufferText : Bytes) (ranges : List (Nat × Nat)) (offset : Nat) (decoded : DecodedCodepoint) : Bytes :=
  if decoded.codepoint = newline.toUInt32 || byteInRanges offset ranges then
    substr bufferText offset decoded.byteLength
  else
    fillerForByteLength decoded.byteLength

/-- The loop over the codepoints, which is `none` when its fuel runs out. -/
def padFrom (hostRope : Storage) (ranges : List (Nat × Nat)) : Nat → Nat → Option Bytes
  | 0, _ => none
  | fuel + 1, offset =>
      if offset < hostRope.byteLength then do
        let decoded ← hostRope.codepointAt offset
        let rest ← padFrom hostRope ranges fuel (offset + decoded.byteLength)
        some (padded hostRope.bytes ranges offset decoded ++ rest)
      else
        some []

/-! ## Ranges -/

/-- The order of pairs. -/
def RangeLe (a b : Nat × Nat) : Prop := a.1 < b.1 ∨ a.1 = b.1 ∧ a.2 ≤ b.2

instance : DecidableRel RangeLe := fun _ _ => inferInstanceAs (Decidable (_ ∨ _))

/-- `byLanguage[region.language].emplace_back`. A new language comes last: the map has an order of its own. -/
def emplaceBack (region : InjectionRegion) :
    List (Bytes × List (Nat × Nat)) → List (Bytes × List (Nat × Nat))
  | [] => [(region.language, [(region.startByte, region.endByte)])]
  | (language, ranges) :: byLanguage =>
      if language = region.language then
        (language, ranges ++ [(region.startByte, region.endByte)]) :: byLanguage
      else
        (language, ranges) :: emplaceBack region byLanguage

def groupRangesByLanguage (regions : List InjectionRegion) : List (Bytes × List (Nat × Nat)) :=
  (regions.foldl (fun byLanguage region => emplaceBack region byLanguage) []).map fun group =>
    (group.1, mergeTouching (group.2.insertionSort RangeLe))

def buildInjectedDocuments (regions : List InjectionRegion) (bufferText : Bytes) :
    Option (List EmbeddedDocument) :=
  if regions.isEmpty then
    some []
  else do
    let hostRope ← Storage.ofText bufferText
    (groupRangesByLanguage regions).mapM fun group => do
      let documentText ← padFrom hostRope group.2 (bufferText.length + 1) 0
      some { language := group.1, documentText := documentText, ownedRanges := group.2 }

end Ned.Editor.Lsp
