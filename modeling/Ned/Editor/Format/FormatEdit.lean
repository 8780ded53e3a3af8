import Ned.Text.Buffer
import Ned.Text.Bytes
import Mathlib.Algebra.Ring.Int.Defs
import Mathlib.Data.Int.Order.Basic

/-!
# Indentation

The part of `Editor/Indent.cpp` that writes the indentation of a line, and that of
`Editor/FormatEdit.cpp` that reads it.
-/

namespace Ned.Editor.Format

open Text

/-- Of the style only what `IndentString` reads. -/
structure IndentStyle where
  useTabs : Bool := false
  width : Int := 4
  deriving DecidableEq

def space : UInt8 := 32

def tab : UInt8 := 9

/-- A C++ `int` after an operation on it, wrapped round. -/
def toInt32 (x : Int) : Int := (x + 2 ^ 31) % 2 ^ 32 - 2 ^ 31

def indentString (column : Int) (style : IndentStyle) : Bytes :=
  if column ≤ 0 then []
  else if style.useTabs then
    let width := (max 1 style.width).toNat
    List.replicate (column.toNat / width) tab ++ List.replicate (column.toNat % width) space
  else List.replicate column.toNat space

def isBlank (c : UInt8) : Bool := c == space || c == tab

/-- The offset behind the last newline before an offset. -/
def lineStartOf (text : Bytes) (offset : Nat) : Nat :=
  (text.take offset).length - ((text.take offset).reverse.takeWhile fun c => !isNewline c).length

def lineIndentOf (text : Bytes) (offset : Nat) : Bytes :=
  (text.drop (lineStartOf text offset)).takeWhile isBlank

theorem isBlank_of_mem_indentString {column : Int} {style : IndentStyle} {c : UInt8}
    (h : c ∈ indentString column style) : isBlank c = true := by
  unfold indentString at h
  split at h
  · cases h
  · split at h
    · rcases List.mem_append.1 h with h | h
      · rw [(List.mem_replicate.1 h).2]
        rfl
      · rw [(List.mem_replicate.1 h).2]
        rfl
    · rw [(List.mem_replicate.1 h).2]
      rfl

/-!
## Format edits

What a formatting pass computes: ranges of the text and what is to stand there. One applier edits a
buffer from the back, the other copies a text from the front. Offsets are `size_t`, and wrap.
-/

/-- `[start, stop)` of the text, replaced by `text`. -/
structure FormatTextEdit where
  start : Nat
  stop : Nat
  text : Bytes
  deriving DecidableEq

/-- Unsigned subtraction. -/
def sizeSub (x y : Nat) : Nat := (x + (sizeMax + 1) - y) % (sizeMax + 1)

/-- Both appliers sort by the start alone. -/
def sortEdits (p : Platform) (edits : List FormatTextEdit) : List FormatTextEdit :=
  p.keySort.sort (·.start) edits

/-- `DeleteRange`, then `InsertAt`. -/
def FormatTextEdit.apply (p : Platform) (edit : FormatTextEdit) (b : Buffer) :
    Option (Except String Buffer) := do
  match ← b.deleteRange p edit.start (sizeSub edit.stop edit.start) with
  | .error message => some (.error message)
  | .ok (b, _) => b.insertAt p edit.start edit.text

/-- The loop, with the last edit first. -/
def applyEach (p : Platform) : List FormatTextEdit → Buffer → Option (Except String Buffer)
  | [], b => some (.ok b)
  | edit :: edits, b => do
      match ← edit.apply p b with
      | .error message => some (.error message)
      | .ok b => applyEach p edits b

def applyFormatTextEdits (p : Platform) (b : Buffer) (edits : List FormatTextEdit) :
    Option (Except String Buffer) :=
  if edits.isEmpty then
    some (.ok b)
  else do
    match ← applyEach p (sortEdits p edits).reverse b.beginUndoGroup with
    | .error message => some (.error message)
    | .ok b => do
        let b ← b.endUndoGroup
        some (.ok b)

/-- `result.append(text, at, count)`, which throws behind the end of the text. -/
def append (result text : Bytes) («at» count : Nat) : Option Bytes :=
  if «at» > text.length then none else some (result ++ (text.drop «at»).take count)

/-- Copies what lies between the edits; what lies before `copied` is done. -/
def copyEach (text : Bytes) : List FormatTextEdit → Bytes → Nat → Option Bytes
  | [], result, copied => append result text copied sizeMax
  | edit :: edits, result, copied => do
      let result ← append result text copied (sizeSub edit.start copied)
      copyEach text edits (result ++ edit.text) edit.stop

def applyFormatTextEditsToText (p : Platform) (text : Bytes) (edits : List FormatTextEdit) :
    Option Bytes :=
  copyEach text (sortEdits p edits) [] 0

/-!
## Wrapping lists

The pass of `Editor/FormatWrap.cpp`, which puts the items of a list on one line or on a line each.
What a query captures and what is configured for it are given.
-/

/-- Of a capture what the pass reads. An item is `[start, stop)` of the text. -/
structure FormatCapture where
  name : String
  startByte : Nat
  endByte : Nat
  openLength : Nat := 1
  closeLength : Nat := 1
  items : List (Nat × Nat) := []
  deriving DecidableEq

inductive WrapPolicy
  | never
  | always
  deriving DecidableEq

structure WrapRuleValue where
  policy : Option WrapPolicy := none
  forceTrailingComma : Option Bool := none

def comma : UInt8 := 44

def itemText (text : Bytes) (item : Nat × Nat) : Bytes := substr text item.1 (item.2 - item.1)

/-- The items from one on, with a separator before each but the first. -/
def collapsedFrom (text : Bytes) (first : Bool) : List (Nat × Nat) → Bytes
  | [] => []
  | item :: items =>
      (if first then [] else [comma, space]) ++ itemText text item ++ collapsedFrom text false items

/-- Every item on the line of the header. -/
def collapsedInterior (text : Bytes) (items : List (Nat × Nat)) : Bytes :=
  collapsedFrom text true items

def choppedFrom (text itemIndent : Bytes) (forceTrailingComma : Bool) : List (Nat × Nat) → Bytes
  | [] => []
  | item :: items =>
      itemIndent ++ itemText text item ++
        (if !items.isEmpty || forceTrailingComma then [comma] else []) ++ [newline] ++
        choppedFrom text itemIndent forceTrailingComma items

/-- One item on each line, and the closer on its own. -/
def choppedInterior (text : Bytes) (items : List (Nat × Nat)) (headerIndent : Bytes)
    (forceTrailingComma : Bool) (style : IndentStyle) : Bytes :=
  let itemIndent := headerIndent ++ indentString style.width style
  newline :: choppedFrom text itemIndent forceTrailingComma items ++ headerIndent

def trailingCommaUnsafeForLanguage (languageKey captureName : String) : Bool :=
  languageKey == "cpp" && (captureName == "wrap.args" || captureName == "wrap.params")

namespace FormatCapture

def interiorStart (capture : FormatCapture) : Nat := capture.startByte + capture.openLength

def interiorEnd (capture : FormatCapture) : Nat := capture.endByte - capture.closeLength

end FormatCapture

variable (wrapRuleFor : String → String → WrapRuleValue)

/-- The edit of one capture. -/
def computeWrapEdit (text : Bytes) (languageKey : String) (style : IndentStyle)
    (capture : FormatCapture) : Option FormatTextEdit :=
  if capture.items.isEmpty then none
  else
    let rule := wrapRuleFor capture.name languageKey
    match rule.policy with
    | none => none
    | some policy =>
        let forceTrailingComma :=
          if trailingCommaUnsafeForLanguage languageKey capture.name then none
          else rule.forceTrailingComma
        if capture.startByte = 0 ∨ capture.startByte ≥ capture.endByte ∨
            capture.endByte > text.length then none
        else if capture.openLength = 0 ∨ capture.closeLength = 0 ∨
            capture.openLength + capture.closeLength > capture.endByte - capture.startByte then none
        else if capture.interiorStart > capture.interiorEnd then none
        else
          let desired :=
            match policy with
            | .never => collapsedInterior text capture.items
            | .always =>
                choppedInterior text capture.items (lineIndentOf text capture.startByte)
                  (forceTrailingComma.getD false) style
          let current :=
            substr text capture.interiorStart (capture.interiorEnd - capture.interiorStart)
          if current ≠ desired then
            some ⟨capture.interiorStart, capture.interiorEnd, desired⟩
          else none

def computeWrapEdits (text : Bytes) (languageKey : String) (captures : List FormatCapture)
    (style : IndentStyle) : List FormatTextEdit :=
  captures.filterMap (computeWrapEdit wrapRuleFor text languageKey style)

/-!
## Reindenting a huge file

The byte-at-a-time machine of `Editor/HugeFileReindent.cpp`, which sees the text once and in whatever
pieces its storage has.
-/

def kFlushThreshold : Nat := 256 * 1024

def backslash : UInt8 := 92

def isQuote (c : UInt8) : Bool := c == 34 || c == 39

def isOpener (c : UInt8) : Bool := c == 40 || c == 123 || c == 91

def isCloser (c : UInt8) : Bool := c == 41 || c == 125 || c == 93

structure HugeReindentOutcome where
  success : Bool
  linesChanged : Nat
  errorMessage : String

/-- The stream writes to `out`, and holds back in `outBuffer` what it has not flushed. -/
structure HugeReindentStream where
  out : Bytes
  lineCommentPrefix : Bytes
  style : IndentStyle
  outBuffer : Bytes := []
  recentBytes : Bytes := []
  originalIndent : Bytes := []
  depth : Int := 0
  linesChanged : Nat := 0
  atLineStart : Bool := true
  inLineComment : Bool := false
  inString : Bool := false
  escapeNext : Bool := false
  stringQuote : UInt8 := 0
  failed : Bool := false
  failureReason : String := ""

namespace HugeReindentStream

def flushBuffer (s : HugeReindentStream) : HugeReindentStream :=
  { s with out := s.out ++ s.outBuffer, outBuffer := [] }

def maybeFlush (s : HugeReindentStream) : HugeReindentStream :=
  if s.outBuffer.length ≥ kFlushThreshold then s.flushBuffer else s

def writeByte (s : HugeReindentStream) (c : UInt8) : HugeReindentStream :=
  maybeFlush { s with outBuffer := s.outBuffer ++ [c] }

def fail (s : HugeReindentStream) (reason : String) : HugeReindentStream :=
  { s with failed := true, failureReason := reason }

/-- The column is an `int`, as are the depth it is computed from and its product with the width. -/
def emitIndentForNewLine (s : HugeReindentStream) (firstByteIsCloser : Bool) : HugeReindentStream :=
  let lineStartDepth := s.depth - if firstByteIsCloser then 1 else 0
  let column := toInt32 (toInt32 (max 0 lineStartDepth) * s.style.width)
  let newIndent := indentString column s.style
  let s := if newIndent ≠ s.originalIndent then { s with linesChanged := s.linesChanged + 1 } else s
  { newIndent.foldl writeByte s with originalIndent := [] }

/-- The bytes of code, with the last of them held against the comment prefix. -/
def feedCode (s : HugeReindentStream) (c : UInt8) : HugeReindentStream :=
  let recent :=
    if s.lineCommentPrefix.isEmpty then s.recentBytes
    else
      let bytes := s.recentBytes ++ [c]
      bytes.drop (bytes.length - s.lineCommentPrefix.length)
  let s := { s with recentBytes := recent }
  if !s.lineCommentPrefix.isEmpty && recent == s.lineCommentPrefix then
    { s.writeByte c with inLineComment := true, recentBytes := [] }
  else if isQuote c then
    { s with inString := true, stringQuote := c }.writeByte c
  else if isOpener c then
    { s with depth := s.depth + 1 }.writeByte c
  else if isCloser c then
    let s := { s with depth := s.depth - 1 }.writeByte c
    if s.depth < 0 then s.fail "more closing delimiters than opening ones" else s
  else if c == newline then
    { s.writeByte c with atLineStart := true, recentBytes := [] }
  else s.writeByte c

def feed (s : HugeReindentStream) (c : UInt8) : HugeReindentStream :=
  if s.inLineComment then
    let s := s.writeByte c
    if c == newline then { s with inLineComment := false, atLineStart := true, recentBytes := [] }
    else s
  else if s.inString then
    let s := s.writeByte c
    if s.escapeNext then { s with escapeNext := false }
    else if c == backslash then { s with escapeNext := true }
    else if c == s.stringQuote then { s with inString := false }
    else s
  else if s.atLineStart then
    if isBlank c then { s with originalIndent := s.originalIndent ++ [c] }
    else if c == newline then { s.writeByte c with originalIndent := [] }
    else
      let s := s.emitIndentForNewLine (isCloser c)
      { s with atLineStart := false }.feedCode c
  else s.feedCode c

/-- One chunk. Nothing is fed any more after a failure. -/
def feedChunk (s : HugeReindentStream) (chunk : Bytes) : HugeReindentStream :=
  chunk.foldl (fun s c => if s.failed then s else s.feed c) s

def finish (s : HugeReindentStream) : HugeReindentOutcome × Bytes :=
  let s :=
    if s.failed then s
    else if s.inString then s.fail "unterminated string literal"
    else if s.depth ≠ 0 then
      s.fail ("unbalanced delimiters (" ++ toString s.depth ++
        (if s.depth > 0 then " left open)" else " too many closed)"))
    else s
  let s := s.flushBuffer
  if s.failed then (⟨false, s.linesChanged, s.failureReason⟩, s.out)
  else (⟨true, s.linesChanged, ""⟩, s.out)

end HugeReindentStream

/-- The chunks are those of `ForEachChunk`. What is written is returned beside the outcome. -/
def streamHugeReindent (chunks : List Bytes) (lineCommentPrefix : Bytes) (style : IndentStyle)
    (preamble : Bytes) : HugeReindentOutcome × Bytes :=
  let stream : HugeReindentStream :=
    { out := preamble, lineCommentPrefix := lineCommentPrefix, style := style }
  (chunks.foldl HugeReindentStream.feedChunk stream).finish

end Ned.Editor.Format
