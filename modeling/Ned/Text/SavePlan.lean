import Ned.Text.Bytes
import Ned.Text.Charset
import Ned.Text.Storage
import Mathlib.Data.List.DropRight

/-!
# Line endings

The line ending of a file. A buffer holds line feeds only, so a load detects the ending and replaces it,
and a save puts it back.
-/

namespace Ned.Text

inductive LineEnding where
  | lf
  | crlf
  | cr
  deriving DecidableEq

def carriageReturn : UInt8 := 13

/-- The counts of `DetectLineEnding`. -/
structure LineEndingCounts where
  crlf : Nat := 0
  lf : Nat := 0
  cr : Nat := 0
  deriving DecidableEq

def countLineEndings : Bytes → LineEndingCounts
  | [] => {}
  | [c] => if c = carriageReturn then { cr := 1 } else if c = newline then { lf := 1 } else {}
  | c :: d :: text =>
      if c = carriageReturn then
        if d = newline then
          let counts := countLineEndings text
          { counts with crlf := counts.crlf + 1 }
        else
          let counts := countLineEndings (d :: text)
          { counts with cr := counts.cr + 1 }
      else
        let counts := countLineEndings (d :: text)
        if c = newline then { counts with lf := counts.lf + 1 } else counts

def detectLineEnding (content : Bytes) : LineEnding :=
  let counts := countLineEndings content
  if counts.crlf ≥ counts.lf ∧ counts.crlf ≥ counts.cr ∧ counts.crlf > 0 then
    .crlf
  else if counts.cr > counts.lf then
    .cr
  else
    .lf

def hasCarriageReturn (content : Bytes) : Bool := content.contains carriageReturn

def normalizeToLf : Bytes → Bytes
  | [] => []
  | [c] => [if c = carriageReturn then newline else c]
  | c :: d :: text =>
      if c = carriageReturn then
        newline :: if d = newline then normalizeToLf text else normalizeToLf (d :: text)
      else
        c :: normalizeToLf (d :: text)

/-- What a line feed becomes on disk. -/
def LineEnding.bytes : LineEnding → Bytes
  | .lf => [newline]
  | .crlf => [carriageReturn, newline]
  | .cr => [carriageReturn]

def applyLineEnding (lfContent : Bytes) (ending : LineEnding) : Bytes :=
  if ending = .lf then
    lfContent
  else
    lfContent.flatMap fun c => if c = newline then ending.bytes else [c]

/-!
## Whitespace hygiene

What a save does to whitespace at the ends of lines and at the end of the text.
-/

/-- A space or a tab. -/
def isBlank (c : UInt8) : Bool := c == 32 || c == 9

/-- What is kept of a line. -/
def trimLine (kept : Bool) (line : Bytes) : Bytes := if kept then line else line.rdropWhile isBlank

/-- The loop over the content, with the line read so far, its number, the trimmed text and its length
just past the last kept line. The numbers of the kept lines are sorted. -/
def trimLines (keep : List Nat) : Bytes → Bytes → Nat → Bytes → Nat → Bytes × Nat
  | [], line, number, trimmed, keptEnd =>
      let kept := keep.contains number
      let trimmed := trimmed ++ trimLine kept line
      (trimmed, if kept then trimmed.length else keptEnd)
  | c :: content, line, number, trimmed, keptEnd =>
      if c = newline then
        let kept := keep.contains number
        let trimmed := trimmed ++ trimLine kept line ++ [newline]
        trimLines keep content [] (number + 1) trimmed (if kept then trimmed.length else keptEnd)
      else
        trimLines keep content (line ++ [c]) number trimmed keptEnd

def trimTrailingWhitespaceAndBlankLines (content : Bytes) (keep : List Nat) : Bytes :=
  if content.isEmpty then
    content
  else
    let (trimmed, keptEnd) := trimLines keep content [] 0 [] 0
    trimmed.take keptEnd ++ (trimmed.drop keptEnd).rdropWhile isNewline

def ensureTrailingNewline (content : Bytes) : Bytes :=
  if !content.isEmpty && content.getLast? != some newline then content ++ [newline] else content

/-!
## Save plans

What a save writes. A huge text is streamed through a writer that trims and expands line endings byte
by byte; any other one is transformed as a whole. Both write through the encoder of the charset. A
storage hands out its bytes in chunks, which are given beside it.
-/

structure SavePlan where
  snapshot : Storage
  lineEnding : LineEnding
  trimTrailingWhitespace : Bool
  keepTrailingWhitespace : List Nat := []
  ensureFinalNewline : Bool
  charset : Charset
  deriving DecidableEq

/-! ## The stream -/

/-- An output stream, which writes nothing more once it has failed. -/
structure OutStream where
  bytes : Bytes := []
  failed : Bool := false
  deriving DecidableEq

namespace OutStream

def write (file : OutStream) (data : Bytes) : OutStream :=
  if file.failed then file else { file with bytes := file.bytes ++ data }

def fail (file : OutStream) : OutStream := { file with failed := true }

end OutStream

structure EncodingSink where
  file : OutStream
  encoder : CharsetEncoder
  passThrough : Bool
  deriving DecidableEq

namespace EncodingSink

def ofCharset (file : OutStream) (charset : Charset) : EncodingSink :=
  { file := file, encoder := { charset := charset }, passThrough := isUtf8Family charset }

def write (sink : EncodingSink) (data : Bytes) : EncodingSink :=
  if sink.passThrough then
    { sink with file := sink.file.write data }
  else
    let (encoder, encoded, fed) := sink.encoder.feed data
    let file := if fed then sink.file else sink.file.fail
    { sink with encoder := encoder, file := file.write encoded }

def finish (sink : EncodingSink) : EncodingSink :=
  if sink.encoder.finish then sink else { sink with file := sink.file.fail }

end EncodingSink

/-! ## The streaming writer -/

def kFlushThreshold : Nat := 256 * 1024

structure StreamingSaveWriter where
  file : EncodingSink
  ending : LineEnding
  trim : Bool
  ensureFinalNewline : Bool
  outBuffer : Bytes := []
  pendingWhitespace : Bytes := []
  pendingNewlineCount : Nat := 0
  wroteAnything : Bool := false
  endsWithNewline : Bool := false
  deriving DecidableEq

namespace StreamingSaveWriter

variable (writer : StreamingSaveWriter)

def flushBuffer : StreamingSaveWriter :=
  if writer.outBuffer.isEmpty then
    writer
  else
    { writer with file := writer.file.write writer.outBuffer, outBuffer := [] }

def maybeFlush : StreamingSaveWriter :=
  if writer.outBuffer.length ≥ kFlushThreshold then writer.flushBuffer else writer

def writeByte (c : UInt8) : StreamingSaveWriter :=
  maybeFlush
    { writer with
      outBuffer := writer.outBuffer ++ [c]
      wroteAnything := true
      endsWithNewline := false }

def writeNewline : StreamingSaveWriter :=
  maybeFlush
    { writer with
      outBuffer := writer.outBuffer ++ writer.ending.bytes
      wroteAnything := true
      endsWithNewline := true }

def writeNewlines (writer : StreamingSaveWriter) : Nat → StreamingSaveWriter
  | 0 => writer
  | count + 1 => writer.writeNewline.writeNewlines count

/-- The line feeds held back turn out not to be trailing. -/
def writePendingNewlines : StreamingSaveWriter :=
  { writer.writeNewlines writer.pendingNewlineCount with pendingNewlineCount := 0 }

/-- The blanks held back turn out not to be trailing. -/
def writePendingWhitespace : StreamingSaveWriter :=
  { writer.pendingWhitespace.foldl writeByte writer with pendingWhitespace := [] }

/-- `Feed`, for one byte. -/
def feedByte (c : UInt8) : StreamingSaveWriter :=
  if !writer.trim then
    if c = newline then writer.writeNewline else writer.writeByte c
  else if isBlank c then
    { writer with pendingWhitespace := writer.pendingWhitespace ++ [c] }
  else if c = newline then
    { writer with pendingWhitespace := [], pendingNewlineCount := writer.pendingNewlineCount + 1 }
  else
    writer.writePendingNewlines.writePendingWhitespace.writeByte c

def feed (chunk : Bytes) : StreamingSaveWriter := chunk.foldl feedByte writer

def finish : StreamingSaveWriter :=
  if writer.ensureFinalNewline && writer.wroteAnything && !writer.endsWithNewline then
    writer.writeNewline.flushBuffer
  else
    writer.flushBuffer

end StreamingSaveWriter

/-! ## Writing a plan -/

def kWriteChunkBytes : Nat := 256 * 1024

/-- The loop that writes the transformed content in blocks. -/
def writeBlocks (sink : EncodingSink) : Nat → Bytes → EncodingSink
  | 0, _ => sink
  | fuel + 1, content =>
      if content.isEmpty then
        sink
      else
        writeBlocks (sink.write (content.take kWriteChunkBytes)) fuel (content.drop kWriteChunkBytes)

/-- The whole-string transform. -/
def saveContent (content : Bytes) (effectiveEnding : LineEnding) (trimTrailingWhitespace : Bool)
    (keepTrailingWhitespace : List Nat) (ensureFinalNewline : Bool) : Bytes :=
  let content :=
    if trimTrailingWhitespace then
      trimTrailingWhitespaceAndBlankLines content keepTrailingWhitespace
    else
      content
  let content := if ensureFinalNewline then ensureTrailingNewline content else content
  if effectiveEnding != .lf then applyLineEnding content effectiveEnding else content

def writeBufferContent (file : EncodingSink) (storage : Storage) (chunks : List Bytes)
    (effectiveEnding : LineEnding) (trimTrailingWhitespace : Bool)
    (keepTrailingWhitespace : List Nat) (ensureFinalNewline : Bool) : EncodingSink :=
  if storage.huge then
    let writer : StreamingSaveWriter :=
      { file := file
        ending := effectiveEnding
        trim := trimTrailingWhitespace
        ensureFinalNewline := ensureFinalNewline }
    (chunks.foldl StreamingSaveWriter.feed writer).finish.file
  else
    let content := saveContent storage.bytes effectiveEnding trimTrailingWhitespace
      keepTrailingWhitespace ensureFinalNewline
    writeBlocks file content.length content

/-- The preamble, then the encoded and transformed content. -/
def writePlanContent (file : OutStream) (plan : SavePlan) (chunks : List Bytes) : OutStream :=
  let file := file.write (charsetPreamble plan.charset)
  let sink := writeBufferContent (.ofCharset file plan.charset) plan.snapshot chunks plan.lineEnding
    plan.trimTrailingWhitespace plan.keepTrailingWhitespace plan.ensureFinalNewline
  sink.finish.file

/-- Feeds the chunks until one is refused. -/
def validateChunks (encoder : CharsetEncoder) : List Bytes → CharsetEncoder × Bool
  | [] => (encoder, true)
  | chunk :: chunks =>
      let (encoder, _, fed) := encoder.feed chunk
      if fed then validateChunks encoder chunks else (encoder, false)

def charsetName : Charset → String
  | .utf8 => "utf-8"
  | .utf8Bom => "utf-8-bom"
  | .latin1 => "latin1"
  | .utf16Le => "utf-16le"
  | .utf16Be => "utf-16be"

def validateSavePlanCharset (target : String) (plan : SavePlan) (chunks : List Bytes) :
    Except String Unit :=
  if isUtf8Family plan.charset then
    .ok ()
  else
    let (encoder, encodable) := validateChunks { charset := plan.charset } chunks
    if encodable && encoder.finish then
      .ok ()
    else
      let offset := encoder.failedAt
      let line := plan.snapshot.byteOffsetToLine offset
      let before := plan.snapshot.substring (plan.snapshot.lineToByteOffset line)
        (offset - plan.snapshot.lineToByteOffset line)
      let column := countCodepoints before
      .error ("ned: can't save " ++ target ++ " as " ++ charsetName plan.charset ++ ": line " ++
        toString (line + 1) ++ ", column " ++ toString (column + 1) ++
        " has a character it can't hold -- set-buffer-charset picks another")

def encodeSavePlan (target : String) (plan : SavePlan) (chunks : List Bytes) :
    Except String Bytes := do
  validateSavePlanCharset target plan chunks
  let out := writePlanContent {} plan chunks
  if out.failed then
    .error ("ned: cannot encode " ++ target ++ " as " ++ charsetName plan.charset)
  else
    .ok out.bytes

end Ned.Text
