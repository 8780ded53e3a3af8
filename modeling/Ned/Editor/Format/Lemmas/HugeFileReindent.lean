import Ned.Editor.Format.FormatEdit
import Ned.Text.Lemmas.Lines
import Mathlib.Data.List.DropRight

/-!
# How a huge file is read

The text is read line by line: what a line does to the brackets and strings that are open decides
how the next one is indented. The machine makes one pass over the bytes, and passes over a line as
it is read when the bytes that lead up to the end of a comment prefix leave the depth and the
strings as they are.
-/

namespace Ned.Editor.Format

open Text

/-! ## Lines -/

/-- The brackets that are open, and the string that is, with whether its next byte is escaped. -/
structure Reading where
  depth : Nat := 0
  string : Option (UInt8 × Bool) := none
  deriving DecidableEq

/-- A line is read to its end or to a comment. A closer that closes nothing is an error. -/
def readLine (p : Bytes) (s : Reading) : Bytes → Option Reading
  | [] => some s
  | c :: rest =>
      match s.string with
      | some (quote, escaped) =>
          if escaped then readLine p { s with string := some (quote, false) } rest
          else if c == backslash then readLine p { s with string := some (quote, true) } rest
          else if c == quote then readLine p { s with string := none } rest
          else readLine p s rest
      | none =>
          if p ≠ [] ∧ p <+: c :: rest then some s
          else if isQuote c then readLine p { s with string := some (c, false) } rest
          else if isOpener c then readLine p { s with depth := s.depth + 1 } rest
          else if isCloser c then
            if s.depth = 0 then none else readLine p { s with depth := s.depth - 1 } rest
          else readLine p s rest

def readLines (p : Bytes) (s : Reading) : List Line → Option (List (Reading × Line) × Reading)
  | [] => some ([], s)
  | line :: lines => do
      let next ← readLine p s line
      let (rows, last) ← readLines p next lines
      some ((s, line) :: rows, last)

def lineColumn (s : Reading) (style : IndentStyle) (c : UInt8) : Int :=
  ((if isCloser c then s.depth - 1 else s.depth : Nat) : Int) * style.width

/-- A line that begins in a string is left alone. -/
def indentLine (style : IndentStyle) (row : Reading × Line) : Line :=
  if row.1.string.isSome then row.2
  else
    match row.2.dropWhile isBlank with
    | [] => []
    | c :: rest =>
        if isNewline c then c :: rest
        else indentString (lineColumn row.1 style c) style ++ c :: rest

/-- The text with its lines indented, unless brackets do not match or a string is left open. -/
def reindented (p : Bytes) (style : IndentStyle) (content : Bytes) : Option Bytes :=
  match readLines p {} (splitLines content) with
  | some (rows, { depth := 0, string := none }) => some (rows.map (indentLine style)).flatten
  | _ => none

/-- A closer, a line of blanks, a string over two lines and a comment: `f(`, ` "`, ` `, `"`, `)//(`. -/
example : reindented [47, 47] {} [102, 40, 10, 32, 34, 10, 32, 10, 34, 10, 32, 10, 41, 47, 47, 40] =
    some [102, 40, 10, 32, 32, 32, 32, 34, 10, 32, 10, 34, 10, 10, 41, 47, 47, 40] := by
  decide

/-- The column of a line is computed in an `int`. -/
def Reading.Shallow (s : Reading) (style : IndentStyle) : Prop :=
  (s.depth : Int) < 2 ^ 31 ∧ -2 ^ 31 ≤ s.depth * style.width ∧ s.depth * style.width < 2 ^ 31

/-- No line of a text that is read to its end begins deeper than an `int` can say. -/
def Shallow (p : Bytes) (style : IndentStyle) (content : Bytes) : Prop :=
  ∀ rows last, readLines p {} (splitLines content) = some (rows, last) →
    ∀ row ∈ rows, row.1.Shallow style

/-- The stream writes the text with its lines indented, and that again from what it has written. -/
structure Reindents (p : Bytes) (style : IndentStyle) (content : Bytes) : Prop where
  success_iff : ∀ chunks preamble, chunks.flatten = content →
    ((streamHugeReindent chunks p style preamble).1.success = true ↔
      (reindented p style content).isSome = true)
  output : ∀ chunks preamble text, chunks.flatten = content →
    reindented p style content = some text →
      (streamHugeReindent chunks p style preamble).2 = preamble ++ text
  again : ∀ chunks preamble text, reindented p style content = some text →
    chunks.flatten = text →
      (streamHugeReindent chunks p style preamble).1.success = true ∧
        (streamHugeReindent chunks p style preamble).2 = preamble ++ text

/-! ## Comment prefixes -/

/-- The depth after bytes that are all read as code. -/
def codeDepth : Nat → Bytes → Option Nat
  | depth, [] => some depth
  | depth, c :: rest =>
      if isOpener c then codeDepth (depth + 1) rest
      else if isCloser c then if depth = 0 then none else codeDepth (depth - 1) rest
      else codeDepth depth rest

/-- Up to its last byte the prefix opens no string and closes every bracket it opens. -/
structure Neutral (p : Bytes) : Prop where
  quotes : ∀ c ∈ p.dropLast, isQuote c = false
  depth : codeDepth 0 p.dropLast = some 0

instance (p : Bytes) : Decidable (Neutral p) :=
  decidable_of_iff ((p.dropLast.all fun c => !isQuote c) = true ∧ codeDepth 0 p.dropLast = some 0)
    ⟨fun h => ⟨by simpa using h.1, h.2⟩, fun h => ⟨by simpa using h.quotes, h.depth⟩⟩

def isWhitespace (c : UInt8) : Bool := c == 32 || (9 ≤ c && c ≤ 13)

/-! ## Passes -/

/-- Where in the text the machine is, with the bytes it holds against the comment prefix. -/
inductive Phase
  | lineStart
  | code (recent : Bytes)
  | comment
  | string (quote : UInt8) (escaped : Bool) (recent : Bytes)

structure Pass where
  phase : Phase := .lineStart
  depth : Nat := 0
  written : Bytes

namespace Pass

variable (p : Bytes) (style : IndentStyle)

def hold (recent : Bytes) (c : UInt8) : Bytes :=
  if p.isEmpty then recent else (recent ++ [c]).drop ((recent ++ [c]).length - p.length)

def readCode (recent : Bytes) (pass : Pass) (c : UInt8) : Option Pass :=
  let written := pass.written ++ [c]
  let recent := hold p recent c
  if !p.isEmpty && recent == p then some { pass with phase := .comment, written }
  else if isQuote c then some { pass with phase := .string c false recent, written }
  else if isOpener c then some { phase := .code recent, depth := pass.depth + 1, written }
  else if isCloser c then
    if pass.depth = 0 then none else some { phase := .code recent, depth := pass.depth - 1, written }
  else if c == newline then some { pass with phase := .lineStart, written }
  else some { pass with phase := .code recent, written }

def indentAt (depth : Nat) (c : UInt8) : Bytes :=
  indentString
    (toInt32 (toInt32 (max 0 ((depth : Int) - if isCloser c then 1 else 0)) * style.width)) style

def feed (pass : Pass) (c : UInt8) : Option Pass :=
  match pass.phase with
  | .comment =>
      some { pass with
        phase := if c == newline then .lineStart else .comment, written := pass.written ++ [c] }
  | .string quote escaped recent =>
      let phase : Phase :=
        if escaped then .string quote false recent
        else if c == backslash then .string quote true recent
        else if c == quote then .code recent
        else .string quote false recent
      some { pass with phase, written := pass.written ++ [c] }
  | .lineStart =>
      if isBlank c then some pass
      else if c == newline then some { pass with written := pass.written ++ [c] }
      else readCode p [] { pass with written := pass.written ++ indentAt style pass.depth c } c
  | .code recent => readCode p recent pass c

def feedAll (pass : Pass) (bytes : Bytes) : Option Pass := bytes.foldlM (feed p style) pass

end Pass

/-! ## The machine makes a pass -/

namespace HugeReindentStream

variable {p : Bytes} {style : IndentStyle} {s : HugeReindentStream} {pass : Pass}

def written (s : HugeReindentStream) : Bytes := s.out ++ s.outBuffer

/-- The flags say where in the text the machine is. -/
def InPhase (s : HugeReindentStream) : Phase → Prop
  | .lineStart => s.inLineComment = false ∧ s.inString = false ∧ s.escapeNext = false ∧
      s.atLineStart = true ∧ s.recentBytes = []
  | .code recent => s.inLineComment = false ∧ s.inString = false ∧ s.escapeNext = false ∧
      s.atLineStart = false ∧ s.recentBytes = recent
  | .comment => s.inLineComment = true ∧ s.inString = false ∧ s.escapeNext = false
  | .string quote escaped recent => s.inLineComment = false ∧ s.inString = true ∧
      s.escapeNext = escaped ∧ s.atLineStart = false ∧ s.stringQuote = quote ∧
      s.recentBytes = recent

structure Makes (p : Bytes) (style : IndentStyle) (s : HugeReindentStream) (pass : Pass) : Prop where
  commentPrefix : s.lineCommentPrefix = p
  style : s.style = style
  failed : s.failed = false
  depth : s.depth = pass.depth
  written : s.written = pass.written
  phase : s.InPhase pass.phase

theorem writeByte_eq (s : HugeReindentStream) (c : UInt8) : ∃ out outBuffer,
    s.writeByte c = { s with out := out, outBuffer := outBuffer } ∧
      out ++ outBuffer = s.written ++ [c] := by
  unfold writeByte maybeFlush
  split
  · exact ⟨s.out ++ (s.outBuffer ++ [c]), [], rfl, by simp [written]⟩
  · exact ⟨s.out, s.outBuffer ++ [c], rfl, by simp [written]⟩

theorem foldl_writeByte_eq (s : HugeReindentStream) (bytes : Bytes) : ∃ out outBuffer,
    bytes.foldl writeByte s = { s with out := out, outBuffer := outBuffer } ∧
      out ++ outBuffer = s.written ++ bytes := by
  induction bytes generalizing s with
  | nil => exact ⟨s.out, s.outBuffer, rfl, by simp [written]⟩
  | cons c bytes ih =>
      obtain ⟨out, outBuffer, heq, hwritten⟩ := writeByte_eq s c
      obtain ⟨out', outBuffer', heq', hwritten'⟩ := ih (s.writeByte c)
      refine ⟨out', outBuffer', ?_, ?_⟩
      · rw [List.foldl_cons, heq', heq]
      · rw [hwritten', heq]
        simp only [written, hwritten, List.append_assoc, List.singleton_append]

theorem Makes.feedCode (pass : Pass) {recent : Bytes}
    (h : Makes p style s { pass with phase := .code recent }) (c : UInt8) :
    (∀ pass', Pass.readCode p recent pass c = some pass' → Makes p style (s.feedCode c) pass') ∧
      (Pass.readCode p recent pass c = none → (s.feedCode c).failed = true) := by
  obtain ⟨rfl, rfl, hfailed, hdepth, hwritten, hcomment, hstring, hescape, hstart, hrecent⟩ := h
  have hsame : s.written ++ [c] = pass.written ++ [c] := by rw [hwritten]
  have hheld : (if s.lineCommentPrefix.isEmpty then s.recentBytes else
      (s.recentBytes ++ [c]).drop ((s.recentBytes ++ [c]).length - s.lineCommentPrefix.length)) =
      Pass.hold s.lineCommentPrefix recent c := by rw [hrecent, Pass.hold]
  unfold HugeReindentStream.feedCode Pass.readCode
  simp only [hheld]
  generalize Pass.hold s.lineCommentPrefix recent c = held
  cases hmatch : !s.lineCommentPrefix.isEmpty && held == s.lineCommentPrefix with
  | true =>
      obtain ⟨out, outBuffer, heq, hout⟩ := writeByte_eq { s with recentBytes := held } c
      simp only [if_true, Option.some.injEq, forall_eq', reduceCtorEq, false_imp_iff, and_true, heq]
      exact ⟨rfl, rfl, hfailed, hdepth, hout.trans hsame, rfl, hstring, hescape⟩
  | false =>
      simp only [Bool.false_eq_true, if_false]
      cases hquote : isQuote c with
      | true =>
          obtain ⟨out, outBuffer, heq, hout⟩ := writeByte_eq
            { s with recentBytes := held, inString := true, stringQuote := c } c
          simp only [if_true, Option.some.injEq, forall_eq', reduceCtorEq, false_imp_iff, and_true, heq]
          exact ⟨rfl, rfl, hfailed, hdepth, hout.trans hsame, hcomment, rfl, hescape, hstart,
            rfl, rfl⟩
      | false =>
          simp only [Bool.false_eq_true, if_false]
          cases hopener : isOpener c with
          | true =>
              obtain ⟨out, outBuffer, heq, hout⟩ := writeByte_eq
                { s with recentBytes := held, depth := s.depth + 1 } c
              simp only [if_true, Option.some.injEq, forall_eq', reduceCtorEq, false_imp_iff,
                and_true, heq]
              exact ⟨rfl, rfl, hfailed, by simp [hdepth], hout.trans hsame, hcomment, hstring,
                hescape, hstart, rfl⟩
          | false =>
              simp only [Bool.false_eq_true, if_false]
              cases hcloser : isCloser c with
              | true =>
                  obtain ⟨out, outBuffer, heq, hout⟩ := writeByte_eq
                    { s with recentBytes := held, depth := s.depth - 1 } c
                  have hdepth : s.depth = (pass.depth : Int) := hdepth
                  have hneg : s.depth - 1 < 0 ↔ pass.depth = 0 := by omega
                  simp only [if_true, heq, hneg]
                  by_cases hzero : pass.depth = 0
                  · simp [hzero, fail]
                  · simp only [hzero, if_false, Option.some.injEq, forall_eq', reduceCtorEq,
                      false_imp_iff, and_true]
                    have hless : s.depth - 1 = ((pass.depth - 1 : Nat) : Int) := by omega
                    exact ⟨rfl, rfl, hfailed, hless, hout.trans hsame, hcomment, hstring,
                      hescape, hstart, rfl⟩
              | false =>
                  obtain ⟨out, outBuffer, heq, hout⟩ := writeByte_eq { s with recentBytes := held } c
                  simp only [Bool.false_eq_true, if_false, heq]
                  cases hnewline : c == newline with
                  | true =>
                      simp only [if_true, Option.some.injEq, forall_eq', reduceCtorEq,
                        false_imp_iff, and_true]
                      exact ⟨rfl, rfl, hfailed, hdepth, hout.trans hsame, hcomment, hstring,
                        hescape, rfl, rfl⟩
                  | false =>
                      simp only [Bool.false_eq_true, if_false, Option.some.injEq, forall_eq',
                        reduceCtorEq, false_imp_iff, and_true]
                      exact ⟨rfl, rfl, hfailed, hdepth, hout.trans hsame, hcomment, hstring,
                        hescape, hstart, rfl⟩

theorem Makes.emitIndent (h : Makes p style s pass) (c : UInt8) :
    Makes p style (s.emitIndentForNewLine (isCloser c))
      { pass with written := pass.written ++ Pass.indentAt style pass.depth c } := by
  obtain ⟨rfl, rfl, hfailed, hdepth, hwritten, hphase⟩ := h
  have hindent : indentString (toInt32 (toInt32 (max 0 (s.depth - if isCloser c then 1 else 0)) *
      s.style.width)) s.style = Pass.indentAt s.style pass.depth c := by rw [hdepth, Pass.indentAt]
  unfold emitIndentForNewLine
  simp only [hindent]
  generalize Pass.indentAt s.style pass.depth c = indent
  split
  · obtain ⟨out, outBuffer, heq, hout⟩ :=
      foldl_writeByte_eq { s with linesChanged := s.linesChanged + 1 } indent
    rw [heq]
    refine ⟨rfl, rfl, hfailed, hdepth, hout.trans ?_, ?_⟩
    · exact congrArg (· ++ indent) hwritten
    · cases hp : pass.phase <;> rw [hp] at hphase <;> exact hphase
  · obtain ⟨out, outBuffer, heq, hout⟩ := foldl_writeByte_eq s indent
    rw [heq]
    refine ⟨rfl, rfl, hfailed, hdepth, hout.trans ?_, ?_⟩
    · exact congrArg (· ++ indent) hwritten
    · cases hp : pass.phase <;> rw [hp] at hphase <;> exact hphase

theorem Makes.feed (h : Makes p style s pass) (c : UInt8) :
    (∀ pass', Pass.feed p style pass c = some pass' → Makes p style (s.feed c) pass') ∧
      (Pass.feed p style pass c = none → (s.feed c).failed = true) := by
  obtain ⟨phase, depth, written⟩ := pass
  obtain ⟨out, outBuffer, heq, hout⟩ := writeByte_eq s c
  have hsame : out ++ outBuffer = written ++ [c] := hout.trans (congrArg (· ++ [c]) h.written)
  unfold Pass.feed HugeReindentStream.feed
  cases phase with
  | comment =>
      obtain ⟨rfl, rfl, hfailed, hdepth, hwritten, hcomment, hstring, hescape⟩ := h
      simp only [hcomment, if_true, heq, Option.some.injEq, forall_eq', reduceCtorEq, false_imp_iff,
        and_true]
      cases hnewline : c == newline with
      | true => exact ⟨rfl, rfl, hfailed, hdepth, hsame, rfl, hstring, hescape, rfl, rfl⟩
      | false => exact ⟨rfl, rfl, hfailed, hdepth, hsame, rfl, hstring, hescape⟩
  | string quote escaped recent =>
      obtain ⟨rfl, rfl, hfailed, hdepth, hwritten, hcomment, hstring, rfl, hstart, rfl, rfl⟩ := h
      simp only [hcomment, hstring, if_true, heq, Bool.false_eq_true, if_false, Option.some.injEq,
        forall_eq', reduceCtorEq, false_imp_iff, and_true]
      cases hescaped : s.escapeNext with
      | true => exact ⟨rfl, rfl, hfailed, hdepth, hsame, rfl, rfl, rfl, hstart, rfl, rfl⟩
      | false =>
          simp only [Bool.false_eq_true, if_false]
          cases hslash : c == backslash with
          | true => exact ⟨rfl, rfl, hfailed, hdepth, hsame, rfl, rfl, rfl, hstart, rfl, rfl⟩
          | false =>
              simp only [Bool.false_eq_true, if_false]
              cases hquote : c == s.stringQuote with
              | true => exact ⟨rfl, rfl, hfailed, hdepth, hsame, rfl, rfl, rfl, hstart, rfl⟩
              | false => exact ⟨rfl, rfl, hfailed, hdepth, hsame, rfl, rfl, rfl, hstart, rfl, rfl⟩
  | lineStart =>
      obtain ⟨hbegins, hstyle, hfailed, hdepth, hwritten, hcomment, hstring, hescape, hstart, hrecent⟩ := h
      simp only [hcomment, hstring, hstart, if_true, Bool.false_eq_true, if_false]
      cases hblank : isBlank c with
      | true =>
          simp only [if_true, Option.some.injEq, forall_eq', reduceCtorEq, false_imp_iff, and_true]
          exact ⟨hbegins, hstyle, hfailed, hdepth, hwritten, rfl, rfl, hescape, rfl, hrecent⟩
      | false =>
          simp only [Bool.false_eq_true, if_false]
          cases hnewline : c == newline with
          | true =>
              simp only [if_true, heq, Option.some.injEq, forall_eq', reduceCtorEq, false_imp_iff,
                and_true]
              exact ⟨hbegins, hstyle, hfailed, hdepth, hsame, hcomment, hstring, hescape, hstart,
                hrecent⟩
          | false =>
              simp only [Bool.false_eq_true, if_false]
              have hindented := Makes.emitIndent
                ⟨hbegins, hstyle, hfailed, hdepth, hwritten, hcomment, hstring, hescape, hstart, hrecent⟩ c
              obtain ⟨hbegins, hstyle, hfailed, hdepth, hwritten, hcomment, hstring, hescape, hstart,
                hrecent⟩ := hindented
              have hcode : Makes p style
                  { s.emitIndentForNewLine (isCloser c) with atLineStart := false }
                  ⟨.code [], depth, written ++ Pass.indentAt style depth c⟩ :=
                ⟨hbegins, hstyle, hfailed, hdepth, hwritten, hcomment, hstring, hescape, rfl, hrecent⟩
              exact Makes.feedCode ⟨.lineStart, depth, written ++ Pass.indentAt style depth c⟩ hcode c
  | code recent =>
      obtain ⟨hbegins, hstyle, hfailed, hdepth, hwritten, hcomment, hstring, hescape, hstart, hrecent⟩ := h
      simp only [hcomment, hstring, hstart, Bool.false_eq_true, if_false]
      exact Makes.feedCode ⟨.code recent, depth, written⟩
        ⟨hbegins, hstyle, hfailed, hdepth, hwritten, hcomment, hstring, hescape, hstart, hrecent⟩ c

theorem feedChunk_failed (h : s.failed = true) (bytes : Bytes) : s.feedChunk bytes = s := by
  induction bytes with
  | nil => rfl
  | cons c bytes ih => simpa [feedChunk, h] using ih

theorem Makes.feedChunk (h : Makes p style s pass) (bytes : Bytes) :
    (∀ pass', Pass.feedAll p style pass bytes = some pass' →
      Makes p style (s.feedChunk bytes) pass') ∧
      (Pass.feedAll p style pass bytes = none → (s.feedChunk bytes).failed = true) := by
  induction bytes generalizing s pass with
  | nil =>
      refine ⟨fun pass' hpass => ?_, fun hnone => ?_⟩
      · cases hpass
        exact h
      · cases hnone
  | cons c bytes ih =>
      obtain ⟨hsome, hnone⟩ := h.feed c
      have hstep : s.feedChunk (c :: bytes) = (s.feed c).feedChunk bytes := by
        simp [HugeReindentStream.feedChunk, h.failed]
      rw [hstep, Pass.feedAll, List.foldlM_cons]
      cases hfeed : Pass.feed p style pass c with
      | none =>
          have hfailed := hnone hfeed
          rw [feedChunk_failed hfailed]
          refine ⟨fun pass' hpass => ?_, fun _ => hfailed⟩
          cases hpass
      | some next => exact ih (hsome next hfeed)

theorem foldl_feedChunk (s : HugeReindentStream) (chunks : List Bytes) :
    chunks.foldl feedChunk s = s.feedChunk chunks.flatten := by
  rw [feedChunk, List.foldl_flatten]
  rfl

theorem Makes.finish (h : Makes p style s pass) :
    (s.finish.1.success = true ↔ pass.depth = 0 ∧ s.inString = false) ∧
      s.finish.2 = pass.written := by
  obtain ⟨-, -, hfailed, hdepth, hwritten, -⟩ := h
  have hzero : s.depth = 0 ↔ pass.depth = 0 := by omega
  have hout : s.out ++ s.outBuffer = pass.written := hwritten
  unfold HugeReindentStream.finish
  simp only [hfailed, Bool.false_eq_true, if_false, fail, flushBuffer]
  cases hstring : s.inString with
  | true => simp [hout]
  | false =>
      by_cases hclosed : s.depth = 0
      · simp [hclosed, hzero.1 hclosed, hout, hfailed]
      · simp [hclosed, hzero.not.1 hclosed, hout]

theorem finish_failed (h : s.failed = true) : s.finish.1.success = false := by
  simp [finish, h, flushBuffer]

end HugeReindentStream

namespace Phase

def InString : Phase → Prop
  | .string _ _ _ => True
  | _ => False

end Phase

variable {p : Bytes} {style : IndentStyle} {content preamble : Bytes}

variable (p style preamble) in
theorem streamHugeReindent_eq {chunks : List Bytes} (hchunks : chunks.flatten = content) :
    (∀ pass, Pass.feedAll p style { written := preamble } content = some pass →
      ((streamHugeReindent chunks p style preamble).1.success = true ↔
        pass.depth = 0 ∧ ¬pass.phase.InString) ∧
        (streamHugeReindent chunks p style preamble).2 = pass.written) ∧
      (Pass.feedAll p style { written := preamble } content = none →
        (streamHugeReindent chunks p style preamble).1.success = false) := by
  have hstart : HugeReindentStream.Makes p style
      { out := preamble, lineCommentPrefix := p, style := style } { written := preamble } :=
    ⟨rfl, rfl, rfl, rfl, List.append_nil preamble, rfl, rfl, rfl, rfl, rfl⟩
  obtain ⟨hsome, hnone⟩ := hstart.feedChunk content
  unfold streamHugeReindent
  simp only [HugeReindentStream.foldl_feedChunk, hchunks]
  refine ⟨fun pass hpass => ?_, fun hpass => HugeReindentStream.finish_failed (hnone hpass)⟩
  have hmakes := hsome pass hpass
  obtain ⟨hsuccess, hwritten⟩ := hmakes.finish
  refine ⟨hsuccess.trans (and_congr_right fun _ => ?_), hwritten⟩
  have hphase := hmakes.phase
  cases hp : pass.phase with
  | lineStart => rw [hp] at hphase; simp [Phase.InString, hphase.2.1]
  | code recent => rw [hp] at hphase; simp [Phase.InString, hphase.2.1]
  | comment => rw [hp] at hphase; simp [Phase.InString, hphase.2.1]
  | string quote escaped recent => rw [hp] at hphase; simp [Phase.InString, hphase.2.1]

/-! ## The bytes held against the prefix -/

def lastBytes (p w : Bytes) : Bytes := if p.isEmpty then [] else w.drop (w.length - p.length)

theorem hold_lastBytes (p w : Bytes) (c : UInt8) :
    Pass.hold p (lastBytes p w) c = lastBytes p (w ++ [c]) := by
  unfold Pass.hold lastBytes
  cases hempty : p.isEmpty with
  | true => rfl
  | false =>
      simp only [Bool.false_eq_true, if_false, List.length_append, List.length_drop,
        List.length_singleton]
      have hpos : 0 < p.length := List.length_pos_iff.2 (List.isEmpty_eq_false_iff.1 hempty)
      by_cases hle : p.length ≤ w.length
      · have hdrop : w.drop (w.length - p.length) ++ [c] =
            (w ++ [c]).drop (w.length - p.length) :=
          (List.drop_append_of_le_length (Nat.sub_le _ _)).symm
        rw [hdrop, List.drop_drop]
        congr 1
        omega
      · have hzero : w.length - p.length = 0 := Nat.sub_eq_zero_of_le (Nat.le_of_not_le hle)
        simp only [hzero, List.drop_zero, Nat.sub_zero]

/-- Code that begins the line or comes behind the quote that opens a string. -/
def Fresh (before : Bytes) : Prop := before = [] ∨ ∃ b q, before = b ++ [q] ∧ isQuote q = true

theorem Neutral.within {before u : Bytes} {c : UInt8} (h : Neutral p) (hbefore : Fresh before)
    (hp : p ≠ []) (hheld : lastBytes p (before ++ u ++ [c]) = p) :
    ∃ u' u'', u = u' ++ u'' ∧ p = u'' ++ [c] := by
  have hempty : p.isEmpty = false := List.isEmpty_eq_false_iff.2 hp
  simp only [lastBytes, hempty, Bool.false_eq_true, if_false] at hheld
  obtain ⟨a, ha⟩ : p <:+ before ++ u ++ [c] := hheld ▸ List.drop_suffix _ _
  have hlast : p.dropLast ++ [p.getLast hp] = p := List.dropLast_concat_getLast hp
  rw [← hlast, ← List.append_assoc] at ha
  obtain ⟨ha, hc⟩ := List.append_inj' ha rfl
  rw [List.singleton_inj] at hc
  rcases List.append_eq_append_iff.1 ha with ⟨b, hb, ht⟩ | ⟨b, hb, hu⟩
  · -- the prefix would hold the quote in front of the code
    rcases hbefore with rfl | ⟨front, q, rfl, hq⟩
    · have hnil : b = [] := (List.append_eq_nil_iff.1 hb.symm).2
      exact ⟨[], u, rfl, by rw [← hlast, hc, ht, hnil, List.nil_append]⟩
    · rcases List.eq_nil_or_concat b with rfl | ⟨b, d, rfl⟩
      · exact ⟨[], u, rfl, by rw [← hlast, hc, ht, List.nil_append]⟩
      · rw [List.concat_eq_append, ← List.append_assoc] at hb
        have hqd : q = d := by simpa using (List.append_inj' hb rfl).2
        have hmem : q ∈ p.dropLast := by simp [ht, hqd]
        rw [h.quotes q hmem] at hq
        cases hq
  · exact ⟨b, p.dropLast, hu, by rw [← hc, hlast]⟩

/-! ## Lines are read as they are passed -/

/-- In code no comment begins before what is still to be read. -/
structure InCode (p u rest : Bytes) : Prop where
  none_before : ∀ u' u'', u = u' ++ u'' → u'' ≠ [] → ¬(p ≠ [] ∧ p <+: u'' ++ rest)

/-- The place of the machine in a line and what is open there. -/
inductive Tracks (p : Bytes) : Phase → Reading → Bytes → Prop
  | string {quote : UInt8} {escaped : Bool} {before rest : Bytes} {depth : Nat}
      (hquote : isQuote quote = true) (hbefore : Fresh before) :
      Tracks p (.string quote escaped (lastBytes p before)) ⟨depth, some (quote, escaped)⟩ rest
  | code {before u rest : Bytes} {depth : Nat} (hbefore : Fresh before) (h : InCode p u rest) :
      Tracks p (.code (lastBytes p (before ++ u))) ⟨depth, none⟩ rest

/-- The place of the machine where a line ends. -/
inductive Ends (p : Bytes) : Phase → Reading → Prop
  | string {quote : UInt8} {escaped : Bool} {before : Bytes} {depth : Nat}
      (hquote : isQuote quote = true) (hbefore : Fresh before) :
      Ends p (.string quote escaped (lastBytes p before)) ⟨depth, some (quote, escaped)⟩
  | code {recent : Bytes} {depth : Nat} : Ends p (.code recent) ⟨depth, none⟩
  | comment {depth : Nat} : Ends p .comment ⟨depth, none⟩

theorem InCode.hold_ne {before u rest : Bytes} {c : UInt8} (h : InCode p u (c :: rest))
    (hp : Neutral p) (hbefore : Fresh before) (hnot : ¬(p ≠ [] ∧ p <+: c :: rest)) :
    (!p.isEmpty && lastBytes p (before ++ u ++ [c]) == p) = false := by
  cases hempty : p.isEmpty with
  | true => rfl
  | false =>
      have hne : p ≠ [] := List.isEmpty_eq_false_iff.1 hempty
      simp only [Bool.not_false, Bool.true_and, beq_eq_false_iff_ne]
      intro hheld
      obtain ⟨u', u'', rfl, heq⟩ := hp.within hbefore hne hheld
      by_cases hnil : u'' = []
      · subst hnil
        exact hnot ⟨hne, by rw [heq]; exact ⟨rest, rfl⟩⟩
      · refine h.none_before u' u'' rfl hnil ⟨hne, ?_⟩
        rw [heq]
        exact ⟨rest, by simp⟩

theorem InCode.snoc {u rest : Bytes} {c : UInt8} (h : InCode p u (c :: rest))
    (hnot : ¬(p ≠ [] ∧ p <+: c :: rest)) : InCode p (u ++ [c]) rest where
  none_before u' u'' hu hne := by
    rcases List.eq_nil_or_concat u'' with rfl | ⟨v, d, rfl⟩
    · exact absurd rfl hne
    · rw [List.concat_eq_append, ← List.append_assoc] at hu
      obtain ⟨hfront, hd⟩ := List.append_inj' hu rfl
      rw [List.singleton_inj] at hd
      subst hd
      have hshift : v.concat c ++ rest = v ++ c :: rest := by simp
      rw [hshift]
      by_cases hnil : v = []
      · subst hnil
        exact hnot
      · exact h.none_before u' v hfront hnil

theorem InCode.nil {rest : Bytes} : InCode p [] rest where
  none_before _ _ hu hne := absurd (List.append_eq_nil_iff.1 hu.symm).2 hne

@[simp] theorem feedAll_nil (pass : Pass) : Pass.feedAll p style pass [] = some pass := rfl

theorem feedAll_cons (pass : Pass) (c : UInt8) (rest : Bytes) :
    Pass.feedAll p style pass (c :: rest) =
      (Pass.feed p style pass c).bind fun next => Pass.feedAll p style next rest :=
  List.foldlM_cons ..

theorem feedAll_append (pass : Pass) (left right : Bytes) :
    Pass.feedAll p style pass (left ++ right) =
      (Pass.feedAll p style pass left).bind fun next => Pass.feedAll p style next right :=
  List.foldlM_append ..

theorem feedAll_comment {rest : Bytes} (hrest : newline ∉ rest) (depth : Nat) (written : Bytes) :
    Pass.feedAll p style ⟨.comment, depth, written⟩ rest =
      some ⟨.comment, depth, written ++ rest⟩ := by
  induction rest generalizing written with
  | nil => simp
  | cons c rest ih =>
      rw [List.mem_cons, not_or] at hrest
      obtain ⟨hc, htail⟩ := hrest
      have hne : (c == newline) = false := beq_eq_false_iff_ne.2 (Ne.symm hc)
      rw [feedAll_cons]
      simp only [Pass.feed, hne, Bool.false_eq_true, if_false, Option.bind_some, ih htail]
      simp

theorem lastBytes_append_prefix (hp : p ≠ []) (w : Bytes) : lastBytes p (w ++ p) = p := by
  have hempty : p.isEmpty = false := List.isEmpty_eq_false_iff.2 hp
  simp [lastBytes, hempty]

theorem feedAll_dropLast {before u rest x y : Bytes} {d : UInt8} (hp : Neutral p)
    (hnewline : newline ∉ p) (hbefore : Fresh before) (h : InCode p u (p ++ rest))
    (hsplit : p = x ++ y ++ [d]) {depth depth' : Nat} (hdepth : codeDepth depth y = some depth')
    (written : Bytes) :
    Pass.feedAll p style ⟨.code (lastBytes p (before ++ u ++ x)), depth, written⟩ y =
      some ⟨.code (lastBytes p (before ++ u ++ x ++ y)), depth', written ++ y⟩ := by
  induction y generalizing x depth written with
  | nil =>
      cases hdepth
      simp
  | cons c y ih =>
      have hdrop : p.dropLast = x ++ c :: y := by rw [hsplit, List.dropLast_concat]
      have hquote : isQuote c = false := hp.quotes c (by simp [hdrop])
      have hne : (c == newline) = false :=
        beq_eq_false_iff_ne.2 fun heq => hnewline (by rw [hsplit, ← heq]; simp)
      have hnomatch : (!p.isEmpty && lastBytes p (before ++ u ++ x ++ [c]) == p) = false := by
        -- a match would begin in the code before the prefix
        have hempty : p ≠ [] := by simp [hsplit]
        rw [List.isEmpty_eq_false_iff.2 hempty, Bool.not_false, Bool.true_and,
          beq_eq_false_iff_ne]
        intro hheld
        rw [List.append_assoc before u x] at hheld
        obtain ⟨u', u'', hu, heq⟩ := hp.within hbefore hempty hheld
        have hlength : x.length < u''.length := by
          have := congrArg List.length (heq.symm.trans hsplit)
          simp at this
          omega
        rcases List.append_eq_append_iff.1 hu with ⟨v, hv, hx⟩ | ⟨v, hv, hx⟩
        · rw [hx, List.length_append] at hlength
          omega
        · have hvne : v ≠ [] := by
            rintro rfl
            simp [hx] at hlength
          have hleft : p = v ++ x ++ [c] := by rw [heq, hx]
          have hright : v ++ (p ++ rest) = v ++ x ++ [c] ++ (y ++ [d] ++ rest) := by
            rw [hsplit]
            simp
          refine h.none_before u' v hv hvne ⟨hempty, y ++ [d] ++ rest, ?_⟩
          rw [hright]
          exact congrArg (· ++ (y ++ [d] ++ rest)) hleft
      have hnext : p = x ++ [c] ++ y ++ [d] := by rw [hsplit]; simp
      rw [feedAll_cons]
      simp only [Pass.feed, Pass.readCode, hold_lastBytes, hnomatch, hquote, hne, Bool.false_eq_true,
        if_false]
      have hcode : before ++ u ++ x ++ [c] = before ++ u ++ (x ++ [c]) := List.append_assoc ..
      have hrest : before ++ u ++ x ++ c :: y = before ++ u ++ (x ++ [c]) ++ y := by simp
      have hwritten : written ++ c :: y = written ++ [c] ++ y := by simp
      rw [hcode, hrest, hwritten]
      unfold codeDepth at hdepth
      split at hdepth
      · rename_i hopener
        simp only [hopener, if_true, Option.bind_some]
        exact ih hnext hdepth _
      · rename_i hopener
        simp only [hopener, Bool.false_eq_true, if_false]
        split at hdepth
        · rename_i hcloser
          simp only [hcloser, if_true]
          split at hdepth
          · cases hdepth
          · rename_i hpos
            simp only [hpos, if_false, Option.bind_some]
            exact ih hnext hdepth _
        · rename_i hcloser
          simp only [hcloser, Bool.false_eq_true, if_false, Option.bind_some]
          exact ih hnext hdepth _

theorem codeDepth_add {bytes : Bytes} {depth depth' : Nat} (h : codeDepth depth bytes = some depth')
    (more : Nat) : codeDepth (depth + more) bytes = some (depth' + more) := by
  induction bytes generalizing depth with
  | nil =>
      cases h
      rfl
  | cons c bytes ih =>
      unfold codeDepth at h ⊢
      split at h
      · rename_i hopener
        simp only [hopener, if_true, Nat.add_right_comm depth more 1]
        exact ih h
      · rename_i hopener
        simp only [hopener, Bool.false_eq_true, if_false]
        split at h
        · rename_i hcloser
          simp only [hcloser, if_true]
          split at h
          · cases h
          · rename_i hpos
            have hmore : depth + more ≠ 0 := by omega
            have hless : depth + more - 1 = depth - 1 + more := by omega
            simp only [hmore, if_false, hless]
            exact ih h
        · rename_i hcloser
          simp only [hcloser, Bool.false_eq_true, if_false]
          exact ih h

theorem feedAll_prefix {before u rest : Bytes} (hp : Neutral p) (hne : p ≠ [])
    (hnewline : newline ∉ p) (hbefore : Fresh before) (h : InCode p u (p ++ rest)) (depth : Nat)
    (written : Bytes) :
    Pass.feedAll p style ⟨.code (lastBytes p (before ++ u)), depth, written⟩ p =
      some ⟨.comment, depth, written ++ p⟩ := by
  have hlast : p.dropLast ++ [p.getLast hne] = p := List.dropLast_concat_getLast hne
  have hdepth : codeDepth depth p.dropLast = some depth := by
    have hmore := codeDepth_add hp.depth depth
    rwa [Nat.zero_add] at hmore
  have hlead : Pass.feedAll p style ⟨.code (lastBytes p (before ++ u ++ [])), depth, written⟩
      p.dropLast = some ⟨.code (lastBytes p (before ++ u ++ [] ++ p.dropLast)), depth,
        written ++ p.dropLast⟩ :=
    feedAll_dropLast hp hnewline hbefore h hlast.symm hdepth written
  rw [List.append_nil] at hlead
  have hmatch : (!p.isEmpty &&
      lastBytes p (before ++ u ++ p.dropLast ++ [p.getLast hne]) == p) = true := by
    rw [List.append_assoc _ p.dropLast, hlast, lastBytes_append_prefix hne,
      List.isEmpty_eq_false_iff.2 hne]
    simp
  have hstep : Pass.feed p style
      ⟨.code (lastBytes p (before ++ u ++ p.dropLast)), depth, written ++ p.dropLast⟩
      (p.getLast hne) = some ⟨.comment, depth, written ++ p⟩ := by
    simp only [Pass.feed, Pass.readCode, hold_lastBytes, hmatch, if_true]
    rw [List.append_assoc, hlast]
  calc Pass.feedAll p style ⟨.code (lastBytes p (before ++ u)), depth, written⟩ p
      = Pass.feedAll p style ⟨.code (lastBytes p (before ++ u)), depth, written⟩
          (p.dropLast ++ [p.getLast hne]) := by rw [hlast]
    _ = some ⟨.comment, depth, written ++ p⟩ := by
        rw [feedAll_append, hlead, Option.bind_some, feedAll_cons, hstep]
        rfl

variable (style) in
theorem readLine_tracks (hp : Neutral p) (hnewline : newline ∉ p) {line : Bytes}
    (hline : newline ∉ line) {phase : Phase} {s : Reading} (h : Tracks p phase s line)
    (written : Bytes) :
    (readLine p s line = none →
      Pass.feedAll p style ⟨phase, s.depth, written⟩ line = none) ∧
      ∀ next, readLine p s line = some next → ∃ phase',
        Pass.feedAll p style ⟨phase, s.depth, written⟩ line =
          some ⟨phase', next.depth, written ++ line⟩ ∧ Ends p phase' next := by
  induction line generalizing phase s written with
  | nil =>
      refine ⟨fun hnone => ?_, fun next hnext => ?_⟩
      · cases hnone
      · cases hnext
        refine ⟨phase, by simp, ?_⟩
        cases h with
        | string hquote hbefore => exact .string hquote hbefore
        | code hbefore h => exact .code
  | cons c rest ih =>
      rw [List.mem_cons, not_or] at hline
      obtain ⟨hc, hrest⟩ := hline
      have hwritten : written ++ c :: rest = written ++ [c] ++ rest := by simp
      rw [feedAll_cons, hwritten]
      cases h with
      | @string quote escaped before _ depth hquote hbefore =>
          unfold readLine
          simp only [Pass.feed, Option.bind_some]
          cases hescaped : escaped with
          | true =>
              simp only [if_true]
              exact ih hrest (.string hquote hbefore) _
          | false =>
              simp only [Bool.false_eq_true, if_false]
              cases hslash : c == backslash with
              | true =>
                  simp only [if_true]
                  exact ih hrest (.string hquote hbefore) _
              | false =>
                  simp only [Bool.false_eq_true, if_false]
                  cases hend : c == quote with
                  | true =>
                      simp only [if_true]
                      have hcode := ih hrest (@Tracks.code p _ [] _ depth hbefore .nil)
                        (written ++ [c])
                      rw [List.append_nil] at hcode
                      exact hcode
                  | false =>
                      simp only [Bool.false_eq_true, if_false]
                      exact ih hrest (.string hquote hbefore) _
      | @code before u _ depth hbefore h =>
          unfold readLine
          simp only
          by_cases hcomment : p ≠ [] ∧ p <+: c :: rest
          · -- the rest of the line is a comment
            obtain ⟨hne, more, hmore⟩ := hcomment
            have hlast : newline ∉ more := by
              intro hmem
              have hmem' : newline ∈ c :: rest := hmore ▸ List.mem_append_right _ hmem
              rcases List.mem_cons.1 hmem' with heq | hmem'
              · exact hc heq
              · exact hrest hmem'
            rw [if_pos ⟨hne, more, hmore⟩]
            refine ⟨fun hnone => ?_, fun next hnext => ?_⟩
            · cases hnone
            · cases hnext
              refine ⟨.comment, ?_, .comment⟩
              rw [← hmore] at h
              rw [← hwritten, ← feedAll_cons, ← hmore, feedAll_append,
                feedAll_prefix hp hne hnewline hbefore h, Option.bind_some, feedAll_comment hlast,
                List.append_assoc]
          · rw [if_neg hcomment]
            have hnomatch := h.hold_ne hp hbefore hcomment
            have hne : (c == newline) = false := beq_eq_false_iff_ne.2 (Ne.symm hc)
            have hcode : before ++ u ++ [c] = before ++ (u ++ [c]) := List.append_assoc ..
            have hnext := h.snoc hcomment
            rw [hcode] at hnomatch
            simp only [Pass.feed, Pass.readCode, hold_lastBytes, hnomatch, hne, Bool.false_eq_true,
              if_false, hcode]
            cases hquote : isQuote c with
            | true =>
                simp only [if_true, Option.bind_some]
                have hfresh : Fresh (before ++ (u ++ [c])) :=
                  .inr ⟨before ++ u, c, hcode.symm, hquote⟩
                exact ih hrest (.string hquote hfresh) _
            | false =>
                simp only [Bool.false_eq_true, if_false]
                cases hopener : isOpener c with
                | true =>
                    simp only [if_true, Option.bind_some]
                    exact ih hrest (.code hbefore hnext) _
                | false =>
                    simp only [Bool.false_eq_true, if_false]
                    cases hcloser : isCloser c with
                    | true =>
                        by_cases hzero : depth = 0
                        · simp [hzero]
                        · simp only [hzero, if_true, if_false, Option.bind_some]
                          exact ih hrest (.code hbefore hnext) _
                    | false =>
                        simp only [Bool.false_eq_true, if_false, Option.bind_some]
                        exact ih hrest (.code hbefore hnext) _

/-! ## The end of a line -/

def afterNewline (s : Reading) : Reading :=
  { s with string := s.string.map fun open_ => (open_.1, false) }

def Quoted (s : Reading) : Prop := ∀ quote escaped, s.string = some (quote, escaped) →
  isQuote quote = true

/-- The place of the machine where a line begins. -/
inductive Starts (p : Bytes) : Phase → Reading → Prop
  | string {quote : UInt8} {escaped : Bool} {before : Bytes} {depth : Nat}
      (hquote : isQuote quote = true) (hbefore : Fresh before) :
      Starts p (.string quote escaped (lastBytes p before)) ⟨depth, some (quote, escaped)⟩
  | lineStart {depth : Nat} : Starts p .lineStart ⟨depth, none⟩

theorem prefix_append_newline (hnewline : newline ∉ p) (line : Bytes) :
    p <+: line ++ [newline] ↔ p <+: line := by
  refine ⟨fun h => ?_, fun h => h.trans (List.prefix_append _ _)⟩
  rcases List.prefix_concat_iff.1 (by simpa using h) with heq | h
  · exact absurd (by simp [heq]) hnewline
  · exact h

theorem readLine_append_newline (hnewline : newline ∉ p) {s : Reading} (hs : Quoted s)
    (line : Bytes) : readLine p s (line ++ [newline]) = (readLine p s line).map afterNewline := by
  induction line generalizing s with
  | nil =>
      obtain ⟨depth, string⟩ := s
      rw [List.nil_append]
      unfold readLine
      cases string with
      | none =>
          have hnot : ¬(p ≠ [] ∧ p <+: [newline]) := by
            rintro ⟨hne, h⟩
            exact hne (List.prefix_nil.1 ((prefix_append_newline hnewline []).1 h))
          simp only [hnot, if_false]
          rfl
      | some open_ =>
          obtain ⟨quote, escaped⟩ := open_
          have hne : (newline == quote) = false := by
            rw [beq_eq_false_iff_ne]
            rintro rfl
            cases hs _ _ rfl
          have hslash : (newline == backslash) = false := rfl
          cases escaped with
          | true => rfl
          | false =>
              simp only [hslash, hne, Bool.false_eq_true, if_false]
              rfl
  | cons c line ih =>
      obtain ⟨depth, string⟩ := s
      rw [List.cons_append]
      unfold readLine
      cases string with
      | none =>
          have hbegins : p <+: c :: (line ++ [newline]) ↔ p <+: c :: line :=
            prefix_append_newline hnewline (c :: line)
          have hnone (depth : Nat) : Quoted ⟨depth, none⟩ := by
            intro quote escaped h
            cases h
          simp only [hbegins]
          split
          · rfl
          · split
            · rename_i hquote
              refine ih fun quote escaped h => ?_
              cases h
              exact hquote
            · split
              · exact ih (hnone _)
              · split
                · split
                  · rfl
                  · exact ih (hnone _)
                · exact ih (hnone _)
      | some open_ =>
          obtain ⟨quote, escaped⟩ := open_
          have hquote : isQuote quote = true := hs _ _ rfl
          have hstring (escaped : Bool) : Quoted ⟨depth, some (quote, escaped)⟩ := by
            intro quote escaped h
            cases h
            exact hquote
          simp only
          split
          · exact ih (hstring _)
          · split
            · exact ih (hstring _)
            · split
              · refine ih fun quote escaped h => ?_
                cases h
              · exact ih (hstring _)

variable (style) in
theorem Ends.feed_newline {phase : Phase} {s : Reading} (h : Ends p phase s) (hnewline : newline ∉ p)
    (written : Bytes) : ∃ phase',
      Pass.feed p style ⟨phase, s.depth, written⟩ newline =
        some ⟨phase', (afterNewline s).depth, written ++ [newline]⟩ ∧
      Starts p phase' (afterNewline s) := by
  cases h with
  | @string quote escaped before depth hquote hbefore =>
      have hne : (newline == quote) = false := by
        rw [beq_eq_false_iff_ne]
        rintro rfl
        cases hquote
      have hslash : (newline == backslash) = false := rfl
      refine ⟨.string quote false (lastBytes p before), ?_, .string hquote hbefore⟩
      unfold Pass.feed
      simp only [hslash, hne, Bool.false_eq_true, if_false, ite_self]
      rfl
  | @code recent depth =>
      refine ⟨.lineStart, ?_, .lineStart⟩
      have hnomatch : (!p.isEmpty && Pass.hold p recent newline == p) = false := by
        cases hempty : p.isEmpty with
        | true => rfl
        | false =>
            rw [Bool.not_false, Bool.true_and, beq_eq_false_iff_ne]
            intro hheld
            refine hnewline ?_
            have hpos : 0 < p.length := List.length_pos_iff.2 (List.isEmpty_eq_false_iff.1 hempty)
            have hle : (recent ++ [newline]).length - p.length ≤ recent.length := by
              rw [List.length_append, List.length_singleton]
              omega
            rw [← hheld, Pass.hold, hempty, if_neg Bool.false_ne_true,
              List.drop_append_of_le_length hle]
            simp
      unfold Pass.feed Pass.readCode
      simp only [hnomatch, Bool.false_eq_true, if_false]
      rfl
  | comment => exact ⟨.lineStart, rfl, .lineStart⟩

/-! ## The indentation of a line -/

theorem toInt32_eq {x : Int} (hlow : -2 ^ 31 ≤ x) (hhigh : x < 2 ^ 31) : toInt32 x = x := by
  unfold toInt32
  omega

theorem indentAt_eq {s : Reading} (h : s.Shallow style) (c : UInt8) :
    Pass.indentAt style s.depth c = indentString (lineColumn s style c) style := by
  obtain ⟨hdepth, hlow, hhigh⟩ := h
  have hclosed : max 0 ((s.depth : Int) - if isCloser c then 1 else 0) =
      ((if isCloser c then s.depth - 1 else s.depth : Nat) : Int) := by
    split <;> omega
  unfold Pass.indentAt lineColumn
  rw [hclosed]
  generalize hless : (if isCloser c then s.depth - 1 else s.depth) = depth
  have hle : depth ≤ s.depth := by
    rw [← hless]
    split <;> omega
  have hint : toInt32 (depth : Int) = depth := toInt32_eq (by omega) (by omega)
  -- the product lies between zero and that with the whole depth
  have hbetween : -2 ^ 31 ≤ depth * style.width ∧ depth * style.width < 2 ^ 31 := by
    have hcast : (depth : Int) ≤ s.depth := Int.ofNat_le.2 hle
    have hpos : (0 : Int) ≤ depth := Int.natCast_nonneg depth
    rcases Int.le_total 0 style.width with hwidth | hwidth
    · have hmore := Int.mul_le_mul_of_nonneg_right hcast hwidth
      have hzero := Int.mul_nonneg hpos hwidth
      omega
    · have hmore := Int.mul_le_mul_of_nonpos_right hcast hwidth
      have hzero := Int.mul_nonpos_of_nonneg_of_nonpos hpos hwidth
      omega
  rw [hint, toInt32_eq hbetween.1 hbetween.2]

theorem readLine_blanks (hp : ∀ c ∈ p, isWhitespace c = false) {s : Reading}
    (hs : s.string = none) {blanks : Bytes} (hblanks : ∀ c ∈ blanks, isBlank c = true)
    (rest : Bytes) : readLine p s (blanks ++ rest) = readLine p s rest := by
  induction blanks with
  | nil => rfl
  | cons c blanks ih =>
      obtain ⟨hc, htail⟩ := List.forall_mem_cons.1 hblanks
      have hcases : c = space ∨ c = tab := by simpa [isBlank] using hc
      have hnot : ¬(p ≠ [] ∧ p <+: c :: (blanks ++ rest)) := by
        rintro ⟨hne, h⟩
        cases p with
        | nil => exact hne rfl
        | cons d p =>
            obtain ⟨rfl, -⟩ := List.cons_prefix_cons.1 h
            have hwhite := hp d List.mem_cons_self
            rcases hcases with rfl | rfl <;> cases hwhite
      have hplain : isQuote c = false ∧ isOpener c = false ∧ isCloser c = false := by
        rcases hcases with rfl | rfl <;> decide
      obtain ⟨hquote, hopener, hcloser⟩ := hplain
      rw [List.cons_append, readLine]
      simp only [hs, hnot, hquote, hopener, hcloser, if_false, Bool.false_eq_true]
      exact ih htail

theorem feedAll_blanks {blanks : Bytes} (hblanks : ∀ c ∈ blanks, isBlank c = true) (pass : Pass)
    (hpass : pass.phase = .lineStart) (rest : Bytes) :
    Pass.feedAll p style pass (blanks ++ rest) = Pass.feedAll p style pass rest := by
  induction blanks with
  | nil => rfl
  | cons c blanks ih =>
      obtain ⟨hc, htail⟩ := List.forall_mem_cons.1 hblanks
      rw [List.cons_append, feedAll_cons]
      unfold Pass.feed
      simp only [hpass, hc, if_true, Option.bind_some]
      exact ih htail

theorem feedAll_lineStart {c : UInt8} (hblank : isBlank c = false) (hne : c ≠ newline) (depth : Nat)
    (written rest : Bytes) : Pass.feedAll p style ⟨.lineStart, depth, written⟩ (c :: rest) =
      Pass.feedAll p style ⟨.code [], depth, written ++ Pass.indentAt style depth c⟩ (c :: rest) := by
  have hend : (c == newline) = false := beq_eq_false_iff_ne.2 hne
  rw [feedAll_cons, feedAll_cons]
  simp only [Pass.feed, hblank, hend, Bool.false_eq_true, if_false]
  rfl

theorem Starts.quoted {phase : Phase} {s : Reading} (h : Starts p phase s) : Quoted s := by
  intro quote escaped heq
  cases h with
  | string hquote => cases heq; exact hquote
  | lineStart => cases heq

theorem Starts.line (hp : Neutral p) (hwhite : ∀ c ∈ p, isWhitespace c = false) {body : Bytes}
    (hbody : newline ∉ body) {phase : Phase} {s : Reading} (h : Starts p phase s)
    (written : Bytes) :
    (readLine p s body = none →
      Pass.feedAll p style ⟨phase, s.depth, written⟩ body = none) ∧
      ∀ next, readLine p s body = some next → ∃ phase' written',
        Pass.feedAll p style ⟨phase, s.depth, written⟩ body = some ⟨phase', next.depth, written'⟩ ∧
        (s.Shallow style → written' = written ++ indentLine style (s, body)) ∧
        (Ends p phase' next ∨ phase' = .lineStart ∧ next = s ∧ s.string = none) := by
  have hnewline : newline ∉ p := fun hmem => by cases hwhite newline hmem
  cases h with
  | @string quote escaped before depth hquote hbefore =>
      obtain ⟨hnone, hsome⟩ := readLine_tracks style hp hnewline hbody
        (@Tracks.string p quote escaped before _ depth hquote hbefore) written
      refine ⟨hnone, fun next hnext => ?_⟩
      obtain ⟨phase', hfeed, hends⟩ := hsome next hnext
      exact ⟨phase', _, hfeed, fun _ => rfl, .inl hends⟩
  | @lineStart depth =>
      have hsplit : body.takeWhile isBlank ++ body.dropWhile isBlank = body :=
        List.takeWhile_append_dropWhile
      have hblanks : ∀ c ∈ body.takeWhile isBlank, isBlank c = true := by
        intro c hc
        simpa using List.mem_takeWhile_imp hc
      have hread : readLine p ⟨depth, none⟩ body = readLine p ⟨depth, none⟩ (body.dropWhile isBlank) := by
        conv_lhs => rw [← hsplit]
        exact readLine_blanks hwhite rfl hblanks _
      have hfeed : Pass.feedAll p style ⟨.lineStart, depth, written⟩ body =
          Pass.feedAll p style ⟨.lineStart, depth, written⟩ (body.dropWhile isBlank) := by
        conv_lhs => rw [← hsplit]
        exact feedAll_blanks hblanks _ rfl _
      have hrest : newline ∉ body.dropWhile isBlank := fun hmem =>
        hbody (List.dropWhile_subset _ hmem)
      rw [hread, hfeed]
      cases hdrop : body.dropWhile isBlank with
      | nil =>
          refine ⟨fun hnone => ?_, fun next hnext => ?_⟩
          · cases hnone
          · cases hnext
            have hline : indentLine style (⟨depth, none⟩, body) = [] := by simp [indentLine, hdrop]
            exact ⟨.lineStart, written, rfl, fun _ => by rw [hline, List.append_nil],
              .inr ⟨rfl, rfl, rfl⟩⟩
      | cons c rest =>
          rw [hdrop] at hrest
          have hne : c ≠ newline := fun heq => hrest (heq ▸ List.mem_cons_self)
          have hnotblank : isBlank c = false := by
            have hhead := List.head?_dropWhile_not isBlank body
            rw [hdrop] at hhead
            simpa using hhead
          have hheld : lastBytes p ([] ++ []) = [] := by simp [lastBytes]
          have hline : indentLine style (⟨depth, none⟩, body) =
              indentString (lineColumn ⟨depth, none⟩ style c) style ++ c :: rest := by
            simp [indentLine, hdrop, isNewline, hne]
          obtain ⟨hnone, hsome⟩ := readLine_tracks style hp hnewline hrest
            (@Tracks.code p [] [] _ depth (.inl rfl) .nil)
            (written ++ Pass.indentAt style depth c)
          rw [hheld] at hnone hsome
          rw [feedAll_lineStart hnotblank hne]
          refine ⟨hnone, fun next hnext => ?_⟩
          obtain ⟨phase', hfeed, hends⟩ := hsome next hnext
          refine ⟨phase', _, hfeed, fun hshallow => ?_, .inl hends⟩
          have hindent : Pass.indentAt style depth c = _ := indentAt_eq hshallow c
          rw [hline, hindent, List.append_assoc]

theorem indentLine_append_newline (s : Reading) {body : Bytes} (hbody : newline ∉ body) :
    indentLine style (s, body ++ [newline]) = indentLine style (s, body) ++ [newline] := by
  unfold indentLine
  split
  · rfl
  · have hdrop : (body ++ [newline]).dropWhile isBlank = body.dropWhile isBlank ++ [newline] := by
      rw [List.dropWhile_append]
      split
      · rename_i hempty
        rw [List.isEmpty_iff.1 hempty]
        rfl
      · rfl
    simp only [hdrop]
    cases hrest : body.dropWhile isBlank with
    | nil => rfl
    | cons c rest =>
        have hne : c ≠ newline := by
          rintro rfl
          exact hbody (List.dropWhile_subset _ (hrest ▸ List.mem_cons_self))
        simp [isNewline, hne]

theorem Starts.terminated (hp : Neutral p) (hwhite : ∀ c ∈ p, isWhitespace c = false) {line : Line}
    (hline : Terminated line) {phase : Phase} {s : Reading} (h : Starts p phase s)
    (written : Bytes) :
    (readLine p s line = none →
      Pass.feedAll p style ⟨phase, s.depth, written⟩ line = none) ∧
      ∀ next, readLine p s line = some next → ∃ phase' written',
        Pass.feedAll p style ⟨phase, s.depth, written⟩ line = some ⟨phase', next.depth, written'⟩ ∧
        (s.Shallow style → written' = written ++ indentLine style (s, line)) ∧
        Starts p phase' next := by
  obtain ⟨body, rfl, hbody⟩ := hline
  have hnewline : newline ∉ p := fun hmem => by cases hwhite newline hmem
  obtain ⟨hnone, hsome⟩ := h.line hp hwhite hbody written
  rw [readLine_append_newline hnewline h.quoted, feedAll_append]
  refine ⟨fun hread => ?_, fun next hread => ?_⟩
  · rw [hnone (Option.map_eq_none_iff.1 hread)]
    rfl
  · obtain ⟨middle, hbodyread, rfl⟩ := Option.map_eq_some_iff.1 hread
    obtain ⟨phase', written', hfeed, hwritten, hends⟩ := hsome middle hbodyread
    rw [hfeed, Option.bind_some, indentLine_append_newline s hbody]
    have hmore : s.Shallow style → written' ++ [newline] =
        written ++ (indentLine style (s, body) ++ [newline]) := fun hshallow => by
      rw [hwritten hshallow, List.append_assoc]
    rcases hends with hends | ⟨rfl, rfl, hstring⟩
    · obtain ⟨phase'', hend, hstarts⟩ := hends.feed_newline style hnewline written'
      refine ⟨phase'', _, ?_, hmore, hstarts⟩
      rw [feedAll_cons, hend]
      rfl
    · refine ⟨.lineStart, _, rfl, hmore, ?_⟩
      obtain ⟨depth, string⟩ := middle
      subst hstring
      exact .lineStart

theorem Ends.inString {phase : Phase} {s : Reading} (h : Ends p phase s) :
    phase.InString ↔ s.string ≠ none := by
  cases h <;> simp [Phase.InString]

theorem Starts.inString {phase : Phase} {s : Reading} (h : Starts p phase s) :
    phase.InString ↔ s.string ≠ none := by
  cases h <;> simp [Phase.InString]

variable (style) in
theorem Starts.lines (hp : Neutral p) (hwhite : ∀ c ∈ p, isWhitespace c = false)
    {lines : List Line} (hlines : Lined lines) {phase : Phase} {s : Reading}
    (h : Starts p phase s) (written : Bytes) :
    (readLines p s lines = none →
      Pass.feedAll p style ⟨phase, s.depth, written⟩ lines.flatten = none) ∧
      ∀ rows last, readLines p s lines = some (rows, last) → ∃ phase' written',
        Pass.feedAll p style ⟨phase, s.depth, written⟩ lines.flatten =
          some ⟨phase', last.depth, written'⟩ ∧
        ((∀ row ∈ rows, row.1.Shallow style) →
          written' = written ++ (rows.map (indentLine style)).flatten) ∧
        (phase'.InString ↔ last.string ≠ none) := by
  induction hlines generalizing phase s written with
  | nil =>
      refine ⟨fun hnone => ?_, fun rows last hread => ?_⟩
      · cases hnone
      · cases hread
        exact ⟨phase, written, rfl, fun _ => by simp, h.inString⟩
  | @last line hline =>
      obtain ⟨hnone, hsome⟩ := h.line hp hwhite hline.2 written
      rw [List.flatten_singleton]
      simp only [readLines, Option.bind_eq_bind, Option.bind_some]
      cases hread : readLine p s line with
      | none =>
          refine ⟨fun _ => hnone hread, fun rows last hrows => ?_⟩
          cases hrows
      | some next =>
          refine ⟨fun hrows => ?_, fun rows last hrows => ?_⟩
          · cases hrows
          · cases hrows
            obtain ⟨phase', written', hfeed, hwritten, hends⟩ := hsome next hread
            refine ⟨phase', written', hfeed, fun hshallow => ?_, ?_⟩
            · rw [hwritten (hshallow (s, line) List.mem_cons_self)]
              simp
            · rcases hends with hends | ⟨hphase, heq, hstring⟩
              · exact hends.inString
              · rw [hphase, heq, hstring]
                simp [Phase.InString]
  | @cons line lines hline hlines ih =>
      obtain ⟨hnone, hsome⟩ := h.terminated hp hwhite hline written
      rw [List.flatten_cons, feedAll_append]
      simp only [readLines, Option.bind_eq_bind]
      cases hread : readLine p s line with
      | none =>
          rw [hnone hread]
          refine ⟨fun _ => rfl, fun rows last hrows => ?_⟩
          cases hrows
      | some next =>
          obtain ⟨phase', written', hfeed, hwritten, hstarts⟩ := hsome next hread
          obtain ⟨hnone', hsome'⟩ := ih hstarts written'
          rw [hfeed, Option.bind_some]
          simp only [Option.bind_some]
          refine ⟨fun hrows => hnone' ?_, fun rows last hrows => ?_⟩
          · cases hrest : readLines p next lines with
            | none => rfl
            | some rest =>
                rw [hrest] at hrows
                cases hrows
          · obtain ⟨⟨rows', last'⟩, hrest, heq⟩ := Option.bind_eq_some_iff.1 hrows
            cases heq
            obtain ⟨phase'', written'', hfeed', hwritten', hstring⟩ := hsome' rows' last' hrest
            refine ⟨phase'', written'', hfeed', fun hshallow => ?_, hstring⟩
            obtain ⟨hfirst, hmore⟩ := List.forall_mem_cons.1 hshallow
            rw [hwritten' hmore, hwritten hfirst, List.map_cons, List.flatten_cons,
              List.append_assoc]

/-! ## What is written is read again -/

variable (style) in
theorem indentLine_code {s : Reading} (hs : s.string = none) (line : Line) :
    ∃ blanks, (∀ c ∈ blanks, isBlank c = true) ∧
      indentLine style (s, line) = blanks ++ line.dropWhile isBlank := by
  unfold indentLine
  simp only [hs, Option.isSome_none, Bool.false_eq_true, if_false]
  cases line.dropWhile isBlank with
  | nil => exact ⟨[], by simp, rfl⟩
  | cons c rest =>
      by_cases hend : isNewline c = true
      · exact ⟨[], by simp, by simp [hend]⟩
      · refine ⟨indentString (lineColumn s style c) style, fun d hd => ?_, by simp [hend]⟩
        exact isBlank_of_mem_indentString hd

theorem indentLine_congr {s : Reading} (hs : s.string = none) {line line' : Line}
    (h : line.dropWhile isBlank = line'.dropWhile isBlank) :
    indentLine style (s, line) = indentLine style (s, line') := by
  simp [indentLine, hs, h]

theorem dropWhile_blanks {blanks : Bytes} (hblanks : ∀ c ∈ blanks, isBlank c = true)
    (line : Line) : (blanks ++ line.dropWhile isBlank).dropWhile isBlank = line.dropWhile isBlank := by
  rw [List.dropWhile_append_of_pos hblanks]
  exact List.dropWhile_idempotent _ _

theorem indentLine_idem (s : Reading) (line : Line) :
    indentLine style (s, indentLine style (s, line)) = indentLine style (s, line) := by
  cases hs : s.string with
  | some open_ => simp [indentLine, hs]
  | none =>
      obtain ⟨blanks, hblanks, heq⟩ := indentLine_code style hs line
      refine indentLine_congr hs ?_
      rw [heq, dropWhile_blanks hblanks]

variable (style) in
theorem readLine_indentLine (hwhite : ∀ c ∈ p, isWhitespace c = false) (s : Reading)
    (line : Line) : readLine p s (indentLine style (s, line)) = readLine p s line := by
  cases hs : s.string with
  | some open_ => simp [indentLine, hs]
  | none =>
      obtain ⟨blanks, hblanks, heq⟩ := indentLine_code style hs line
      have hsplit : line.takeWhile isBlank ++ line.dropWhile isBlank = line :=
        List.takeWhile_append_dropWhile
      have htake : ∀ c ∈ line.takeWhile isBlank, isBlank c = true := by
        intro c hc
        simpa using List.mem_takeWhile_imp hc
      rw [heq, readLine_blanks hwhite hs hblanks]
      conv_rhs => rw [← hsplit]
      exact (readLine_blanks hwhite hs htake _).symm

theorem newline_not_mem_indentLine (s : Reading) {line : Line} (h : newline ∉ line) :
    newline ∉ indentLine style (s, line) := by
  cases hs : s.string with
  | some open_ => simpa [indentLine, hs] using h
  | none =>
      obtain ⟨blanks, hblanks, heq⟩ := indentLine_code style hs line
      rw [heq, List.mem_append]
      rintro (hmem | hmem)
      · cases hblanks newline hmem
      · exact h (List.dropWhile_subset _ hmem)

variable (style) in
theorem readLines_indented (hwhite : ∀ c ∈ p, isWhitespace c = false) {lines : List Line}
    (hlines : Lined lines) {s last : Reading} {rows : List (Reading × Line)}
    (h : readLines p s lines = some (rows, last)) : ∃ rows',
      Lined (rows'.map (·.2)) ∧
      (rows'.map (·.2)).flatten = (rows.map (indentLine style)).flatten ∧
      readLines p s (rows'.map (·.2)) = some (rows', last) ∧
      rows'.map (indentLine style) = rows'.map (·.2) ∧
      ∀ row' ∈ rows', ∃ row ∈ rows, row'.1 = row.1 := by
  induction hlines generalizing s last rows with
  | nil =>
      cases h
      exact ⟨[], .nil, rfl, rfl, rfl, by simp⟩
  | @last line hline =>
      simp only [readLines, Option.bind_eq_bind, Option.bind_some] at h
      obtain ⟨next, hnext, heq⟩ := Option.bind_eq_some_iff.1 h
      cases heq
      by_cases hnil : indentLine style (s, line) = []
      · refine ⟨[], .nil, by simp [hnil], ?_, rfl, by simp⟩
        have hread := readLine_indentLine style hwhite s line
        rw [hnil] at hread
        rw [hnext] at hread
        cases hread
        rfl
      · refine ⟨[(s, indentLine style (s, line))],
          .last ⟨hnil, newline_not_mem_indentLine s hline.2⟩, by simp, ?_, ?_, by simp⟩
        · simp [readLines, readLine_indentLine style hwhite, hnext]
        · simp [indentLine_idem]
  | @cons line lines hline hlines ih =>
      simp only [readLines, Option.bind_eq_bind] at h
      obtain ⟨next, hnext, h⟩ := Option.bind_eq_some_iff.1 h
      obtain ⟨⟨rows, last⟩, hrest, heq⟩ := Option.bind_eq_some_iff.1 h
      cases heq
      obtain ⟨rows', hlined, hflatten, hread, hindent, hfrom⟩ := ih hrest
      obtain ⟨body, rfl, hbody⟩ := hline
      have hterminated : Terminated (indentLine style (s, body ++ [newline])) :=
        ⟨_, indentLine_append_newline s hbody, newline_not_mem_indentLine s hbody⟩
      refine ⟨(s, indentLine style (s, body ++ [newline])) :: rows', .cons hterminated hlined, ?_, ?_,
        ?_, ?_⟩
      · simp [hflatten]
      · simp [readLines, readLine_indentLine style hwhite, hnext, hread]
      · simp [indentLine_idem, hindent]
      · intro row' hrow'
        rcases List.mem_cons.1 hrow' with rfl | hrow'
        · exact ⟨_, List.mem_cons_self, rfl⟩
        · obtain ⟨row, hrow, heq⟩ := hfrom row' hrow'
          exact ⟨row, List.mem_cons_of_mem _ hrow, heq⟩

end Ned.Editor.Format
