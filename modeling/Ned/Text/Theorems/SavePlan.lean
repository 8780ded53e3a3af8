import Ned.Text.Lemmas.SavePlan

/-!
# Lemmas on the streaming writer

What the writer has put out and what it holds back after some bytes of the content, in terms of the
content with line feeds. Trimming splits a text into what is certain to stay, the line feeds that may be
trailing, and the blanks at the end of its last line.
-/

namespace Ned.Text.StreamingSaveWriter

/-- The options of a writer. -/
structure Options where
  ending : LineEnding
  trim : Bool
  ensureFinalNewline : Bool

variable {sink : EncodingSink} {options : Options} {text blanks : Bytes} {count : Nat}
  {writer : StreamingSaveWriter}

/-- The writer has put out `text`, given in pieces to `sink` and still buffered, and holds back
`blanks` and `count` line feeds. -/
structure At (sink : EncodingSink) (options : Options) (text blanks : Bytes) (count : Nat)
    (writer : StreamingSaveWriter) : Prop where
  out : ∃ pieces : List Bytes, writer.file = pieces.foldl EncodingSink.write sink ∧
    pieces.flatten ++ writer.outBuffer = expand options.ending text
  ending : writer.ending = options.ending
  trim : writer.trim = options.trim
  ensureFinalNewline : writer.ensureFinalNewline = options.ensureFinalNewline
  pendingWhitespace : writer.pendingWhitespace = blanks
  pendingNewlineCount : writer.pendingNewlineCount = count
  wroteAnything : writer.wroteAnything = !text.isEmpty
  endsWithNewline : writer.endsWithNewline = (text.getLast? == some newline)

theorem At.flushBuffer (h : At sink options text blanks count writer) :
    At sink options text blanks count writer.flushBuffer := by
  obtain ⟨pieces, hfile, hout⟩ := h.out
  unfold StreamingSaveWriter.flushBuffer
  split
  · exact h
  · refine { h with out := ⟨pieces ++ [writer.outBuffer], ?_, ?_⟩ }
    · rw [List.foldl_append, ← hfile]
      rfl
    · rw [List.flatten_append, List.append_nil, ← hout]
      simp

theorem At.maybeFlush (h : At sink options text blanks count writer) :
    At sink options text blanks count writer.maybeFlush := by
  unfold StreamingSaveWriter.maybeFlush
  split
  · exact h.flushBuffer
  · exact h

theorem At.writeByte (h : At sink options text blanks count writer) {c : UInt8} (hc : c ≠ newline) :
    At sink options (text ++ [c]) blanks count (writer.writeByte c) := by
  obtain ⟨pieces, hfile, hout⟩ := h.out
  refine At.maybeFlush { h with out := ⟨pieces, hfile, ?_⟩, wroteAnything := ?_, endsWithNewline := ?_ }
  · rw [expand_append, expand_cons_of_ne hc, expand_nil, ← hout, List.append_assoc]
  · simp
  · simp [hc]

theorem At.writeNewline (h : At sink options text blanks count writer) :
    At sink options (text ++ [newline]) blanks count writer.writeNewline := by
  obtain ⟨pieces, hfile, hout⟩ := h.out
  refine At.maybeFlush { h with out := ⟨pieces, hfile, ?_⟩, wroteAnything := ?_, endsWithNewline := ?_ }
  · rw [expand_append, expand_newline_cons, expand_nil, List.append_nil, ← hout, h.ending,
      List.append_assoc]
  · simp
  · simp

theorem At.writeNewlines (h : At sink options text blanks count writer) (n : Nat) :
    At sink options (text ++ List.replicate n newline) blanks count (writer.writeNewlines n) := by
  induction n generalizing text writer with
  | zero => simpa [StreamingSaveWriter.writeNewlines] using h
  | succ n ih =>
      have := ih h.writeNewline
      rwa [List.append_assoc, List.singleton_append, ← List.replicate_succ] at this

theorem At.writeBytes (h : At sink options text blanks count writer) {bytes : Bytes}
    (hbytes : ∀ c ∈ bytes, c ≠ newline) :
    At sink options (text ++ bytes) blanks count
      (bytes.foldl StreamingSaveWriter.writeByte writer) := by
  induction bytes generalizing text writer with
  | nil => simpa using h
  | cons c bytes ih =>
      obtain ⟨hc, hbytes⟩ := List.forall_mem_cons.1 hbytes
      have := ih (h.writeByte hc) hbytes
      rwa [List.append_assoc, List.singleton_append] at this

theorem At.writePendingNewlines (h : At sink options text blanks count writer) :
    At sink options (text ++ List.replicate count newline) blanks 0 writer.writePendingNewlines := by
  unfold StreamingSaveWriter.writePendingNewlines
  rw [h.pendingNewlineCount]
  exact { h.writeNewlines count with pendingNewlineCount := rfl }

theorem At.writePendingWhitespace (h : At sink options text blanks count writer)
    (hblanks : ∀ c ∈ blanks, c ≠ newline) :
    At sink options (text ++ blanks) [] count writer.writePendingWhitespace := by
  unfold StreamingSaveWriter.writePendingWhitespace
  rw [h.pendingWhitespace]
  exact { h.writeBytes hblanks with pendingWhitespace := rfl }

/-! ## Trimming as a fold -/

/-- The trimmed text so far, and the blanks at the end of its last line. -/
def trimStep (state : Bytes × Bytes) (c : UInt8) : Bytes × Bytes :=
  if isBlank c then
    (state.1, state.2 ++ [c])
  else if c = newline then
    (state.1 ++ [newline], [])
  else
    (state.1 ++ state.2 ++ [c], [])

theorem trimLines_eq_foldl (content line : Bytes) (number : Nat) (trimmed : Bytes) (keptEnd : Nat) :
    trimLines [] content line number trimmed keptEnd =
      ((content.foldl trimStep
        (trimmed ++ line.rdropWhile isBlank, line.rtakeWhile isBlank)).1, keptEnd) := by
  induction content generalizing line number trimmed keptEnd with
  | nil => rfl
  | cons c content ih =>
      rw [trimLines, List.foldl_cons]
      by_cases hc : c = newline
      · subst hc
        rw [if_pos rfl, ih, List.rdropWhile_nil, List.append_nil]
        rfl
      · rw [if_neg hc, ih]
        by_cases hblank : isBlank c = true
        · rw [List.rdropWhile_concat_pos _ _ _ hblank, List.rtakeWhile_concat_pos _ _ _ hblank,
            trimStep, if_pos hblank]
        · rw [List.rdropWhile_concat_neg _ _ _ hblank, List.rtakeWhile_concat_neg _ _ _ hblank,
            trimStep, if_neg hblank, if_neg hc, List.append_assoc trimmed,
            List.rdropWhile_append_rtakeWhile, List.append_assoc]

theorem trim_eq (content : Bytes) :
    trimTrailingWhitespaceAndBlankLines content [] =
      (content.foldl trimStep ([], [])).1.rdropWhile isNewline := by
  unfold trimTrailingWhitespaceAndBlankLines
  rw [trimLines_eq_foldl]
  cases content with
  | nil => rfl
  | cons c content => rfl

/-! ## Feeding -/

/-- The writer has been fed what trims to `trimmed`, with `blanks` at the end of the last line. -/
structure Fed (sink : EncodingSink) (options : Options) (trimmed blanks : Bytes)
    (writer : StreamingSaveWriter) : Prop where
  holds : ∃ text count, At sink options text blanks count writer ∧
    trimmed = text ++ List.replicate count newline ∧ text.getLast? ≠ some newline
  blanks : ∀ c ∈ blanks, isBlank c = true

theorem At.feedByte_plain (h : At sink options text [] 0 writer) (hplain : options.trim = false)
    (c : UInt8) : At sink options (text ++ [c]) [] 0 (writer.feedByte c) := by
  have htrim : (!writer.trim) = true := by rw [h.trim, hplain]; rfl
  unfold StreamingSaveWriter.feedByte
  rw [if_pos htrim]
  split
  · rename_i hc
    rw [hc]
    exact h.writeNewline
  · rename_i hc
    exact h.writeByte hc

theorem Fed.feedByte {state : Bytes × Bytes} (h : Fed sink options state.1 state.2 writer)
    (htrims : options.trim = true) (c : UInt8) :
    Fed sink options (trimStep state c).1 (trimStep state c).2 (writer.feedByte c) := by
  obtain ⟨⟨text, count, hat, htrimmed, hlast⟩, hblanks⟩ := h
  have htrim : ¬(!writer.trim) = true := by rw [hat.trim, htrims]; exact Bool.false_ne_true
  unfold StreamingSaveWriter.feedByte trimStep
  rw [if_neg htrim]
  by_cases hblank : isBlank c = true
  · rw [if_pos hblank, if_pos hblank]
    refine ⟨⟨text, count, { hat with pendingWhitespace := ?_ }, htrimmed, hlast⟩, fun d hd => ?_⟩
    · exact congrArg (· ++ [c]) hat.pendingWhitespace
    · rcases List.mem_append.1 hd with hd | hd
      · exact hblanks d hd
      · rw [List.mem_singleton.1 hd]
        exact hblank
  · rw [if_neg hblank, if_neg hblank]
    by_cases hc : c = newline
    · rw [if_pos hc, if_pos hc]
      refine ⟨⟨text, count + 1, { hat with pendingWhitespace := rfl, pendingNewlineCount := ?_ }, ?_,
        hlast⟩, fun d hd => absurd hd List.not_mem_nil⟩
      · exact congrArg (· + 1) hat.pendingNewlineCount
      · rw [List.replicate_succ', ← List.append_assoc, ← htrimmed]
    · rw [if_neg hc, if_neg hc]
      have hnewlines := hat.writePendingNewlines
      rw [← htrimmed] at hnewlines
      have hne : ∀ d ∈ state.2, d ≠ newline := by
        rintro d hd rfl
        exact absurd (hblanks _ hd) (by decide)
      refine ⟨⟨_, 0, (hnewlines.writePendingWhitespace hne).writeByte hc, (List.append_nil _).symm,
        ?_⟩, fun d hd => absurd hd List.not_mem_nil⟩
      simp [hc]

end Ned.Text.StreamingSaveWriter

/-!
## Saving

The streaming writer and the whole-string transform write the same bytes.
-/

namespace Ned.Text

open StreamingSaveWriter

variable {ending : LineEnding} {trim ensureFinalNewline : Bool}

/-! ## The whole-string transform -/

/-- Trim, then end with a line feed, then expand the line endings. -/
theorem saveContent_eq (content : Bytes) (keep : List Nat) :
    saveContent content ending trim keep ensureFinalNewline =
      applyLineEnding (if ensureFinalNewline then
          ensureTrailingNewline
            (if trim then trimTrailingWhitespaceAndBlankLines content keep else content)
        else if trim then trimTrailingWhitespaceAndBlankLines content keep else content) ending := by
  unfold saveContent
  cases ending <;> rfl

theorem writeBlocks_eq (sink : EncodingSink) {fuel : Nat} {content : Bytes}
    (hfuel : content.length ≤ fuel) :
    ∃ pieces : List Bytes, writeBlocks sink fuel content = pieces.foldl EncodingSink.write sink ∧
      pieces.flatten = content := by
  induction fuel generalizing sink content with
  | zero =>
      obtain rfl := List.length_eq_zero_iff.1 (Nat.le_zero.1 hfuel)
      exact ⟨[], rfl, rfl⟩
  | succ fuel ih =>
      cases content with
      | nil => exact ⟨[], rfl, rfl⟩
      | cons c content =>
          have hle : ((c :: content).drop kWriteChunkBytes).length ≤ fuel := by
            rw [List.length_drop]
            simp only [List.length_cons, kWriteChunkBytes] at hfuel ⊢
            omega
          obtain ⟨pieces, hpieces, hflatten⟩ :=
            ih (sink.write ((c :: content).take kWriteChunkBytes)) hle
          refine ⟨(c :: content).take kWriteChunkBytes :: pieces, hpieces, ?_⟩
          rw [List.flatten_cons, hflatten, List.take_append_drop]

/-! ## The streaming writer -/

section Streaming

variable {sink : EncodingSink} {options : Options} {text blanks : Bytes} {count : Nat}
  {writer : StreamingSaveWriter}

theorem flushBuffer_outBuffer (writer : StreamingSaveWriter) : writer.flushBuffer.outBuffer = [] := by
  unfold flushBuffer
  split
  · rename_i hempty
    exact List.isEmpty_iff.1 hempty
  · rfl

theorem StreamingSaveWriter.At.flushed (h : At sink options text blanks count writer) :
    ∃ pieces : List Bytes, writer.flushBuffer.file = pieces.foldl EncodingSink.write sink ∧
      pieces.flatten = expand options.ending text := by
  obtain ⟨pieces, hfile, hout⟩ := h.flushBuffer.out
  rw [flushBuffer_outBuffer, List.append_nil] at hout
  exact ⟨pieces, hfile, hout⟩

theorem StreamingSaveWriter.At.finish (h : At sink options text blanks count writer) :
    ∃ pieces : List Bytes, writer.finish.file = pieces.foldl EncodingSink.write sink ∧
      pieces.flatten = expand options.ending
        (if options.ensureFinalNewline then ensureTrailingNewline text else text) := by
  unfold StreamingSaveWriter.finish ensureTrailingNewline
  rw [h.ensureFinalNewline, h.wroteAnything, h.endsWithNewline]
  cases options.ensureFinalNewline with
  | false => exact h.flushed
  | true =>
      rw [Bool.true_and, if_pos rfl]
      have hsame : (!text.isEmpty && !(text.getLast? == some newline)) =
          (!text.isEmpty && text.getLast? != some newline) := rfl
      rw [hsame]
      split
      · exact h.writeNewline.flushed
      · exact h.flushed

theorem feed_chunks (writer : StreamingSaveWriter) (chunks : List Bytes) :
    chunks.foldl StreamingSaveWriter.feed writer =
      chunks.flatten.foldl StreamingSaveWriter.feedByte writer :=
  List.foldl_flatten.symm

theorem StreamingSaveWriter.At.feed_plain (hplain : options.trim = false) {content : Bytes}
    (h : At sink options text [] 0 writer) :
    At sink options (text ++ content) [] 0
      (content.foldl StreamingSaveWriter.feedByte writer) := by
  induction content generalizing text writer with
  | nil => rwa [List.append_nil]
  | cons c content ih =>
      have := ih (h.feedByte_plain hplain c)
      rwa [List.append_assoc] at this

theorem StreamingSaveWriter.Fed.feed (htrims : options.trim = true) {content : Bytes}
    {state : Bytes × Bytes} (h : Fed sink options state.1 state.2 writer) :
    Fed sink options (content.foldl trimStep state).1 (content.foldl trimStep state).2
      (content.foldl StreamingSaveWriter.feedByte writer) := by
  induction content generalizing state writer with
  | nil => exact h
  | cons c content ih => exact ih (h.feedByte htrims c)

theorem rdropWhile_newlines (hlast : text.getLast? ≠ some newline) :
    (text ++ List.replicate count newline).rdropWhile isNewline = text := by
  induction count with
  | zero =>
      rw [List.replicate_zero, List.append_nil, List.rdropWhile_eq_self_iff]
      intro hne hnewline
      exact hlast ((List.getLast?_eq_some_getLast hne).trans (congrArg some (beq_iff_eq.1 hnewline)))
  | succ count ih =>
      rw [List.replicate_succ', ← List.append_assoc, List.rdropWhile_concat_pos _ _ _ rfl]
      exact ih

/-- However the content is cut into chunks, the pieces the writer gives to its sink make up the
transformed content. -/
theorem stream_writes (sink : EncodingSink) (ending : LineEnding) (trim ensureFinalNewline : Bool)
    (chunks : List Bytes) :
    ∃ pieces : List Bytes,
      (chunks.foldl StreamingSaveWriter.feed
        { file := sink, ending := ending, trim := trim,
          ensureFinalNewline := ensureFinalNewline }).finish.file =
        pieces.foldl EncodingSink.write sink ∧
      pieces.flatten = saveContent chunks.flatten ending trim [] ensureFinalNewline := by
  have hstart : At sink ⟨ending, trim, ensureFinalNewline⟩ [] [] 0
      { file := sink, ending := ending, trim := trim, ensureFinalNewline := ensureFinalNewline } :=
    { out := ⟨[], rfl, rfl⟩
      ending := rfl
      trim := rfl
      ensureFinalNewline := rfl
      pendingWhitespace := rfl
      pendingNewlineCount := rfl
      wroteAnything := rfl
      endsWithNewline := rfl }
  rw [feed_chunks, saveContent_eq, applyLineEnding_eq_expand]
  cases trim with
  | false =>
      have hfed : At _ _ ([] ++ chunks.flatten) _ _ _ := hstart.feed_plain rfl
      exact hfed.finish
  | true =>
      have hfirst : Fed sink ⟨ending, true, ensureFinalNewline⟩ [] [] _ :=
        ⟨⟨[], 0, hstart, rfl, by simp⟩, fun c hc => absurd hc List.not_mem_nil⟩
      have hfed : Fed _ _ (chunks.flatten.foldl trimStep ([], [])).1 _ _ := hfirst.feed rfl
      obtain ⟨⟨text, count, hat, htrimmed, hlast⟩, -⟩ := hfed
      rw [if_pos rfl, trim_eq, htrimmed, rdropWhile_newlines hlast]
      exact hat.finish

end Streaming

/-- A huge text and any other one are saved alike, and as their transform says, however the text is cut
into chunks and whatever the charset, so long as it can hold the text. -/
theorem streaming_save_writes_whole (charset : Charset) (ending : LineEnding)
    (trim ensureFinalNewline : Bool) (chunks : List Bytes) (before : Bytes) :
    let content := chunks.flatten
    let trimmed := if trim then trimTrailingWhitespaceAndBlankLines content [] else content
    let whole := applyLineEnding
      (if ensureFinalNewline then ensureTrailingNewline trimmed else trimmed) ending
    let save := fun huge => (writeBufferContent (.ofCharset { bytes := before } charset)
      { bytes := content, huge := huge } chunks ending trim [] ensureFinalNewline).finish.file
    (isUtf8Family charset = true → save true = { bytes := before ++ whole }) ∧
      (Encodable charset content → ∃ bytes, encodeCharset whole charset = some bytes ∧
        save true = { bytes := before ++ bytes } ∧ save false = { bytes := before ++ bytes }) := by
  intro content trimmed whole save
  have hwhole : saveContent content ending trim [] ensureFinalNewline = whole :=
    saveContent_eq content []
  have hsaves : ∀ bytes, encodeCharset whole charset = some bytes →
      save true = { bytes := before ++ bytes } ∧ save false = { bytes := before ++ bytes } := by
    intro bytes hbytes
    constructor
    · obtain ⟨pieces, hfile, hpieces⟩ := stream_writes (.ofCharset { bytes := before } charset) ending
        trim ensureFinalNewline chunks
      have hsave : save true =
          (pieces.foldl EncodingSink.write (.ofCharset { bytes := before } charset)).finish.file := by
        rw [← hfile]
        rfl
      rw [hsave]
      exact writes_finish before hbytes (hpieces.trans hwhole)
    · obtain ⟨pieces, hfile, hpieces⟩ := writeBlocks_eq (.ofCharset { bytes := before } charset)
        (le_refl (saveContent content ending trim [] ensureFinalNewline).length)
      have hsave : save false =
          (pieces.foldl EncodingSink.write (.ofCharset { bytes := before } charset)).finish.file := by
        rw [← hfile]
        rfl
      rw [hsave]
      exact writes_finish before hbytes (hpieces.trans hwhole)
  refine ⟨fun hfamily => (hsaves whole (encodeCharset_utf8 hfamily whole)).1, fun hcontent => ?_⟩
  obtain ⟨bytes, hbytes⟩ := hcontent.saveContent ending trim [] ensureFinalNewline
  rw [hwhole] at hbytes
  exact ⟨bytes, hbytes, hsaves bytes hbytes⟩

/-- The letter `a` with trailing blanks and lines, cut in the middle of them. -/
theorem streaming_save_sample :
    (writeBufferContent (.ofCharset {} .utf16Be) { bytes := [97, 32, 10, 10], huge := true }
      [[97, 32], [10, 10]] .crlf true [] true).finish.file = { bytes := [0, 97, 0, 13, 0, 10] } := by
  have hholds : Encodable .utf16Be [97, 32, 10, 10] := ⟨_, rfl⟩
  obtain ⟨bytes, hbytes, hsave, -⟩ :=
    (streaming_save_writes_whole .utf16Be .crlf true true [[97, 32], [10, 10]] []).2 hholds
  have hwhole : encodeCharset (applyLineEnding (ensureTrailingNewline
      (trimTrailingWhitespaceAndBlankLines [97, 32, 10, 10] [])) .crlf) .utf16Be =
        some [0, 97, 0, 13, 0, 10] := by decide
  obtain rfl := Option.some.inj (hwhole.symm.trans hbytes)
  exact hsave

end Ned.Text
