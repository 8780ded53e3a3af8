import Ned.Text.SavePlan
import Ned.Text.Theorems.Charset
import Mathlib.Tactic.SplitIfs

/-!
# Lemmas on line endings

Expanding what was normalized gives the text back exactly when it has no other line ending than the one
it is expanded to.
-/

namespace Ned.Text

/-- Line feeds expanded. -/
def expand (ending : LineEnding) (text : Bytes) : Bytes :=
  text.flatMap fun c => if c = newline then ending.bytes else [c]

@[simp] theorem expand_nil (ending : LineEnding) : expand ending [] = [] := rfl

@[simp] theorem expand_append (ending : LineEnding) (s t : Bytes) :
    expand ending (s ++ t) = expand ending s ++ expand ending t :=
  List.flatMap_append

theorem expand_newline_cons (ending : LineEnding) (text : Bytes) :
    expand ending (newline :: text) = ending.bytes ++ expand ending text := rfl

theorem expand_cons_of_ne {c : UInt8} (hc : c ≠ newline) (ending : LineEnding) (text : Bytes) :
    expand ending (c :: text) = c :: expand ending text := by
  rw [expand, List.flatMap_cons, if_neg hc]
  rfl

theorem applyLineEnding_eq_expand (text : Bytes) (ending : LineEnding) :
    applyLineEnding text ending = expand ending text := by
  unfold applyLineEnding
  split
  · rename_i hlf
    have hone : ∀ c : UInt8, (if c = newline then LineEnding.lf.bytes else [c]) = [c] := by
      intro c
      split
      · rename_i hc
        rw [hc]
        rfl
      · rfl
    rw [hlf, expand, funext hone, List.flatMap_singleton']
  · rfl

def LineEndingCounts.others (counts : LineEndingCounts) : LineEnding → Nat
  | .lf => counts.crlf + counts.cr
  | .crlf => counts.lf + counts.cr
  | .cr => counts.crlf + counts.lf

theorem newline_not_mem_expand_cr (text : Bytes) : newline ∉ expand .cr text := by
  intro hmem
  obtain ⟨c, -, hc⟩ := List.mem_flatMap.1 hmem
  split at hc
  · cases List.mem_singleton.1 hc
  · rename_i hne
    exact hne (List.mem_singleton.1 hc).symm

theorem expand_normalize_iff (text : Bytes) (ending : LineEnding) :
    expand ending (normalizeToLf text) = text ↔ (countLineEndings text).others ending = 0 := by
  have hne : newline ≠ carriageReturn := by decide
  fun_induction normalizeToLf text with
  | case1 => cases ending <;> simp [countLineEndings, LineEndingCounts.others]
  | case2 c =>
      by_cases hcr : c = carriageReturn
      · rw [if_pos hcr, expand_newline_cons, hcr]
        cases ending <;> simp [LineEnding.bytes, countLineEndings, LineEndingCounts.others, hne]
      · by_cases hc : c = newline
        · rw [if_neg hcr, hc, expand_newline_cons]
          cases ending <;> simp [LineEnding.bytes, countLineEndings, LineEndingCounts.others, hne, hne.symm]
        · rw [if_neg hcr, expand_cons_of_ne hc]
          cases ending <;> simp [countLineEndings, LineEndingCounts.others, hcr, hc]
  | case3 d text ih' ih =>
      rw [expand_newline_cons]
      by_cases hd : d = newline
      · rw [if_pos hd, hd]
        have hnot := newline_not_mem_expand_cr (normalizeToLf text)
        cases ending with
        | lf => simp [LineEnding.bytes, countLineEndings, LineEndingCounts.others, hne]
        | crlf =>
            simp only [LineEndingCounts.others] at ih'
            simp [LineEnding.bytes, countLineEndings, LineEndingCounts.others, ih']
        | cr =>
            have hsplit : expand .cr (normalizeToLf text) ≠ newline :: text := by
              intro heq
              rw [heq] at hnot
              exact hnot List.mem_cons_self
            simp [LineEnding.bytes, countLineEndings, LineEndingCounts.others, hsplit]
      · rw [if_neg hd]
        cases ending with
        | lf => simp [LineEnding.bytes, countLineEndings, LineEndingCounts.others, hne, hd]
        | crlf => simp [LineEnding.bytes, countLineEndings, LineEndingCounts.others, hd, Ne.symm hd]
        | cr =>
            simp only [LineEndingCounts.others] at ih
            simp [LineEnding.bytes, countLineEndings, LineEndingCounts.others, hd, ih]
  | case4 c d text hcr ih =>
      by_cases hc : c = newline
      · rw [hc, expand_newline_cons]
        cases ending with
        | lf =>
            simp only [LineEndingCounts.others] at ih
            simp [LineEnding.bytes, countLineEndings, LineEndingCounts.others, hne, ih]
        | crlf => simp [LineEnding.bytes, countLineEndings, LineEndingCounts.others, hne, hne.symm]
        | cr => simp [LineEnding.bytes, countLineEndings, LineEndingCounts.others, hne, hne.symm]
      · simp only [expand_cons_of_ne hc, List.cons.injEq, true_and, ih]
        cases ending <;> simp [countLineEndings, LineEndingCounts.others, hcr, hc]

def OneLineEnding (text : Bytes) : Prop :=
  ∃ ending, (countLineEndings text).others ending = 0

theorem oneLineEnding_iff (text : Bytes) :
    OneLineEnding text ↔ (countLineEndings text).others (detectLineEnding text) = 0 := by
  refine ⟨fun ⟨ending, h⟩ => ?_, fun h => ⟨_, h⟩⟩
  unfold detectLineEnding
  generalize countLineEndings text = counts at h ⊢
  dsimp only
  split_ifs <;> cases ending <;> simp only [LineEndingCounts.others] at h ⊢ <;> omega

theorem applyLineEnding_normalizeToLf_iff (text : Bytes) :
    applyLineEnding (normalizeToLf text) (detectLineEnding text) = text ↔ OneLineEnding text := by
  rw [applyLineEnding_eq_expand, expand_normalize_iff, oneLineEnding_iff]

theorem normalizeToLf_of_not_hasCarriageReturn {text : Bytes} (h : hasCarriageReturn text = false) :
    normalizeToLf text = text := by
  fun_induction normalizeToLf text with
  | case1 => rfl
  | case2 c =>
      have hc : c ≠ carriageReturn := by
        rintro rfl
        simp [hasCarriageReturn] at h
      rw [if_neg hc]
  | case3 d text ih ih' => simp [hasCarriageReturn] at h
  | case4 c d text hcr ih =>
      have htail : hasCarriageReturn (d :: text) = false := by
        simp only [hasCarriageReturn, List.contains_cons, Bool.or_eq_false_iff] at h ⊢
        exact h.2
      rw [ih htail]

/-!
## Lemmas on save plans

What the sink has written after some pieces, what the streaming writer has put out after some bytes, and
that no transform of a save takes a text out of its charset.
-/

open Ned.Library

variable {charset : Charset}

/-! ## What a charset can hold -/

def Encodable (charset : Charset) (text : Bytes) : Prop := ∃ bytes, encodeCharset text charset = some bytes

theorem encodeCharset_utf8 (hfamily : isUtf8Family charset = true) (text : Bytes) :
    encodeCharset text charset = some text := by
  simp [encodeCharset, CharsetEncoder.feed, CharsetEncoder.finish, hfamily]

theorem encodable_iff (hfamily : isUtf8Family charset = false) {text : Bytes} :
    Encodable charset text ↔ ∃ codepoints : List UInt32,
      (∀ cp ∈ codepoints, charset.Holds cp) ∧ text = codepoints.flatMap encodeCodepointUtf8 := by
  simp only [Encodable, encodeCharset_eq_some_iff hfamily]
  constructor
  · rintro ⟨bytes, codepoints, hholds, htext, -⟩
    exact ⟨codepoints, hholds, htext⟩
  · rintro ⟨codepoints, hholds, htext⟩
    exact ⟨_, codepoints, hholds, htext, rfl⟩

theorem encodeCodepointUtf8_ascii {c : UInt8} (hc : c < 0x80) :
    encodeCodepointUtf8 c.toUInt32 = [c] := by
  have hlt : c.toUInt32 < 0x80 := by
    rw [UInt32.lt_iff_toNat_lt, UInt8.toNat_toUInt32]
    exact UInt8.lt_iff_toNat_lt.1 hc
  rw [encodeCodepointUtf8, if_pos hlt, UInt8.toUInt8_toUInt32]

theorem holds_ascii (charset : Charset) {c : UInt8} (hc : c < 0x80) : charset.Holds c.toUInt32 := by
  have hlt : c.toNat < 128 := UInt8.lt_iff_toNat_lt.1 hc
  rw [Charset.Holds, isScalarValue_iff, UInt32.le_iff_toNat_le, UInt8.toNat_toUInt32]
  exact ⟨by omega, fun _ => Nat.le_of_lt (hlt.trans (by decide))⟩

theorem encode_eq_of_ascii_mem {cp : UInt32} (h : IsScalarValue cp) {c : UInt8} (hc : c < 0x80)
    (hmem : c ∈ encodeCodepointUtf8 cp) : encodeCodepointUtf8 cp = [c] := by
  have hlt : c.toNat < 128 := UInt8.lt_iff_toNat_lt.1 hc
  have hbytes := encodeCodepointUtf8_toNat ((isScalarValue_iff cp).1 h).1
  have hnat := List.mem_map_of_mem (f := UInt8.toNat) hmem
  rw [hbytes] at hnat
  by_cases hsmall : cp.toNat < 0x80
  · rw [if_pos hsmall, List.mem_singleton] at hnat
    rw [eq_comm, eq_encode_iff, hbytes, if_pos hsmall, List.map_singleton, hnat]
  · rw [if_neg hsmall] at hnat
    split_ifs at hnat <;> simp at hnat <;> omega

theorem eq_of_encode_eq {cp cp' : UInt32} (h : IsScalarValue cp) (h' : IsScalarValue cp')
    (heq : encodeCodepointUtf8 cp = encodeCodepointUtf8 cp') : cp = cp' := by
  obtain ⟨lead, tail, hencode, hlength⟩ := exists_encode_cons h
  have hdecode := (decodeSequence_eq_some_iff hlength).2 ⟨h, hencode.symm⟩
  rw [(decodeSequence_eq_some_iff hlength).2 ⟨h', hencode.symm.trans heq⟩] at hdecode
  exact (Option.some.inj hdecode).symm

theorem flatMap_split {a b : Bytes} {c : UInt8} (hc : c < 0x80) {codepoints : List UInt32}
    (hscalar : ∀ cp ∈ codepoints, IsScalarValue cp)
    (h : a ++ c :: b = codepoints.flatMap encodeCodepointUtf8) :
    ∃ before after, codepoints = before ++ c.toUInt32 :: after ∧
      a = before.flatMap encodeCodepointUtf8 ∧ b = after.flatMap encodeCodepointUtf8 := by
  induction codepoints generalizing a with
  | nil => exact absurd h (by simp)
  | cons cp codepoints ih =>
      obtain ⟨hcp, hscalar⟩ := List.forall_mem_cons.1 hscalar
      have hlater : ∀ a', a = encodeCodepointUtf8 cp ++ a' →
          a' ++ c :: b = codepoints.flatMap encodeCodepointUtf8 →
          ∃ before after, cp :: codepoints = before ++ c.toUInt32 :: after ∧
            a = before.flatMap encodeCodepointUtf8 ∧ b = after.flatMap encodeCodepointUtf8 := by
        rintro a' rfl hrest
        obtain ⟨before, after, rfl, rfl, rfl⟩ := ih hscalar hrest
        exact ⟨cp :: before, after, rfl, rfl, rfl⟩
      rw [List.flatMap_cons] at h
      rcases List.append_eq_append_iff.1 h with ⟨a', ha, hrest⟩ | ⟨a', ha, hrest⟩
      · cases a' with
        | nil =>
            rw [List.append_nil] at ha
            exact hlater [] (by rw [List.append_nil, ha]) hrest
        | cons d a' =>
            obtain ⟨rfl, htail⟩ := List.cons.inj hrest
            have hone := encode_eq_of_ascii_mem hcp hc (ha ▸ List.mem_append_right a List.mem_cons_self)
            rw [hone] at ha
            obtain ⟨rfl, hd⟩ : a = [] ∧ c :: a' = [c] := by
              cases a with
              | nil => exact ⟨rfl, ha.symm⟩
              | cons e a => simp at ha
            have hcp : cp = c.toUInt32 :=
              eq_of_encode_eq hcp (holds_ascii .utf8 hc).1
                (hone.trans (encodeCodepointUtf8_ascii hc).symm)
            refine ⟨[], codepoints, by rw [hcp]; rfl, rfl, ?_⟩
            have hb : b = a' ++ codepoints.flatMap encodeCodepointUtf8 := htail
            rw [hb, (List.cons.inj hd).2]
            rfl
      · exact hlater a' ha hrest.symm

theorem encodable_of_utf8 (hfamily : isUtf8Family charset = true) (text : Bytes) :
    Encodable charset text :=
  ⟨text, encodeCharset_utf8 hfamily text⟩

theorem encodable_split_iff {a b : Bytes} {c : UInt8} (hc : c < 0x80) :
    Encodable charset (a ++ c :: b) ↔ Encodable charset a ∧ Encodable charset b := by
  cases hfamily : isUtf8Family charset with
  | true =>
      have h := encodable_of_utf8 hfamily
      exact iff_of_true (h _) ⟨h a, h b⟩
  | false =>
      simp only [encodable_iff hfamily]
      constructor
      · rintro ⟨codepoints, hholds, htext⟩
        obtain ⟨before, after, rfl, rfl, rfl⟩ :=
          flatMap_split hc (fun cp hcp => (hholds cp hcp).1) htext
        refine ⟨⟨before, fun cp hcp => hholds cp ?_, rfl⟩, ⟨after, fun cp hcp => hholds cp ?_, rfl⟩⟩
        · exact List.mem_append_left _ hcp
        · exact List.mem_append_right _ (List.mem_cons_of_mem _ hcp)
      · rintro ⟨⟨before, hbefore, rfl⟩, ⟨after, hafter, rfl⟩⟩
        refine ⟨before ++ c.toUInt32 :: after, fun cp hcp => ?_, ?_⟩
        · rcases List.mem_append.1 hcp with hcp | hcp
          · exact hbefore cp hcp
          · rcases List.mem_cons.1 hcp with rfl | hcp
            · exact holds_ascii charset hc
            · exact hafter cp hcp
        · rw [List.flatMap_append, List.flatMap_cons, encodeCodepointUtf8_ascii hc]
          rfl

theorem encodable_nil : Encodable charset [] := by
  cases charset <;> exact ⟨_, rfl⟩

theorem Encodable.left {a b : Bytes} {c : UInt8} (h : Encodable charset (a ++ c :: b))
    (hc : c < 0x80) : Encodable charset a :=
  ((encodable_split_iff hc).1 h).1

theorem Encodable.right {a b : Bytes} {c : UInt8} (h : Encodable charset (a ++ c :: b))
    (hc : c < 0x80) : Encodable charset b :=
  ((encodable_split_iff hc).1 h).2

theorem Encodable.join {a b : Bytes} {c : UInt8} (ha : Encodable charset a)
    (hb : Encodable charset b) (hc : c < 0x80) : Encodable charset (a ++ c :: b) :=
  (encodable_split_iff hc).2 ⟨ha, hb⟩

/-! ## The transforms stay in the charset -/

theorem newline_ascii : newline < 0x80 := by decide

theorem carriageReturn_ascii : carriageReturn < 0x80 := by decide

theorem isBlank_ascii {c : UInt8} (h : isBlank c = true) : c < 0x80 := by
  simp only [isBlank, Bool.or_eq_true, beq_iff_eq] at h
  rcases h with rfl | rfl <;> decide

theorem isNewline_ascii {c : UInt8} (h : isNewline c = true) : c < 0x80 := by
  rw [isNewline, beq_iff_eq] at h
  rw [h]
  exact newline_ascii

theorem Encodable.rdropWhile {a b : Bytes} {p : UInt8 → Bool} (hp : ∀ c, p c = true → c < 0x80)
    (h : Encodable charset (a ++ b)) : Encodable charset (a ++ b.rdropWhile p) := by
  induction b using List.reverseRecOn with
  | nil => exact h
  | append_singleton b c ih =>
      rw [← List.append_assoc] at h
      by_cases hc : p c = true
      · rw [List.rdropWhile_concat_pos _ _ _ hc]
        exact ih (h.left (hp c hc))
      · rw [List.rdropWhile_concat_neg _ _ _ hc, ← List.append_assoc]
        exact h

theorem Encodable.trimLine {kept : Bool} {line trimmed : Bytes}
    (h : Encodable charset (trimmed ++ line)) :
    Encodable charset (trimmed ++ trimLine kept line) := by
  unfold Text.trimLine
  split
  · exact h
  · exact h.rdropWhile fun c => isBlank_ascii

theorem encodable_trimLines {keep : List Nat} {content line trimmed : Bytes} {number keptEnd : Nat}
    (h : Encodable charset (trimmed ++ line ++ content)) :
    Encodable charset (trimLines keep content line number trimmed keptEnd).1 := by
  induction content generalizing line trimmed number keptEnd with
  | nil =>
      rw [List.append_nil] at h
      exact h.trimLine
  | cons c content ih =>
      rw [trimLines]
      split
      · rename_i hc
        subst hc
        refine ih ?_
        rw [List.append_nil, List.append_assoc]
        exact (h.left newline_ascii).trimLine.join (h.right newline_ascii) newline_ascii
      · refine ih ?_
        rw [List.append_assoc, List.append_assoc, List.singleton_append, ← List.append_assoc]
        exact h

theorem Encodable.trimTrailingWhitespaceAndBlankLines {content : Bytes}
    (h : Encodable charset content) (keep : List Nat) :
    Encodable charset (trimTrailingWhitespaceAndBlankLines content keep) := by
  unfold Text.trimTrailingWhitespaceAndBlankLines
  split
  · exact h
  · have htrimmed : Encodable charset (trimLines keep content [] 0 [] 0).1 := encodable_trimLines h
    rw [← List.take_append_drop (trimLines keep content [] 0 [] 0).2
      (trimLines keep content [] 0 [] 0).1] at htrimmed
    exact htrimmed.rdropWhile fun c => isNewline_ascii

theorem Encodable.ensureTrailingNewline {content : Bytes} (h : Encodable charset content) :
    Encodable charset (ensureTrailingNewline content) := by
  unfold Text.ensureTrailingNewline
  split
  · exact h.join encodable_nil newline_ascii
  · exact h

theorem Encodable.ending {a b : Bytes} (ha : Encodable charset a) (hb : Encodable charset b)
    (ending : LineEnding) : Encodable charset (a ++ (ending.bytes ++ b)) := by
  cases ending with
  | lf => exact ha.join hb newline_ascii
  | crlf => exact ha.join (encodable_nil.join hb newline_ascii) carriageReturn_ascii
  | cr => exact ha.join hb carriageReturn_ascii

theorem encodable_flatMap_ending (before : Bytes) {content : Bytes} {ending : LineEnding}
    (h : Encodable charset (before ++ content)) :
    Encodable charset
      (before ++ content.flatMap fun c => if c = newline then ending.bytes else [c]) := by
  induction content generalizing before with
  | nil => exact h
  | cons c content ih =>
      rw [List.flatMap_cons]
      split
      · rename_i hc
        subst hc
        exact (h.left newline_ascii).ending (ih [] (h.right newline_ascii)) ending
      · have := ih (before ++ [c]) (by rw [List.append_assoc]; exact h)
        rwa [List.append_assoc] at this

theorem Encodable.applyLineEnding {content : Bytes} (h : Encodable charset content)
    (ending : LineEnding) : Encodable charset (applyLineEnding content ending) := by
  unfold Text.applyLineEnding
  split
  · exact h
  · exact encodable_flatMap_ending [] h

theorem Encodable.saveContent {content : Bytes} (h : Encodable charset content)
    (ending : LineEnding) (trim : Bool) (keep : List Nat) (ensure : Bool) :
    Encodable charset (saveContent content ending trim keep ensure) := by
  have htrim : Encodable charset
      (if trim then Text.trimTrailingWhitespaceAndBlankLines content keep else content) := by
    split
    · exact h.trimTrailingWhitespaceAndBlankLines keep
    · exact h
  have hensure : ∀ text, Encodable charset text →
      Encodable charset (if ensure then Text.ensureTrailingNewline text else text) := by
    intro text htext
    split
    · exact htext.ensureTrailingNewline
    · exact htext
  unfold Text.saveContent
  dsimp only
  split
  · exact (hensure _ htrim).applyLineEnding ending
  · exact hensure _ htrim

/-! ## The sink -/

/-- The sink of an empty file after a text in a charset that is encoded. -/
def sinkAfter (charset : Charset) (before text : Bytes) : EncodingSink :=
  { file := { bytes := before ++ ((characterScanner charset).scan text).values.flatten }
    encoder := encoderAfter charset text
    passThrough := false }

theorem sinkAfter_write (hfamily : isUtf8Family charset = false) {before text data : Bytes}
    (hbad : ((characterScanner charset).scan (text ++ data)).bad = false) :
    (sinkAfter charset before text).write data = sinkAfter charset before (text ++ data) := by
  have hfeed := encoder_follows hfamily text data
  have hvalues := scan_append_values (characterScanner charset) text data
  simp only [sinkAfter, EncodingSink.write, hfeed, hbad, Bool.not_false, reduceIte,
    Bool.false_eq_true, OutStream.write, hvalues, List.append_assoc]

theorem sinkAfter_writes (hfamily : isUtf8Family charset = false) {before text : Bytes}
    {pieces : List Bytes}
    (hbad : ((characterScanner charset).scan (text ++ pieces.flatten)).bad = false) :
    pieces.foldl EncodingSink.write (sinkAfter charset before text) =
      sinkAfter charset before (text ++ pieces.flatten) := by
  induction pieces generalizing text with
  | nil => rw [List.foldl_nil, List.flatten_nil, List.append_nil]
  | cons piece pieces ih =>
      rw [List.flatten_cons, ← List.append_assoc] at hbad ⊢
      have hone : ((characterScanner charset).scan (text ++ piece)).bad = false := by
        refine Bool.eq_false_iff.2 fun h => ?_
        rw [scan_append_bad _ _ h] at hbad
        cases hbad
      rw [List.foldl_cons, sinkAfter_write hfamily hone, ih hbad]

theorem passThrough_writes (before : Bytes) (encoder : CharsetEncoder) (pieces : List Bytes) :
    pieces.foldl EncodingSink.write ⟨{ bytes := before }, encoder, true⟩ =
      ⟨{ bytes := before ++ pieces.flatten }, encoder, true⟩ := by
  induction pieces generalizing before with
  | nil => rw [List.foldl_nil, List.flatten_nil, List.append_nil]
  | cons piece pieces ih =>
      rw [List.foldl_cons, List.flatten_cons, ← List.append_assoc]
      exact ih (before ++ piece)

theorem writes_finish (before : Bytes) {text bytes : Bytes}
    (hencode : encodeCharset text charset = some bytes)
    {pieces : List Bytes} (hpieces : pieces.flatten = text) :
    (pieces.foldl EncodingSink.write (.ofCharset { bytes := before } charset)).finish.file =
      { bytes := before ++ bytes } := by
  cases hfamily : isUtf8Family charset with
  | true =>
      rw [encodeCharset_utf8 hfamily] at hencode
      cases hencode
      rw [EncodingSink.ofCharset, hfamily, passThrough_writes, hpieces]
      rfl
  | false =>
      obtain ⟨values, hscan, rfl⟩ := (encodeCharset_eq hfamily).1 hencode
      have hstart : EncodingSink.ofCharset { bytes := before } charset =
          sinkAfter charset before [] := by
        rw [EncodingSink.ofCharset, hfamily, sinkAfter, scan_nil, List.flatten_nil, List.append_nil]
        rfl
      have hbad : ((characterScanner charset).scan ([] ++ pieces.flatten)).bad = false := by
        rw [List.nil_append, hpieces, hscan]
      rw [hstart, sinkAfter_writes hfamily hbad, List.nil_append, hpieces]
      simp [EncodingSink.finish, CharsetEncoder.finish, sinkAfter, encoderAfter, hscan]

end Ned.Text
