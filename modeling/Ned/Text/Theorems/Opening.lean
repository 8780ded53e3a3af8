import Ned.Text.Buffer
import Ned.Text.Theorems.SavePlan

/-!
# Opening files

A file's bytes become a buffer: the guard against binary files, the charset, the line ending.
-/

namespace Ned.Text

/-! ## The binary guard -/

def kHeadBytes : Nat := 8192

def headLooksBinary (head : Bytes) (charset : Charset) : Bool :=
  if !head.contains 0 then
    false
  else if charset ≠ .utf16Le ∧ charset ≠ .utf16Be then
    true
  else
    let (_, text, fed) := CharsetDecoder.feed { charset := charset }
      (head.drop (preambleLength head charset))
    if !fed then true else text.contains 0

/-- `stated` is what the surroundings of the file say about its charset. -/
def bytesLookBinaryToLoad (stated : Option Charset) (bytes : Bytes) (chosen : Option Charset) : Bool :=
  let head := bytes.take kHeadBytes
  if !head.contains 0 then
    false
  else
    headLooksBinary head (resolveLoadCharset stated head chosen)

/-! ## Decoding -/

/-- The text of a file and the charset it is held to have; a file that does not decode keeps its
bytes, if binary files are allowed. -/
def decodeContent (content : Bytes) (allowBinary : Bool) (charset : Charset) :
    Option (Bytes × Charset) :=
  if isUtf8Family charset then
    some (content.drop (preambleLength content charset), charset)
  else
    match decodeCharset (content.drop (preambleLength content charset)) charset with
    | some decoded => some (decoded, charset)
    | none => if !allowBinary then none else some (content, .utf8)

namespace Buffer

def decode (described : String) (content : Bytes) (allowBinary likelyBinary : Bool)
    (charset : Charset) : Option (Except String Buffer) :=
  if !allowBinary && likelyBinary then
    some (.error ("ned: refusing to open binary file as text: " ++ described))
  else
    match decodeContent content allowBinary charset with
    | none =>
        some (.error ("ned: refusing to open " ++ described ++ " as text: it doesn't decode as " ++
          charsetName charset))
    | some (content, charset) => do
        let detectedEnding := detectLineEnding content
        let content := if hasCarriageReturn content then normalizeToLf content else content
        let storage ← Storage.ofText content
        some (.ok { ofStorage "" storage with lineEnding := detectedEnding, charset := charset })

/-- `FromContents`, for a path given by its text and its file name. -/
def fromContents (path filename : String) (stated : Option Charset) (bytes : Bytes)
    (allowBinary : Bool) (charsetChoice : Option Charset) : Option (Except String Buffer) := do
  let likelyBinary := bytesLookBinaryToLoad stated bytes charsetChoice
  let charset := resolveLoadCharset stated bytes charsetChoice
  match ← decode path bytes allowBinary likelyBinary charset with
  | .error message => some (.error message)
  | .ok buffer => some (.ok { buffer with name := filename })

end Buffer

/-!
## Opening and saving

What a save writes for a buffer that was opened and not edited.
-/

open Ned.Library

variable {charset charset' : Charset} {text bytes : Bytes} {allowBinary : Bool}

/-! ## Normalizing stays in the charset -/

theorem encodable_normalizeToLf (before : Bytes) {text : Bytes} (h : Encodable charset (before ++ text)) :
    Encodable charset (before ++ normalizeToLf text) := by
  fun_induction normalizeToLf text generalizing before with
  | case1 => exact h
  | case2 c =>
      split
      · rename_i hc
        rw [hc] at h
        exact (h.left carriageReturn_ascii).join encodable_nil newline_ascii
      · exact h
  | case3 d text ih ih' =>
      have hbefore := h.left carriageReturn_ascii
      have hrest := h.right carriageReturn_ascii
      split
      · rename_i hd
        rw [hd] at hrest
        have hrest : Encodable charset ([] ++ newline :: text) := hrest
        exact hbefore.join (ih [] (hrest.right newline_ascii)) newline_ascii
      · exact hbefore.join (ih' [] hrest) newline_ascii
  | case4 c d text hcr ih =>
      have := ih (before ++ [c]) (by rw [List.append_assoc]; exact h)
      rwa [List.append_assoc] at this

/-! ## Validation -/

theorem validateChunks_after (hfamily : isUtf8Family charset = false) {chunks : List Bytes}
    (hbad : ((characterScanner charset).scan (text ++ chunks.flatten)).bad = false) :
    validateChunks (encoderAfter charset text) chunks =
      (encoderAfter charset (text ++ chunks.flatten), true) := by
  induction chunks generalizing text with
  | nil => rw [List.flatten_nil, List.append_nil]; rfl
  | cons chunk chunks ih =>
      rw [List.flatten_cons, ← List.append_assoc] at hbad ⊢
      have hone : ((characterScanner charset).scan (text ++ chunk)).bad = false := by
        refine Bool.eq_false_iff.2 fun h => ?_
        rw [scan_append_bad _ _ h] at hbad
        cases hbad
      rw [validateChunks, encoder_follows hfamily text chunk, hone]
      exact ih hbad

theorem validate_of_encodable (target : String) (plan : SavePlan) {chunks : List Bytes}
    (h : Encodable plan.charset chunks.flatten) :
    validateSavePlanCharset target plan chunks = .ok () := by
  unfold validateSavePlanCharset
  cases hfamily : isUtf8Family plan.charset with
  | true => rfl
  | false =>
      obtain ⟨bytes, hbytes⟩ := h
      obtain ⟨values, hscan, -⟩ := (encodeCharset_eq hfamily).1 hbytes
      have hbad : ((characterScanner plan.charset).scan ([] ++ chunks.flatten)).bad = false := by
        rw [List.nil_append, hscan]
      have hvalid : validateChunks (encoderAfter plan.charset []) chunks =
          (encoderAfter plan.charset ([] ++ chunks.flatten), true) :=
        validateChunks_after hfamily hbad
      have hfinish : (encoderAfter plan.charset ([] ++ chunks.flatten)).finish = true := by
        rw [List.nil_append]
        simp only [CharsetEncoder.finish, encoderAfter, hscan]
        rfl
      have hstart : encoderAfter plan.charset [] = { charset := plan.charset } := rfl
      rw [if_neg Bool.false_ne_true, ← hstart, hvalid]
      simp only [hfinish, Bool.and_self, reduceIte]

/-! ## Decoding -/

/-- Whatever charset a load settles on, encoding gives back what follows the preamble. -/
theorem decodeContent_encode (h : decodeContent bytes allowBinary charset = some (text, charset')) :
    encodeCharset text charset' = some (bytes.drop (preambleLength bytes charset')) := by
  unfold decodeContent at h
  split at h
  · rename_i hfamily
    cases h
    exact encodeCharset_utf8 hfamily _
  · rename_i hfamily
    have hfamily := Bool.eq_false_iff.2 hfamily
    split at h
    · rename_i decoded hdecode
      cases h
      exact (encodeCharset_eq_some_iff hfamily).2 ((decodeCharset_eq_some_iff hfamily).1 hdecode)
    · split at h
      · cases h
      · cases h
        exact encodeCharset_utf8 rfl _

theorem encodeCharset_injective {text' : Bytes} (h : encodeCharset text charset = some bytes)
    (h' : encodeCharset text' charset = some bytes) : text = text' := by
  cases hfamily : isUtf8Family charset with
  | true =>
      rw [encodeCharset_utf8 hfamily] at h h'
      exact Option.some.inj (h.trans h'.symm)
  | false =>
      rw [encodeCharset_eq_some_iff hfamily, ← decodeCharset_eq_some_iff hfamily] at h h'
      exact Option.some.inj (h.symm.trans h')

theorem preamble_append_drop (h : charsetPreamble charset <+: bytes) :
    charsetPreamble charset ++ bytes.drop (preambleLength bytes charset) = bytes := by
  obtain ⟨rest, rfl⟩ := h
  rw [preambleLength, if_pos (List.isPrefixOf_iff_prefix.2 (List.prefix_append _ _)),
    List.drop_left]

theorem drop_preambleLength (h : ¬charsetPreamble charset <+: bytes) :
    bytes.drop (preambleLength bytes charset) = bytes := by
  rw [preambleLength, if_neg fun hbegins => h (List.isPrefixOf_iff_prefix.1 hbegins), List.drop_zero]

/-! ## The buffer and its save -/

theorem ofText_eq_some {content : Bytes} {storage : Storage}
    (h : Storage.ofText content = some storage) : storage = { bytes := content, huge := false } := by
  obtain ⟨-, -, h⟩ := Option.bind_eq_some_iff.1 h
  exact (Option.some.inj h).symm

theorem normalized_eq (text : Bytes) :
    (if hasCarriageReturn text then normalizeToLf text else text) = normalizeToLf text := by
  split
  · rfl
  · rename_i h
    exact (normalizeToLf_of_not_hasCarriageReturn (Bool.eq_false_iff.2 h)).symm

theorem fromContents_eq {path filename : String} {stated choice : Option Charset} {buffer : Buffer}
    (h : Buffer.fromContents path filename stated bytes allowBinary choice = some (.ok buffer)) :
    ∃ text charset, decodeContent bytes allowBinary (resolveLoadCharset stated bytes choice) =
        some (text, charset) ∧ buffer.storage = { bytes := normalizeToLf text, huge := false } ∧
      buffer.lineEnding = detectLineEnding text ∧ buffer.charset = charset ∧
        buffer.loading = false ∧ buffer.saving = false := by
  unfold Buffer.fromContents at h
  obtain ⟨decoded, hdecoded, h⟩ := Option.bind_eq_some_iff.1 h
  cases decoded with
  | error message => cases h
  | ok opened =>
      cases h
      unfold Buffer.decode at hdecoded
      split at hdecoded
      · cases hdecoded
      · split at hdecoded
        · cases hdecoded
        · rename_i text charset hcontent
          rw [normalized_eq] at hdecoded
          obtain ⟨storage, hstorage, hopened⟩ := Option.bind_eq_some_iff.1 hdecoded
          cases hopened
          exact ⟨text, charset, hcontent, ofText_eq_some hstorage, rfl, rfl, rfl, rfl⟩

theorem saveContent_plain (content : Bytes) (ending : LineEnding) :
    saveContent content ending false [] false = applyLineEnding content ending :=
  saveContent_eq content []

/-- A plan without any transform but the line ending writes the preamble and the encoded text. -/
theorem encodeSavePlan_plain {content : Bytes} {ending : LineEnding} {chunks : List Bytes}
    (hcontent : Encodable charset content)
    (hencode : encodeCharset (applyLineEnding content ending) charset = some bytes)
    (hchunks : chunks.flatten = content) (target : String) :
    encodeSavePlan target
      { snapshot := { bytes := content, huge := false }, lineEnding := ending,
        trimTrailingWhitespace := false, ensureFinalNewline := false, charset := charset } chunks =
      .ok (charsetPreamble charset ++ bytes) := by
  have hvalid := validate_of_encodable target
    { snapshot := { bytes := content, huge := false }, lineEnding := ending,
      trimTrailingWhitespace := false, ensureFinalNewline := false, charset := charset }
    (hchunks.symm ▸ hcontent)
  obtain ⟨pieces, hfile, hpieces⟩ := writeBlocks_eq
    (.ofCharset { bytes := charsetPreamble charset } charset)
    (le_refl (saveContent content ending false [] false).length)
  have hwrites := writes_finish (charsetPreamble charset) hencode
    (hpieces.trans (saveContent_plain content ending))
  rw [← hfile] at hwrites
  have hwrite : writePlanContent {}
      { snapshot := { bytes := content, huge := false }, lineEnding := ending,
        trimTrailingWhitespace := false, ensureFinalNewline := false, charset := charset } chunks =
      { bytes := charsetPreamble charset ++ bytes } := hwrites
  unfold encodeSavePlan
  rw [hvalid, hwrite]
  rfl

/-- The charset is UTF-16 and the file has no byte order mark. -/
def WithoutMark (bytes : Bytes) (charset : Charset) : Prop :=
  (charset = .utf16Le ∨ charset = .utf16Be) ∧ ¬charsetPreamble charset <+: bytes

theorem sniffCharset_utf8Bom (h : sniffCharset bytes = .utf8Bom) : kUtf8Bom <+: bytes := by
  unfold sniffCharset at h
  split at h
  · rename_i hbegins
    exact List.isPrefixOf_iff_prefix.1 hbegins
  · split_ifs at h

theorem resolveUnstatedCharset_utf8Bom {choice : Option Charset}
    (h : resolveUnstatedCharset bytes choice = .utf8Bom) : kUtf8Bom <+: bytes := by
  unfold resolveUnstatedCharset at h
  cases choice with
  | none => exact sniffCharset_utf8Bom h
  | some chosen =>
      dsimp only at h
      split at h
      · split at h
        · cases h
        · exact sniffCharset_utf8Bom h
      · rename_i hfamily
        rw [h] at hfamily
        exact absurd rfl hfamily

theorem prefix_or_withoutMark {stated choice : Option Charset}
    (h : decodeContent bytes allowBinary (resolveLoadCharset stated bytes choice) =
      some (text, charset)) :
    charsetPreamble charset <+: bytes ∨ WithoutMark bytes charset := by
  have hbom : charset = .utf8Bom → kUtf8Bom <+: bytes := by
    rintro rfl
    have hresolve : resolveLoadCharset stated bytes choice = .utf8Bom := by
      unfold decodeContent at h
      split at h
      · exact (Prod.mk.inj (Option.some.inj h)).2
      · split at h
        · exact (Prod.mk.inj (Option.some.inj h)).2
        · split at h <;> cases h
    exact resolveUnstatedCharset_utf8Bom hresolve
  by_cases hbegins : charsetPreamble charset <+: bytes
  · exact .inl hbegins
  · refine .inr ⟨?_, hbegins⟩
    cases charset with
    | utf8 => exact absurd List.nil_prefix hbegins
    | utf8Bom => exact absurd (hbom rfl) hbegins
    | latin1 => exact absurd List.nil_prefix hbegins
    | utf16Le => exact .inl rfl
    | utf16Be => exact .inr rfl

section Saved

variable {path filename : String} {stated choice : Option Charset} {buffer : Buffer}

/-- An unedited buffer is saved as the preamble and the encoding of its text, its line endings
normalized and expanded again. -/
theorem saved_eq
    (hopen : Buffer.fromContents path filename stated bytes allowBinary choice = some (.ok buffer)) :
    ∃ text charset, decodeContent bytes allowBinary (resolveLoadCharset stated bytes choice) =
        some (text, charset) ∧
      ∃ saving plan, buffer.beginSave false false none = .ok (saving, plan) ∧
        ∃ encoded, encodeCharset (applyLineEnding (normalizeToLf text) (detectLineEnding text))
            charset = some encoded ∧
          ∀ target (chunks : List Bytes), chunks.flatten = plan.snapshot.bytes →
            encodeSavePlan target plan chunks = .ok (charsetPreamble charset ++ encoded) := by
  obtain ⟨text, charset, hdecode, hstorage, hending, hcharset, hloading, hsaving⟩ :=
    fromContents_eq hopen
  have htext : Encodable charset text := ⟨_, decodeContent_encode hdecode⟩
  have hnormal : Encodable charset (normalizeToLf text) := encodable_normalizeToLf [] htext
  obtain ⟨encoded, hencoded⟩ := hnormal.applyLineEnding (detectLineEnding text)
  have hbegin : buffer.beginSave false false none =
      .ok (buffer.startSavePlan buffer.lineEnding false false) := by
    simp only [Buffer.beginSave, Buffer.requireSavable, hloading, hsaving, reduceIte,
      Bool.false_eq_true]
    rfl
  refine ⟨text, charset, hdecode, _, _, hbegin, encoded, hencoded, fun target chunks hchunks => ?_⟩
  have hcontent : chunks.flatten = normalizeToLf text := by
    rw [hchunks]
    exact congrArg Storage.bytes hstorage
  have hsave := encodeSavePlan_plain hnormal hencoded hcontent target
  rw [← hsave, ← hstorage, ← hending, ← hcharset]

/-- A text file with one kind of line break is saved as it was, a UTF-16 file without a byte order
mark with one in front. -/
theorem open_save
    (hopen : Buffer.fromContents path filename stated bytes allowBinary choice = some (.ok buffer)) :
    ∃ text charset, decodeContent bytes allowBinary (resolveLoadCharset stated bytes choice) =
        some (text, charset) ∧
      ∃ saving plan, buffer.beginSave false false none = .ok (saving, plan) ∧
        (OneLineEnding text → ∀ target (chunks : List Bytes),
          chunks.flatten = plan.snapshot.bytes →
            (¬WithoutMark bytes charset → encodeSavePlan target plan chunks = .ok bytes) ∧
            (WithoutMark bytes charset →
              encodeSavePlan target plan chunks = .ok (charsetPreamble charset ++ bytes))) := by
  obtain ⟨text, charset, hdecode, saving, plan, hbegin, encoded, hencoded, hsave⟩ := saved_eq hopen
  refine ⟨text, charset, hdecode, saving, plan, hbegin, fun hone target chunks hchunks => ?_⟩
  rw [(applyLineEnding_normalizeToLf_iff text).2 hone, decodeContent_encode hdecode] at hencoded
  cases hencoded
  rw [hsave target chunks hchunks]
  refine ⟨fun hmark => ?_, fun hmark => ?_⟩
  · rcases prefix_or_withoutMark hdecode with hbegins | hwithout
    · rw [preamble_append_drop hbegins]
    · exact absurd hwithout hmark
  · rw [drop_preambleLength hmark.2]

theorem open_save_sample :
    ∃ buffer saving plan,
      Buffer.fromContents "a" "a" none [97, 13, 10] false none = some (.ok buffer) ∧
        buffer.beginSave false false none = .ok (saving, plan) ∧
          encodeSavePlan "a" plan [[97], [10]] = .ok [97, 13, 10] := by
  obtain ⟨buffer, hopen⟩ : ∃ buffer,
      Buffer.fromContents "a" "a" none [97, 13, 10] false none = some (.ok buffer) := ⟨_, rfl⟩
  obtain ⟨text, charset, hdecode, saving, plan, hbegin, hsave⟩ := open_save hopen
  refine ⟨buffer, saving, plan, hopen, hbegin, ?_⟩
  cases hopen
  cases hdecode
  cases hbegin
  exact (hsave ⟨.crlf, rfl⟩ "a" [[97], [10]] rfl).1 fun h => by rcases h.1 with h | h <;> cases h

/-- The letter `A` in UTF-16 without a byte order mark is saved with one. -/
theorem not_open_save_keeps :
    ¬ ∀ (bytes : Bytes) (choice : Option Charset) (buffer saving : Buffer) (plan : SavePlan),
      Buffer.fromContents "a" "a" none bytes false choice = some (.ok buffer) →
        (∀ text charset, decodeContent bytes false (resolveLoadCharset none bytes choice) =
          some (text, charset) → OneLineEnding text) →
        buffer.beginSave false false none = .ok (saving, plan) →
          encodeSavePlan "a" plan [plan.snapshot.bytes] = .ok bytes := by
  intro h
  have hkept := h [65, 0] (some .utf16Le) _ _ _ rfl (fun text charset hdecode => ?_) rfl
  · cases hkept
  · cases hdecode
    exact ⟨.lf, rfl⟩

/-- The bytes are kept exactly where they hold one kind of line break and the preamble of the charset
they are read in. -/
theorem kept_iff
    (hopen : Buffer.fromContents path filename stated bytes allowBinary choice = some (.ok buffer)) :
    ∃ text charset, decodeContent bytes allowBinary (resolveLoadCharset stated bytes choice) =
        some (text, charset) ∧
      ∃ saving plan, buffer.beginSave false false none = .ok (saving, plan) ∧
        ∀ target (chunks : List Bytes), chunks.flatten = plan.snapshot.bytes →
          (encodeSavePlan target plan chunks = .ok bytes ↔
            OneLineEnding text ∧ charsetPreamble charset <+: bytes) := by
  obtain ⟨text, charset, hdecode, saving, plan, hbegin, encoded, hencoded, hsave⟩ := saved_eq hopen
  refine ⟨text, charset, hdecode, saving, plan, hbegin, fun target chunks hchunks => ?_⟩
  rw [hsave target chunks hchunks, Except.ok.injEq]
  have hback := decodeContent_encode hdecode
  constructor
  · intro hkept
    have hbegins : charsetPreamble charset <+: bytes := ⟨encoded, hkept⟩
    have hsame : encoded = bytes.drop (preambleLength bytes charset) :=
      List.append_cancel_left (hkept.trans (preamble_append_drop hbegins).symm)
    rw [← hsame] at hback
    exact ⟨(applyLineEnding_normalizeToLf_iff text).1 (encodeCharset_injective hencoded hback),
      hbegins⟩
  · rintro ⟨hone, hbegins⟩
    rw [(applyLineEnding_normalizeToLf_iff text).2 hone, hback] at hencoded
    cases hencoded
    exact preamble_append_drop hbegins

theorem kept_sample :
    ∃ buffer saving plan,
      Buffer.fromContents "a" "a" none [0, 13, 0, 13] true none = some (.ok buffer) ∧
        buffer.beginSave false false none = .ok (saving, plan) ∧
          encodeSavePlan "a" plan [plan.snapshot.bytes] = .ok [0, 13, 0, 13] := by
  obtain ⟨buffer, hopen⟩ : ∃ buffer,
      Buffer.fromContents "a" "a" none [0, 13, 0, 13] true none = some (.ok buffer) := ⟨_, rfl⟩
  obtain ⟨text, charset, hdecode, saving, plan, hbegin, hkept⟩ := kept_iff hopen
  have hchunks : [plan.snapshot.bytes].flatten = plan.snapshot.bytes := List.append_nil _
  refine ⟨buffer, saving, plan, hopen, hbegin, (hkept "a" _ hchunks).2 ?_⟩
  cases hopen
  cases hdecode
  exact ⟨⟨.cr, rfl⟩, List.nil_prefix⟩

/-- A zero byte, a carriage return and two line feeds are saved with two carriage returns. -/
theorem not_kept :
    ¬ ∀ (bytes : Bytes) (buffer saving : Buffer) (plan : SavePlan),
      bytesLookBinaryToLoad none bytes none = true →
        Buffer.fromContents "a" "a" none bytes true none = some (.ok buffer) →
          buffer.beginSave false false none = .ok (saving, plan) →
            encodeSavePlan "a" plan [plan.snapshot.bytes] = .ok bytes := by
  intro h
  have hkept := h [0, 13, 10, 10] _ _ _ rfl rfl rfl
  cases hkept

end Saved

end Ned.Text
