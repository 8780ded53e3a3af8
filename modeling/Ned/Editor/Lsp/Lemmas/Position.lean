import Ned.Editor.Lsp.Position
import Ned.Text.Lemmas.Bytes
import Ned.Text.Lemmas.Charset
import Ned.Text.Lemmas.Grapheme
import Ned.Text.Theorems.Stepping

/-!
# Lemmas for the positions
-/

namespace Ned.Editor.Lsp

open Text Library

/-! ## Widths -/

theorem decodeTail_lt {f : Nat → Option UInt8} {offset n : Nat} {cp cp' : UInt32}
    (h : decodeTail f offset n cp = some (some cp')) (hfits : (cp.toNat + 1) * 64 ^ n ≤ 2 ^ 32) :
    cp'.toNat < (cp.toNat + 1) * 64 ^ n := by
  induction n generalizing offset cp with
  | zero =>
      cases h
      simp
  | succ n ih =>
      obtain ⟨b, -, h⟩ := Option.bind_eq_some_iff.1 h
      split at h
      · have hpow : (cp.toNat + 1) * 64 ^ (n + 1) = (cp.toNat * 64 + 64) * 64 ^ n := by
          rw [Nat.pow_succ, Nat.mul_comm (64 ^ n), ← Nat.mul_assoc, Nat.add_mul, Nat.one_mul]
        have hone : 1 ≤ 64 ^ n := Nat.one_le_pow _ _ (by decide)
        have hcp : cp.toNat * 64 + 64 ≤ 2 ^ 32 :=
          Nat.le_trans (Nat.le_mul_of_pos_right _ hone) (hpow ▸ hfits)
        have hshift : (cp <<< 6).toNat = cp.toNat * 64 :=
          toNat_shiftLeft (by decide) (by simp only [UInt32.reduceToNat]; omega)
        have hnext : ((cp <<< 6) ||| (b &&& 0x3F).toUInt32).toNat = cp.toNat * 64 + b.toNat % 64 := by
          rw [toNat_or_add 6 (hshift ▸ Nat.dvd_mul_left 64 _) (by rw [toNat_low_six]; omega), hshift,
            toNat_low_six]
        have hle : cp.toNat * 64 + b.toNat % 64 + 1 ≤ cp.toNat * 64 + 64 := by omega
        have hle := Nat.mul_le_mul_right (64 ^ n) hle
        rw [hpow] at hfits ⊢
        exact Nat.lt_of_lt_of_le (hnext ▸ ih h (hnext ▸ Nat.le_trans hle hfits)) hle
      · cases h

theorem decodeLead_lt {b0 : UInt8} {len : Nat} {cp : UInt32} (h : decodeLead b0 = some (len, cp)) :
    (cp.toNat + 1) * 64 ^ (len - 1) ≤ if len = 4 then 2 ^ 21 else 2 ^ 16 := by
  have hlow (mask : UInt8) : (b0 &&& mask).toUInt32.toNat ≤ mask.toNat := by
    rw [UInt8.toNat_toUInt32, UInt8.toNat_and]
    exact Nat.and_le_right
  unfold decodeLead at h
  split at h
  · cases h
    have := hlow 0x1F
    simp only [UInt8.reduceToNat] at this
    simp only [Nat.reduceSub, Nat.reducePow, Nat.reduceEqDiff, if_false]
    omega
  · split at h
    · cases h
      have := hlow 0x0F
      simp only [UInt8.reduceToNat] at this
      simp only [Nat.reduceSub, Nat.reducePow, Nat.reduceEqDiff, if_false]
      omega
    · split at h
      · cases h
        have := hlow 0x07
        simp only [UInt8.reduceToNat] at this
        simp only [Nat.reduceSub, Nat.reducePow, if_true]
        omega
      · cases h

theorem utf16Units_codepointAt {f : Nat → Option UInt8} {total offset : Nat} {d : DecodedCodepoint}
    (ho : offset < total) (h : codepointAt f total offset = some d) :
    utf16Units d.codepoint = if d.byteLength = 4 then 2 else 1 := by
  rw [codepointAt, if_neg (Nat.not_le.2 ho)] at h
  obtain ⟨b0, hb0, h⟩ := Option.bind_eq_some_iff.1 h
  split at h
  · rename_i hascii
    cases h
    have hlt : b0.toUInt32.toNat ≤ 0xFFFF := by
      have := UInt8.lt_iff_toNat_lt.1 hascii
      rw [UInt8.toNat_toUInt32]
      simp only [UInt8.reduceToNat] at this
      omega
    exact if_neg (by simpa [UInt32.lt_iff_toNat_lt] using hlt)
  · cases hlead : decodeLead b0 with
    | none =>
        simp only [hlead] at h
        cases h
        rfl
    | some lead =>
        obtain ⟨len, cp⟩ := lead
        obtain ⟨-, hlong, hshort⟩ := decodeLead_spec hlead
        have hcp := decodeLead_lt hlead
        simp only [hlead] at h
        split at h
        · cases h
          rfl
        · obtain ⟨r, htail, h⟩ := Option.bind_eq_some_iff.1 h
          cases r with
          | none =>
              cases h
              rfl
          | some cp' =>
              simp only at h
              split at h
              · rename_i hscalar
                cases h
                simp only [utf16Units]
                by_cases hfour : len = 4
                · subst hfour
                  simp only [isScalarValueEncoding, Bool.and_eq_true, Bool.not_eq_true',
                    Bool.or_eq_false_iff, beq_self_eq_true, Bool.true_and, decide_eq_false_iff_not,
                    UInt32.not_lt] at hscalar
                  have hge := UInt32.le_iff_toNat_le.1 hscalar.1.1.2
                  rw [if_pos rfl, if_pos]
                  simp only [gt_iff_lt, UInt32.lt_iff_toNat_lt, UInt32.reduceToNat] at hge ⊢
                  omega
                · rw [if_neg hfour] at hcp ⊢
                  have hlt := decodeTail_lt htail (Nat.le_trans hcp (by decide))
                  rw [if_neg]
                  simp only [gt_iff_lt, UInt32.lt_iff_toNat_lt, UInt32.reduceToNat]
                  omega
              · cases h
                rfl

/-! ## Lines -/

structure LineAt (text : Bytes) (line : Nat) (before body after : Bytes) : Prop where
  text_eq : text = before ++ (body ++ after)
  count : countNewlines before = line
  before_cases : before = [] ∨ ∃ lines, before = lines ++ [newline]
  body_plain : newline ∉ body
  after_cases : after = [] ∨ ∃ rest, after = newline :: rest

theorem exists_lineAt : ∀ {text : Bytes} {line : Nat}, line ≤ countNewlines text →
    ∃ before body after, LineAt text line before body after := by
  intro text
  induction text with
  | nil =>
      intro line hline
      obtain rfl := Nat.le_zero.1 hline
      exact ⟨[], [], [], rfl, rfl, .inl rfl, List.not_mem_nil, .inl rfl⟩
  | cons c text ih =>
      intro line hline
      by_cases hc : c = newline
      · subst hc
        cases line with
        | zero => exact ⟨[], [], newline :: text, rfl, rfl, .inl rfl, List.not_mem_nil, .inr ⟨text, rfl⟩⟩
        | succ line =>
            have hless : line ≤ countNewlines text := by simpa [isNewline] using hline
            obtain ⟨before, body, after, h⟩ := ih hless
            refine ⟨newline :: before, body, after, ?_, ?_, .inr ?_, h.body_plain, h.after_cases⟩
            · rw [h.text_eq]
              rfl
            · simp [isNewline, h.count]
            · rcases h.before_cases with rfl | ⟨lines, rfl⟩
              · exact ⟨[], rfl⟩
              · exact ⟨newline :: lines, rfl⟩
      · have hnot : isNewline c = false := by simpa [isNewline] using hc
        have hless : line ≤ countNewlines text := by simpa [hnot] using hline
        obtain ⟨before, body, after, h⟩ := ih hless
        rcases h.before_cases with rfl | ⟨lines, rfl⟩
        · refine ⟨[], c :: body, after, ?_, h.count, .inl rfl, ?_, h.after_cases⟩
          · rw [h.text_eq]
            rfl
          · simpa [h.body_plain] using Ne.symm hc
        · refine ⟨c :: (lines ++ [newline]), body, after, ?_, ?_, .inr ⟨c :: lines, rfl⟩, h.body_plain,
            h.after_cases⟩
          · rw [h.text_eq]
            rfl
          · rw [countNewlines_cons, hnot, h.count]
            rfl

theorem lineStart_ends {text : Bytes} (h : text = [] ∨ ∃ lines, text = lines ++ [newline]) :
    lineStart text (countNewlines text) = text.length := by
  rcases h with rfl | ⟨lines, rfl⟩
  · rfl
  · rw [lineStart_append, countNewlines_append, if_neg]
    · simp [isNewline, lineStart]
    · simp [isNewline]

namespace LineAt

variable {text before body after : Bytes} {line o : Nat}

theorem countNewlines_body (h : LineAt text line before body after) : countNewlines body = 0 := by
  simp only [countNewlines, List.countP_eq_zero, isNewline, beq_iff_eq]
  exact fun c hc heq => h.body_plain (heq ▸ hc)

theorem lineStart_eq (h : LineAt text line before body after) :
    lineStart text line = before.length := by
  rw [h.text_eq, lineStart_append, if_pos (Nat.le_of_eq h.count.symm), ← h.count]
  exact lineStart_ends h.before_cases

theorem line_le (h : LineAt text line before body after) : line ≤ countNewlines text := by
  rw [h.text_eq, countNewlines_append, h.count]
  exact Nat.le_add_right _ _

theorem lineByteRangeEnd_eq (h : LineAt text line before body after) (huge : Bool) :
    lineByteRangeEnd { bytes := text, huge := huge } line =
      before.length + body.length + if after = [] then 0 else 1 := by
  have hend : lineByteRangeEnd { bytes := text, huge := huge } line =
      if line + 1 < countNewlines text + 1 then lineStart text (line + 1) else text.length := rfl
  have hcount : countNewlines text = line + countNewlines after := by
    rw [h.text_eq, countNewlines_append, countNewlines_append, h.count, h.countNewlines_body,
      Nat.zero_add]
  rcases h.after_cases with rfl | ⟨rest, rfl⟩
  · rw [hend, if_neg (show ¬line + 1 < countNewlines text + 1 by simp [hcount]), h.text_eq]
    simp
  · have hsplit : text = (before ++ body ++ [newline]) ++ rest := by simp [h.text_eq]
    have hlines : countNewlines (before ++ body ++ [newline]) = line + 1 := by
      simp [h.count, h.countNewlines_body, isNewline]
    rw [hend, if_pos (show line + 1 < countNewlines text + 1 by simp [hcount, isNewline]), hsplit,
      lineStart_append, if_pos (Nat.le_of_eq hlines.symm), ← hlines, lineStart_ends (.inr ⟨_, rfl⟩)]
    simp [Nat.add_assoc]

theorem before_eq_nil (h : LineAt text 0 before body after) : before = [] := by
  rcases h.before_cases with rfl | ⟨lines, rfl⟩
  · rfl
  · have := h.count
    simp [isNewline] at this

theorem next {rest : Bytes} (h : LineAt text line before body (newline :: rest)) :
    ∃ body' after', LineAt text (line + 1) (before ++ body ++ [newline]) body' after' := by
  obtain ⟨before', body', after', hrest⟩ := exists_lineAt (Nat.zero_le (countNewlines rest))
  obtain rfl := hrest.before_eq_nil
  refine ⟨body', after', ?_, ?_, .inr ⟨_, rfl⟩, hrest.body_plain, hrest.after_cases⟩
  · rw [h.text_eq, hrest.text_eq]
    simp
  · simp [h.count, h.countNewlines_body, isNewline]

theorem countNewlines_take_iff (h : LineAt text line before body after) (ho : o ≤ text.length) :
    countNewlines (text.take o) = line ↔ before.length ≤ o ∧ o ≤ before.length + body.length := by
  rcases Nat.lt_or_ge o before.length with hlt | hge
  · have hnot : ¬before.length ≤ o := Nat.not_le.2 hlt
    rcases h.before_cases with rfl | ⟨lines, rfl⟩
    · cases hlt
    · have hle : o ≤ lines.length := Nat.le_of_lt_succ (by simpa using hlt)
      have hcount := h.count
      have htake : text.take o = lines.take o := by
        rw [h.text_eq, List.append_assoc, List.take_append_of_le_length hle]
      have hfew := (List.take_sublist o lines).countP_le (p := isNewline)
      simp [isNewline] at hcount
      simp only [countNewlines, htake] at hcount hfew ⊢
      simp only [hnot, false_and, iff_false]
      omega
  · have hdrop : text.take o = before ++ (body ++ after).take (o - before.length) := by
      rw [h.text_eq, List.take_append, List.take_of_length_le hge]
    rw [hdrop, countNewlines_append, h.count]
    rcases Nat.lt_or_ge (before.length + body.length) o with hlt | hle
    · have hnot : ¬o ≤ before.length + body.length := Nat.not_le.2 hlt
      rcases h.after_cases with rfl | ⟨rest, rfl⟩
      · rw [h.text_eq] at ho
        simp at ho
        omega
      · have hpos : 0 < o - before.length - body.length := by omega
        obtain ⟨k, hk⟩ := Nat.exists_eq_succ_of_ne_zero (Nat.ne_of_gt hpos)
        rw [List.take_append, List.take_of_length_le (by omega), hk, List.take_succ_cons,
          countNewlines_append, h.countNewlines_body, countNewlines_cons]
        simp only [hnot, and_false, iff_false, isNewline, beq_self_eq_true, if_true]
        omega
    · rw [List.take_append_of_le_length (by omega)]
      have hfew := (List.take_sublist (o - before.length) body).countP_le (p := isNewline)
      have hbody := h.countNewlines_body
      simp only [countNewlines] at hbody ⊢
      simp only [hge, hle, and_self, iff_true]
      omega

end LineAt

/-! ## Boundaries -/

/-- The positions that steps forward from the start of a text reach. -/
inductive CodepointBoundary (content : Storage) : Nat → Prop
  | start : CodepointBoundary content 0
  | next {x y : Nat} (hx : CodepointBoundary content x)
      (h : content.nextCodepointBoundary x = some y) : CodepointBoundary content y

/-- No sequence of the text goes over `o`. -/
abbrev Between (text : Bytes) (o : Nat) : Prop := Boundary (fun i => text[i]?) text.length o

section

variable {content : Storage} {text : Bytes} {o x : Nat} {d : DecodedCodepoint}

theorem exists_codepointAt (content : Storage) (o : Nat) :
    ∃ d, content.codepointAt o = some d ∧ (o < content.byteLength → 0 < d.byteLength) :=
  codepointAt_total (fun i (hi : i < content.bytes.length) => by simp [hi]) o

theorem CodepointBoundary.between (h : CodepointBoundary content o) :
    o ≤ content.byteLength ∧ Between content.bytes o := by
  induction h with
  | start => exact ⟨Nat.zero_le _, fun s d hs => absurd hs (Nat.not_lt_zero s)⟩
  | @next x y _ hnext ih =>
      obtain ⟨hle, hbetween⟩ := ih
      by_cases hx : x < content.byteLength
      · obtain ⟨d, hd, -⟩ := exists_codepointAt content x
        have hstep : content.nextCodepointBoundary x = some (x + d.byteLength) := by
          rw [Storage.nextCodepointBoundary, nextCodepointBoundary, if_neg (Nat.not_le.2 hx)]
          exact Option.bind_eq_some_iff.2 ⟨d, hd, rfl⟩
        obtain rfl := Option.some.inj (hstep.symm.trans hnext)
        exact ⟨(codepointAt_covers hx hd).fits, hbetween.next hx hd⟩
      · have hge := Nat.le_of_not_lt hx
        have hstep : content.nextCodepointBoundary x = some content.byteLength := by
          rw [Storage.nextCodepointBoundary, nextCodepointBoundary, if_pos hge]
        obtain rfl := Option.some.inj (hstep.symm.trans hnext)
        obtain rfl := Nat.le_antisymm hle hge
        exact ⟨Nat.le_refl _, hbetween⟩

theorem between_of_not_continues (h : ¬Continues (fun i => text[i]?) o) : Between text o := by
  intro s d hs hd
  rcases Nat.lt_or_ge s text.length with hlt | hge
  · have hcovers := codepointAt_covers hlt hd
    exact Nat.le_of_not_lt fun hover => h (hcovers.tail o hs hover)
  · rw [codepointAt, if_pos hge] at hd
    cases hd
    exact Nat.le_of_lt hs

theorem LineAt.between {line : Nat} {before body after : Bytes}
    (h : LineAt text line before body after) : Between text (before.length + body.length) := by
  apply between_of_not_continues
  rintro ⟨b, hb, hcontinues⟩
  have hb : text[before.length + body.length]? = some b := hb
  rw [h.text_eq, ← List.append_assoc, ← List.length_append, List.getElem?_append_right
    (Nat.le_refl _), Nat.sub_self] at hb
  rcases h.after_cases with rfl | ⟨rest, rfl⟩
  · cases hb
  · cases hb
    cases hcontinues

theorem codepointAt_newline (h : text[o]? = some newline) :
    codepointAt (fun i => text[i]?) text.length o =
      some { codepoint := newline.toUInt32, byteLength := 1 } := by
  rw [codepointAt, if_neg (Nat.not_le.2 (List.getElem?_eq_some_iff.1 h).1)]
  exact Option.bind_eq_some_iff.2 ⟨newline, h, rfl⟩

theorem LineAt.between_start {line : Nat} {before body after : Bytes}
    (h : LineAt text line before body after) : Between text before.length := by
  rcases h.before_cases with rfl | ⟨lines, rfl⟩
  · exact fun s d hs => absurd hs (Nat.not_lt_zero s)
  · have hbyte : text[lines.length]? = some newline := by
      rw [h.text_eq, List.append_assoc, List.getElem?_append_right (Nat.le_refl _), Nat.sub_self]
      rfl
    have hlt : lines.length < text.length := (List.getElem?_eq_some_iff.1 hbyte).1
    have hnewline := codepointAt_newline hbyte
    have hbetween : Between text lines.length := by
      apply between_of_not_continues
      rintro ⟨b, hb, hcontinues⟩
      cases hbyte.symm.trans hb
      cases hcontinues
    simpa using hbetween.next hlt hnewline

/-! ## Walks over a storage -/

theorem storageStride_eq (hd : content.codepointAt o = some d) : storageStride content o =
    some { length := d.byteLength, width := utf16Units d.codepoint } := by
  rw [storageStride, hd, Option.map_some]

theorem utf16Units_pos (codepoint : UInt32) : 0 < utf16Units codepoint := by
  unfold utf16Units
  split <;> decide

theorem exists_passes (ho : o ≤ content.byteLength) (hbetween : Between content.bytes o)
    (hx : x ≤ o) (v : Nat) : ∃ u, Passes (storageStride content) ⟨x, v⟩ ⟨o, u⟩ := by
  induction hn : o - x using Nat.strongRecOn generalizing x v with
  | ind n ih =>
      rcases Nat.eq_or_lt_of_le hx with rfl | hlt
      · exact ⟨v, .here _⟩
      · obtain ⟨d, hd, hpos⟩ := exists_codepointAt content x
        have hpos := hpos (Nat.lt_of_lt_of_le hlt ho)
        obtain ⟨u, hu⟩ := ih (o - (x + d.byteLength)) (by omega) (hbetween x d hlt hd)
          (v + utf16Units d.codepoint) rfl
        exact ⟨u, .step (storageStride_eq hd) hpos (utf16Units_pos _) hu⟩

theorem storageStride_inside {s : Stride} (h : storageStride content o = some s)
    (hlength : 0 < s.length) : o < content.byteLength ∧
      ∃ d, content.codepointAt o = some d ∧ d.byteLength = s.length := by
  obtain ⟨d, hd, rfl⟩ := Option.map_eq_some_iff.1 h
  refine ⟨Nat.lt_of_not_le fun hge => ?_, d, hd, rfl⟩
  have hend : content.codepointAt o = some { codepoint := 0xFFFD, byteLength := 0 } := if_pos hge
  obtain rfl := Option.some.inj (hend.symm.trans hd)
  cases hlength

theorem codepointBoundary_of_passes {start stop : Mark}
    (h : Passes (storageStride content) start stop)
    (hstart : CodepointBoundary content start.offset) : CodepointBoundary content stop.offset := by
  induction h with
  | here => exact hstart
  | step hunder hlength _ _ ih =>
      obtain ⟨hlt, d, hd, hlen⟩ := storageStride_inside hunder hlength
      refine ih (hstart.next ?_)
      rw [Storage.nextCodepointBoundary, nextCodepointBoundary, if_neg (Nat.not_le.2 hlt), Mark.next,
        ← hlen]
      exact Option.bind_eq_some_iff.2 ⟨d, hd, rfl⟩

theorem codepointBoundary_iff :
    CodepointBoundary content o ↔ o ≤ content.byteLength ∧ Between content.bytes o := by
  refine ⟨CodepointBoundary.between, fun h => ?_⟩
  obtain ⟨u, hpass⟩ := exists_passes h.1 h.2 (Nat.zero_le o) 0
  exact codepointBoundary_of_passes hpass .start

end

namespace LineAt

variable {text before body after : Bytes} {huge : Bool} {line o u : Nat}

theorem bytePositionToLsp_eq (h : LineAt text line before body after)
    (ho : before.length ≤ o ∧ o ≤ before.length + body.length)
    (hpass : Passes (storageStride ⟨text, huge⟩) ⟨before.length, 0⟩ ⟨o, u⟩) :
    bytePositionToLsp ⟨text, huge⟩ o = some ⟨line, u⟩ := by
  have hlength : o ≤ text.length := by
    rw [h.text_eq]
    simp only [List.length_append]
    omega
  have hline : Storage.byteOffsetToLine ⟨text, huge⟩ o = line :=
    (h.countNewlines_take_iff hlength).2 ho
  have hstart : Storage.lineToByteOffset ⟨text, huge⟩ line = before.length := h.lineStart_eq
  have hwalk := walk_eq (fun mark => mark.offset < o) (text.length + 1) hpass
    (fun mid _ _ hlt => decide_eq_true hlt) (decide_eq_false (Nat.lt_irrefl o))
    (by simp only; omega)
  rw [bytePositionToLsp, hline, hstart]
  exact congrArg _ hwalk

theorem positionToByte_eq (h : LineAt text line before body after)
    (ho : o ≤ before.length + body.length)
    (hpass : Passes (storageStride ⟨text, huge⟩) ⟨before.length, 0⟩ ⟨o, u⟩) {character : Nat}
    (hcharacter : character ≤ u) (hfirst : ∀ mid, Passes (storageStride ⟨text, huge⟩)
      ⟨before.length, 0⟩ mid → Passes (storageStride ⟨text, huge⟩) mid ⟨o, u⟩ → mid.offset < o →
      mid.measure < character) :
    positionToByte ⟨text, huge⟩ ⟨line, character⟩ = some o := by
  have hstart : Storage.lineToByteOffset ⟨text, huge⟩ line = before.length := h.lineStart_eq
  have hend : o ≤ lineByteRangeEnd ⟨text, huge⟩ line := by
    rw [h.lineByteRangeEnd_eq]
    omega
  have hlength : o ≤ text.length := by
    rw [h.text_eq]
    simp only [List.length_append]
    omega
  have hwalk := walk_eq (fun mark => mark.offset < lineByteRangeEnd ⟨text, huge⟩ line &&
    mark.measure < character) (text.length + 1) hpass
    (fun mid hmid hto hlt => by
      have := hfirst mid hmid hto hlt
      simp only at hlt
      simp only [Bool.and_eq_true, decide_eq_true_eq]
      omega)
    (by simp [Nat.not_lt.2 hcharacter]) (by simp only; omega)
  rw [positionToByte, hstart]
  exact congrArg _ hwalk

theorem positionToByte_end (h : LineAt text line before body after)
    (hpass : Passes (storageStride ⟨text, huge⟩) ⟨before.length, 0⟩ ⟨before.length + body.length, u⟩)
    {character : Nat} (hcharacter : u < character) :
    positionToByte ⟨text, huge⟩ ⟨line, character⟩ = some (lineByteRangeEnd ⟨text, huge⟩ line) := by
  have hstart : Storage.lineToByteOffset ⟨text, huge⟩ line = before.length := h.lineStart_eq
  obtain ⟨u', hu', hend⟩ : ∃ u' ≤ character, Passes (storageStride ⟨text, huge⟩) ⟨before.length, 0⟩
      ⟨lineByteRangeEnd ⟨text, huge⟩ line, u'⟩ := by
    rw [h.lineByteRangeEnd_eq]
    rcases h.after_cases with rfl | ⟨rest, rfl⟩
    · exact ⟨u, Nat.le_of_lt hcharacter, hpass⟩
    · have hbyte : text[before.length + body.length]? = some newline := by
        rw [h.text_eq, ← List.append_assoc, ← List.length_append,
          List.getElem?_append_right (Nat.le_refl _), Nat.sub_self]
        rfl
      have hnewline := @storageStride_eq ⟨text, huge⟩ _ _ (codepointAt_newline hbyte)
      exact ⟨u + 1, hcharacter, hpass.snoc hnewline Nat.one_pos Nat.one_pos⟩
  have hlength : lineByteRangeEnd ⟨text, huge⟩ line ≤ text.length := by
    have hsplit := congrArg List.length h.text_eq
    simp only [List.length_append] at hsplit
    rw [h.lineByteRangeEnd_eq, hsplit]
    rcases h.after_cases with rfl | ⟨rest, rfl⟩
    · simp
    · rw [if_neg (List.cons_ne_nil _ _), List.length_cons]
      omega
  have hwalk := walk_eq (fun mark => mark.offset < lineByteRangeEnd ⟨text, huge⟩ line &&
    mark.measure < character) (text.length + 1) hend
    (fun mid hmid hto hlt => by
      have := hto.measure_lt hlt
      simp only at hlt this
      simp only [Bool.and_eq_true, decide_eq_true_eq]
      omega)
    (by simp) (by simp only; omega)
  rw [positionToByte, hstart]
  exact congrArg _ hwalk

end LineAt

/-! ## Walks over a flat string -/

/-- Every sequence at a boundary is as long as its lead byte has it, but for the end of the text. -/
def SequencesWhole (content : Storage) : Prop :=
  ∀ o lead d, CodepointBoundary content o → content.bytes[o]? = some lead →
    content.codepointAt o = some d →
      min (leadLength lead) (content.byteLength - o) = d.byteLength

theorem stepUtf8_eq {content : Storage} {o : Nat} (hwhole : SequencesWhole content)
    (hboundary : CodepointBoundary content o) (ho : o < content.byteLength) :
    stepUtf8 content.bytes o = storageStride content o := by
  have hlead : content.bytes[o]? = some (content.bytes.get ⟨o, ho⟩) := List.getElem?_eq_getElem _
  obtain ⟨d, hd, -⟩ := exists_codepointAt content o
  have hlength := hwhole o _ d hboundary hlead hd
  rw [storageStride_eq hd, utf16Units_codepointAt ho hd, stepUtf8, hlead, ← hlength]
  rfl

theorem findNewline_eq {text body rest : Bytes} {cursor : Nat}
    (h : text.drop cursor = body ++ newline :: rest) (hplain : newline ∉ body) :
    findNewline text cursor = some (cursor + body.length) := by
  have hnone : body.findIdx? isNewline = none := by
    rw [List.findIdx?_eq_none_iff]
    intro c hc
    have hne : c ≠ newline := fun heq => hplain (heq ▸ hc)
    simpa [isNewline] using hne
  rw [findNewline, h, List.findIdx?_append, hnone]
  simp [List.findIdx?_cons, isNewline]

theorem findNewline_eq_none {text : Bytes} {cursor : Nat} (h : newline ∉ text.drop cursor) :
    findNewline text cursor = none := by
  rw [findNewline, Option.map_eq_none_iff, List.findIdx?_eq_none_iff]
  intro c hc
  have hne : c ≠ newline := fun heq => h (heq ▸ hc)
  simpa [isNewline] using hne

theorem lineCursor_eq {text : Bytes} {line cursor : Nat}
    (h : line ≤ countNewlines (text.drop cursor)) :
    lineCursor text line cursor = some (cursor + lineStart (text.drop cursor) line) := by
  induction line generalizing cursor with
  | zero =>
      rw [lineCursor]
      cases text.drop cursor <;> rfl
  | succ line ih =>
      obtain ⟨before, body, after, hline⟩ := exists_lineAt (Nat.zero_le (countNewlines (text.drop cursor)))
      obtain rfl := hline.before_eq_nil
      have hdrop := hline.text_eq
      rw [List.nil_append] at hdrop
      rcases hline.after_cases with rfl | ⟨rest, rfl⟩
      · rw [hdrop, List.append_nil, hline.countNewlines_body] at h
        cases h
      · have hlt : cursor < text.length := by
          have := congrArg List.length hdrop
          simp only [List.length_drop, List.length_append, List.length_cons] at this
          omega
        have hrest : text.drop (cursor + body.length + 1) = rest := by
          rw [Nat.add_assoc, ← List.drop_drop, hdrop]
          simp
        have hcount : countNewlines (body ++ [newline]) = 1 := by
          simp [hline.countNewlines_body, isNewline]
        have hstart : lineStart (body ++ newline :: rest) (line + 1) =
            body.length + 1 + lineStart rest line := by
          rw [List.append_cons, lineStart_append, hcount]
          split
          · rename_i hle
            obtain rfl : line = 0 := by omega
            have hends := lineStart_ends (.inr ⟨body, rfl⟩)
            rw [hcount] at hends
            rw [hends]
            cases rest <;> simp [lineStart]
          · simp
        have hih : lineCursor text line (cursor + body.length + 1) = some _ := ih (by
          rw [hrest]
          rw [hdrop, List.append_cons, countNewlines_append, hcount] at h
          omega)
        rw [lineCursor, if_pos hlt, findNewline_eq hdrop hline.body_plain, Option.bind_some, hih, hrest, hdrop, hstart]
        congr 1
        omega

namespace LineAt

variable {text before body after : Bytes} {huge : Bool} {line o u : Nat}

theorem getElem?_ne_newline (h : LineAt text line before body after) (hge : before.length ≤ o)
    (hlt : o < before.length + body.length) : text[o]? ≠ some newline := by
  rw [h.text_eq, List.getElem?_append_right hge, List.getElem?_append_left (by omega)]
  exact fun hbyte => h.body_plain (List.mem_of_getElem? hbyte)

theorem getElem?_end (h : LineAt text line before body after) :
    before.length + body.length = text.length ∨
      text[before.length + body.length]? = some newline := by
  rw [h.text_eq]
  rcases h.after_cases with rfl | ⟨rest, rfl⟩
  · exact .inl (by simp)
  · refine .inr ?_
    rw [← List.append_assoc, ← List.length_append, List.getElem?_append_right (Nat.le_refl _),
      Nat.sub_self]
    rfl

theorem positionToByteFlat_eq (h : LineAt text line before body after)
    (hwhole : SequencesWhole ⟨text, huge⟩) (ho : o ≤ before.length + body.length)
    (hpass : Passes (storageStride ⟨text, huge⟩) ⟨before.length, 0⟩ ⟨o, u⟩) {character : Nat}
    (hstop : character ≤ u ∨ o = before.length + body.length)
    (hfirst : ∀ mid, Passes (storageStride ⟨text, huge⟩) ⟨before.length, 0⟩ mid →
      Passes (storageStride ⟨text, huge⟩) mid ⟨o, u⟩ → mid.offset < o → mid.measure < character) :
    positionToByteFlat text ⟨line, character⟩ = some o := by
  have hlength : before.length + body.length ≤ text.length := by
    rw [h.text_eq]
    simp only [List.length_append]
    omega
  have hstart : CodepointBoundary ⟨text, huge⟩ before.length :=
    codepointBoundary_iff.2 ⟨Nat.le_trans (Nat.le_add_right _ _) hlength, h.between_start⟩
  have hwalk := walk_eq_of_agree (stepUtf8 text)
    (fun mark => mark.offset < text.length && text[mark.offset]? != some newline &&
      mark.measure < character) (text.length + 1) hpass
    (fun mid hmid hlt => stepUtf8_eq hwhole (codepointBoundary_of_passes hmid hstart)
      (Nat.lt_of_lt_of_le hlt (Nat.le_trans ho hlength)))
    (fun mid hmid hto hlt => by
      have hplain := h.getElem?_ne_newline hmid.offset_le (Nat.lt_of_lt_of_le hlt ho)
      have hbefore := hfirst mid hmid hto hlt
      simp only at hlt
      simp only [Bool.and_eq_true, decide_eq_true_eq, bne_iff_ne]
      exact ⟨⟨by omega, hplain⟩, hbefore⟩)
    (by
      rcases hstop with hle | rfl
      · simp [Nat.not_lt.2 hle]
      · rcases h.getElem?_end with heq | heq
        · simp [heq]
        · simp [heq])
    (by simp only; omega)
  have hcursor : lineCursor text line 0 = some before.length := by
    rw [lineCursor_eq h.line_le, List.drop_zero, h.lineStart_eq, Nat.zero_add]
  simp only [positionToByteFlat, hcursor, hwalk, Option.map_some]

end LineAt

end Ned.Editor.Lsp
