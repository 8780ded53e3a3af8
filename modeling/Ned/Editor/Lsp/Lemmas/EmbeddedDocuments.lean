import Ned.Editor.Lsp.Position
import Ned.Editor.Lsp.Theorems.Position

/-!
# What padding keeps

A document shadows its host: at every boundary of the host stands the host's codepoint or a filler as long and as
wide. What a byte decodes to depends on what follows it, but nothing that a filler starts with can continue a
sequence.
-/

namespace Ned.Editor.Lsp

open Text Library

/-! ## Decoding in a window -/

section

variable {f g : Nat → Option UInt8} {total offset : Nat} {d : DecodedCodepoint}

theorem decodeTail_window {n : Nat} {cp cp' : UInt32} (h : decodeTail f offset n cp = some (some cp'))
    (hagree : ∀ i, offset ≤ i → i < offset + n → g i = f i) : decodeTail g offset n cp = some (some cp') := by
  induction n generalizing offset cp with
  | zero => exact h
  | succ n ih =>
      obtain ⟨b, hb, h⟩ := Option.bind_eq_some_iff.1 h
      have hgb : g offset = some b := (hagree offset (Nat.le_refl _) (by omega)).trans hb
      apply Option.bind_eq_some_iff.2 ⟨b, hgb, ?_⟩
      split at h
      next hcontinues =>
        rw [if_pos hcontinues]
        apply ih h
        intro i hlow hhigh
        exact hagree i (by omega) (by omega)
      next => cases h

theorem codepointAt_window (ho : offset < total) (hd : codepointAt f total offset = some d)
    (hlong : 1 < d.byteLength) (hagree : ∀ i, offset ≤ i → i < offset + d.byteLength → g i = f i) :
    codepointAt g total offset = some d := by
  rw [codepointAt, if_neg (Nat.not_le.2 ho)] at hd ⊢
  obtain ⟨b0, hb0, hd⟩ := Option.bind_eq_some_iff.1 hd
  have hgb0 : g offset = some b0 := (hagree offset (Nat.le_refl _) (by omega)).trans hb0
  apply Option.bind_eq_some_iff.2 ⟨b0, hgb0, ?_⟩
  split at hd
  next =>
    cases hd
    exact absurd hlong (Nat.lt_irrefl 1)
  next hascii =>
    rw [if_neg hascii]
    cases hlead : decodeLead b0 with
    | none =>
        simp only [hlead] at hd
        cases hd
        exact absurd hlong (Nat.lt_irrefl 1)
    | some lead =>
        obtain ⟨len, cp⟩ := lead
        obtain ⟨-, hlen, -⟩ := decodeLead_spec hlead
        simp only [hlead] at hd ⊢
        split at hd
        next =>
          cases hd
          exact absurd hlong (Nat.lt_irrefl 1)
        next hfits =>
          rw [if_neg hfits]
          obtain ⟨r, htail, hd⟩ := Option.bind_eq_some_iff.1 hd
          cases r with
          | none =>
              cases hd
              exact absurd hlong (Nat.lt_irrefl 1)
          | some cp' =>
              simp only at hd
              split at hd
              next hscalar =>
                cases hd
                have htail' := decodeTail_window htail fun i hlow hhigh =>
                  hagree i (by omega) (by simp only; omega)
                apply Option.bind_eq_some_iff.2 ⟨some cp', htail', ?_⟩
                simp only [hscalar, if_true]
              next =>
                cases hd
                exact absurd hlong (Nat.lt_irrefl 1)

theorem codepointAt_alone {b : UInt8} (ho : offset < total) (hd : codepointAt f total offset = some d)
    (hone : d.byteLength ≤ 1) (hb : f offset = some b) :
    d = if b < 0x80 then { codepoint := b.toUInt32, byteLength := 1 } else malformed := by
  rw [codepointAt, if_neg (Nat.not_le.2 ho)] at hd
  obtain ⟨b0, hb0, hd⟩ := Option.bind_eq_some_iff.1 hd
  obtain rfl := Option.some.inj (hb0.symm.trans hb)
  split at hd
  next hascii =>
    cases hd
    rw [if_pos hascii]
  next hascii =>
    rw [if_neg hascii]
    cases hlead : decodeLead b0 with
    | none =>
        simp only [hlead] at hd
        exact (Option.some.inj hd).symm
    | some lead =>
        obtain ⟨len, cp⟩ := lead
        obtain ⟨-, hlen, -⟩ := decodeLead_spec hlead
        simp only [hlead] at hd
        split at hd
        next => exact (Option.some.inj hd).symm
        next =>
          obtain ⟨r, -, hd⟩ := Option.bind_eq_some_iff.1 hd
          cases r with
          | none => exact (Option.some.inj hd).symm
          | some cp' =>
              simp only at hd
              split at hd
              next =>
                cases hd
                exact absurd hlen (Nat.not_lt.2 hone)
              next => exact (Option.some.inj hd).symm

theorem codepointAt_continuation {b : UInt8} (ho : offset < total) (hb : f offset = some b)
    (hcontinues : isContinuationByte b = true) : codepointAt f total offset = some malformed := by
  have hascii : ¬ b < 0x80 := by
    rw [isContinuationByte_eq, Bool.and_eq_true, decide_eq_true_eq] at hcontinues
    rw [UInt8.lt_iff_toNat_lt]
    exact Nat.not_lt.2 hcontinues.1
  have hlead : decodeLead b = none := by
    cases hlead : decodeLead b with
    | none => rfl
    | some lead =>
        rw [(decodeLead_spec hlead).1] at hcontinues
        cases hcontinues
  rw [codepointAt, if_neg (Nat.not_le.2 ho)]
  apply Option.bind_eq_some_iff.2 ⟨b, hb, ?_⟩
  rw [if_neg hascii, hlead]

end

/-! ## Pieces -/

section

variable {host doc t : Bytes} {ranges : List (Nat × Nat)} {x y o offset fuel : Nat} {d : DecodedCodepoint}
  {huge : Bool}

theorem length_fillerForByteLength (hpos : 0 < d.byteLength) (hshort : d.byteLength ≤ 4) :
    (fillerForByteLength d.byteLength).length = d.byteLength := by
  generalize d.byteLength = n at hpos hshort
  obtain rfl | rfl | rfl | rfl : n = 1 ∨ n = 2 ∨ n = 3 ∨ n = 4 := by omega
  · rfl
  · rfl
  · rfl
  · rfl

structure At (text : Bytes) (x : Nat) (d : DecodedCodepoint) : Prop where
  lt : x < text.length
  decoded : codepointAt (fun i => text[i]?) text.length x = some d

theorem At.covers (h : At host x d) : Covers (fun i => host[i]?) host.length x d.byteLength :=
  codepointAt_covers h.lt h.decoded

theorem exists_at (hx : x < host.length) : ∃ d, At host x d := by
  obtain ⟨d, hd, -⟩ := exists_codepointAt ⟨host, false⟩ x
  exact ⟨d, hx, hd⟩

theorem At.length_padded (ranges : List (Nat × Nat)) (h : At host x d) : (padded host ranges x d).length = d.byteLength := by
  rw [padded]
  split
  · exact substr_length h.covers.fits
  · exact length_fillerForByteLength h.covers.pos h.covers.short

/-- A document that has a piece of the right length for each codepoint of its host. -/
structure Shadows (host : Bytes) (ranges : List (Nat × Nat)) (doc : Bytes) : Prop where
  length_eq : doc.length = host.length
  piece : ∀ {x d}, Between host x → At host x d → substr doc x d.byteLength = padded host ranges x d

theorem padFrom_spec (h : padFrom ⟨host, huge⟩ ranges fuel offset = some t) (hbetween : Between host offset)
    (hle : offset ≤ host.length) : t.length = host.length - offset ∧ ∀ {x d}, offset ≤ x → Between host x →
      At host x d → substr t (x - offset) d.byteLength = padded host ranges x d := by
  induction fuel generalizing offset t with
  | zero => cases h
  | succ fuel ih =>
      rw [padFrom] at h
      split at h
      next hlt =>
        obtain ⟨d, hd, h⟩ := Option.bind_eq_some_iff.1 h
        obtain ⟨rest, hrest, h⟩ := Option.bind_eq_some_iff.1 h
        cases h
        have hat : At host offset d := ⟨hlt, hd⟩
        have hpiece := hat.length_padded ranges
        have hfits := hat.covers.fits
        obtain ⟨hlength, hpieces⟩ := ih hrest (hbetween.next hlt hd) hfits
        constructor
        · rw [List.length_append, hpiece, hlength]
          omega
        · intro x d' hx hxbetween hxat
          rcases Nat.eq_or_lt_of_le hx with rfl | hx
          · obtain rfl := Option.some.inj (hd.symm.trans hxat.decoded)
            rw [Nat.sub_self, substr, List.drop_zero, ← hpiece, List.take_left]
          · have hnext : offset + d.byteLength ≤ x := hxbetween offset d hx hd
            change substr (padded host ranges offset d ++ rest) (x - offset) d'.byteLength = _
            rw [substr, List.drop_append, hpiece, List.drop_eq_nil_of_le (by rw [hpiece]; omega),
              List.nil_append, Nat.sub_sub]
            exact hpieces hnext hxbetween hxat
      next hge =>
        cases h
        have hend : host.length ≤ offset := Nat.le_of_not_lt hge
        refine ⟨by simp only [List.length_nil]; omega, ?_⟩
        intro x d hx _ hxat
        exact absurd hxat.lt (Nat.not_lt.2 (Nat.le_trans hend hx))

theorem padFrom_total (hfuel : host.length - offset < fuel) :
    ∃ t, padFrom ⟨host, huge⟩ ranges fuel offset = some t := by
  induction fuel generalizing offset with
  | zero => cases hfuel
  | succ fuel ih =>
      rw [padFrom]
      split
      next hlt =>
        have hlt : offset < host.length := hlt
        obtain ⟨d, hd, hpos⟩ := exists_codepointAt ⟨host, huge⟩ offset
        have hpos := hpos hlt
        obtain ⟨rest, hrest⟩ := @ih (offset + d.byteLength) (by omega)
        exact ⟨_, Option.bind_eq_some_iff.2 ⟨d, hd, Option.bind_eq_some_iff.2 ⟨rest, hrest, rfl⟩⟩⟩
      next => exact ⟨[], rfl⟩

theorem shadows_of_padFrom (h : padFrom ⟨host, huge⟩ ranges fuel 0 = some doc) : Shadows host ranges doc := by
  obtain ⟨hlength, hpieces⟩ := padFrom_spec h (fun s d hs => absurd hs (Nat.not_lt_zero s)) (Nat.zero_le _)
  exact ⟨hlength, fun hbetween hat => hpieces (Nat.zero_le _) hbetween hat⟩

/-! ## Bytes -/

theorem exists_around (ho : o < host.length) :
    ∃ x d, Between host x ∧ At host x d ∧ x ≤ o ∧ o < x + d.byteLength := by
  have hfrom (n x : Nat) (hn : o - x = n) (hx : x ≤ o) (hbetween : Between host x) :
      ∃ x d, Between host x ∧ At host x d ∧ x ≤ o ∧ o < x + d.byteLength := by
    induction n using Nat.strongRecOn generalizing x with
    | ind n ih =>
        obtain ⟨d, hat⟩ := exists_at (Nat.lt_of_le_of_lt hx ho)
        rcases Nat.lt_or_ge o (x + d.byteLength) with hin | hout
        · exact ⟨x, d, hbetween, hat, hx, hin⟩
        · have hpos := hat.covers.pos
          exact ih (o - (x + d.byteLength)) (by omega) (x + d.byteLength) rfl hout
            (hbetween.next hat.lt hat.decoded)
  exact hfrom o 0 rfl (Nat.zero_le o) fun s d hs => absurd hs (Nat.not_lt_zero s)

namespace Shadows

variable (h : Shadows host ranges doc)
include h

theorem getElem? (hbetween : Between host x) (hat : At host x d) (hlow : x ≤ o) (hhigh : o < x + d.byteLength) :
    doc[o]? = (padded host ranges x d)[o - x]? := by
  rw [← h.piece hbetween hat, getElem?_substr (by omega), Nat.add_sub_cancel' hlow]

theorem getElem?_copied (hbetween : Between host x) (hat : At host x d)
    (hcopied : padded host ranges x d = substr host x d.byteLength) (hlow : x ≤ o)
    (hhigh : o < x + d.byteLength) : doc[o]? = host[o]? := by
  rw [h.getElem? hbetween hat hlow hhigh, hcopied, getElem?_substr (by omega), Nat.add_sub_cancel' hlow]

end Shadows

theorem newline_not_mem_filler (n : Nat) : newline ∉ fillerForByteLength n := by
  unfold fillerForByteLength
  split
  · decide
  · decide
  · decide
  · decide

theorem At.codepoint_newline (h : At host x d) (hlow : x ≤ o) (hhigh : o < x + d.byteLength)
    (hnewline : host[o]? = some newline) : d = { codepoint := newline.toUInt32, byteLength := 1 } := by
  rcases Nat.eq_or_lt_of_le hlow with rfl | hlt
  · exact Option.some.inj (h.decoded.symm.trans (codepointAt_newline hnewline))
  · obtain ⟨b, hb, hcontinues⟩ := h.covers.tail o hlt hhigh
    cases hnewline.symm.trans hb
    cases hcontinues

theorem Shadows.getElem?_newline (h : Shadows host ranges doc) :
    doc[o]? = some newline ↔ host[o]? = some newline := by
  rcases Nat.lt_or_ge o host.length with ho | ho
  · obtain ⟨x, d, hbetween, hat, hlow, hhigh⟩ := exists_around ho
    rw [h.getElem? hbetween hat hlow hhigh, padded]
    split
    next => rw [getElem?_substr (by omega), Nat.add_sub_cancel' hlow]
    next hkept =>
      apply iff_of_false
      · intro hmem
        exact newline_not_mem_filler _ (List.mem_of_getElem? hmem)
      · intro hnewline
        obtain rfl := hat.codepoint_newline hlow hhigh hnewline
        simp at hkept
  · rw [List.getElem?_eq_none_iff.2 ho, List.getElem?_eq_none_iff.2 (h.length_eq.trans_le ho)]

theorem Shadows.getElem?_owned (h : Shadows host ranges doc) {start stop : Nat}
    (hstart : Between host start) (howned : ∀ i, start ≤ i → i < stop → byteInRanges i ranges = true)
    (hlow : start ≤ o) (hhigh : o < stop) : doc[o]? = host[o]? := by
  rcases Nat.lt_or_ge o host.length with ho | ho
  · obtain ⟨x, d, hbetween, hat, hx, hin⟩ := exists_around ho
    have hwithin : start ≤ x := by
      apply Nat.le_of_not_lt
      intro hlt
      exact absurd (hstart x d hlt hat.decoded) (Nat.not_le.2 (Nat.lt_of_le_of_lt hlow hin))
    apply h.getElem?_copied hbetween hat ?_ hx hin
    rw [padded, howned x hwithin (Nat.lt_of_le_of_lt hx hhigh), Bool.or_true, if_pos rfl]
  · rw [List.getElem?_eq_none_iff.2 ho, List.getElem?_eq_none_iff.2 (h.length_eq.trans_le ho)]

/-! ## Lines -/

theorem Shadows.map_isNewline (h : Shadows host ranges doc) : doc.map isNewline = host.map isNewline := by
  apply List.ext_getElem?
  intro i
  have hiff := h.getElem?_newline (o := i)
  rw [List.getElem?_map, List.getElem?_map]
  rcases Nat.lt_or_ge i host.length with hi | hi
  · have hi' : i < doc.length := h.length_eq ▸ hi
    rw [List.getElem?_eq_getElem hi, List.getElem?_eq_getElem hi'] at hiff ⊢
    rw [Option.some.injEq, Option.some.injEq] at hiff
    apply congrArg some
    rw [isNewline, isNewline, Bool.eq_iff_iff, beq_iff_eq, beq_iff_eq]
    exact hiff
  · rw [List.getElem?_eq_none_iff.2 hi, List.getElem?_eq_none_iff.2 (h.length_eq.trans_le hi)]

theorem countNewlines_eq_count (text : Bytes) : countNewlines text = (text.map isNewline).count true := by
  induction text with
  | nil => rfl
  | cons c text ih =>
      rw [countNewlines_cons, ih, List.map_cons, List.count_cons]
      cases isNewline c with
      | _ => rfl

theorem Shadows.lineAt (h : Shadows host ranges doc) {line : Nat} {before body after : Bytes}
    (hline : LineAt host line before body after) : ∃ before' body' after',
      LineAt doc line before' body' after' ∧ before'.length = before.length ∧ body'.length = body.length := by
  have hhost : host = before ++ (body ++ after) := hline.text_eq
  have hlength : doc.length = before.length + (body.length + after.length) := by
    rw [h.length_eq, hhost, List.length_append, List.length_append]
  have hbefore (i : Nat) (hi : i < before.length) : host[i]? = before[i]? := by
    rw [hhost, List.getElem?_append_left hi]
  have hbody (i : Nat) (hi : i < body.length) : host[before.length + i]? = body[i]? := by
    rw [hhost, List.getElem?_append_right (Nat.le_add_right _ _), Nat.add_sub_cancel_left,
      List.getElem?_append_left hi]
  refine ⟨doc.take before.length, (doc.drop before.length).take body.length,
    doc.drop (before.length + body.length), ⟨?_, ?_, ?_, ?_, ?_⟩, ?_, ?_⟩
  · rw [← List.drop_drop, List.take_append_drop, List.take_append_drop]
  · rw [← hline.count, countNewlines_eq_count, countNewlines_eq_count, List.map_take, h.map_isNewline,
      ← List.map_take, hhost, List.take_left]
  · rcases hline.before_cases with rfl | ⟨lines, rfl⟩
    · exact .inl rfl
    · right
      have hlast : doc[lines.length]? = some newline := by
        rw [h.getElem?_newline, hbefore _ (by simp)]
        simp
      refine ⟨doc.take lines.length, ?_⟩
      rw [List.length_append, List.length_singleton, List.take_add_one, hlast]
      rfl
  · intro hmem
    obtain ⟨i, hi⟩ := List.getElem?_of_mem hmem
    rw [List.getElem?_take] at hi
    split at hi
    next hlt =>
      rw [List.getElem?_drop, h.getElem?_newline, hbody i hlt] at hi
      exact hline.body_plain (List.mem_of_getElem? hi)
    next => cases hi
  · rcases hline.after_cases with rfl | ⟨rest, rfl⟩
    · left
      exact List.drop_eq_nil_of_le (by rw [hlength]; exact Nat.le_refl _)
    · right
      have hnext : doc[before.length + body.length]? = some newline := by
        rw [h.getElem?_newline, hhost, ← List.append_assoc, ← List.length_append,
          List.getElem?_append_right (Nat.le_refl _), Nat.sub_self]
        rfl
      refine ⟨doc.drop (before.length + body.length + 1), ?_⟩
      rw [List.drop_eq_getElem_cons (List.getElem?_eq_some_iff.1 hnext).1,
        (List.getElem?_eq_some_iff.1 hnext).2]
  · rw [List.length_take, hlength]
    omega
  · rw [List.length_take, List.length_drop, hlength]
    omega

/-! ## Widths -/

theorem codepointAt_filler2 (hle : x + 2 ≤ doc.length) (h0 : doc[x]? = some 0xC2) (h1 : doc[x + 1]? = some 0xA0) :
    codepointAt (fun i => doc[i]?) doc.length x = some { codepoint := 0xA0, byteLength := 2 } := by
  rw [codepointAt, if_neg (by omega)]
  apply Option.bind_eq_some_iff.2 ⟨0xC2, h0, ?_⟩
  have htail : decodeTail (fun i => doc[i]?) (x + 1) 1 2 = some (some 0xA0) :=
    Option.bind_eq_some_iff.2 ⟨0xA0, h1, rfl⟩
  have hlead : decodeLead 0xC2 = some (2, 2) := by decide
  rw [if_neg (by decide), hlead]
  dsimp only
  rw [if_neg (by omega)]
  apply Option.bind_eq_some_iff.2 ⟨some 0xA0, htail, ?_⟩
  rfl

theorem codepointAt_filler3 (hle : x + 3 ≤ doc.length) (h0 : doc[x]? = some 0xE3) (h1 : doc[x + 1]? = some 0x80)
    (h2 : doc[x + 2]? = some 0x80) :
    codepointAt (fun i => doc[i]?) doc.length x = some { codepoint := 0x3000, byteLength := 3 } := by
  rw [codepointAt, if_neg (by omega)]
  apply Option.bind_eq_some_iff.2 ⟨0xE3, h0, ?_⟩
  have htail : decodeTail (fun i => doc[i]?) (x + 1) 2 3 = some (some 0x3000) :=
    Option.bind_eq_some_iff.2 ⟨0x80, h1, Option.bind_eq_some_iff.2 ⟨0x80, h2, rfl⟩⟩
  have hlead : decodeLead 0xE3 = some (3, 3) := by decide
  rw [if_neg (by decide), hlead]
  dsimp only
  rw [if_neg (by omega)]
  apply Option.bind_eq_some_iff.2 ⟨some 0x3000, htail, ?_⟩
  rfl

theorem not_continuation_filler (n : Nat) : (fillerForByteLength n).head?.any isContinuationByte = false := by
  unfold fillerForByteLength
  split
  · rfl
  · rfl
  · rfl
  · rfl

namespace Shadows

variable (h : Shadows host ranges doc)
include h

theorem continuation_copied (hbetween : Between host x) (hat : At host x d)
    (hcontinues : Continues (fun i => doc[i]?) x) : doc[x]? = host[x]? ∧ d.byteLength = 1 := by
  obtain ⟨b, hb, hcontinues⟩ := hcontinues
  have hb : doc[x]? = some b := hb
  have hin : x < x + d.byteLength := Nat.lt_add_of_pos_right hat.covers.pos
  have hpiece := h.getElem? hbetween hat (Nat.le_refl x) hin
  have hcopied : padded host ranges x d = substr host x d.byteLength := by
    rw [padded] at hpiece ⊢
    split at hpiece
    next hkept => rw [if_pos hkept]
    next =>
      rw [Nat.sub_self, ← List.head?_eq_getElem?, hb] at hpiece
      have hnot := not_continuation_filler d.byteLength
      rw [← hpiece, Option.any_some, hcontinues] at hnot
      cases hnot
  have hsame := h.getElem?_copied hbetween hat hcopied (Nat.le_refl x) hin
  refine ⟨hsame, ?_⟩
  have hhost : host[x]? = some b := hsame.symm.trans hb
  have hmalformed := codepointAt_continuation (f := fun i => host[i]?) hat.lt hhost hcontinues
  obtain rfl := Option.some.inj (hat.decoded.symm.trans hmalformed)
  rfl

theorem codepointAt_copied (hbetween : Between host x) (hat : At host x d)
    (hcopied : padded host ranges x d = substr host x d.byteLength) :
    codepointAt (fun i => doc[i]?) doc.length x = some d := by
  rw [h.length_eq]
  have hsame (i : Nat) (hlow : x ≤ i) (hhigh : i < x + d.byteLength) : doc[i]? = host[i]? :=
    h.getElem?_copied hbetween hat hcopied hlow hhigh
  rcases Nat.lt_or_ge 1 d.byteLength with hlong | hshort
  · exact codepointAt_window hat.lt hat.decoded hlong hsame
  · have hone : d.byteLength = 1 := Nat.le_antisymm hshort hat.covers.pos
    obtain ⟨e, hdoc, -⟩ := exists_codepointAt ⟨doc, false⟩ x
    have hdoc : codepointAt (fun i => doc[i]?) host.length x = some e := h.length_eq ▸ hdoc
    have hcovers := codepointAt_covers hat.lt hdoc
    rw [hdoc]
    rcases Nat.lt_or_ge 1 e.byteLength with hlong | hshort
    · -- were the document's sequence longer, the host would have all of its bytes
      have hall (k : Nat) (hk : k < e.byteLength) : Between host (x + k) ∧ doc[x + k]? = host[x + k]? ∧
          ∃ d, At host (x + k) d ∧ d.byteLength = 1 := by
        induction k with
        | zero => exact ⟨hbetween, hsame x (Nat.le_refl x) (by omega), d, hat, hone⟩
        | succ k ih =>
            obtain ⟨hbetween, -, d, hat, hone⟩ := ih (by omega)
            have hnext : Between host (x + k + 1) := hone ▸ hbetween.next hat.lt hat.decoded
            obtain ⟨d', hat'⟩ := @exists_at host (x + k + 1) (by have := hcovers.fits; omega)
            obtain ⟨heq, hone'⟩ := h.continuation_copied hnext hat' (hcovers.tail (x + k + 1) (by omega) (by omega))
            exact ⟨hnext, heq, d', hat', hone'⟩
      have hhost : codepointAt (fun i => host[i]?) host.length x = some e := by
        apply codepointAt_window hat.lt hdoc hlong
        intro i hlow hhigh
        have heq := (hall (i - x) (by omega)).2.1
        rw [Nat.add_sub_cancel' hlow] at heq
        exact heq.symm
      obtain rfl := Option.some.inj (hat.decoded.symm.trans hhost)
      rfl
    · have hbyte : doc[x]? = host[x]? := hsame x (Nat.le_refl x) (by omega)
      obtain ⟨b, hget⟩ : ∃ b, host[x]? = some b := ⟨_, List.getElem?_eq_getElem hat.lt⟩
      rw [codepointAt_alone hat.lt hdoc hshort (hbyte.trans hget),
        codepointAt_alone hat.lt hat.decoded (Nat.le_of_eq hone) hget]

theorem passes_piece (hbetween : Between host x) (hat : At host x d) (v : Nat) :
    Passes (storageStride ⟨doc, huge⟩) ⟨x, v⟩ ⟨x + d.byteLength, v + utf16Units d.codepoint⟩ := by
  have hstep {y : Nat} {e : DecodedCodepoint} {w : Nat} {stop : Mark}
      (he : codepointAt (fun i => doc[i]?) doc.length y = some e) (hpos : 0 < e.byteLength)
      (hrest : Passes (storageStride ⟨doc, huge⟩) ⟨y + e.byteLength, w + utf16Units e.codepoint⟩ stop) :
      Passes (storageStride ⟨doc, huge⟩) ⟨y, w⟩ stop :=
    .step (storageStride_eq he) hpos (utf16Units_pos _) hrest
  by_cases hcopied : padded host ranges x d = substr host x d.byteLength
  · exact hstep (h.codepointAt_copied hbetween hat hcopied) hat.covers.pos (.here _)
  · have hfiller : padded host ranges x d = fillerForByteLength d.byteLength := by
      rw [padded] at hcopied ⊢
      split
      next hkept =>
        rw [if_pos hkept] at hcopied
        exact absurd rfl hcopied
      next => rfl
    have hwidth := utf16Units_codepointAt hat.lt hat.decoded
    have hfits : x + d.byteLength ≤ doc.length := h.length_eq ▸ hat.covers.fits
    have hbytes (k : Nat) (hk : k < d.byteLength) : doc[x + k]? = (fillerForByteLength d.byteLength)[k]? := by
      rw [h.getElem? hbetween hat (Nat.le_add_right x k) (Nat.add_lt_add_left hk x), hfiller,
        Nat.add_sub_cancel_left]
    have hpos := hat.covers.pos
    have hshort := hat.covers.short
    rw [hwidth]
    generalize d.byteLength = n at hbytes hfits hpos hshort
    obtain rfl | rfl | rfl | rfl : n = 1 ∨ n = 2 ∨ n = 3 ∨ n = 4 := by omega
    · have he : codepointAt (fun i => doc[i]?) doc.length x = some { codepoint := 0x20, byteLength := 1 } := by
        rw [codepointAt, if_neg (by omega)]
        exact Option.bind_eq_some_iff.2 ⟨0x20, hbytes 0 (by decide), rfl⟩
      exact hstep he (by decide) (.here _)
    · have he := codepointAt_filler2 hfits (hbytes 0 (by decide)) (hbytes 1 (by decide))
      exact hstep he (by decide) (.here _)
    · have he := codepointAt_filler3 hfits (hbytes 0 (by decide)) (hbytes 1 (by decide)) (hbytes 2 (by decide))
      exact hstep he (by decide) (.here _)
    · have hfirst := codepointAt_filler2 (by omega) (hbytes 0 (by decide)) (hbytes 1 (by decide))
      have hsecond : codepointAt (fun i => doc[i]?) doc.length (x + 2) =
          some { codepoint := 0xA0, byteLength := 2 } :=
        codepointAt_filler2 (by omega) (hbytes 2 (by decide)) (hbytes 3 (by decide))
      exact hstep hfirst (by decide) (hstep hsecond (by decide) (.here _))

theorem passes {start stop : Mark} {huge' : Bool} (hpass : Passes (storageStride ⟨host, huge⟩) start stop)
    (hbetween : Between host start.offset) : Passes (storageStride ⟨doc, huge'⟩) start stop := by
  induction hpass with
  | here mark => exact .here mark
  | @step mark stop s hunder hlength hwidth rest ih =>
      obtain ⟨hlt, d, hd, hlen⟩ := storageStride_inside hunder hlength
      have hat : At host mark.offset d := ⟨hlt, hd⟩
      have hstride : s = { length := d.byteLength, width := utf16Units d.codepoint } :=
        Option.some.inj (hunder.symm.trans (storageStride_eq hd))
      subst hstride
      exact (h.passes_piece hbetween hat mark.measure).trans (ih (hbetween.next hlt hd))

theorem bytePositionToLsp_eq {huge' : Bool} (hboundary : CodepointBoundary ⟨host, huge⟩ o) :
    ∃ position, bytePositionToLsp ⟨host, huge⟩ o = some position ∧
      bytePositionToLsp ⟨doc, huge'⟩ o = some position := by
  obtain ⟨position, before, body, after, hon⟩ := hboundary.exists_onLine
  refine ⟨position, hon.position_eq, ?_⟩
  obtain ⟨before', body', after', hline, hbefore, hbody⟩ := h.lineAt hon.line
  have hpass : Passes (storageStride ⟨doc, huge'⟩) ⟨before'.length, 0⟩ ⟨o, position.character⟩ := by
    rw [hbefore]
    exact h.passes hon.passes hon.line.between_start
  apply hline.bytePositionToLsp_eq ?_ hpass
  rw [hbefore, hbody]
  exact hon.within

end Shadows

end

end Ned.Editor.Lsp
