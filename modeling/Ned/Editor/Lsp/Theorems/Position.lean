import Ned.Editor.Lsp.Lemmas.Position

/-!
# Converting positions

Boundaries and positions convert back and forth over a storage. A flat string has the same positions,
but for what comes behind the end of a line, as long as its sequences are whole.
-/

namespace Ned.Editor.Lsp

open Text Library

/-- Where a line ends, before its newline. -/
def lineTextEnd (content : Bytes) (line : Nat) : Nat :=
  (findNewline content (lineStart content line)).getD content.length

section

variable {content : Storage} {line o : Nat} {before body after : Bytes}

theorem LineAt.lineTextEnd_eq (h : LineAt content.bytes line before body after) :
    lineTextEnd content.bytes line = before.length + body.length := by
  have hdrop : content.bytes.drop before.length = body ++ after := by
    rw [h.text_eq, List.drop_left]
  rw [lineTextEnd, h.lineStart_eq]
  rcases h.after_cases with rfl | ⟨rest, rfl⟩
  · rw [findNewline_eq_none (by rw [hdrop, List.append_nil]; exact h.body_plain), h.text_eq]
    simp
  · rw [findNewline_eq hdrop h.body_plain]
    rfl

/-- A boundary, on its line. -/
structure OnLine (content : Storage) (o : Nat) (position : Position) (before body after : Bytes) :
    Prop where
  line : LineAt content.bytes position.line before body after
  within : before.length ≤ o ∧ o ≤ before.length + body.length
  passes : Passes (storageStride content) ⟨before.length, 0⟩ ⟨o, position.character⟩

theorem OnLine.position_eq {position : Position} (h : OnLine content o position before body after) :
    bytePositionToLsp content o = some position := h.line.bytePositionToLsp_eq h.within h.passes

theorem CodepointBoundary.exists_onLine (h : CodepointBoundary content o) :
    ∃ position before body after, OnLine content o position before body after := by
  have hle := h.between.1
  obtain ⟨before, body, after, hline⟩ :=
    exists_lineAt ((List.take_sublist o content.bytes).countP_le (p := isNewline))
  have hwithin := (hline.countNewlines_take_iff hle).1 rfl
  obtain ⟨u, hpass⟩ := exists_passes hle h.between.2 hwithin.1 0
  exact ⟨⟨_, u⟩, before, body, after, hline, hwithin, hpass⟩

theorem CodepointBoundary.round_trip (h : CodepointBoundary content o) :
    ∃ position, bytePositionToLsp content o = some position ∧
      positionToByte content position = some o := by
  obtain ⟨position, before, body, after, hon⟩ := h.exists_onLine
  exact ⟨position, hon.position_eq, hon.line.positionToByte_eq hon.within.2 hon.passes (Nat.le_refl _)
    fun mid _ hto hlt => hto.measure_lt hlt⟩

/-! ## Positions on a line -/

theorem LineAt.onLine_end (h : LineAt content.bytes line before body after) :
    ∃ length, OnLine content (before.length + body.length) ⟨line, length⟩ before body after := by
  have hlength : before.length + body.length ≤ content.byteLength := by
    rw [Storage.byteLength, h.text_eq]
    simp only [List.length_append]
    omega
  obtain ⟨u, hpass⟩ := exists_passes hlength h.between (Nat.le_add_right _ _) 0
  exact ⟨u, h, ⟨Nat.le_add_right _ _, Nat.le_refl _⟩, hpass⟩

/-- On the line, both find the first boundary that has the character. -/
theorem OnLine.within_line {length character : Nat} (hwhole : SequencesWhole content)
    (h : OnLine content (before.length + body.length) ⟨line, length⟩ before body after)
    (hcharacter : character ≤ length) : ∃ o ≤ before.length + body.length,
      positionToByte content ⟨line, character⟩ = some o ∧
        positionToByteFlat content.bytes ⟨line, character⟩ = some o := by
  obtain ⟨mid, hmid, hrest, hle, hfirst⟩ := h.passes.exists_first hcharacter
  exact ⟨mid.offset, hrest.offset_le,
    h.line.positionToByte_eq hrest.offset_le hmid hle hfirst,
    h.line.positionToByteFlat_eq hwhole hrest.offset_le hmid (.inl hle) hfirst⟩

/-- Behind it, the one takes the newline with it and the other does not. -/
theorem OnLine.beyond_line {length character : Nat} (hwhole : SequencesWhole content)
    (h : OnLine content (before.length + body.length) ⟨line, length⟩ before body after)
    (hcharacter : length < character) :
    positionToByte content ⟨line, character⟩ = some (lineByteRangeEnd content line) ∧
      positionToByteFlat content.bytes ⟨line, character⟩ = some (before.length + body.length) := by
  refine ⟨h.line.positionToByte_end h.passes hcharacter,
    h.line.positionToByteFlat_eq hwhole (Nat.le_refl _) h.passes (.inr rfl) fun mid _ hto _ => ?_⟩
  exact Nat.lt_of_le_of_lt hto.measure_le hcharacter

/-! ## The loop over a range -/

/-- The loop stands at a boundary, and has its position. -/
structure Located (content : Storage) (scan : RangeScan) : Prop where
  boundary : CodepointBoundary content scan.cursor
  position_eq : bytePositionToLsp content scan.cursor = some scan.position

variable {scan : RangeScan} {startByte endByte fuel : Nat}

theorem Located.exists_onLine (h : Located content scan) :
    ∃ before body after, OnLine content scan.cursor scan.position before body after := by
  obtain ⟨position, before, body, after, hon⟩ := h.boundary.exists_onLine
  obtain rfl := Option.some.inj (hon.position_eq.symm.trans h.position_eq)
  exact ⟨before, body, after, hon⟩

/-- One turn goes to the next boundary. -/
theorem Located.advance (hwhole : SequencesWhole content) (h : Located content scan)
    (hinside : scan.cursor < content.byteLength) : ∃ next, scan.advance content.bytes = some next ∧
      Located content next ∧ next.start = scan.start ∧ scan.cursor < next.cursor ∧
      ∀ o, CodepointBoundary content o → scan.cursor < o → next.cursor ≤ o := by
  obtain ⟨before, body, after, hon⟩ := h.exists_onLine
  have hbyte : content.bytes[scan.cursor]? = some (content.bytes.get ⟨scan.cursor, hinside⟩) :=
    List.getElem?_eq_getElem _
  obtain ⟨d, hd, hpos⟩ := exists_codepointAt content scan.cursor
  have hpos := hpos hinside
  have hnear : ∀ o, CodepointBoundary content o → scan.cursor < o → scan.cursor + d.byteLength ≤ o :=
    fun o ho hlt => ho.between.2 scan.cursor d hlt hd
  have hboundary : CodepointBoundary content (scan.cursor + d.byteLength) := by
    refine h.boundary.next ?_
    rw [Storage.nextCodepointBoundary, nextCodepointBoundary, if_neg (Nat.not_le.2 hinside)]
    exact Option.bind_eq_some_iff.2 ⟨d, hd, rfl⟩
  generalize content.bytes.get ⟨scan.cursor, hinside⟩ = c at hbyte
  by_cases hc : c = newline
  · subst hc
    obtain rfl := Option.some.inj ((codepointAt_newline hbyte).symm.trans hd)
    have hadvance : scan.advance content.bytes = some { scan with
        line := scan.line + 1, utf16 := 0, cursor := scan.cursor + 1 } :=
      Option.bind_eq_some_iff.2 ⟨newline, hbyte, if_pos rfl⟩
    have hend : scan.cursor = before.length + body.length := by
      refine Nat.le_antisymm hon.within.2 (Nat.le_of_not_lt fun hlt => ?_)
      exact hon.line.getElem?_ne_newline hon.within.1 hlt hbyte
    refine ⟨_, hadvance, ?_, rfl, Nat.lt_succ_self _, hnear⟩
    have hafter : ∃ rest, after = newline :: rest := by
      rcases hon.line.after_cases with rfl | hrest
      · rw [hon.line.text_eq, hend] at hbyte
        simp at hbyte
      · exact hrest
    obtain ⟨rest, rfl⟩ := hafter
    obtain ⟨body', after', hline⟩ := hon.line.next
    have hlength : (before ++ body ++ [newline]).length = scan.cursor + 1 := by
      simp [hend, Nat.add_assoc]
    refine ⟨hboundary, hline.bytePositionToLsp_eq ?_ ?_⟩
    · simp only [hlength]
      exact ⟨Nat.le_refl _, Nat.le_add_right _ _⟩
    · rw [hlength]
      exact .here _
  · have hstride := storageStride_eq hd
    have hstep := (stepUtf8_eq hwhole h.boundary hinside).trans hstride
    have hadvance : scan.advance content.bytes = some { scan with
        utf16 := scan.utf16 + utf16Units d.codepoint, cursor := scan.cursor + d.byteLength } := by
      refine Option.bind_eq_some_iff.2 ⟨c, hbyte, ?_⟩
      rw [if_neg hc]
      exact Option.bind_eq_some_iff.2 ⟨_, hstep, rfl⟩
    have hinner : scan.cursor < before.length + body.length := by
      refine Nat.lt_of_le_of_ne hon.within.2 fun hend => ?_
      rcases hon.line.getElem?_end with heq | heq
      · rw [← hend] at heq
        exact Nat.lt_irrefl _ (heq ▸ hinside)
      · rw [← hend, hbyte] at heq
        exact hc (Option.some.inj heq)
    refine ⟨_, hadvance, ⟨hboundary, hon.line.bytePositionToLsp_eq ⟨?_, ?_⟩ ?_⟩, rfl,
      Nat.lt_add_of_pos_right hpos, hnear⟩
    · exact Nat.le_trans hon.within.1 (Nat.le_add_right _ _)
    · exact hon.line.between scan.cursor d hinner hd
    · exact hon.passes.snoc hstride hpos (utf16Units_pos _)

variable (startByte) in
theorem Located.noteStart (h : Located content scan)
    (hnoted : startByte < scan.cursor → bytePositionToLsp content startByte = some scan.start) :
    Located content (scan.noteStart startByte) ∧
      (scan.noteStart startByte).cursor = scan.cursor ∧ (startByte ≤ scan.cursor →
        bytePositionToLsp content startByte = some (scan.noteStart startByte).start) := by
  unfold RangeScan.noteStart
  split
  · rename_i hat
    exact ⟨⟨h.boundary, h.position_eq⟩, rfl, fun _ => hat ▸ h.position_eq⟩
  · rename_i hat
    exact ⟨h, rfl, fun hle => hnoted (Nat.lt_of_le_of_ne hle (Ne.symm hat))⟩

variable (fuel) in
theorem Located.scanRange (hwhole : SequencesWhole content) (hstart : CodepointBoundary content startByte)
    (hend : CodepointBoundary content endByte) (h : Located content scan)
    (hle : scan.cursor ≤ endByte)
    (hnoted : startByte < scan.cursor → bytePositionToLsp content startByte = some scan.start)
    (hfuel : endByte - scan.cursor < fuel) :
    ∃ last, scanRange content.bytes startByte endByte fuel scan = some last ∧
      Located content last ∧ last.cursor = endByte ∧ (startByte < endByte →
        bytePositionToLsp content startByte = some last.start) := by
  induction fuel generalizing scan with
  | zero => cases hfuel
  | succ fuel ih =>
      rcases Nat.eq_or_lt_of_le hle with rfl | hlt
      · exact ⟨scan, if_neg (Nat.lt_irrefl _), h, rfl, hnoted⟩
      · obtain ⟨hlocated, hcursor, hstarted⟩ := h.noteStart startByte hnoted
        have hinside := Nat.lt_of_lt_of_le hlt hend.between.1
        obtain ⟨next, hadvance, hnext, hkept, hgrows, hnear⟩ :=
          hlocated.advance hwhole (hcursor.symm ▸ hinside)
        rw [hcursor] at hgrows hnear
        obtain ⟨last, hlast, hrest⟩ := ih hnext (hnear endByte hend hlt) (fun hbefore => by
          rw [hkept]
          refine hstarted (Nat.le_of_not_lt fun hafter => ?_)
          exact Nat.lt_irrefl _ (Nat.lt_of_lt_of_le hbefore (hnear startByte hstart hafter)))
          (by omega)
        refine ⟨last, ?_, hrest⟩
        rw [Lsp.scanRange, if_pos hlt, hadvance]
        exact hlast

theorem byteRangeToLspRange_eq (hwhole : SequencesWhole content)
    (hstart : CodepointBoundary content startByte) (hend : CodepointBoundary content endByte)
    (hle : startByte ≤ endByte) : ∃ start stop, bytePositionToLsp content startByte = some start ∧
      bytePositionToLsp content endByte = some stop ∧
      byteRangeToLspRange content.bytes startByte endByte = some ⟨start, stop⟩ := by
  have hzero : Located content {} := by
    obtain ⟨before, body, after, hline⟩ := exists_lineAt (Nat.zero_le (countNewlines content.bytes))
    obtain rfl := hline.before_eq_nil
    exact ⟨.start, hline.bytePositionToLsp_eq ⟨Nat.le_refl _, Nat.zero_le _⟩ (.here _)⟩
  have hlength : endByte ≤ content.bytes.length := hend.between.1
  obtain ⟨last, hscan, hlast, hcursor, hnoted⟩ := hzero.scanRange (content.bytes.length + 1) hwhole
    hstart hend (Nat.zero_le _) (fun hlt => absurd hlt (Nat.not_lt_zero _))
    (Nat.lt_succ_of_le hlength)
  obtain ⟨-, -, hstarted⟩ := hlast.noteStart startByte fun hlt => hnoted (hcursor ▸ hlt)
  refine ⟨_, _, hstarted (hcursor.symm ▸ hle), hcursor ▸ hlast.position_eq, ?_⟩
  rw [byteRangeToLspRange, hscan]
  rfl

end

/-! ## Both ways -/

/-- What a position on `line` comes to, for a line of `length` code units. -/
structure LineResolved (content : Storage) (line length : Nat) : Prop where
  length_eq : bytePositionToLsp content (lineTextEnd content.bytes line) = some ⟨line, length⟩
  within : ∀ character ≤ length, ∃ o ≤ lineTextEnd content.bytes line,
    positionToByte content ⟨line, character⟩ = some o ∧
      positionToByteFlat content.bytes ⟨line, character⟩ = some o
  beyond : ∀ character, length < character →
    positionToByteFlat content.bytes ⟨line, character⟩ = some (lineTextEnd content.bytes line) ∧
      positionToByte content ⟨line, character⟩ = some (lineByteRangeEnd content line)

/-- A boundary is found again from its position. Where every sequence is whole, the flat string gives
the same positions and offsets, but that a character past a line stays before its newline there. -/
theorem positions_convert (content : Storage) :
    (∀ o, CodepointBoundary content o → ∃ position, bytePositionToLsp content o = some position ∧
      positionToByte content position = some o) ∧
    (SequencesWhole content →
      (∀ line < content.lineCount, ∃ length, LineResolved content line length) ∧
      ∀ startByte endByte, CodepointBoundary content startByte → CodepointBoundary content endByte →
        startByte ≤ endByte → ∃ start stop, bytePositionToLsp content startByte = some start ∧
          bytePositionToLsp content endByte = some stop ∧
          byteRangeToLspRange content.bytes startByte endByte = some ⟨start, stop⟩) := by
  refine ⟨fun o ho => ho.round_trip, fun hwhole => ⟨fun line hline => ?_, fun s e hs he hle =>
    byteRangeToLspRange_eq hwhole hs he hle⟩⟩
  have hline : line ≤ countNewlines content.bytes := Nat.le_of_lt_succ hline
  obtain ⟨before, body, after, hat⟩ := exists_lineAt hline
  obtain ⟨length, hon⟩ := hat.onLine_end
  refine ⟨length, ?_, ?_, ?_⟩
  · rw [hat.lineTextEnd_eq]
    exact hon.position_eq
  · rw [hat.lineTextEnd_eq]
    exact fun character hcharacter => hon.within_line hwhole hcharacter
  · rw [hat.lineTextEnd_eq]
    exact fun character hcharacter => (hon.beyond_line hwhole hcharacter).symm

/-- A character past a line is past its newline over a storage, and before it over a flat string. -/
theorem past_line_parts : ∃ (content : Storage) (line length character : Nat),
    line < content.lineCount ∧
      bytePositionToLsp content (lineTextEnd content.bytes line) = some ⟨line, length⟩ ∧
      length < character ∧
      positionToByte content ⟨line, character⟩ ≠
        positionToByteFlat content.bytes ⟨line, character⟩ ∧
      positionToByte content ⟨line, character⟩ ≠ some (lineTextEnd content.bytes line) :=
  ⟨⟨[97, 98, newline, 99, 100], false⟩, 0, 2, 999, by decide⟩

end Ned.Editor.Lsp
