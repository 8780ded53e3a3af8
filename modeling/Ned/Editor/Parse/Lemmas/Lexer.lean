import Ned.Editor.Parse.Lexer

/-!
# What the lexer reads

Over a text that decodes the lookahead is a codepoint, and U+0000 at the end.
-/

namespace Ned.Editor.Parse

variable {bytes : List UInt8} {position : Length} {ranges : List Range} {skip : Bool}

/-! ## Decoding -/

theorem leadBits_continuations {lead : UInt8} {n bits : Nat} (h : leadBits lead = some (n, bits)) :
    n = 1 ∨ n = 2 ∨ n = 3 := by
  unfold leadBits at h
  split at h
  · simp_all
  · split at h
    · simp_all
    · split at h
      · simp_all
      · cases h

theorem decodeUtf8_size_pos (bytes : List UInt8) : 0 < (decodeUtf8 bytes).2 := by
  unfold decodeUtf8
  split
  · exact Nat.one_pos
  · split
    · exact Nat.one_pos
    · split
      · exact Nat.one_pos
      · split
        · exact Nat.one_pos
        · simp only
          split
          · exact Nat.one_pos
          · exact Nat.succ_pos _

theorem decodeUtf8_codepoint (h : (decodeUtf8 bytes).1 ≠ kDecodeError) :
    ∃ c : Nat, (decodeUtf8 bytes).1 = c ∧ c ≤ 0x10FFFF ∧ (c = 0 → 0 ∈ bytes) := by
  unfold decodeUtf8 at h ⊢
  split at h
  · exact absurd rfl h
  · rename_i lead bytes
    split at h
    · rename_i hlead
      rw [if_pos hlead]
      refine ⟨lead.toNat, rfl, ?_, fun hzero => ?_⟩
      · have hlt := lead.toNat_lt
        omega
      · have heq : lead = 0 := UInt8.toNat_inj.1 hzero
        exact heq ▸ List.mem_cons_self
    · rename_i hlead
      rw [if_neg hlead]
      split at h
      · exact absurd rfl h
      · rename_i n bits hbits
        have hn := leadBits_continuations hbits
        split at h
        · exact absurd rfl h
        · rename_i codepoint hcontinue
          simp only at h ⊢
          split at h
          · exact absurd rfl h
          · rename_i hvalid
            rw [if_neg hvalid]
            refine ⟨codepoint, rfl, ?_, fun hzero => absurd ?_ hvalid⟩
            · grind
            · grind

inductive Decodes : List UInt8 → Prop
  | nil : Decodes []
  | cons {bytes : List UInt8} (hbytes : bytes ≠ []) (hdecode : (decodeUtf8 bytes).1 ≠ kDecodeError)
      (hrest : Decodes (bytes.drop (decodeUtf8 bytes).2)) : Decodes bytes

theorem Decodes.first (h : Decodes bytes) (hne : bytes ≠ []) :
    (decodeUtf8 bytes).1 ≠ kDecodeError ∧ Decodes (bytes.drop (decodeUtf8 bytes).2) := by
  cases h with
  | nil => exact absurd rfl hne
  | cons _ hdecode hrest => exact ⟨hdecode, hrest⟩

/-! ## The invariant -/

namespace Lexer

variable {lexer : Lexer}

/-- The included ranges start where a codepoint does. -/
def Aligned (lexer : Lexer) : Prop :=
  ∀ range ∈ lexer.includedRanges, Decodes (lexer.text.drop range.startByte)

/-- The lexer holds the next codepoint, or stands at the end of the text. -/
structure Reads (lexer : Lexer) : Prop where
  aligned : lexer.Aligned
  index_le : lexer.currentIncludedRangeIndex ≤ lexer.includedRanges.length
  eof : lexer.atEof = true → lexer.lookahead = 0
  rest_ne : lexer.atEof = false → lexer.rest ≠ []
  read : lexer.atEof = false → decodeUtf8 lexer.rest = (lexer.lookahead, lexer.lookaheadSize)
  decodes : lexer.atEof = false → Decodes lexer.rest

theorem atEof_iff :
    lexer.atEof = true ↔ lexer.currentIncludedRangeIndex = lexer.includedRanges.length := by
  simp [atEof]

namespace Reads

theorem lookahead_eq (h : lexer.Reads) :
    ∃ c : Nat, lexer.lookahead = c ∧ c ≤ 0x10FFFF ∧ (lexer.atEof = true → c = 0) ∧
      (lexer.atEof = false → c = 0 → 0 ∈ lexer.text) := by
  cases heof : lexer.atEof with
  | true => exact ⟨0, h.eof heof, by decide, fun _ => rfl, fun h => absurd h.symm Bool.false_ne_true⟩
  | false =>
      have hfirst := (h.decodes heof).first (h.rest_ne heof)
      obtain ⟨c, hc, hle, hzero⟩ := decodeUtf8_codepoint hfirst.1
      rw [h.read heof] at hc
      exact ⟨c, hc, hle, fun h => absurd h Bool.false_ne_true,
        fun _ h => List.mem_of_mem_drop (hzero h)⟩

end Reads

/-! ## What stays -/

@[simp] theorem getLookahead_text : lexer.getLookahead.text = lexer.text := by
  unfold getLookahead
  split <;> rfl

@[simp] theorem getLookahead_includedRanges :
    lexer.getLookahead.includedRanges = lexer.includedRanges := by
  unfold getLookahead
  split <;> rfl

/-- A lexer that has moved. -/
def moved (lexer : Lexer) (skip : Bool) : Lexer :=
  let left :=
    leaveRanges lexer.stepOver (lexer.includedRanges.drop lexer.currentIncludedRangeIndex)
  { lexer with
    currentPosition := left.2
    currentIncludedRangeIndex := lexer.currentIncludedRangeIndex + left.1
    tokenStartPosition := if skip then left.2 else lexer.tokenStartPosition }

theorem doAdvance_eq :
    lexer.doAdvance skip =
      if (lexer.moved skip).atEof then { lexer.moved skip with lookahead := 0, lookaheadSize := 1 }
      else (lexer.moved skip).getLookahead := rfl

@[simp] theorem doAdvance_text : (lexer.doAdvance skip).text = lexer.text := by
  rw [doAdvance_eq]
  split
  · rfl
  · rw [getLookahead_text]
    rfl

@[simp] theorem doAdvance_includedRanges :
    (lexer.doAdvance skip).includedRanges = lexer.includedRanges := by
  rw [doAdvance_eq]
  split
  · rfl
  · rw [getLookahead_includedRanges]
    rfl

@[simp] theorem advance_text : (lexer.advance skip).text = lexer.text := by
  unfold advance
  split <;> simp

@[simp] theorem advance_includedRanges :
    (lexer.advance skip).includedRanges = lexer.includedRanges := by
  unfold advance
  split <;> simp

/-! ## What keeps the invariant -/

theorem getLookahead_reads (haligned : lexer.Aligned)
    (hindex : lexer.currentIncludedRangeIndex < lexer.includedRanges.length)
    (hdecodes : Decodes lexer.rest) : lexer.getLookahead.Reads := by
  have haligned' : lexer.getLookahead.Aligned := by
    unfold Aligned
    rw [getLookahead_text, getLookahead_includedRanges]
    exact haligned
  unfold getLookahead at haligned' ⊢
  split at haligned'
  · rename_i hempty
    rw [if_pos hempty]
    have heof : ({ lexer with
        currentIncludedRangeIndex := lexer.includedRanges.length
        lookaheadSize := 1
        lookahead := 0 } : Lexer).atEof = true := by simp [atEof]
    have hno : ∀ {p : Prop}, true = false → p := fun h => absurd h.symm Bool.false_ne_true
    exact ⟨haligned', Nat.le_refl _, fun _ => rfl, fun h => hno (heof ▸ h),
      fun h => hno (heof ▸ h), fun h => hno (heof ▸ h)⟩
  · rename_i hrest
    rw [if_neg hrest]
    refine ⟨haligned', Nat.le_of_lt hindex, fun h => ?_, fun _ h => hrest ?_, fun _ => rfl,
      fun _ => hdecodes⟩
    · exact absurd (atEof_iff.1 h) (Nat.ne_of_lt hindex)
    · exact List.isEmpty_iff.2 h

theorem leaveRanges_spec {P : Length → Prop} (hposition : P position)
    (hstarts : ∀ range ∈ ranges, P range.startPosition) :
    (leaveRanges position ranges).1 ≤ ranges.length ∧ P (leaveRanges position ranges).2 := by
  induction ranges generalizing position with
  | nil => exact ⟨Nat.le_refl 0, hposition⟩
  | cons range ranges ih =>
      unfold leaveRanges
      split
      · have hnext : P ((ranges.head?.map (·.startPosition)).getD position) := by
          cases ranges with
          | nil => exact hposition
          | cons next ranges => exact hstarts next (List.mem_cons_of_mem _ List.mem_cons_self)
        obtain ⟨hle, hP⟩ := ih hnext fun r hr => hstarts r (List.mem_cons_of_mem _ hr)
        exact ⟨Nat.succ_le_succ hle, hP⟩
      · exact ⟨Nat.zero_le _, hposition⟩

theorem Reads.stepOver_bytes (h : lexer.Reads) (heof : lexer.atEof = false) :
    lexer.stepOver.bytes = lexer.currentPosition.bytes + lexer.lookaheadSize ∧
      0 < lexer.lookaheadSize := by
  have hpos := decodeUtf8_size_pos lexer.rest
  rw [h.read heof] at hpos
  unfold stepOver
  rw [if_pos (Nat.pos_iff_ne_zero.1 hpos)]
  exact ⟨rfl, hpos⟩

theorem Reads.moved_decodes (skip : Bool) (h : lexer.Reads) (heof : lexer.atEof = false) :
    (lexer.moved skip).currentIncludedRangeIndex ≤ lexer.includedRanges.length ∧
      Decodes (lexer.moved skip).rest := by
  have hstep : Decodes (lexer.text.drop lexer.stepOver.bytes) := by
    have hrest := ((h.decodes heof).first (h.rest_ne heof)).2
    rw [h.read heof, rest, List.drop_drop] at hrest
    rw [(h.stepOver_bytes heof).1]
    exact hrest
  have hstarts : ∀ range ∈ lexer.includedRanges.drop lexer.currentIncludedRangeIndex,
      Decodes (lexer.text.drop range.startPosition.bytes) :=
    fun range hrange => h.aligned range (List.mem_of_mem_drop hrange)
  obtain ⟨hle, hdecodes⟩ :=
    leaveRanges_spec (P := fun p => Decodes (lexer.text.drop p.bytes)) hstep hstarts
  rw [List.length_drop] at hle
  have hindex := h.index_le
  refine ⟨?_, hdecodes⟩
  simp only [moved]
  omega

theorem Reads.advance (h : lexer.Reads) : (lexer.advance skip).Reads := by
  unfold Lexer.advance
  split
  · exact h
  · rename_i heof
    obtain ⟨hindex, hdecodes⟩ := h.moved_decodes skip (Bool.eq_false_iff.2 heof)
    rw [doAdvance_eq]
    split
    · rename_i heof'
      have hno : ∀ {p : Prop}, (lexer.moved skip).atEof = false → p :=
        fun hfalse => absurd (heof'.symm.trans hfalse).symm Bool.false_ne_true
      exact ⟨h.aligned, hindex, fun _ => rfl, hno, hno, hno⟩
    · rename_i heof'
      have hne : (lexer.moved skip).currentIncludedRangeIndex ≠ lexer.includedRanges.length :=
        fun heq => heof' (atEof_iff.2 heq)
      exact getLookahead_reads h.aligned (Nat.lt_of_le_of_ne hindex hne) hdecodes

theorem start_of_ready (haligned : lexer.Aligned)
    (hready : lexer.atEof = true ∧ lexer.lookahead = 0 ∨
      lexer.lookaheadSize = 0 ∧
        lexer.currentIncludedRangeIndex < lexer.includedRanges.length ∧ Decodes lexer.rest) :
    lexer.start.Reads := by
  have hbegin : lexer.beginToken.atEof = lexer.atEof := rfl
  unfold start
  simp only [hbegin]
  rcases hready with ⟨heof, hzero⟩ | ⟨hsize, hindex, hdecodes⟩
  · rw [if_pos heof]
    have hno : ∀ {p : Prop}, lexer.atEof = false → p :=
      fun hfalse => absurd (heof.symm.trans hfalse).symm Bool.false_ne_true
    exact ⟨haligned, Nat.le_of_eq (atEof_iff.1 heof), fun _ => hzero, hno, hno, hno⟩
  · have heof : ¬lexer.atEof = true := fun h => Nat.ne_of_lt hindex (atEof_iff.1 h)
    have hsize' : lexer.beginToken.lookaheadSize = 0 := hsize
    have hreads : lexer.beginToken.getLookahead.Reads :=
      getLookahead_reads haligned hindex hdecodes
    rw [if_neg heof, if_pos hsize']
    split
    · exact hreads.advance
    · exact hreads

theorem start_reads (haligned : lexer.Aligned)
    (hposition : Decodes (lexer.text.drop position.bytes)) :
    (lexer.goto position).start.Reads := by
  unfold goto
  cases hfind : findIncludedRange position lexer.includedRanges with
  | none => exact start_of_ready haligned (Or.inl ⟨by simp [atEof], rfl⟩)
  | some i =>
      have hi : i < lexer.includedRanges.length := (List.findIdx?_eq_some_iff_getElem.1 hfind).1
      refine start_of_ready haligned (Or.inr ⟨rfl, hi, ?_⟩)
      simp only [rest]
      split
      · rw [List.getD_eq_getElem?_getD, List.getElem?_eq_getElem hi, Option.getD_some]
        exact haligned _ (List.getElem_mem hi)
      · exact hposition

theorem start_text : (lexer.goto position).start.text = lexer.text := by
  have hgoto : (lexer.goto position).beginToken.text = lexer.text := by
    unfold goto
    split <;> rfl
  unfold start
  simp only
  generalize (lexer.goto position).beginToken = fresh at hgoto ⊢
  have hlook : (if fresh.lookaheadSize = 0 then fresh.getLookahead else fresh).text = lexer.text := by
    split
    · rw [getLookahead_text, hgoto]
    · exact hgoto
  generalize (if fresh.lookaheadSize = 0 then fresh.getLookahead else fresh) = ready at hlook ⊢
  split
  · exact hgoto
  · split
    · rw [advance_text, hlook]
    · exact hlook

/-! ## Accepted tokens -/

theorem recordAccept_eq (lexer : Lexer) (accept : Option Nat) :
    ∃ stop symbol, lexer.recordAccept accept =
      { lexer with tokenEndPosition := stop, resultSymbol := symbol } := by
  unfold recordAccept
  cases accept with
  | none => exact ⟨_, _, rfl⟩
  | some symbol =>
      unfold markEnd
      simp only
      split <;> exact ⟨_, _, rfl⟩

@[simp] theorem recordAccept_text (accept : Option Nat) :
    (lexer.recordAccept accept).text = lexer.text := by
  obtain ⟨stop, symbol, heq⟩ := lexer.recordAccept_eq accept
  rw [heq]

@[simp] theorem recordAccept_lookahead (accept : Option Nat) :
    (lexer.recordAccept accept).lookahead = lexer.lookahead := by
  obtain ⟨stop, symbol, heq⟩ := lexer.recordAccept_eq accept
  rw [heq]

@[simp] theorem recordAccept_atEof (accept : Option Nat) :
    (lexer.recordAccept accept).atEof = lexer.atEof := by
  obtain ⟨stop, symbol, heq⟩ := lexer.recordAccept_eq accept
  rw [heq]
  rfl

theorem Reads.recordAccept (h : lexer.Reads) (accept : Option Nat) :
    (lexer.recordAccept accept).Reads := by
  obtain ⟨stop, symbol, heq⟩ := lexer.recordAccept_eq accept
  rw [heq]
  exact ⟨h.aligned, h.index_le, h.eof, h.rest_ne, h.read, h.decodes⟩

/-! ## What is left to read -/

def remaining (lexer : Lexer) : Nat :=
  (lexer.includedRanges.length - lexer.currentIncludedRangeIndex) * (lexer.text.length + 1) +
    (lexer.text.length - lexer.currentPosition.bytes)

theorem remaining_lt {before after : Lexer} (htext : after.text = before.text)
    (hranges : after.includedRanges = before.includedRanges)
    (hindex : before.currentIncludedRangeIndex < before.includedRanges.length)
    (h : before.currentIncludedRangeIndex < after.currentIncludedRangeIndex ∨
      after.currentIncludedRangeIndex = before.currentIncludedRangeIndex ∧
        before.currentPosition.bytes < after.currentPosition.bytes ∧
          before.currentPosition.bytes < before.text.length) :
    after.remaining < before.remaining := by
  unfold remaining
  rw [htext, hranges]
  generalize before.includedRanges.length = ranges at hindex ⊢
  rcases h with hmore | ⟨hsame, hforward, hinside⟩
  · have hfewer : ranges - after.currentIncludedRangeIndex + 1 ≤
        ranges - before.currentIncludedRangeIndex := by omega
    have hmul := Nat.mul_le_mul_right (before.text.length + 1) hfewer
    rw [Nat.add_mul, Nat.one_mul] at hmul
    omega
  · rw [hsame]
    omega

theorem leaveRanges_none (h : (leaveRanges position ranges).1 = 0) :
    (leaveRanges position ranges).2 = position := by
  cases ranges with
  | nil => rfl
  | cons range ranges =>
      unfold leaveRanges at h ⊢
      split at h
      · cases h
      · rename_i hstay
        rw [if_neg hstay]

theorem rest_pos (h : lexer.rest ≠ []) : lexer.currentPosition.bytes < lexer.text.length := by
  refine Nat.lt_of_not_le fun hle => h ?_
  exact List.drop_eq_nil_of_le hle

@[simp] theorem remaining_recordAccept (accept : Option Nat) :
    (lexer.recordAccept accept).remaining = lexer.remaining := by
  obtain ⟨stop, symbol, heq⟩ := lexer.recordAccept_eq accept
  rw [heq]
  rfl

theorem Reads.remaining_advance (h : lexer.Reads) (skip : Bool) (heof : lexer.atEof = false) :
    (lexer.advance skip).remaining < lexer.remaining := by
  have hindex : lexer.currentIncludedRangeIndex < lexer.includedRanges.length := by
    refine Nat.lt_of_le_of_ne h.index_le fun heq => ?_
    exact absurd ((atEof_iff.2 heq).symm.trans heof).symm Bool.false_ne_true
  have hinside := rest_pos (h.rest_ne heof)
  obtain ⟨hstep, hsize⟩ := h.stepOver_bytes heof
  refine remaining_lt advance_text advance_includedRanges hindex ?_
  unfold Lexer.advance
  rw [heof, if_neg Bool.false_ne_true, doAdvance_eq]
  have hmoved : lexer.currentIncludedRangeIndex < (lexer.moved skip).currentIncludedRangeIndex ∨
      (lexer.moved skip).currentIncludedRangeIndex = lexer.currentIncludedRangeIndex ∧
        lexer.currentPosition.bytes < (lexer.moved skip).currentPosition.bytes := by
    simp only [moved]
    generalize lexer.includedRanges.drop lexer.currentIncludedRangeIndex = ranges
    rcases Nat.eq_zero_or_pos (leaveRanges lexer.stepOver ranges).1 with hzero | hpos
    · rw [leaveRanges_none hzero, hzero, hstep]
      omega
    · omega
  split
  · rename_i hend
    have hlast := atEof_iff.1 hend
    exact Or.inl (hlast ▸ hindex)
  · unfold getLookahead
    split
    · exact Or.inl hindex
    · exact hmoved.imp_right fun hsame => ⟨hsame.1, hsame.2, hinside⟩

end Lexer

end Ned.Editor.Parse
