import Ned.Library.Alignment
import Ned.Text.Lemmas.LineDiff
import Ned.Text.Lemmas.Lines
import Ned.Text.MergeAlignment

/-!
# The sides of a merge

Conflict hunks cut a text at line starts. So a side is blocks of lines beside blocks of the merged text,
and it stays so when its own text is compared with the one from the markers.
-/

namespace Ned.Text

open Ned.Library

variable {text x y : Bytes} {pos start : Nat}

/-! ## Cuts between lines -/

def EndsLine (text : Bytes) : Prop := text = [] ∨ text.getLast? = some newline

theorem splitLines_ne_nil (h : text ≠ []) : splitLines text ≠ [] := by
  intro hlines
  have hflat := flatten_splitLines text
  rw [hlines] at hflat
  exact h hflat.symm

theorem EndsLine.tail {c : UInt8} (h : EndsLine (c :: text)) : EndsLine text := by
  cases text with
  | nil => exact .inl rfl
  | cons d text => exact .inr (by simpa [EndsLine] using h)

theorem splitLines_append (h : EndsLine x) (y : Bytes) :
    splitLines (x ++ y) = splitLines x ++ splitLines y := by
  induction x with
  | nil => rfl
  | cons c x ih =>
      have hrest := ih h.tail
      by_cases hc : c = newline
      · rw [hc, List.cons_append, splitLines_cons_newline, splitLines_cons_newline, hrest]
        rfl
      · cases x with
        | nil => simp [EndsLine, hc] at h
        | cons d x =>
            cases hlines : splitLines (d :: x) with
            | nil => exact absurd hlines (splitLines_ne_nil (List.cons_ne_nil _ _))
            | cons line lines =>
                rw [hlines] at hrest
                rw [List.cons_append, splitLines_cons_of_ne hc hrest, splitLines_cons_of_ne hc hlines]
                rfl

theorem EndsLine.append (hx : EndsLine x) (hy : EndsLine y) : EndsLine (x ++ y) := by
  rcases hy with rfl | hy
  · rwa [List.append_nil]
  · exact .inr (by rw [List.getLast?_append, hy]; rfl)

theorem length_splitLines (text : Bytes) : (splitLines text).length =
    countNewlines text + if text ≠ [] ∧ text.getLast? ≠ some newline then 1 else 0 := by
  induction text with
  | nil => rfl
  | cons c text ih =>
      by_cases hc : c = newline
      · rw [hc, splitLines_cons_newline, List.length_cons, ih]
        cases text with
        | nil => rfl
        | cons d text => simp [countNewlines, isNewline]; omega
      · have hnewline : isNewline c = false := by simp [isNewline, hc]
        cases text with
        | nil => simp [splitLines, countNewlines, hnewline, hc]
        | cons d text =>
            cases hlines : splitLines (d :: text) with
            | nil => exact absurd hlines (splitLines_ne_nil (List.cons_ne_nil _ _))
            | cons line lines =>
                rw [hlines] at ih
                rw [splitLines_cons_of_ne hc hlines]
                simpa [countNewlines, hnewline] using ih

theorem linesBefore_eq (h : pos ≤ text.length) :
    linesBefore text pos = (splitLines (text.take pos)).length := by
  rw [linesBefore, length_splitLines]
  cases pos with
  | zero => simp
  | succ pos =>
      have hlast : (text.take (pos + 1)).getLast? = text[pos]? := by
        rw [List.getLast?_take, if_neg (Nat.succ_ne_zero _), Nat.add_sub_cancel,
          List.getElem?_eq_getElem h]
        rfl
      have hne : text.take (pos + 1) ≠ [] := by
        intro hnil
        have := congrArg List.length hnil
        rw [List.length_take_of_le h] at this
        exact absurd this (Nat.succ_ne_zero _)
      rw [hlast]
      simp [hne]

namespace ConflictHunk

theorem endsLine_take (h : isLineStart text pos = true) (hle : pos ≤ text.length) :
    EndsLine (text.take pos) := by
  cases pos with
  | zero => exact .inl rfl
  | succ pos =>
      right
      simp only [isLineStart, Nat.add_sub_cancel, Bool.or_eq_true, beq_iff_eq, Nat.succ_ne_zero,
        false_or] at h
      rw [List.getLast?_take, if_neg (Nat.succ_ne_zero _), Nat.add_sub_cancel, h]
      rfl

theorem endsLine_substr (h : isLineStart text pos = true) (hle : pos ≤ text.length) :
    EndsLine (substr text start (pos - start)) := by
  by_cases hlt : start < pos
  · have htake := endsLine_take h hle
    have hsplit : text.take pos = text.take start ++ substr text start (pos - start) := by
      conv_lhs => rw [show pos = start + (pos - start) by omega, List.take_add]
      rfl
    have hne : substr text start (pos - start) ≠ [] := by
      intro hnil
      have := congrArg List.length hnil
      simp only [substr, List.length_take, List.length_drop, List.length_nil] at this
      omega
    right
    rcases htake with hnil | hlast
    · rw [hsplit] at hnil
      exact absurd (List.append_eq_nil_iff.1 hnil).2 hne
    · rw [hsplit, List.getLast?_append] at hlast
      cases hcase : (substr text start (pos - start)).getLast? with
      | none => exact absurd (List.getLast?_eq_none_iff.1 hcase) hne
      | some c =>
          rw [hcase] at hlast
          exact hlast
  · left
    rw [Nat.sub_eq_zero_of_le (Nat.le_of_not_lt hlt)]
    simp [substr]

theorem findPosition_spec {test : Nat → Bool} (h : findPosition text start test = some pos) :
    start ≤ pos ∧ pos < text.length ∧ test pos = true := by
  have hmem := List.mem_of_find?_eq_some h
  have htest := List.find?_some h
  rw [List.mem_range'_1] at hmem
  exact ⟨hmem.1, by omega, htest⟩

theorem lineEndAfter_spec (h : pos < text.length) : pos < lineEndAfter text pos ∧
    lineEndAfter text pos ≤ text.length ∧
      (isLineStart text (lineEndAfter text pos) = true ∨ lineEndAfter text pos = text.length) := by
  rw [lineEndAfter]
  split
  · exact ⟨h, Nat.le_refl _, .inr rfl⟩
  · rename_i newline hfound
    obtain ⟨hge, hlt, htest⟩ := findPosition_spec hfound
    exact ⟨Nat.lt_succ_of_le hge, hlt, .inl (by simpa [isLineStart] using htest)⟩

theorem isLineStart_of_labeled {marker : Bytes} (h : isLabeledMarker text marker pos = true) :
    isLineStart text pos = true := by
  simp only [isLabeledMarker, Bool.and_eq_true] at h
  exact h.1.1

/-- A hunk of whole lines, each section up to the start of a line. -/
structure Placed (text : Bytes) (hunk : ConflictHunk) : Prop where
  starts : isLineStart text hunk.startByte = true
  order : hunk.startByte < hunk.endByte
  within : hunk.endByte ≤ text.length
  ends : isLineStart text hunk.endByte = true ∨ hunk.endByte = text.length
  sections : ∀ kind range, hunk.sectionOf kind = some range →
    isLineStart text range.stop = true ∧ range.stop ≤ text.length

/-- Hunks from an offset on, in order. -/
inductive PlacedFrom (text : Bytes) : Nat → List ConflictHunk → Prop
  | nil {pos : Nat} : PlacedFrom text pos []
  | cons {pos : Nat} {hunk : ConflictHunk} {hunks : List ConflictHunk} (hpos : pos ≤ hunk.startByte)
      (hunk_placed : hunk.Placed text) (rest : PlacedFrom text hunk.endByte hunks) :
      PlacedFrom text pos (hunk :: hunks)

theorem PlacedFrom.mono {hunks : List ConflictHunk} (h : PlacedFrom text pos hunks) (hle : start ≤ pos) :
    PlacedFrom text start hunks := by
  cases h with
  | nil => exact .nil
  | cons hpos hplaced hrest => exact .cons (Nat.le_trans hle hpos) hplaced hrest

theorem parseHunkAt_placed {hunk : ConflictHunk} (hlt : pos < text.length)
    (hstart : isLineStart text pos = true) (h : parseHunkAt text pos = some hunk) :
    hunk.startByte = pos ∧ hunk.Placed text := by
  have hours := lineEndAfter_spec hlt
  simp only [parseHunkAt, Option.bind_eq_bind, Option.bind_eq_some_iff] at h
  obtain ⟨sepMarker, hsep, h⟩ := h
  split at h
  · cases h
  · obtain ⟨endMarker, hend, h⟩ := Option.bind_eq_some_iff.1 h
    split at h
    · cases h
    · obtain ⟨hsepGe, hsepLt, hsepTest⟩ := findPosition_spec hsep
      obtain ⟨hendGe, hendLt, hendTest⟩ := findPosition_spec hend
      have hafter := lineEndAfter_spec hsepLt
      have hclose := lineEndAfter_spec hendLt
      have hsepStart : isLineStart text sepMarker = true := by
        simp only [isSeparator, Bool.and_eq_true] at hsepTest
        exact hsepTest.1.1
      have hendStart := isLineStart_of_labeled hendTest
      cases h
      refine ⟨rfl, hstart, by simp only; omega, hclose.2.1, hclose.2.2, ?_⟩
      intro kind range hsection
      cases kind with
      | ours =>
          cases hsection
          simp only
          cases hbase : (findLabeledMarker text (lineEndAfter text pos) baseOpening).filter
            fun pos => decide (pos ≤ sepMarker) with
          | none => exact ⟨hsepStart, Nat.le_of_lt hsepLt⟩
          | some base =>
              have hfound := findPosition_spec (Option.filter_eq_some_iff.1 hbase).1
              exact ⟨isLineStart_of_labeled hfound.2.2, Nat.le_of_lt hfound.2.1⟩
      | base =>
          obtain ⟨base, -, rfl⟩ := Option.map_eq_some_iff.1 hsection
          exact ⟨hsepStart, Nat.le_of_lt hsepLt⟩
      | theirs =>
          cases hsection
          exact ⟨hendStart, Nat.le_of_lt hendLt⟩

theorem parseFrom_placed {fuel : Nat} (hpos : pos ≤ text.length) (h : text.length < fuel + pos) :
    ∃ hunks, parseFrom text fuel pos = some hunks ∧ PlacedFrom text pos hunks := by
  induction fuel generalizing pos with
  | zero => omega
  | succ fuel ih =>
      rw [parseFrom]
      split
      · split
        · exact ⟨[], rfl, .nil⟩
        · rename_i hlt startMarker hfound
          obtain ⟨hge, hmarker, htest⟩ := findPosition_spec hfound
          have hnext := lineEndAfter_spec hmarker
          split
          · obtain ⟨hunks, hparse, hplaced⟩ := @ih (lineEndAfter text startMarker) hnext.2.1 (by omega)
            exact ⟨hunks, hparse, hplaced.mono (by omega)⟩
          · rename_i hunk hhunk
            obtain ⟨rfl, hunk_placed⟩ := parseHunkAt_placed hmarker (isLineStart_of_labeled htest) hhunk
            have horder := hunk_placed.order
            obtain ⟨hunks, hparse, hplaced⟩ := @ih hunk.endByte hunk_placed.within (by omega)
            exact ⟨hunk :: hunks, by rw [hparse]; rfl, .cons hge hunk_placed hplaced⟩
      · exact ⟨[], rfl, .nil⟩

end ConflictHunk

theorem parseConflictHunks_placed (text : Bytes) :
    ∃ hunks, parseConflictHunks text = some hunks ∧ ConflictHunk.PlacedFrom text 0 hunks :=
  ConflictHunk.parseFrom_placed (Nat.zero_le _) (Nat.lt_succ_self _)

/-! ## The side from the markers -/

/-- The chunks of blocks, the first at these lines. -/
def chunksAt : Nat → Nat → List (Block Line) → List AlignedChunk
  | _, _, [] => []
  | m, s, block :: blocks =>
      { mergedLine := m, mergedCount := block.left.length, sideLine := s
        sideCount := block.right.length, changed := block.changed } ::
        chunksAt (m + block.left.length) (s + block.right.length) blocks

theorem chunksAt_append {m s : Nat} {blocks blocks' : List (Block Line)} :
    chunksAt m s (blocks ++ blocks') = chunksAt m s blocks ++
      chunksAt (m + (Block.lefts blocks).length) (s + (Block.rights blocks).length) blocks' := by
  induction blocks generalizing m s with
  | nil => rfl
  | cons block blocks ih =>
      simp only [List.cons_append, chunksAt, ih, Block.lefts_cons, Block.rights_cons, List.length_append,
        Nat.add_assoc]

def keptBlock (lines : List Line) : Block Line :=
  { left := lines, right := lines, changed := false, same := fun _ => rfl }

def changedBlock (left right : List Line) : Block Line :=
  { left := left, right := right, changed := true, same := fun h => by cases h }

theorem toCount_eq {a b : Nat} (h : a ≤ b) : toCount ((b : Int) - a) = some (b - a) := by
  rw [toCount, if_pos (by omega)]
  congr 1
  omega

namespace MarkerScan

/-- What the scan has copied are blocks of lines, and it stands where a line may start. -/
structure Scanned (merged : Bytes) (scan : MarkerScan) (blocks : List (Block Line)) : Prop where
  chunks : scan.side.chunks = chunksAt 0 0 blocks
  mergedLines : splitLines (merged.take scan.copiedTo) = Block.lefts blocks
  sideLines : splitLines scan.side.text = Block.rights blocks
  lineCount : scan.side.lineCount = (Block.rights blocks).length
  mergedLine : scan.mergedLine = (Block.lefts blocks).length
  copied : scan.copiedTo ≤ merged.length
  ends : EndsLine (merged.take scan.copiedTo) ∧ EndsLine scan.side.text ∨ scan.copiedTo = merged.length

variable {merged : Bytes} {scan : MarkerScan} {blocks : List (Block Line)} {stop : Nat}

theorem take_eq {start : Nat} (h : start ≤ stop) :
    merged.take stop = merged.take start ++ substr merged start (stop - start) := by
  conv_lhs => rw [← Nat.add_sub_of_le h, List.take_add]
  rfl

theorem Scanned.lines (h : Scanned merged scan blocks) (hle : scan.copiedTo ≤ stop)
    (hstop : stop ≤ merged.length) : splitLines (merged.take stop) =
      Block.lefts blocks ++ splitLines (substr merged scan.copiedTo (stop - scan.copiedTo)) := by
  rw [take_eq hle, ← h.mergedLines]
  rcases h.ends with h | h
  · exact splitLines_append h.1 _
  · have hempty : substr merged scan.copiedTo (stop - scan.copiedTo) = [] := by
      rw [Nat.sub_eq_zero_of_le (h ▸ hstop)]
      exact List.take_zero
    rw [hempty, List.append_nil]
    exact (List.append_nil _).symm

theorem Scanned.appendUnchanged (h : Scanned merged scan blocks) (hle : scan.copiedTo ≤ stop)
    (hstop : stop ≤ merged.length)
    (hstart : ConflictHunk.isLineStart merged stop = true ∨ stop = merged.length) :
    ∃ scan' blocks', scan.appendUnchanged merged stop = some scan' ∧ Scanned merged scan' blocks' ∧
      scan'.copiedTo = stop := by
  have hlines := h.lines hle hstop
  have hcount : linesBefore merged stop = scan.mergedLine +
      (splitLines (substr merged scan.copiedTo (stop - scan.copiedTo))).length := by
    rw [linesBefore_eq hstop, hlines, List.length_append, h.mergedLine]
  have hside : splitLines (scan.side.text ++ substr merged scan.copiedTo (stop - scan.copiedTo)) =
      Block.rights blocks ++ splitLines (substr merged scan.copiedTo (stop - scan.copiedTo)) := by
    rw [← h.sideLines]
    rcases h.ends with h | h
    · exact splitLines_append h.2 _
    · have hempty : substr merged scan.copiedTo (stop - scan.copiedTo) = [] := by
        rw [Nat.sub_eq_zero_of_le (h ▸ hstop)]
        exact List.take_zero
      rw [hempty, List.append_nil]
      exact (List.append_nil _).symm
  have hends : EndsLine (merged.take stop) ∧
      EndsLine (scan.side.text ++ substr merged scan.copiedTo (stop - scan.copiedTo)) ∨
        stop = merged.length := by
    rcases hstart with hstart | hstart
    · rcases h.ends with h | h
      · exact .inl ⟨ConflictHunk.endsLine_take hstart hstop,
          h.2.append (ConflictHunk.endsLine_substr hstart hstop)⟩
      · exact .inr (Nat.le_antisymm hstop (h ▸ hle))
    · exact .inr hstart
  have hsub := toCount_eq (Nat.le.intro hcount.symm)
  rw [hcount, Nat.add_sub_cancel_left, ← hcount] at hsub
  cases hnew : splitLines (substr merged scan.copiedTo (stop - scan.copiedTo)) with
  | nil =>
      rw [hnew, List.append_nil] at hlines hside
      refine ⟨_, blocks, by simp only [MarkerScan.appendUnchanged, hsub]; rfl, ?_, rfl⟩
      constructor
      · simpa [hnew] using h.chunks
      · exact hlines
      · exact hside
      · simpa [hnew] using h.lineCount
      · simpa [hnew] using h.mergedLine
      · exact hstop
      · exact hends
  | cons line lines =>
      rw [hnew] at hlines hside
      refine ⟨_, blocks ++ [keptBlock (line :: lines)],
        by simp only [MarkerScan.appendUnchanged, hsub]; rfl, ?_, rfl⟩
      constructor
      · simp [hnew, h.chunks, chunksAt_append, chunksAt, keptBlock, h.lineCount, h.mergedLine]
      · rw [hlines, Block.lefts_append]
        simp [keptBlock]
      · rw [hside, Block.rights_append]
        simp [keptBlock]
      · simp [hnew, h.lineCount, Block.rights_append, keptBlock]
      · simp [hnew, h.mergedLine, Block.lefts_append, keptBlock]
      · exact hstop
      · exact hends

theorem Scanned.appendSection {hunk : ConflictHunk} {range : ConflictHunk.Range} {kind : MergeSideKind}
    (h : Scanned merged scan blocks) (hcopied : scan.copiedTo = hunk.startByte)
    (hunk_placed : hunk.Placed merged) (hsection : hunk.sectionOf kind = some range) :
    ∃ scan' blocks', scan.appendSection merged hunk range = some scan' ∧
      Scanned merged scan' blocks' ∧ scan'.copiedTo = hunk.endByte := by
  have horder := hunk_placed.order
  have hwithin := hunk_placed.within
  have hlines := h.lines (hcopied ▸ Nat.le_of_lt horder) hwithin
  have hcount : linesBefore merged hunk.endByte = scan.mergedLine +
      (splitLines (substr merged scan.copiedTo (hunk.endByte - scan.copiedTo))).length := by
    rw [linesBefore_eq hwithin, hlines, List.length_append, h.mergedLine]
  have hsub := toCount_eq (Nat.le.intro hcount.symm)
  rw [hcount, Nat.add_sub_cancel_left, ← hcount] at hsub
  obtain ⟨hstop, hstopLe⟩ := hunk_placed.sections kind range hsection
  have hcontent := @ConflictHunk.endsLine_substr merged range.stop range.start hstop hstopLe
  have hbefore : EndsLine scan.side.text := by
    rcases h.ends with h | h
    · exact h.2
    · omega
  refine ⟨_, blocks ++ [changedBlock
      (splitLines (substr merged scan.copiedTo (hunk.endByte - scan.copiedTo)))
      (splitLines (substr merged range.start (range.stop - range.start)))],
    by simp only [MarkerScan.appendSection, hsub]; rfl, ?_, rfl⟩
  constructor
  · simp [h.chunks, chunksAt_append, chunksAt, changedBlock, h.lineCount, h.mergedLine]
  · rw [hlines, Block.lefts_append]
    simp [changedBlock]
  · rw [splitLines_append hbefore, h.sideLines, Block.rights_append]
    simp [changedBlock]
  · simp [h.lineCount, Block.rights_append, changedBlock]
  · simp [h.mergedLine, Block.lefts_append, changedBlock]
  · exact hwithin
  · rcases hunk_placed.ends with hend | hend
    · exact .inl ⟨ConflictHunk.endsLine_take hend hwithin, hbefore.append hcontent⟩
    · exact .inr hend

end MarkerScan

structure AlignedBy (merged : Bytes) (side : MergeSide) (blocks : List (Block Line)) : Prop where
  chunks : side.chunks = chunksAt 0 0 blocks
  mergedLines : splitLines merged = Block.lefts blocks
  sideLines : splitLines side.text = Block.rights blocks
  lineCount : side.lineCount = (Block.rights blocks).length

theorem MarkerScan.Scanned.appendHunks {merged : Bytes} {kind : MergeSideKind} {hunks : List ConflictHunk}
    {scan : MarkerScan} {blocks : List (Block Line)} (h : MarkerScan.Scanned merged scan blocks)
    (hplaced : ConflictHunk.PlacedFrom merged scan.copiedTo hunks) :
    ∃ result, MarkerScan.appendHunks merged kind hunks scan = some result ∧
      ∀ side, result = some side → ∃ blocks, AlignedBy merged side blocks := by
  induction hunks generalizing scan blocks with
  | nil =>
      obtain ⟨scan', blocks', hscan, h', hcopied⟩ :=
        h.appendUnchanged h.copied (Nat.le_refl _) (.inr rfl)
      refine ⟨some scan'.side, by simp [MarkerScan.appendHunks, hscan], ?_⟩
      intro side hside
      cases hside
      have hlines := h'.mergedLines
      rw [hcopied, List.take_length] at hlines
      exact ⟨blocks', h'.chunks, hlines, h'.sideLines, h'.lineCount⟩
  | cons hunk hunks ih =>
      rw [MarkerScan.appendHunks]
      cases hplaced with
      | cons hpos hunk_placed hrest =>
          cases hsection : hunk.sectionOf kind with
          | none => exact ⟨none, rfl, by simp⟩
          | some range =>
              have hstart := Nat.le_trans (Nat.le_of_lt hunk_placed.order) hunk_placed.within
              obtain ⟨scan₁, blocks₁, hscan₁, h₁, hcopied₁⟩ :=
                h.appendUnchanged hpos hstart (.inl hunk_placed.starts)
              obtain ⟨scan₂, blocks₂, hscan₂, h₂, hcopied₂⟩ :=
                h₁.appendSection hcopied₁ hunk_placed hsection
              rw [← hcopied₂] at hrest
              obtain ⟨result, hresult, hside⟩ := ih h₂ hrest
              exact ⟨result, by simp [hscan₁, hscan₂, hresult], hside⟩

theorem mergeSideFromMarkers_aligned {merged : Bytes} {hunks : List ConflictHunk}
    (hplaced : ConflictHunk.PlacedFrom merged 0 hunks) (kind : MergeSideKind) :
    ∃ result, mergeSideFromMarkers merged hunks kind = some result ∧
      ∀ side, result = some side → ∃ blocks, AlignedBy merged side blocks := by
  have hstart : MarkerScan.Scanned merged { side := { text := [] }, copiedTo := 0, mergedLine := 0 } [] :=
    ⟨rfl, rfl, rfl, rfl, rfl, Nat.zero_le _, .inl ⟨.inl rfl, .inl rfl⟩⟩
  exact hstart.appendHunks hplaced

end Ned.Text
