import Ned.Editor.Lsp.Lemmas.Position
import Ned.Editor.Lsp.Position
import Ned.Library.Replacements
import Ned.Text.Lemmas.Replacing

/-!
# Edits of a server

Resolving never fails, and one edit splices its text in where it resolved to.
-/

namespace Ned.Text.Buffer

variable {p : Platform} {b : Buffer}

/-! ## Edits inside an undo group -/

/-- A writable buffer without excerpts, inside an undo group. -/
structure Grouped (b : Buffer) : Prop where
  writable : b.readOnly = false
  whole : b.excerptRanges = []
  depth_pos : 0 < b.undoGroupDepth

/-- The content is new; the tree and the depth of the group are not. -/
structure Rewritten (b b' : Buffer) (bytes : Bytes) : Prop extends Grouped b' where
  storage : b'.storage = { b.storage with bytes := bytes }
  tree : b'.undoTree = b.undoTree
  depth : b'.undoGroupDepth = b.undoGroupDepth

theorem Rewritten.trans {b' b'' : Buffer} {bytes bytes' : Bytes} (h : Rewritten b b' bytes)
    (h' : Rewritten b' b'' bytes') : Rewritten b b'' bytes' :=
  ⟨h'.toGrouped, h'.storage.trans (by rw [h.storage]), h'.tree.trans h.tree,
    h'.depth.trans h.depth⟩

theorem Grouped.same (h : Grouped b) : Rewritten b b b.storage.bytes := ⟨h, rfl, rfl, rfl⟩

theorem Grouped.record {applied : Buffer} {bytes : Bytes} {offset oldLength newLength : Nat}
    (h : Grouped b)
    (happlied : Applied b applied { b.storage with bytes := bytes } offset oldLength newLength)
    (hwritable : applied.readOnly = false) (hwhole : applied.excerptRanges = []) :
    ∃ b', ((applied.recordOrAmendUndo false).bind fun b => some { b with goalColumn := none }) =
      some b' ∧ Rewritten b b' bytes := by
  have hrecord := recordOrAmendUndo_of_grouped happlied.recording h.depth_pos false
  refine ⟨_, Option.bind_eq_some_iff.2 ⟨_, hrecord, rfl⟩, ⟨?_, ?_, ?_⟩, ?_, ?_, ?_⟩
  · exact hwritable
  · exact hwhole
  · exact h.depth_pos
  · exact happlied.storage
  · rfl
  · rfl

variable (p) in
theorem Grouped.insertAt {byteOffset : Nat} {text : Bytes} (h : Grouped b)
    (ho : byteOffset ≤ b.storage.byteLength)
    (hbuilds : (b.storage.inserted 0 text).isSome) :
    ∃ b', b.insertAt p byteOffset text = some (.ok b') ∧
      Rewritten b b' (Text.insertAt b.storage.bytes byteOffset text) := by
  rw [Buffer.insertAt, whenWritable, if_neg (by simp [h.writable]), insertAtImpl, Nat.min_eq_left ho]
  by_cases hempty : text = []
  · subst hempty
    refine ⟨b, rfl, ?_⟩
    rw [show Text.insertAt b.storage.bytes byteOffset [] = b.storage.bytes by simp [Text.insertAt]]
    exact h.same
  · have hallowed : b.canInsertAtExcerpt byteOffset = true := by
      simp [TrackedPositions.canInsertAtExcerpt, h.whole]
    have hpos : 0 < text.length := List.length_pos_iff.2 hempty
    obtain ⟨b', hb', hrewritten⟩ := h.record (@applied_insert p b
      { b.storage with bytes := Text.insertAt b.storage.bytes byteOffset text } byteOffset text.length)
      ((applyInsert_readOnly _ _).trans h.writable) (by
        rw [applyInsert_toTrackedPositions hpos, TrackedPositions.relocateForInsertion_excerptRanges]
        simp [h.whole])
    refine ⟨b', ?_, hrewritten⟩
    have hins := inserted_of_isSome hbuilds b.storage.bytes byteOffset
    rw [if_neg (mt List.isEmpty_iff.1 hempty), if_neg (by simp [hallowed])]
    exact congrArg (Option.map Except.ok) (Option.bind_eq_some_iff.2 ⟨_, hins, hb'⟩)

variable (p) in
theorem Grouped.deleteRange {byteOffset byteLength : Nat} (h : Grouped b)
    (hend : byteOffset + byteLength ≤ b.storage.byteLength) :
    ∃ b' deleted, b.deleteRange p byteOffset byteLength = some (.ok (b', deleted)) ∧
      Rewritten b b' (eraseAt b.storage.bytes byteOffset byteLength) := by
  have hoffset : byteOffset ≤ b.storage.byteLength := Nat.le_trans (Nat.le_add_right _ _) hend
  rw [Buffer.deleteRange, whenWritable, if_neg (by simp [h.writable])]
  simp only [Nat.min_eq_left hoffset, Nat.min_eq_left (Nat.le_sub_of_add_le' hend)]
  by_cases hempty : byteLength = 0
  · subst hempty
    refine ⟨b, [], rfl, ?_⟩
    rw [show eraseAt b.storage.bytes byteOffset 0 = b.storage.bytes by simp [eraseAt]]
    exact h.same
  · have hallowed : b.canDeleteExcerptRange byteOffset (byteOffset + byteLength) = true := by
      simp [TrackedPositions.canDeleteExcerptRange, h.whole]
    have herased : b.storage.erased byteOffset byteLength =
        { b.storage with bytes := eraseAt b.storage.bytes byteOffset byteLength } := rfl
    obtain ⟨b', hb', hrewritten⟩ := h.record (@applied_delete p b
      (b.storage.erased byteOffset byteLength) byteOffset (byteOffset + byteLength))
      ((applyDelete_readOnly _ _).trans h.writable) (by
        rw [applyDelete_excerptRanges]
        simp [h.whole])
    have herase : b.eraseRange p byteOffset (byteOffset + byteLength) = some b' := by
      rw [eraseRange, if_neg (by simp [hallowed]), Nat.add_sub_cancel_left]
      exact hb'
    refine ⟨b', b.storage.substring byteOffset byteLength, ?_, hrewritten⟩
    have hresult : ((b.eraseRange p byteOffset (byteOffset + byteLength)).bind fun b' =>
        some (b', b.storage.substring byteOffset byteLength)) =
          some (b', b.storage.substring byteOffset byteLength) :=
      Option.bind_eq_some_iff.2 ⟨b', herase, rfl⟩
    rw [if_neg hempty, if_neg (by simp [hallowed])]
    exact congrArg (Option.map Except.ok) hresult

end Ned.Text.Buffer

namespace Ned.Editor.Lsp

open Text Library

/-! ## Resolving -/

theorem lineStart_le_length (text : Bytes) (line : Nat) : lineStart text line ≤ text.length := by
  induction text generalizing line with
  | nil => cases line <;> exact Nat.le_refl _
  | cons c text ih =>
      cases line with
      | zero => exact Nat.zero_le _
      | succ line =>
          rw [lineStart, List.length_cons, Nat.add_comm]
          exact Nat.succ_le_succ (ih _)

theorem positionToByte_total (content : Storage) (position : Position) :
    ∃ o, positionToByte content position = some o ∧ o ≤ content.byteLength := by
  have hline (line : Nat) : content.lineToByteOffset line ≤ content.byteLength :=
    lineStart_le_length _ _
  have hend : lineByteRangeEnd content position.line ≤ content.byteLength := by
    unfold lineByteRangeEnd
    split
    · exact hline _
    · exact Nat.le_refl _
  obtain ⟨stop, hwalk, hstop⟩ := walk_total (storageStride content)
    (fun mark => mark.offset < lineByteRangeEnd content position.line &&
      mark.measure < position.character) ⟨content.lineToByteOffset position.line, 0⟩
    (content.byteLength + 1) content.byteLength (fun mark hmore => by
      have hlt : mark.offset < content.byteLength := by
        simp only [Bool.and_eq_true, decide_eq_true_eq] at hmore
        exact Nat.lt_of_lt_of_le hmore.1 hend
      obtain ⟨d, hd, hpos⟩ := exists_codepointAt content mark.offset
      exact ⟨_, storageStride_eq hd, hpos hlt, (codepointAt_covers hlt hd).fits⟩) (hline _)
    (Nat.lt_succ_of_le (Nat.sub_le _ _))
  refine ⟨stop.offset, ?_, hstop⟩
  rw [positionToByte, hwalk, Option.map_some]

theorem WorkspaceTextEdit.resolve_total (content : Storage) (edit : WorkspaceTextEdit) :
    ∃ resolved, edit.resolve content = some resolved ∧ resolved.startByte ≤ content.byteLength ∧
      resolved.endByte ≤ content.byteLength := by
  obtain ⟨startByte, hstart, hstartByte⟩ := positionToByte_total content edit.start
  obtain ⟨endByte, hend, hendByte⟩ := positionToByte_total content edit.stop
  refine ⟨⟨startByte, endByte, edit.newText⟩, ?_, hstartByte, hendByte⟩
  have hrest : ((positionToByte content edit.stop).bind fun endByte =>
      some (ResolvedEdit.mk startByte endByte edit.newText)) = some ⟨startByte, endByte, edit.newText⟩ :=
    Option.bind_eq_some_iff.2 ⟨endByte, hend, rfl⟩
  exact Option.bind_eq_some_iff.2 ⟨startByte, hstart, hrest⟩

theorem resolve_all (content : Storage) (edits : List WorkspaceTextEdit) :
    ∃ resolved, edits.mapM (WorkspaceTextEdit.resolve content) = some resolved ∧
      ∀ edit ∈ resolved, edit.startByte ≤ content.byteLength ∧ edit.endByte ≤ content.byteLength := by
  induction edits with
  | nil => exact ⟨[], rfl, fun edit hedit => absurd hedit List.not_mem_nil⟩
  | cons edit edits ih =>
      obtain ⟨first, hfirst, hwithin⟩ := edit.resolve_total content
      obtain ⟨rest, hrest, hall⟩ := ih
      refine ⟨first :: rest, ?_, ?_⟩
      · rw [List.mapM_cons, hfirst, hrest]
        rfl
      · intro e he
        rcases List.mem_cons.1 he with rfl | he
        · exact hwithin
        · exact hall e he

/-! ## One edit -/

namespace ResolvedEdit

def replacement (edit : ResolvedEdit) : Replacement UInt8 :=
  { start := edit.startByte, stop := edit.endByte, text := edit.newText }

variable {p : Platform} {b : Buffer} {edit : ResolvedEdit}

theorem byteLength_eq (hordered : edit.startByte ≤ edit.endByte) (hsize : edit.endByte ≤ sizeMax) :
    edit.byteLength = edit.endByte - edit.startByte := by
  rw [byteLength, Nat.sub_add_comm hordered, Nat.add_mod_right, Nat.mod_eq_of_lt]
  exact Nat.lt_succ_of_le (Nat.le_trans (Nat.sub_le _ _) hsize)

theorem relocateAnchor_eq {anchorByte : Nat} (hordered : edit.startByte ≤ edit.endByte)
    (hsize : anchorByte + edit.newText.length ≤ sizeMax) :
    edit.relocateAnchor anchorByte = edit.replacement.relocate anchorByte := by
  rw [relocateAnchor, Replacement.relocate, replacement]
  simp only
  split
  · rename_i hle
    have hlength := byteLength_eq hordered (by omega)
    have hsub : edit.byteLength ≤ anchorByte := hlength ▸ Nat.le_trans (Nat.sub_le _ _) hle
    have hrest : anchorByte - edit.byteLength < sizeMax + 1 := by omega
    have hall : anchorByte - edit.byteLength + edit.newText.length < sizeMax + 1 := by omega
    rw [Nat.sub_add_comm hsub, Nat.add_mod_right, Nat.mod_eq_of_lt hrest, Nat.mod_eq_of_lt hall, hlength]
  · rfl

variable (p) in
theorem apply_eq (h : b.Grouped) (hwithin : edit.replacement.Within b.storage.byteLength)
    (hsize : edit.endByte ≤ sizeMax) (hbuilds : (b.storage.inserted 0 edit.newText).isSome) :
    ∃ b', edit.apply p b = some (.ok b') ∧
      b.Rewritten b' (edit.replacement.splice b.storage.bytes) := by
  obtain ⟨hordered, hend⟩ : edit.startByte ≤ edit.endByte ∧ edit.endByte ≤ b.storage.byteLength :=
    hwithin
  have hlength := byteLength_eq hordered hsize
  have hstop : edit.startByte + edit.byteLength = edit.endByte := by
    rw [hlength, Nat.add_sub_of_le hordered]
  obtain ⟨b₁, deleted, hdelete, hdeleted⟩ := h.deleteRange p (hstop.symm ▸ hend)
  have hstart : edit.startByte ≤ b₁.storage.byteLength := by
    rw [hdeleted.storage, Storage.byteLength, eraseAt, List.length_append,
      List.length_take_of_le (Nat.le_trans hordered hend)]
    exact Nat.le_add_right _ _
  have hbuilds₁ : (b₁.storage.inserted 0 edit.newText).isSome := by
    rw [hdeleted.storage, Buffer.inserted_of_isSome hbuilds]
    rfl
  obtain ⟨b₂, hinsert, hinserted⟩ := hdeleted.toGrouped.insertAt p hstart hbuilds₁
  refine ⟨b₂, ?_, ?_⟩
  · rw [apply, hdelete]
    exact hinsert
  · have hbytes : Text.insertAt b₁.storage.bytes edit.startByte edit.newText =
        edit.replacement.splice b.storage.bytes := by
      have htake : (b.storage.bytes.take edit.startByte).length = edit.startByte :=
        List.length_take_of_le (Nat.le_trans hordered hend)
      rw [hdeleted.storage, eraseAt, Text.insertAt, Replacement.splice, hstop,
        List.take_left' htake, List.drop_left' htake]
      rfl
    exact hbytes ▸ hdeleted.trans hinserted

end ResolvedEdit

/-!
## Applying edits at once

Edits that do not overlap come to what replacing all ranges at once does, as long as no two that do
something start at the same byte. Where two do, the sort decides which of them goes into the other's
text.
-/

open Replacement

/-- A writable buffer without excerpts, with a current state to record the next one under. -/
structure Editable (b : Buffer) : Prop where
  writable : b.readOnly = false
  whole : b.excerptRanges = []
  recorded : b.undoTree.currentNode.isSome

abbrev replacements (resolved : List ResolvedEdit) : List (Replacement UInt8) :=
  resolved.map ResolvedEdit.replacement

/-- Edits as the protocol allows them, with texts the storage takes, and sizes that fit. -/
structure Acceptable (content : Storage) (resolved : List ResolvedEdit) : Prop where
  apart : Apart (replacements resolved)
  builds : ∀ edit ∈ resolved, (content.inserted 0 edit.newText).isSome
  size : content.byteLength + (resolved.map fun edit => edit.newText.length).sum ≤ sizeMax

/-- The content is the one with every range replaced at once, and the anchor where that takes it. -/
def AppliesAtOnce (p : Platform) (b : Buffer) (edits : List WorkspaceTextEdit)
    (resolved : List ResolvedEdit) (anchorByte : Nat) : Prop :=
  ∃ b' landing, applyWorkspaceTextEditsAndRelocate p b edits anchorByte = some (.ok (b', landing)) ∧
    AtOnce (replacements resolved) b.storage.bytes b'.storage.bytes ∧
    Lands (replacements resolved) anchorByte landing

variable {p : Platform} {b : Buffer} {edits : List WorkspaceTextEdit}
  {resolved sorted : List ResolvedEdit} {anchorByte : Nat}

/-! ## The loop -/

variable (p) in
/-- One by one, in an order in which that can be done. -/
theorem applyResolved_eq (h : b.Grouped) (hdescends : Descends (replacements sorted))
    (hwithin : ∀ r ∈ replacements sorted, r.Within b.storage.byteLength)
    (hbuilds : ∀ edit ∈ sorted, (b.storage.inserted 0 edit.newText).isSome)
    (hsize : b.storage.byteLength + (sorted.map fun edit => edit.newText.length).sum ≤ sizeMax)
    (hanchor : anchorByte + (sorted.map fun edit => edit.newText.length).sum ≤ sizeMax) :
    ∃ b', applyResolved p sorted b anchorByte =
        some (.ok (b', (replacements sorted).foldl relocate anchorByte)) ∧
      b.Rewritten b' ((replacements sorted).foldl splice b.storage.bytes) := by
  induction sorted generalizing b anchorByte with
  | nil => exact ⟨b, rfl, h.same⟩
  | cons edit sorted ih =>
      obtain ⟨-, hrest⟩ := List.pairwise_cons.1 hdescends
      have hedit := hwithin edit.replacement List.mem_cons_self
      rw [List.map_cons, List.sum_cons] at hsize hanchor
      obtain ⟨b₁, happly, hedited⟩ := ResolvedEdit.apply_eq p h hedit
        (Nat.le_trans hedit.2 (Nat.le_trans (Nat.le_add_right _ _) hsize))
        (hbuilds edit List.mem_cons_self)
      have hlength : b₁.storage.byteLength = (edit.replacement.splice b.storage.bytes).length := by
        rw [hedited.storage]
        rfl
      have hmoved : edit.relocateAnchor anchorByte = edit.replacement.relocate anchorByte :=
        ResolvedEdit.relocateAnchor_eq hedit.1
          (Nat.le_trans (Nat.add_le_add_left (Nat.le_add_right _ _) _) hanchor)
      have hwithin₁ : ∀ r ∈ replacements sorted, r.Within b₁.storage.byteLength := by
        rw [hlength]
        exact hdescends.within hwithin
      have hbuilds₁ : ∀ e ∈ sorted, (b₁.storage.inserted 0 e.newText).isSome := by
        intro e he
        rw [hedited.storage, Buffer.inserted_of_isSome (hbuilds e (List.mem_cons_of_mem _ he))]
        rfl
      have hgrown : (edit.replacement.splice b.storage.bytes).length ≤
          b.storage.byteLength + edit.newText.length := length_splice_le hedit
      have hsize₁ : b₁.storage.byteLength + (sorted.map fun edit => edit.newText.length).sum ≤
          sizeMax := by
        rw [hlength]
        omega
      have hfurther : edit.replacement.relocate anchorByte ≤ anchorByte + edit.newText.length :=
        relocate_le
      have hanchor₁ : edit.replacement.relocate anchorByte +
          (sorted.map fun edit => edit.newText.length).sum ≤ sizeMax := by omega
      obtain ⟨b', hb', hrewritten⟩ := ih hedited.toGrouped hrest hwithin₁ hbuilds₁ hsize₁ hanchor₁
      refine ⟨b', ?_, ?_⟩
      · rw [applyResolved, happly, hmoved]
        exact hb'
      · have hall := hedited.trans hrewritten
        rw [hedited.storage] at hall
        exact hall

/-! ## The theorem -/

theorem sortDescending_perm (content : Storage) :
    (replacements (sortDescending p content resolved)).Perm (replacements resolved) :=
  (p.keySort.perm _ _).map _

theorem sortDescending_pairwise {content : Storage}
    (hwithin : ∀ edit ∈ resolved, edit.startByte ≤ content.byteLength) :
    (replacements (sortDescending p content resolved)).Pairwise fun r s => s.start ≤ r.start := by
  refine List.pairwise_map.2 ((p.keySort.sorted _ _).imp_of_mem fun {e f} he hf hle => ?_)
  have he := hwithin e ((p.keySort.mem_sort _).1 he)
  have hf := hwithin f ((p.keySort.mem_sort _).1 hf)
  simp only [ResolvedEdit.replacement]
  omega

end Ned.Editor.Lsp
