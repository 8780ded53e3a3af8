import Ned.Library.Runs
import Ned.Text.Lemmas.PieceTable
import Ned.Text.Lemmas.Rope
import Ned.Text.PieceTable
import Ned.Text.Storage

/-!
# Versions

Scripts of edits over a growing list of versions. An edit names the version it starts from, so that
any earlier version may be edited again.
-/

namespace Ned.Text

open Ned.Library

inductive StorageEdit where
  | inserted (version byteOffset : Nat) (text : Bytes)
  | erased (version byteOffset byteLength : Nat)
  deriving DecidableEq

/-! ## Versions of a text, of a rope and of a piece table -/

def textStep (versions : List Bytes) : StorageEdit → Option (List Bytes)
  | .inserted version byteOffset text => do
      let old ← versions[version]?
      some (versions ++ [insertAt old byteOffset text])
  | .erased version byteOffset byteLength => do
      let old ← versions[version]?
      some (versions ++ [eraseAt old byteOffset byteLength])

def ropeStep (ropes : List Rope) : StorageEdit → Option (List Rope)
  | .inserted version byteOffset text => do
      let old ← ropes[version]?
      let new ← old.inserted byteOffset text
      some (ropes ++ [new])
  | .erased version byteOffset byteLength => do
      let old ← ropes[version]?
      some (ropes ++ [old.erased byteOffset byteLength])

def tableStep (state : Heap × List PieceTable) : StorageEdit → Option (Heap × List PieceTable)
  | .inserted version byteOffset text => do
      let old ← state.2[version]?
      let (heap, new) ← old.inserted state.1 byteOffset text
      some (heap, state.2 ++ [new])
  | .erased version byteOffset byteLength => do
      let old ← state.2[version]?
      let new ← old.erased state.1 byteOffset byteLength
      some (state.1, state.2 ++ [new])

/-- The edit names a version, its text is well formed and its offsets are codepoint boundaries. -/
def StorageEdit.WellFormed (versions : List Bytes) : StorageEdit → Prop
  | .inserted version byteOffset text => ∃ old, versions[version]? = some old ∧
      IsCodepointBoundary old byteOffset ∧ WellFormedUtf8 text
  | .erased version byteOffset byteLength => ∃ old, versions[version]? = some old ∧
      IsCodepointBoundary old byteOffset ∧ IsCodepointBoundary old (byteOffset + byteLength)

/-- A script of well-formed edits over the given versions. -/
abbrev WellFormedScript (versions : List Bytes) (script : List StorageEdit) : Prop :=
  Admissible textStep StorageEdit.WellFormed versions script

/-! ## What the queries answer -/

/-- Every query of the rope answers as a scan of the flat text does. -/
structure Rope.Answers (rope : Rope) (text : Bytes) : Prop where
  toString : rope.toString = text
  byteLength : rope.byteLength = text.length
  codepointLength : rope.codepointLength = countCodepoints text
  lineCount : rope.lineCount = countNewlines text + 1
  substring : ∀ o n, rope.substring o n = substr text o n
  byteOffsetToLine : ∀ o, rope.byteOffsetToLine o = countNewlines (text.take o)
  lineToByteOffset : ∀ line, rope.lineToByteOffset line = lineStart text line
  byteOffsetToCodepointOffset :
    ∀ o, rope.byteOffsetToCodepointOffset o = countCodepoints (text.take o)
  codepointOffsetToByteOffset :
    ∀ k, rope.codepointOffsetToByteOffset k = codepointStart text k

/-- The piece table reads in bounds, and answers every query as the rope does. -/
structure PieceTable.Agrees (heap : Heap) (table : PieceTable) (rope : Rope) : Prop where
  toString : table.toString heap = some rope.toString
  byteLength : table.byteLength = rope.byteLength
  codepointLength : table.codepointLength = rope.codepointLength
  lineCount : table.lineCount = rope.lineCount
  substring : ∀ o n, table.substring heap o n = some (rope.substring o n)
  byteOffsetToLine : ∀ o, table.byteOffsetToLine heap o = some (rope.byteOffsetToLine o)
  lineToByteOffset : ∀ line, table.lineToByteOffset heap line = some (rope.lineToByteOffset line)
  byteOffsetToCodepointOffset : ∀ o,
    table.byteOffsetToCodepointOffset heap o = some (rope.byteOffsetToCodepointOffset o)
  codepointOffsetToByteOffset : ∀ k,
    table.codepointOffsetToByteOffset heap k = some (rope.codepointOffsetToByteOffset k)
  codepointAt : ∀ o, table.codepointAt heap o = rope.codepointAt o
  nextCodepointBoundary : ∀ o, table.nextCodepointBoundary heap o = rope.nextCodepointBoundary o
  previousCodepointBoundary : ∀ o ≤ rope.byteLength,
    table.previousCodepointBoundary heap o = rope.previousCodepointBoundary o

/-- The piece table answers every query over one heap as over the other. -/
structure PieceTable.ReadsAlike (heap heap' : Heap) (table : PieceTable) : Prop where
  toString : table.toString heap' = table.toString heap
  substring : ∀ o n, table.substring heap' o n = table.substring heap o n
  byteOffsetToLine : ∀ o, table.byteOffsetToLine heap' o = table.byteOffsetToLine heap o
  lineToByteOffset : ∀ line, table.lineToByteOffset heap' line = table.lineToByteOffset heap line
  byteOffsetToCodepointOffset : ∀ o,
    table.byteOffsetToCodepointOffset heap' o = table.byteOffsetToCodepointOffset heap o
  codepointOffsetToByteOffset : ∀ k,
    table.codepointOffsetToByteOffset heap' k = table.codepointOffsetToByteOffset heap k
  codepointAt : ∀ o, table.codepointAt heap' o = table.codepointAt heap o
  nextCodepointBoundary : ∀ o,
    table.nextCodepointBoundary heap' o = table.nextCodepointBoundary heap o
  previousCodepointBoundary : ∀ o ≤ table.byteLength,
    table.previousCodepointBoundary heap' o = table.previousCodepointBoundary heap o

/-!
## Lemmas on versions

One edit keeps every version of a rope, and of a piece table, in step with the flat text.
-/

open Ned.Library MeasuredTree

/-! ## Rows of versions -/

section Rows

variable {α β : Type} {R : α → β → Prop}

theorem forall₂_getElem? {xs : List α} {ys : List β} (h : List.Forall₂ R xs ys) {i : Nat} {y : β}
    (hy : ys[i]? = some y) : ∃ x, xs[i]? = some x ∧ R x y := by
  induction h generalizing i with
  | nil => cases hy
  | @cons x y' _ _ hxy _ ih =>
      cases i with
      | zero =>
          obtain rfl : y' = y := Option.some.inj hy
          exact ⟨x, rfl, hxy⟩
      | succ i => exact ih hy

theorem forall₂_snoc {xs : List α} {ys : List β} {x : α} {y : β} (h : List.Forall₂ R xs ys)
    (hxy : R x y) : List.Forall₂ R (xs ++ [x]) (ys ++ [y]) :=
  List.rel_append h (.cons hxy .nil)

end Rows

/-! ## The flat text -/

theorem textStep_of_wellFormed {versions : List Bytes} {edit : StorageEdit}
    (h : edit.WellFormed versions) : ∃ new, textStep versions edit = some (versions ++ [new]) := by
  cases edit with
  | inserted version byteOffset text =>
      obtain ⟨old, hold, _⟩ := h
      exact ⟨_, by simp only [textStep, hold, Option.bind_eq_bind, Option.bind_some]; rfl⟩
  | erased version byteOffset byteLength =>
      obtain ⟨old, hold, _⟩ := h
      exact ⟨_, by simp only [textStep, hold, Option.bind_eq_bind, Option.bind_some]; rfl⟩

theorem WellFormedScript.exists_run {versions : List Bytes} {script : List StorageEdit}
    (h : WellFormedScript versions script) :
    ∃ versions', run textStep versions script = some versions' :=
  Admissible.exists_run (fun _ _ hedit => by
    obtain ⟨new, hnew⟩ := textStep_of_wellFormed hedit
    exact ⟨_, hnew⟩) h

theorem textStep_extends {versions versions' : List Bytes} {edit : StorageEdit}
    (h : textStep versions edit = some versions') : versions <+: versions' := by
  cases edit with
  | inserted version byteOffset text =>
      obtain ⟨old, _, h⟩ := Option.bind_eq_some_iff.1 h
      cases h
      exact List.prefix_append _ _
  | erased version byteOffset byteLength =>
      obtain ⟨old, _, h⟩ := Option.bind_eq_some_iff.1 h
      cases h
      exact List.prefix_append _ _

theorem textRun_extends {versions versions' : List Bytes} {script : List StorageEdit}
    (h : run textStep versions script = some versions') : versions <+: versions' :=
  run_invariant (versions <+: ·) (fun _ _ _ hpre hstep => hpre.trans (textStep_extends hstep))
    (List.prefix_refl _) h

/-! ## Ropes -/

theorem ropeStep_extends {ropes ropes' : List Rope} {edit : StorageEdit}
    (h : ropeStep ropes edit = some ropes') : ropes <+: ropes' := by
  cases edit with
  | inserted version byteOffset text =>
      obtain ⟨old, _, h⟩ := Option.bind_eq_some_iff.1 h
      obtain ⟨new, _, h⟩ := Option.bind_eq_some_iff.1 h
      cases h
      exact List.prefix_append _ _
  | erased version byteOffset byteLength =>
      obtain ⟨old, _, h⟩ := Option.bind_eq_some_iff.1 h
      cases h
      exact List.prefix_append _ _

theorem ropeRun_extends {ropes ropes' : List Rope} {script : List StorageEdit}
    (h : run ropeStep ropes script = some ropes') : ropes <+: ropes' :=
  run_invariant (ropes <+: ·) (fun _ _ _ hpre hstep => hpre.trans (ropeStep_extends hstep))
    (List.prefix_refl _) h

/-- The ropes stand for the versions. -/
def RopesDenote (ropes : List Rope) (versions : List Bytes) : Prop :=
  List.Forall₂ Rope.Denotes ropes versions

theorem RopesDenote.step {ropes : List Rope} {versions versions' : List Bytes}
    {edit : StorageEdit} (h : RopesDenote ropes versions) (hedit : edit.WellFormed versions)
    (hstep : textStep versions edit = some versions') :
    ∃ ropes', ropeStep ropes edit = some ropes' ∧ RopesDenote ropes' versions' := by
  cases edit with
  | inserted version byteOffset text =>
      obtain ⟨old, hold, ho, htext⟩ := hedit
      obtain ⟨rope, hrope, hden⟩ := forall₂_getElem? h hold
      obtain ⟨rope', hrope', hden'⟩ := hden.inserted ho.cut htext
      simp only [textStep, hold, Option.bind_eq_bind, Option.bind_some, Option.some.injEq] at hstep
      subst hstep
      refine ⟨ropes ++ [rope'], ?_, forall₂_snoc h hden'⟩
      simp only [ropeStep, hrope, hrope', Option.bind_eq_bind, Option.bind_some]
  | erased version byteOffset byteLength =>
      obtain ⟨old, hold, ho, hn⟩ := hedit
      obtain ⟨rope, hrope, hden⟩ := forall₂_getElem? h hold
      simp only [textStep, hold, Option.bind_eq_bind, Option.bind_some, Option.some.injEq] at hstep
      subst hstep
      refine ⟨ropes ++ [rope.erased byteOffset byteLength], ?_,
        forall₂_snoc h (hden.erased ho.cut hn.cut)⟩
      simp only [ropeStep, hrope, Option.bind_eq_bind, Option.bind_some]

theorem RopesDenote.run {ropes : List Rope} {versions versions' : List Bytes}
    {script : List StorageEdit} (h : RopesDenote ropes versions)
    (hscript : WellFormedScript versions script)
    (hrun : run textStep versions script = some versions') :
    ∃ ropes', Library.run ropeStep ropes script = some ropes' ∧ RopesDenote ropes' versions' := by
  refine run_simulates ?_ h hscript hrun
  intro ropes versions edit versions' hR hedit hstep
  exact RopesDenote.step hR hedit hstep

theorem Rope.Denotes.answers {rope : Rope} {text : Bytes} (h : rope.Denotes text) :
    rope.Answers text where
  toString := h.toString
  byteLength := h.byteLength
  codepointLength := h.codepointLength
  lineCount := h.lineCount
  substring := h.substring
  byteOffsetToLine := h.byteOffsetToLine
  lineToByteOffset := h.lineToByteOffset
  byteOffsetToCodepointOffset := h.byteOffsetToCodepointOffset
  codepointOffsetToByteOffset := h.codepointOffsetToByteOffset

/-! ## Piece tables -/

/-- The tables stand for the versions over the heap they share. -/
def TablesDenote (state : Heap × List PieceTable) (versions : List Bytes) : Prop :=
  List.Forall₂ (fun table text => PieceTable.HasBuffer state.1 table ∧
    PieceTable.Denotes state.1 table text) state.2 versions

theorem TablesDenote.grows {heap heap' : Heap} {tables : List PieceTable} {versions : List Bytes}
    (h : TablesDenote (heap, tables) versions) (hgrows : heap.Grows heap') :
    TablesDenote (heap', tables) versions :=
  List.Forall₂.imp (fun _ _ ⟨hbuf, hden⟩ => ⟨hbuf.grows hgrows, hden.grows hgrows⟩) h

/-- What a step does to the heap and to the versions already there. -/
def TablesExtend (state state' : Heap × List PieceTable) : Prop :=
  state.1.Grows state'.1 ∧ state.2 <+: state'.2

theorem TablesExtend.refl (state : Heap × List PieceTable) : TablesExtend state state :=
  ⟨Heap.Grows.refl _, List.prefix_refl _⟩

theorem TablesExtend.trans {s₁ s₂ s₃ : Heap × List PieceTable} (h : TablesExtend s₁ s₂)
    (h' : TablesExtend s₂ s₃) : TablesExtend s₁ s₃ :=
  ⟨h.1.trans h'.1, h.2.trans h'.2⟩

theorem TablesDenote.step {state : Heap × List PieceTable} {versions versions' : List Bytes}
    {edit : StorageEdit} (h : TablesDenote state versions) (hedit : edit.WellFormed versions)
    (hstep : textStep versions edit = some versions') :
    ∃ state', tableStep state edit = some state' ∧ TablesExtend state state' ∧
      TablesDenote state' versions' := by
  obtain ⟨heap, tables⟩ := state
  cases edit with
  | inserted version byteOffset text =>
      obtain ⟨old, hold, ho, htext⟩ := hedit
      obtain ⟨table, htable, hbuf, hden⟩ := forall₂_getElem? h hold
      obtain ⟨heap', table', hins, hgrows, hbuf', hden'⟩ := hden.inserted hbuf ho.cut htext
      simp only [textStep, hold, Option.bind_eq_bind, Option.bind_some, Option.some.injEq] at hstep
      subst hstep
      dsimp only at htable hins
      refine ⟨(heap', tables ++ [table']), ?_, ⟨hgrows, List.prefix_append _ _⟩,
        forall₂_snoc (h.grows hgrows) ⟨hbuf', hden'⟩⟩
      simp only [tableStep, htable, hins, Option.bind_eq_bind, Option.bind_some]
  | erased version byteOffset byteLength =>
      obtain ⟨old, hold, ho, hn⟩ := hedit
      obtain ⟨table, htable, hbuf, hden⟩ := forall₂_getElem? h hold
      obtain ⟨table', her, hbuf', hden'⟩ := hden.erased hbuf ho.cut hn.cut
      simp only [textStep, hold, Option.bind_eq_bind, Option.bind_some, Option.some.injEq] at hstep
      subst hstep
      dsimp only at htable her
      refine ⟨(heap, tables ++ [table']), ?_, ⟨Heap.Grows.refl _, List.prefix_append _ _⟩,
        forall₂_snoc h ⟨hbuf', hden'⟩⟩
      simp only [tableStep, htable, her, Option.bind_eq_bind, Option.bind_some]

theorem TablesDenote.run {state : Heap × List PieceTable} {versions versions' : List Bytes}
    {script : List StorageEdit} (h : TablesDenote state versions)
    (hscript : WellFormedScript versions script)
    (hrun : run textStep versions script = some versions') :
    ∃ state', Library.run tableStep state script = some state' ∧ TablesExtend state state' ∧
      TablesDenote state' versions' := by
  obtain ⟨state', hrun', hext, hden⟩ := run_simulates
    (R := fun state' versions => TablesExtend state state' ∧ TablesDenote state' versions)
    (fun s t i t' ⟨hext, hden⟩ hedit hstep => by
      obtain ⟨s', hs', hext', hden'⟩ := TablesDenote.step hden hedit hstep
      exact ⟨s', hs', hext.trans hext', hden'⟩)
    ⟨TablesExtend.refl state, h⟩ hscript hrun
  exact ⟨state', hrun', hext, hden⟩

theorem PieceTable.Denotes.agrees {heap : Heap} {table : PieceTable} {rope : Rope} {text : Bytes}
    (h : PieceTable.Denotes heap table text) (hrope : rope.Denotes text) :
    PieceTable.Agrees heap table rope where
  toString := by rw [h.toString, hrope.toString]
  byteLength := by rw [h.byteLength, hrope.byteLength]
  codepointLength := by rw [h.codepointLength, hrope.codepointLength]
  lineCount := by rw [h.lineCount, hrope.lineCount]
  substring o n := by rw [h.substring, hrope.substring]
  byteOffsetToLine o := by rw [h.byteOffsetToLine, hrope.byteOffsetToLine]
  lineToByteOffset line := by rw [h.lineToByteOffset, hrope.lineToByteOffset]
  byteOffsetToCodepointOffset o := by
    rw [h.byteOffsetToCodepointOffset, hrope.byteOffsetToCodepointOffset]
  codepointOffsetToByteOffset k := by
    rw [h.codepointOffsetToByteOffset, hrope.codepointOffsetToByteOffset]
  codepointAt o := by rw [h.codepointAt, hrope.codepointAt]
  nextCodepointBoundary o := by rw [h.nextCodepointBoundary, hrope.nextCodepointBoundary]
  previousCodepointBoundary o ho := by
    rw [hrope.byteLength] at ho
    rw [h.previousCodepointBoundary ho, hrope.previousCodepointBoundary ho]

theorem PieceTable.Denotes.readsAlike {heap heap' : Heap} {table : PieceTable} {text : Bytes}
    (h : PieceTable.Denotes heap table text) (hgrows : heap.Grows heap') :
    PieceTable.ReadsAlike heap heap' table where
  toString := by rw [h.toString, (h.grows hgrows).toString]
  substring o n := by rw [h.substring, (h.grows hgrows).substring]
  byteOffsetToLine o := by rw [h.byteOffsetToLine, (h.grows hgrows).byteOffsetToLine]
  lineToByteOffset line := by rw [h.lineToByteOffset, (h.grows hgrows).lineToByteOffset]
  byteOffsetToCodepointOffset o := by
    rw [h.byteOffsetToCodepointOffset, (h.grows hgrows).byteOffsetToCodepointOffset]
  codepointOffsetToByteOffset k := by
    rw [h.codepointOffsetToByteOffset, (h.grows hgrows).codepointOffsetToByteOffset]
  codepointAt o := by rw [h.codepointAt, (h.grows hgrows).codepointAt]
  nextCodepointBoundary o := by
    rw [h.nextCodepointBoundary, (h.grows hgrows).nextCodepointBoundary]
  previousCodepointBoundary o ho := by
    rw [h.byteLength] at ho
    rw [h.previousCodepointBoundary ho, (h.grows hgrows).previousCodepointBoundary ho]

theorem TablesDenote.agrees {heap : Heap} {tables : List PieceTable} {ropes : List Rope}
    {versions : List Bytes} (h : TablesDenote (heap, tables) versions)
    (hropes : RopesDenote ropes versions) :
    List.Forall₂ (PieceTable.Agrees heap) tables ropes := by
  induction hropes generalizing tables with
  | nil =>
      cases h
      exact .nil
  | cons hrope _ ih =>
      cases h with
      | cons htable htables => exact .cons (htable.2.agrees hrope) (ih htables)

theorem TablesDenote.readsAlike {heap heap' : Heap} {tables : List PieceTable}
    {versions : List Bytes} (h : TablesDenote (heap, tables) versions)
    (hgrows : heap.Grows heap') : ∀ table ∈ tables, PieceTable.ReadsAlike heap heap' table := by
  intro table htable
  obtain ⟨i, hi, hget⟩ := List.getElem_of_mem htable
  have hlen : tables.length = versions.length := List.Forall₂.length_eq h
  obtain ⟨table', htable', _, hden⟩ := forall₂_getElem? h
    (List.getElem?_eq_getElem (show i < versions.length by omega))
  obtain rfl : table = table' := by
    rw [← hget]
    exact Option.some.inj ((List.getElem?_eq_getElem hi).symm.trans htable')
  exact hden.readsAlike hgrows

end Ned.Text
