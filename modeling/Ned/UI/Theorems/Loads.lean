import Ned.Text.Lemmas.Navigation
import Ned.Text.Lemmas.Session
import Ned.Text.Buffer

/-!
# The loader of huge files

What the callbacks of a background read do to the buffer, which stays editable while it is loaded.
-/

namespace Ned.UI

open Ned.Text

/-- The loader as the main thread sees it. `expectedByteLength` is the length the last chunk left. -/
structure HugeFileLoader where
  session : Session
  expectedByteLength : Option Nat := none
  done : Bool := false

namespace HugeFileLoader

/-- A loader over the placeholder it is about to fill. -/
def start (name : String) (forceReadOnly : Bool) : HugeFileLoader :=
  { session := .ofBuffer (.placeholder name forceReadOnly) }

inductive Event where
  | chunk (fragment : Bytes)
  | operation (op : Operation)
  deriving DecidableEq

variable (p : Platform) (loader : HugeFileLoader)

/-- The callback posted for each chunk group; it gives up where the buffer is not as it was left. -/
def land (fragment : Bytes) : Option HugeFileLoader :=
  let landed (op : Operation) : Option HugeFileLoader := do
    let session ← loader.session.step p op
    some { loader with
      session := session
      expectedByteLength := some session.buffer.storage.byteLength }
  match loader.expectedByteLength with
  | none => landed (.replaceContentForHugeLoad fragment)
  | some expected =>
      if loader.session.buffer.storage.byteLength ≠ expected then
        some { loader with done := true }
      else
        landed (.appendHugeLoadChunk fragment)

def step : Event → Option HugeFileLoader
  | .chunk fragment => loader.land p fragment
  | .operation op => do
      let session ← loader.session.step p op
      some { loader with session := session }

/-- The last callback of a read that was not stopped. -/
def finish : HugeFileLoader :=
  { loader with
    session := { loader.session with buffer := loader.session.buffer.finishHugeLoad }
    done := true }

/-- What has been read from disk after an event. -/
def readBy (file : Bytes) : Event → Bytes
  | .chunk fragment => file ++ fragment
  | .operation _ => file

/-- The chunks of a load, joined. -/
def fileOf (events : List Event) : Bytes := events.foldl readBy []

end HugeFileLoader

/-!
## Progressive loads

Undoing everything after a load leaves the file, where nothing was recorded while it arrived, and
the empty placeholder otherwise. Redoing brings back what there was.
-/

open Ned.Library

/-! ## The undo history of a load -/

/-- The tree still starts at the empty placeholder, and only its very first content is no state. -/
structure LoadHistory (file : Bytes) (b : Buffer) : Prop where
  grown : b.undoTree.Grown .empty
  depth : b.undoGroupDepth = 0
  content : (1 < b.undoTree.nodes.length ∧ b.At b.undoTree) ∨
    (b.undoTree.nodes.length = 1 ∧ b.storage.bytes = file)
  amends : b.canAmend = true ∨ b.canAmendLoadAppend = true → b.undoTree.current ≠ b.undoTree.root

namespace LoadHistory

variable {p : Platform} {file file' : Bytes} {b b' : Buffer}

theorem first_chunk (name : String) (forceReadOnly : Bool) (fragment : Bytes) :
    LoadHistory fragment
      ((Buffer.placeholder name forceReadOnly).replaceContentForHugeLoad fragment) := by
  refine ⟨UndoTree.grown_ofState .empty, rfl, Or.inr ⟨rfl, rfl⟩, ?_⟩
  rintro (hamend | hamend) <;> cases hamend

/-- Whatever is recorded becomes a state, at a node below the root. -/
theorem recorded (h : LoadHistory file b) {mayAmend : Prop}
    (hmay : mayAmend → b.canAmend = true ∨ b.canAmendLoadAppend = true)
    (hrec : UndoRecording.Recorded mayAmend b.toUndoRecording b'.storage b'.toUndoRecording) :
    LoadHistory file' b' := by
  rcases hrec.tree with ⟨hmayAmend, hamend⟩ | hrecord
  · have hbelow := h.amends (hmay hmayAmend)
    obtain ⟨hstate, hcurrent, hroot, hlength⟩ := UndoTree.amend_currentState hamend
    refine ⟨h.grown.amend hbelow hamend, hrec.depth, Or.inl ⟨?_, rfl, hstate⟩, fun _ => ?_⟩
    · rw [hlength]
      exact h.grown.one_lt_of_ne hbelow
    · rw [hcurrent, hroot]
      exact hbelow
  · obtain ⟨hstate, hcurrent, hroot, hlength⟩ := UndoTree.record_currentState hrecord
    obtain ⟨root, hrootnode, -⟩ := h.grown.first
    have hlt := (List.getElem?_eq_some_iff.1 hrootnode).1
    refine ⟨h.grown.record hrecord, hrec.depth, Or.inl ⟨?_, rfl, hstate⟩, fun _ => ?_⟩
    · exact Nat.lt_of_le_of_lt (Nat.succ_le_of_lt (Nat.lt_of_le_of_lt (Nat.zero_le _) hlt)) hlength
    · rw [hcurrent, hroot]
      exact Nat.ne_of_gt hlt

theorem edited (h : LoadHistory file b) {canAmend : Bool} {offset oldLength newLength : Nat}
    (hb : Buffer.Edited canAmend b b' offset oldLength newLength) : LoadHistory file b' := by
  obtain ⟨offsets, hrec⟩ := hb.recording
  exact h.recorded Or.inl (UndoRecording.recordOrAmendUndo_spec h.depth hrec)

theorem inserted (h : LoadHistory file b) {canAmend : Bool}
    (hb : b' = b ∨ Buffer.Inserted canAmend b b') : LoadHistory file b' := by
  rcases hb with rfl | ⟨offset, text, -, -, hedited⟩
  · exact h
  · exact h.edited hedited

theorem erased (h : LoadHistory file b) (hb : b' = b ∨ Buffer.Erased b b') : LoadHistory file b' := by
  rcases hb with rfl | ⟨start, stop, -, hedited⟩
  · exact h
  · exact h.edited hedited

theorem appended (h : LoadHistory file b) {fragment : Bytes} (hb : Buffer.Appended fragment b b') :
    LoadHistory file' b' := by
  obtain ⟨offsets, hrec⟩ := hb.recording
  exact h.recorded Or.inr (UndoRecording.recordOrAmendLoadAppend_spec h.depth hrec)

theorem restored (h : LoadHistory file b) {tree : UndoTree} (htree : tree.Grown .empty)
    (hlength : 1 < tree.nodes.length)
    (hb : Buffer.Restored b.storage { b.toUndoRecording with undoTree := tree } b b') :
    LoadHistory file b' := by
  have hrecording := hb.recording
  have hsame : b'.undoTree = tree := congrArg UndoRecording.undoTree hrecording
  refine ⟨hsame ▸ htree, ?_, Or.inl ⟨hsame ▸ hlength, rfl, hsame ▸ hb.current⟩, fun hamend => ?_⟩
  · rw [hrecording]
    exact h.depth
  · rw [hrecording] at hamend
    rcases hamend with hamend | hamend <;> cases hamend

theorem undo (h : LoadHistory file b) (hb : b.undo p = some b') : LoadHistory file b' := by
  rcases Buffer.undo_spec hb with ⟨-, rfl⟩ | ⟨tree, hable, htree, hb⟩
  · exact h
  · refine h.restored (h.grown.undo htree) ?_ hb
    rw [UndoTree.undo_nodes htree]
    exact h.grown.one_lt_of_canUndo hable

theorem redo (h : LoadHistory file b) (hb : b.redo p = some b') : LoadHistory file b' := by
  rcases Buffer.redo_spec hb with ⟨-, rfl⟩ | ⟨tree, hable, htree, hb⟩
  · exact h
  · refine h.restored (h.grown.redo htree) ?_ hb
    rw [UndoTree.redo_nodes htree]
    exact h.grown.one_lt_of_canRedo hable

/-- Where nothing is left to undo, the content is the placeholder's, or nothing was ever recorded. -/
theorem undone (h : LoadHistory file b) (hable : b.canUndo = some false) :
    b.storage.bytes = if b.undoTree.nodes.length = 1 then file else [] := by
  rcases h.content with ⟨hlength, hat⟩ | ⟨hlength, hfile⟩
  · rw [if_neg (Nat.ne_of_gt hlength)]
    obtain ⟨root, hroot, hfirst⟩ := h.grown.first
    have hcurrent := h.grown.current_eq_root hable
    have hstate : b.undoTree.currentState = some .empty := by
      rw [UndoTree.currentState, UndoTree.currentNode, hcurrent, hroot, ← hfirst]
      rfl
    obtain hempty := Option.some.inj (hat.state.symm.trans hstate)
    rw [hempty]
    rfl
  · rw [if_pos hlength]
    exact hfile

end LoadHistory

/-! ## Runs of the loader -/

namespace HugeFileLoader

variable {p : Platform} {loader loader' : HugeFileLoader} {file : Bytes}

/-- Chunks land where the last one left the buffer, among edits and moves in the undo tree. -/
def Permitted (loader : HugeFileLoader) : Event → Prop
  | .chunk _ => ∀ expected, loader.expectedByteLength = some expected →
      loader.session.buffer.storage.byteLength = expected
  | .operation (.insertAt ..) => True
  | .operation (.insertAtPoint ..) => True
  | .operation (.deleteRange ..) => True
  | .operation .undo => True
  | .operation .redo => True
  | .operation _ => False

/-- The first chunk has landed, and this is the file as far as it has been read. -/
structure Underway (file : Bytes) (loader : HugeFileLoader) : Prop where
  started : loader.expectedByteLength ≠ none
  history : LoadHistory file loader.session.buffer

theorem Underway.step {event : Event} (h : Underway file loader) (hevent : loader.Permitted event)
    (hstep : loader.step p event = some loader') : Underway (readBy file event) loader' := by
  cases event with
  | chunk fragment =>
      obtain ⟨expected, hexpected⟩ := Option.ne_none_iff_exists'.1 h.started
      have hlength := hevent expected hexpected
      simp only [HugeFileLoader.step, land, hexpected, hlength, ne_eq, not_true_eq_false,
        if_false] at hstep
      obtain ⟨s, hs, hstep⟩ := Option.bind_eq_some_iff.1 hstep
      obtain ⟨b, hb, rfl⟩ := Session.update_eq_some hs
      cases hstep
      exact ⟨Option.some_ne_none _, h.history.appended (Buffer.appendHugeLoadChunk_spec hb)⟩
  | operation op =>
      obtain ⟨s, hs, hstep⟩ := Option.bind_eq_some_iff.1 hstep
      cases hstep
      refine ⟨h.started, ?_⟩
      cases op with
      | insertAt byteOffset text =>
          rcases Session.settle_eq_some hs with ⟨b, hb, rfl⟩ | rfl
          · exact h.history.inserted (Buffer.insertAt_spec hb)
          · exact h.history
      | insertAtPoint text =>
          rcases Session.settle_eq_some hs with ⟨b, hb, rfl⟩ | rfl
          · exact h.history.inserted (Buffer.insertAtPoint_spec hb)
          · exact h.history
      | deleteRange byteOffset byteLength =>
          rcases Session.settle_eq_some hs with ⟨b, hb, rfl⟩ | rfl
          · obtain ⟨deleted, hb⟩ := Session.map_fst_eq_ok hb
            exact h.history.erased (Buffer.deleteRange_spec hb)
          · exact h.history
      | undo =>
          obtain ⟨b, hb, rfl⟩ := Session.update_eq_some hs
          exact h.history.undo hb
      | redo =>
          obtain ⟨b, hb, rfl⟩ := Session.update_eq_some hs
          exact h.history.redo hb
      | _ => exact hevent.elim

theorem underway_of_run {name : String} {forceReadOnly : Bool} {first : Bytes} {rest : List Event}
    (hadm : Admissible (HugeFileLoader.step p) Permitted (start name forceReadOnly)
      (.chunk first :: rest))
    (hrun : run (HugeFileLoader.step p) (start name forceReadOnly) (.chunk first :: rest) =
      some loader) : Underway (fileOf (.chunk first :: rest)) loader := by
  obtain ⟨started, hfirst, hrun⟩ := run_cons_eq_some.1 hrun
  have hstarted : Underway first started := by
    cases hfirst
    exact ⟨Option.some_ne_none _, LoadHistory.first_chunk name forceReadOnly first⟩
  exact run_invariant_told (t := first) Underway readBy (fun _ _ _ _ h => h.step) hstarted
    (hadm.2 started hfirst) hrun

/-- Undoing leaves what was there before anything was recorded: never a part of the file. -/
theorem undone_of_run {n : Nat} {s s' : Session} (h : LoadHistory file s.buffer)
    (hrun : run (Session.step p) s (List.replicate n .undo) = some s') :
    LoadHistory file s'.buffer := by
  induction n generalizing s with
  | zero =>
      cases hrun
      exact h
  | succ n ih =>
      obtain ⟨t, ht, hrun⟩ := run_cons_eq_some.1 hrun
      obtain ⟨b, hb, rfl⟩ := Session.update_eq_some ht
      exact ih (h.undo hb) hrun

/-- After a load, undoing until nothing is left to undo gives the empty placeholder, or the file
where nothing was recorded since its first chunk, but never a part of it; and it can be done, and
redoing as often brings back what the load left. -/
theorem undo_all_after_load {name : String} {forceReadOnly : Bool} {first : Bytes}
    {rest : List Event}
    (hadm : Admissible (HugeFileLoader.step p) Permitted (start name forceReadOnly)
      (.chunk first :: rest))
    (hrun : run (HugeFileLoader.step p) (start name forceReadOnly) (.chunk first :: rest) =
      some loader) :
    (∀ n s, run (Session.step p) loader.finish.session (List.replicate n .undo) = some s →
      s.buffer.canUndo = some false →
      s.buffer.storage.bytes =
        if s.buffer.undoTree.nodes.length = 1 then fileOf (.chunk first :: rest) else []) ∧
    ∃ n s₁ s₂, run (Session.step p) loader.finish.session (List.replicate n .undo) = some s₁ ∧
      s₁.buffer.canUndo = some false ∧
      run (Session.step p) s₁ (List.replicate n .redo) = some s₂ ∧
      s₂.buffer.storage = loader.session.buffer.storage := by
  have h := (underway_of_run hadm hrun).history
  have hfinish : LoadHistory (fileOf (.chunk first :: rest)) loader.finish.session.buffer :=
    ⟨h.grown, h.depth, h.content.imp_left fun hat => ⟨hat.1, rfl, hat.2.state⟩, h.amends⟩
  refine ⟨fun n s hundo hable => (undone_of_run hfinish hundo).undone hable, ?_⟩
  rcases hfinish.content with ⟨-, hat⟩ | ⟨hlength, -⟩
  · obtain ⟨n, htrail⟩ := hfinish.grown.trail
    obtain ⟨s₁, s₂, hundo, hroot, hredo, hback⟩ := Session.undo_all (p := p) hat htrail
    refine ⟨n, s₁, s₂, hundo, ?_, hredo, Option.some.inj (hback.state.symm.trans hat.state)⟩
    rw [Buffer.canUndo, hroot.undoTree]
    exact hfinish.grown.canUndo_root
  · refine ⟨0, loader.finish.session, loader.finish.session, rfl, ?_, rfl, rfl⟩
    obtain ⟨n, htrail⟩ := hfinish.grown.trail
    cases n with
    | zero => exact (UndoTree.canUndo_of_trail_zero htrail).1
    | succ n =>
        obtain ⟨b, hable, -⟩ := UndoTree.undo_of_trail_succ htrail
        exact absurd hlength (Nat.ne_of_gt (hfinish.grown.one_lt_of_canUndo hable))

/-- Between two chunks, a letter is typed and deleted again. -/
theorem undo_all_after_load_sample :
    let p : Platform := { graphemeBreak := fun s _ _ => (true, s), keySort := .insertion }
    let rest : List Event :=
      [.operation (.insertAt 1 [33]), .operation (.deleteRange 1 1), .chunk [66]]
    ∃ loader, run (HugeFileLoader.step p) (start "sample" false) (.chunk [65] :: rest) = some loader ∧
      ∃ n s₁ s₂, run (Session.step p) loader.finish.session (List.replicate n .undo) = some s₁ ∧
        s₁.buffer.canUndo = some false ∧
        run (Session.step p) s₁ (List.replicate n .redo) = some s₂ ∧
        s₂.buffer.storage = loader.session.buffer.storage := by
  intro p rest
  have hlengths : (run (HugeFileLoader.step p) (start "sample" false)
      [.chunk [65], .operation (.insertAt 1 [33]), .operation (.deleteRange 1 1)]).map
        (fun l => (l.expectedByteLength, l.session.buffer.storage.byteLength)) = some (some 1, 1) := by
    decide +kernel
  have hsome : (run (HugeFileLoader.step p) (start "sample" false) (.chunk [65] :: rest)).isSome := by
    decide +kernel
  obtain ⟨loader, hloader⟩ := Option.isSome_iff_exists.1 hsome
  refine ⟨loader, hloader, (undo_all_after_load ?_ hloader).2⟩
  refine ⟨fun expected hexpected => ?_, fun l₁ h₁ => ⟨trivial, fun l₂ h₂ => ⟨trivial, fun l₃ h₃ =>
    ⟨fun expected hexpected => ?_, fun _ _ => trivial⟩⟩⟩⟩
  · cases hexpected
  · simp only [run_cons, h₁, h₂, h₃, Option.bind_some, run_nil, Option.map_some, Option.some.injEq,
      Prod.mk.injEq] at hlengths
    rw [hlengths.2]
    exact Option.some.inj (hlengths.1.symm.trans hexpected)

/-- "A" arrives, then "B", and one undo takes the whole file "AB" away. -/
theorem not_undo_all_keeps_file :
    ¬ ∀ (p : Platform) (name : String) (forceReadOnly : Bool) (first : Bytes) (rest : List Event)
      (loader : HugeFileLoader) (n : Nat) (s : Session),
      Admissible (HugeFileLoader.step p) Permitted (start name forceReadOnly)
        (.chunk first :: rest) →
      run (HugeFileLoader.step p) (start name forceReadOnly) (.chunk first :: rest) = some loader →
      run (Session.step p) loader.finish.session (List.replicate n .undo) = some s →
      s.buffer.canUndo = some false →
      s.buffer.storage.bytes = fileOf (.chunk first :: rest) := by
  intro h
  let p : Platform := { graphemeBreak := fun s _ _ => (true, s), keySort := .insertion }
  have hload : (run (HugeFileLoader.step p) (start "sample" false) [.chunk [65], .chunk [66]]).map
      (fun loader => (run (Session.step p) loader.finish.session [.undo]).map
        fun s => (s.buffer.canUndo, s.buffer.storage.bytes)) = some (some (some false, [])) := by
    decide +kernel
  obtain ⟨loader, hloader, hload⟩ := Option.map_eq_some_iff.1 hload
  obtain ⟨s, hs, hstate⟩ := Option.map_eq_some_iff.1 hload
  simp only [Prod.mk.injEq] at hstate
  have hfile := h p "sample" false [65] [.chunk [66]] loader 1 s ?_ hloader hs hstate.1
  · rw [hstate.2] at hfile
    cases hfile
  · refine ⟨fun expected hexpected => ?_, fun l hl => ⟨fun expected hexpected => ?_,
      fun _ _ => trivial⟩⟩
    · cases hexpected
    · cases hl
      exact Option.some.inj hexpected

end HugeFileLoader

end Ned.UI
