import Ned.Editor.Project.Chronicle
import Ned.Text.Lemmas.UndoStates
import Mathlib.Data.List.Forall2

/-!
# Project-wide undo

What a record knows of its file's undo tree, how the edits of several files keep it, and what rolling
a record does with it.
-/

namespace Ned.Editor.Project

open Library (exists_of_forall₂)
open Text Text.UndoRecording

variable {p : Platform} {pathKey : Path → Path} {r r' : UndoRecording} {buffer buffer' : Buffer}
  {files files' : List OpenFile} {file file' : OpenFile} {trees trees' : List Nat} {place : Nat}
  {record : ProjectUndoRecord} {held : Held} {records : List ProjectUndoRecord} {helds : List Held}
  {outcome outcome' : ProjectUndoOutcome}

/-! ## What a record knows -/

/-- The record's sequences stand for the contents held, and neither is amended unseen. -/
structure KnownIn (r : UndoRecording) (record : ProjectUndoRecord) (held : Held) : Prop where
  before : ∃ state, r.undoTree.stateAt record.beforeSequence = some state ∧ state.bytes = held.before
  after : ∃ state, r.undoTree.stateAt record.afterSequence = some state ∧ state.bytes = held.after
  amendable : r.Amendable → ∀ {seq}, r.undoTree.currentSequence = some seq →
    seq = record.beforeSequence ∨ seq = record.afterSequence →
      record.beforeSequence = record.afterSequence

theorem KnownIn.follows {amends : Prop} (h : KnownIn r record held) (hfollows : Follows amends r r')
    (hable : amends → r.Amendable)
    (hnot : amends → record.beforeSequence = record.afterSequence →
      r.undoTree.currentSequence ≠ some record.beforeSequence) : KnownIn r' record held := by
  have hkept : ∀ {seq state}, seq = record.beforeSequence ∨ seq = record.afterSequence →
      r.undoTree.stateAt seq = some state → r'.undoTree.stateAt seq = some state := by
    intro seq state hseq hstate
    obtain ⟨state', hstate', rfl | ⟨hamends, hcurrent⟩⟩ := hfollows.kept hstate
    · exact hstate'
    · have hsame := h.amendable (hable hamends) hcurrent hseq
      have hbefore : seq = record.beforeSequence := hseq.elim id fun hafter => hafter.trans hsame.symm
      exact absurd (hbefore ▸ hcurrent) (hnot hamends hsame)
  obtain ⟨before, hbefore, hbeforeBytes⟩ := h.before
  obtain ⟨after, hafter, hafterBytes⟩ := h.after
  refine ⟨⟨before, hkept (Or.inl rfl) hbefore, hbeforeBytes⟩,
    ⟨after, hkept (Or.inr rfl) hafter, hafterBytes⟩, fun hable' {seq} hcurrent hseq => ?_⟩
  rcases hfollows.amendable hable' hcurrent with hnone | ⟨hable', hcurrent'⟩
  · rcases hseq with rfl | rfl
    · cases hnone.symm.trans hbefore
    · cases hnone.symm.trans hafter
  · exact h.amendable hable' hcurrent' hseq

theorem KnownIn.follows_false (h : KnownIn r record held) (hfollows : Follows False r r') :
    KnownIn r' record held :=
  h.follows hfollows False.elim fun hfalse => hfalse.elim

/-! ## Finding files -/

def DistinctKeys (pathKey : Path → Path) (files : List OpenFile) : Prop :=
  (files.map (·.path)).Pairwise fun path path' =>
    ∀ key, path.map pathKey = some key → path'.map pathKey ≠ some key

theorem DistinctKeys.eq {place' : Nat} {key : Path} (h : DistinctKeys pathKey files)
    (hfile : files[place]? = some file) (hfile' : files[place']? = some file')
    (hkey : file.path.map pathKey = some key) (hkey' : file'.path.map pathKey = some key) :
    place = place' := by
  obtain ⟨hlt, rfl⟩ := List.getElem?_eq_some_iff.1 hfile
  obtain ⟨hlt', rfl⟩ := List.getElem?_eq_some_iff.1 hfile'
  rw [DistinctKeys, List.pairwise_map, List.pairwise_iff_getElem] at h
  rcases Nat.lt_trichotomy place place' with hless | heq | hless
  · exact absurd hkey' (h place place' hlt hlt' hless key hkey)
  · exact heq
  · exact absurd hkey (h place' place hlt' hlt hless key hkey')

theorem findByPath_eq_some {path : Path} (h : findByPath pathKey files path = some place) :
    ∃ file, files[place]? = some file ∧ file.path.map pathKey = some (pathKey path) := by
  rw [findByPath, List.findIdx?_eq_some_iff_getElem] at h
  obtain ⟨hlt, hfile, -⟩ := h
  exact ⟨files[place], List.getElem?_eq_getElem hlt, beq_iff_eq.1 hfile⟩

theorem findByPath_congr (h : files'.map (·.path) = files.map (·.path)) (path : Path) :
    findByPath pathKey files' path = findByPath pathKey files path := by
  have hmap : ∀ files : List OpenFile, findByPath pathKey files path =
      (files.map (·.path)).findIdx? fun found => found.map pathKey == some (pathKey path) :=
    fun files => by rw [List.findIdx?_map]; rfl
  rw [hmap, hmap, h]

theorem set_paths (hfile : files[place]? = some file) (hpath : file'.path = file.path) :
    (files.set place file').map (·.path) = files.map (·.path) := by
  refine List.ext_getElem? fun i => ?_
  rw [List.getElem?_map, List.getElem?_map]
  by_cases hi : i = place
  · subst hi
    rw [hfile, List.getElem?_set_self (List.getElem?_eq_some_iff.1 hfile).1, Option.map_some,
      Option.map_some, hpath]
  · rw [List.getElem?_set_ne (Ne.symm hi)]

/-! ## Edits of one file -/

theorem applyEdit_cases {edit : ResolvedEdit} {returned : Bool}
    (h : applyEdit p buffer edit = some (buffer', returned)) :
    ∃ deleted, (deleted = buffer ∨ Buffer.Erased buffer deleted) ∧
      (buffer' = deleted ∨ Buffer.Inserted false deleted buffer') := by
  obtain ⟨result, hdelete, h⟩ := Option.bind_eq_some_iff.1 h
  cases result with
  | error message =>
      cases h
      exact ⟨buffer, Or.inl rfl, Or.inl rfl⟩
  | ok pair =>
      obtain ⟨deleted, text⟩ := pair
      have hdeleted := Buffer.deleteRange_spec hdelete
      obtain ⟨result, hinsert, h⟩ := Option.bind_eq_some_iff.1 h
      cases result with
      | error message =>
          cases h
          exact ⟨_, hdeleted, Or.inl rfl⟩
      | ok inserted =>
          cases h
          exact ⟨deleted, hdeleted, Buffer.insertAt_spec hinsert⟩

/-- What the edits of an open undo group leave of the recording they started with. -/
inductive InGroup (start buffer : Buffer) : Prop
  | clean (hrecording : buffer.toUndoRecording = { start.toUndoRecording with undoGroupDepth := 1 })
      (hstorage : buffer.storage = start.storage)
  | dirty (hrecording : buffer.toUndoRecording =
      { start.toUndoRecording with
        undoGroupDepth := 1, undoGroupDirty := true, canAmendLoadAppend := false })

theorem InGroup.edited {start : Buffer} {offset oldLength newLength : Nat} (h : InGroup start buffer)
    (hedited : Buffer.Edited false buffer buffer' offset oldLength newLength) :
    InGroup start buffer' := by
  obtain ⟨offsets, hrec⟩ := hedited.recording
  refine .dirty ?_
  cases h with
  | clean hrecording hstorage =>
      rw [hrecording] at hrec
      exact (Option.some.inj hrec).symm
  | dirty hrecording =>
      rw [hrecording] at hrec
      exact (Option.some.inj hrec).symm

theorem InGroup.applyEdit {start : Buffer} {edit : ResolvedEdit} {returned : Bool}
    (h : InGroup start buffer) (hedit : applyEdit p buffer edit = some (buffer', returned)) :
    InGroup start buffer' := by
  obtain ⟨deleted, hdeleted, hinserted⟩ := applyEdit_cases hedit
  have hmiddle : InGroup start deleted := by
    rcases hdeleted with rfl | ⟨_, _, _, hedited⟩
    · exact h
    · exact h.edited hedited
  rcases hinserted with rfl | ⟨_, _, _, _, hedited⟩
  · exact hmiddle
  · exact hmiddle.edited hedited

theorem applyEdit_follows {edit : ResolvedEdit} {returned : Bool} (hb : buffer.undoTree.Indexed)
    (h : applyEdit p buffer edit = some (buffer', returned)) :
    Follows False buffer.toUndoRecording buffer'.toUndoRecording := by
  obtain ⟨deleted, hdeleted, hinserted⟩ := applyEdit_cases h
  have hfirst : Follows False buffer.toUndoRecording deleted.toUndoRecording :=
    Buffer.Erased.follows hdeleted hb
  exact hfirst.trans ((Buffer.Inserted.follows hinserted hfirst.indexed).imp
    fun hamends => Bool.noConfusion hamends.1)

theorem InGroup.applyEdits {start : Buffer} {edits : List ResolvedEdit} {returned : Bool}
    (h : InGroup start buffer) (hedits : applyEdits p edits buffer = some (buffer', returned)) :
    InGroup start buffer' := by
  induction edits generalizing buffer with
  | nil =>
      cases hedits
      exact h
  | cons edit edits ih =>
      obtain ⟨⟨edited, more⟩, hedit, hedits⟩ := Option.bind_eq_some_iff.1 hedits
      cases more with
      | false =>
          cases hedits
          exact h.applyEdit hedit
      | true => exact ih (h.applyEdit hedit) hedits

theorem applyEdits_follows {edits : List ResolvedEdit} {returned : Bool}
    (hb : buffer.undoTree.Indexed) (hedits : applyEdits p edits buffer = some (buffer', returned)) :
    Follows False buffer.toUndoRecording buffer'.toUndoRecording := by
  induction edits generalizing buffer with
  | nil =>
      cases hedits
      exact .refl hb
  | cons edit edits ih =>
      obtain ⟨⟨edited, more⟩, hedit, hedits⟩ := Option.bind_eq_some_iff.1 hedits
      have hfollows := applyEdit_follows hb hedit
      cases more with
      | false =>
          cases hedits
          exact hfollows
      | true => exact hfollows.trans (ih hfollows.indexed hedits)

/-- A file before and after the edits of a transaction: its content is the state of its current node,
and the next keystroke is only amended if the edits changed nothing. -/
structure GroupEdited (file file' : OpenFile) : Prop where
  settled : file'.Settled
  amendable : file'.recording.Amendable →
    file'.recording.undoTree.currentSequence = file.recording.undoTree.currentSequence

theorem applyWorkspaceTextEdits_follows {edits : List ResolvedEdit} {returned : Bool}
    (hb : buffer.undoTree.Indexed)
    (h : applyWorkspaceTextEdits p buffer edits = some (buffer', returned)) :
    Follows False buffer.toUndoRecording buffer'.toUndoRecording := by
  obtain ⟨⟨edited, finished⟩, hedits, h⟩ := Option.bind_eq_some_iff.1 h
  have hbegin : Follows False buffer.toUndoRecording buffer.beginUndoGroup.toUndoRecording :=
    .of_tree hb rfl id
  have hfollows : Follows False buffer.beginUndoGroup.toUndoRecording edited.toUndoRecording :=
    applyEdits_follows hbegin.indexed hedits
  cases finished with
  | false =>
      cases h
      exact hbegin.trans hfollows
  | true =>
      obtain ⟨ended, hend, h⟩ := Option.bind_eq_some_iff.1 h
      obtain ⟨recording, hrecording, hend⟩ := Option.bind_eq_some_iff.1 hend
      cases hend
      cases h
      exact (hbegin.trans hfollows).trans (endUndoGroup_follows hfollows.indexed hrecording)

theorem applyWorkspaceTextEdits_groupEdited {edits : List ResolvedEdit} (hsettled : file.Settled)
    (hdepth : file.recording.undoGroupDepth = 0) (hdirty : file.recording.undoGroupDirty = false)
    (h : applyWorkspaceTextEdits p file.session.buffer edits = some (buffer', true)) :
    GroupEdited file (file.withBuffer buffer') := by
  obtain ⟨⟨edited, finished⟩, hedits, h⟩ := Option.bind_eq_some_iff.1 h
  cases finished with
  | false => cases h
  | true =>
      obtain ⟨ended, hend, h⟩ := Option.bind_eq_some_iff.1 h
      obtain ⟨recording, hrecording, hend⟩ := Option.bind_eq_some_iff.1 hend
      cases hend
      cases h
      have hbegin : InGroup file.session.buffer file.session.buffer.beginUndoGroup := by
        refine .clean ?_ rfl
        have hopen : file.session.buffer.undoGroupDepth = 0 := hdepth
        simp [Buffer.beginUndoGroup, beginUndoGroup, hopen]
      cases hbegin.applyEdits hedits with
      | clean hclean hstorage =>
          -- nothing was edited, so the group leaves no node
          have htree : edited.undoTree = file.recording.undoTree := congrArg (·.undoTree) hclean
          have hone : edited.undoGroupDepth = 1 := congrArg (·.undoGroupDepth) hclean
          have hclosed : edited.undoGroupDirty = false :=
            (congrArg (·.undoGroupDirty) hclean).trans hdirty
          rw [endUndoGroup_clean hone hclosed] at hrecording
          obtain ⟨state, hstate, hbytes⟩ := hsettled
          cases hrecording
          refine ⟨⟨state, (congrArg UndoTree.currentState htree).trans hstate, hbytes.trans ?_⟩,
            fun _ => congrArg UndoTree.currentSequence htree⟩
          exact congrArg Storage.bytes hstorage.symm
      | dirty hopen =>
          have hone : edited.undoGroupDepth = 1 := congrArg (·.undoGroupDepth) hopen
          have hedited : edited.undoGroupDirty = true := congrArg (·.undoGroupDirty) hopen
          have hcut : edited.canAmendLoadAppend = false := congrArg (·.canAmendLoadAppend) hopen
          obtain ⟨htree, hcan, hload⟩ := endUndoGroup_dirty hone hedited hrecording
          refine ⟨⟨edited.storage, (UndoTree.record_currentState htree).1, rfl⟩, fun hable => ?_⟩
          rcases hable with hable | hable
          · cases hcan.symm.trans hable
          · cases (hload.trans hcut).symm.trans hable

/-! ## Edits of several files -/

/-- Every file keeps its path, and its recording follows the one it had. -/
def FollowsAll (files files' : List OpenFile) : Prop :=
  List.Forall₂ (fun file file' : OpenFile =>
    file'.path = file.path ∧ Follows False file.recording file'.recording) files files'

theorem FollowsAll.refl (h : ∀ file ∈ files, file.recording.undoTree.Indexed) :
    FollowsAll files files :=
  List.forall₂_same.2 fun file hfile => ⟨rfl, .refl (h file hfile)⟩

theorem FollowsAll.trans {files'' : List OpenFile} (h : FollowsAll files files')
    (h' : FollowsAll files' files'') : FollowsAll files files'' := by
  induction h generalizing files'' with
  | nil => exact h'
  | cons hhead htail ih =>
      cases h' with
      | cons hhead' htail' =>
          exact .cons ⟨hhead'.1.trans hhead.1, hhead.2.trans hhead'.2⟩ (ih htail')

theorem FollowsAll.set (h : ∀ file ∈ files, file.recording.undoTree.Indexed)
    (hfile : files[place]? = some file) (hpath : file'.path = file.path)
    (hfollows : Follows False file.recording file'.recording) :
    FollowsAll files (files.set place file') := by
  induction files generalizing place with
  | nil => cases hfile
  | cons first files ih =>
      obtain ⟨hfirst, hrest⟩ := List.forall_mem_cons.1 h
      cases place with
      | zero =>
          cases hfile
          exact .cons ⟨hpath, hfollows⟩ (FollowsAll.refl hrest)
      | succ place => exact .cons ⟨rfl, Follows.refl hfirst⟩ (ih hrest hfile)

theorem FollowsAll.indexed (h : FollowsAll files files') :
    ∀ file ∈ files', file.recording.undoTree.Indexed := by
  induction h with
  | nil => exact fun file hfile => by cases hfile
  | cons hhead _ ih => exact List.forall_mem_cons.2 ⟨hhead.2.indexed, ih⟩

theorem FollowsAll.paths (h : FollowsAll files files') :
    files'.map (·.path) = files.map (·.path) := by
  induction h with
  | nil => rfl
  | cons hhead _ ih => rw [List.map_cons, List.map_cons, hhead.1, ih]

theorem FollowsAll.exists_file (h : FollowsAll files files') (hfile' : files'[place]? = some file') :
    ∃ file, files[place]? = some file ∧ Follows False file.recording file'.recording := by
  obtain ⟨hlt, rfl⟩ := List.getElem?_eq_some_iff.1 hfile'
  have hlt' : place < files.length := h.length_eq ▸ hlt
  exact ⟨files[place], List.getElem?_eq_getElem hlt', (h.get hlt' hlt).2⟩

theorem applyProjectEdit_cons {edits : List ResolvedEdit} {rest : List (Nat × List ResolvedEdit)}
    {recorded : Option (List ProjectUndoRecord)}
    (h : applyProjectEdit p ((place, edits) :: rest) files = some (files', recorded)) :
    ∃ file beforeSequence buffer returned, files[place]? = some file ∧
      file.recording.undoTree.currentSequence = some beforeSequence ∧
      applyWorkspaceTextEdits p file.session.buffer edits = some (buffer, returned) ∧
      ((returned = false ∧ files' = files.set place (file.withBuffer buffer) ∧ recorded = none) ∨
        ∃ afterSequence recorded', returned = true ∧
          buffer.undoTree.currentSequence = some afterSequence ∧
          applyProjectEdit p rest (files.set place (file.withBuffer buffer)) =
            some (files', recorded') ∧
          recorded = recorded'.map (recordOf file beforeSequence afterSequence ++ ·)) := by
  obtain ⟨file, hfile, h⟩ := Option.bind_eq_some_iff.1 h
  obtain ⟨beforeSequence, hbefore, h⟩ := Option.bind_eq_some_iff.1 h
  obtain ⟨⟨buffer, returned⟩, hedits, h⟩ := Option.bind_eq_some_iff.1 h
  refine ⟨file, beforeSequence, buffer, returned, hfile, hbefore, hedits, ?_⟩
  cases returned with
  | false =>
      cases h
      exact Or.inl ⟨rfl, rfl, rfl⟩
  | true =>
      obtain ⟨afterSequence, hafter, h⟩ := Option.bind_eq_some_iff.1 h
      obtain ⟨⟨files'', recorded'⟩, hrest, h⟩ := Option.bind_eq_some_iff.1 h
      cases h
      exact Or.inr ⟨afterSequence, recorded', rfl, hafter, hrest, rfl⟩

theorem applyProjectEdit_follows {perBufferEdits : List (Nat × List ResolvedEdit)}
    {recorded : Option (List ProjectUndoRecord)}
    (hindexed : ∀ file ∈ files, file.recording.undoTree.Indexed)
    (h : applyProjectEdit p perBufferEdits files = some (files', recorded)) :
    FollowsAll files files' := by
  induction perBufferEdits generalizing files recorded with
  | nil =>
      cases h
      exact .refl hindexed
  | cons edits rest ih =>
      obtain ⟨place, edits⟩ := edits
      obtain ⟨file, beforeSequence, buffer, returned, hfile, -, hedits, hrest⟩ :=
        applyProjectEdit_cons h
      have hfirst : FollowsAll files (files.set place (file.withBuffer buffer)) := by
        refine .set hindexed hfile rfl ?_
        exact applyWorkspaceTextEdits_follows (hindexed file (List.mem_of_getElem? hfile)) hedits
      rcases hrest with ⟨-, rfl, -⟩ | ⟨afterSequence, recorded', -, -, hrest, -⟩
      · exact hfirst
      · exact hfirst.trans (ih hfirst.indexed hrest)

theorem applyProjectEdit_other {perBufferEdits : List (Nat × List ResolvedEdit)}
    {recorded : Option (List ProjectUndoRecord)}
    (h : applyProjectEdit p perBufferEdits files = some (files', recorded))
    (hplace : place ∉ perBufferEdits.map (·.1)) : files'[place]? = files[place]? := by
  induction perBufferEdits generalizing files recorded with
  | nil =>
      cases h
      rfl
  | cons edits rest ih =>
      obtain ⟨edited, edits⟩ := edits
      rw [List.map_cons, List.mem_cons, not_or] at hplace
      obtain ⟨file, beforeSequence, buffer, returned, -, -, -, hrest⟩ := applyProjectEdit_cons h
      have hother := List.getElem?_set_ne (l := files) (a := file.withBuffer buffer)
        (Ne.symm hplace.1)
      rcases hrest with ⟨-, rfl, -⟩ | ⟨afterSequence, recorded', -, -, hrest, -⟩
      · exact hother
      · exact (ih hrest hplace.2).trans hother

/-- A record and what is held of its file, as a transaction makes them. -/
structure Recorded (files files' : List OpenFile) (trees : List Nat) (place : Nat)
    (record : ProjectUndoRecord) (held : Held) : Prop where
  tree : trees[place]? = some held.tree
  file : ∃ file file', files[place]? = some file ∧ files'[place]? = some file' ∧
    file.path = some record.path ∧
    file.recording.undoTree.currentSequence = some record.beforeSequence ∧
    file'.recording.undoTree.currentSequence = some record.afterSequence ∧
    held.before = file.content ∧ held.after = file'.content ∧ GroupEdited file file'

theorem held_congr {chronicle : Chronicle} {files'' : List OpenFile}
    (h : files''[place]? = files[place]?) :
    chronicle.held files'' files' place = chronicle.held files files' place := by
  rw [Chronicle.held, Chronicle.held, h]

theorem held_eq {chronicle : Chronicle} {tree : Nat} (hfile : files[place]? = some file)
    (hfile' : files'[place]? = some file') (htree : chronicle.trees[place]? = some tree) :
    chronicle.held files files' place = (file.path.map fun _ =>
      { tree := tree, before := file.content, after := file'.content : Held }).toList := by
  rw [Chronicle.held, hfile, hfile', htree]
  cases hpath : file.path <;> simp [hpath]

theorem applyProjectEdit_recorded {perBufferEdits : List (Nat × List ResolvedEdit)}
    (chronicle : Chronicle) (hlength : chronicle.trees.length = files.length)
    (hdistinct : DistinctKeys pathKey files)
    (hindexed : ∀ file ∈ files, file.recording.undoTree.Indexed)
    (hclosed : EditsClosed files perBufferEdits)
    (h : applyProjectEdit p perBufferEdits files = some (files', some records)) :
    List.Forall₂ (fun record held => ∃ place ∈ perBufferEdits.map (·.1),
        Recorded files files' chronicle.trees place record held) records
      (perBufferEdits.flatMap fun edits => chronicle.held files files' edits.1) ∧
    (records.map fun record => pathKey record.path).Nodup := by
  induction perBufferEdits generalizing files records with
  | nil =>
      cases h
      exact ⟨.nil, List.nodup_nil⟩
  | cons edits rest ih =>
      obtain ⟨place, edits⟩ := edits
      obtain ⟨hnodup, hall⟩ := hclosed
      rw [List.map_cons, List.nodup_cons] at hnodup
      obtain ⟨file, beforeSequence, buffer, returned, hfile, hbefore, hedits, hrest⟩ :=
        applyProjectEdit_cons h
      rcases hrest with ⟨-, -, hnone⟩ | ⟨afterSequence, recorded', rfl, hafter, hrest, hrecords⟩
      · cases hnone
      · obtain ⟨rest', rfl, rfl⟩ := Option.map_eq_some_iff.1 hrecords.symm
        have hin : place < files.length := (List.getElem?_eq_some_iff.1 hfile).1
        have hother : ∀ {other : Nat}, other ∈ rest.map (·.1) →
            (files.set place (file.withBuffer buffer))[other]? = files[other]? := by
          intro other hmem
          refine List.getElem?_set_ne fun heq => hnodup.1 ?_
          subst heq
          exact hmem
        have hfollows : FollowsAll files (files.set place (file.withBuffer buffer)) := by
          refine .set hindexed hfile rfl ?_
          exact applyWorkspaceTextEdits_follows (hindexed file (List.mem_of_getElem? hfile)) hedits
        have hclosed' : EditsClosed (files.set place (file.withBuffer buffer)) rest := by
          refine ⟨hnodup.2, fun later hlater file' hfile' => ?_⟩
          rw [hother (List.mem_map_of_mem hlater)] at hfile'
          exact hall later (List.mem_cons_of_mem _ hlater) file' hfile'
        have hdistinct' : DistinctKeys pathKey (files.set place (file.withBuffer buffer)) := by
          rw [DistinctKeys, hfollows.paths]
          exact hdistinct
        obtain ⟨hforall, hkeys⟩ := ih (hlength.trans List.length_set.symm) hdistinct'
          hfollows.indexed hclosed' hrest
        have hedited : files'[place]? = some (file.withBuffer buffer) :=
          (applyProjectEdit_other hrest hnodup.1).trans (List.getElem?_set_self hin)
        have hgroup : GroupEdited file (file.withBuffer buffer) := by
          obtain ⟨hsettled, hdepth, hdirty⟩ := hall _ List.mem_cons_self file hfile
          exact applyWorkspaceTextEdits_groupEdited hsettled hdepth hdirty hedits
        have hlater : List.Forall₂ (fun record held => ∃ place ∈ rest.map (·.1),
            Recorded files files' chronicle.trees place record held) rest'
            (rest.flatMap fun edits => chronicle.held files files' edits.1) := by
          have hheld : (rest.flatMap fun edits => chronicle.held files files' edits.1) =
              rest.flatMap fun edits => chronicle.held (files.set place (file.withBuffer buffer))
                files' edits.1 :=
            List.flatMap_congr fun later hlater =>
              (held_congr (hother (List.mem_map_of_mem hlater))).symm
          rw [hheld]
          refine hforall.imp fun record held hrecorded => ?_
          obtain ⟨other, hmem, htree, hfiles⟩ := hrecorded
          rw [hother hmem] at hfiles
          exact ⟨other, hmem, htree, hfiles⟩
        have htree : chronicle.trees[place]? = some (chronicle.trees.get ⟨place, hlength ▸ hin⟩) :=
          List.getElem?_eq_getElem _
        rw [List.flatMap_cons, held_eq hfile hedited htree, recordOf]
        cases hpath : file.path with
        | none =>
            refine ⟨hlater.imp fun record held hrecorded => ?_, hkeys⟩
            obtain ⟨other, hmem, hrecorded⟩ := hrecorded
            exact ⟨other, List.mem_cons_of_mem _ hmem, hrecorded⟩
        | some path =>
            refine ⟨.cons ⟨place, List.mem_cons_self, htree, file, _, hfile, hedited, hpath, hbefore,
              hafter, rfl, rfl, hgroup⟩ (hlater.imp fun record held hrecorded => ?_),
              List.nodup_cons.2 ⟨fun hmem => ?_, hkeys⟩⟩
            · obtain ⟨other, hmem, hrecorded⟩ := hrecorded
              exact ⟨other, List.mem_cons_of_mem _ hmem, hrecorded⟩
            · obtain ⟨record, hrecord, hkey⟩ := List.mem_map.1 hmem
              obtain ⟨held, -, other, hmem, hrecorded⟩ := exists_of_forall₂ hlater hrecord
              obtain ⟨file', file'', hfile', -, hpath', -⟩ := hrecorded.file
              have hfirst : file.path.map pathKey = some (pathKey path) := by rw [hpath]; rfl
              have hsecond : file'.path.map pathKey = some (pathKey path) := by
                rw [hpath']
                exact congrArg some hkey
              refine hnodup.1 ?_
              rw [hdistinct.eq hfile hfile' hfirst hsecond]
              exact hmem

/-! ## Rolling a record -/

section Rolling

variable {expected target : ProjectUndoRecord → Nat} {source destination : Held → Bytes}

theorem rollRecord_cases
    (h : rollRecord p pathKey expected target record files outcome = some (files', outcome')) :
    (files' = files ∧ outcome' = outcome.diverge (recordName pathKey files record)) ∨
      ∃ place file buffer tree, findByPath pathKey files record.path = some place ∧
        files[place]? = some file ∧
        file.recording.undoTree.currentSequence = some (expected record) ∧
        file.recording.undoTree.hasSequence (target record) = true ∧
        file.recording.undoTree.jumpTo (target record) = some (tree, true) ∧
        file.session.buffer.navigate p tree = some buffer ∧
        files' = files.set place (file.withBuffer buffer) ∧
        outcome' = { outcome with appliedCount := outcome.appliedCount + 1 } := by
  unfold rollRecord at h
  unfold recordName
  split at h
  · rename_i hnone
    cases h
    rw [hnone]
    exact Or.inl ⟨rfl, rfl⟩
  · rename_i place hplace
    obtain ⟨file, hfile, h⟩ := Option.bind_eq_some_iff.1 h
    obtain ⟨current, hcurrent, h⟩ := Option.bind_eq_some_iff.1 h
    rw [hplace, Option.bind_some, hfile]
    split at h
    · cases h
      exact Or.inl ⟨rfl, rfl⟩
    · rename_i hsame
      rw [ne_eq, not_not] at hsame
      subst hsame
      obtain ⟨⟨buffer, moved⟩, hjump, h⟩ := Option.bind_eq_some_iff.1 h
      rcases Buffer.tryJumpToUndoSequence_cases hjump with ⟨rfl, -, rfl⟩ | ⟨rfl, hhas, tree, htree, hb⟩
      · cases h
        refine Or.inl ⟨?_, rfl⟩
        obtain ⟨hlt, rfl⟩ := List.getElem?_eq_some_iff.1 hfile
        exact List.set_getElem_self hlt
      · cases h
        exact Or.inr ⟨place, file, buffer, tree, rfl, hfile, hcurrent, hhas, htree, hb, rfl, rfl⟩

/-- What the buffers that have a record's undo tree know of it. -/
def KnownAt (files : List OpenFile) (trees : List Nat) (record : ProjectUndoRecord) (held : Held) :
    Prop :=
  ∀ (place : Nat) (file : OpenFile), files[place]? = some file → trees[place]? = some held.tree →
    KnownIn file.recording record held

theorem KnownAt.follows_all (h : KnownAt files trees record held) (hfiles : FollowsAll files files') :
    KnownAt files' trees record held := by
  intro place file' hfile' htree
  obtain ⟨file, hfile, hfollows⟩ := hfiles.exists_file hfile'
  exact (h place file hfile htree).follows_false hfollows

theorem rollRecord_rolled (hindexed : ∀ file ∈ files, file.recording.undoTree.Indexed)
    (hsource : ∀ {r}, KnownIn r record held →
      ∃ state, r.undoTree.stateAt (expected record) = some state ∧ state.bytes = source held)
    (hdestination : ∀ {r}, KnownIn r record held →
      ∃ state, r.undoTree.stateAt (target record) = some state ∧ state.bytes = destination held)
    (hknown : KnownAt files trees record held)
    (hrecognised : Recognised pathKey files trees expected target record held)
    (h : rollRecord p pathKey expected target record files outcome = some (files', outcome')) :
    (files' = files ∧ outcome' = outcome.diverge (recordName pathKey files record)) ∨
      ∃ place file file', findByPath pathKey files record.path = some place ∧
        files[place]? = some file ∧ file'.path = file.path ∧ trees[place]? = some held.tree ∧
        file.content = source held ∧ file'.content = destination held ∧
        Follows False file.recording file'.recording ∧ files' = files.set place file' ∧
        outcome' = { outcome with appliedCount := outcome.appliedCount + 1 } := by
  rcases rollRecord_cases h with hsame | ⟨place, file, buffer, tree, hplace, hfile, hcurrent, hhas,
    hjump, hbuffer, rfl, rfl⟩
  · exact Or.inl hsame
  · right
    have hfileIndexed := hindexed file (List.mem_of_getElem? hfile)
    obtain ⟨htree, state, hstate, hbytes⟩ := hrecognised place file hplace hfile hcurrent hhas
    have hin := hknown place file hfile htree
    obtain ⟨hsame, hat⟩ := UndoTree.jumpTo_eq_some hjump
    have hrestored := Buffer.navigate_spec hbuffer
    obtain ⟨kept, hkept, hkeptBytes⟩ := hsource hin
    obtain ⟨reached, hreached, hreachedBytes⟩ := hdestination hin
    refine ⟨place, file, file.withBuffer buffer, hplace, hfile, rfl, htree, ?_, ?_,
      hrestored.follows hfileIndexed hsame, rfl, rfl⟩
    · -- the current state is the one that the expected sequence stands for
      cases hkept.symm.trans (hfileIndexed.stateAt_current hcurrent hstate)
      exact hbytes.symm.trans hkeptBytes
    · have hcontent : tree.currentState = some buffer.storage := hrestored.current
      cases hcontent.symm.trans (hat hreached)
      exact hreachedBytes

theorem Recognised.set {other : ProjectUndoRecord}
    (h : Recognised pathKey files trees expected target record held)
    (hplace : findByPath pathKey files other.path = some place) (hfile : files[place]? = some file)
    (hpath : file'.path = file.path) (hkey : pathKey other.path ≠ pathKey record.path) :
    Recognised pathKey (files.set place file') trees expected target record held := by
  intro found foundFile hfound hfoundFile
  rw [findByPath_congr (set_paths hfile hpath)] at hfound
  have hne : place ≠ found := by
    rintro rfl
    obtain ⟨one, hone, honeKey⟩ := findByPath_eq_some hplace
    obtain ⟨two, htwo, htwoKey⟩ := findByPath_eq_some hfound
    cases hone.symm.trans htwo
    exact hkey (Option.some.inj (honeKey.symm.trans htwoKey))
  rw [List.getElem?_set_ne hne] at hfoundFile
  exact h found foundFile hfound hfoundFile

theorem rollRecords_rolled (hindexed : ∀ file ∈ files, file.recording.undoTree.Indexed)
    (hsource : ∀ {r record held}, KnownIn r record held →
      ∃ state, r.undoTree.stateAt (expected record) = some state ∧ state.bytes = source held)
    (hdestination : ∀ {r record held}, KnownIn r record held →
      ∃ state, r.undoTree.stateAt (target record) = some state ∧ state.bytes = destination held)
    (hkeys : (records.map fun record => pathKey record.path).Nodup)
    (hknown : List.Forall₂ (KnownAt files trees) records helds)
    (hrecognised : List.Forall₂ (Recognised pathKey files trees expected target) records helds)
    (h : rollRecords p pathKey expected target records files outcome = some (files', outcome')) :
    FollowsAll files files' ∧ outcome'.totalCount = outcome.totalCount ∧ ∃ names,
      Rolled pathKey trees source destination records helds files files' names ∧
      outcome'.divergedNames = outcome.divergedNames ++ names ∧
      outcome'.appliedCount + names.length = outcome.appliedCount + records.length := by
  induction records generalizing helds files outcome with
  | nil =>
      cases hknown
      cases h
      exact ⟨.refl hindexed, rfl, [], .done, (List.append_nil _).symm, rfl⟩
  | cons record records ih =>
      cases hknown with
      | @cons _ held _ helds hknown hknowns =>
      cases hrecognised with
      | cons hrecognised hrecogniseds =>
      rw [List.map_cons, List.nodup_cons] at hkeys
      obtain ⟨⟨files₁, outcome₁⟩, hfirst, h⟩ := Option.bind_eq_some_iff.1 h
      rcases rollRecord_rolled hindexed hsource hdestination hknown hrecognised hfirst with
        ⟨rfl, rfl⟩ | ⟨place, file, file', hplace, hfile, hpath, htree, hcontent, hcontent', hfollows,
          rfl, rfl⟩
      · obtain ⟨hfiles, htotal, names, hrolled, hnames, hcount⟩ :=
          ih hindexed hkeys.2 hknowns hrecogniseds h
        refine ⟨hfiles, htotal, _, .diverged hrolled, ?_, ?_⟩
        · rw [hnames, ProjectUndoOutcome.diverge, List.append_assoc, List.singleton_append]
        · rw [List.length_cons, List.length_cons, ← Nat.add_assoc, ← Nat.add_assoc, hcount]
          rfl
      · have hset : FollowsAll files (files.set place file') := .set hindexed hfile hpath hfollows
        have hothers : List.Forall₂ (Recognised pathKey (files.set place file') trees expected target)
            records helds := by
          refine List.forall₂_iff_zip.2 ⟨hrecogniseds.length_eq, fun {other held} hmem => ?_⟩
          have hother := (List.forall₂_iff_zip.1 hrecogniseds).2 hmem
          refine hother.set hplace hfile hpath fun hkey => hkeys.1 ?_
          rw [hkey]
          exact List.mem_map_of_mem (List.of_mem_zip hmem).1
        obtain ⟨hfiles, htotal, names, hrolled, hnames, hcount⟩ := ih hset.indexed hkeys.2
          (hknowns.imp fun record held hat => hat.follows_all hset) hothers h
        refine ⟨hset.trans hfiles, htotal, names,
          .applied hplace hfile hpath htree hcontent hcontent' hrolled, hnames, ?_⟩
        rw [hcount, List.length_cons, Nat.add_assoc, Nat.add_comm 1]

end Rolling

end Ned.Editor.Project
