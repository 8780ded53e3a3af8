import Ned.Editor.Project.Lemmas.Undo

/-!
# Theorems about project-wide undo

In a run in which no record's numbers fit another undo tree, an undo and a redo only move files
between the two contents of a transaction.
-/

namespace Ned.Editor.Project

open Library (run Admissible run_invariant_of_admissible)
open Text Text.UndoRecording

variable {p : Platform} {pathKey : Path → Path} {files files' : List OpenFile} {file file' : OpenFile}
  {trees trees' : List Nat} {nextTree nextTree' place : Nat} {watched watched' : Watched}

/-! ## The invariant -/

/-- The records of a transaction are of different files, and their sequences stand for what is held. -/
structure TransactionKnown (pathKey : Path → Path) (files : List OpenFile) (trees : List Nat)
    (nextTree : Nat) (transaction : ProjectEditTransaction) (helds : List Held) : Prop where
  keys : (transaction.records.map fun record => pathKey record.path).Nodup
  known : List.Forall₂ (fun record held => held.tree < nextTree ∧ KnownAt files trees record held)
    transaction.records helds

/-- `TransactionKnown` of each transaction of a stack. -/
def StackKnown (pathKey : Path → Path) (files : List OpenFile) (trees : List Nat) (nextTree : Nat)
    (transactions : List ProjectEditTransaction) (helds : List (List Held)) : Prop :=
  List.Forall₂ (TransactionKnown pathKey files trees nextTree) transactions helds

/-- Every open buffer has an undo tree of its own, and both stacks are known. -/
structure Consistent (pathKey : Path → Path) (watched : Watched) : Prop where
  length : watched.chronicle.trees.length = watched.workspace.files.length
  nodup : watched.chronicle.trees.Nodup
  fresh : ∀ tree ∈ watched.chronicle.trees, tree < watched.chronicle.nextTree
  indexed : ∀ file ∈ watched.workspace.files, file.recording.undoTree.Indexed
  distinct : DistinctKeys pathKey watched.workspace.files
  undone : StackKnown pathKey watched.workspace.files watched.chronicle.trees
    watched.chronicle.nextTree watched.workspace.undoStack watched.chronicle.undoStack
  redone : StackKnown pathKey watched.workspace.files watched.chronicle.trees
    watched.chronicle.nextTree watched.workspace.redoStack watched.chronicle.redoStack

theorem consistent_start (pathKey : Path → Path) : Consistent pathKey {} :=
  ⟨rfl, List.nodup_nil, (fun _ h => by cases h), (fun _ h => by cases h), List.Pairwise.nil,
    List.Forall₂.nil, List.Forall₂.nil⟩

theorem StackKnown.imp {transactions : List ProjectEditTransaction} {helds : List (List Held)}
    (h : StackKnown pathKey files trees nextTree transactions helds) (hnext : nextTree ≤ nextTree')
    (himp : ∀ pair ∈ pairs transactions helds, pair.2.tree < nextTree →
      KnownAt files trees pair.1 pair.2 → KnownAt files' trees' pair.1 pair.2) :
    StackKnown pathKey files' trees' nextTree' transactions helds := by
  induction h with
  | nil => exact .nil
  | @cons transaction held transactions helds hfirst hrest ih =>
      have hpairs : pairs (transaction :: transactions) (held :: helds) =
          transaction.records.zip held ++ pairs transactions helds := by
        simp [pairs]
      rw [hpairs] at himp
      obtain ⟨hhere, hlater⟩ := List.forall_mem_append.1 himp
      refine .cons ⟨hfirst.keys, ?_⟩ (ih hlater)
      refine List.forall₂_iff_zip.2 ⟨hfirst.known.length_eq, fun {record kept} hmem => ?_⟩
      obtain ⟨hlt, hat⟩ := (List.forall₂_iff_zip.1 hfirst.known).2 hmem
      exact ⟨Nat.lt_of_lt_of_le hlt hnext, hhere (record, kept) hmem hlt hat⟩

theorem StackKnown.follows_all {transactions : List ProjectEditTransaction} {helds : List (List Held)}
    (h : StackKnown pathKey files trees nextTree transactions helds)
    (hfiles : FollowsAll files files') :
    StackKnown pathKey files' trees nextTree transactions helds :=
  h.imp (Nat.le_refl _) fun _ _ _ hat => hat.follows_all hfiles

/-! ## What each event keeps -/

theorem indexed_source (name : String) (source : Source) :
    (source.buffer name).undoTree.Indexed := by
  cases source <;> exact UndoTree.indexed_ofState _

theorem findByPath_eq_none {path : Path} (h : findByPath pathKey files path = none) :
    ∀ file ∈ files, file.path.map pathKey ≠ some (pathKey path) := by
  intro file hfile heq
  have hnot := List.findIdx?_eq_none_iff.1 h file hfile
  rw [heq, beq_self_eq_true] at hnot
  cases hnot

theorem Consistent.append {workspace : Workspace} {chronicle : Chronicle} {opened : OpenFile}
    (h : Consistent pathKey { workspace := workspace, chronicle := chronicle })
    (hindexed : opened.recording.undoTree.Indexed)
    (hclosed : ∀ path, opened.path = some path → findByPath pathKey workspace.files path = none) :
    Consistent pathKey
      { workspace := { workspace with files := workspace.files ++ [opened] }
        chronicle := { chronicle with
          trees := chronicle.trees ++ [chronicle.nextTree], nextTree := chronicle.nextTree + 1 } } := by
  have hlength : chronicle.trees.length = workspace.files.length := h.length
  have hat : ∀ {record held}, held.tree < chronicle.nextTree →
      KnownAt workspace.files chronicle.trees record held →
      KnownAt (workspace.files ++ [opened]) (chronicle.trees ++ [chronicle.nextTree]) record held := by
    intro record held hlt hat place file hfile htree
    rcases Nat.lt_trichotomy place workspace.files.length with hless | rfl | hmore
    · rw [List.getElem?_append_left hless] at hfile
      rw [List.getElem?_append_left (hlength ▸ hless)] at htree
      exact hat place file hfile htree
    · rw [← hlength, List.getElem?_concat_length] at htree
      exact absurd (Option.some.inj htree).symm (Nat.ne_of_lt hlt)
    · rw [List.getElem?_eq_none (by rw [List.length_append]; exact hmore)] at hfile
      cases hfile
  refine ⟨?_, ?_, ?_, ?_, ?_, ?_, ?_⟩
  · simp [hlength]
  · refine List.nodup_append.2 ⟨h.nodup, by simp, ?_⟩
    rintro tree htree other hother rfl
    cases List.mem_singleton.1 hother
    exact Nat.lt_irrefl _ (h.fresh _ htree)
  · refine List.forall_mem_append.2 ⟨fun tree htree => Nat.lt_succ_of_lt (h.fresh tree htree), ?_⟩
    simp
  · refine List.forall_mem_append.2 ⟨h.indexed, ?_⟩
    simpa using hindexed
  · rw [DistinctKeys, List.map_append, List.pairwise_append]
    refine ⟨h.distinct, List.pairwise_singleton _ _, ?_⟩
    intro found hfound other hother key hkey hkey'
    obtain ⟨file, hfile, rfl⟩ := List.mem_map.1 hfound
    cases List.mem_singleton.1 hother
    obtain ⟨path, hpath, rfl⟩ := Option.map_eq_some_iff.1 hkey'
    exact findByPath_eq_none (hclosed path hpath) file hfile hkey
  · exact h.undone.imp (Nat.le_succ _) fun _ _ => hat
  · exact h.redone.imp (Nat.le_succ _) fun _ _ => hat

theorem Consistent.openFile (h : Consistent pathKey watched) (path : Option Path) (name : String)
    (source : Source) (hstep : watched.step p pathKey (.openFile path name source) = some watched') :
    Consistent pathKey watched' := by
  cases hstep
  by_cases hopen : (path.bind (findByPath pathKey watched.workspace.files)).isSome = true
  · have hfiles : openFile pathKey watched.workspace.files path name source =
        watched.workspace.files := if_pos hopen
    simp only [Chronicle.step, hfiles, if_true]
    exact h
  · have hfiles : ∃ opened : OpenFile, opened.path = path ∧ opened.recording.undoTree.Indexed ∧
        openFile pathKey watched.workspace.files path name source =
          watched.workspace.files ++ [opened] :=
      ⟨{ path := path, session := .ofBuffer (source.buffer name) }, rfl,
        indexed_source name source, if_neg hopen⟩
    obtain ⟨opened, rfl, hindexed, hfiles⟩ := hfiles
    have hgrows : (watched.workspace.files ++ [opened]).length ≠ watched.workspace.files.length := by
      simp
    simp only [Chronicle.step, hfiles, if_neg hgrows]
    refine h.append hindexed fun path hpath => ?_
    simpa [hpath] using hopen

theorem Consistent.closeFile (h : Consistent pathKey watched) (place : Nat)
    (hstep : watched.step p pathKey (.closeFile place) = some watched') :
    Consistent pathKey watched' := by
  cases hstep
  have hat : ∀ {record held}, held.tree < watched.chronicle.nextTree →
      KnownAt watched.workspace.files watched.chronicle.trees record held →
      KnownAt (watched.workspace.files.eraseIdx place) (watched.chronicle.trees.eraseIdx place)
        record held := by
    intro record held _ hat found file hfile htree
    rw [List.getElem?_eraseIdx] at hfile htree
    split at hfile
    · rename_i hlt
      rw [if_pos hlt] at htree
      exact hat _ _ hfile htree
    · rename_i hlt
      rw [if_neg hlt] at htree
      exact hat _ _ hfile htree
  refine ⟨?_, ?_, ?_, ?_, ?_, ?_, ?_⟩
  · simp only [Chronicle.step]
    rw [List.length_eraseIdx, List.length_eraseIdx, h.length]
  · exact (List.eraseIdx_sublist _ _).nodup h.nodup
  · exact fun tree htree => h.fresh tree ((List.eraseIdx_sublist _ _).subset htree)
  · exact fun file hfile => h.indexed file ((List.eraseIdx_sublist _ _).subset hfile)
  · exact h.distinct.sublist ((List.eraseIdx_sublist _ _).map _)
  · exact h.undone.imp (Nat.le_refl _) fun _ _ => hat
  · exact h.redone.imp (Nat.le_refl _) fun _ _ => hat

/-- An operation that replaces the undo tree leaves one whose sequences name its nodes. -/
theorem step_replaces {s s' : Session} {operation : Operation}
    (hop : s.replacesUndoTree operation = true) (h : s.step p operation = some s') :
    s'.buffer.undoTree.Indexed := by
  cases operation with
  | finishLoad content detectedEnding charset =>
      obtain ⟨b, hb, rfl⟩ := Session.update_eq_some h
      obtain ⟨storage, -, hb⟩ := Option.bind_eq_some_iff.1 hb
      cases hb
      exact UndoTree.indexed_ofState storage
  | restoreUndoTree nodes currentId =>
      have hrestored : ∃ b, s.buffer.restoreUndoTree nodes currentId = some (.ok b) := by
        simp only [Session.replacesUndoTree] at hop
        split at hop
        · exact ⟨_, by assumption⟩
        · cases hop
      obtain ⟨b, hb⟩ := hrestored
      simp only [Session.step, hb] at h
      cases h
      obtain ⟨result, hresult, hb⟩ := Option.bind_eq_some_iff.1 hb
      cases result with
      | error message => cases hb
      | ok tree =>
          obtain ⟨current, -, hb⟩ := Option.bind_eq_some_iff.1 hb
          split at hb
          · cases hb
            exact UndoTree.indexed_deserialize hresult
          · cases hb
  | _ => cases hop

theorem mayAmend_amendable {s : Session} {operation : Operation}
    (h : s.mayAmend operation = true) : s.buffer.Amendable := by
  cases operation with
  | insertAtPoint text => exact Or.inl h
  | appendHugeLoadChunk fragment => exact Or.inr h
  | _ => cases h

theorem Consistent.set {workspace : Workspace} {chronicle : Chronicle}
    (h : Consistent pathKey { workspace := workspace, chronicle := chronicle })
    (hfile : workspace.files[place]? = some file) (hpath : file'.path = file.path)
    (hindexed : file'.recording.undoTree.Indexed)
    (hknown : ∀ pair ∈ Watched.pending { workspace := workspace, chronicle := chronicle },
      chronicle.trees[place]? = some pair.2.tree → KnownIn file.recording pair.1 pair.2 →
      KnownIn file'.recording pair.1 pair.2) :
    Consistent pathKey
      { workspace := { workspace with files := workspace.files.set place file' }
        chronicle := chronicle } := by
  have hat : ∀ pair ∈ Watched.pending { workspace := workspace, chronicle := chronicle },
      KnownAt workspace.files chronicle.trees pair.1 pair.2 →
      KnownAt (workspace.files.set place file') chronicle.trees pair.1 pair.2 := by
    intro pair hpair hat found foundFile hfound htree
    by_cases heq : place = found
    · subst heq
      rw [List.getElem?_set_self (List.getElem?_eq_some_iff.1 hfile).1] at hfound
      cases hfound
      exact hknown pair hpair htree (hat place file hfile htree)
    · rw [List.getElem?_set_ne heq] at hfound
      exact hat found foundFile hfound htree
  refine ⟨?_, h.nodup, h.fresh, ?_, ?_, ?_, ?_⟩
  · exact h.length.trans List.length_set.symm
  · intro found hfound
    rcases List.mem_or_eq_of_mem_set hfound with hfound | rfl
    · exact h.indexed found hfound
    · exact hindexed
  · rw [DistinctKeys, set_paths hfile hpath]
    exact h.distinct
  · exact h.undone.imp (Nat.le_refl _) fun pair hpair _ =>
      hat pair (List.mem_append_left _ hpair)
  · exact h.redone.imp (Nat.le_refl _) fun pair hpair _ =>
      hat pair (List.mem_append_right _ hpair)

theorem Consistent.replace {workspace : Workspace} {chronicle : Chronicle}
    (h : Consistent pathKey { workspace := workspace, chronicle := chronicle })
    (hfile : workspace.files[place]? = some file) (hpath : file'.path = file.path)
    (hindexed : file'.recording.undoTree.Indexed) :
    Consistent pathKey
      { workspace := { workspace with files := workspace.files.set place file' }
        chronicle := { chronicle with
          trees := chronicle.trees.set place chronicle.nextTree
          nextTree := chronicle.nextTree + 1 } } := by
  have hlength : chronicle.trees.length = workspace.files.length := h.length
  have hin : place < workspace.files.length := (List.getElem?_eq_some_iff.1 hfile).1
  have hat : ∀ {record held}, held.tree < chronicle.nextTree →
      KnownAt workspace.files chronicle.trees record held →
      KnownAt (workspace.files.set place file') (chronicle.trees.set place chronicle.nextTree)
        record held := by
    intro record held hlt hat found foundFile hfound htree
    by_cases heq : place = found
    · subst heq
      rw [List.getElem?_set_self (hlength ▸ hin)] at htree
      exact absurd (Option.some.inj htree).symm (Nat.ne_of_lt hlt)
    · rw [List.getElem?_set_ne heq] at hfound htree
      exact hat found foundFile hfound htree
  refine ⟨?_, ?_, ?_, ?_, ?_, ?_, ?_⟩
  · simp [hlength]
  · refine h.nodup.set fun hmem => ?_
    exact Nat.lt_irrefl _ (h.fresh _ hmem)
  · intro tree htree
    rcases List.mem_or_eq_of_mem_set htree with htree | rfl
    · exact Nat.lt_succ_of_lt (h.fresh tree htree)
    · exact Nat.lt_succ_self _
  · intro found hfound
    rcases List.mem_or_eq_of_mem_set hfound with hfound | rfl
    · exact h.indexed found hfound
    · exact hindexed
  · rw [DistinctKeys, set_paths hfile hpath]
    exact h.distinct
  · exact h.undone.imp (Nat.le_succ _) fun _ _ => hat
  · exact h.redone.imp (Nat.le_succ _) fun _ _ => hat

theorem Consistent.operate (h : Consistent pathKey watched) {place : Nat} {operation : Operation}
    (hamends : AmendsNone watched place operation)
    (hstep : watched.step p pathKey (.operate place operation) = some watched') :
    Consistent pathKey watched' := by
  obtain ⟨workspace, hworkspace, hstep⟩ := Option.bind_eq_some_iff.1 hstep
  obtain ⟨file, hfile, hworkspace⟩ := Option.bind_eq_some_iff.1 hworkspace
  obtain ⟨session, hsession, hworkspace⟩ := Option.bind_eq_some_iff.1 hworkspace
  cases hworkspace
  cases hstep
  have hindexed := h.indexed file (List.mem_of_getElem? hfile)
  simp only [Chronicle.step, hfile, Option.any_some]
  cases hop : file.session.replacesUndoTree operation with
  | true => exact h.replace hfile rfl (step_replaces hop hsession)
  | false =>
      have hfollows := Session.step_follows hop hsession hindexed
      refine h.set hfile rfl hfollows.indexed fun pair hpair htree hknown => ?_
      refine hknown.follows hfollows mayAmend_amendable fun hmay hsame => ?_
      exact hamends file hfile hmay pair hpair htree hsame

theorem Consistent.follows_all {workspace : Workspace} {chronicle : Chronicle}
    (h : Consistent pathKey { workspace := workspace, chronicle := chronicle })
    (hfiles : FollowsAll workspace.files files') :
    Consistent pathKey
      { workspace := { workspace with files := files' }, chronicle := chronicle } := by
  refine ⟨h.length.trans hfiles.length_eq, h.nodup, h.fresh, hfiles.indexed, ?_,
    h.undone.follows_all hfiles, h.redone.follows_all hfiles⟩
  rw [DistinctKeys, hfiles.paths]
  exact h.distinct

/-- What a transaction records is what its file's undo tree knows. -/
theorem Recorded.knownAt {record : ProjectUndoRecord} {held : Held} (hnodup : trees.Nodup)
    (hfiles : FollowsAll files files') (hindexed : ∀ file ∈ files, file.recording.undoTree.Indexed)
    (hsettled : ∀ file, files[place]? = some file → file.Settled)
    (h : Recorded files files' trees place record held) : KnownAt files' trees record held := by
  intro found foundFile hfound htree
  obtain ⟨file, file', hfile, hfile', -, hbefore, hafter, hheld, hheld', hgroup⟩ := h.file
  have hin : found < trees.length := (List.getElem?_eq_some_iff.1 htree).1
  obtain rfl := (List.getElem?_inj hin hnodup).1 (htree.trans h.tree.symm)
  cases hfound.symm.trans hfile'
  obtain ⟨old, hold, hfollows⟩ := hfiles.exists_file hfile'
  cases hold.symm.trans hfile
  obtain ⟨before, hbeforeState, hbeforeBytes⟩ := hsettled file hfile
  obtain ⟨after, hafterState, hafterBytes⟩ := hgroup.settled
  have hstart := (hindexed file (List.mem_of_getElem? hfile)).stateAt_current hbefore hbeforeState
  refine ⟨⟨before, hfollows.stateAt hstart, hbeforeBytes.trans hheld.symm⟩,
    ⟨after, hfollows.indexed.stateAt_current hafter hafterState, hafterBytes.trans hheld'.symm⟩,
    fun hable {seq} _ _ => ?_⟩
  have hsame := hgroup.amendable hable
  rw [hafter, hbefore] at hsame
  exact (Option.some.inj hsame).symm

theorem Consistent.projectEdit (h : Consistent pathKey watched) {description : String}
    {perBufferEdits : List (Nat × List ResolvedEdit)}
    (hclosed : EditsClosed watched.workspace.files perBufferEdits)
    (hstep : watched.step p pathKey (.projectEdit description perBufferEdits) = some watched') :
    Consistent pathKey watched' := by
  obtain ⟨workspace, hworkspace, hstep⟩ := Option.bind_eq_some_iff.1 hstep
  obtain ⟨⟨files, recorded⟩, hedits, hworkspace⟩ := Option.bind_eq_some_iff.1 hworkspace
  cases hstep
  have hfiles := applyProjectEdit_follows h.indexed hedits
  have hkept := h.follows_all hfiles
  cases recorded with
  | none =>
      cases hworkspace
      simp only [Chronicle.step, if_true]
      exact hkept
  | some records =>
      cases hworkspace
      simp only [Workspace.recordTransaction]
      split
      · simp only [Chronicle.step, if_true]
        exact hkept
      · have hgrows : watched.workspace.undoStack.length + 1 ≠ watched.workspace.undoStack.length :=
          Nat.succ_ne_self _
        simp only [Chronicle.step, List.length_cons, if_neg hgrows]
        obtain ⟨hrecorded, hkeys⟩ := applyProjectEdit_recorded watched.chronicle h.length h.distinct
          h.indexed hclosed hedits
        refine ⟨hkept.length, hkept.nodup, hkept.fresh, hkept.indexed, hkept.distinct,
          .cons ⟨hkeys, hrecorded.imp fun record held hmade => ?_⟩ hkept.undone, .nil⟩
        obtain ⟨place, hplace, hmade⟩ := hmade
        obtain ⟨edits, hmem, rfl⟩ := List.mem_map.1 hplace
        refine ⟨h.fresh _ (List.mem_of_getElem? hmade.tree), ?_⟩
        exact hmade.knownAt h.nodup hfiles h.indexed fun file hfile =>
          (hclosed.2 edits hmem file hfile).1

/-! ## Undo and redo -/

theorem TransactionKnown.rolled {transaction : ProjectEditTransaction} {helds : List Held}
    {expected target : ProjectUndoRecord → Nat} {source destination : Held → Bytes}
    {outcome : ProjectUndoOutcome}
    (hsource : ∀ {r record held}, KnownIn r record held →
      ∃ state, r.undoTree.stateAt (expected record) = some state ∧ state.bytes = source held)
    (hdestination : ∀ {r record held}, KnownIn r record held →
      ∃ state, r.undoTree.stateAt (target record) = some state ∧ state.bytes = destination held)
    (h : TransactionKnown pathKey files trees nextTree transaction helds)
    (hindexed : ∀ file ∈ files, file.recording.undoTree.Indexed)
    (hrecognised : ∀ pair ∈ transaction.records.zip helds,
      Recognised pathKey files trees expected target pair.1 pair.2)
    (hroll : rollRecords p pathKey expected target transaction.records files transaction.outcome =
      some (files', outcome)) :
    FollowsAll files files' ∧
      Rolled pathKey trees source destination transaction.records helds files files'
        outcome.divergedNames ∧
      outcome.totalCount = transaction.records.length ∧
      outcome.appliedCount + outcome.divergedNames.length = outcome.totalCount := by
  have hall : List.Forall₂ (Recognised pathKey files trees expected target) transaction.records
      helds :=
    List.forall₂_iff_zip.2 ⟨h.known.length_eq, fun {_ _} hmem => hrecognised _ hmem⟩
  obtain ⟨hfiles, htotal, names, hrolled, hnames, hcount⟩ := rollRecords_rolled hindexed hsource
    hdestination h.keys (h.known.imp fun _ _ hknown => hknown.2) hall hroll
  have hdiverged : outcome.divergedNames = names := hnames
  have hzero : outcome.appliedCount + names.length = transaction.records.length :=
    hcount.trans (Nat.zero_add _)
  rw [hdiverged]
  exact ⟨hfiles, hrolled, htotal, hzero.trans htotal.symm⟩

theorem pairs_take_one (transaction : ProjectEditTransaction)
    (transactions : List ProjectEditTransaction) (held : List Held) (helds : List (List Held)) :
    pairs ((transaction :: transactions).take 1) (held :: helds) = transaction.records.zip held := by
  simp [pairs]

theorem StackKnown.rollsTop {transactions : List ProjectEditTransaction} {helds : List (List Held)}
    {expected target : ProjectUndoRecord → Nat} {source destination : Held → Bytes}
    {outcome : ProjectUndoOutcome}
    (hsource : ∀ {r record held}, KnownIn r record held →
      ∃ state, r.undoTree.stateAt (expected record) = some state ∧ state.bytes = source held)
    (hdestination : ∀ {r record held}, KnownIn r record held →
      ∃ state, r.undoTree.stateAt (target record) = some state ∧ state.bytes = destination held)
    (h : StackKnown pathKey files trees nextTree transactions helds)
    (hindexed : ∀ file ∈ files, file.recording.undoTree.Indexed)
    (hrecognised : ∀ pair ∈ pairs (transactions.take 1) helds,
      Recognised pathKey files trees expected target pair.1 pair.2)
    (hempty : transactions = [] → files' = files ∧ outcome = {})
    (htop : ∀ transaction rest, transactions = transaction :: rest →
      rollRecords p pathKey expected target transaction.records files transaction.outcome =
        some (files', outcome)) :
    FollowsAll files files' ∧
      RollsTop pathKey trees source destination transactions helds files files' outcome := by
  cases h with
  | nil =>
      obtain ⟨rfl, rfl⟩ := hempty rfl
      exact ⟨.refl hindexed, rfl, rfl⟩
  | cons hfirst hrest =>
      rw [pairs_take_one] at hrecognised
      exact hfirst.rolled hsource hdestination hindexed hrecognised (htop _ _ rfl)

theorem undo_eq_some {workspace workspace' : Workspace} {outcome : ProjectUndoOutcome}
    (h : workspace.undo p pathKey = some (workspace', outcome)) :
    (workspace.undoStack = [] ∧ workspace' = workspace ∧ outcome = {}) ∨
      ∃ transaction rest files, workspace.undoStack = transaction :: rest ∧
        rollRecords p pathKey (·.afterSequence) (·.beforeSequence) transaction.records
          workspace.files transaction.outcome = some (files, outcome) ∧
        workspace' = { files := files, undoStack := rest,
                       redoStack := transaction :: workspace.redoStack } := by
  unfold Workspace.undo at h
  split at h
  · rename_i hstack
    cases h
    exact Or.inl ⟨hstack, rfl, rfl⟩
  · rename_i transaction rest hstack
    obtain ⟨⟨files, rolled⟩, hroll, h⟩ := Option.bind_eq_some_iff.1 h
    cases h
    exact Or.inr ⟨transaction, rest, files, hstack, hroll, rfl⟩

theorem redo_eq_some {workspace workspace' : Workspace} {outcome : ProjectUndoOutcome}
    (h : workspace.redo p pathKey = some (workspace', outcome)) :
    (workspace.redoStack = [] ∧ workspace' = workspace ∧ outcome = {}) ∨
      ∃ transaction rest files, workspace.redoStack = transaction :: rest ∧
        rollRecords p pathKey (·.beforeSequence) (·.afterSequence) transaction.records
          workspace.files transaction.outcome = some (files, outcome) ∧
        workspace' = { files := files, undoStack := transaction :: workspace.undoStack,
                       redoStack := rest } := by
  unfold Workspace.redo at h
  split at h
  · rename_i hstack
    cases h
    exact Or.inl ⟨hstack, rfl, rfl⟩
  · rename_i transaction rest hstack
    obtain ⟨⟨files, rolled⟩, hroll, h⟩ := Option.bind_eq_some_iff.1 h
    cases h
    exact Or.inr ⟨transaction, rest, files, hstack, hroll, rfl⟩

/-- What an undo of consistent stacks does to the files, where it is allowed. -/
theorem Consistent.undo_rolls (h : Consistent pathKey watched)
    (hallowed : Allowed pathKey watched .undo) {workspace : Workspace} {outcome : ProjectUndoOutcome}
    (hundo : watched.workspace.undo p pathKey = some (workspace, outcome)) :
    FollowsAll watched.workspace.files workspace.files ∧
      RollsTop pathKey watched.chronicle.trees (·.after) (·.before) watched.workspace.undoStack
        watched.chronicle.undoStack watched.workspace.files workspace.files outcome := by
  refine h.undone.rollsTop (p := p) (fun hknown => hknown.after) (fun hknown => hknown.before)
    h.indexed hallowed (fun hempty => ?_) fun transaction rest hstack => ?_
  · rcases undo_eq_some hundo with ⟨-, rfl, rfl⟩ | ⟨transaction, rest, files, hstack, -⟩
    · exact ⟨rfl, rfl⟩
    · cases hempty.symm.trans hstack
  · rcases undo_eq_some hundo with ⟨hempty, -⟩ | ⟨top, rest', files, hstack', hroll, rfl⟩
    · cases hempty.symm.trans hstack
    · cases hstack.symm.trans hstack'
      exact hroll

theorem Consistent.redo_rolls (h : Consistent pathKey watched)
    (hallowed : Allowed pathKey watched .redo) {workspace : Workspace} {outcome : ProjectUndoOutcome}
    (hredo : watched.workspace.redo p pathKey = some (workspace, outcome)) :
    FollowsAll watched.workspace.files workspace.files ∧
      RollsTop pathKey watched.chronicle.trees (·.before) (·.after) watched.workspace.redoStack
        watched.chronicle.redoStack watched.workspace.files workspace.files outcome := by
  refine h.redone.rollsTop (p := p) (fun hknown => hknown.before) (fun hknown => hknown.after)
    h.indexed hallowed (fun hempty => ?_) fun transaction rest hstack => ?_
  · rcases redo_eq_some hredo with ⟨-, rfl, rfl⟩ | ⟨transaction, rest, files, hstack, -⟩
    · exact ⟨rfl, rfl⟩
    · cases hempty.symm.trans hstack
  · rcases redo_eq_some hredo with ⟨hempty, -⟩ | ⟨top, rest', files, hstack', hroll, rfl⟩
    · cases hempty.symm.trans hstack
    · cases hstack.symm.trans hstack'
      exact hroll

/-- The top of one stack is what is known on the other. -/
theorem Consistent.undo (h : Consistent pathKey watched) (hallowed : Allowed pathKey watched .undo)
    (hstep : watched.step p pathKey .undo = some watched') : Consistent pathKey watched' := by
  obtain ⟨workspace, hworkspace, hstep⟩ := Option.bind_eq_some_iff.1 hstep
  obtain ⟨⟨undone, outcome⟩, hundo, rfl⟩ := Option.map_eq_some_iff.1 hworkspace
  cases hstep
  have hkept := h.follows_all (h.undo_rolls hallowed hundo).1
  rcases undo_eq_some hundo with ⟨hempty, rfl, -⟩ | ⟨transaction, rest, files, hstack, -, rfl⟩
  · have hnone : watched.chronicle.undoStack = [] := by
      have hundone := h.undone
      rw [hempty] at hundone
      exact List.forall₂_nil_left_iff.1 hundone
    simp only [Chronicle.step, hnone]
    exact h
  · have hundone := hkept.undone
    simp only [hstack] at hundone
    obtain ⟨helds, undoStack, hfirst, hrest, hheld⟩ := List.forall₂_cons_left_iff.1 hundone
    simp only [Chronicle.step, hheld]
    exact ⟨hkept.length, hkept.nodup, hkept.fresh, hkept.indexed, hkept.distinct, hrest,
      .cons hfirst hkept.redone⟩

theorem Consistent.redo (h : Consistent pathKey watched) (hallowed : Allowed pathKey watched .redo)
    (hstep : watched.step p pathKey .redo = some watched') : Consistent pathKey watched' := by
  obtain ⟨workspace, hworkspace, hstep⟩ := Option.bind_eq_some_iff.1 hstep
  obtain ⟨⟨redone, outcome⟩, hredo, rfl⟩ := Option.map_eq_some_iff.1 hworkspace
  cases hstep
  have hkept := h.follows_all (h.redo_rolls hallowed hredo).1
  rcases redo_eq_some hredo with ⟨hempty, rfl, -⟩ | ⟨transaction, rest, files, hstack, -, rfl⟩
  · have hnone : watched.chronicle.redoStack = [] := by
      have hredone := h.redone
      rw [hempty] at hredone
      exact List.forall₂_nil_left_iff.1 hredone
    simp only [Chronicle.step, hnone]
    exact h
  · have hredone := hkept.redone
    simp only [hstack] at hredone
    obtain ⟨helds, redoStack, hfirst, hrest, hheld⟩ := List.forall₂_cons_left_iff.1 hredone
    simp only [Chronicle.step, hheld]
    exact ⟨hkept.length, hkept.nodup, hkept.fresh, hkept.indexed, hkept.distinct,
      .cons hfirst hkept.undone, hrest⟩

/-! ## Runs -/

theorem Consistent.step (h : Consistent pathKey watched) (event : Event)
    (hallowed : Allowed pathKey watched event)
    (hstep : watched.step p pathKey event = some watched') : Consistent pathKey watched' := by
  cases event with
  | openFile path name source => exact h.openFile path name source hstep
  | closeFile place => exact h.closeFile place hstep
  | operate place operation => exact h.operate hallowed hstep
  | projectEdit description perBufferEdits => exact h.projectEdit hallowed hstep
  | undo => exact h.undo hallowed hstep
  | redo => exact h.redo hallowed hstep

/-- Every undo and redo of a run whose events are all allowed only rolls files. -/
theorem project_undo_only_rolls {events before : List Event} {event : Event}
    (hadm : Admissible (Watched.step p pathKey) (Allowed pathKey) {} events)
    (hbefore : before ++ [event] <+: events)
    (hrun : run (Watched.step p pathKey) {} before = some watched) :
    OnlyRolls p pathKey watched event := by
  obtain ⟨later, rfl⟩ := hbefore
  rw [List.append_assoc] at hadm
  obtain ⟨hfirst, hallowed, -⟩ := hadm.append hrun
  have hconsistent : Consistent pathKey watched :=
    run_invariant_of_admissible (Consistent pathKey)
      (fun _ event _ h hallowed hstep => h.step event hallowed hstep) (consistent_start pathKey) hfirst
      hrun
  cases event with
  | undo => exact fun _ _ hundo => (hconsistent.undo_rolls hallowed hundo).2
  | redo => exact fun _ _ hredo => (hconsistent.redo_rolls hallowed hredo).2
  | _ => trivial

/-- Two files get an "x" each, and the undo of that rolls both. -/
theorem sample_undo_rolls :
    ∃ watched : Watched, watched.workspace.undoStack ≠ [] ∧
      OnlyRolls { graphemeBreak := fun s _ _ => (true, s), keySort := .insertion } id watched .undo := by
  let p : Platform := { graphemeBreak := fun s _ _ => (true, s), keySort := .insertion }
  let insertion : ResolvedEdit := { startByte := 0, byteLength := 0, newText := [120] }
  let before : List Event := [.openFile (some "a") "a" (.content .empty),
    .openFile (some "b") "b" (.content .empty),
    .projectEdit "x" [(0, [insertion]), (1, [insertion])]]
  have hadm : Admissible (Watched.step p id) (Allowed id) {} (before ++ [.undo]) := by decide +kernel
  have hrun : (run (Watched.step p id) {} before).map (·.workspace.undoStack.length) = some 1 := by
    decide +kernel
  obtain ⟨watched, hwatched, hlength⟩ := Option.map_eq_some_iff.1 hrun
  refine ⟨watched, fun hempty => ?_,
    project_undo_only_rolls hadm (List.prefix_refl _) hwatched⟩
  rw [hempty] at hlength
  cases hlength

/-- A record that is not listed was applied to a buffer that has its undo tree. -/
theorem Rolled.tree_of_not_listed {source destination : Held → Bytes} {record : ProjectUndoRecord}
    {records : List ProjectUndoRecord} {held : Held} {helds : List Held}
    (h : Rolled pathKey trees source destination (record :: records) (held :: helds) files files' []) :
    ∃ place, findByPath pathKey files record.path = some place ∧ trees[place]? = some held.tree := by
  cases h with
  | applied hplace _ _ htree _ _ _ => exact ⟨_, hplace, htree⟩

/-- "a" is closed after the transaction, opened again and edited once: the undo takes that back. -/
theorem reopened_file_rolled :
    ¬ ∀ (p : Platform) (pathKey : Path → Path) (events before : List Event) (event : Event)
        (watched : Watched), before ++ [event] <+: events →
      run (Watched.step p pathKey) {} before = some watched → OnlyRolls p pathKey watched event := by
  intro h
  let p : Platform := { graphemeBreak := fun s _ _ => (true, s), keySort := .insertion }
  let insertion : ResolvedEdit := { startByte := 0, byteLength := 0, newText := [120] }
  let before : List Event := [.openFile (some "a") "a" (.content .empty),
    .openFile (some "b") "b" (.content .empty),
    .projectEdit "x" [(0, [insertion]), (1, [insertion])], .closeFile 0,
    .openFile (some "a") "a" (.content { bytes := [120], huge := false }),
    .operate 1 (.insertAt 1 [121])]
  have hrun : ((run (Watched.step p id) {} before).bind fun watched =>
      (watched.workspace.undo p id).map fun undone =>
        (watched.workspace.undoStack, watched.chronicle, findByPath id watched.workspace.files "a",
          undone.2.divergedNames)) =
      some ([{ description := "x", records := [
          { path := "a", beforeSequence := 0, afterSequence := 1 },
          { path := "b", beforeSequence := 0, afterSequence := 1 }] }],
        { trees := [1, 2], nextTree := 3, undoStack := [[{ tree := 0, before := [], after := [120] },
            { tree := 1, before := [], after := [120] }]] }, some 1, []) := by decide +kernel
  obtain ⟨watched, hwatched, hrun⟩ := Option.bind_eq_some_iff.1 hrun
  obtain ⟨⟨workspace, outcome⟩, hundo, hrun⟩ := Option.map_eq_some_iff.1 hrun
  simp only [Prod.mk.injEq] at hrun
  obtain ⟨hstack, hchronicle, hfound, hnames⟩ := hrun
  have hrolls := h p id (before ++ [.undo]) before .undo watched (List.prefix_refl _) hwatched
    workspace outcome hundo
  rw [hstack, hchronicle] at hrolls
  obtain ⟨hrolled, -⟩ := hrolls
  rw [hnames] at hrolled
  obtain ⟨place, hplace, htree⟩ := hrolled.tree_of_not_listed
  cases hfound.symm.trans hplace
  cases htree

end Ned.Editor.Project
