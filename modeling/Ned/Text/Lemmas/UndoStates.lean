import Ned.Library.Fallible
import Ned.Text.Lemmas.Session
import Ned.Text.Lemmas.UndoRecording
import Mathlib.Data.List.Range

/-!
# States by sequence

What the undo tree holds under a sequence, and that no operation changes it but the one amend that a
recording allows at its current node.
-/

namespace Ned.Text

open Ned.Library

namespace UndoTree

variable {tree tree' : UndoTree} {state state' : Storage} {sequence a : Nat} {old new node : Node}

def stateAt (tree : UndoTree) (sequence : Nat) : Option Storage := do
  let i ← tree.bySequence.lookup sequence
  let node ← tree.nodes[i]?
  some node.state

/-- The sequences name the nodes. -/
structure Indexed (tree : UndoTree) : Prop where
  sequence : ∀ {i : Nat} {node : Node}, tree.nodes[i]? = some node →
    tree.bySequence.lookup node.sequence = some i ∧ node.sequence < tree.nextSequence
  named : ∀ {seq i : Nat}, tree.bySequence.lookup seq = some i →
    ∃ node, tree.nodes[i]? = some node ∧ node.sequence = seq

theorem indexed_ofState (state : Storage) : Indexed (ofState state) :=
  ⟨(wellFormed_ofState state).sequence, (wellFormed_ofState state).named⟩

theorem stateAt_eq_some : tree.stateAt sequence = some state ↔
    ∃ i node, tree.bySequence.lookup sequence = some i ∧ tree.nodes[i]? = some node ∧
      node.state = state := by
  simp only [stateAt, Option.bind_eq_bind, Option.bind_eq_some_iff, Option.some.injEq]
  constructor
  · rintro ⟨i, hi, node, hnode, hstate⟩
    exact ⟨i, node, hi, hnode, hstate⟩
  · rintro ⟨i, node, hi, hnode, hstate⟩
    exact ⟨i, hi, node, hnode, hstate⟩

theorem Indexed.stateAt_node (h : tree.Indexed) (hnode : tree.nodes[a]? = some node) :
    tree.stateAt node.sequence = some node.state :=
  stateAt_eq_some.2 ⟨a, node, (h.sequence hnode).1, hnode, rfl⟩

theorem Indexed.stateAt_eq_none (h : tree.Indexed) (hlt : tree.nextSequence ≤ sequence) :
    tree.stateAt sequence = none := by
  rw [stateAt]
  cases hlook : tree.bySequence.lookup sequence with
  | none => rfl
  | some i =>
      obtain ⟨node, hnode, rfl⟩ := h.named hlook
      exact absurd (h.sequence hnode).2 (Nat.not_lt_of_le hlt)

theorem currentSequence_eq_some : tree.currentSequence = some sequence ↔
    ∃ node, tree.nodes[tree.current]? = some node ∧ node.sequence = sequence := by
  simp [currentSequence, currentNode, Option.bind_eq_some_iff]

theorem currentState_eq_some : tree.currentState = some state ↔
    ∃ node, tree.nodes[tree.current]? = some node ∧ node.state = state := by
  simp [currentState, currentNode, Option.bind_eq_some_iff]

theorem Indexed.stateAt_current (h : tree.Indexed) (hsequence : tree.currentSequence = some sequence)
    (hstate : tree.currentState = some state) : tree.stateAt sequence = some state := by
  obtain ⟨node, hnode, rfl⟩ := currentSequence_eq_some.1 hsequence
  obtain ⟨node', hnode', rfl⟩ := currentState_eq_some.1 hstate
  cases hnode.symm.trans hnode'
  exact h.stateAt_node hnode

/-! ## Rewriting a node -/

theorem Indexed.modify (h : tree.Indexed) (ha : tree.nodes[a]? = some old)
    (hsequence : new.sequence = old.sequence) (current : Nat) :
    Indexed { tree with nodes := tree.nodes.set a new, current := current } := by
  constructor
  · intro i node hi
    rcases getElem?_set_cases ha hi with ⟨rfl, rfl⟩ | ⟨-, hi⟩
    · rw [hsequence]
      exact h.sequence ha
    · exact h.sequence hi
  · intro seq i hseq
    obtain ⟨node, hnode, hnamed⟩ := h.named hseq
    by_cases hi : i = a
    · subst hi
      cases ha.symm.trans hnode
      exact ⟨new, List.getElem?_set_self (List.getElem?_eq_some_iff.1 ha).1, hsequence.trans hnamed⟩
    · exact ⟨node, (List.getElem?_set_ne (Ne.symm hi)).trans hnode, hnamed⟩

theorem Indexed.stateAt_modify (h : tree.Indexed) (ha : tree.nodes[a]? = some old) (current : Nat)
    (hstate : tree.stateAt sequence = some state) :
    ∃ state', stateAt { tree with nodes := tree.nodes.set a new, current := current } sequence =
      some state' ∧ (state' = state ∨ old.sequence = sequence ∧ state' = new.state ∧
        state = old.state) := by
  obtain ⟨i, node, hlook, hnode, rfl⟩ := stateAt_eq_some.1 hstate
  by_cases hi : i = a
  · subst hi
    cases ha.symm.trans hnode
    obtain ⟨named, hnamed, hsequence⟩ := h.named hlook
    cases hnamed.symm.trans hnode
    refine ⟨new.state, stateAt_eq_some.2 ⟨_, new, hlook, ?_, rfl⟩, Or.inr ⟨hsequence, rfl, rfl⟩⟩
    exact List.getElem?_set_self (List.getElem?_eq_some_iff.1 ha).1
  · exact ⟨node.state, stateAt_eq_some.2 ⟨i, node, hlook,
      (List.getElem?_set_ne (Ne.symm hi)).trans hnode, rfl⟩, Or.inl rfl⟩

/-! ## Recording -/

theorem Indexed.record (h : tree.Indexed) (hrec : tree.record state = some tree') :
    tree'.Indexed ∧ (∀ {seq kept}, tree.stateAt seq = some kept → tree'.stateAt seq = some kept) ∧
      tree'.currentSequence = some tree.nextSequence := by
  obtain ⟨node, hnode, -⟩ := Option.bind_eq_some_iff.1 hrec
  rw [record_eq hnode] at hrec
  cases hrec
  have hfresh : tree.bySequence.lookup tree.nextSequence = none := by
    cases hlook : tree.bySequence.lookup tree.nextSequence with
    | none => rfl
    | some i =>
        obtain ⟨c, hc, hseq⟩ := h.named hlook
        exact absurd (h.sequence hc).2 (by rw [hseq]; exact Nat.lt_irrefl _)
  have hold : ∀ {seq i}, tree.bySequence.lookup seq = some i →
      (emplace tree.bySequence tree.nextSequence tree.nodes.length).lookup seq = some i := by
    intro seq i hseq
    rw [emplace_of_lookup_eq_none hfresh, lookup_append, hseq, Option.some_or]
  have hnew : (emplace tree.bySequence tree.nextSequence tree.nodes.length).lookup
      tree.nextSequence = some tree.nodes.length := by
    rw [emplace_of_lookup_eq_none hfresh, lookup_append, hfresh, Option.none_or]
    simp
  refine ⟨⟨fun {i c} hi => ?_, fun {seq i} hseq => ?_⟩, fun {seq kept} hkept => ?_, ?_⟩
  · rcases record_cases hnode hi with ⟨rfl, rfl⟩ | ⟨rfl, rfl⟩ | ⟨-, hi⟩
    · exact ⟨hnew, Nat.lt_succ_self _⟩
    · exact ⟨hold (h.sequence hnode).1, Nat.lt_succ_of_lt (h.sequence hnode).2⟩
    · exact ⟨hold (h.sequence hi).1, Nat.lt_succ_of_lt (h.sequence hi).2⟩
  · rw [emplace_of_lookup_eq_none hfresh, lookup_append] at hseq
    rcases Option.or_eq_some_iff.1 hseq with hseq | ⟨-, hseq⟩
    · obtain ⟨c, hc, rfl⟩ := h.named hseq
      obtain ⟨c', hc', -, hseq', -⟩ := record_kept hnode hc
      exact ⟨c', hc', hseq'⟩
    · simp only [List.lookup_cons, List.lookup_nil] at hseq
      split at hseq
      · rename_i heq
        cases hseq
        exact ⟨_, record_new, (beq_iff_eq.1 heq).symm⟩
      · cases hseq
  · obtain ⟨i, c, hlook, hc, rfl⟩ := stateAt_eq_some.1 hkept
    by_cases hcurrent : i = tree.current
    · subst hcurrent
      cases hnode.symm.trans hc
      exact stateAt_eq_some.2 ⟨_, _, hold hlook, record_current hnode, rfl⟩
    · exact stateAt_eq_some.2 ⟨_, _, hold hlook, record_other hcurrent hc, rfl⟩
  · exact currentSequence_eq_some.2 ⟨_, record_new, rfl⟩

theorem Indexed.amend (h : tree.Indexed) (hamend : tree.amend state = some tree') :
    tree'.Indexed ∧ tree'.currentSequence = tree.currentSequence ∧
      ∀ {seq kept}, tree.stateAt seq = some kept → ∃ kept', tree'.stateAt seq = some kept' ∧
        (kept' = kept ∨ tree.currentSequence = some seq) := by
  obtain ⟨node, hnode, hamend⟩ := Option.bind_eq_some_iff.1 hamend
  cases hamend
  have hsame : ({ node with state := state } : Node).sequence = node.sequence := rfl
  refine ⟨h.modify hnode hsame tree.current, ?_, fun {seq kept} hkept => ?_⟩
  · rw [currentSequence_eq_some.2 ⟨node, hnode, rfl⟩]
    refine currentSequence_eq_some.2 ⟨{ node with state := state }, ?_, rfl⟩
    exact List.getElem?_set_self (List.getElem?_eq_some_iff.1 hnode).1
  · obtain ⟨kept', hkept', hsame | ⟨hsequence, -⟩⟩ := h.stateAt_modify hnode tree.current hkept
    · exact ⟨kept', hkept', Or.inl hsame⟩
    · exact ⟨kept', hkept', Or.inr (currentSequence_eq_some.2 ⟨node, hnode, hsequence⟩)⟩

/-! ## Moving -/

structure SameStates (tree tree' : UndoTree) : Prop where
  indexed : tree.Indexed → tree'.Indexed
  stateAt : tree.Indexed → ∀ {seq kept}, tree.stateAt seq = some kept → tree'.stateAt seq = some kept

theorem SameStates.move (tree : UndoTree) (current : Nat) :
    SameStates tree { tree with current := current } :=
  ⟨fun h => ⟨h.sequence, h.named⟩, fun _ {_ _} hkept => hkept⟩

theorem sameStates_undo (hundo : tree.undo = some tree') : SameStates tree tree' := by
  obtain ⟨node, -, hundo⟩ := Option.bind_eq_some_iff.1 hundo
  split at hundo
  · cases hundo
    exact .move tree tree.current
  · cases hundo
    exact .move tree _

theorem sameStates_redo (hredo : tree.redo = some tree') : SameStates tree tree' := by
  obtain ⟨node, -, hredo⟩ := Option.bind_eq_some_iff.1 hredo
  split at hredo
  · cases hredo
    exact .move tree tree.current
  · obtain ⟨child, -, hredo⟩ := Option.bind_eq_some_iff.1 hredo
    cases hredo
    exact .move tree child

theorem jumpTo_eq_some (hjump : tree.jumpTo sequence = some (tree', true)) :
    SameStates tree tree' ∧
      ∀ {state}, tree.stateAt sequence = some state → tree'.currentState = some state := by
  rw [jumpTo] at hjump
  split at hjump
  · cases hjump
  · rename_i target htarget
    obtain ⟨node, hnode, hjump⟩ := Option.bind_eq_some_iff.1 hjump
    split at hjump
    · cases hjump
      refine ⟨.move tree target, fun {state} hstate => ?_⟩
      obtain ⟨i, held, hi, hheld, rfl⟩ := stateAt_eq_some.1 hstate
      cases htarget.symm.trans hi
      exact currentState_eq_some.2 ⟨held, hheld, rfl⟩
    · rename_i address _
      obtain ⟨parent, hparent, hjump⟩ := Option.bind_eq_some_iff.1 hjump
      cases hjump
      have hsame : (repoint parent target).sequence = parent.sequence ∧
          (repoint parent target).state = parent.state := by
        unfold repoint
        split <;> exact ⟨rfl, rfl⟩
      refine ⟨⟨fun h => h.modify hparent hsame.1 target, fun h {seq kept} hkept => ?_⟩,
        fun {state} hstate => ?_⟩
      · obtain ⟨kept', hkept', heq | ⟨-, hnew, hold⟩⟩ := h.stateAt_modify hparent target hkept
        · exact heq ▸ hkept'
        · rw [hkept', hnew, hsame.2, hold]
      · obtain ⟨i, held, hi, hheld, rfl⟩ := stateAt_eq_some.1 hstate
        cases htarget.symm.trans hi
        by_cases heq : target = address
        · subst heq
          cases hheld.symm.trans hparent
          refine currentState_eq_some.2 ⟨_, ?_, hsame.2⟩
          exact List.getElem?_set_self (List.getElem?_eq_some_iff.1 hparent).1
        · refine currentState_eq_some.2 ⟨held, ?_, rfl⟩
          exact (List.getElem?_set_ne (Ne.symm heq)).trans hheld

/-! ## Deserialized trees -/

section Deserialize

variable {nodes rest : List SerializedNode} {rootId currentId next : Nat}

theorem refuseDuplicateIds_eq_ok (h : refuseDuplicateIds nodes = .ok ()) :
    (nodes.map (·.id)).Nodup := by
  induction nodes with
  | nil => exact List.nodup_nil
  | cons node nodes ih =>
      unfold refuseDuplicateIds at h
      split at h
      · cases h
      · rename_i hfind
        rw [List.map_cons, List.nodup_cons]
        refine ⟨fun hmem => hfind ?_, ih h⟩
        obtain ⟨other, hother, hid⟩ := List.mem_map.1 hmem
        exact List.find?_isSome.2 ⟨other, hother, beq_iff_eq.2 hid⟩

theorem findRoot_eq_ok (h : findRoot nodes = .ok rootId) : ∃ root ∈ nodes, root.id = rootId := by
  unfold findRoot at h
  split at h
  · cases h
  · rename_i root hroot
    cases h
    have hmem : root ∈ nodes.filter fun node => node.parentId.isNone := hroot ▸ List.mem_singleton.2 rfl
    exact ⟨root, (List.mem_filter.1 hmem).1, rfl⟩
  · cases h

theorem validate_eq_ok (h : validate nodes currentId = .ok rootId) :
    (nodes.map (·.id)).Nodup ∧ ∃ root ∈ nodes, root.id = rootId := by
  cases hempty : nodes.isEmpty with
  | true =>
      simp only [validate, hempty, if_true] at h
      cases h
  | false =>
      simp only [validate, hempty, Bool.false_eq_true, if_false] at h
      obtain ⟨⟨⟩, hduplicate, h⟩ := bind_eq_ok.1 h
      obtain ⟨found, hroot, h⟩ := bind_eq_ok.1 h
      split at h
      · cases h
      · obtain ⟨-, -, h⟩ := bind_eq_ok.1 h
        cases h
        exact ⟨refuseDuplicateIds_eq_ok hduplicate, findRoot_eq_ok hroot⟩

theorem length_sequencesFrom (rootId next : Nat) (nodes : List SerializedNode) :
    (sequencesFrom rootId next nodes).length = nodes.length := by
  induction nodes generalizing next with
  | nil => rfl
  | cons node nodes ih =>
      unfold sequencesFrom
      split <;> simp [ih]

theorem sequencesFrom_of_not_root (h : ∀ node ∈ nodes, node.id ≠ rootId) :
    sequencesFrom rootId next nodes = List.range' next nodes.length := by
  induction nodes generalizing next with
  | nil => rfl
  | cons node nodes ih =>
      obtain ⟨hnode, hnodes⟩ := List.forall_mem_cons.1 h
      rw [sequencesFrom, if_neg hnode, ih hnodes, List.length_cons, List.range'_succ]

theorem sequencesFrom_spec (hnodup : (nodes.map (·.id)).Nodup) (hroot : ∃ root ∈ nodes, root.id = rootId)
    (hnext : 0 < next) :
    (sequencesFrom rootId next nodes).Nodup ∧
      ∀ s ∈ sequencesFrom rootId next nodes, s = 0 ∨ next ≤ s ∧ s + 1 < next + nodes.length := by
  induction nodes generalizing next with
  | nil =>
      obtain ⟨root, hmem, -⟩ := hroot
      cases hmem
  | cons node nodes ih =>
      rw [List.map_cons, List.nodup_cons] at hnodup
      by_cases hid : node.id = rootId
      · have hothers : ∀ other ∈ nodes, other.id ≠ rootId := fun other hother heq =>
          hnodup.1 (List.mem_map.2 ⟨other, hother, heq.trans hid.symm⟩)
        rw [sequencesFrom, if_pos hid, sequencesFrom_of_not_root hothers]
        refine ⟨List.nodup_cons.2 ⟨fun hzero => ?_, List.nodup_range'⟩, fun s hs => ?_⟩
        · exact absurd hnext (Nat.not_lt_of_le (List.mem_range'_1.1 hzero).1)
        · rcases List.mem_cons.1 hs with rfl | hs
          · exact Or.inl rfl
          · obtain ⟨hle, hlt⟩ := List.mem_range'_1.1 hs
            exact Or.inr ⟨hle, Nat.succ_lt_succ hlt⟩
      · obtain ⟨root, hmem, hrootId⟩ := hroot
        have hmem' : root ∈ nodes := by
          rcases List.mem_cons.1 hmem with rfl | hmem
          · exact absurd hrootId hid
          · exact hmem
        obtain ⟨hrest, hbounds⟩ := ih hnodup.2 ⟨root, hmem', hrootId⟩ (Nat.succ_pos next)
        rw [sequencesFrom, if_neg hid]
        have hlength : 0 < nodes.length := List.length_pos_of_mem hmem'
        refine ⟨List.nodup_cons.2 ⟨fun hnext' => ?_, hrest⟩, fun s hs => ?_⟩
        · have := hbounds next hnext'
          omega
        · rw [List.length_cons]
          rcases List.mem_cons.1 hs with rfl | hs
          · omega
          · have := hbounds s hs
            omega

theorem buildNodes_eq_some {sequences : List Nat} {built : List Node}
    (h : buildNodes nodes rest sequences = some built) (hlength : rest.length = sequences.length) :
    built.map (·.sequence) = sequences := by
  induction rest generalizing sequences built with
  | nil =>
      cases sequences with
      | nil =>
          cases h
          rfl
      | cons s sequences => cases hlength
  | cons node rest ih =>
      cases sequences with
      | nil => cases hlength
      | cons s sequences =>
          obtain ⟨first, hfirst, h⟩ := Option.bind_eq_some_iff.1 h
          obtain ⟨others, hothers, h⟩ := Option.bind_eq_some_iff.1 h
          cases h
          obtain ⟨state, -, hfirst⟩ := Option.bind_eq_some_iff.1 hfirst
          cases hfirst
          rw [List.map_cons, ih hothers (Nat.succ.inj hlength)]

theorem indexed_deserialize {tree : UndoTree} (h : deserialize nodes currentId = some (.ok tree)) :
    tree.Indexed := by
  unfold deserialize at h
  split at h
  · cases h
  · rename_i rootId hvalid
    obtain ⟨built, hbuilt, hbuild⟩ := Option.map_eq_some_iff.1 h
    cases hbuild
    obtain ⟨hids, hroot⟩ := validate_eq_ok hvalid
    obtain ⟨hnodup, hbounds⟩ := sequencesFrom_spec hids hroot Nat.one_pos
    obtain ⟨list, hlist, hbuilt⟩ := Option.bind_eq_some_iff.1 hbuilt
    obtain ⟨root, -, hbuilt⟩ := Option.bind_eq_some_iff.1 hbuilt
    obtain ⟨current, -, hbuilt⟩ := Option.bind_eq_some_iff.1 hbuilt
    have hsequences := buildNodes_eq_some hlist (length_sequencesFrom _ _ _).symm
    have hkeys : ((sequencesFrom rootId 1 nodes).zipIdx.map (·.1)).Nodup := by
      rw [List.zipIdx_map_fst]
      exact hnodup
    cases hbuilt
    simp only [foldl_emplace hkeys]
    refine ⟨fun {i node} hnode => ?_, fun {seq i} hlook => ?_⟩
    · have hat : (sequencesFrom rootId 1 nodes)[i]? = some node.sequence := by
        rw [← hsequences, List.getElem?_map, hnode]
        rfl
      refine ⟨lookup_of_mem hkeys (List.mem_zipIdx_iff_getElem?.2 hat), ?_⟩
      obtain ⟨root, hmem, -⟩ := hroot
      have hlength : 0 < nodes.length := List.length_pos_of_mem hmem
      have := hbounds _ (List.mem_of_getElem? hat)
      simp only
      omega
    · have hat := List.mem_zipIdx_iff_getElem?.1 (mem_of_lookup hlook)
      rw [← hsequences, List.getElem?_map] at hat
      obtain ⟨node, hnode, hseq⟩ := Option.map_eq_some_iff.1 hat
      exact ⟨node, hnode, hseq⟩

end Deserialize

end UndoTree

/-! ## Recordings -/

namespace UndoRecording

open UndoTree

variable {r r' r'' : UndoRecording} {storage : Storage} {offsets : List (Nat × Nat)} {amends : Prop}

/-- The next keystroke or load append may be amended into the current node. -/
def Amendable (r : UndoRecording) : Prop := r.canAmend = true ∨ r.canAmendLoadAppend = true

/-- Every state is kept but the current one where `amends`, and only a new node becomes amendable. -/
structure Follows (amends : Prop) (r r' : UndoRecording) : Prop where
  indexed : r'.undoTree.Indexed
  kept : ∀ {seq state}, r.undoTree.stateAt seq = some state →
    ∃ state', r'.undoTree.stateAt seq = some state' ∧
      (state' = state ∨ amends ∧ r.undoTree.currentSequence = some seq)
  amendable : r'.Amendable → ∀ {seq}, r'.undoTree.currentSequence = some seq →
    r.undoTree.stateAt seq = none ∨ r.Amendable ∧ r.undoTree.currentSequence = some seq

theorem Follows.of_tree (h : r.undoTree.Indexed) (htree : r'.undoTree = r.undoTree)
    (hamendable : r'.Amendable → r.Amendable) : Follows amends r r' := by
  refine ⟨htree ▸ h, fun {seq state} hstate => ⟨state, htree ▸ hstate, Or.inl rfl⟩,
    fun hable {seq} hcurrent => Or.inr ⟨hamendable hable, htree ▸ hcurrent⟩⟩

theorem Follows.refl (h : r.undoTree.Indexed) : Follows amends r r := .of_tree h rfl id

theorem Follows.imp {amends' : Prop} (h : Follows amends r r') (himp : amends → amends') :
    Follows amends' r r' := by
  refine ⟨h.indexed, fun {seq state} hstate => ?_, h.amendable⟩
  obtain ⟨state', hstate', hsame | ⟨hamends, hcurrent⟩⟩ := h.kept hstate
  · exact ⟨state', hstate', Or.inl hsame⟩
  · exact ⟨state', hstate', Or.inr ⟨himp hamends, hcurrent⟩⟩

theorem Follows.stateAt (h : Follows False r r') {seq : Nat} {state : Storage}
    (hstate : r.undoTree.stateAt seq = some state) : r'.undoTree.stateAt seq = some state := by
  obtain ⟨state', hstate', rfl | ⟨hfalse, -⟩⟩ := h.kept hstate
  · exact hstate'
  · exact hfalse.elim

theorem Follows.trans (h : Follows False r r') (h' : Follows False r' r'') :
    Follows False r r'' := by
  refine ⟨h'.indexed, fun {seq state} hstate => ⟨state, h'.stateAt (h.stateAt hstate), Or.inl rfl⟩,
    fun hable {seq} hcurrent => ?_⟩
  rcases h'.amendable hable hcurrent with hnone | ⟨hable', hcurrent'⟩
  · refine Or.inl (Option.eq_none_iff_forall_ne_some.2 fun state hstate => ?_)
    cases hnone.symm.trans (h.stateAt hstate)
  · exact h.amendable hable' hcurrent'

theorem Follows.record (h : r.undoTree.Indexed)
    (hrec : r.undoTree.record storage = some r'.undoTree) : Follows amends r r' := by
  obtain ⟨hindexed, hkept, hcurrent⟩ := h.record hrec
  refine ⟨hindexed, fun {seq state} hstate => ⟨state, hkept hstate, Or.inl rfl⟩,
    fun _ {seq} hseq => Or.inl ?_⟩
  cases hcurrent.symm.trans hseq
  exact h.stateAt_eq_none (Nat.le_refl _)

theorem Follows.amend (h : r.undoTree.Indexed) (hamends : amends)
    (hamend : r.undoTree.amend storage = some r'.undoTree)
    (hamendable : r'.Amendable → r.Amendable) : Follows amends r r' := by
  obtain ⟨hindexed, hcurrent, hkept⟩ := h.amend hamend
  refine ⟨hindexed, fun {seq state} hstate => ?_,
    fun hable {seq} hseq => Or.inr ⟨hamendable hable, hcurrent ▸ hseq⟩⟩
  obtain ⟨state', hstate', hsame | hseq⟩ := hkept hstate
  · exact ⟨state', hstate', Or.inl hsame⟩
  · exact ⟨state', hstate', Or.inr ⟨hamends, hseq⟩⟩

theorem Follows.move {tree : UndoTree} (h : r.undoTree.Indexed) (hsame : SameStates r.undoTree tree)
    (hr : r' = { r with undoTree := tree, canAmend := false, canAmendLoadAppend := false }) :
    Follows amends r r' := by
  subst hr
  refine ⟨hsame.indexed h, fun {seq state} hstate => ⟨state, hsame.stateAt h hstate, Or.inl rfl⟩,
    fun hable => ?_⟩
  rcases hable with hable | hable <;> cases hable

theorem recordOrAmendUndo_follows {canAmend : Bool} (h : r.undoTree.Indexed)
    (hrec : r.recordOrAmendUndo storage offsets canAmend = some r') :
    Follows (canAmend = true ∧ r.canAmend = true) r r' := by
  simp only [recordOrAmendUndo] at hrec
  split at hrec
  · cases hrec
    refine .of_tree h rfl fun hable => ?_
    rcases hable with hable | hable
    · exact Or.inl hable
    · cases hable
  · split at hrec
    · rename_i hamend
      rw [Bool.and_eq_true] at hamend
      obtain ⟨htree, -, hcan, hload⟩ := amend_spec hrec
      refine .amend h hamend htree fun hable => ?_
      rcases hable with hable | hable
      · exact Or.inl (hcan ▸ hable)
      · cases hload.symm.trans hable
    · obtain ⟨recorded, hrecorded, hrec⟩ := Option.bind_eq_some_iff.1 hrec
      obtain ⟨htree, -⟩ := record_spec hrecorded
      cases hrec
      exact .record h htree

theorem recordOrAmendLoadAppend_follows (h : r.undoTree.Indexed)
    (hrec : r.recordOrAmendLoadAppend storage offsets = some r') :
    Follows (r.canAmendLoadAppend = true) r r' := by
  simp only [recordOrAmendLoadAppend] at hrec
  split at hrec
  · cases hrec
    refine .of_tree h rfl fun hable => ?_
    rcases hable with hable | hable
    · cases hable
    · exact Or.inr hable
  · split at hrec
    · rename_i hamend
      obtain ⟨htree, -, hcan, hload⟩ := amend_spec hrec
      refine .amend h hamend htree fun hable => ?_
      rcases hable with hable | hable
      · cases hcan.symm.trans hable
      · exact Or.inr (hload ▸ hable)
    · obtain ⟨recorded, hrecorded, hrec⟩ := Option.bind_eq_some_iff.1 hrec
      obtain ⟨htree, -⟩ := record_spec hrecorded
      cases hrec
      exact .record h htree

theorem endUndoGroup_follows (h : r.undoTree.Indexed)
    (hend : r.endUndoGroup storage offsets = some r') : Follows amends r r' := by
  simp only [endUndoGroup] at hend
  split at hend
  · cases hend
    exact .refl h
  · split at hend
    · obtain ⟨recorded, hrecorded, hend⟩ := Option.bind_eq_some_iff.1 hend
      obtain ⟨htree, -⟩ := record_spec hrecorded
      cases hend
      exact .record h htree
    · cases hend
      exact .of_tree h rfl id

theorem endUndoGroup_clean (hdepth : r.undoGroupDepth = 1) (hdirty : r.undoGroupDirty = false)
    (storage : Storage) (offsets : List (Nat × Nat)) :
    r.endUndoGroup storage offsets = some { r with undoGroupDepth := 0 } := by
  simp [endUndoGroup, hdepth, hdirty]

theorem endUndoGroup_dirty (hdepth : r.undoGroupDepth = 1) (hdirty : r.undoGroupDirty = true)
    (hend : r.endUndoGroup storage offsets = some r') :
    r.undoTree.record storage = some r'.undoTree ∧ r'.canAmend = false ∧
      r'.canAmendLoadAppend = r.canAmendLoadAppend := by
  simp only [endUndoGroup, hdepth, hdirty, Nat.one_ne_zero, Nat.sub_self, if_false, and_self,
    if_true] at hend
  obtain ⟨recorded, hrecorded, hend⟩ := Option.bind_eq_some_iff.1 hend
  obtain ⟨htree, -, -, hload⟩ := record_spec hrecorded
  cases hend
  exact ⟨htree, rfl, hload⟩

end UndoRecording

/-! ## Operations -/

namespace Buffer

open UndoRecording

variable {p : Platform} {b b' : Buffer} {amends : Prop}

theorem Edited.follows {canAmend : Bool} {offset oldLength newLength : Nat}
    (h : Edited canAmend b b' offset oldLength newLength) (hb : b.undoTree.Indexed) :
    Follows (canAmend = true ∧ b.canAmend = true) b.toUndoRecording b'.toUndoRecording := by
  obtain ⟨offsets, hrec⟩ := h.recording
  exact recordOrAmendUndo_follows hb hrec

theorem Inserted.follows {canAmend : Bool} (h : b' = b ∨ Inserted canAmend b b')
    (hb : b.undoTree.Indexed) :
    Follows (canAmend = true ∧ b.canAmend = true) b.toUndoRecording b'.toUndoRecording := by
  rcases h with rfl | ⟨_, _, _, _, h⟩
  · exact .refl hb
  · exact h.follows hb

theorem Erased.follows (h : b' = b ∨ Erased b b') (hb : b.undoTree.Indexed) :
    Follows amends b.toUndoRecording b'.toUndoRecording := by
  rcases h with rfl | ⟨_, _, _, h⟩
  · exact .refl hb
  · exact (h.follows hb).imp fun hamends => Bool.noConfusion hamends.1

theorem Restored.follows {oldStorage : Storage} {tree : UndoTree}
    (h : Restored oldStorage { b.toUndoRecording with undoTree := tree } b b')
    (hb : b.undoTree.Indexed) (hsame : b.undoTree.SameStates tree) :
    Follows amends b.toUndoRecording b'.toUndoRecording :=
  .move hb hsame h.recording

theorem adopt_follows {storage : Storage} {point : Nat} (h : b.adopt p storage point = some b')
    (hb : b.undoTree.Indexed) : Follows amends b.toUndoRecording b'.toUndoRecording := by
  simp only [adopt] at h
  obtain ⟨snapped, -, h⟩ := Option.bind_eq_some_iff.1 h
  obtain ⟨recorded, hrec, h⟩ := Option.bind_eq_some_iff.1 h
  obtain ⟨-, -, -, -, offsets, hrec⟩ := recordOrAmendUndo_spec hrec
  cases h
  exact (recordOrAmendUndo_follows hb hrec).imp fun hamends => Bool.noConfusion hamends.1

theorem beginSave_recording {ensureFinalNewline trimTrailingWhitespace : Bool}
    {lineEndingOverride : Option LineEnding} {plan : SavePlan}
    (h : b.beginSave ensureFinalNewline trimTrailingWhitespace lineEndingOverride = .ok (b', plan)) :
    b'.toUndoRecording = b.toUndoRecording := by
  unfold beginSave at h
  obtain ⟨-, -, h⟩ := bind_eq_ok.1 h
  cases h
  rfl

theorem tryJumpToUndoSequence_follows {sequence : Nat} {moved : Bool}
    (h : b.tryJumpToUndoSequence p sequence = some (b', moved)) (hb : b.undoTree.Indexed) :
    Follows amends b.toUndoRecording b'.toUndoRecording := by
  rcases tryJumpToUndoSequence_spec h with rfl | ⟨tree, hjump, h⟩
  · exact .refl hb
  · exact h.follows hb (UndoTree.jumpTo_eq_some hjump).1

end Buffer

namespace Session

open Buffer UndoRecording

variable {p : Platform} {s s' : Session}

theorem step_follows {op : Operation} (hop : s.replacesUndoTree op = false)
    (h : s.step p op = some s') (hs : s.buffer.undoTree.Indexed) :
    Follows (s.mayAmend op = true) s.buffer.toUndoRecording s'.buffer.toUndoRecording := by
  cases op with
  | insertAt byteOffset text =>
      rcases settle_eq_some h with ⟨b, hb, rfl⟩ | rfl
      · exact (Inserted.follows (insertAt_spec hb) hs).imp fun hamends => Bool.noConfusion hamends.1
      · exact .refl hs
  | appendWhileReadOnly text =>
      rcases settle_eq_some h with ⟨b, hb, rfl⟩ | rfl
      · unfold appendWhileReadOnly at hb
        split at hb
        · cases hb
        · obtain ⟨a, ha, hb⟩ := Option.bind_eq_some_iff.1 hb
          have hfollows : Follows (s.mayAmend (.appendWhileReadOnly text) = true)
              s.buffer.toUndoRecording a.toUndoRecording :=
            (Inserted.follows (insertAtImpl_spec ha) hs).imp fun hamends =>
              Bool.noConfusion hamends.1
          cases hb
          split <;> exact hfollows
      · exact .refl hs
  | insertAtPoint text =>
      rcases settle_eq_some h with ⟨b, hb, rfl⟩ | rfl
      · exact (Inserted.follows (insertAtPoint_spec hb) hs).imp fun hamends => hamends.2
      · exact .refl hs
  | deleteRange byteOffset byteLength =>
      rcases settle_eq_some h with ⟨b, hb, rfl⟩ | rfl
      · obtain ⟨deleted, hb⟩ := map_fst_eq_ok hb
        exact Erased.follows (deleteRange_spec hb) hs
      · exact .refl hs
  | deleteBackwardAtPoint =>
      rcases settle_eq_some h with ⟨b, hb, rfl⟩ | rfl
      · exact Erased.follows (deleteBackwardAtPoint_spec hb) hs
      · exact .refl hs
  | deleteForwardAtPoint =>
      rcases settle_eq_some h with ⟨b, hb, rfl⟩ | rfl
      · exact Erased.follows (deleteForwardAtPoint_spec hb) hs
      · exact .refl hs
  | setPoint byteOffset =>
      obtain ⟨b, hb, rfl⟩ := update_eq_some h
      obtain ⟨point, -, hb⟩ := Option.bind_eq_some_iff.1 hb
      cases hb
      exact .of_tree hs rfl fun hable => hable.imp (fun h => Bool.noConfusion h) id
  | setMark byteOffset =>
      obtain ⟨b, hb, rfl⟩ := update_eq_some h
      obtain ⟨mark, -, hb⟩ := Option.bind_eq_some_iff.1 hb
      cases hb
      exact .refl hs
  | clearMark =>
      obtain ⟨b, hb, rfl⟩ := update_eq_some h
      cases hb
      exact .refl hs
  | moveForward =>
      obtain ⟨b, hb, rfl⟩ := update_eq_some h
      obtain ⟨point, -, hb⟩ := Option.bind_eq_some_iff.1 hb
      cases hb
      exact .of_tree hs rfl fun hable => hable.imp (fun h => Bool.noConfusion h) id
  | moveBackward =>
      obtain ⟨b, hb, rfl⟩ := update_eq_some h
      obtain ⟨point, -, hb⟩ := Option.bind_eq_some_iff.1 hb
      cases hb
      exact .of_tree hs rfl fun hable => hable.imp (fun h => Bool.noConfusion h) id
  | addCursorAt point mark =>
      obtain ⟨b, hb, rfl⟩ := update_eq_some h
      obtain ⟨snapped, -, hb⟩ := Option.bind_eq_some_iff.1 hb
      obtain ⟨snappedMark, -, hb⟩ := Option.bind_eq_some_iff.1 hb
      split at hb <;> cases hb <;> exact .refl hs
  | narrowToRegion start stop =>
      obtain ⟨b, hb, rfl⟩ := update_eq_some h
      cases hb
      exact .refl hs
  | widen =>
      obtain ⟨b, hb, rfl⟩ := update_eq_some h
      cases hb
      exact .refl hs
  | setExcerptRanges ranges =>
      obtain ⟨b, hb, rfl⟩ := update_eq_some h
      obtain ⟨recording, hrecording, hb⟩ := Option.bind_eq_some_iff.1 hb
      obtain ⟨htree, -, hcan, hload⟩ := snapshotExcerptRangeOffsets_spec hrecording
      cases hb
      exact .of_tree hs htree fun hable =>
        hable.imp (fun h => hcan.symm.trans h) (fun h => hload.symm.trans h)
  | setSnippetRanges ranges =>
      obtain ⟨b, hb, rfl⟩ := update_eq_some h
      cases hb
      exact .refl hs
  | setDiagnostics diagnostics =>
      obtain ⟨b, hb, rfl⟩ := update_eq_some h
      cases hb
      exact .refl hs
  | beginUndoGroup =>
      obtain ⟨b, hb, rfl⟩ := update_eq_some h
      cases hb
      exact .of_tree hs rfl id
  | endUndoGroup =>
      obtain ⟨b, hb, rfl⟩ := update_eq_some h
      obtain ⟨recording, hrecording, hb⟩ := Option.bind_eq_some_iff.1 hb
      cases hb
      exact endUndoGroup_follows hs hrecording
  | undo =>
      obtain ⟨b, hb, rfl⟩ := update_eq_some h
      rcases undo_spec hb with ⟨-, rfl⟩ | ⟨tree, -, htree, hb⟩
      · exact .refl hs
      · exact hb.follows hs (UndoTree.sameStates_undo htree)
  | redo =>
      obtain ⟨b, hb, rfl⟩ := update_eq_some h
      rcases redo_spec hb with ⟨-, rfl⟩ | ⟨tree, -, htree, hb⟩
      · exact .refl hs
      · exact hb.follows hs (UndoTree.sameStates_redo htree)
  | tryJumpToUndoSequence sequence =>
      obtain ⟨b, hb, rfl⟩ := update_eq_some h
      obtain ⟨⟨b, moved⟩, hjump, rfl⟩ := Option.map_eq_some_iff.1 hb
      exact tryJumpToUndoSequence_follows hjump hs
  | restoreUndoTree nodes currentId =>
      rcases settle_eq_some h with ⟨b, hb, rfl⟩ | rfl
      · simp [replacesUndoTree, hb] at hop
      · exact .refl hs
  | beginSave ensureFinalNewline trimTrailingWhitespace lineEndingOverride =>
      simp only [step] at h
      split at h
      · rename_i b plan hb
        cases h
        exact .of_tree hs (congrArg (·.undoTree) (beginSave_recording hb))
          (by rw [beginSave_recording hb]; exact id)
      · cases h
        exact .refl hs
  | finishSave =>
      obtain ⟨plan, -, h⟩ := Option.bind_eq_some_iff.1 h
      cases h
      exact .refl hs
  | abandonSave =>
      cases h
      exact .refl hs
  | replaceContentForLoad content =>
      obtain ⟨b, hb, rfl⟩ := update_eq_some h
      obtain ⟨storage, -, hb⟩ := Option.bind_eq_some_iff.1 hb
      cases hb
      exact .refl hs
  | finishLoad content detectedEnding charset => cases hop
  | replaceContentForHugeLoad content =>
      obtain ⟨b, hb, rfl⟩ := update_eq_some h
      cases hb
      exact .refl hs
  | appendHugeLoadChunk fragment =>
      obtain ⟨b, hb, rfl⟩ := update_eq_some h
      obtain ⟨offsets, hrecording⟩ := (appendHugeLoadChunk_spec hb).recording
      exact recordOrAmendLoadAppend_follows hs hrecording
  | finishHugeLoad =>
      obtain ⟨b, hb, rfl⟩ := update_eq_some h
      cases hb
      exact .refl hs
  | adoptReverted fresh charset =>
      obtain ⟨b, hb, rfl⟩ := update_eq_some h
      obtain ⟨adopted, hadopted, hb⟩ := Option.bind_eq_some_iff.1 hb
      have hfollows : Follows (s.mayAmend (.adoptReverted fresh charset) = true)
          s.buffer.toUndoRecording adopted.toUndoRecording :=
        adopt_follows (b := { s.buffer with charset := charset }) hadopted hs
      cases hb
      exact hfollows
  | mergeFresh fresh =>
      obtain ⟨b, hb, rfl⟩ := update_eq_some h
      obtain ⟨merged, hmerged, rfl⟩ := Option.map_eq_some_iff.1 hb
      obtain ⟨result, -, hmerged⟩ := Option.bind_eq_some_iff.1 hmerged
      obtain ⟨storage, -, hmerged⟩ := Option.bind_eq_some_iff.1 hmerged
      obtain ⟨adopted, hadopted, hmerged⟩ := Option.bind_eq_some_iff.1 hmerged
      have hfollows : Follows (s.mayAmend (.mergeFresh fresh) = true)
          s.buffer.toUndoRecording adopted.toUndoRecording := adopt_follows hadopted hs
      cases hmerged
      exact hfollows
  | restoreContent content =>
      obtain ⟨b, hb, rfl⟩ := update_eq_some h
      obtain ⟨storage, -, hb⟩ := Option.bind_eq_some_iff.1 hb
      obtain ⟨adopted, hadopted, hb⟩ := Option.bind_eq_some_iff.1 hb
      have hfollows : Follows (s.mayAmend (.restoreContent content) = true)
          s.buffer.toUndoRecording adopted.toUndoRecording := adopt_follows hadopted hs
      cases hb
      exact hfollows
  | createAnchor offset policy =>
      obtain ⟨b, hb, rfl⟩ := update_eq_some h
      cases hb
      exact .refl hs
  | destroyAnchor id =>
      obtain ⟨b, hb, rfl⟩ := update_eq_some h
      cases hb
      exact .refl hs

end Session

end Ned.Text
