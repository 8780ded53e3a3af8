import Ned.Text.UndoTree
import Ned.Text.Lemmas.UndoTree

/-!
# Undo recording

What a record or an amend leaves, and the trail that redoing follows back down.
-/

namespace Ned.Text

open Ned.Library

namespace UndoRecording

variable {r r' : UndoRecording} {storage : Storage} {offsets : List (Nat × Nat)}

theorem snapshotExcerptRangeOffsets_spec (h : r.snapshotExcerptRangeOffsets offsets = some r') :
    r'.undoTree = r.undoTree ∧ r'.undoGroupDepth = r.undoGroupDepth ∧ r'.canAmend = r.canAmend ∧
      r'.canAmendLoadAppend = r.canAmendLoadAppend := by
  unfold snapshotExcerptRangeOffsets at h
  split at h
  · cases h
    exact ⟨rfl, rfl, rfl, rfl⟩
  · obtain ⟨sequence, -, h⟩ := Option.bind_eq_some_iff.1 h
    cases h
    exact ⟨rfl, rfl, rfl, rfl⟩

theorem record_spec (h : r.record storage offsets = some r') :
    r.undoTree.record storage = some r'.undoTree ∧ r'.undoGroupDepth = r.undoGroupDepth ∧
      r'.canAmend = r.canAmend ∧ r'.canAmendLoadAppend = r.canAmendLoadAppend := by
  obtain ⟨tree, htree, h⟩ := Option.bind_eq_some_iff.1 h
  obtain ⟨htree', hrest⟩ := snapshotExcerptRangeOffsets_spec h
  exact ⟨htree' ▸ htree, hrest⟩

theorem amend_spec (h : r.amend storage offsets = some r') :
    r.undoTree.amend storage = some r'.undoTree ∧ r'.undoGroupDepth = r.undoGroupDepth ∧
      r'.canAmend = r.canAmend ∧ r'.canAmendLoadAppend = r.canAmendLoadAppend := by
  obtain ⟨tree, htree, h⟩ := Option.bind_eq_some_iff.1 h
  obtain ⟨htree', hrest⟩ := snapshotExcerptRangeOffsets_spec h
  exact ⟨htree' ▸ htree, hrest⟩

/-- Outside any group, a recording either amends the node it may amend or adds a new one. -/
structure Recorded (mayAmend : Prop) (r : UndoRecording) (storage : Storage) (r' : UndoRecording) :
    Prop where
  depth : r'.undoGroupDepth = 0
  tree : (mayAmend ∧ r.undoTree.amend storage = some r'.undoTree) ∨
    r.undoTree.record storage = some r'.undoTree

theorem recordOrAmendUndo_spec {canAmend : Bool} (hdepth : r.undoGroupDepth = 0)
    (h : r.recordOrAmendUndo storage offsets canAmend = some r') :
    Recorded (r.canAmend = true) r storage r' := by
  simp only [recordOrAmendUndo, hdepth, Nat.lt_irrefl, gt_iff_lt, if_false] at h
  split at h
  · rename_i hamend
    obtain ⟨htree, hd, -⟩ := amend_spec h
    rw [Bool.and_eq_true] at hamend
    exact ⟨hd, Or.inl ⟨hamend.2, htree⟩⟩
  · obtain ⟨recorded, hrec, h⟩ := Option.bind_eq_some_iff.1 h
    obtain ⟨htree, hd, -⟩ := record_spec hrec
    cases h
    exact ⟨hd, Or.inr htree⟩

theorem recordOrAmendLoadAppend_spec (hdepth : r.undoGroupDepth = 0)
    (h : r.recordOrAmendLoadAppend storage offsets = some r') :
    Recorded (r.canAmendLoadAppend = true) r storage r' := by
  simp only [recordOrAmendLoadAppend, hdepth, Nat.lt_irrefl, gt_iff_lt, if_false] at h
  split at h
  · rename_i hamend
    obtain ⟨htree, hd, -⟩ := amend_spec h
    exact ⟨hd, Or.inl ⟨hamend, htree⟩⟩
  · obtain ⟨recorded, hrec, h⟩ := Option.bind_eq_some_iff.1 h
    obtain ⟨htree, hd, -⟩ := record_spec hrec
    cases h
    exact ⟨hd, Or.inr htree⟩

end UndoRecording

/-! ## The trail to the root -/

namespace UndoTree

/-- From a node `n` parents up to the root, each node on the way the most recent child of its parent. -/
inductive Trail (nodes : List Node) (root : Nat) : Nat → Nat → Prop
  | root {node : Node} (h : nodes[root]? = some node) (hparent : node.parent = none) :
      Trail nodes root root 0
  | up {a b n : Nat} {node parent : Node} (h : Trail nodes root b n) (ha : nodes[a]? = some node)
      (hparent : node.parent = some b) (hb : nodes[b]? = some parent)
      (hrecent : parent.children[parent.mostRecentChild]? = some a) : Trail nodes root a (n + 1)

section Trails

variable {nodes : List Node} {root a c n m : Nat}

theorem Trail.unique (h : Trail nodes root a n) (h' : Trail nodes root a m) : n = m := by
  induction h generalizing m with
  | root h hparent =>
      cases h' with
      | root => rfl
      | up _ ha hparent' =>
          obtain rfl := Option.some.inj (h.symm.trans ha)
          rw [hparent] at hparent'
          cases hparent'
  | up _ ha hparent _ _ ih =>
      cases h' with
      | root h hparent' =>
          obtain rfl := Option.some.inj (h.symm.trans ha)
          rw [hparent'] at hparent
          cases hparent
      | up h' ha' hparent' =>
          obtain rfl := Option.some.inj (ha.symm.trans ha')
          obtain rfl := Option.some.inj (hparent.symm.trans hparent')
          rw [ih h']

theorem Trail.exists_node (h : Trail nodes root a n) : ∃ node, nodes[a]? = some node := by
  cases h with
  | root h _ => exact ⟨_, h⟩
  | up _ h _ _ _ => exact ⟨_, h⟩

theorem Trail.set (new : Node) (added : List Node) {old : Node} (hc : nodes[c]? = some old)
    (hparent : new.parent = old.parent) (h : Trail nodes root a n)
    (hnot : ∀ k < n, ¬ Trail nodes root c k) : Trail (nodes.set c new ++ added) root a n := by
  have hkept : ∀ (i : Nat) (node : Node), nodes[i]? = some node → ∃ node' : Node,
      (nodes.set c new ++ added)[i]? = some node' ∧ node'.parent = node.parent ∧
        (i ≠ c → node' = node) := by
    intro i node hi
    have hlt : i < (nodes.set c new).length := by
      rw [List.length_set]
      exact (List.getElem?_eq_some_iff.1 hi).1
    rw [List.getElem?_append_left hlt]
    by_cases hic : i = c
    · subst hic
      obtain rfl := Option.some.inj (hi.symm.trans hc)
      exact ⟨new, List.getElem?_set_self (List.getElem?_eq_some_iff.1 hi).1, hparent,
        fun hne => absurd rfl hne⟩
    · exact ⟨node, (List.getElem?_set_ne (Ne.symm hic)).trans hi, rfl, fun _ => rfl⟩
  induction h with
  | root h hp =>
      obtain ⟨node', h', hp', -⟩ := hkept _ _ h
      exact .root h' (hp'.trans hp)
  | @up a b n node parent hb ha hp hbnode hrecent ih =>
      have hbc : b ≠ c := by
        rintro rfl
        exact hnot n (Nat.lt_succ_self n) hb
      obtain ⟨node', ha', hp', -⟩ := hkept _ _ ha
      obtain ⟨parent', hb', -, hsame⟩ := hkept _ _ hbnode
      obtain rfl := hsame hbc
      exact .up (ih fun k hk => hnot k (Nat.lt_succ_of_lt hk)) ha' (hp'.trans hp) hb' hrecent

end Trails

/-! ## A tree that only grew -/

/-- The root still holds its first state, and the current node is on the trail of redos. -/
structure Grown (first : Storage) (tree : UndoTree) : Prop extends WellFormed tree where
  trail : ∃ n, Trail tree.nodes tree.root tree.current n
  first : ∃ node, tree.nodes[tree.root]? = some node ∧ node.state = first

section Grow

variable {tree tree' : UndoTree} {first state : Storage}

theorem grown_ofState (state : Storage) : Grown state (ofState state) :=
  ⟨wellFormed_ofState state, ⟨0, .root rfl rfl⟩, ⟨_, rfl, rfl⟩⟩

theorem record_currentState (h : tree.record state = some tree') :
    tree'.currentState = some state ∧ tree'.current = tree.nodes.length ∧ tree'.root = tree.root ∧
      tree.nodes.length < tree'.nodes.length := by
  obtain ⟨node, hnode, heq⟩ := Option.bind_eq_some_iff.1 h
  rw [record_eq hnode] at h
  cases h
  refine ⟨?_, rfl, rfl, by simp⟩
  rw [currentState, currentNode, record_new]
  rfl

theorem amend_currentState (h : tree.amend state = some tree') :
    tree'.currentState = some state ∧ tree'.current = tree.current ∧ tree'.root = tree.root ∧
      tree'.nodes.length = tree.nodes.length := by
  obtain ⟨node, hnode, heq⟩ := Option.bind_eq_some_iff.1 h
  cases heq
  have hlt : tree.current < tree.nodes.length := (List.getElem?_eq_some_iff.1 hnode).1
  refine ⟨?_, rfl, rfl, List.length_set⟩
  rw [currentState, currentNode, List.getElem?_set_self hlt]
  rfl

theorem Grown.record (h : Grown first tree) (hrec : tree.record state = some tree') :
    Grown first tree' := by
  obtain ⟨tree'', hrec', hwf⟩ := h.toWellFormed.record state
  obtain rfl := Option.some.inj (hrec'.symm.trans hrec)
  obtain ⟨node, hnode⟩ := h.current
  rw [record_eq hnode] at hrec
  cases hrec
  obtain ⟨n, htrail⟩ := h.trail
  refine ⟨hwf, ⟨n + 1, ?_⟩, ?_⟩
  · have hup := htrail.set (node.push tree.nodes.length) [tree.recorded state] hnode rfl
      fun k hk hk' => absurd (hk'.unique htrail) (Nat.ne_of_lt hk)
    refine .up hup record_new rfl (record_current hnode) ?_
    rw [Node.push, List.getElem?_append_right (Nat.le_refl _), Nat.sub_self]
    rfl
  · obtain ⟨root, hroot, hstate⟩ := h.first
    by_cases hcur : tree.root = tree.current
    · have hsame : node = root := Option.some.inj (hnode.symm.trans (hcur ▸ hroot))
      refine ⟨node.push tree.nodes.length, ?_, hsame ▸ hstate⟩
      simp only [hcur]
      exact record_current hnode
    · exact ⟨root, record_other hcur hroot, hstate⟩

theorem Grown.amend (h : Grown first tree) (hcur : tree.current ≠ tree.root)
    (hamend : tree.amend state = some tree') : Grown first tree' := by
  obtain ⟨tree'', hamend', hwf⟩ := h.toWellFormed.amend state
  obtain rfl := Option.some.inj (hamend'.symm.trans hamend)
  obtain ⟨node, hnode⟩ := h.current
  obtain ⟨node', hnode', heq⟩ := Option.bind_eq_some_iff.1 hamend
  cases heq
  obtain ⟨n, htrail⟩ := h.trail
  refine ⟨hwf, ⟨n, ?_⟩, ?_⟩
  · have hup := htrail.set { node' with state := state } [] hnode' rfl
      fun k hk hk' => absurd (hk'.unique htrail) (Nat.ne_of_lt hk)
    simpa using hup
  · obtain ⟨root, hroot, hstate⟩ := h.first
    exact ⟨root, (List.getElem?_set_ne hcur).trans hroot, hstate⟩

theorem canUndo_of_trail_zero (h : Trail tree.nodes tree.root tree.current 0) :
    tree.canUndo = some false ∧ tree.current = tree.root := by
  generalize hc : tree.current = c at h
  cases h with
  | root hroot hparent => exact ⟨by simp [canUndo, currentNode, hc, hroot, hparent], rfl⟩

theorem undo_of_trail_succ {n : Nat} (h : Trail tree.nodes tree.root tree.current (n + 1)) :
    ∃ b, tree.canUndo = some true ∧ tree.undo = some { tree with current := b } ∧
      Trail tree.nodes tree.root b n ∧ ({ tree with current := b } : UndoTree).canRedo = some true ∧
      ({ tree with current := b } : UndoTree).redo = some tree := by
  generalize hc : tree.current = c at h
  cases h with
  | up hb ha hparent hbnode hrecent =>
      have hne : ∀ node : Node, node.children[node.mostRecentChild]? = some c →
          node.children.isEmpty = false := by
        intro node hnode
        cases hchildren : node.children with
        | nil => simp [hchildren] at hnode
        | cons => rfl
      refine ⟨_, ?_, ?_, hb, ?_, ?_⟩
      · simp [canUndo, currentNode, hc, ha, hparent]
      · simp [UndoTree.undo, currentNode, hc, ha, hparent]
      · simp [canRedo, currentNode, hbnode, hne _ hrecent]
      · simp only [UndoTree.redo, currentNode, hbnode, Option.bind_eq_bind, Option.bind_some,
          hne _ hrecent, Bool.false_eq_true, if_false, hrecent, Option.some.injEq]
        rw [← hc]

theorem Grown.move (h : Grown first tree) {a n : Nat} (ha : Trail tree.nodes tree.root a n) :
    Grown first { tree with current := a } :=
  ⟨h.toWellFormed.move ha.exists_node, ⟨n, ha⟩, h.first⟩

theorem Grown.one_lt (h : Grown first tree) {a : Nat} {node : Node}
    (ha : tree.nodes[a]? = some node) (hparent : node.parent ≠ none) : 1 < tree.nodes.length := by
  obtain ⟨root, hroot, hnone⟩ := h.root
  have hne : a ≠ tree.root := by
    rintro rfl
    obtain rfl := Option.some.inj (ha.symm.trans hroot)
    exact hparent hnone
  have hlt := (List.getElem?_eq_some_iff.1 ha).1
  have hlt' := (List.getElem?_eq_some_iff.1 hroot).1
  omega

theorem Grown.one_lt_of_ne (h : Grown first tree) (hne : tree.current ≠ tree.root) :
    1 < tree.nodes.length := by
  obtain ⟨node, hnode⟩ := h.current
  obtain ⟨n, htrail⟩ := h.trail
  generalize hc : tree.current = c at htrail
  cases htrail with
  | root => exact absurd hc hne
  | up _ ha hparent _ _ => exact h.one_lt ha (hparent ▸ Option.some_ne_none _)

theorem Grown.current_eq_root (h : Grown first tree) (hable : tree.canUndo = some false) :
    tree.current = tree.root := by
  obtain ⟨n, htrail⟩ := h.trail
  cases n with
  | zero => exact (canUndo_of_trail_zero htrail).2
  | succ n =>
      obtain ⟨b, hundo, -⟩ := undo_of_trail_succ htrail
      rw [hundo] at hable
      cases hable

theorem Grown.canUndo_root (h : Grown first tree) :
    ({ tree with current := tree.root } : UndoTree).canUndo = some false := by
  obtain ⟨root, hroot, hnone⟩ := h.root
  simp [canUndo, currentNode, hroot, hnone]

theorem Grown.one_lt_of_canUndo (h : Grown first tree) (hable : tree.canUndo = some true) :
    1 < tree.nodes.length := by
  obtain ⟨node, hnode, hable⟩ := Option.bind_eq_some_iff.1 hable
  rw [Option.some.injEq, Option.isSome_iff_ne_none] at hable
  exact h.one_lt hnode hable

theorem Grown.one_lt_of_canRedo (h : Grown first tree) (hable : tree.canRedo = some true) :
    1 < tree.nodes.length := by
  obtain ⟨node, hnode, hable⟩ := Option.bind_eq_some_iff.1 hable
  cases hchildren : node.children with
  | nil =>
      rw [hchildren] at hable
      cases hable
  | cons j children =>
      obtain ⟨c, hc, hparent⟩ := h.child hnode (j := j) (hchildren ▸ List.mem_cons_self)
      exact h.one_lt hc (hparent ▸ Option.some_ne_none _)

theorem undo_nodes (hundo : tree.undo = some tree') : tree'.nodes = tree.nodes := by
  obtain ⟨node, hnode, hundo⟩ := Option.bind_eq_some_iff.1 hundo
  split at hundo <;> cases hundo <;> rfl

theorem redo_nodes (hredo : tree.redo = some tree') : tree'.nodes = tree.nodes := by
  obtain ⟨node, hnode, hredo⟩ := Option.bind_eq_some_iff.1 hredo
  split at hredo
  · cases hredo
    rfl
  · obtain ⟨child, hchild, hredo⟩ := Option.bind_eq_some_iff.1 hredo
    cases hredo
    rfl

theorem Grown.undo (h : Grown first tree) (hundo : tree.undo = some tree') : Grown first tree' := by
  obtain ⟨n, htrail⟩ := h.trail
  cases n with
  | zero =>
      obtain ⟨hable, -⟩ := canUndo_of_trail_zero htrail
      obtain ⟨node, hnode, hable⟩ := Option.bind_eq_some_iff.1 hable
      simp only [Option.some.injEq, Option.isSome_eq_false_iff, Option.isNone_iff_eq_none] at hable
      simp only [UndoTree.undo, hnode, hable, Option.bind_eq_bind, Option.bind_some,
        Option.some.injEq] at hundo
      exact hundo ▸ h
  | succ n =>
      obtain ⟨b, -, hundo', hb, -⟩ := undo_of_trail_succ htrail
      obtain rfl := Option.some.inj (hundo'.symm.trans hundo)
      exact h.move hb

theorem Grown.redo (h : Grown first tree) (hredo : tree.redo = some tree') : Grown first tree' := by
  obtain ⟨node, hnode, hredo⟩ := Option.bind_eq_some_iff.1 hredo
  split at hredo
  · cases hredo
    exact h
  · obtain ⟨child, hchild, hredo⟩ := Option.bind_eq_some_iff.1 hredo
    cases hredo
    obtain ⟨n, htrail⟩ := h.trail
    obtain ⟨c, hc, hparent⟩ := h.child hnode (List.mem_of_getElem? hchild)
    exact h.move (.up htrail hc hparent hnode hchild)

end Grow

end UndoTree

end Ned.Text
