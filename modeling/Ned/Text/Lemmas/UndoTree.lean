import Ned.Text.UndoTree
import Mathlib.Data.List.Nodup

/-!
# The undo tree

Its invariant, and that every operation keeps it.
-/

namespace Ned.Text

open Ned.Library

namespace UndoTree

/-- The nodes that child lists lead to from the root. -/
inductive Reachable (nodes : List Node) (root : Nat) : Nat → Prop
  | root : Reachable nodes root root
  | child {i j : Nat} {node : Node} (h : Reachable nodes root i) (hi : nodes[i]? = some node)
      (hj : j ∈ node.children) : Reachable nodes root j

/-- Child lists and parent links match, every index is in bounds, and the sequences name the nodes. -/
structure WellFormed (tree : UndoTree) : Prop where
  root : ∃ node, tree.nodes[tree.root]? = some node ∧ node.parent = none
  current : ∃ node, tree.nodes[tree.current]? = some node
  child : ∀ {i j : Nat} {node : Node}, tree.nodes[i]? = some node → j ∈ node.children →
    ∃ c, tree.nodes[j]? = some c ∧ c.parent = some i
  parent : ∀ {i j : Nat} {c : Node}, tree.nodes[j]? = some c → c.parent = some i →
    ∃ node, tree.nodes[i]? = some node ∧ j ∈ node.children
  nodup : ∀ {i : Nat} {node : Node}, tree.nodes[i]? = some node → node.children.Nodup
  mostRecent : ∀ {i : Nat} {node : Node}, tree.nodes[i]? = some node → node.children ≠ [] →
    node.mostRecentChild < node.children.length
  reachable : ∀ {i : Nat} {node : Node}, tree.nodes[i]? = some node →
    Reachable tree.nodes tree.root i
  sequence : ∀ {i : Nat} {node : Node}, tree.nodes[i]? = some node →
    tree.bySequence.lookup node.sequence = some i ∧ node.sequence < tree.nextSequence
  named : ∀ {seq i : Nat}, tree.bySequence.lookup seq = some i →
    ∃ node, tree.nodes[i]? = some node ∧ node.sequence = seq

theorem wellFormed_ofState (state : Storage) : WellFormed (ofState state) := by
  have honly : ∀ {i : Nat} {node : Node}, (ofState state).nodes[i]? = some node →
      i = 0 ∧ node = { state := state, parent := none, children := [], mostRecentChild := 0,
                       sequence := 0 } := by
    intro i node h
    cases i with
    | zero => exact ⟨rfl, (Option.some.inj h).symm⟩
    | succ i => simp [ofState] at h
  refine ⟨⟨_, rfl, rfl⟩, ⟨_, rfl⟩, fun h hj => ?_, fun h hp => ?_, fun h => ?_, fun h hne => ?_,
    fun h => ?_, fun h => ?_, fun {seq i} h => ?_⟩
  · obtain ⟨-, rfl⟩ := honly h
    cases hj
  · obtain ⟨-, rfl⟩ := honly h
    cases hp
  · obtain ⟨-, rfl⟩ := honly h
    exact List.nodup_nil
  · obtain ⟨-, rfl⟩ := honly h
    exact absurd rfl hne
  · obtain ⟨rfl, -⟩ := honly h
    exact .root
  · obtain ⟨rfl, rfl⟩ := honly h
    exact ⟨rfl, Nat.one_pos⟩
  · simp only [ofState, List.lookup_cons, List.lookup_nil] at h
    split at h
    · rename_i heq
      cases h
      exact ⟨_, rfl, (beq_iff_eq.1 heq).symm⟩
    · cases h

structure SameLinks (node node' : Node) : Prop where
  parent : node'.parent = node.parent
  children : node'.children = node.children
  sequence : node'.sequence = node.sequence

theorem getElem?_set_cases {nodes : List Node} {a i : Nat} {old new node : Node}
    (ha : nodes[a]? = some old) (h : (nodes.set a new)[i]? = some node) :
    (i = a ∧ node = new) ∨ (i ≠ a ∧ nodes[i]? = some node) := by
  by_cases hi : i = a
  · subst hi
    rw [List.getElem?_set_self (List.getElem?_eq_some_iff.1 ha).1] at h
    exact Or.inl ⟨rfl, (Option.some.inj h).symm⟩
  · rw [List.getElem?_set_ne (Ne.symm hi)] at h
    exact Or.inr ⟨hi, h⟩

section Modify

variable {tree : UndoTree} {a : Nat} {old new : Node}

theorem set_sameLinks (ha : tree.nodes[a]? = some old) (hsame : SameLinks old new) {i : Nat} :
    (∀ node, (tree.nodes.set a new)[i]? = some node →
      ∃ node', tree.nodes[i]? = some node' ∧ SameLinks node' node) ∧
    (∀ node, tree.nodes[i]? = some node →
      ∃ node', (tree.nodes.set a new)[i]? = some node' ∧ SameLinks node node') := by
  refine ⟨fun node h => ?_, fun node h => ?_⟩
  · rcases getElem?_set_cases ha h with ⟨rfl, rfl⟩ | ⟨-, h⟩
    · exact ⟨old, ha, hsame⟩
    · exact ⟨node, h, rfl, rfl, rfl⟩
  · by_cases hi : i = a
    · subst hi
      obtain rfl := Option.some.inj (h.symm.trans ha)
      exact ⟨new, List.getElem?_set_self (List.getElem?_eq_some_iff.1 ha).1, hsame⟩
    · exact ⟨node, (List.getElem?_set_ne (Ne.symm hi)).trans h, rfl, rfl, rfl⟩

theorem Reachable.mono {nodes nodes' : List Node} {root i : Nat}
    (hnodes : ∀ (i : Nat) (node : Node), nodes[i]? = some node →
      ∃ node' : Node, nodes'[i]? = some node' ∧ ∀ j ∈ node.children, j ∈ node'.children)
    (h : Reachable nodes root i) : Reachable nodes' root i := by
  induction h with
  | root => exact .root
  | child _ hi hj ih =>
      obtain ⟨node', hi', hsub⟩ := hnodes _ _ hi
      exact .child ih hi' (hsub _ hj)

theorem WellFormed.modify (h : tree.WellFormed) (ha : tree.nodes[a]? = some old)
    (hsame : SameLinks old new)
    (hrecent : new.children ≠ [] → new.mostRecentChild < new.children.length) {c : Nat}
    (hc : ∃ node, tree.nodes[c]? = some node) :
    WellFormed { tree with nodes := tree.nodes.set a new, current := c } := by
  have hback := fun {i : Nat} => (set_sameLinks ha hsame (i := i)).1
  have hforth := fun {i : Nat} => (set_sameLinks ha hsame (i := i)).2
  refine ⟨?_, ?_, fun {i j node} hi hj => ?_, fun {i j c} hj hp => ?_, fun {i node} hi => ?_,
    fun {i node} hi hne => ?_, fun {i node} hi => ?_, fun {i node} hi => ?_, fun {seq i} hseq => ?_⟩
  · obtain ⟨node, hroot, hparent⟩ := h.root
    obtain ⟨node', hroot', hlinks⟩ := hforth node hroot
    exact ⟨node', hroot', hlinks.parent.trans hparent⟩
  · obtain ⟨node, hnode⟩ := hc
    obtain ⟨node', hnode', -⟩ := hforth node hnode
    exact ⟨node', hnode'⟩
  · obtain ⟨node', hi', hlinks⟩ := hback node hi
    obtain ⟨c, hc, hparent⟩ := h.child hi' (hlinks.children ▸ hj)
    obtain ⟨c', hc', hlinks'⟩ := hforth c hc
    exact ⟨c', hc', hlinks'.parent.trans hparent⟩
  · obtain ⟨c', hj', hlinks⟩ := hback c hj
    obtain ⟨node, hnode, hmem⟩ := h.parent hj' (hlinks.parent ▸ hp)
    obtain ⟨node', hnode', hlinks'⟩ := hforth node hnode
    exact ⟨node', hnode', hlinks'.children ▸ hmem⟩
  · obtain ⟨node', hi', hlinks⟩ := hback node hi
    rw [hlinks.children]
    exact h.nodup hi'
  · rcases getElem?_set_cases ha hi with ⟨rfl, rfl⟩ | ⟨-, hi⟩
    · exact hrecent hne
    · exact h.mostRecent hi hne
  · obtain ⟨node', hi', -⟩ := hback node hi
    refine (h.reachable hi').mono fun k kept hk => ?_
    obtain ⟨kept', hkept', hlinks⟩ := hforth kept hk
    exact ⟨kept', hkept', fun j hj => hlinks.children ▸ hj⟩
  · obtain ⟨node', hi', hlinks⟩ := hback node hi
    rw [hlinks.sequence]
    exact h.sequence hi'
  · obtain ⟨node, hnode, hsequence⟩ := h.named hseq
    obtain ⟨node', hnode', hlinks⟩ := hforth node hnode
    exact ⟨node', hnode', hlinks.sequence.trans hsequence⟩

end Modify

/-! ## Recording -/

section Record

variable {tree : UndoTree} {node : Node} {state : Storage}

/-- The current node after a new child was pushed. -/
def Node.push (node : Node) (child : Nat) : Node :=
  { node with children := node.children ++ [child], mostRecentChild := node.children.length }

def recorded (tree : UndoTree) (state : Storage) : Node :=
  { state := state, parent := some tree.current, children := [], mostRecentChild := 0,
    sequence := tree.nextSequence }

theorem record_eq (h : tree.nodes[tree.current]? = some node) (state : Storage) :
    tree.record state = some
      { tree with
        nodes := tree.nodes.set tree.current (node.push tree.nodes.length) ++
          [tree.recorded state]
        current := tree.nodes.length
        nextSequence := tree.nextSequence + 1
        bySequence := emplace tree.bySequence tree.nextSequence tree.nodes.length } := by
  rw [UndoTree.record, currentNode, h]
  rfl

theorem record_cases {i : Nat} {c : Node} (h : tree.nodes[tree.current]? = some node)
    (hi : (tree.nodes.set tree.current (node.push tree.nodes.length) ++ [tree.recorded state])[i]? =
      some c) :
    (i = tree.nodes.length ∧ c = tree.recorded state) ∨
      (i = tree.current ∧ c = node.push tree.nodes.length) ∨
      (i ≠ tree.current ∧ tree.nodes[i]? = some c) := by
  rw [List.getElem?_append] at hi
  split at hi
  · exact Or.inr (getElem?_set_cases h hi)
  · rename_i hlt
    rw [List.length_set] at hlt hi
    have hzero : i - tree.nodes.length = 0 := by
      rw [List.getElem?_singleton] at hi
      split at hi
      · assumption
      · cases hi
    rw [hzero] at hi
    exact Or.inl ⟨by omega, (Option.some.inj hi).symm⟩

theorem record_new :
    (tree.nodes.set tree.current (node.push tree.nodes.length) ++
      [tree.recorded state])[tree.nodes.length]? = some (tree.recorded state) := by
  rw [List.getElem?_append_right (Nat.le_of_eq List.length_set), List.length_set, Nat.sub_self]
  rfl

theorem record_current (h : tree.nodes[tree.current]? = some node) :
    (tree.nodes.set tree.current (node.push tree.nodes.length) ++
      [tree.recorded state])[tree.current]? = some (node.push tree.nodes.length) := by
  have hlt : tree.current < tree.nodes.length := (List.getElem?_eq_some_iff.1 h).1
  rw [List.getElem?_append_left (by rwa [List.length_set]), List.getElem?_set_self hlt]

theorem record_other {i : Nat} {c : Node} (hne : i ≠ tree.current) (hi : tree.nodes[i]? = some c) :
    (tree.nodes.set tree.current (node.push tree.nodes.length) ++ [tree.recorded state])[i]? =
      some c := by
  have hlt : i < tree.nodes.length := (List.getElem?_eq_some_iff.1 hi).1
  rw [List.getElem?_append_left (by rwa [List.length_set]), List.getElem?_set_ne (Ne.symm hne), hi]

theorem record_kept (h : tree.nodes[tree.current]? = some node) {i : Nat} {c : Node}
    (hi : tree.nodes[i]? = some c) :
    ∃ c' : Node, (tree.nodes.set tree.current (node.push tree.nodes.length) ++
        [tree.recorded state])[i]? = some c' ∧ c'.parent = c.parent ∧ c'.sequence = c.sequence ∧
      ∀ j ∈ c.children, j ∈ c'.children := by
  by_cases hne : i = tree.current
  · subst hne
    obtain rfl := Option.some.inj (h.symm.trans hi)
    exact ⟨_, record_current h, rfl, rfl, fun j hj => List.mem_append_left _ hj⟩
  · exact ⟨c, record_other hne hi, rfl, rfl, fun _ hj => hj⟩

theorem WellFormed.record (h : tree.WellFormed) (state : Storage) :
    ∃ tree', tree.record state = some tree' ∧ tree'.WellFormed := by
  obtain ⟨node, hnode⟩ := h.current
  refine ⟨_, record_eq hnode state, ?_⟩
  have hfresh : tree.bySequence.lookup tree.nextSequence = none := by
    cases hlook : tree.bySequence.lookup tree.nextSequence with
    | none => rfl
    | some i =>
        obtain ⟨c, hc, hseq⟩ := h.named hlook
        exact absurd (h.sequence hc).2 (by rw [hseq]; exact Nat.lt_irrefl _)
  have hlookup : ∀ seq, (emplace tree.bySequence tree.nextSequence tree.nodes.length).lookup seq =
      (tree.bySequence.lookup seq).or
        (if seq == tree.nextSequence then some tree.nodes.length else none) := by
    intro seq
    rw [emplace_of_lookup_eq_none hfresh, lookup_append]
    congr 1
    simp only [List.lookup_cons, List.lookup_nil]
    split <;> rename_i hseq <;> rw [hseq] <;> rfl
  have hbound : ∀ {i : Nat} {c : Node}, tree.nodes[i]? = some c → i ≠ tree.nodes.length :=
    fun hi => Nat.ne_of_lt (List.getElem?_eq_some_iff.1 hi).1
  refine ⟨?_, ⟨_, record_new⟩, fun {i j c} hi hj => ?_, fun {i j c} hj hp => ?_,
    fun {i c} hi => ?_, fun {i c} hi hne => ?_, fun {i c} hi => ?_, fun {i c} hi => ?_,
    fun {seq i} hseq => ?_⟩
  · obtain ⟨root, hroot, hparent⟩ := h.root
    obtain ⟨root', hroot', hparent', -, -⟩ := record_kept hnode hroot
    exact ⟨root', hroot', hparent'.trans hparent⟩
  · rcases record_cases hnode hi with ⟨rfl, rfl⟩ | ⟨rfl, rfl⟩ | ⟨hne, hi⟩
    · cases hj
    · rcases List.mem_append.1 hj with hj | hj
      · obtain ⟨c, hc, hparent⟩ := h.child hnode hj
        obtain ⟨c', hc', hparent', -, -⟩ := record_kept hnode hc
        exact ⟨c', hc', hparent'.trans hparent⟩
      · obtain rfl := List.mem_singleton.1 hj
        exact ⟨_, record_new, rfl⟩
    · obtain ⟨c, hc, hparent⟩ := h.child hi hj
      obtain ⟨c', hc', hparent', -, -⟩ := record_kept hnode hc
      exact ⟨c', hc', hparent'.trans hparent⟩
  · rcases record_cases hnode hj with ⟨rfl, rfl⟩ | ⟨rfl, rfl⟩ | ⟨-, hj⟩
    · obtain rfl := Option.some.inj hp
      exact ⟨_, record_current hnode, List.mem_append_right _ (List.mem_singleton.2 rfl)⟩
    · obtain ⟨parent, hparent, hmem⟩ := h.parent hnode hp
      obtain ⟨parent', hparent', -, -, hsub⟩ := record_kept hnode hparent
      exact ⟨parent', hparent', hsub _ hmem⟩
    · obtain ⟨parent, hparent, hmem⟩ := h.parent hj hp
      obtain ⟨parent', hparent', -, -, hsub⟩ := record_kept hnode hparent
      exact ⟨parent', hparent', hsub _ hmem⟩
  · rcases record_cases hnode hi with ⟨rfl, rfl⟩ | ⟨rfl, rfl⟩ | ⟨-, hi⟩
    · exact List.nodup_nil
    · refine List.nodup_append.2 ⟨h.nodup hnode, by simp, ?_⟩
      rintro j hj k hk rfl
      obtain ⟨c, hc, -⟩ := h.child hnode hj
      exact hbound hc (List.mem_singleton.1 hk)
    · exact h.nodup hi
  · rcases record_cases hnode hi with ⟨rfl, rfl⟩ | ⟨rfl, rfl⟩ | ⟨-, hi⟩
    · exact absurd rfl hne
    · simp [Node.push]
    · exact h.mostRecent hi hne
  · have hmono : ∀ (i : Nat) (c : Node), tree.nodes[i]? = some c → ∃ c' : Node,
        (tree.nodes.set tree.current (node.push tree.nodes.length) ++ [tree.recorded state])[i]? =
          some c' ∧ ∀ j ∈ c.children, j ∈ c'.children := by
      intro i c hc
      obtain ⟨c', hc', -, -, hsub⟩ := record_kept hnode hc
      exact ⟨c', hc', hsub⟩
    rcases record_cases hnode hi with ⟨rfl, rfl⟩ | ⟨rfl, rfl⟩ | ⟨-, hi⟩
    · exact .child ((h.reachable hnode).mono hmono) (record_current hnode)
        (List.mem_append_right _ (List.mem_singleton.2 rfl))
    · exact (h.reachable hnode).mono hmono
    · exact (h.reachable hi).mono hmono
  · simp only [hlookup]
    rcases record_cases hnode hi with ⟨rfl, rfl⟩ | ⟨rfl, rfl⟩ | ⟨-, hi⟩
    · exact ⟨by simp [recorded, hfresh], Nat.lt_succ_self _⟩
    · obtain ⟨hlook, hlt⟩ := h.sequence hnode
      exact ⟨by rw [show (node.push _).sequence = node.sequence from rfl, hlook, Option.some_or],
        Nat.lt_succ_of_lt hlt⟩
    · obtain ⟨hlook, hlt⟩ := h.sequence hi
      exact ⟨by rw [hlook, Option.some_or], Nat.lt_succ_of_lt hlt⟩
  · rw [hlookup] at hseq
    rcases Option.or_eq_some_iff.1 hseq with hseq | ⟨-, hseq⟩
    · obtain ⟨c, hc, hcseq⟩ := h.named hseq
      obtain ⟨c', hc', -, hseq', -⟩ := record_kept hnode hc
      exact ⟨c', hc', hseq'.trans hcseq⟩
    · split at hseq
      · rename_i heq
        obtain rfl := Option.some.inj hseq
        exact ⟨_, record_new, (beq_iff_eq.1 heq).symm⟩
      · cases hseq

end Record

/-! ## The other operations -/

section Operations

variable {tree : UndoTree}

theorem WellFormed.amend (h : tree.WellFormed) (state : Storage) :
    ∃ tree', tree.amend state = some tree' ∧ tree'.WellFormed := by
  obtain ⟨node, hnode⟩ := h.current
  refine ⟨{ tree with nodes := tree.nodes.set tree.current { node with state := state } }, ?_, ?_⟩
  · rw [UndoTree.amend, currentNode, hnode]
    rfl
  · have hsame : SameLinks node { node with state := state } := ⟨rfl, rfl, rfl⟩
    have hrecent := h.mostRecent hnode
    exact h.modify hnode hsame hrecent h.current

theorem WellFormed.move (h : tree.WellFormed) {a : Nat} (ha : ∃ node, tree.nodes[a]? = some node) :
    WellFormed { tree with current := a } :=
  ⟨h.root, ha, h.child, h.parent, h.nodup, h.mostRecent, h.reachable, h.sequence, h.named⟩

theorem WellFormed.undo (h : tree.WellFormed) :
    ∃ tree', tree.undo = some tree' ∧ tree'.WellFormed := by
  obtain ⟨node, hnode⟩ := h.current
  rw [UndoTree.undo, currentNode, hnode, Option.bind_eq_bind, Option.bind_some]
  split
  · exact ⟨tree, rfl, h⟩
  · rename_i parent hparent
    obtain ⟨p, hp, -⟩ := h.parent hnode hparent
    exact ⟨_, rfl, h.move ⟨p, hp⟩⟩

theorem WellFormed.redo (h : tree.WellFormed) :
    ∃ tree', tree.redo = some tree' ∧ tree'.WellFormed := by
  obtain ⟨node, hnode⟩ := h.current
  rw [UndoTree.redo, currentNode, hnode, Option.bind_eq_bind, Option.bind_some]
  split
  · exact ⟨tree, rfl, h⟩
  · rename_i hne
    have hlt := h.mostRecent hnode (fun hnil => hne (List.isEmpty_iff.2 hnil))
    rw [List.getElem?_eq_getElem hlt]
    obtain ⟨c, hc, -⟩ := h.child hnode (List.getElem_mem hlt)
    exact ⟨_, rfl, h.move ⟨c, hc⟩⟩

theorem repoint_sameLinks (parent : Node) (target : Nat) :
    SameLinks parent (repoint parent target) := by
  unfold repoint
  split <;> exact ⟨rfl, rfl, rfl⟩

theorem repoint_mostRecent {parent : Node} {target : Nat}
    (h : parent.children ≠ [] → parent.mostRecentChild < parent.children.length) :
    (repoint parent target).children ≠ [] →
      (repoint parent target).mostRecentChild < (repoint parent target).children.length := by
  unfold repoint
  split
  · exact h
  · rename_i i hi
    exact fun _ => (List.findIdx?_eq_some_iff_findIdx_eq.1 hi).1

theorem WellFormed.jumpTo (h : tree.WellFormed) (sequence : Nat) :
    ∃ tree' known, tree.jumpTo sequence = some (tree', known) ∧ tree'.WellFormed := by
  unfold UndoTree.jumpTo
  split
  · exact ⟨tree, false, rfl, h⟩
  · rename_i target htarget
    obtain ⟨node, hnode, -⟩ := h.named htarget
    rw [hnode, Option.bind_eq_bind, Option.bind_some]
    split
    · exact ⟨_, true, rfl, h.move ⟨node, hnode⟩⟩
    · rename_i address haddress
      obtain ⟨parent, hparent, -⟩ := h.parent hnode haddress
      rw [hparent, Option.bind_some]
      exact ⟨_, true, rfl, h.modify hparent (repoint_sameLinks _ _)
        (repoint_mostRecent (h.mostRecent hparent)) ⟨node, hnode⟩⟩

end Operations

end UndoTree

end Ned.Text
