import Mathlib.Algebra.Order.BigOperators.Group.List
import Ned.Editor.Parse.Lemmas.Green

/-!
# Editing a tree

An edited tree has the shape of the old one and the lengths of the edited text. Nodes that have not
read any of it are left alone, those behind it keep their sizes, and those it touches are marked.
-/

namespace Ned.Editor.Parse

namespace Subtree

variable {t : Subtree} {e : Edit}

/-! ## Lengths -/

theorem edit_handled (hsummed : t.Summed) (hbounded : t.Bounded) (he : e.Valid)
    (hnew : e.newTotal t.total < 2 ^ 32) (hbefore : ¬t.isBefore e = true) :
    HandledAll e.start.bytes e.oldEnd.bytes 0 t.children (t.edit e).children := by
  rw [(edit_edited hbefore).children]
  by_cases hne : t.children = []
  · rw [hne, editChildren]
    exact .nil 0
  · exact editChildren_handled (walk hsummed hbounded he hnew hne)

/-- A node and its first child are cut alike. -/
theorem edit_first (hsummed : t.Summed) (hbounded : t.Bounded) (he : e.Valid)
    (hnew : e.newTotal t.total < 2 ^ 32) (hbefore : ¬t.isBefore e = true) :
    ∀ first' ∈ (t.edit e).children.head?, (t.edit e).padding.bytes = first'.padding.bytes := by
  rw [edit_padding hbounded.fits he hnew, (edit_edited hbefore).children]
  have hpadding := hsummed.padding
  have hwalk := walk hsummed hbounded he hnew
  generalize t.children = cs at hpadding hwalk
  cases cs with
  | nil =>
      rw [editChildren]
      exact fun _ hfirst => absurd hfirst (by simp)
  | cons first rest =>
      have hwalk := hwalk (List.cons_ne_nil _ _)
      have hstart := he.oldEnd
      have hfits := hwalk.child_fits
      have htotal : first.total = first.padding.bytes + first.size.bytes := rfl
      have hreach : first.reach = first.total + first.lookaheadBytes := rfl
      have hzero : Length.zero.bytes = 0 := rfl
      rw [hpadding first rfl]
      have hstep := hwalk.step (i := 0)
      generalize editChildren (t.childLoop e) 0 .zero e (first :: rest) = out at hstep ⊢
      cases hstep with
      | before hless =>
          intro first' hfirst
          obtain rfl : first = first' := by simpa using hfirst
          rw [Edit.newPadding, if_neg (by omega), if_neg (by omega)]
      | stop hstop => omega
      | cut hreach hin =>
          intro first' hfirst
          obtain rfl : first.edit (e.within .zero) = first' := by simpa using hfirst
          rw [edit_padding hfits (he.within _) hwalk.cut_lt]
          simp only [Edit.newPadding, Edit.within_start, Edit.within_oldEnd, Edit.within_newEnd,
            hzero, Nat.sub_zero]
      | mark hreach hle hne =>
          intro first' hfirst
          obtain rfl : first.edit (e.within .zero).atStart = first' := by simpa using hfirst
          rw [edit_padding hfits Edit.valid_atStart
            ((Edit.newTotal_noop (e := (e.within .zero).atStart) rfl rfl first.total).symm ▸
              hfits.total_lt),
            Edit.newPadding_noop (e := (e.within .zero).atStart) rfl rfl, Edit.newPadding, if_neg (by omega), if_neg (by omega)]

theorem edit_node_summed (hsummed : t.Summed) (hbounded : t.Bounded) (he : e.Valid)
    (hnew : e.newTotal t.total < 2 ^ 32) (hbefore : ¬t.isBefore e = true) : (t.edit e).Summed where
  padding := edit_first hsummed hbounded he hnew hbefore
  total := by
    intro hne'
    have hne : t.children ≠ [] := by
      intro hnil
      have hlength := (edit_handled hsummed hbounded he hnew hbefore).length
      rw [hnil] at hlength
      exact hne' (List.length_eq_zero_iff.1 hlength)
    have hsum : ((t.edit e).children.map total).sum = e.newTotal t.total := by
      rw [(edit_edited hbefore).children, ← sum_editChildren (walk hsummed hbounded he hnew hne)
        (Nat.zero_le _) (Or.inr (Or.inr ⟨rfl, hne⟩)), Length.zero_bytes, Nat.zero_add]
    have hchild : ∀ child ∈ (t.edit e).children, child.totalBytes = child.total := by
      intro child hchild
      apply totalBytes_of_lt
      apply Nat.lt_of_le_of_lt _ (hsum ▸ hnew)
      exact List.single_le_sum (fun _ _ => Nat.zero_le _) _ (List.mem_map_of_mem hchild)
    rw [totalBytes_of_lt (by rwa [edit_total hbounded.fits he hnew]),
      edit_total hbounded.fits he hnew, ← hsum]
    congr 1
    exact List.map_congr_left fun child hmem => (hchild child hmem).symm

theorem edit_summed (hsummed : t.Everywhere Summed) (hbounded : t.Everywhere Bounded) (he : e.Valid)
    (hnew : e.newTotal t.total < 2 ^ 32) : (t.edit e).Everywhere Summed := by
  induction hsummed generalizing e with
  | @intro t hsummed hchildren ih =>
      by_cases hbefore : t.isBefore e = true
      · rw [edit_of_isBefore hbefore]
        exact .intro hsummed hchildren
      · refine .intro (edit_node_summed hsummed hbounded.here he hnew hbefore) fun child' hchild' => ?_
        obtain ⟨child, hmem, left, hhandled⟩ :=
          (edit_handled hsummed hbounded.here he hnew hbefore).exists_of_mem hchild'
        have hfits := hbounded.here.child_fits child hmem
        cases hhandled with
        | before => exact hchildren _ hmem
        | behind => exact hchildren _ hmem
        | cut e' valid hstart holdEnd fits => exact ih _ hmem (hbounded.children _ hmem) valid fits
        | mark e' hstart holdEnd hnewEnd =>
            refine ih _ hmem (hbounded.children _ hmem) ⟨holdEnd.ge, hnewEnd.ge⟩ ?_
            rw [Edit.newTotal_noop holdEnd hnewEnd]
            exact hfits.total_lt

/-! ## Nodes -/

/-- What an edit of the bytes from `start` to `oldEnd` may do to a node at `left`. -/
structure Follows (start oldEnd left : Nat) (node node' : Subtree) : Prop where
  symbol : node'.symbol = node.symbol
  length : node'.children.length = node.children.length
  changed : node' = node ∨ node'.hasChanges = true
  before : left + node.reach < start → node' = node
  behind : oldEnd ≤ left + node.padding.bytes → node'.size = node.size
  touched : left < oldEnd → start < left + node.reach → 0 < node.reach → node'.hasChanges = true

theorem Follows.same {start oldEnd left : Nat}
    (h : left < oldEnd → start < left + t.reach → 0 < t.reach → False) :
    Follows start oldEnd left t t where
  symbol := rfl
  length := rfl
  changed := Or.inl rfl
  before := fun _ => rfl
  behind := fun _ => rfl
  touched := fun hleft hstart hreach => (h hleft hstart hreach).elim

/-- The edit a node at `left` is given: the whole of it, or, behind the node, only its start. -/
structure Frame (start oldEnd left : Nat) (t : Subtree) (e : Edit) : Prop where
  valid : e.Valid
  hstart : e.start.bytes = start - left
  holdEnd : e.oldEnd.bytes = oldEnd - left ∨ e.oldEnd.bytes = e.start.bytes ∧ t.total ≤ e.start.bytes
  fits : e.newTotal t.total < 2 ^ 32

theorem edit_node {start oldEnd left : Nat} (hle : start ≤ oldEnd) (hsummed : t.Summed)
    (hbounded : t.Bounded) (h : Frame start oldEnd left t e) :
    Follows start oldEnd left t (t.edit e) := by
  have hstart := h.hstart
  by_cases hbefore : t.isBefore e = true
  · rw [edit_of_isBefore hbefore]
    apply Follows.same
    intro hleft hin hreach
    rcases hbounded.fits.isBefore_iff.1 hbefore with hlt | ⟨-, heq⟩
    · omega
    · omega
  · have hedited := edit_edited hbefore
    refine ⟨hedited.symbol, (edit_handled hsummed hbounded h.valid h.fits hbefore).length,
      Or.inr hedited.changed, fun hlt => ?_, fun hbehind => hedited.size ?_,
      fun _ _ _ => hedited.changed⟩
    · exact absurd (hbounded.fits.isBefore_iff.2 (Or.inl (by omega))) hbefore
    · have holdEnd := h.holdEnd
      rw [editedLengths, if_pos (by omega)]

theorem Below.getElem? {bound left i : Nat} {cs : List Subtree} {child : Subtree}
    (h : Below bound left cs) (hchild : cs[i]? = some child) :
    left + ((cs.take i).map total).sum + child.reach ≤ bound := by
  induction cs generalizing left i with
  | nil => exact absurd hchild (by simp)
  | cons first rest ih =>
      cases i with
      | zero =>
          obtain rfl : first = child := by simpa using hchild
          simpa using h.1
      | succ i => simpa [Nat.add_assoc] using ih h.2 (by simpa using hchild)

theorem sum_take_le {i : Nat} {cs : List Subtree} {child : Subtree} (hchild : cs[i]? = some child) :
    ((cs.take i).map total).sum + child.total ≤ (cs.map total).sum := by
  induction cs generalizing i with
  | nil => exact absurd hchild (by simp)
  | cons first rest ih =>
      cases i with
      | zero =>
          obtain rfl : first = child := by simpa using hchild
          simp
      | succ i => simpa [Nat.add_assoc] using ih (by simpa using hchild)

theorem nodeAt_shift {left right : Nat} {node : Subtree} {path : List Nat}
    (h : t.nodeAt left path = some (right, node)) (left' : Nat) :
    ∃ right', t.nodeAt left' path = some (right', node) := by
  induction path generalizing t left left' with
  | nil =>
      obtain ⟨rfl, rfl⟩ : left = right ∧ t = node := by simpa [nodeAt] using h
      exact ⟨left', rfl⟩
  | cons i path ih =>
      obtain ⟨child, hchild, hnode⟩ := nodeAt_cons h
      rw [nodeAt, hchild]
      exact ih hnode _

theorem nodeAt_reach_le {left right : Nat} {node : Subtree} {path : List Nat}
    (hbounded : t.Everywhere Bounded) (h : t.nodeAt left path = some (right, node)) :
    left ≤ right ∧ right + node.reach ≤ left + t.reach := by
  induction path generalizing t left with
  | nil =>
      obtain ⟨rfl, rfl⟩ : left = right ∧ t = node := by simpa [nodeAt] using h
      exact ⟨Nat.le_refl _, Nat.le_refl _⟩
  | cons i path ih =>
      obtain ⟨child, hchild, hnode⟩ := nodeAt_cons h
      obtain ⟨hleft, hright⟩ := ih (hbounded.children child (List.mem_of_getElem? hchild)) hnode
      have hbelow := hbounded.here.below.getElem? hchild
      omega

theorem edit_nodeAt {start oldEnd left right : Nat} {node : Subtree} {path : List Nat}
    (hle : start ≤ oldEnd) (hsummed : t.Everywhere Summed) (hbounded : t.Everywhere Bounded)
    (h : Frame start oldEnd left t e) (hnode : t.nodeAt left path = some (right, node))
    (left' : Nat) : ∃ right' node', (t.edit e).nodeAt left' path = some (right', node') ∧
      Follows start oldEnd right node node' := by
  induction path generalizing t e left left' with
  | nil =>
      obtain ⟨rfl, rfl⟩ : left = right ∧ t = node := by simpa [nodeAt] using hnode
      exact ⟨left', t.edit e, rfl, edit_node hle hsummed.here hbounded.here h⟩
  | cons i path ih =>
      have hstart := h.hstart
      obtain ⟨child, hchild, hnode'⟩ := nodeAt_cons hnode
      have hmem := List.mem_of_getElem? hchild
      have hinside := nodeAt_reach_le hbounded hnode
      have hinChild := nodeAt_reach_le (hbounded.children child hmem) hnode'
      have hfits := hbounded.here.child_fits child hmem
      by_cases hbefore : t.isBefore e = true
      · obtain ⟨right', hsame⟩ := nodeAt_shift hnode left'
        rw [edit_of_isBefore hbefore]
        refine ⟨right', node, hsame, .same fun _ _ _ => ?_⟩
        rcases hbounded.here.fits.isBefore_iff.1 hbefore with hlt | ⟨-, heq⟩
        · omega
        · omega
      · have hsum := sum_take_le hchild
        rw [← total_eq_sum hsummed.here hbounded.here (List.ne_nil_of_mem hmem)] at hsum
        obtain ⟨child', hchild', hhandled⟩ :=
          (edit_handled hsummed.here hbounded.here h.valid h.fits hbefore).getElem? hchild
        simp only [nodeAt, hchild', Option.bind_some]
        rw [Nat.zero_add] at hhandled
        generalize ((t.children.take i).map total).sum = offset at hhandled hnode' hsum hinChild
        cases hhandled with
        | before hless =>
            obtain ⟨right', hsame⟩ := nodeAt_shift hnode' _
            exact ⟨right', node, hsame, .same fun _ _ _ => by omega⟩
        | behind hbehind =>
            obtain ⟨right', hsame⟩ := nodeAt_shift hnode' _
            refine ⟨right', node, hsame, .same fun _ _ _ => ?_⟩
            rcases h.holdEnd with holdEnd | ⟨holdEnd, hall⟩
            · omega
            · omega
        | cut e' valid hstart' holdEnd' fits =>
            refine ih (hsummed.children child hmem) (hbounded.children child hmem)
              ⟨valid, by omega, ?_, fits⟩ hnode' _
            rcases h.holdEnd with holdEnd | ⟨holdEnd, hall⟩
            · exact Or.inl (by omega)
            · exact Or.inr (by omega)
        | mark e' hstart' holdEnd' hnewEnd' hle' =>
            refine ih (hsummed.children child hmem) (hbounded.children child hmem)
              ⟨⟨holdEnd'.ge, hnewEnd'.ge⟩, by omega, Or.inr ⟨holdEnd', by omega⟩, ?_⟩ hnode' _
            rw [Edit.newTotal_noop holdEnd' hnewEnd']
            exact hfits.total_lt

end Subtree

open Subtree

/-- An edited tree is the tree of the edited text. -/
theorem subtreeEdit_sound {t : Subtree} {inputEdit : InputEdit} (hsummed : t.Everywhere Summed)
    (hbounded : t.Everywhere Bounded) (hstart : inputEdit.startByte ≤ inputEdit.oldEndByte)
    (holdEnd : inputEdit.oldEndByte ≤ t.totalBytes)
    (hnewEnd : inputEdit.startByte ≤ inputEdit.newEndByte)
    (hfits : t.totalBytes - (inputEdit.oldEndByte - inputEdit.startByte) +
      (inputEdit.newEndByte - inputEdit.startByte) < 2 ^ 32) :
    (subtreeEdit t inputEdit).Everywhere Summed ∧
      (subtreeEdit t inputEdit).totalBytes =
        t.totalBytes - (inputEdit.oldEndByte - inputEdit.startByte) +
          (inputEdit.newEndByte - inputEdit.startByte) ∧
      ∀ path left node, t.nodeAt 0 path = some (left, node) →
        ∃ left' node', (subtreeEdit t inputEdit).nodeAt 0 path = some (left', node') ∧
          Follows inputEdit.startByte inputEdit.oldEndByte left node node' := by
  let edit : Edit :=
    { start := ⟨inputEdit.startByte, inputEdit.startPoint⟩
      oldEnd := ⟨inputEdit.oldEndByte, inputEdit.oldEndPoint⟩
      newEnd := ⟨inputEdit.newEndByte, inputEdit.newEndPoint⟩ }
  have he : edit.Valid := ⟨hstart, hnewEnd⟩
  rw [hbounded.here.fits.totalBytes_eq] at holdEnd hfits ⊢
  have htotal : edit.newTotal t.total = t.total - (inputEdit.oldEndByte - inputEdit.startByte) +
      (inputEdit.newEndByte - inputEdit.startByte) := by
    rw [Edit.newTotal, if_pos]
    · change inputEdit.newEndByte + (t.total - inputEdit.oldEndByte) = _
      omega
    · change inputEdit.startByte < t.total ∨
        inputEdit.startByte = t.total ∧ inputEdit.startByte = inputEdit.oldEndByte
      omega
  have hnew : edit.newTotal t.total < 2 ^ 32 := htotal ▸ hfits
  have hroot : (t.edit edit).total = edit.newTotal t.total := edit_total hbounded.here.fits he hnew
  refine ⟨edit_summed hsummed hbounded he hnew, ?_, fun path left node hnode => ?_⟩
  · rw [← htotal, ← hroot]
    exact totalBytes_of_lt (hroot ▸ hnew)
  · exact edit_nodeAt hstart hsummed hbounded ⟨he, rfl, Or.inl rfl, hnew⟩ hnode 0

/-! ## Small trees -/

def columns (n : Nat) : Length := ⟨n, ⟨0, n⟩⟩

def plainNode (padding size lookaheadBytes : Nat) (children : List Subtree) : Subtree :=
  .heap { padding := columns padding, size := columns size, lookaheadBytes := lookaheadBytes } children

/-- An edit of one line that starts at some column. -/
def lineEdit (column start oldEnd newEnd : Nat) : InputEdit :=
  { startByte := start
    oldEndByte := oldEnd
    newEndByte := newEnd
    startPoint := ⟨0, column + start⟩
    oldEndPoint := ⟨0, column + oldEnd⟩
    newEndPoint := ⟨0, column + newEnd⟩ }

/-- Three leaves, of which the second is empty. -/
def threeLeaves : Subtree :=
  plainNode 0 6 1 [plainNode 0 2 0 [], plainNode 0 4 1 [plainNode 0 0 0 [], plainNode 0 4 1 []]]

theorem threeLeaves_everywhere {P : Subtree → Prop} (hroot : P threeLeaves)
    (hfirst : P (plainNode 0 2 0 [])) (hnode : P (plainNode 0 4 1 [plainNode 0 0 0 [], plainNode 0 4 1 []]))
    (hempty : P (plainNode 0 0 0 [])) (hlast : P (plainNode 0 4 1 [])) :
    threeLeaves.Everywhere P := by
  have hleaf : ∀ {padding size lookaheadBytes : Nat}, P (plainNode padding size lookaheadBytes []) →
      (plainNode padding size lookaheadBytes []).Everywhere P := fun h =>
    .intro h fun _ hchild => absurd hchild List.not_mem_nil
  refine .intro hroot (List.forall_mem_cons.2 ⟨hleaf hfirst, List.forall_mem_singleton.2 ?_⟩)
  exact .intro hnode
    (List.forall_mem_cons.2 ⟨hleaf hempty, List.forall_mem_singleton.2 (hleaf hlast)⟩)

theorem subtreeEdit_sound_three :
    (subtreeEdit threeLeaves (lineEdit 0 1 4 2)).Everywhere Summed ∧
      (subtreeEdit threeLeaves (lineEdit 0 1 4 2)).totalBytes = 4 := by
  have h := @subtreeEdit_sound threeLeaves (lineEdit 0 1 4 2)
    (threeLeaves_everywhere (by decide) (by decide) (by decide) (by decide) (by decide))
    (threeLeaves_everywhere (by decide) (by decide) (by decide) (by decide) (by decide))
    (by decide) (by decide) (by decide) (by decide)
  exact ⟨h.1, h.2.1⟩

/-- The first leaf has read past the node it is in. -/
def pastParent : Subtree :=
  plainNode 0 5 0 [plainNode 0 2 0 [plainNode 0 2 3 []], plainNode 0 3 0 []]

/-- A node and its leaf, behind some space. -/
def spaced : Subtree := plainNode 1 1 0 [plainNode 1 1 0 []]

theorem leaf_everywhere_summed {padding size lookaheadBytes : Nat} :
    (plainNode padding size lookaheadBytes []).Everywhere Summed :=
  .intro ⟨fun _ hfirst => absurd hfirst (by simp [plainNode, children]), fun hne => absurd rfl hne⟩
    fun _ hchild => absurd hchild List.not_mem_nil

theorem pastParent_everywhere_summed : pastParent.Everywhere Summed := by
  refine .intro (by decide)
    (List.forall_mem_cons.2 ⟨?_, List.forall_mem_singleton.2 leaf_everywhere_summed⟩)
  exact .intro (by decide) (List.forall_mem_singleton.2 leaf_everywhere_summed)

theorem spaced_everywhere_summed : spaced.Everywhere Summed :=
  .intro (by decide) (List.forall_mem_singleton.2 leaf_everywhere_summed)

/-- A leaf that has read past its parent is not marked, nor is an empty one within what is deleted.
Large offsets wrap, and points that are not those of the bytes drive paddings apart. -/
theorem not_subtreeEdit_sound :
    (pastParent.Everywhere Summed ∧ pastParent.totalBytes = 5 ∧
      pastParent.nodeAt 0 [0, 0] = some (0, plainNode 0 2 3 []) ∧
      4 < 0 + (plainNode 0 2 3 []).reach ∧
      (subtreeEdit pastParent (lineEdit 0 4 5 5)).nodeAt 0 [0, 0] = some (0, plainNode 0 2 3 []) ∧
      (plainNode 0 2 3 []).hasChanges = false) ∧
    (threeLeaves.Everywhere Summed ∧ threeLeaves.totalBytes = 6 ∧
      threeLeaves.nodeAt 0 [1, 0] = some (2, plainNode 0 0 0 []) ∧
      ((subtreeEdit threeLeaves (lineEdit 0 1 4 2)).nodeAt 0 [1, 0]).map (·.2) =
        some (plainNode 0 0 0 [])) ∧
    ((plainNode 0 10 0 []).Everywhere Summed ∧
      (subtreeEdit (plainNode 0 10 0 []) (lineEdit 0 0 0 (2 ^ 32 - 1))).totalBytes = 9) ∧
    (spaced.Everywhere Summed ∧
      (subtreeEdit spaced (lineEdit 5 0 0 1)).children.map padding ≠
        [(subtreeEdit spaced (lineEdit 5 0 0 1)).padding]) := by
  refine ⟨⟨pastParent_everywhere_summed, rfl, rfl, by decide, rfl, rfl⟩, ⟨?_, rfl, rfl, rfl⟩,
    ⟨leaf_everywhere_summed, by decide⟩, ⟨spaced_everywhere_summed, by decide⟩⟩
  exact threeLeaves_everywhere (by decide) (by decide) (by decide) (by decide) (by decide)

end Ned.Editor.Parse
