import Mathlib.Algebra.BigOperators.Group.List.Basic
import Mathlib.Algebra.Order.Ring.Nat
import Ned.Editor.Parse.Green

/-!
# Lemmas for the green tree

What an edit does to one node, and how a node hands it on to its children.
-/

namespace Ned.Editor.Parse

theorem uint32_of_lt {n : Nat} (h : n < 2 ^ 32) : uint32 n = n := Nat.mod_eq_of_lt h

namespace Length

@[simp] theorem zero_bytes : zero.bytes = 0 := rfl

theorem sub_bytes (a b : Length) : (a.sub b).bytes = a.bytes - b.bytes := by
  simp only [sub]
  split <;> omega

theorem saturatingSub_bytes (a b : Length) : (a.saturatingSub b).bytes = a.bytes - b.bytes := by
  unfold saturatingSub
  split
  · exact sub_bytes a b
  · simp only [zero_bytes]
    omega

theorem add_bytes {a b : Length} (h : a.bytes + b.bytes < 2 ^ 32) :
    (a.add b).bytes = a.bytes + b.bytes := uint32_of_lt h

end Length

/-! ## One node -/

namespace Edit

/-- An edit with its ends behind its start. -/
structure Valid (e : Edit) : Prop where
  oldEnd : e.start.bytes ≤ e.oldEnd.bytes
  newEnd : e.start.bytes ≤ e.newEnd.bytes

def newTotal (e : Edit) (total : Nat) : Nat :=
  if e.start.bytes < total ∨ e.start.bytes = total ∧ e.start.bytes = e.oldEnd.bytes then
    e.newEnd.bytes + (total - e.oldEnd.bytes)
  else total

def newPadding (e : Edit) (padding : Nat) : Nat :=
  if e.oldEnd.bytes ≤ padding then e.newEnd.bytes + (padding - e.oldEnd.bytes)
  else if e.start.bytes < padding then e.newEnd.bytes
  else padding

variable {e : Edit}

theorem isPureInsertion_iff : e.isPureInsertion = true ↔ e.oldEnd.bytes = e.start.bytes := beq_iff_eq

theorem isNoop_iff : e.isNoop = true ↔
    e.oldEnd.bytes = e.start.bytes ∧ e.newEnd.bytes = e.start.bytes := by
  simp [isNoop]

@[simp] theorem within_start (left : Length) :
    (e.within left).start.bytes = e.start.bytes - left.bytes := Length.saturatingSub_bytes _ _

@[simp] theorem within_oldEnd (left : Length) :
    (e.within left).oldEnd.bytes = e.oldEnd.bytes - left.bytes := Length.saturatingSub_bytes _ _

@[simp] theorem within_newEnd (left : Length) :
    (e.within left).newEnd.bytes = e.newEnd.bytes - left.bytes := Length.saturatingSub_bytes _ _

@[simp] theorem atStart_start : e.atStart.start = e.start := rfl

@[simp] theorem atStart_oldEnd : e.atStart.oldEnd = e.start := rfl

@[simp] theorem atStart_newEnd : e.atStart.newEnd = e.start := rfl

@[simp] theorem absorbed_start : e.absorbed.start = e.start := rfl

@[simp] theorem absorbed_oldEnd : e.absorbed.oldEnd = e.oldEnd := rfl

@[simp] theorem absorbed_newEnd : e.absorbed.newEnd = e.start := rfl

theorem Valid.within (h : e.Valid) (left : Length) : (e.within left).Valid := by
  refine ⟨?_, ?_⟩
  · simpa using Nat.sub_le_sub_right h.oldEnd left.bytes
  · simpa using Nat.sub_le_sub_right h.newEnd left.bytes

theorem valid_atStart : e.atStart.Valid := ⟨Nat.le_refl _, Nat.le_refl _⟩

theorem Valid.absorbed (h : e.Valid) : e.absorbed.Valid := ⟨h.oldEnd, Nat.le_refl _⟩

theorem newTotal_noop (hold : e.oldEnd.bytes = e.start.bytes) (hnew : e.newEnd.bytes = e.start.bytes)
    (total : Nat) : e.newTotal total = total := by
  rw [newTotal, hold, hnew]
  split <;> omega

theorem newPadding_noop (hold : e.oldEnd.bytes = e.start.bytes)
    (hnew : e.newEnd.bytes = e.start.bytes) (padding : Nat) : e.newPadding padding = padding := by
  rw [newPadding, hold, hnew]
  split
  · omega
  · rw [if_neg (by omega)]

end Edit

namespace Subtree

variable {t : Subtree} {e : Edit}

def total (t : Subtree) : Nat := t.padding.bytes + t.size.bytes

def reach (t : Subtree) : Nat := t.total + t.lookaheadBytes

/-- What a node has read lies below the largest offset. -/
def Fits (t : Subtree) : Prop := t.reach < 2 ^ 32

instance : Decidable t.Fits := inferInstanceAs (Decidable (t.reach < 2 ^ 32))

theorem Fits.total_lt (h : t.Fits) : t.total < 2 ^ 32 :=
  Nat.lt_of_le_of_lt (Nat.le_add_right _ _) h

theorem Fits.totalBytes_eq (h : t.Fits) : t.totalBytes = t.total := Length.add_bytes h.total_lt

theorem Fits.totalSize_bytes (h : t.Fits) : t.totalSize.bytes = t.total := h.totalBytes_eq

theorem Fits.isBefore_iff (h : t.Fits) : t.isBefore e = true ↔
    t.reach < e.start.bytes ∨ e.isNoop = true ∧ e.start.bytes = t.reach := by
  have hend : uint32 (t.totalSize.bytes + t.lookaheadBytes) = t.reach := by
    rw [h.totalSize_bytes]
    exact uint32_of_lt h
  simp [isBefore, hend]

def childLoop (t : Subtree) (e : Edit) : ChildLoop :=
  { parentDependsOnColumn := t.dependsOnColumn
    columnShifted := e.columnShifted
    isPureInsertion := e.isPureInsertion
    padding := (t.editedLengths e).1 }

/-- The lengths of a node are new, and the edit has been handed on to its children. -/
structure Edited (t : Subtree) (e : Edit) (t' : Subtree) : Prop where
  padding : t'.padding = (t.editedLengths e).1
  size_bytes : t'.size.bytes = (t.editedLengths e).2.bytes
  size : (t.editedLengths e).2 = t.size → t'.size = t.size
  symbol : t'.symbol = t.symbol
  changed : t'.hasChanges = true
  children : t'.children = editChildren (t.childLoop e) 0 .zero e t.children

theorem edit_of_isBefore (h : t.isBefore e = true) : t.edit e = t := by
  cases t with
  | inline data => rw [edit, if_pos h]
  | heap data children => rw [edit, if_pos h]

theorem edit_edited (h : ¬t.isBefore e = true) : t.Edited e (t.edit e) := by
  cases t with
  | heap data children =>
      rw [edit, if_neg h]
      exact ⟨rfl, rfl, fun hsize => hsize, rfl, rfl, rfl⟩
  | inline data =>
      rw [edit, if_neg h]
      dsimp only [SubtreeInlineData.resize]
      split
      · rename_i hinline
        generalize hlengths : (inline data).editedLengths e = lengths at hinline ⊢
        simp only [subtreeCanInline, Bool.and_eq_true, decide_eq_true_eq, beq_iff_eq] at hinline
        simp only [kMaxInlineTreeLength] at hinline
        obtain ⟨⟨⟨⟨⟨⟨hbytes, hrow⟩, hcolumn⟩, hsize⟩, hsizeRow⟩, hsizeColumn⟩, hlook⟩ := hinline
        have hpadding : padding (inline { data with
            paddingBytes := lengths.1.bytes % 2 ^ 8
            paddingRows := lengths.1.extent.row &&& 0x0F
            paddingColumns := lengths.1.extent.column % 2 ^ 8
            sizeBytes := lengths.2.bytes % 2 ^ 8
            hasChanges := true }) = lengths.1 := by
          have hand : lengths.1.extent.row &&& 0x0F = lengths.1.extent.row := by
            rw [show 0x0F = 2 ^ 4 - 1 by rfl, Nat.and_two_pow_sub_one_eq_mod, Nat.mod_eq_of_lt hrow]
          simp only [padding, hand, Nat.mod_eq_of_lt (show lengths.1.bytes < 2 ^ 8 by omega),
            Nat.mod_eq_of_lt (show lengths.1.extent.column < 2 ^ 8 by omega)]
        have hmod : lengths.2.bytes % 2 ^ 8 = lengths.2.bytes := Nat.mod_eq_of_lt (by omega)
        refine ⟨?_, ?_, fun hsame => ?_, rfl, rfl, ?_⟩
        · rw [hlengths]
          exact hpadding
        · rw [hlengths]
          exact hmod
        · rw [hlengths] at hsame
          have hsizeBytes : lengths.2.bytes % 2 ^ 8 = data.sizeBytes := by
            rw [hmod]
            exact congrArg Length.bytes hsame
          rw [hsizeBytes]
          rfl
        · simp only [children, editChildren]
      · exact ⟨rfl, rfl, fun hsize => hsize, rfl, rfl, by simp only [children, editChildren]⟩

theorem edit_total (hfits : t.Fits) (he : e.Valid) (hnew : e.newTotal t.total < 2 ^ 32) :
    (t.edit e).total = e.newTotal t.total := by
  have hstart := he.oldEnd
  have hnewEnd := he.newEnd
  have htotal : t.total = t.padding.bytes + t.size.bytes := rfl
  by_cases hbefore : t.isBefore e = true
  · rw [edit_of_isBefore hbefore, Edit.newTotal]
    have hreach : t.reach = t.total + t.lookaheadBytes := rfl
    rcases hfits.isBefore_iff.1 hbefore with hlt | ⟨hnoop, heq⟩
    · rw [if_neg (by omega)]
    · obtain ⟨hold, hnewEnd⟩ := Edit.isNoop_iff.1 hnoop
      split <;> omega
  · have hedited := edit_edited hbefore
    rw [total, hedited.padding, hedited.size_bytes]
    unfold Edit.newTotal at hnew ⊢
    simp only [editedLengths, hfits.totalSize_bytes, Bool.or_eq_true, Bool.and_eq_true,
      decide_eq_true_eq, beq_iff_eq, Edit.isPureInsertion_iff]
    split
    · rename_i hle
      have hin : e.start.bytes < t.total ∨
          e.start.bytes = t.total ∧ e.start.bytes = e.oldEnd.bytes := by omega
      rw [if_pos hin] at hnew ⊢
      have hpadding : e.newEnd.bytes + (t.padding.sub e.oldEnd).bytes < 2 ^ 32 := by
        rw [Length.sub_bytes]
        omega
      simp only [Length.add_bytes hpadding, Length.sub_bytes]
      omega
    · split
      · rename_i hgt hlt
        rw [if_pos (Or.inl (by omega))]
        simp only [Length.saturatingSub_bytes, Length.sub_bytes]
        omega
      · split
        · rename_i hgt hge hin
          rw [if_pos (hin.imp_right fun heq => ⟨heq.1, heq.2.symm⟩)] at hnew ⊢
          have hsize : (e.newEnd.sub t.padding).bytes +
              (t.totalSize.saturatingSub e.oldEnd).bytes < 2 ^ 32 := by
            rw [Length.saturatingSub_bytes, Length.sub_bytes, hfits.totalSize_bytes]
            omega
          simp only [Length.add_bytes hsize, Length.saturatingSub_bytes, Length.sub_bytes,
            hfits.totalSize_bytes]
          omega
        · rename_i hgt hge hout
          rw [if_neg fun hin => hout (hin.imp_right fun heq => ⟨heq.1, heq.2.symm⟩), htotal]

theorem edit_atStart_total (hfits : t.Fits) : (t.edit e.atStart).total = t.total := by
  have hnew : e.atStart.newTotal t.total = t.total := Edit.newTotal_noop rfl rfl _
  rw [edit_total hfits Edit.valid_atStart (hnew.symm ▸ hfits.total_lt), hnew]

theorem edit_padding (hfits : t.Fits) (he : e.Valid) (hnew : e.newTotal t.total < 2 ^ 32) :
    (t.edit e).padding.bytes = e.newPadding t.padding.bytes := by
  have hstart := he.oldEnd
  have hnewEnd := he.newEnd
  have htotal : t.total = t.padding.bytes + t.size.bytes := rfl
  by_cases hbefore : t.isBefore e = true
  · rw [edit_of_isBefore hbefore, Edit.newPadding]
    have hreach : t.reach = t.total + t.lookaheadBytes := rfl
    rcases hfits.isBefore_iff.1 hbefore with hlt | ⟨hnoop, heq⟩
    · rw [if_neg (by omega), if_neg (by omega)]
    · obtain ⟨hold, hend⟩ := Edit.isNoop_iff.1 hnoop
      split
      · omega
      · rw [if_neg (by omega)]
  · rw [(edit_edited hbefore).padding]
    unfold Edit.newTotal at hnew
    unfold Edit.newPadding
    dsimp only [editedLengths]
    split
    · rename_i hle
      have hin : e.start.bytes < t.total ∨
          e.start.bytes = t.total ∧ e.start.bytes = e.oldEnd.bytes := by omega
      rw [if_pos hin] at hnew
      have hpadding : e.newEnd.bytes + (t.padding.sub e.oldEnd).bytes < 2 ^ 32 := by
        rw [Length.sub_bytes]
        omega
      simp only [Length.add_bytes hpadding, Length.sub_bytes]
    · split
      · rfl
      · split <;> rfl

/-! ## The children of a node -/

def Below (bound : Nat) : Nat → List Subtree → Prop
  | _, [] => True
  | left, child :: rest => left + child.reach ≤ bound ∧ Below bound (left + child.total) rest

instance decidableBelow (bound : Nat) :
    (left : Nat) → (cs : List Subtree) → Decidable (Below bound left cs)
  | _, [] => isTrue trivial
  | left, child :: rest =>
      have := decidableBelow bound (left + child.total) rest
      inferInstanceAs (Decidable (left + child.reach ≤ bound ∧ Below bound (left + child.total) rest))

inductive ChildStep (loop : ChildLoop) (e : Edit) (i : Nat) (childLeft : Length) (child : Subtree)
    (rest : List Subtree) : List Subtree → Prop
  | before (h : childLeft.bytes + child.reach < e.start.bytes) :
      ChildStep loop e i childLeft child rest
        (child :: editChildren loop (i + 1) (childLeft.add child.totalSize) e rest)
  | stop (h : e.oldEnd.bytes < childLeft.bytes ∨
        childLeft.bytes = e.oldEnd.bytes ∧ 0 < child.total ∧ 0 < i) :
      ChildStep loop e i childLeft child rest (child :: rest)
  | cut (hreach : e.start.bytes ≤ childLeft.bytes + child.reach)
      (h : e.start.bytes < childLeft.bytes + child.total ∨
        childLeft.bytes + child.total = e.start.bytes ∧ e.oldEnd.bytes = e.start.bytes) :
      ChildStep loop e i childLeft child rest
        (child.edit (e.within childLeft) ::
          editChildren loop (i + 1) (childLeft.add child.totalSize) e.absorbed rest)
  | mark (hreach : e.start.bytes ≤ childLeft.bytes + child.reach)
      (h : childLeft.bytes + child.total ≤ e.start.bytes)
      (hne : childLeft.bytes + child.total = e.start.bytes → e.oldEnd.bytes ≠ e.start.bytes) :
      ChildStep loop e i childLeft child rest
        (child.edit (e.within childLeft).atStart ::
          editChildren loop (i + 1) (childLeft.add child.totalSize) e rest)

variable {loop : ChildLoop} {i : Nat} {childLeft : Length} {child : Subtree}
  {cs rest : List Subtree} {bound : Nat}

theorem add_totalSize_bytes (h : childLeft.bytes + child.reach < 2 ^ 32) :
    (childLeft.add child.totalSize).bytes = childLeft.bytes + child.total := by
  have hreach : child.reach = child.total + child.lookaheadBytes := rfl
  have hfits : child.Fits := Nat.lt_of_le_of_lt (Nat.le_add_left _ _) h
  rw [Length.add_bytes (by rw [hfits.totalSize_bytes]; omega), hfits.totalSize_bytes]

theorem editChildren_cons (hpure : loop.isPureInsertion = true ↔ e.oldEnd.bytes = e.start.bytes)
    (h : childLeft.bytes + child.reach < 2 ^ 32) :
    ChildStep loop e i childLeft child rest (editChildren loop i childLeft e (child :: rest)) := by
  have hright := add_totalSize_bytes h
  have hfits : child.Fits := Nat.lt_of_le_of_lt (Nat.le_add_left _ _) h
  have hend : uint32 ((childLeft.add child.totalSize).bytes + child.lookaheadBytes) =
      childLeft.bytes + child.reach := by
    rw [hright, Nat.add_assoc]
    exact uint32_of_lt h
  rw [editChildren, hend]
  split
  · rename_i hbefore
    exact .before hbefore
  · rename_i hreach
    split
    · rename_i hstops
      simp only [ChildLoop.stops, Bool.and_eq_true, Bool.or_eq_true, decide_eq_true_eq,
        beq_iff_eq, hfits.totalSize_bytes] at hstops
      exact .stop (hstops.1.1.imp_right fun heq => ⟨heq.1.1, heq.1.2, heq.2⟩)
    · split
      · rename_i habsorbs
        simp only [ChildLoop.absorbs, Bool.and_eq_true, Bool.or_eq_true, decide_eq_true_eq,
          beq_iff_eq, hright, hpure] at habsorbs
        exact .cut (Nat.le_of_not_lt hreach) habsorbs
      · rename_i habsorbs
        simp only [ChildLoop.absorbs, Bool.and_eq_true, Bool.or_eq_true, decide_eq_true_eq,
          beq_iff_eq, hright, hpure, not_or, not_and] at habsorbs
        exact .mark (Nat.le_of_not_lt hreach) (Nat.le_of_not_lt habsorbs.1) habsorbs.2

inductive Handled (start oldEnd left : Nat) (child : Subtree) : Subtree → Prop
  | before (h : left + child.reach < start) : Handled start oldEnd left child child
  | behind (h : oldEnd < left ∨ oldEnd = left ∧ 0 < child.total) :
      Handled start oldEnd left child child
  | cut (e : Edit) (valid : e.Valid) (hstart : e.start.bytes = start - left)
      (holdEnd : e.oldEnd.bytes = oldEnd - left) (fits : e.newTotal child.total < 2 ^ 32) :
      Handled start oldEnd left child (child.edit e)
  | mark (e : Edit) (hstart : e.start.bytes = start - left)
      (holdEnd : e.oldEnd.bytes = e.start.bytes) (hnewEnd : e.newEnd.bytes = e.start.bytes)
      (h : left + child.total ≤ start) : Handled start oldEnd left child (child.edit e)

inductive HandledAll (start oldEnd : Nat) : Nat → List Subtree → List Subtree → Prop
  | nil (left : Nat) : HandledAll start oldEnd left [] []
  | cons {left : Nat} {child child' : Subtree} {rest rest' : List Subtree}
      (head : Handled start oldEnd left child child')
      (tail : HandledAll start oldEnd (left + child.total) rest rest') :
      HandledAll start oldEnd left (child :: rest) (child' :: rest')

theorem handledAll_behind {start oldEnd left : Nat} (h : oldEnd < left) (cs : List Subtree) :
    HandledAll start oldEnd left cs cs := by
  induction cs generalizing left with
  | nil => exact .nil left
  | cons child rest ih => exact .cons (.behind (Or.inl h)) (ih (Nat.lt_add_right child.total h))

/-- The loop has not come to the text, or has inserted it. -/
def Pending (e : Edit) (left : Nat) : Prop :=
  left ≤ e.start.bytes ∨ e.newEnd.bytes = e.start.bytes

theorem newTotal_within_lt {total whole : Nat} (he : e.Valid) (hpending : Pending e childLeft.bytes)
    (hwhole : childLeft.bytes + total ≤ whole) (hfit : whole < 2 ^ 32)
    (hnew : e.newTotal whole < 2 ^ 32) : (e.within childLeft).newTotal total < 2 ^ 32 := by
  have hstart := he.oldEnd
  have hnewEnd := he.newEnd
  unfold Edit.newTotal at hnew ⊢
  simp only [Edit.within_start, Edit.within_oldEnd, Edit.within_newEnd]
  by_cases hin : e.start.bytes < whole ∨ e.start.bytes = whole ∧ e.start.bytes = e.oldEnd.bytes
  · rw [if_pos hin] at hnew
    rcases hpending with hle | heq
    · split <;> omega
    · split <;> omega
  · rw [if_neg hin] at hnew
    rcases hpending with hle | heq
    · rw [if_neg (by omega)]
      omega
    · split <;> omega

theorem newTotal_absorbed_lt {total : Nat} (he : e.Valid) (h : e.newTotal total < 2 ^ 32) :
    e.absorbed.newTotal total < 2 ^ 32 := by
  apply Nat.lt_of_le_of_lt ?_ h
  unfold Edit.newTotal
  by_cases hin : e.start.bytes < total ∨ e.start.bytes = total ∧ e.start.bytes = e.oldEnd.bytes
  · rw [if_pos hin, if_pos (show e.absorbed.start.bytes < total ∨
      e.absorbed.start.bytes = total ∧ e.absorbed.start.bytes = e.absorbed.oldEnd.bytes from hin)]
    exact Nat.add_le_add_right he.newEnd _
  · rw [if_neg hin, if_neg (show ¬(e.absorbed.start.bytes < total ∨
      e.absorbed.start.bytes = total ∧ e.absorbed.start.bytes = e.absorbed.oldEnd.bytes) from hin)]

/-- What the rest of the loop starts from. -/
structure Walk (loop : ChildLoop) (e : Edit) (bound whole left : Nat) (cs : List Subtree) : Prop where
  pure : loop.isPureInsertion = true ↔ e.oldEnd.bytes = e.start.bytes
  valid : e.Valid
  pending : Pending e left
  below : Below bound left cs
  bound_lt : bound < 2 ^ 32
  sum : left + (cs.map total).sum = whole
  whole_lt : whole < 2 ^ 32
  fits : e.newTotal whole < 2 ^ 32

namespace Walk

variable {whole left : Nat}

theorem reach_lt (h : Walk loop e bound whole left (child :: rest)) : left + child.reach < 2 ^ 32 :=
  Nat.lt_of_le_of_lt h.below.1 h.bound_lt

theorem child_fits (h : Walk loop e bound whole left (child :: rest)) : child.Fits :=
  Nat.lt_of_le_of_lt (Nat.le_add_left _ _) h.reach_lt

theorem le_whole (h : Walk loop e bound whole left (child :: rest)) : left + child.total ≤ whole := by
  have hsum := h.sum
  rw [List.map_cons, List.sum_cons] at hsum
  omega

theorem next (h : Walk loop e bound whole left (child :: rest))
    (hpending : Pending e (left + child.total)) :
    Walk loop e bound whole (left + child.total) rest := by
  have hsum := h.sum
  rw [List.map_cons, List.sum_cons, ← Nat.add_assoc] at hsum
  exact ⟨h.pure, h.valid, hpending, h.below.2, h.bound_lt, hsum, h.whole_lt, h.fits⟩

theorem next_absorbed (h : Walk loop e bound whole left (child :: rest)) :
    Walk loop e.absorbed bound whole (left + child.total) rest := by
  have hsum := h.sum
  rw [List.map_cons, List.sum_cons, ← Nat.add_assoc] at hsum
  exact ⟨h.pure, h.valid.absorbed, Or.inr rfl, h.below.2, h.bound_lt, hsum, h.whole_lt,
    newTotal_absorbed_lt h.valid h.fits⟩

theorem cut_lt (h : Walk loop e bound whole childLeft.bytes (child :: rest)) :
    (e.within childLeft).newTotal child.total < 2 ^ 32 :=
  newTotal_within_lt h.valid h.pending h.le_whole h.whole_lt h.fits

theorem step (h : Walk loop e bound whole childLeft.bytes (child :: rest)) :
    ChildStep loop e i childLeft child rest (editChildren loop i childLeft e (child :: rest)) :=
  editChildren_cons h.pure h.reach_lt

end Walk

theorem editChildren_handled {whole : Nat} (h : Walk loop e bound whole childLeft.bytes cs) :
    HandledAll e.start.bytes e.oldEnd.bytes childLeft.bytes cs
      (editChildren loop i childLeft e cs) := by
  induction cs generalizing i childLeft e with
  | nil =>
      rw [editChildren]
      exact .nil _
  | cons child rest ih =>
      have hright := add_totalSize_bytes h.reach_lt
      have hreach : child.reach = child.total + child.lookaheadBytes := rfl
      have hstep := h.step (i := i)
      generalize editChildren loop i childLeft e (child :: rest) = out at hstep ⊢
      cases hstep with
      | before hbefore =>
          refine .cons (.before hbefore) ?_
          rw [← hright]
          apply ih
          rw [hright]
          exact h.next (Or.inl (by omega))
      | stop hstop =>
          refine .cons (.behind (by omega)) (handledAll_behind (by omega) rest)
      | cut hreach hin =>
          refine .cons (.cut (e.within childLeft) (h.valid.within _) (Edit.within_start _)
            (Edit.within_oldEnd _) h.cut_lt) ?_
          rw [← hright]
          apply ih (e := e.absorbed)
          rw [hright]
          exact h.next_absorbed
      | mark hreach hle hne =>
          refine .cons (.mark (e.within childLeft).atStart (Edit.within_start _) rfl rfl hle) ?_
          rw [← hright]
          apply ih
          rw [hright]
          exact h.next (Or.inl hle)

theorem sum_editChildren_absorbed {whole : Nat} (h : Walk loop e bound whole childLeft.bytes cs)
    (habsorbed : e.newEnd.bytes = e.start.bytes) (hleft : e.start.bytes ≤ childLeft.bytes) :
    ((editChildren loop i childLeft e cs).map total).sum =
      (cs.map total).sum - (e.oldEnd.bytes - childLeft.bytes) := by
  induction cs generalizing i childLeft e with
  | nil =>
      rw [editChildren, List.map_nil, List.sum_nil, Nat.zero_sub]
  | cons child rest ih =>
      have hstart := h.valid.oldEnd
      have hright := add_totalSize_bytes h.reach_lt
      have hstep := h.step (i := i)
      generalize editChildren loop i childLeft e (child :: rest) = out at hstep ⊢
      cases hstep with
      | before hbefore => omega
      | stop hstop =>
          rw [show e.oldEnd.bytes - childLeft.bytes = 0 by omega, Nat.sub_zero]
      | cut hreach hin =>
          have hnext : Walk loop e.absorbed bound whole (childLeft.add child.totalSize).bytes rest := by
            rw [hright]
            exact h.next_absorbed
          have hrest := ih (i := i + 1) hnext rfl (by rw [hright]; exact Nat.le_add_right_of_le hleft)
          rw [List.map_cons, List.sum_cons, hrest, hright, List.map_cons, List.sum_cons,
            edit_total h.child_fits (h.valid.within _) h.cut_lt]
          simp only [Edit.newTotal, Edit.within_start, Edit.within_oldEnd, Edit.within_newEnd,
            Edit.absorbed_oldEnd]
          split <;> omega
      | mark hreach hle hne =>
          have hnext : Walk loop e bound whole (childLeft.add child.totalSize).bytes rest := by
            rw [hright]
            exact h.next (Or.inr habsorbed)
          have hrest := ih (i := i + 1) hnext habsorbed
            (by rw [hright]; exact Nat.le_add_right_of_le hleft)
          rw [List.map_cons, List.sum_cons, hrest, hright, List.map_cons, List.sum_cons,
            edit_atStart_total h.child_fits]
          omega

theorem sum_editChildren {whole : Nat} (h : Walk loop e bound whole childLeft.bytes cs)
    (hleft : childLeft.bytes ≤ e.start.bytes)
    (hfirst : childLeft.bytes < e.start.bytes ∨ e.start.bytes ≠ e.oldEnd.bytes ∨ i = 0 ∧ cs ≠ []) :
    childLeft.bytes + ((editChildren loop i childLeft e cs).map total).sum = e.newTotal whole := by
  induction cs generalizing i childLeft with
  | nil =>
      have hsum := h.sum
      rw [List.map_nil, List.sum_nil, Nat.add_zero] at hsum
      rw [editChildren, List.map_nil, List.sum_nil, Edit.newTotal, if_neg, hsum, Nat.add_zero]
      rcases hfirst with hlt | hne | ⟨-, hnil⟩
      · omega
      · omega
      · exact absurd rfl hnil
  | cons child rest ih =>
      have hstart := h.valid.oldEnd
      have hnewEnd := h.valid.newEnd
      have hright := add_totalSize_bytes h.reach_lt
      have hreach : child.reach = child.total + child.lookaheadBytes := rfl
      have hstep := h.step (i := i)
      generalize editChildren loop i childLeft e (child :: rest) = out at hstep ⊢
      cases hstep with
      | before hbefore =>
          have hnext : Walk loop e bound whole (childLeft.add child.totalSize).bytes rest := by
            rw [hright]
            exact h.next (Or.inl (by omega))
          have hrest := ih (i := i + 1) hnext (by omega) (Or.inl (by omega))
          rw [List.map_cons, List.sum_cons, ← hrest, hright, Nat.add_assoc]
      | stop hstop => omega
      | cut hreach hin =>
          have hsum := h.sum
          have hnext : Walk loop e.absorbed bound whole (childLeft.add child.totalSize).bytes rest := by
            rw [hright]
            exact h.next_absorbed
          have hrest := sum_editChildren_absorbed (i := i + 1) hnext rfl
            (by rw [hright, Edit.absorbed_start]; omega)
          rw [List.map_cons, List.sum_cons, hrest, hright,
            edit_total h.child_fits (h.valid.within _) h.cut_lt]
          rw [List.map_cons, List.sum_cons] at hsum
          simp only [Edit.newTotal, Edit.within_start, Edit.within_oldEnd, Edit.within_newEnd,
            Edit.absorbed_oldEnd]
          rw [if_pos (by omega), if_pos (by omega)]
          omega
      | mark hreach hle hne =>
          have hnext : Walk loop e bound whole (childLeft.add child.totalSize).bytes rest := by
            rw [hright]
            exact h.next (Or.inl hle)
          have hrest := ih (i := i + 1) hnext (by omega) (by omega)
          rw [List.map_cons, List.sum_cons, edit_atStart_total h.child_fits, ← hrest, hright,
            Nat.add_assoc]

/-! ## Whole trees -/

/-- What holds of a tree and of all nodes in it. -/
inductive Everywhere (P : Subtree → Prop) : Subtree → Prop
  | intro {t : Subtree} (h : P t) (hchildren : ∀ child ∈ t.children, Everywhere P child) :
      Everywhere P t

namespace Everywhere

variable {P Q : Subtree → Prop}

theorem here (h : Everywhere P t) : P t := by
  cases h
  assumption

theorem children (h : Everywhere P t) : ∀ child ∈ t.children, Everywhere P child := by
  cases h
  assumption

end Everywhere

/-- The lengths of a node are those of its children. -/
structure Summed (t : Subtree) : Prop where
  padding : ∀ first ∈ t.children.head?, t.padding.bytes = first.padding.bytes
  total : t.children ≠ [] → t.totalBytes = (t.children.map totalBytes).sum

instance : Decidable t.Summed :=
  decidable_of_iff ((∀ first ∈ t.children.head?, t.padding.bytes = first.padding.bytes) ∧
    (t.children ≠ [] → t.totalBytes = (t.children.map totalBytes).sum))
    ⟨fun h => ⟨h.1, h.2⟩, fun h => ⟨h.padding, h.total⟩⟩

/-- The offsets of a node fit, and it has read at least as far as its children. -/
structure Bounded (t : Subtree) : Prop where
  fits : t.Fits
  below : Below t.reach 0 t.children

instance : Decidable t.Bounded :=
  decidable_of_iff (t.Fits ∧ Below t.reach 0 t.children)
    ⟨fun h => ⟨h.1, h.2⟩, fun h => ⟨h.fits, h.below⟩⟩

theorem totalBytes_of_lt (h : t.total < 2 ^ 32) : t.totalBytes = t.total := Length.add_bytes h

theorem Below.reach_le {left : Nat} (h : Below bound left cs) : ∀ child ∈ cs, child.reach ≤ bound := by
  induction cs generalizing left with
  | nil => exact fun _ hchild => absurd hchild List.not_mem_nil
  | cons child rest ih =>
      intro other hother
      rcases List.mem_cons.1 hother with rfl | hother
      · exact Nat.le_trans (Nat.le_add_left _ _) h.1
      · exact ih h.2 other hother

theorem Bounded.child_fits (h : t.Bounded) : ∀ child ∈ t.children, child.Fits := fun child hchild =>
  Nat.lt_of_le_of_lt (h.below.reach_le child hchild) h.fits

theorem total_eq_sum (hsummed : t.Summed) (hbounded : t.Bounded) (hne : t.children ≠ []) :
    t.total = (t.children.map total).sum := by
  rw [← hbounded.fits.totalBytes_eq, hsummed.total hne]
  congr 1
  exact List.map_congr_left fun child hchild => (hbounded.child_fits child hchild).totalBytes_eq

theorem walk (hsummed : t.Summed) (hbounded : t.Bounded) (he : e.Valid)
    (hnew : e.newTotal t.total < 2 ^ 32) (hne : t.children ≠ []) :
    Walk (t.childLoop e) e t.reach t.total Length.zero.bytes t.children where
  pure := Edit.isPureInsertion_iff
  valid := he
  pending := Or.inl (Nat.zero_le _)
  below := hbounded.below
  bound_lt := hbounded.fits
  sum := by rw [Length.zero_bytes, Nat.zero_add, total_eq_sum hsummed hbounded hne]
  whole_lt := hbounded.fits.total_lt
  fits := hnew

/-- The node at the end of a path, and the byte at which it starts. -/
def nodeAt : Subtree → Nat → List Nat → Option (Nat × Subtree)
  | t, left, [] => some (left, t)
  | t, left, i :: path =>
      t.children[i]?.bind fun child =>
        child.nodeAt (left + ((t.children.take i).map total).sum) path

theorem nodeAt_cons {left : Nat} {path : List Nat} {place : Nat × Subtree}
    (h : t.nodeAt left (i :: path) = some place) : ∃ child, t.children[i]? = some child ∧
      child.nodeAt (left + ((t.children.take i).map total).sum) path = some place := by
  rw [nodeAt] at h
  exact Option.bind_eq_some_iff.1 h

namespace HandledAll

variable {start oldEnd left : Nat} {cs' : List Subtree}

theorem length (h : HandledAll start oldEnd left cs cs') : cs'.length = cs.length := by
  induction h with
  | nil => rfl
  | cons _ _ ih => rw [List.length_cons, List.length_cons, ih]

theorem exists_of_mem (h : HandledAll start oldEnd left cs cs') {child' : Subtree}
    (hchild : child' ∈ cs') : ∃ child ∈ cs, ∃ left, Handled start oldEnd left child child' := by
  induction h with
  | nil => exact absurd hchild List.not_mem_nil
  | @cons left _ _ _ _ head tail ih =>
      rcases List.mem_cons.1 hchild with rfl | hchild
      · exact ⟨_, List.mem_cons_self, left, head⟩
      · obtain ⟨child, hmem, hhandled⟩ := ih hchild
        exact ⟨child, List.mem_cons_of_mem _ hmem, hhandled⟩

theorem getElem? (h : HandledAll start oldEnd left cs cs') (hchild : cs[i]? = some child) :
    ∃ child', cs'[i]? = some child' ∧
      Handled start oldEnd (left + ((cs.take i).map total).sum) child child' := by
  induction h generalizing i with
  | nil => exact absurd hchild (by simp)
  | @cons left first first' rest rest' head tail ih =>
      cases i with
      | zero =>
          obtain rfl : first = child := by simpa using hchild
          exact ⟨first', rfl, by simpa using head⟩
      | succ i =>
          obtain ⟨child', hget, hhandled⟩ := ih (by simpa using hchild)
          refine ⟨child', by simpa using hget, ?_⟩
          simpa [Nat.add_assoc] using hhandled

end HandledAll

end Subtree

end Ned.Editor.Parse
