import Mathlib.Algebra.Order.BigOperators.Group.List
import Mathlib.Algebra.Ring.Int.Defs
import Mathlib.Data.Int.Order.Basic

/-!
# Alignments

Two lists cut into blocks that correspond. Which element of the one list belongs to an element of the
other follows from the changed blocks alone.
-/

namespace Ned.Library

/-- A run of one list and the run of another that corresponds to it. -/
structure Block (α : Type) where
  left : List α
  right : List α
  changed : Bool
  same : changed = false → left = right

/-- A run `[first, last)` of the one list that is changed, and how much longer its counterpart is. -/
structure Change where
  first : Nat
  last : Nat
  extra : Int

namespace Block

variable {α : Type}

def lefts (blocks : List (Block α)) : List α := blocks.flatMap left

def rights (blocks : List (Block α)) : List α := blocks.flatMap right

def flip (block : Block α) : Block α :=
  { left := block.right, right := block.left, changed := block.changed,
    same := fun h => (block.same h).symm }

/-- The changes, the first block at element `i`. -/
def changesAt (i : Nat) : List (Block α) → List Change
  | [] => []
  | block :: blocks =>
      let rest := changesAt (i + block.left.length) blocks
      if block.changed then
        ⟨i, i + block.left.length, block.right.length - block.left.length⟩ :: rest
      else rest

end Block

namespace Change

/-- How much longer everything is that lies before an element. -/
def shift (changes : List Change) (i : Nat) : Int :=
  (changes.map fun change => if change.last ≤ i then change.extra else 0).sum

def Avoids (changes : List Change) (i : Nat) : Prop :=
  ∀ change ∈ changes, ¬(change.first ≤ i ∧ i < change.last)

/-- Changes in order. None takes away more than it has. -/
structure Apart (changes : List Change) : Prop where
  order : changes.Pairwise fun change next => change.last ≤ next.first
  fits : ∀ change ∈ changes, change.first ≤ change.last ∧ (change.first : Int) - change.last ≤ change.extra

end Change

namespace Block

variable {α : Type} {blocks : List (Block α)} {block : Block α} {i k : Nat} {change : Change}

@[simp] theorem lefts_nil : lefts ([] : List (Block α)) = [] := rfl

@[simp] theorem rights_nil : rights ([] : List (Block α)) = [] := rfl

@[simp] theorem lefts_cons : lefts (block :: blocks) = block.left ++ lefts blocks := rfl

@[simp] theorem rights_cons : rights (block :: blocks) = block.right ++ rights blocks := rfl

theorem lefts_append (blocks blocks' : List (Block α)) :
    lefts (blocks ++ blocks') = lefts blocks ++ lefts blocks' :=
  List.flatMap_append

theorem rights_append (blocks blocks' : List (Block α)) :
    rights (blocks ++ blocks') = rights blocks ++ rights blocks' :=
  List.flatMap_append

@[simp] theorem lefts_flip : lefts (blocks.map flip) = rights blocks := by
  simp [lefts, rights, List.flatMap_map, flip]

@[simp] theorem rights_flip : rights (blocks.map flip) = lefts blocks := by
  simp [lefts, rights, List.flatMap_map, flip]

theorem length_eq_of_unchanged (h : block.changed = false) : block.right.length = block.left.length := by
  rw [block.same h]

theorem changesAt_ge (h : change ∈ changesAt i blocks) :
    i ≤ change.first ∧ change.first ≤ change.last ∧ change.last ≤ i + (lefts blocks).length := by
  induction blocks generalizing i with
  | nil => cases h
  | cons block blocks ih =>
      simp only [changesAt, lefts_cons, List.length_append] at h ⊢
      split at h
      · rcases List.mem_cons.1 h with rfl | h
        · exact ⟨Nat.le_refl _, Nat.le_add_right _ _, by simp only; omega⟩
        · have := ih h
          omega
      · have := ih h
        omega

theorem changesAt_apart : Change.Apart (changesAt i blocks) := by
  induction blocks generalizing i with
  | nil => exact ⟨.nil, by simp [changesAt]⟩
  | cons block blocks ih =>
      have hrest := @ih (i + block.left.length)
      simp only [changesAt]
      split
      · constructor
        · exact .cons (fun next hnext => (changesAt_ge hnext).1) hrest.order
        · intro change hchange
          rcases List.mem_cons.1 hchange with rfl | hchange
          · simp only
            omega
          · exact hrest.fits change hchange
      · exact hrest

/-- The right list is as much longer as its changes are. -/
theorem sum_changesAt : ((changesAt i blocks).map Change.extra).sum =
    (rights blocks).length - (lefts blocks).length := by
  induction blocks generalizing i with
  | nil => rfl
  | cons block blocks ih =>
      have hrest := @ih (i + block.left.length)
      simp only [changesAt, lefts_cons, rights_cons, List.length_append, Nat.cast_add]
      split
      · simp only [List.map_cons, List.sum_cons, hrest]
        omega
      · rename_i hchanged
        have hlength := length_eq_of_unchanged (Bool.eq_false_iff.2 hchanged)
        rw [hrest, hlength]
        omega

theorem shift_zero (h : i + k < (if block.changed then 0 else i + block.left.length)) :
    Change.shift (changesAt (i + block.left.length) blocks) (i + k) = 0 := by
  split at h
  · exact absurd h (Nat.not_lt_zero _)
  · apply List.sum_eq_zero
    intro x hx
    obtain ⟨change, hchange, rfl⟩ := List.mem_map.1 hx
    have := changesAt_ge hchange
    rw [if_neg (by omega)]

/-- An element outside the changes stands in the other list too, shifted by what is before it. -/
theorem right_of_left (hk : k < (lefts blocks).length)
    (havoids : Change.Avoids (changesAt i blocks) (i + k)) :
    ∃ j : Nat, (j : Int) = k + Change.shift (changesAt i blocks) (i + k) ∧
      j < (rights blocks).length ∧ (rights blocks)[j]? = (lefts blocks)[k]? := by
  induction blocks generalizing i k with
  | nil => exact absurd hk (Nat.not_lt_zero _)
  | cons block blocks ih =>
      by_cases hin : k < block.left.length
      · have hchanged : block.changed = false := by
          by_contra h
          have h := Bool.eq_true_of_not_eq_false h
          simp only [changesAt, h, if_true] at havoids
          exact havoids _ List.mem_cons_self ⟨Nat.le_add_right _ _, Nat.add_lt_add_left hin _⟩
        have hsame := block.same hchanged
        have hzero := @shift_zero α blocks block i k (by simp [hchanged, hin])
        refine ⟨k, by simp [changesAt, hchanged, hzero], ?_, ?_⟩
        · rw [rights_cons, List.length_append, ← hsame]
          omega
        · rw [rights_cons, lefts_cons, ← hsame, List.getElem?_append_left hin,
            List.getElem?_append_left hin]
      · have hle := Nat.le_of_not_lt hin
        rw [lefts_cons, List.length_append] at hk
        have hindex : i + block.left.length + (k - block.left.length) = i + k := by omega
        have hrest : Change.Avoids (changesAt (i + block.left.length) blocks)
            (i + block.left.length + (k - block.left.length)) := by
          rw [hindex]
          intro change hchange
          apply havoids change
          simp only [changesAt]
          split
          · exact List.mem_cons_of_mem _ hchange
          · exact hchange
        obtain ⟨j, hj, hlt, heq⟩ := @ih (i + block.left.length) (k - block.left.length) (by omega) hrest
        rw [hindex] at hj
        refine ⟨block.right.length + j, ?_, ?_, ?_⟩
        · simp only [changesAt]
          split
          · simp only [Change.shift, List.map_cons, List.sum_cons] at hj ⊢
            rw [if_pos (by omega)]
            omega
          · rename_i hchanged
            rw [length_eq_of_unchanged (Bool.eq_false_iff.2 hchanged)]
            omega
        · rw [rights_cons, List.length_append]
          exact Nat.add_lt_add_left hlt _
        · rw [rights_cons, lefts_cons, List.getElem?_append_right (Nat.le_add_right _ _),
            Nat.add_sub_cancel_left, heq, List.getElem?_append_right hle]

end Block

end Ned.Library
