import Mathlib.Data.List.Perm.Basic
import Mathlib.Data.List.Count
import Mathlib.Data.List.Nodup

/-!
# Insertions at many positions

One list inserted at several positions of another at once, and why inserting it at one position
after the other, each position carried past the copies before it, comes to the same.
-/

namespace Ned.Library

variable {α : Type}

/-- `added` before each element whose position is marked, and at the end when that is. -/
def insertFrom (added : List α) (marked : List Nat) : Nat → List α → List α
  | i, [] => if i ∈ marked then added else []
  | i, x :: xs => (if i ∈ marked then added else []) ++ x :: insertFrom added marked (i + 1) xs

def insertEach (added : List α) (marked : List Nat) (xs : List α) : List α :=
  insertFrom added marked 0 xs

/-- Where a position goes: past the copies at and before it. -/
def landing (length : Nat) (marked : List Nat) (position : Nat) : Nat :=
  position + length * marked.countP fun at' => decide (at' ≤ position)

/-! ## Positions -/

section

variable {length q x y : Nat} {marked marked' : List Nat}

theorem landing_perm (h : marked.Perm marked') : landing length marked = landing length marked' := by
  funext q
  rw [landing, landing, h.countP_eq]

@[simp] theorem landing_nil : landing length [] q = q := by simp [landing]

theorem landing_cons : landing length (q :: marked) x =
    if q ≤ x then landing length marked x + length else landing length marked x := by
  simp only [landing, List.countP_cons, decide_eq_true_eq]
  split
  · rw [Nat.mul_add, Nat.mul_one, Nat.add_assoc]
  · rfl

theorem landing_lt (h : x < y) : landing length marked x < landing length marked y := by
  have hcount : marked.countP (fun at' => decide (at' ≤ x)) ≤
      marked.countP fun at' => decide (at' ≤ y) := by
    apply List.countP_mono_left
    intro at' _ hle
    simp only [decide_eq_true_eq] at hle ⊢
    exact Nat.le_of_lt (Nat.lt_of_le_of_lt hle h)
  exact Nat.add_lt_add_of_lt_of_le h (Nat.mul_le_mul_left length hcount)

theorem landing_le_iff : landing length marked x ≤ landing length marked y ↔ x ≤ y := by
  constructor
  · intro hle
    exact Nat.le_of_not_lt fun hlt => Nat.not_lt.2 hle (landing_lt hlt)
  · intro hle
    rcases Nat.eq_or_lt_of_le hle with rfl | hlt
    · exact Nat.le_refl _
    · exact Nat.le_of_lt (landing_lt hlt)

theorem landing_injective : Function.Injective (landing length marked) := by
  intro x y h
  exact Nat.le_antisymm (landing_le_iff.1 (Nat.le_of_eq h)) (landing_le_iff.1 (Nat.le_of_eq h.symm))

end

/-! ## Elements -/

section

variable {added : List α} {marked marked' : List Nat} {i q : Nat} {xs : List α}

/-- Only the marks from a position on matter there. -/
theorem insertFrom_congr (h : ∀ j, i ≤ j → (j ∈ marked ↔ j ∈ marked')) :
    insertFrom added marked i xs = insertFrom added marked' i xs := by
  induction xs generalizing i with
  | nil => simp only [insertFrom, h i (Nat.le_refl i)]
  | cons x xs ih =>
      simp only [insertFrom, h i (Nat.le_refl i)]
      rw [ih fun j hj => h j (Nat.le_of_succ_le hj)]

theorem insertEach_perm (h : marked.Perm marked') :
    insertEach added marked xs = insertEach added marked' xs :=
  insertFrom_congr fun _ _ => h.mem_iff

@[simp] theorem insertFrom_nil : insertFrom added [] i xs = xs := by
  induction xs generalizing i with
  | nil => simp [insertFrom]
  | cons x xs ih => simp [insertFrom, ih]

@[simp] theorem insertEach_nil : insertEach added [] xs = xs := insertFrom_nil

/-- The marks in front of a position, from another on. -/
def marksBetween (marked : List Nat) (i q : Nat) : Nat :=
  marked.countP fun at' => decide (i ≤ at' ∧ at' < q)

theorem marksBetween_self : marksBetween marked q q = 0 := by
  rw [marksBetween, List.countP_eq_zero]
  intro at' _ h
  rw [decide_eq_true_eq] at h
  exact Nat.not_lt.2 h.1 h.2

theorem marksBetween_succ (hnodup : marked.Nodup) (h : i < q) : marksBetween marked i q =
    (if i ∈ marked then 1 else 0) + marksBetween marked (i + 1) q := by
  have hcount : (if i ∈ marked then 1 else 0) = marked.count i := by
    split
    · rename_i hmem
      exact (List.count_eq_one_of_mem hnodup hmem).symm
    · rename_i hmem
      exact (List.count_eq_zero_of_not_mem hmem).symm
  rw [hcount]
  clear hcount hnodup
  induction marked with
  | nil => rfl
  | cons a marked ih =>
      simp only [marksBetween, List.countP_cons, List.count_cons, beq_iff_eq,
        decide_eq_true_eq] at ih ⊢
      rw [ih]
      have hone : (if i ≤ a ∧ a < q then 1 else 0) =
          (if a = i then 1 else 0) + if i + 1 ≤ a ∧ a < q then 1 else 0 := by
        split_ifs <;> omega
      omega

variable (added) in
/-- The copies before a position move it as far as their elements. -/
theorem insertFrom_cons (hnodup : marked.Nodup) (hq : q ∉ marked) (hi : i ≤ q)
    (hle : q ≤ i + xs.length) :
    insertFrom added (q :: marked) i xs =
      (insertFrom added marked i xs).take (q - i + added.length * marksBetween marked i q) ++
        (added ++ (insertFrom added marked i xs).drop
          (q - i + added.length * marksBetween marked i q)) := by
  induction xs generalizing i with
  | nil =>
      obtain rfl : i = q := Nat.le_antisymm hi hle
      simp [insertFrom, marksBetween_self, hq]
  | cons x xs ih =>
      rcases Nat.eq_or_lt_of_le hi with rfl | hlt
      · have hrest : insertFrom added (i :: marked) (i + 1) xs =
            insertFrom added marked (i + 1) xs := by
          apply insertFrom_congr
          intro j hj
          rw [List.mem_cons, or_iff_right (Nat.ne_of_gt hj)]
        simp [insertFrom, marksBetween_self, hq, hrest]
      · have hne : i ≠ q := Nat.ne_of_lt hlt
        have hlen : q ≤ i + 1 + xs.length := by
          rw [List.length_cons] at hle
          omega
        have hsub : q - i = q - (i + 1) + 1 := by omega
        rw [marksBetween_succ hnodup hlt]
        by_cases hmem : i ∈ marked
        · simp only [insertFrom, List.mem_cons, hne, false_or, hmem, if_true, ih hlt hlen]
          have hmove : q - i + added.length * (1 + marksBetween marked (i + 1) q) = added.length +
              (q - (i + 1) + added.length * marksBetween marked (i + 1) q + 1) := by
            rw [hsub, Nat.mul_add, Nat.mul_one]
            omega
          rw [hmove, List.take_length_add_append, List.drop_length_add_append]
          simp
        · simp only [insertFrom, List.mem_cons, hne, false_or, hmem, if_false, List.nil_append,
            Nat.zero_add, ih hlt hlen]
          rw [hsub, Nat.add_right_comm]
          simp

theorem marksBetween_zero (hq : q ∉ marked) :
    marksBetween marked 0 q = marked.countP fun at' => decide (at' ≤ q) := by
  apply List.countP_congr
  intro at' hmem
  have hne : at' ≠ q := fun heq => hq (heq ▸ hmem)
  simp only [decide_eq_true_eq]
  omega

/-- One insertion more, at the place its position has moved to. -/
theorem insertEach_cons (hnodup : marked.Nodup) (hq : q ∉ marked) (hle : q ≤ xs.length) :
    insertEach added (q :: marked) xs =
      (insertEach added marked xs).take (landing added.length marked q) ++
        (added ++ (insertEach added marked xs).drop (landing added.length marked q)) := by
  have h := insertFrom_cons added hnodup hq (Nat.zero_le q) (by rwa [Nat.zero_add])
  rwa [Nat.sub_zero, marksBetween_zero hq] at h

theorem length_insertEach (hnodup : marked.Nodup) (hle : ∀ q ∈ marked, q ≤ xs.length) :
    (insertEach added marked xs).length = xs.length + added.length * marked.length := by
  induction marked with
  | nil => simp
  | cons q marked ih =>
      obtain ⟨hq, hnodup⟩ := List.nodup_cons.1 hnodup
      obtain ⟨hleq, hle⟩ := List.forall_mem_cons.1 hle
      rw [insertEach_cons hnodup hq hleq]
      have hlen := ih hnodup hle
      simp only [List.length_append, List.length_take, List.length_drop, List.length_cons,
        Nat.mul_add, Nat.mul_one]
      omega

variable (added) in
theorem landing_le_length (hnodup : marked.Nodup) (hle : ∀ q ∈ marked, q ≤ xs.length)
    (hq : q ≤ xs.length) :
    landing added.length marked q ≤ (insertEach added marked xs).length := by
  rw [length_insertEach hnodup hle]
  exact Nat.add_le_add hq (Nat.mul_le_mul_left _ List.countP_le_length)

/-- Each marked position has moved to just after its own copy. -/
theorem copy_before_landing (hnodup : marked.Nodup) (hle : ∀ q ∈ marked, q ≤ xs.length)
    (hq : q ∈ marked) : added.length ≤ landing added.length marked q ∧
      ((insertEach added marked xs).drop (landing added.length marked q - added.length)).take
        added.length = added := by
  obtain ⟨rest, hperm⟩ : ∃ rest, marked.Perm (q :: rest) := ⟨_, List.perm_cons_erase hq⟩
  obtain ⟨hnot, hrest⟩ := List.nodup_cons.1 (hperm.nodup_iff.1 hnodup)
  have hwithin : ∀ q ∈ rest, q ≤ xs.length :=
    fun x hx => hle x (hperm.mem_iff.2 (List.mem_cons_of_mem q hx))
  have hlen := landing_le_length added hrest hwithin (hle q hq)
  rw [landing_perm hperm, insertEach_perm hperm, landing_cons, if_pos (Nat.le_refl q),
    insertEach_cons hrest hnot (hle q hq), Nat.add_sub_cancel]
  refine ⟨Nat.le_add_left _ _, ?_⟩
  rw [List.drop_append_of_le_length (by rw [List.length_take]; omega), List.drop_take, Nat.sub_self,
    List.take_zero, List.nil_append, List.take_left']
  rfl

end

end Ned.Library
