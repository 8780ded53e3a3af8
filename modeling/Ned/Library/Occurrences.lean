import Mathlib.Data.List.Infix

/-!
# Occurrences

Where one list occurs in another: the first place from a bound on, the last one before a bound, and how
a part of the list is searched instead of the whole.
-/

namespace Ned.Library

/-! ## The first and the last of the numbers with a property -/

/-- The first number from `start` on, if there is one. -/
def IsFirst (P : Nat → Prop) (start : Nat) : Option Nat → Prop
  | some i => start ≤ i ∧ P i ∧ ∀ j, start ≤ j → j < i → ¬ P j
  | none => ∀ j, start ≤ j → ¬ P j

/-- The last number below `stop`, if there is one. -/
def IsLast (P : Nat → Prop) (stop : Nat) : Option Nat → Prop
  | some i => i < stop ∧ P i ∧ ∀ j, i < j → j < stop → ¬ P j
  | none => ∀ j, j < stop → ¬ P j

variable {P : Nat → Prop} {start stop i j : Nat} {a b : Option Nat}

theorem IsFirst.unique (ha : IsFirst P start a) (hb : IsFirst P start b) : a = b := by
  cases a with
  | none =>
      cases b with
      | none => rfl
      | some j => exact absurd hb.2.1 (ha j hb.1)
  | some i =>
      cases b with
      | none => exact absurd ha.2.1 (hb i ha.1)
      | some j =>
          rcases Nat.lt_trichotomy i j with hlt | rfl | hlt
          · exact absurd ha.2.1 (hb.2.2 i ha.1 hlt)
          · rfl
          · exact absurd hb.2.1 (ha.2.2 j hb.1 hlt)

theorem IsLast.unique (ha : IsLast P stop a) (hb : IsLast P stop b) : a = b := by
  cases a with
  | none =>
      cases b with
      | none => rfl
      | some j => exact absurd hb.2.1 (ha j hb.1)
  | some i =>
      cases b with
      | none => exact absurd ha.2.1 (hb i ha.1)
      | some j =>
          rcases Nat.lt_trichotomy i j with hlt | rfl | hlt
          · exact absurd hb.2.1 (ha.2.2 j hlt hb.1)
          · rfl
          · exact absurd ha.2.1 (hb.2.2 i hlt ha.1)

/-- A later bound is as good, where nothing lies between. -/
theorem IsFirst.later {start' : Nat} (h : IsFirst P start' a) (hle : start ≤ start')
    (hnone : ∀ j, start ≤ j → j < start' → ¬ P j) : IsFirst P start a := by
  cases a with
  | none =>
      intro j hj
      rcases Nat.lt_or_ge j start' with hlt | hge
      · exact hnone j hj hlt
      · exact h j hge
  | some i =>
      refine ⟨Nat.le_trans hle h.1, h.2.1, fun j hj hji => ?_⟩
      rcases Nat.lt_or_ge j start' with hlt | hge
      · exact hnone j hj hlt
      · exact h.2.2 j hge hji

/-- An earlier bound is as good, where nothing lies between. -/
theorem IsLast.earlier {stop' : Nat} (h : IsLast P stop' a) (hle : stop' ≤ stop)
    (hnone : ∀ j, stop' ≤ j → j < stop → ¬ P j) : IsLast P stop a := by
  cases a with
  | none =>
      intro j hj
      rcases Nat.lt_or_ge j stop' with hlt | hge
      · exact h j hlt
      · exact hnone j hge hj
  | some i =>
      refine ⟨Nat.lt_of_lt_of_le h.1 hle, h.2.1, fun j hij hj => ?_⟩
      rcases Nat.lt_or_ge j stop' with hlt | hge
      · exact h.2.2 j hij hlt
      · exact hnone j hge hj

theorem IsLast.le_of (h : IsLast P stop (some i)) (hj : j < stop) (hPj : P j) : j ≤ i := by
  by_cases hle : j ≤ i
  · exact hle
  · exact absurd hPj (h.2.2 j (Nat.lt_of_not_le hle) hj)

section Find

variable [DecidablePred P]

/-- The first of a run of numbers. -/
theorem isFirst_find? (count : Nat) (hstop : ∀ j, P j → j < start + count) :
    IsFirst P start ((List.range' start count).find? fun i => decide (P i)) := by
  induction count generalizing start with
  | zero =>
      intro j hj hP
      exact absurd (hstop j hP) (Nat.not_lt.2 hj)
  | succ count ih =>
      rw [List.range'_succ, List.find?_cons]
      have hnext : ∀ j, P j → j < start + 1 + count := by
        intro j hP
        have hlt := hstop j hP
        omega
      by_cases hP : P start
      · simp only [hP, decide_true]
        exact ⟨Nat.le_refl _, hP, fun j hj hlt => absurd hlt (Nat.not_lt.2 hj)⟩
      · simp only [hP, decide_false]
        apply (ih hnext).later (Nat.le_succ _)
        intro j hj hlt
        obtain rfl := Nat.le_antisymm (Nat.le_of_lt_succ hlt) hj
        exact hP

/-- The last of the numbers below a bound. -/
theorem isLast_find? (count : Nat) :
    IsLast P count ((List.range count).reverse.find? fun i => decide (P i)) := by
  induction count with
  | zero => exact fun j hj => absurd hj (Nat.not_lt_zero j)
  | succ count ih =>
      rw [List.range_succ, List.reverse_append, List.reverse_singleton, List.singleton_append,
        List.find?_cons]
      by_cases hP : P count
      · simp only [hP, decide_true]
        exact ⟨Nat.lt_succ_self _, hP, fun j hlt hj => absurd hj (Nat.not_lt.2 hlt)⟩
      · simp only [hP, decide_false]
        apply ih.earlier (Nat.le_succ _)
        intro j hj hlt
        obtain rfl := Nat.le_antisymm (Nat.le_of_lt_succ hlt) hj
        exact hP

end Find

/-! ## Occurrences of a list -/

variable {α : Type} {needle text : List α} {length : Nat}

/-- `needle` stands in `text` from `i` on. -/
def OccursAt (needle text : List α) (i : Nat) : Prop := needle <+: text.drop i

instance [DecidableEq α] : DecidablePred (OccursAt needle text) :=
  fun i => inferInstanceAs (Decidable (needle <+: text.drop i))

namespace OccursAt

theorem end_le (h : OccursAt needle text i) (hne : needle ≠ []) :
    i + needle.length ≤ text.length := by
  have hlength := List.IsPrefix.length_le h
  rw [List.length_drop] at hlength
  have hpos := List.length_pos_of_ne_nil hne
  omega

theorem lt_length (h : OccursAt needle text i) (hne : needle ≠ []) : i < text.length := by
  have hend := h.end_le hne
  have hpos := List.length_pos_of_ne_nil hne
  omega

/-- An occurrence in a part of the list is one in the list that lies in the part. -/
theorem part_iff (hne : needle ≠ []) : OccursAt needle ((text.drop start).take length) i ↔
    OccursAt needle text (start + i) ∧ i + needle.length ≤ length := by
  have hpos := List.length_pos_of_ne_nil hne
  rw [OccursAt, OccursAt, List.drop_take, List.drop_drop, List.prefix_take_iff]
  constructor
  · rintro ⟨h, hle⟩
    exact ⟨h, by omega⟩
  · rintro ⟨h, hle⟩
    exact ⟨h, by omega⟩

end OccursAt

end Ned.Library
