import Ned.Library.Assoc
import Mathlib.Algebra.Ring.Nat
import Mathlib.Data.List.Nodup

/-!
# Rows

Cells set one after another, and rows laid out one after another.
-/

namespace Ned.Library

variable {α : Type}

/-- Cells set one after another, no cell twice. -/
theorem foldl_set (assigned : List (Nat × Nat)) (row : List Nat)
    (hnodup : (assigned.map (·.1)).Nodup) {k : Nat} (hk : k < row.length) :
    (assigned.foldl (fun row p => row.set p.1 p.2) row)[k]? =
      some ((assigned.lookup k).getD (row.getD k 0)) := by
  induction assigned generalizing row with
  | nil => simp [List.getD_eq_getElem?_getD, List.getElem?_eq_getElem hk]
  | cons p assigned ih =>
      obtain ⟨i, v⟩ := p
      obtain ⟨hfresh, htail⟩ := List.nodup_cons.1 hnodup
      rw [List.foldl_cons, ih _ htail (by simpa using hk), List.lookup_cons]
      by_cases heq : k = i
      · subst heq
        have hnone : assigned.lookup k = none := by
          cases hfound : assigned.lookup k with
          | none => rfl
          | some w => exact absurd (List.mem_map.2 ⟨_, mem_of_lookup hfound, rfl⟩) hfresh
        simp [hnone, hk]
      · simp [beq_eq_false_iff_ne.2 heq, List.getD_eq_getElem?_getD,
          List.getElem?_set_ne (Ne.symm heq)]

theorem foldl_set_length (assigned : List (Nat × Nat)) (row : List Nat) :
    (assigned.foldl (fun row p => row.set p.1 p.2) row).length = row.length := by
  induction assigned generalizing row with
  | nil => rfl
  | cons p assigned ih => rw [List.foldl_cons, ih, List.length_set]

/-- A cell of rows of one length. -/
theorem getElem?_rows {rows : List (List α)} {n : Nat} (hrows : ∀ row ∈ rows, row.length = n)
    {i k : Nat} {row : List α} (hi : rows[i]? = some row) (hk : k < n) :
    rows.flatten[i * n + k]? = row[k]? := by
  induction rows generalizing i with
  | nil => cases hi
  | cons first rows ih =>
      have hfirst := hrows first List.mem_cons_self
      rw [List.flatten_cons]
      cases i with
      | zero =>
          obtain rfl : first = row := Option.some.inj hi
          rw [Nat.zero_mul, Nat.zero_add, List.getElem?_append_left (hfirst ▸ hk)]
      | succ i =>
          have hge : first.length ≤ (i + 1) * n + k := by
            rw [hfirst, Nat.add_mul]
            omega
          have hsub : (i + 1) * n + k - first.length = i * n + k := by
            rw [hfirst, Nat.add_mul]
            omega
          rw [List.getElem?_append_right hge, hsub]
          exact ih (fun r hr => hrows r (List.mem_cons_of_mem _ hr)) hi

/-- A row of any length, where it starts. -/
theorem drop_rows {rows : List (List α)} {i : Nat} {row : List α} (hi : rows[i]? = some row) :
    ∃ rest, rows.flatten.drop ((rows.take i).map List.length).sum = row ++ rest := by
  induction rows generalizing i with
  | nil => cases hi
  | cons first rows ih =>
      rw [List.flatten_cons]
      cases i with
      | zero =>
          obtain rfl : first = row := Option.some.inj hi
          exact ⟨_, rfl⟩
      | succ i =>
          obtain ⟨rest, hrest⟩ := ih hi
          refine ⟨rest, ?_⟩
          rw [List.take_succ_cons, List.map_cons, List.sum_cons, List.drop_length_add_append]
          exact hrest

theorem sum_lengths_le {rows : List (List α)} {n : Nat} (h : ∀ row ∈ rows, row.length ≤ n) :
    (rows.map List.length).sum ≤ rows.length * n := by
  induction rows with
  | nil => simp
  | cons row rows ih =>
      obtain ⟨hrow, hrows⟩ := List.forall_mem_cons.1 h
      rw [List.map_cons, List.sum_cons, List.length_cons, Nat.succ_mul, Nat.add_comm]
      exact Nat.add_le_add (ih hrows) hrow

/-- Where no two items have one key, what a filter keeps is an item and those with other keys. -/
theorem filter_perm_cons {β : Type} [DecidableEq β] {key : α → β} {items : List α} {item : α}
    {p : α → Bool} (h : (items.map key).Nodup) (hitem : item ∈ items) (hp : p item = true) :
    (items.filter p).Perm
      (item :: items.filter fun other => p other && decide (key other ≠ key item)) := by
  have hitems := List.Nodup.of_map key h
  refine (List.perm_ext_iff_of_nodup (hitems.filter _)
    (List.nodup_cons.2 ⟨by simp, hitems.filter _⟩)).2 fun other => ?_
  rw [List.mem_cons, List.mem_filter, List.mem_filter, Bool.and_eq_true, decide_eq_true_eq]
  constructor
  · rintro ⟨hother, hpother⟩
    by_cases heq : key other = key item
    · exact Or.inl (List.inj_on_of_nodup_map h hother hitem heq)
    · exact Or.inr ⟨hother, hpother, heq⟩
  · rintro (rfl | ⟨hother, hpother, -⟩)
    · exact ⟨hitem, hp⟩
    · exact ⟨hother, hpother⟩

end Ned.Library
