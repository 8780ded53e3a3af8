import Mathlib.Data.List.Induction
import Mathlib.Data.List.Sort

/-!
# Association lists

Maps as lists of entries, the first entry for a key being the one that counts.
-/

namespace Ned.Library

variable {κ β : Type} [BEq κ]

/-- Adds an entry unless the key has one. -/
def emplace (entries : List (κ × β)) (key : κ) (value : β) : List (κ × β) :=
  if (entries.lookup key).isSome then entries else entries ++ [(key, value)]

/-- Replaces the entry of a key, or adds one. -/
def assign : List (κ × β) → κ → β → List (κ × β)
  | [], key, value => [(key, value)]
  | (k, v) :: entries, key, value =>
      if key == k then (k, value) :: entries else (k, v) :: assign entries key value

/-- Drops the entry of a key. -/
def erase (entries : List (κ × β)) (key : κ) : List (κ × β) := entries.filter (!key == ·.1)

theorem lookup_append (entries entries' : List (κ × β)) (key : κ) :
    (entries ++ entries').lookup key = (entries.lookup key).or (entries'.lookup key) := by
  induction entries with
  | nil => rfl
  | cons e entries ih =>
      obtain ⟨k, v⟩ := e
      simp only [List.cons_append, List.lookup_cons]
      split
      · rfl
      · exact ih

theorem emplace_of_lookup_eq_none {entries : List (κ × β)} {key : κ} (h : entries.lookup key = none)
    (value : β) : emplace entries key value = entries ++ [(key, value)] := by
  rw [emplace, h, Option.isSome_none]
  rfl

theorem lookup_mapped {γ : Type} (f : β → γ) (entries : List (κ × β)) (key : κ) :
    (entries.map fun p => (p.1, f p.2)).lookup key = (entries.lookup key).map f := by
  induction entries with
  | nil => rfl
  | cons p entries ih =>
      rw [List.map_cons, List.lookup_cons, List.lookup_cons, ih]
      cases key == p.1 <;> rfl

section Lawful

variable [LawfulBEq κ]

theorem lookup_erase_self (entries : List (κ × β)) (key : κ) :
    (erase entries key).lookup key = none := by
  refine List.lookup_eq_none_iff.2 fun e he => ?_
  simpa using (List.mem_filter.1 he).2

theorem lookup_erase_of_ne {key key' : κ} (hne : key' ≠ key) (entries : List (κ × β)) :
    (erase entries key).lookup key' = entries.lookup key' := by
  induction entries with
  | nil => rfl
  | cons e entries ih =>
      obtain ⟨k, v⟩ := e
      rw [erase, List.filter_cons, List.lookup_cons]
      split
      · rw [List.lookup_cons]
        split
        · rfl
        · exact ih
      · rename_i hkey
        have hkey : key = k := by simpa using hkey
        rw [← hkey, beq_eq_false_iff_ne.2 hne]
        exact ih

theorem lookup_assign_self (entries : List (κ × β)) (key : κ) (value : β) :
    (assign entries key value).lookup key = some value := by
  induction entries with
  | nil => simp [assign]
  | cons e entries ih =>
      obtain ⟨k, v⟩ := e
      simp only [assign]
      split
      · rename_i heq
        rw [beq_iff_eq] at heq
        simp [heq]
      · rename_i hne
        rw [Bool.not_eq_true] at hne
        simp [List.lookup_cons, hne, ih]

theorem lookup_assign_of_ne {key key' : κ} (hne : key' ≠ key) (entries : List (κ × β)) (value : β) :
    (assign entries key value).lookup key' = entries.lookup key' := by
  induction entries with
  | nil => simp [assign, hne]
  | cons e entries ih =>
      obtain ⟨k, v⟩ := e
      simp only [assign]
      split
      · rename_i heq
        rw [beq_iff_eq] at heq
        simp [List.lookup_cons, ← heq, beq_eq_false_iff_ne.2 hne]
      · simp only [List.lookup_cons, ih]

theorem mem_of_lookup {entries : List (κ × β)} {key : κ} {value : β}
    (h : entries.lookup key = some value) : (key, value) ∈ entries := by
  obtain ⟨before, after, heq, -⟩ := List.lookup_eq_some_iff.1 h
  rw [heq]
  exact List.mem_append_right _ List.mem_cons_self

theorem not_mem_of_lookup {entries : List (κ × β)} {key : κ} (h : entries.lookup key = none)
    (value : β) : (key, value) ∉ entries := by
  intro hmem
  have hne := List.lookup_eq_none_iff.1 h _ hmem
  simp at hne

/-- Where no key has two entries, every entry counts. -/
theorem lookup_of_mem {entries : List (κ × β)} {key : κ} {value : β}
    (h : (entries.map (·.1)).Nodup) (hmem : (key, value) ∈ entries) :
    entries.lookup key = some value := by
  induction entries with
  | nil => cases hmem
  | cons e entries ih =>
      obtain ⟨k, v⟩ := e
      obtain ⟨hfresh, htail⟩ := List.nodup_cons.1 h
      rw [List.lookup_cons]
      rcases List.mem_cons.1 hmem with heq | hmem
      · obtain ⟨rfl, rfl⟩ := Prod.mk.inj heq
        simp
      · have hne : key ≠ k := fun heq => hfresh (List.mem_map.2 ⟨_, hmem, heq⟩)
        rw [beq_eq_false_iff_ne.2 hne]
        exact ih htail hmem

theorem lookup_eq_none_of_not_mem {entries : List (κ × β)} {key : κ}
    (h : key ∉ entries.map (·.1)) : entries.lookup key = none := by
  refine List.lookup_eq_none_iff.2 fun e he => ?_
  rw [bne_iff_ne]
  exact fun heq => h (heq ▸ List.mem_map_of_mem he)

/-- Entries whose keys are all different are all added. -/
theorem foldl_emplace {entries : List (κ × β)} (h : (entries.map (·.1)).Nodup) :
    entries.foldl (fun found e => emplace found e.1 e.2) [] = entries := by
  induction entries using List.reverseRecOn with
  | nil => rfl
  | append_singleton entries e ih =>
      rw [List.map_append, List.nodup_append] at h
      rw [List.foldl_append, ih h.1, List.foldl_cons, List.foldl_nil]
      refine emplace_of_lookup_eq_none (lookup_eq_none_of_not_mem fun hmem => ?_) _
      exact h.2.2 _ hmem _ (List.mem_singleton.2 rfl) rfl

/-- The order of entries does not matter where no key has two. -/
theorem lookup_perm {entries entries' : List (κ × β)} (h : entries.Perm entries')
    (hnodup : (entries.map (·.1)).Nodup) (key : κ) :
    entries.lookup key = entries'.lookup key := by
  have hnodup' : (entries'.map (·.1)).Nodup := (h.map (·.1)).nodup_iff.1 hnodup
  cases hfound : entries.lookup key with
  | some value => exact (lookup_of_mem hnodup' (h.mem_iff.1 (mem_of_lookup hfound))).symm
  | none =>
      cases hfound' : entries'.lookup key with
      | none => rfl
      | some value =>
          exact absurd (h.mem_iff.2 (mem_of_lookup hfound')) (not_mem_of_lookup hfound value)

end Lawful

/-!
## Sorting by a key

A sort that is only promised to order its input: elements with equal keys come out in any order.
-/

structure KeySort where
  sort : {α : Type} → (α → Nat) → List α → List α
  perm : ∀ {α : Type} (key : α → Nat) (xs : List α), (sort key xs).Perm xs
  sorted : ∀ {α : Type} (key : α → Nat) (xs : List α),
    (sort key xs).Pairwise fun x y => key x ≤ key y

namespace KeySort

/-- Insertion sort, which keeps the order of equal keys. -/
def insertion : KeySort where
  sort key xs := xs.insertionSort fun x y => key x ≤ key y
  perm _ xs := List.perm_insertionSort _ xs
  sorted key xs :=
    haveI : Std.Total fun x y => key x ≤ key y := ⟨fun _ _ => Nat.le_total _ _⟩
    haveI : IsTrans _ fun x y => key x ≤ key y := ⟨fun _ _ _ => Nat.le_trans⟩
    List.pairwise_insertionSort _ xs

variable {α : Type} (s : KeySort) (key : α → Nat)

theorem mem_sort {xs : List α} {x : α} : x ∈ s.sort key xs ↔ x ∈ xs :=
  (s.perm key xs).mem_iff

/-- Without equal keys there is one order. -/
theorem eq_of_perm {xs ys : List α} (hperm : ys.Perm xs) (hsorted : ys.Pairwise fun x y => key x ≤ key y)
    (h : xs.Pairwise fun x y => key x < key y) : ys = xs := by
  have hinj : ∀ ⦃x⦄, x ∈ xs → ∀ ⦃y⦄, y ∈ xs → key x = key y → x = y :=
    List.Pairwise.forall_of_forall_of_flip (fun _ _ _ => rfl)
      (h.imp fun hlt heq => absurd heq (Nat.ne_of_lt hlt))
      (h.imp fun hlt heq => absurd heq.symm (Nat.ne_of_lt hlt))
  refine hperm.eq_of_pairwise ?_ hsorted (h.imp Nat.le_of_lt)
  intro x y hx hy hle hge
  exact hinj (hperm.mem_iff.1 hx) hy (Nat.le_antisymm hle hge)

/-- What is in order already, without equal keys, stays as it is. -/
theorem sort_eq_of_pairwise_lt {xs : List α} (h : xs.Pairwise fun x y => key x < key y) :
    s.sort key xs = xs :=
  eq_of_perm key (s.perm key xs) (s.sorted key xs) h

end KeySort

end Ned.Library
