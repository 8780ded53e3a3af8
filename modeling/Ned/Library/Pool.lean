import Ned.Library.Assoc
import Mathlib.Algebra.Ring.Nat
import Mathlib.Data.List.Nodup

/-!
# Pools

Items laid out one after another, each once, and addressed by where they start.
-/

namespace Ned.Library

variable {α β : Type} {size : α → Nat} {render : α → List β} {start stop i j : Nat}
  {items : List (α × Nat)} {a b : α}

/-- From `start` on every item begins where the one before it ends. -/
def Laid (size : α → Nat) : Nat → List (α × Nat) → Nat → Prop
  | start, [], stop => start = stop
  | start, (a, i) :: items, stop => i = start ∧ Laid size (start + size a) items stop

/-- The cells of the items in their order. -/
def layOut (render : α → List β) (items : List (α × Nat)) : List β :=
  items.flatMap fun item => render item.1

namespace Laid

theorem append (h : Laid size start items stop) (a : α) :
    Laid size start (items ++ [(a, stop)]) (stop + size a) := by
  induction items generalizing start with
  | nil => exact ⟨h.symm, congrArg (· + size a) h⟩
  | cons item items ih => exact ⟨h.1, ih h.2⟩

theorem start_le (h : Laid size start items stop) (ha : (a, i) ∈ items) : start ≤ i := by
  induction items generalizing start with
  | nil => cases ha
  | cons item items ih =>
      rcases List.mem_cons.1 ha with rfl | ha
      · exact Nat.le_of_eq h.1.symm
      · exact Nat.le_trans (Nat.le_add_right _ _) (ih h.2 ha)

/-- Where an item starts, its cells are. -/
theorem drop_layOut (h : Laid size start items stop) (hsize : ∀ a, (render a).length = size a)
    (ha : (a, i) ∈ items) :
    ∃ rest, (layOut render items).drop (i - start) = render a ++ rest := by
  induction items generalizing start with
  | nil => cases ha
  | cons item items ih =>
      obtain ⟨b, j⟩ := item
      rw [layOut, List.flatMap_cons]
      rcases List.mem_cons.1 ha with heq | ha
      · obtain ⟨rfl, rfl⟩ := Prod.mk.inj heq
        rw [h.1, Nat.sub_self, List.drop_zero]
        exact ⟨_, rfl⟩
      · obtain ⟨rest, hrest⟩ := ih h.2 ha
        have hle := h.2.start_le ha
        have hsplit : i - start = (render b).length + (i - (start + size b)) := by
          rw [hsize b]
          omega
        rw [hsplit, List.drop_length_add_append]
        exact ⟨rest, hrest⟩

/-- A cell is one of the item's it is among. -/
theorem cell (h : Laid size start items stop) (hsize : ∀ a, (render a).length = size a) {k : Nat}
    {c : β} (hc : (layOut render items)[k]? = some c) :
    ∃ a i, (a, i) ∈ items ∧ i ≤ start + k ∧ (render a)[start + k - i]? = some c := by
  induction items generalizing start k with
  | nil => cases hc
  | cons item items ih =>
      obtain ⟨b, j⟩ := item
      rw [layOut, List.flatMap_cons] at hc
      by_cases hk : k < (render b).length
      · rw [List.getElem?_append_left hk] at hc
        obtain rfl := h.1
        refine ⟨b, j, List.mem_cons_self, Nat.le_add_right _ _, ?_⟩
        rw [Nat.add_sub_cancel_left]
        exact hc
      · rw [List.getElem?_append_right (Nat.le_of_not_lt hk)] at hc
        obtain ⟨a, i, ha, hle, hcell⟩ := ih h.2 hc
        have hsum : start + size b + (k - (render b).length) = start + k := by
          rw [hsize b] at hk ⊢
          omega
        rw [hsum] at hle hcell
        exact ⟨a, i, List.mem_cons_of_mem _ ha, hle, hcell⟩

variable [DecidableEq α]

/-- An item starts after what comes before it. -/
theorem start_eq (h : Laid size start items stop) (hnodup : (items.map (·.1)).Nodup)
    (ha : (a, i) ∈ items) :
    i = start + (((items.map (·.1)).takeWhile fun b => b ≠ a).map size).sum := by
  induction items generalizing start with
  | nil => cases ha
  | cons item items ih =>
      obtain ⟨b, j⟩ := item
      obtain ⟨hfresh, htail⟩ := List.nodup_cons.1 hnodup
      rw [List.map_cons, List.takeWhile_cons]
      rcases List.mem_cons.1 ha with heq | hmem
      · obtain ⟨rfl, rfl⟩ := Prod.mk.inj heq
        simpa using h.1
      · have hne : b ≠ a := fun heq => hfresh (List.mem_map.2 ⟨_, hmem, heq.symm⟩)
        have hstart := ih h.2 htail hmem
        rw [if_pos (decide_eq_true hne), List.map_cons, List.sum_cons, ← Nat.add_assoc]
        exact hstart

end Laid

/-! ## Pools -/

variable [DecidableEq α]

/-- A pool knows where each of its items starts, and where the next one will. -/
structure Pool (size : α → Nat) where
  items : List (α × Nat) := []
  next : Nat := 0
  laid : Laid size 0 items next := by rfl
  nodup : (items.map (·.1)).Nodup := by simp

namespace Pool

variable {pool : Pool size}

/-- Where an item of the pool starts. -/
def find? (pool : Pool size) (a : α) : Option Nat := pool.items.lookup a

/-- Where an item starts once it is in the pool. -/
def place (pool : Pool size) (a : α) : Nat := (pool.find? a).getD pool.next

theorem place_of_mem (h : (a, i) ∈ pool.items) : pool.place a = i := by
  rw [place, find?, lookup_of_mem pool.nodup h, Option.getD_some]

/-- An item that the pool does not hold goes after the others. -/
def intern (pool : Pool size) (a : α) : Pool size :=
  if h : a ∈ pool.items.map (·.1) then pool
  else
    { items := pool.items ++ [(a, pool.next)]
      next := pool.next + size a
      laid := pool.laid.append a
      nodup := by
        rw [List.map_append, List.map_singleton]
        exact pool.nodup.append (List.nodup_singleton a) (by simpa using h) }

theorem intern_mem (pool : Pool size) (a : α) : a ∈ (pool.intern a).items.map (·.1) := by
  unfold intern
  split
  · assumption
  · simp

theorem intern_keeps (h : (b, i) ∈ pool.items) : (b, i) ∈ (pool.intern a).items := by
  unfold intern
  split
  · exact h
  · exact List.mem_append_left _ h

theorem intern_only (h : (b, i) ∈ (pool.intern a).items) : (b, i) ∈ pool.items ∨ b = a := by
  unfold intern at h
  split at h
  · exact Or.inl h
  · rcases List.mem_append.1 h with h | h
    · exact Or.inl h
    · exact Or.inr (Prod.mk.inj (List.mem_singleton.1 h)).1

def internAll (pool : Pool size) (as : List α) : Pool size := as.foldl intern pool

theorem internAll_keeps {as : List α} (h : (b, i) ∈ pool.items) :
    (b, i) ∈ (pool.internAll as).items := by
  induction as generalizing pool with
  | nil => exact h
  | cons a as ih => exact ih (intern_keeps h)

theorem internAll_mem {as : List α} (h : a ∈ as) :
    a ∈ (pool.internAll as).items.map (·.1) := by
  induction as generalizing pool with
  | nil => cases h
  | cons b as ih =>
      rcases List.mem_cons.1 h with rfl | h
      · obtain ⟨item, hitem, heq⟩ := List.mem_map.1 (pool.intern_mem a)
        have hkept : (item.1, item.2) ∈ ((pool.intern a).internAll as).items :=
          internAll_keeps hitem
        exact List.mem_map.2 ⟨item, hkept, heq⟩
      · exact ih h

theorem internAll_only {as : List α} (h : (b, i) ∈ (pool.internAll as).items) :
    (b, i) ∈ pool.items ∨ b ∈ as := by
  induction as generalizing pool with
  | nil => exact Or.inl h
  | cons a as ih =>
      rcases ih h with h | h
      · exact (intern_only h).imp_right fun heq => List.mem_cons.2 (Or.inl heq)
      · exact Or.inr (List.mem_cons_of_mem _ h)

/-- The first item of an empty pool starts at its start. -/
theorem place_first (a : α) (as : List α) : (internAll ({} : Pool size) (a :: as)).place a = 0 := by
  have hfirst : (a, 0) ∈ (intern ({} : Pool size) a).items := by simp [intern]
  have hkept : (a, 0) ∈ (internAll (intern ({} : Pool size) a) as).items := internAll_keeps hfirst
  exact place_of_mem hkept

/-- The cells of a pool. -/
def cells (render : α → List β) (pool : Pool size) : List β := layOut render pool.items

theorem drop_cells (hsize : ∀ a, (render a).length = size a) (ha : a ∈ pool.items.map (·.1)) :
    ∃ rest, (pool.cells render).drop (pool.place a) = render a ++ rest := by
  obtain ⟨⟨b, i⟩, hmem, rfl⟩ := List.mem_map.1 ha
  rw [place_of_mem hmem]
  exact pool.laid.drop_layOut hsize hmem

theorem cell (hsize : ∀ a, (render a).length = size a) {k : Nat} {c : β}
    (hc : (pool.cells render)[k]? = some c) :
    ∃ a, a ∈ pool.items.map (·.1) ∧ pool.place a ≤ k ∧ (render a)[k - pool.place a]? = some c := by
  obtain ⟨a, i, hmem, hle, hcell⟩ := pool.laid.cell hsize hc
  rw [Nat.zero_add] at hle hcell
  refine ⟨a, List.mem_map.2 ⟨_, hmem, rfl⟩, ?_⟩
  rw [place_of_mem hmem]
  exact ⟨hle, hcell⟩

/-! ## Where items are -/

/-- The first use of each item. -/
def firstUses (as : List α) : List α :=
  as.foldl (fun seen a => if a ∈ seen then seen else seen ++ [a]) []

/-- What the items used before another take. -/
def sizeBefore (size : α → Nat) (as : List α) (a : α) : Nat :=
  (((firstUses as).takeWhile fun b => b ≠ a).map size).sum

theorem intern_items (pool : Pool size) (a : α) :
    (pool.intern a).items.map (·.1) =
      if a ∈ pool.items.map (·.1) then pool.items.map (·.1) else pool.items.map (·.1) ++ [a] := by
  unfold intern
  split
  · rfl
  · rw [List.map_append]
    rfl

theorem internAll_items (pool : Pool size) (as : List α) :
    (pool.internAll as).items.map (·.1) =
      as.foldl (fun seen a => if a ∈ seen then seen else seen ++ [a]) (pool.items.map (·.1)) := by
  induction as generalizing pool with
  | nil => rfl
  | cons a as ih =>
      rw [internAll, List.foldl_cons, List.foldl_cons, ← intern_items]
      exact ih (pool.intern a)

theorem place_internAll {as : List α} (h : a ∈ as) :
    (internAll ({} : Pool size) as).place a = sizeBefore size as a := by
  have hmem : a ∈ (internAll ({} : Pool size) as).items.map (·.1) := internAll_mem h
  obtain ⟨⟨b, i⟩, hitem, rfl⟩ := List.mem_map.1 hmem
  have hstart := Laid.start_eq (Pool.laid _) (Pool.nodup _) hitem
  rw [place_of_mem hitem, hstart, Nat.zero_add, internAll_items]
  rfl

end Pool

end Ned.Library
