import Mathlib.Data.List.Forall2

/-!
# Fallible computations

What a computation that may fail has done when it has not failed.
-/

namespace Ned.Library

variable {ε α β : Type}

theorem bind_eq_ok {x : Except ε α} {f : α → Except ε β} {b : β} :
    x >>= f = .ok b ↔ ∃ a, x = .ok a ∧ f a = .ok b := by
  cases x with
  | error e =>
      constructor
      · intro h
        cases h
      · rintro ⟨a, ha, -⟩
        cases ha
  | ok a =>
      constructor
      · exact fun h => ⟨a, rfl, h⟩
      · rintro ⟨a', ha, h⟩
        cases ha
        exact h

theorem mapM_eq_ok {f : α → Except ε β} {items : List α} {results : List β}
    (h : items.mapM f = .ok results) :
    List.Forall₂ (fun item result => f item = .ok result) items results := by
  induction items generalizing results with
  | nil =>
      cases h
      exact .nil
  | cons item items ih =>
      rw [List.mapM_cons] at h
      obtain ⟨result, hresult, h⟩ := bind_eq_ok.1 h
      obtain ⟨rest, hrest, h⟩ := bind_eq_ok.1 h
      cases h
      exact .cons hresult (ih hrest)

theorem forM_eq_ok {f : α → Except ε Unit} {items : List α} :
    items.forM f = .ok () ↔ ∀ item ∈ items, f item = .ok () := by
  induction items with
  | nil => exact ⟨fun _ => List.forall_mem_nil _, fun _ => rfl⟩
  | cons item items ih =>
      have hcons : (item :: items).forM f = (do f item; items.forM f) := rfl
      rw [hcons, List.forall_mem_cons, ← ih]
      constructor
      · intro h
        obtain ⟨⟨⟩, hitem, h⟩ := bind_eq_ok.1 h
        exact ⟨hitem, h⟩
      · rintro ⟨hitem, h⟩
        exact bind_eq_ok.2 ⟨(), hitem, h⟩

/-- Results that are what a total function gives. -/
theorem mapM_eq_map {f : α → Except ε β} {g : α → β}
    (hf : ∀ item result, f item = .ok result → result = g item) {items : List α} {results : List β}
    (h : items.mapM f = .ok results) : results = items.map g := by
  have hall : List.Forall₂ (· = ·) (items.map g) results := by
    refine List.forall₂_map_left_iff.2 ((mapM_eq_ok h).imp fun item result hitem => ?_)
    exact (hf item result hitem).symm
  rw [List.forall₂_eq_eq_eq] at hall
  exact hall.symm

/-- The result for the item at a place is at that place. -/
theorem getElem?_of_forall₂ {R : α → β → Prop} {items : List α} {results : List β}
    (h : List.Forall₂ R items results) {i : Nat} {item : α} (hitem : items[i]? = some item) :
    ∃ result, results[i]? = some result ∧ R item result := by
  obtain ⟨hi, rfl⟩ := List.getElem?_eq_some_iff.1 hitem
  have hi' : i < results.length := h.length_eq ▸ hi
  exact ⟨results[i], List.getElem?_eq_getElem hi', h.get hi hi'⟩

theorem exists_of_forall₂ {R : α → β → Prop} {items : List α} {results : List β}
    (h : List.Forall₂ R items results) {item : α} (hitem : item ∈ items) :
    ∃ result ∈ results, R item result := by
  obtain ⟨i, hi⟩ := List.mem_iff_getElem?.1 hitem
  obtain ⟨result, hresult, hR⟩ := getElem?_of_forall₂ h hi
  exact ⟨result, List.mem_of_getElem? hresult, hR⟩

/-! ## Options -/

theorem isSome_mapM {f : α → Option β} {items : List α} (h : ∀ item ∈ items, (f item).isSome = true) :
    (items.mapM f).isSome = true := by
  induction items with
  | nil => rfl
  | cons item items ih =>
      obtain ⟨result, hresult⟩ := Option.isSome_iff_exists.1 (h item List.mem_cons_self)
      obtain ⟨results, hresults⟩ := Option.isSome_iff_exists.1
        (ih fun other hother => h other (List.mem_cons_of_mem _ hother))
      rw [List.mapM_cons, hresult, hresults]
      rfl

theorem forall₂_of_mapM {f : α → Option β} {items : List α} {results : List β}
    (h : items.mapM f = some results) :
    List.Forall₂ (fun item result => f item = some result) items results := by
  induction items generalizing results with
  | nil =>
      cases h
      exact .nil
  | cons item items ih =>
      rw [List.mapM_cons] at h
      obtain ⟨first, hfirst, h⟩ := Option.bind_eq_some_iff.1 h
      obtain ⟨rest, hrest, h⟩ := Option.bind_eq_some_iff.1 h
      cases h
      exact .cons hfirst (ih hrest)

/-- Every result is that of an item. -/
theorem exists_of_mem_mapM {f : α → Option β} {items : List α} {results : List β}
    (h : items.mapM f = some results) {result : β} (hmem : result ∈ results) :
    ∃ item ∈ items, f item = some result := by
  obtain ⟨i, hi, rfl⟩ := List.mem_iff_getElem.1 hmem
  have hall := forall₂_of_mapM h
  have hi' : i < items.length := hall.length_eq ▸ hi
  exact ⟨items[i], List.getElem_mem hi', hall.get hi' hi⟩

end Ned.Library
