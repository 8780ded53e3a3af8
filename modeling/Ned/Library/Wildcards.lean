import Mathlib.Data.List.Basic

/-!
# Wildcards

A pattern with a wildcard for any run, and what the other symbols of it fit one by one.
-/

namespace Ned.Library

variable {α β : Type} {star : α} {fits : α → β → Prop} {pattern rest : List α} {text : List β} {c : α}

/-- The text comes from the pattern, with a run for every star and one fitting symbol for every other. -/
inductive Expands (star : α) (fits : α → β → Prop) : List α → List β → Prop
  | nil : Expands star fits [] []
  | run (run : List β) {pattern : List α} {text : List β} (rest : Expands star fits pattern text) :
      Expands star fits (star :: pattern) (run ++ text)
  | one {c : α} {d : β} {pattern : List α} {text : List β} (ne : c ≠ star) (fit : fits c d)
      (rest : Expands star fits pattern text) : Expands star fits (c :: pattern) (d :: text)

namespace Expands

theorem nil_iff : Expands star fits [] text ↔ text = [] := by
  constructor
  · intro h
    cases h
    rfl
  · rintro rfl
    exact .nil

theorem cons_iff (hne : c ≠ star) {d : β} :
    Expands star fits (c :: pattern) (d :: text) ↔ fits c d ∧ Expands star fits pattern text := by
  constructor
  · intro h
    generalize hp : c :: pattern = p at h
    generalize ht : d :: text = t at h
    cases h with
    | nil => cases hp
    | run run rest =>
        cases hp
        exact absurd rfl hne
    | one _ fit rest =>
        cases hp
        cases ht
        exact ⟨fit, rest⟩
  · rintro ⟨hfit, h⟩
    exact .one hne hfit h

theorem not_cons_nil (hne : c ≠ star) : ¬ Expands star fits (c :: pattern) [] := by
  intro h
  generalize hp : c :: pattern = p at h
  generalize ht : ([] : List β) = t at h
  cases h with
  | nil => cases hp
  | run run rest =>
      cases hp
      exact hne rfl
  | one _ fit rest => cases ht

theorem star_iff :
    Expands star fits (star :: pattern) text ↔ ∃ k, Expands star fits pattern (text.drop k) := by
  constructor
  · intro h
    generalize hp : star :: pattern = p at h
    cases h with
    | nil => cases hp
    | run run rest =>
        cases hp
        exact ⟨run.length, by rwa [List.drop_left]⟩
    | one ne fit rest =>
        cases hp
        exact absurd rfl ne
  · rintro ⟨k, h⟩
    have hrun : Expands star fits (star :: pattern) (text.take k ++ text.drop k) := .run _ h
    rwa [List.take_append_drop] at hrun

/-- A star takes up whatever comes before what it already matches. -/
theorem star_absorb {i j : Nat} (hle : i ≤ j) (h : Expands star fits (star :: pattern) (text.drop j)) :
    Expands star fits (star :: pattern) (text.drop i) := by
  obtain ⟨k, hk⟩ := star_iff.1 h
  rw [List.drop_drop] at hk
  apply star_iff.2
  refine ⟨j + k - i, ?_⟩
  rwa [List.drop_drop, Nat.add_sub_cancel' (Nat.le_trans hle (Nat.le_add_right _ _))]

/-- Behind symbols that are no stars, the rest of the pattern meets the rest of the text. -/
theorem after (h : Expands star fits (pattern ++ rest) text) (hne : ∀ c ∈ pattern, c ≠ star) :
    Expands star fits rest (text.drop pattern.length) := by
  induction pattern generalizing text with
  | nil => exact h
  | cons c pattern ih =>
      cases text with
      | nil => exact absurd h (not_cons_nil (hne c List.mem_cons_self))
      | cons d text =>
          exact ih ((cons_iff (hne c List.mem_cons_self)).1 h).2 fun c hc =>
            hne c (List.mem_cons_of_mem _ hc)

/-- Nothing is left of the text, so only stars can be left of the pattern. -/
theorem nil_right_iff : Expands star fits pattern [] ↔ ∀ c ∈ pattern, c = star := by
  induction pattern with
  | nil => exact iff_of_true .nil fun c hc => absurd hc List.not_mem_nil
  | cons c pattern ih =>
      rw [List.forall_mem_cons, ← ih]
      constructor
      · intro h
        by_cases hc : c = star
        · subst hc
          obtain ⟨k, hk⟩ := star_iff.1 h
          rw [List.drop_nil] at hk
          exact ⟨rfl, hk⟩
        · exact absurd h (not_cons_nil hc)
      · rintro ⟨rfl, h⟩
        exact star_iff.2 ⟨0, h⟩

end Expands

end Ned.Library
