import Ned.Editor.Remote.KnownHosts
import Mathlib.Data.List.TakeWhile

/-!
# The glob matcher

The matcher goes back to the last star only. A star of the pattern that faces a star of the text is taken
for a plain byte, so the matcher is right on a text without one.
-/

namespace Ned.Editor.Remote

open Library Text

variable {pattern text : Bytes} {s : GlobState}

theorem fitsAt_iff {p t : Nat} :
    fitsAt pattern text p t = true ↔
      ∃ c d, pattern[p]? = some c ∧ text[t]? = some d ∧ fitsByte c d = true := by
  unfold fitsAt
  split
  · rename_i c d hc hd
    simp [hc, hd]
  · rename_i hnone
    constructor
    · intro h
      cases h
    · rintro ⟨c, d, hc, hd, -⟩
      exact (hnone c d hc hd).elim

theorem drop_eq_cons {p : Nat} {c : UInt8} (h : pattern[p]? = some c) :
    pattern.drop p = c :: pattern.drop (p + 1) := by
  obtain ⟨hlt, rfl⟩ := List.getElem?_eq_some_iff.1 h
  exact List.drop_eq_getElem_cons hlt

/-- What the matcher has still to decide: the rest of the pattern against the rest of the text, or what
follows the last star against a later part of the text. -/
def GlobState.Open (pattern text : Bytes) (s : GlobState) : Prop :=
  Matches (pattern.drop s.p) (text.drop s.t) ∨
    ∃ star ∈ s.star, ∃ k, s.resume < k ∧ Matches (pattern.drop (star + 1)) (text.drop k)

/-- Since the last star, bytes that are no stars have been matched one by one. -/
def GlobState.Sound (pattern : Bytes) (s : GlobState) : Prop :=
  ∀ star ∈ s.star, ∃ passed, pattern.drop (star + 1) = passed ++ pattern.drop s.p ∧
    (∀ c ∈ passed, c ≠ 42) ∧ passed.length = s.t - s.resume

theorem ne_star_of_fitsByte {c d : UInt8} (hd : d ≠ 42) (h : fitsByte c d = true) : c ≠ 42 := by
  rintro rfl
  apply hd
  have hlower : toLower d = 42 := by
    have hsame : toLower 42 = toLower d := by simpa [fitsByte] using h
    exact hsame.symm
  rw [toLower] at hlower
  split at hlower
  · rename_i hupper
    have hd : d = 10 := by
      have := congrArg (· - 32) hlower
      simpa using this
    subst hd
    cases hupper
  · exact hlower

theorem ne_star_of_mem {t : Nat} {d : UInt8} (hstar : 42 ∉ text) (hd : text[t]? = some d) : d ≠ 42 := by
  rintro rfl
  exact hstar (List.mem_of_getElem? hd)

namespace GlobState

variable {c d : UInt8} {star : Nat}

theorem open_literal (hc : pattern[s.p]? = some c) (hd : text[s.t]? = some d) (hne : c ≠ 42)
    (hfits : fitsByte c d = true) (hle : s.resume ≤ s.t + 1) :
    s.Open pattern text ↔ Open pattern text { s with p := s.p + 1, t := s.t + 1, resume_le := hle } := by
  rw [Open, Open, drop_eq_cons hc, drop_eq_cons hd, Matches, Expands.cons_iff hne]
  simp only [hfits, true_and]
  rfl

theorem Sound.literal_next (h : s.Sound pattern) (hc : pattern[s.p]? = some c) (hne : c ≠ 42)
    (hle : s.resume ≤ s.t + 1) :
    Sound pattern { s with p := s.p + 1, t := s.t + 1, resume_le := hle } := by
  intro star hstar
  obtain ⟨passed, hpassed, hliteral, hlength⟩ := h star hstar
  refine ⟨passed ++ [c], ?_, ?_, ?_⟩
  · rw [hpassed, drop_eq_cons hc, List.append_assoc]
    rfl
  · intro b hb
    rcases List.mem_append.1 hb with hb | hb
    · exact hliteral b hb
    · rwa [List.mem_singleton.1 hb]
  · rw [List.length_append, List.length_singleton, hlength]
    exact (Nat.sub_add_comm s.resume_le).symm

theorem Sound.matches_later (h : s.Sound pattern) (hstar : star ∈ s.star) {k : Nat} (hk : s.resume < k)
    (hmatch : Matches (pattern.drop (star + 1)) (text.drop k)) :
    ∃ j, s.t < j ∧ Matches (pattern.drop s.p) (text.drop j) := by
  obtain ⟨passed, hpassed, hliteral, hlength⟩ := h star hstar
  rw [hpassed] at hmatch
  have hafter := Expands.after hmatch hliteral
  rw [List.drop_drop, hlength] at hafter
  have hresume := s.resume_le
  exact ⟨k + (s.t - s.resume), by omega, hafter⟩

theorem open_star (h : s.Sound pattern) (hc : pattern[s.p]? = some 42) :
    s.Open pattern text ↔
      Open pattern text { s with p := s.p + 1, star := some s.p, resume := s.t, resume_le := Nat.le_refl _ } := by
  have hstar : Matches (pattern.drop s.p) (text.drop s.t) ↔
      ∃ k, Matches (pattern.drop (s.p + 1)) (text.drop (s.t + k)) := by
    rw [drop_eq_cons hc, Matches, Expands.star_iff]
    simp only [List.drop_drop]
    rfl
  constructor
  · intro hopen
    have hfirst : Matches (pattern.drop s.p) (text.drop s.t) := by
      rcases hopen with hfirst | ⟨star, hmem, k, hk, hmatch⟩
      · exact hfirst
      · obtain ⟨j, hj, hlater⟩ := h.matches_later hmem hk hmatch
        rw [drop_eq_cons hc] at hlater ⊢
        exact Expands.star_absorb (Nat.le_of_lt hj) hlater
    obtain ⟨k, hk⟩ := hstar.1 hfirst
    cases k with
    | zero => exact .inl hk
    | succ k => exact .inr ⟨s.p, rfl, s.t + (k + 1), Nat.lt_add_of_pos_right (Nat.succ_pos k), hk⟩
  · rintro (hfirst | ⟨star, hmem, k, hk, hmatch⟩)
    · exact .inl (hstar.2 ⟨0, hfirst⟩)
    · cases hmem
      refine .inl (hstar.2 ⟨k - s.t, ?_⟩)
      rwa [Nat.add_sub_cancel' (Nat.le_of_lt hk)]

theorem Sound.star_next : Sound pattern
    { s with p := s.p + 1, star := some s.p, resume := s.t, resume_le := Nat.le_refl _ } := by
  intro star hstar
  cases hstar
  exact ⟨[], rfl, fun c hc => absurd hc List.not_mem_nil, (Nat.sub_self _).symm⟩

theorem not_matches_here (hlt : s.t < text.length) (hfits : ¬ fitsAt pattern text s.p s.t = true)
    (hstar : ¬ (s.p < pattern.length ∧ pattern[s.p]? = some 42)) :
    ¬ Matches (pattern.drop s.p) (text.drop s.t) := by
  intro hmatch
  have hd := List.getElem?_eq_getElem hlt
  rw [drop_eq_cons hd] at hmatch
  cases hc : pattern[s.p]? with
  | none =>
      rw [List.drop_eq_nil_of_le (List.getElem?_eq_none_iff.1 hc)] at hmatch
      cases Expands.nil_iff.1 hmatch
  | some c =>
      rw [drop_eq_cons hc] at hmatch
      have hne : c ≠ 42 := by
        rintro rfl
        exact hstar ⟨(List.getElem?_eq_some_iff.1 hc).1, hc⟩
      exact hfits (fitsAt_iff.2 ⟨c, _, hc, hd, ((Expands.cons_iff hne).1 hmatch).1⟩)

theorem open_back (hhere : ¬ Matches (pattern.drop s.p) (text.drop s.t)) (hstar : s.star = some star) :
    s.Open pattern text ↔ Open pattern text
      { s with p := star + 1, t := s.resume + 1, resume := s.resume + 1, resume_le := Nat.le_refl _ } := by
  constructor
  · rintro (hfirst | ⟨star', hmem, k, hk, hmatch⟩)
    · exact absurd hfirst hhere
    · rw [hstar] at hmem
      cases hmem
      rcases Nat.lt_or_eq_of_le (Nat.succ_le_of_lt hk) with hlt | rfl
      · exact .inr ⟨star, hstar, k, hlt, hmatch⟩
      · exact .inl hmatch
  · rintro (hfirst | ⟨star', hmem, k, hk, hmatch⟩)
    · exact .inr ⟨star, hstar, s.resume + 1, Nat.lt_succ_self _, hfirst⟩
    · exact .inr ⟨star', hmem, k, Nat.lt_of_succ_lt hk, hmatch⟩

theorem Sound.back_next (hstar : s.star = some star) : Sound pattern
    { s with p := star + 1, t := s.resume + 1, resume := s.resume + 1, resume_le := Nat.le_refl _ } := by
  intro star' hmem
  have hsome : s.star = some star' := hmem
  rw [hstar] at hsome
  cases hsome
  exact ⟨[], rfl, fun c hc => absurd hc List.not_mem_nil, (Nat.sub_self _).symm⟩

theorem open_end (h : s.Sound pattern) (hge : ¬ s.t < text.length) :
    s.Open pattern text ↔ Matches (pattern.drop s.p) [] := by
  have hnil : ∀ j, s.t ≤ j → text.drop j = [] := fun j hj =>
    List.drop_eq_nil_of_le (Nat.le_trans (Nat.le_of_not_lt hge) hj)
  constructor
  · rintro (hfirst | ⟨star, hmem, k, hk, hmatch⟩)
    · rwa [hnil s.t (Nat.le_refl _)] at hfirst
    · obtain ⟨j, hj, hlater⟩ := h.matches_later hmem hk hmatch
      rwa [hnil j (Nat.le_of_lt hj)] at hlater
  · intro hfirst
    apply Or.inl
    rwa [hnil s.t (Nat.le_refl _)]

end GlobState

theorem dropWhile_isEmpty_iff : (pattern.dropWhile (· == 42)).isEmpty = true ↔ Matches pattern [] := by
  rw [Matches, Expands.nil_right_iff, List.isEmpty_iff, List.dropWhile_eq_nil_iff]
  simp

theorem globLoop_iff (hstar : 42 ∉ text) (h : s.Sound pattern) :
    globLoop pattern text s = true ↔ s.Open pattern text := by
  induction s using globLoop.induct pattern text with
  | case1 s hlt hfits ih =>
      obtain ⟨c, d, hc, hd, hfit⟩ := fitsAt_iff.1 hfits
      have hne := ne_star_of_fitsByte (ne_star_of_mem hstar hd) hfit
      rw [globLoop, if_pos hlt, if_pos hfits, ih (h.literal_next hc hne _)]
      exact (GlobState.open_literal hc hd hne hfit _).symm
  | case2 s hlt hfits hc ih =>
      rw [globLoop, if_pos hlt, if_neg hfits, if_pos hc, ih .star_next]
      exact (GlobState.open_star h hc.2).symm
  | case3 s hlt hfits hc star hsome ih =>
      rw [globLoop, if_pos hlt, if_neg hfits, if_neg hc]
      split
      · rename_i star' hstar'
        rw [hsome] at hstar'
        cases hstar'
        rw [ih (.back_next hsome)]
        exact (GlobState.open_back (GlobState.not_matches_here hlt hfits hc) hsome).symm
      · rename_i hnone
        rw [hsome] at hnone
        cases hnone
  | case4 s hlt hfits hc hnone =>
      rw [globLoop, if_pos hlt, if_neg hfits, if_neg hc]
      split
      · rename_i star' hstar'
        rw [hnone] at hstar'
        cases hstar'
      · apply iff_of_false Bool.false_ne_true
        rintro (hfirst | ⟨star, hmem, -⟩)
        · exact GlobState.not_matches_here hlt hfits hc hfirst
        · rw [hnone] at hmem
          cases hmem
  | case5 s hge =>
      rw [globLoop, if_neg hge, dropWhile_isEmpty_iff]
      exact (GlobState.open_end h hge).symm

theorem globMatches_iff (hstar : 42 ∉ text) : globMatches pattern text = true ↔ Matches pattern text := by
  have hnone : ∀ star, ¬ star ∈ (none : Option Nat) := fun star h => by cases h
  rw [globMatches, globLoop_iff hstar fun star h => absurd h (hnone star)]
  constructor
  · rintro (hfirst | ⟨star, hmem, -⟩)
    · exact hfirst
    · exact absurd hmem (hnone star)
  · exact .inl

/-! ## A star in the text -/

theorem globLoop_passed (n : Nat)
    (hfits : ∀ i < n, fitsAt pattern text (s.p + i) (s.t + i) = true) :
    ∃ hle, globLoop pattern text s =
      globLoop pattern text { s with p := s.p + n, t := s.t + n, resume_le := hle } := by
  induction n generalizing s with
  | zero => exact ⟨s.resume_le, rfl⟩
  | succ n ih =>
      have hhere : fitsAt pattern text s.p s.t = true := hfits 0 (Nat.succ_pos n)
      obtain ⟨c, d, hc, hd, -⟩ := fitsAt_iff.1 hhere
      have hlt : s.t < text.length := (List.getElem?_eq_some_iff.1 hd).1
      have hnext := Nat.le_succ_of_le s.resume_le
      obtain ⟨hle, hrest⟩ := ih (s := { s with p := s.p + 1, t := s.t + 1, resume_le := hnext })
        fun i hi => by
          have hfit := hfits (i + 1) (Nat.succ_lt_succ hi)
          rwa [← Nat.add_assoc, ← Nat.add_assoc, Nat.add_right_comm, Nat.add_right_comm s.t] at hfit
      simp only [Nat.add_assoc, Nat.add_comm 1] at hle hrest
      refine ⟨hle, ?_⟩
      rw [globLoop, if_pos hlt, if_pos hhere]
      exact hrest

/-- A question mark for every byte but the star, one more at the end, and a star that faces the star. -/
def facing (before after : Bytes) : Bytes :=
  List.replicate before.length 63 ++ 42 :: List.replicate (after.length + 1) 63

theorem matches_marks (text : Bytes) : Matches (List.replicate text.length 63) text := by
  induction text with
  | nil => exact .nil
  | cons d text ih => exact .one (by decide) rfl ih

theorem matches_facing (before after : Bytes) : Matches (facing before after) (before ++ 42 :: after) := by
  induction before with
  | nil =>
      have hrest := matches_marks (42 :: after)
      exact Expands.run [] hrest
  | cons d before ih => exact .one (by decide) rfl ih

theorem fitsByte_mark (d : UInt8) : fitsByte 63 d = true := rfl

theorem not_globMatches_facing (before after : Bytes) :
    globMatches (facing before after) (before ++ 42 :: after) = false := by
  have hlength : (before ++ 42 :: after).length = before.length + (after.length + 1) := by simp
  have hfits : ∀ i < before.length + (after.length + 1),
      fitsAt (facing before after) (before ++ 42 :: after) (0 + i) (0 + i) = true := by
    intro i hi
    rw [Nat.zero_add, fitsAt_iff]
    have hin : i < (before ++ 42 :: after).length := by rwa [hlength]
    rcases Nat.lt_trichotomy i before.length with hlt | rfl | hgt
    · refine ⟨63, _, ?_, List.getElem?_eq_getElem hin, fitsByte_mark _⟩
      simp [facing, List.getElem?_append, hlt]
    · refine ⟨42, 42, ?_, ?_, rfl⟩
      · simp [facing]
      · simp
    · refine ⟨63, _, ?_, List.getElem?_eq_getElem hin, fitsByte_mark _⟩
      obtain ⟨k, rfl⟩ := Nat.exists_eq_add_of_lt hgt
      have hk : k < after.length + 1 := by omega
      have hsub : before.length + k + 1 - before.length = k + 1 := by omega
      rw [facing, List.getElem?_append_right (by simp; omega), List.length_replicate, hsub,
        List.getElem?_cons_succ, List.getElem?_replicate, if_pos hk]
  obtain ⟨hle, hpassed⟩ := @globLoop_passed (facing before after) (before ++ 42 :: after)
    { p := 0, t := 0, star := none, resume := 0, resume_le := Nat.le_refl _ } _ hfits
  rw [globMatches, hpassed, globLoop, if_neg (by simp)]
  simp [facing, List.drop_append]

theorem globMatches_right_iff (text : Bytes) :
    (∀ pattern, globMatches pattern text = true ↔ Matches pattern text) ↔ 42 ∉ text := by
  constructor
  · intro h hmem
    obtain ⟨before, after, rfl⟩ := List.append_of_mem hmem
    have htrue := (h (facing before after)).2 (matches_facing before after)
    rw [not_globMatches_facing] at htrue
    cases htrue
  · exact fun hstar pattern => globMatches_iff hstar

end Ned.Editor.Remote
