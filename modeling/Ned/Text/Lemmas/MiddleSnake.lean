import Ned.Text.LineDiff
import Ned.Library.EditScript

/-!
# The middle snake

The two frontiers of the search are waves through the box of the two ranges. No step of it reads
out of bounds, and the point at which they meet is in the box.
-/

namespace Ned.Text.MyersDiff

open Ned.Library

/-! ## Vectors -/

section

variable {α : Type} {xs : List α} {i j : Int} {x : α}

theorem get_of_lt (h : 0 ≤ i) (hlt : i < xs.length) :
    get xs i = some (xs.get ⟨i.toNat, by omega⟩) := by
  rw [get, if_pos h, List.getElem?_eq_getElem, List.get_eq_getElem]

theorem set_of_lt (xs : List α) (x : α) (h : 0 ≤ i) (hlt : i < xs.length) : set xs i x = some (xs.set i.toNat x) := by
  rw [set, if_pos ⟨h, hlt⟩]

theorem get_set_self (h : 0 ≤ i) (hlt : i < xs.length) : get (xs.set i.toNat x) i = some x := by
  rw [get, if_pos h, List.getElem?_set_self (by omega)]

theorem get_set_of_ne (h : 0 ≤ i) (hne : j ≠ i) : get (xs.set i.toNat x) j = get xs j := by
  simp only [get]
  split
  · rw [List.getElem?_set_ne (by omega)]
  · rfl

end

/-! ## Slides -/

/-- Points where the two ranges can be compared can be. -/
def Total (same : Int → Int → Option Bool) (n m : Int) : Prop :=
  ∀ x y, 0 ≤ x → x < n → 0 ≤ y → y < m → ∃ equal, same x y = some equal

theorem slide_spec {same : Int → Int → Option Bool} {n m : Int} (htotal : Total same n m) (fuel : Nat)
    {x y : Int} (hx : 0 ≤ x) (hy : 0 ≤ y) (hfuel : (n - x).toNat < fuel) :
    ∃ t : Int, slide same n m fuel x y = some (x + t, y + t) ∧ 0 ≤ t ∧
      (t = 0 ∨ x + t ≤ n ∧ y + t ≤ m) ∧
      ∀ s, 0 ≤ s → s < t → same (x + s) (y + s) = some true := by
  induction fuel generalizing x y with
  | zero => exact absurd hfuel (Nat.not_lt_zero _)
  | succ fuel ih =>
      have hstay : ∃ t : Int, some (x, y) = some (x + t, y + t) ∧ 0 ≤ t ∧
          (t = 0 ∨ x + t ≤ n ∧ y + t ≤ m) ∧
          ∀ s, 0 ≤ s → s < t → same (x + s) (y + s) = some true :=
        ⟨0, by simp, Int.le_refl 0, .inl rfl, fun s hge hlt => absurd hlt (Int.not_lt.2 hge)⟩
      rw [slide]
      split
      · rename_i hin
        obtain ⟨equal, hequal⟩ := htotal x y hx hin.1 hy hin.2
        cases equal with
        | false => simpa [hequal] using hstay
        | true =>
            obtain ⟨t, hslide, ht, hbox, hlines⟩ := ih (x := x + 1) (y := y + 1) (by omega)
              (by omega) (by omega)
            refine ⟨t + 1, ?_, by omega, .inr (by omega), ?_⟩
            · simp only [hequal, Option.bind_eq_bind, Option.bind_some, if_true, hslide]
              congr 2 <;> omega
            · intro s hge hlt
              rcases Int.lt_or_eq_of_le hge with hpos | rfl
              · have hprev := hlines (s - 1) (by omega) (by omega)
                rwa [show x + 1 + (s - 1) = x + s by omega,
                  show y + 1 + (s - 1) = y + s by omega] at hprev
              · simpa using hequal
      · exact hstay

/-! ## Frontiers -/

/-- The frontier is the wave `w` in the round `d`. -/
structure Frontier.Shows (frontier : Frontier) (offset d : Int) (w : Wave) : Prop where
  length : (frontier.furthest.length : Int) = 2 * offset + 1
  at_eq : ∀ k, -offset ≤ k → k ≤ offset → frontier.at offset k = some (w.reach k)
  lo : w.lo = -d + frontier.skippedAtStart
  up : w.up = d - frontier.skippedAtEnd

section

variable {frontier : Frontier} {offset d n m high k x : Int} {seen : Int → Prop} {w w' : Wave}

theorem Frontier.Shows.widen (h : frontier.Shows offset d w) :
    frontier.Shows offset (d + 1) w.widen where
  length := h.length
  at_eq := h.at_eq
  lo := by rw [Wave.widen_lo, h.lo]; omega
  up := by rw [Wave.widen_up, h.up]; omega

/-- What the loop does to its frontier when diagonal `k` is reached as far as `x`. -/
def Frontier.put (frontier : Frontier) (offset n m k x : Int) : Frontier :=
  { furthest := frontier.furthest.set (offset + k).toNat x
    skippedAtStart :=
      if x ≤ n ∧ m < x - k then frontier.skippedAtStart + 2 else frontier.skippedAtStart
    skippedAtEnd := if n < x then frontier.skippedAtEnd + 2 else frontier.skippedAtEnd }

theorem Frontier.Shows.put (h : frontier.Shows offset d w) (hge : -offset ≤ k) (hle : k ≤ offset) :
    (frontier.put offset n m k x).Shows offset d (w.push n m k x) := by
  have hlength := h.length
  have hlo := h.lo
  have hup := h.up
  constructor
  case length => rwa [Frontier.put, List.length_set]
  case at_eq =>
    intro j hge' hle'
    by_cases hj : j = k
    · rw [hj, Frontier.at, Frontier.put, get_set_self (by omega) (by omega), Wave.push_self]
    · rw [Frontier.at, Frontier.put, get_set_of_ne (by omega) (by omega), w.push_of_ne hj]
      exact h.at_eq j hge' hle'
  case lo =>
    simp only [Frontier.put, Wave.push]
    split <;> omega
  case up =>
    simp only [Frontier.put, Wave.push]
    split <;> omega

/-- What the round `d` can rely on when it enters the diagonals of `w`. -/
structure Enterable (n m d : Int) (seen : Int → Prop) (w : Wave) : Prop where
  pos : 0 ≤ d
  lo_even : (w.lo - d) % 2 = 0
  lo_ge : -d ≤ w.lo
  up_le : w.up ≤ d
  column : ∀ k, 0 ≤ w.entry k
  row : ∀ k, k ≤ w.up → k ≤ w.entry k
  lowest : w.lo ≤ -d → w.entry (-d) = w.reach (-d + 1)
  highest : 0 < d → w.entry d = w.reach (d - 1) + 1
  source : ∀ k, w.lo ≤ k → k ≤ w.up → (k - d) % 2 = 0 → n < w.entry k ∨ m < w.entry k - k →
    seen (k - 1) ∧ w.entry k = w.reach (k - 1) + 1 ∨ seen (k + 1) ∧ w.entry k = w.reach (k + 1)

theorem enterable_of_reached {first last : Int} (h : Wave.Reached d first last w) :
    Enterable n m d (fun j => first ≤ j ∧ j ≤ last) w where
  pos := Int.le_trans (by decide) h.pos
  lo_even := h.lo_even
  lo_ge := h.lo_ge
  up_le := h.up_le
  column := h.entry_nonneg
  row := fun _ hk => h.entry_ge hk
  lowest := h.entry_lowest
  highest := fun _ => h.entry_highest
  source := fun _ hlo hup heven _ => h.entry_source hlo hup heven

theorem Frontier.Shows.enter (h : frontier.Shows offset d w') (he : Enterable n m d seen w)
    (hs : Wave.Sweep n m seen w high w') (hoffset : d < offset) (hle : high + 2 ≤ w'.up) :
    frontier.enter offset d (high + 2) = some (w.entry (high + 2)) := by
  have hlo := he.lo_ge
  have hlo' := hs.next_le
  have hup := he.up_le
  have hup' := hs.up_le
  have hpos := he.pos
  have hkept : ∀ j, j = high + 2 - 1 ∨ j = high + 2 + 1 →
      frontier.at offset j = some (w.reach j) := by
    intro j hj
    have hnot : ¬ Wave.Passed w.lo high j := by
      intro hpassed
      have heven := hs.high_even
      have hparity := hpassed.2.2
      have hle := hpassed.2.1
      omega
    rw [h.at_eq j (by omega) (by omega), hs.kept j hnot]
  have hbelow := hkept _ (.inl rfl)
  have habove := hkept _ (.inr rfl)
  rw [Frontier.enter]
  split
  · rename_i hk
    rw [habove, hk, he.lowest (by omega)]
  · split
    · rename_i hne hk
      rw [hbelow, hk, he.highest (by omega)]
      rfl
    · rw [hbelow, habove]
      rfl

/-! ## One sweep -/

/-- A sweep that has passed the diagonals up to `high` and met nothing on them. -/
structure Passing (meets : Int → Int → Option (Option (Int × Int))) (n m : Int)
    (seen : Int → Prop) (w : Wave) (high : Int) (w' : Wave) : Prop where
  sweep : Wave.Sweep n m seen w high w'
  row : ∀ j, Wave.Passed w.lo high j → j ≤ w'.reach j
  apart : ∀ j, Wave.Passed w.lo high j → w'.reach j ≤ n → w'.reach j - j ≤ m →
    meets j (w'.reach j) = some none

/-- How the loop over the diagonals can end. -/
inductive Extended (meets : Int → Int → Option (Option (Int × Int))) (n m offset d : Int)
    (seen : Int → Prop) (w : Wave) : Frontier → Option (Int × Int) → Prop
  | passed {frontier : Frontier} {high : Int} {w' : Wave} (shows : frontier.Shows offset d w')
      (passing : Passing meets n m seen w high w') (ended : w'.up < high + 2) :
      Extended meets n m offset d seen w frontier none
  | met {frontier : Frontier} {k x : Int} {split : Int × Int} (range : -d ≤ k ∧ k ≤ d)
      (even : (k - d) % 2 = 0) (column : 0 ≤ x ∧ x ≤ n) (row : 0 ≤ x - k ∧ x - k ≤ m)
      (meets_eq : meets k x = some (some split)) :
      Extended meets n m offset d seen w frontier (some split)

theorem Passing.push {meets : Int → Int → Option (Option (Int × Int))}
    (h : Passing meets n m seen w high w') (hle : high + 2 ≤ w'.up)
    (hreached : w.entry (high + 2) ≤ x)
    (hentered : n < x ∨ m < x - (high + 2) →
      seen (high + 1) ∧ x = w.reach (high + 1) + 1 ∨ seen (high + 3) ∧ x = w.reach (high + 3))
    (hrow : high + 2 ≤ x)
    (hmeets : x ≤ n → x - (high + 2) ≤ m → meets (high + 2) x = some none) :
    Passing meets n m seen w (high + 2) (w'.push n m (high + 2) x) := by
  have hnext : ∀ {j}, Wave.Passed w.lo (high + 2) j ↔ Wave.Passed w.lo high j ∨ j = high + 2 :=
    Wave.passed_next h.sweep.high_even h.sweep.next_le
  refine ⟨h.sweep.push hle hreached hentered, ?_, ?_⟩
  · intro j hj
    rcases hnext.1 hj with hj | rfl
    · rw [Wave.push_passed hj]
      exact h.row j hj
    · rwa [Wave.push_self]
  · intro j hj
    rcases hnext.1 hj with hj | rfl
    · rw [Wave.push_passed hj]
      exact h.apart j hj
    · rw [Wave.push_self]
      exact hmeets

theorem Search.extend_spec (search : Search) (meets : Int → Int → Option (Option (Int × Int)))
    (he : Enterable search.n search.m d seen w)
    (htotal : Total search.same search.n search.m)
    (hmeets : ∀ k x, -d ≤ k → k ≤ d → ∃ split, meets k x = some split)
    (hoffset : d < search.offset) (fuel : Nat)
    (hfuel : 0 < fuel ∧ w'.up - (high + 2) < 2 * fuel - 2)
    (hshows : frontier.Shows search.offset d w')
    (hp : Passing meets search.n search.m seen w high w') :
    ∃ frontier' split, search.extend meets d fuel (high + 2) frontier = some (frontier', split) ∧
      Extended meets search.n search.m search.offset d seen w frontier' split := by
  induction fuel generalizing high frontier w' with
  | zero => exact absurd hfuel.1 (Nat.not_lt_zero _)
  | succ fuel ih =>
      rw [Search.extend]
      have hup := hshows.up
      split
      · rename_i hin
        have hle : high + 2 ≤ w'.up := by omega
        have hlo := hp.sweep.next_le
        have hup' := hp.sweep.up_le
        have hge := he.lo_ge
        have hle' := he.up_le
        have hcolumn := he.column (high + 2)
        have hrow := he.row (high + 2) (by omega)
        have hlength := hshows.length
        obtain ⟨t, hslide, ht, hbox, _⟩ := slide_spec htotal search.slideFuel hcolumn
          (Int.sub_nonneg.2 hrow) (by rw [Search.slideFuel]; omega)
        have henter := hshows.enter he hp.sweep hoffset hle
        have hsource := he.source (high + 2) hlo (by omega)
          (by have heven := he.lo_even; have heven' := hp.sweep.high_even; omega)
        rw [show high + 2 - 1 = high + 1 by omega, show high + 2 + 1 = high + 3 by omega] at hsource
        generalize hstart : w.entry (high + 2) = start at hslide hbox henter hsource hcolumn hrow
        obtain ⟨x, hx⟩ : ∃ x, start + t = x := ⟨_, rfl⟩
        have hy : start - (high + 2) + t = x - (high + 2) := by omega
        rw [hx, hy] at hslide hbox
        have hentered : search.n < x ∨ search.m < x - (high + 2) →
            seen (high + 1) ∧ x = w.reach (high + 1) + 1 ∨
              seen (high + 3) ∧ x = w.reach (high + 3) := by
          intro hout
          have hzero : start = x := by omega
          rw [← hzero] at hout ⊢
          exact hsource hout
        have hshows' := hshows.put (n := search.n) (m := search.m) (k := high + 2) (x := x)
          (by omega) (by omega)
        have hgo : (x ≤ search.n → x - (high + 2) ≤ search.m →
            meets (high + 2) x = some none) → ∃ frontier' split,
            search.extend meets d fuel (high + 2 + 2)
              (frontier.put search.offset search.n search.m (high + 2) x) = some (frontier', split) ∧
            Extended meets search.n search.m search.offset d seen w frontier' split := by
          intro hmeets'
          have hpush := (hp.push hle (by omega) hentered (by omega) hmeets')
          refine ih ⟨by omega, ?_⟩ hshows' hpush
          have hle := hpush.sweep.up_le
          have hup := hp.sweep.up_even
          simp only [Wave.push]
          split <;> omega
        have hset := set_of_lt frontier.furthest (i := search.offset + (high + 2)) x (by omega) (by omega)
        simp only [henter, hslide, hset, Option.bind_eq_bind, Option.bind_some]
        by_cases hright : search.n < x
        · simp only [Frontier.put, hright, Int.not_le.2 hright, false_and, if_false, if_true] at hgo
          rw [if_pos hright]
          exact hgo False.elim
        · rw [if_neg hright]
          by_cases hbottom : search.m < x - (high + 2)
          · simp only [Frontier.put, hright, Int.not_lt.1 hright, hbottom, true_and, if_false,
              if_true] at hgo
            rw [if_pos hbottom]
            exact hgo fun _ hle => absurd hbottom (Int.not_lt.2 hle)
          · simp only [Frontier.put, hright, hbottom, and_false, if_false] at hgo
            rw [if_neg hbottom]
            obtain ⟨split, hsplit⟩ := hmeets (high + 2) x (by omega) (by omega)
            cases split with
            | none =>
                simp only [hsplit, Option.bind_some]
                exact hgo fun _ _ => hsplit
            | some split =>
                refine ⟨_, some split, by rw [hsplit]; rfl, .met ?_ ?_ ?_ ?_ hsplit⟩
                · omega
                · have heven := he.lo_even
                  have heven' := hp.sweep.high_even
                  omega
                · omega
                · omega
      · exact ⟨frontier, none, rfl, .passed hshows hp (by omega)⟩

end

theorem Search.extend_whole (search : Search) (meets : Int → Int → Option (Option (Int × Int)))
    {frontier : Frontier} {d : Int} {seen : Int → Prop} {w : Wave}
    (he : Enterable search.n search.m d seen w) (htotal : Total search.same search.n search.m)
    (hmeets : ∀ k x, -d ≤ k → k ≤ d → ∃ split, meets k x = some split) (hoffset : d < search.offset)
    (hshows : frontier.Shows search.offset d w) :
    ∃ frontier' split, search.extend meets d (d.toNat + 2) (-d + frontier.skippedAtStart) frontier =
        some (frontier', split) ∧
      Extended meets search.n search.m search.offset d seen w frontier' split := by
  have hlo := he.lo_ge
  have hup := he.up_le
  have hpos := he.pos
  have hnone : ∀ j, ¬ Wave.Passed w.lo (w.lo - 2) j := fun j =>
    Wave.not_passed_empty (by omega)
  have hp : Passing meets search.n search.m seen w (w.lo - 2) w :=
    ⟨.start, fun j hj => absurd hj (hnone j), fun j hj => absurd hj (hnone j)⟩
  have hrun := search.extend_spec meets he htotal hmeets hoffset (d.toNat + 2) (by omega) hshows hp
  rwa [show w.lo - 2 + 2 = -d + frontier.skippedAtStart by rw [← hshows.lo]; omega] at hrun

/-! ## The two tests -/

section

variable {a0 a1 b0 b1 offset d k x : Int} {forward backward : Frontier} {w v : Wave}

theorem opposite_eq (h : backward.Shows offset d v) (delta k : Int) :
    opposite backward offset delta k =
      some (if (-offset ≤ delta - k ∧ delta - k ≤ offset) ∧ v.reach (delta - k) ≠ -1 then
        some (v.reach (delta - k)) else none) := by
  have hlength := h.length
  rw [opposite]
  by_cases hin : -offset ≤ delta - k ∧ delta - k ≤ offset
  · rw [if_pos (by omega), h.at_eq _ hin.1 hin.2]
    simp only [hin, and_self, true_and, Option.bind_eq_bind, Option.bind_some]
  · rw [if_neg (by omega), if_neg fun hboth => hin hboth.1]

theorem meetsBackward_of_even (h : (a1 - a0 - (b1 - b0)) % 2 = 0) :
    meetsBackward a0 a1 b0 b1 backward offset k x = some none := by
  rw [meetsBackward, if_neg (by simpa using h)]

theorem meetsForward_of_odd (h : ¬ (a1 - a0 - (b1 - b0)) % 2 = 0) :
    meetsForward a0 a1 b0 b1 forward offset k x = some none := by
  rw [meetsForward, if_neg h]

theorem meetsBackward_spec (a0 a1 b0 b1 k x : Int) (hshows : backward.Shows offset d v) :
    ∃ split, meetsBackward a0 a1 b0 b1 backward offset k x = some split ∧
      ∀ point, split = some point → point = (a0 + x, b0 + (x - k)) := by
  by_cases heven : (a1 - a0 - (b1 - b0)) % 2 = 0
  · exact ⟨none, meetsBackward_of_even heven, fun _ h => by cases h⟩
  · rw [meetsBackward, if_pos heven, opposite_eq hshows]
    simp only [Option.bind_eq_bind, Option.bind_some]
    split
    · split
      · exact ⟨_, rfl, fun _ h => (Option.some.inj h).symm⟩
      · exact ⟨none, rfl, fun _ h => by cases h⟩
    · exact ⟨none, rfl, fun _ h => by cases h⟩

theorem meetsForward_of_even (h : (a1 - a0 - (b1 - b0)) % 2 = 0) (hshows : forward.Shows offset d w) :
    let q := a1 - a0 - (b1 - b0) - k
    meetsForward a0 a1 b0 b1 forward offset k x =
      some (if ((-offset ≤ q ∧ q ≤ offset) ∧ w.reach q ≠ -1) ∧ a1 - a0 - x ≤ w.reach q then
        some (a0 + w.reach q, b0 + w.reach q - q) else none) := by
  intro q
  rw [meetsForward, if_pos h, opposite_eq hshows]
  simp only [Option.bind_eq_bind, Option.bind_some]
  by_cases hin : (-offset ≤ q ∧ q ≤ offset) ∧ w.reach q ≠ -1
  · rw [if_pos hin]
    by_cases hmeet : a1 - a0 - x ≤ w.reach q
    · rw [if_pos ⟨hin, hmeet⟩]
      exact congrArg some (if_pos hmeet)
    · rw [if_neg fun hboth => hmeet hboth.2]
      exact congrArg some (if_neg hmeet)
  · rw [if_neg hin, if_neg fun hboth => hin hboth.1]

end

theorem meetsForward_total {a0 a1 b0 b1 offset d : Int} {forward : Frontier} {w : Wave}
    (hshows : forward.Shows offset d w) (k x : Int) :
    ∃ split, meetsForward a0 a1 b0 b1 forward offset k x = some split := by
  by_cases heven : (a1 - a0 - (b1 - b0)) % 2 = 0
  · exact ⟨_, meetsForward_of_even heven hshows⟩
  · exact ⟨none, meetsForward_of_odd heven⟩

/-! ## Rounds -/

/-- One frontier before the round `d`. With ranges of the same parity the two have not met yet. -/
structure Side (n m offset d : Int) (frontier : Frontier) (w : Wave) (first last : Int) : Prop where
  shows : frontier.Shows offset d w
  reached : Wave.Reached d first last w
  confined : (n - m) % 2 = 0 →
    ∃ low high, Wave.Confined n m d (fun j => first ≤ j ∧ j ≤ last) low high w

section

variable {n m offset d first last high k x : Int} {frontier frontier' : Frontier} {w w' : Wave}
  {meets : Int → Int → Option (Option (Int × Int))}

theorem Side.swept (h : Side n m offset d frontier w first last)
    (hs : Wave.Sweep n m (fun j => first ≤ j ∧ j ≤ last) w high w') (hover : w'.up < high + 2) :
    Wave.Swept n m (fun j => first ≤ j ∧ j ≤ last) w w.lo high w' := by
  have hlo := h.reached.lo_even
  have hup := h.reached.up_even
  exact hs.swept (by omega) hover

theorem Side.passing_ge (h : Side n m offset d frontier w first last)
    (hp : Passing meets n m (fun j => first ≤ j ∧ j ≤ last) w high w')
    (hk : Wave.Passed w.lo high k) : 0 ≤ w'.reach k ∧ k ≤ w'.reach k :=
  ⟨Int.le_trans (h.reached.entry_nonneg k) (hp.sweep.reached k hk), hp.row k hk⟩

theorem Side.passing_lens (h : Side n m offset d frontier w first last)
    (hp : Passing meets n m (fun j => first ≤ j ∧ j ≤ last) w high w') (hover : w'.up < high + 2)
    (heven : (n - m) % 2 = 0) (hge : -d ≤ k) (hle : k ≤ d) (hge' : n - m - d ≤ k)
    (hle' : k ≤ n - m + d) (hparity : (k - d) % 2 = 0) :
    Wave.Passed w.lo high k ∧ (0 ≤ w'.reach k ∧ k ≤ w'.reach k) ∧
      w'.reach k ≤ n ∧ w'.reach k - k ≤ m := by
  obtain ⟨low', high', hconfined⟩ := h.confined heven
  have hlens := hconfined.swept_lens (h.swept hp.sweep hover) hge hle hge' hle' hparity
  exact ⟨hlens.1, h.passing_ge hp hlens.1, hlens.2⟩

theorem Side.passing_unseen (h : Side n m offset d frontier w first last)
    (hp : Passing meets n m (fun j => first ≤ j ∧ j ≤ last) w high w') (hover : w'.up < high + 2)
    (hk : k < -d ∨ d < k) : w'.reach k = -1 := by
  have hnot : ¬ Wave.Passed w.lo high k := by
    intro hk'
    have hinside := (h.swept hp.sweep hover).inside k hk'
    have hlo := h.reached.lo_ge
    have hup := h.reached.up_le
    omega
  have hpos := h.reached.pos
  have hfirst := h.reached.first_ge
  have hlast := h.reached.last_le
  rw [hp.sweep.kept k hnot]
  exact (h.reached.unseen k (by omega)).resolve_right (by omega)

theorem Side.next (h : Side n m offset d frontier w first last)
    (hshows : frontier'.Shows offset d w')
    (hp : Passing meets n m (fun j => first ≤ j ∧ j ≤ last) w high w') (hover : w'.up < high + 2)
    (hclear : (n - m) % 2 = 0 → Wave.Clear n m d w') :
    ∃ first' last', Side n m offset (d + 1) frontier' w'.widen first' last' := by
  obtain ⟨first', last', hreached, hseen⟩ := h.reached.sweep hp.sweep hover hp.row
  refine ⟨first', last', hshows.widen, hreached, fun heven => ?_⟩
  obtain ⟨low', high', hconfined⟩ := h.confined heven
  have hswept := h.swept hp.sweep hover
  have hwithin : ∀ j, Wave.Passed w.lo high j → -d ≤ j ∧ j ≤ d := by
    intro j hj
    have hinside := hswept.inside j hj
    have hlo := h.reached.lo_ge
    have hup := h.reached.up_le
    omega
  refine ⟨w.lo, high, ?_⟩
  rw [funext fun j => propext (hseen j)]
  exact hconfined.sweep hswept hwithin (hclear heven)

end

def InBox (a0 a1 b0 b1 : Int) (point : Int × Int) : Prop :=
  (a0 ≤ point.1 ∧ point.1 ≤ a1) ∧ b0 ≤ point.2 ∧ point.2 ≤ b1

section

variable {a b : List Line} {a0 a1 b0 b1 offset d first last first' last' high high' : Int}
  {forward backward forward' backward' : Frontier} {w v w' v' : Wave} {point : Int × Int}

theorem inBox_of_meetsBackward {k x : Int} (hshows : backward.Shows offset d v)
    (hcolumn : 0 ≤ x ∧ x ≤ a1 - a0) (hrow : 0 ≤ x - k ∧ x - k ≤ b1 - b0)
    (hmeets : meetsBackward a0 a1 b0 b1 backward offset k x = some (some point)) :
    InBox a0 a1 b0 b1 point := by
  obtain ⟨split, hsplit, hpoint⟩ := meetsBackward_spec a0 a1 b0 b1 k x hshows
  rw [hsplit] at hmeets
  rw [hpoint point (Option.some.inj hmeets)]
  simp only [InBox]
  omega

theorem inBox_of_meetsForward {k x : Int}
    (hF : Side (a1 - a0) (b1 - b0) offset d forward w first last)
    (hshows : forward'.Shows offset d w')
    (hp : Passing (meetsBackward a0 a1 b0 b1 backward offset) (a1 - a0) (b1 - b0)
      (fun j => first ≤ j ∧ j ≤ last) w high w') (hover : w'.up < high + 2)
    (hk : -d ≤ k ∧ k ≤ d) (hparity : (k - d) % 2 = 0)
    (hmeets : meetsForward a0 a1 b0 b1 forward' offset k x = some (some point)) :
    InBox a0 a1 b0 b1 point := by
  by_cases heven : (a1 - a0 - (b1 - b0)) % 2 = 0
  · rw [meetsForward_of_even heven hshows] at hmeets
    obtain ⟨q, hq⟩ : ∃ q, a1 - a0 - (b1 - b0) - k = q := ⟨_, rfl⟩
    simp only [hq] at hmeets
    split at hmeets
    · rename_i hmet
      have hrange : -d ≤ q ∧ q ≤ d := by
        by_contra hout
        exact hmet.1.2 (hF.passing_unseen hp hover (by omega))
      obtain ⟨_, hge, hle⟩ := hF.passing_lens hp hover heven hrange.1 hrange.2 (by omega) (by omega)
        (by omega)
      cases hmeets
      simp only [InBox]
      omega
    · cases hmeets
  · rw [meetsForward_of_odd heven] at hmeets
    cases hmeets

theorem apart_of_passing (hF : Side (a1 - a0) (b1 - b0) offset d forward w first last)
    (hB : Side (a1 - a0) (b1 - b0) offset d backward v first' last')
    (hshows : forward'.Shows offset d w')
    (hp : Passing (meetsBackward a0 a1 b0 b1 backward offset) (a1 - a0) (b1 - b0)
      (fun j => first ≤ j ∧ j ≤ last) w high w') (hover : w'.up < high + 2)
    (hq : Passing (meetsForward a0 a1 b0 b1 forward' offset) (a1 - a0) (b1 - b0)
      (fun j => first' ≤ j ∧ j ≤ last') v high' v') (hover' : v'.up < high' + 2)
    (hoffset : d < offset) (heven : (a1 - a0 - (b1 - b0)) % 2 = 0) :
    Wave.Clear (a1 - a0) (b1 - b0) d w' ∧ Wave.Clear (a1 - a0) (b1 - b0) d v' := by
  have happart : ∀ j, -d ≤ j → j ≤ d → a1 - a0 - (b1 - b0) - d ≤ j → j ≤ a1 - a0 - (b1 - b0) + d →
      (j - d) % 2 = 0 → ∀ q, a1 - a0 - (b1 - b0) - q = j →
      (0 ≤ w'.reach j ∧ j ≤ w'.reach j) ∧ (0 ≤ v'.reach q ∧ q ≤ v'.reach q) ∧
        w'.reach j + v'.reach q < a1 - a0 := by
    intro j hge hle hge' hle' hparity q hj
    obtain ⟨_, hpoint, _⟩ := hF.passing_lens hp hover heven hge hle hge' hle' hparity
    obtain ⟨hpassed, hpoint', hcolumn, hrow⟩ := hB.passing_lens (k := q) hq hover' heven (by omega)
      (by omega) (by omega) (by omega) (by omega)
    have hnot := hq.apart q hpassed hcolumn hrow
    rw [meetsForward_of_even heven hshows] at hnot
    simp only [hj] at hnot
    split at hnot
    · cases hnot
    · exact ⟨hpoint, hpoint', by omega⟩
  constructor
  · apply Wave.Clear.of_apart (v := v')
    intro j hge hle hge' hle' hparity
    have hj := happart j hge hle hge' hle' hparity (a1 - a0 - (b1 - b0) - j) (by omega)
    exact hj.2
  · apply Wave.Clear.of_apart (v := w')
    intro q hge hle hge' hle' hparity
    have hq := happart (a1 - a0 - (b1 - b0) - q) (by omega) (by omega) (by omega) (by omega)
      (by omega) q rfl
    exact ⟨hq.1, by omega⟩

theorem searchFrom_spec (htotal : Total (fun x y => same a b (a0 + x) (b0 + y)) (a1 - a0) (b1 - b0))
    (htotal' : Total (fun x y => same a b (a1 - x - 1) (b1 - y - 1)) (a1 - a0) (b1 - b0))
    {rounds : Nat} (hrounds : d + rounds ≤ offset)
    (hF : Side (a1 - a0) (b1 - b0) offset d forward w first last)
    (hB : Side (a1 - a0) (b1 - b0) offset d backward v first' last') :
    ∃ split, searchFrom a b a0 a1 b0 b1 offset rounds d forward backward = some split ∧
      ∀ point, split = some point → InBox a0 a1 b0 b1 point := by
  induction rounds generalizing d forward backward w v first last first' last' with
  | zero => exact ⟨none, rfl, fun _ h => by cases h⟩
  | succ rounds ih =>
      have hoffset : d < offset := by omega
      obtain ⟨forward', split, hextend, hend⟩ :=
        (forwardSearch a b a0 a1 b0 b1 offset).extend_whole
          (meetsBackward a0 a1 b0 b1 backward offset) (enterable_of_reached hF.reached)
          htotal (fun k x _ _ => (meetsBackward_spec a0 a1 b0 b1 k x hB.shows).imp fun _ h => h.1) hoffset hF.shows
      rw [searchFrom, hextend]
      cases hend with
      | met hk hparity hcolumn hrow hmeets =>
          refine ⟨_, rfl, fun point hpoint => ?_⟩
          cases hpoint
          exact inBox_of_meetsBackward hB.shows hcolumn hrow hmeets
      | passed hshows hp hover =>
          obtain ⟨backward', split, hextend', hend'⟩ :=
            (backwardSearch a b a0 a1 b0 b1 offset).extend_whole
              (meetsForward a0 a1 b0 b1 forward' offset) (enterable_of_reached hB.reached)
              htotal' (fun k x _ _ => meetsForward_total hshows k x) hoffset hB.shows
          simp only [Option.bind_eq_bind, Option.bind_some, hextend']
          cases hend' with
          | met hk hparity hcolumn hrow hmeets =>
              refine ⟨_, rfl, fun point hpoint => ?_⟩
              cases hpoint
              exact inBox_of_meetsForward hF hshows hp hover hk hparity hmeets
          | passed hshows' hq hover' =>
              have hclear := apart_of_passing hF hB hshows hp hover hq hover' hoffset
              obtain ⟨_, _, hF'⟩ := hF.next hshows hp hover fun heven => (hclear heven).1
              obtain ⟨_, _, hB'⟩ := hB.next hshows' hq hover' fun heven => (hclear heven).2
              exact ih (by omega) hF' hB'

end

/-! ## The first round -/

/-- The wave of a frontier before the first round. -/
def firstWave : Wave := { reach := fun j => if j = 1 then 0 else -1, lo := 0, up := 0 }

theorem initial_shows {offset : Int} (h : 0 < offset) :
    (Frontier.initial offset).Shows offset 0 firstWave := by
  constructor
  case length =>
    rw [Frontier.initial, List.length_set, List.length_replicate]
    omega
  case at_eq =>
    intro k hge hle
    by_cases hk : k = 1
    · rw [hk, Frontier.at, Frontier.initial,
        get_set_self (by omega) (by rw [List.length_replicate]; omega)]
      rfl
    · rw [Frontier.at, Frontier.initial, get_set_of_ne (by omega) (by omega),
        get_of_lt (by omega) (by rw [List.length_replicate]; omega), List.get_eq_getElem,
        List.getElem_replicate]
      exact congrArg some (if_neg hk).symm
  case lo => rfl
  case up => rfl

theorem enterable_firstWave {n m : Int} (hn : 0 ≤ n) (hm : 0 ≤ m) :
    Enterable n m 0 (fun _ => False) firstWave := by
  have hzero : firstWave.entry 0 = 0 := by decide
  constructor
  case column =>
    intro k
    simp only [Wave.entry, firstWave]
    split <;> split <;> omega
  case row =>
    intro k hk
    have hle : k ≤ 0 := hk
    simp only [Wave.entry, firstWave]
    split <;> split <;> omega
  case source =>
    intro k hlo hup _ hout
    rw [Int.le_antisymm hup hlo] at hout
    simp only [firstWave] at hout
    change n < firstWave.entry 0 ∨ m < firstWave.entry 0 - 0 at hout
    omega
  all_goals decide

section

variable {n m offset high : Int} {frontier : Frontier} {w : Wave}
  {meets : Int → Int → Option (Option (Int × Int))}

/-- The first sweep reaches the diagonal of the corner only, and stays in the box. -/
structure First (n m : Int) (w : Wave) : Prop where
  lo : w.lo = 0
  up : w.up = 0
  column : 0 ≤ w.reach 0 ∧ w.reach 0 ≤ n
  row : w.reach 0 ≤ m
  one : w.reach 1 = 0
  unseen : ∀ j, j ≠ 0 → j ≠ 1 → w.reach j = -1

theorem Passing.first (h : Passing meets n m (fun _ => False) firstWave high w)
    (hover : w.up < high + 2) : Wave.Passed firstWave.lo high 0 ∧ First n m w := by
  have hinside : ∀ j, Wave.Passed firstWave.lo high j → ¬ (n < w.reach j ∨ m < w.reach j - j) := by
    intro j hj hout
    rcases h.sweep.entered j hj hout with hsource | hsource <;> exact hsource.1
  have hlo : w.lo = 0 := by
    apply h.sweep.lowered.resolve_right
    rintro ⟨j, hj, hout, _⟩
    exact hinside j hj (.inr hout)
  have hup : w.up = 0 := by
    apply h.sweep.raised.resolve_right
    rintro ⟨j, hj, hout, _⟩
    exact hinside j hj (.inl hout)
  have heven : (high - 0) % 2 = 0 := h.sweep.high_even
  have hhigh : high ≤ 0 := (h.sweep.high_le (by change 0 ≤ high; omega)).1
  have hpassed : Wave.Passed firstWave.lo high 0 := ⟨Int.le_refl 0, by omega, rfl⟩
  have hzero := hinside 0 hpassed
  have hrow : 0 ≤ w.reach 0 := h.row 0 hpassed
  have hkept : ∀ j, j ≠ 0 → w.reach j = firstWave.reach j := by
    intro j hj
    apply h.sweep.kept
    intro hj'
    have hge : 0 ≤ j := hj'.1
    have hle := hj'.2.1
    omega
  refine ⟨hpassed, hlo, hup, by omega, by omega, hkept 1 (by decide), ?_⟩
  intro j hj hj'
  rw [hkept j hj]
  exact if_neg hj'

theorem First.side (h : First n m w) (hshows : frontier.Shows offset 0 w)
    (hapart : n = m → w.reach 0 < n) : Side n m offset 1 frontier w.widen 0 0 where
  shows := hshows.widen
  reached := .first (by rw [Wave.widen_lo, h.lo]; rfl) (by rw [Wave.widen_up, h.up]; rfl)
    h.column.1 h.one h.unseen
  confined := fun heven => ⟨0, 0, .first heven (by rw [Wave.widen_lo, h.lo]; rfl)
    (by rw [Wave.widen_up, h.up]; rfl) h.column.1 (h.unseen (-1) (by decide) (by decide)) h.one
    h.column.2 h.row hapart⟩

end

section

variable {a b : List Line} {a0 a1 b0 b1 offset halfLimit x : Int} {forward : Frontier} {w : Wave}
  {point : Int × Int}

theorem First.inBox (h : First (a1 - a0) (b1 - b0) w) (hshows : forward.Shows offset 0 w)
    (hmeets : meetsForward a0 a1 b0 b1 forward offset 0 x = some (some point)) :
    InBox a0 a1 b0 b1 point := by
  by_cases heven : (a1 - a0 - (b1 - b0)) % 2 = 0
  · rw [meetsForward_of_even heven hshows] at hmeets
    obtain ⟨q, hq⟩ : ∃ q, a1 - a0 - (b1 - b0) - 0 = q := ⟨_, rfl⟩
    simp only [hq] at hmeets
    split at hmeets
    · rename_i hmet
      have hzero : q = 0 := by
        by_contra hne
        exact hmet.1.2 (h.unseen q hne (by omega))
      have hcolumn := h.column
      have hrow := h.row
      rw [hzero] at hmeets
      cases hmeets
      simp only [InBox]
      omega
    · cases hmeets
  · rw [meetsForward_of_odd heven] at hmeets
    cases hmeets

theorem First.apart {v : Wave} (h : First (a1 - a0) (b1 - b0) w)
    (hv : First (a1 - a0) (b1 - b0) v) (hshows : forward.Shows offset 0 w) (hoffset : 0 < offset)
    (hmeets : meetsForward a0 a1 b0 b1 forward offset 0 (v.reach 0) = some none)
    (heq : a1 - a0 = b1 - b0) : w.reach 0 < a1 - a0 ∧ v.reach 0 < a1 - a0 := by
  have hcolumn := h.column
  have hcolumn' := hv.column
  rw [meetsForward_of_even (by omega) hshows] at hmeets
  simp only [show a1 - a0 - (b1 - b0) - 0 = 0 by omega] at hmeets
  split at hmeets
  · cases hmeets
  · omega

theorem middleSnake_spec
    (htotal : Total (fun x y => same a b (a0 + x) (b0 + y)) (a1 - a0) (b1 - b0))
    (htotal' : Total (fun x y => same a b (a1 - x - 1) (b1 - y - 1)) (a1 - a0) (b1 - b0))
    (ha : a0 < a1) (hb : b0 < b1) (hlimit : 0 < halfLimit) :
    ∃ split, middleSnake a b a0 a1 b0 b1 halfLimit = some split ∧
      ∀ point, split = some point → InBox a0 a1 b0 b1 point := by
  obtain ⟨maxD, hmaxD⟩ : ∃ maxD, min ((a1 - a0 + (b1 - b0) + 1) / 2) halfLimit = maxD := ⟨_, rfl⟩
  have hpos : 0 < maxD := by omega
  have hshows := initial_shows (show 0 < maxD + 1 by omega)
  have hoffset : 0 < maxD + 1 := by omega
  have he := enterable_firstWave (n := a1 - a0) (m := b1 - b0) (by omega) (by omega)
  obtain ⟨rounds, hrounds⟩ : ∃ rounds, maxD.toNat = rounds + 1 := ⟨maxD.toNat - 1, by omega⟩
  obtain ⟨forward, split, hextend, hend⟩ :=
    (forwardSearch a b a0 a1 b0 b1 (maxD + 1)).extend_whole
      (meetsBackward a0 a1 b0 b1 (.initial (maxD + 1)) (maxD + 1)) he htotal
      (fun k x _ _ => (meetsBackward_spec a0 a1 b0 b1 k x hshows).imp fun _ h => h.1) hoffset hshows
  simp only [middleSnake, hmaxD, hrounds, searchFrom, hextend, Option.bind_eq_bind,
    Option.bind_some]
  cases hend with
  | met hk hparity hcolumn hrow hmeets =>
      refine ⟨_, rfl, fun point hpoint => ?_⟩
      cases hpoint
      exact inBox_of_meetsBackward hshows hcolumn hrow hmeets
  | passed hshows' hp hover =>
      obtain ⟨_, hfirst⟩ := hp.first hover
      obtain ⟨backward, split, hextend', hend'⟩ :=
        (backwardSearch a b a0 a1 b0 b1 (maxD + 1)).extend_whole
          (meetsForward a0 a1 b0 b1 forward (maxD + 1)) he htotal'
          (fun k x _ _ => meetsForward_total hshows' k x) hoffset hshows
      simp only [hextend', Option.bind_some]
      cases hend' with
      | @met k x _ hk _ _ _ hmeets =>
          refine ⟨_, rfl, fun point hpoint => ?_⟩
          cases hpoint
          have hzero : k = 0 := by omega
          rw [hzero] at hmeets
          exact hfirst.inBox hshows' hmeets
      | passed hshows'' hq hover' =>
          obtain ⟨hpassed, hfirst'⟩ := hq.first hover'
          have hrow := hfirst'.row
          have hmeets := hq.apart 0 hpassed hfirst'.column.2 (by omega)
          have hapart := hfirst.apart hfirst' hshows' hoffset hmeets
          exact searchFrom_spec htotal htotal' (by omega)
            (hfirst.side hshows' fun heq => (hapart heq).1)
            (hfirst'.side hshows'' fun heq => (hapart heq).2)

end

end Ned.Text.MyersDiff
