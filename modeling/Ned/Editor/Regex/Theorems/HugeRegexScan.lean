import Mathlib.Logic.Basic
import Ned.Editor.Regex.RegexPattern

/-!
# What the windows miss

For a matcher that looks no further than the margin, a search through windows finds what a search of the
whole content finds, except for a match that a window's end cuts off so that nothing is left of it. A
scan backwards finds it where the scan of the whole content resumes at the window's start.
-/

namespace Ned.Editor.Regex

open Text RegexPattern

variable {w : Windows} {pattern : RegexPattern} {content : Bytes} {m : RegexMatch}
  {found : HugeRegexMatch} {margin position windowStart windowEnd searchFrom reach bound : Nat}

/-- What matches at a position, and whether anything does, depends only on the text within the margin on
either side. -/
def Local (pattern : RegexPattern) (margin : Nat) : Prop :=
  ∀ before after, pattern.matchAt before after =
    pattern.matchAt (before.drop (before.length - margin)) (after.take margin)

/-! ## Matches in a part of the content -/

theorem drop_take_window (text : Bytes) (hmargin : windowStart = 0 ∨ windowStart + margin ≤ position)
    (hstart : windowStart ≤ position) (hle : position ≤ text.length) :
    ((text.drop windowStart).take (position - windowStart)).drop
        (((text.drop windowStart).take (position - windowStart)).length - margin) =
      (text.take position).drop ((text.take position).length - margin) := by
  rcases hmargin with rfl | hmargin
  · simp
  · have hview : ((text.drop windowStart).take (position - windowStart)).length =
        position - windowStart := by
      rw [List.length_take, List.length_drop]
      omega
    rw [hview, List.length_take_of_le hle, List.drop_take, List.drop_take, List.drop_drop]
    congr 1
    · omega
    · congr 1
      omega

namespace Local

variable (h : Local pattern margin)

include h

theorem matchIn_drop (hmargin : windowStart = 0 ∨ windowStart + margin ≤ position)
    (hstart : windowStart ≤ position) (hle : position ≤ content.length) :
    pattern.matchIn (content.drop windowStart) (position - windowStart) =
      pattern.matchIn content position := by
  rw [matchIn, matchIn, h, h (content.take position), drop_take_window content hmargin hstart hle,
    List.drop_drop, Nat.add_sub_cancel' hstart]

theorem matchIn_take (hend : content.length ≤ windowEnd ∨ position + margin ≤ windowEnd) :
    pattern.matchIn (content.take windowEnd) position = pattern.matchIn content position := by
  rcases hend with hend | hend
  · rw [List.take_of_length_le hend]
  · rw [matchIn, matchIn, h, h (content.take position)]
    congr 1
    · rw [List.take_take, Nat.min_eq_left (by omega)]
    · rw [List.drop_take, List.take_take, Nat.min_eq_left (by omega)]

end Local

theorem window_eq : window content windowStart windowEnd = (content.take windowEnd).drop windowStart := by
  rw [window, substr, List.drop_take]

/-! ## One window, forwards -/

section Forwards

variable (h : Local pattern w.overlapMargin)

include h

/-- A window gives what a search of the content up to its end gives. -/
theorem searchWindow_absolute (hfrom : searchFrom ≤ windowEnd) (hend : windowEnd ≤ content.length) :
    (searchWindow w pattern content searchFrom windowEnd).map HugeRegexMatch.absolute =
      pattern.search (content.take windowEnd) searchFrom := by
  have hlength : (content.take windowEnd).length = windowEnd := List.length_take_of_le hend
  have hmatch : ∀ q, searchFrom - (searchFrom - w.overlapMargin) ≤ q →
      searchFrom - w.overlapMargin + q ≤ windowEnd →
      pattern.matchIn (window content (searchFrom - w.overlapMargin) windowEnd) q =
        pattern.matchIn (content.take windowEnd) (searchFrom - w.overlapMargin + q) := by
    intro q hq hle
    have hdrop : pattern.matchIn ((content.take windowEnd).drop (searchFrom - w.overlapMargin))
        (searchFrom - w.overlapMargin + q - (searchFrom - w.overlapMargin)) =
        pattern.matchIn (content.take windowEnd) (searchFrom - w.overlapMargin + q) :=
      h.matchIn_drop (by omega) (by omega) (by omega)
    rw [window_eq, ← hdrop, Nat.add_sub_cancel_left]
  have hview : (window content (searchFrom - w.overlapMargin) windowEnd).length =
      windowEnd - (searchFrom - w.overlapMargin) := by
    rw [window_eq, List.length_drop, hlength]
  apply Option.ext
  intro m
  simp only [searchWindow, Option.map_map, Option.map_eq_some_iff, search_eq_some_iff]
  constructor
  · rintro ⟨m', ⟨hle, hlt, hhit, hnone⟩, rfl⟩
    rw [hview] at hlt
    simp only [Function.comp_apply, HugeRegexMatch.absolute, hlength]
    refine ⟨by omega, by omega, (hmatch _ hle (by omega)).symm.trans hhit, fun position hp hlt' => ?_⟩
    have hposition := hnone (position - (searchFrom - w.overlapMargin)) (by omega) (by omega)
    rw [hmatch _ (by omega) (by omega), Nat.add_sub_cancel' (by omega)] at hposition
    exact hposition
  · rintro ⟨hle, hlt, hhit, hnone⟩
    rw [hlength] at hlt
    refine ⟨⟨m.start - (searchFrom - w.overlapMargin), m.hit⟩,
      ⟨by show _ ≤ m.start - _; omega, by rw [hview]; show m.start - _ ≤ _; omega, ?_, ?_⟩, ?_⟩
    · show pattern.matchIn _ (m.start - (searchFrom - w.overlapMargin)) = some m.hit
      rw [hmatch _ (by omega) (by omega), Nat.add_sub_cancel' (by omega)]
      exact hhit
    · intro position hp hlt'
      have hlt' : position < m.start - (searchFrom - w.overlapMargin) := hlt'
      rw [hmatch _ hp (by omega)]
      exact hnone _ (by omega) (by omega)
    · simp only [Function.comp_apply, HugeRegexMatch.absolute]
      rw [Nat.add_sub_cancel' (by omega)]

omit h in
/-- A match near the tail ends within the margin before the window's end. -/
theorem nearTail_iff (hfrom : searchFrom ≤ windowEnd) (hend : windowEnd ≤ content.length)
    (hfound : searchWindow w pattern content searchFrom windowEnd = some found) :
    found.nearTail w = true ↔ windowEnd < found.absolute.stop + w.overlapMargin := by
  rw [searchWindow, Option.map_eq_some_iff] at hfound
  obtain ⟨m, hm, rfl⟩ := hfound
  have hstop := stop_le_of_search hm
  have hview : (window content (searchFrom - w.overlapMargin) windowEnd).length =
      windowEnd - (searchFrom - w.overlapMargin) := by
    rw [window_eq, List.length_drop, List.length_take_of_le hend]
  rw [hview] at hstop
  simp only [HugeRegexMatch.nearTail, HugeRegexMatch.absolute, RegexMatch.stop, hview,
    decide_eq_true_eq] at hstop ⊢
  omega

/-! ## The loop, forwards -/

omit h in
theorem exists_searchWindow {searched : Option RegexMatch}
    (habsolute : (searchWindow w pattern content searchFrom windowEnd).map HugeRegexMatch.absolute =
      searched) (hsome : searchWindow w pattern content searchFrom windowEnd = some found) :
    searched = some found.absolute := by
  rw [← habsolute, hsome, Option.map_some]

omit h in
theorem le_start_of_findNextFrom (hfound : findNextFrom w pattern content searchFrom reach = some found) :
    searchFrom ≤ found.absolute.start := by
  have hwindow : ∀ {searchFrom windowEnd}, searchWindow w pattern content searchFrom windowEnd = some found →
      searchFrom ≤ found.absolute.start := by
    intro searchFrom windowEnd hfound
    rw [searchWindow, Option.map_eq_some_iff] at hfound
    obtain ⟨m, hm, rfl⟩ := hfound
    have hstart := start_le_of_search hm
    simp only [HugeRegexMatch.absolute]
    omega
  induction searchFrom, reach using findNextFrom.induct w pattern content with
  | case1 searchFrom reach hlt found' hfound' htail ih =>
      rw [findNextFrom, if_pos hlt, hfound'] at hfound
      simp only [htail, if_true] at hfound
      exact ih hfound
  | case2 searchFrom reach hlt found' hfound' htail =>
      rw [findNextFrom, if_pos hlt, hfound'] at hfound
      simp only [htail, Bool.false_eq_true, if_false, Option.some.injEq] at hfound
      exact hwindow (hfound ▸ hfound')
  | case3 searchFrom reach hlt hnone ih =>
      rw [findNextFrom, if_pos hlt, hnone] at hfound
      exact Nat.le_trans (Nat.le_add_right _ _) (ih hfound)
  | case4 searchFrom reach hlt =>
      rw [findNextFrom, if_neg hlt] at hfound
      exact hwindow hfound

/-- A match that is trusted is one of the whole content. -/
theorem search_of_trusted (hend : windowEnd ≤ content.length)
    (hsearch : pattern.search (content.take windowEnd) searchFrom = some m)
    (htrust : m.stop + w.overlapMargin ≤ windowEnd) : pattern.search content searchFrom = some m := by
  have hstart : m.start ≤ m.stop := Nat.le_add_right _ _
  have hlength : (content.take windowEnd).length = windowEnd := List.length_take_of_le hend
  apply (search_congr m.start (Nat.le_refl _) ⟨by omega, by omega⟩ _).1 hsearch
  intro position _ hle
  exact h.matchIn_take (.inr (by omega))

/-- With a margin behind it in the window, the match of the whole content is the one in the window. -/
theorem search_take_of_search (hend : windowEnd ≤ content.length)
    (hsearch : pattern.search content searchFrom = some m)
    (hmargin : m.start + w.overlapMargin ≤ windowEnd) :
    pattern.search (content.take windowEnd) searchFrom = some m := by
  have hlength : (content.take windowEnd).length = windowEnd := List.length_take_of_le hend
  apply (search_congr m.start (Nat.le_refl _) ⟨by omega, by omega⟩ _).1 hsearch
  intro position _ hle
  exact (h.matchIn_take (.inr (by omega))).symm

theorem findNextFrom_eq_none (hle : searchFrom ≤ content.length)
    (hnone : pattern.search content searchFrom = none) :
    findNextFrom w pattern content searchFrom reach = none := by
  induction searchFrom, reach using findNextFrom.induct w pattern content with
  | case1 searchFrom reach hlt found hfound htail ih =>
      rw [findNextFrom, if_pos hlt, hfound]
      simp only [htail, if_true]
      exact ih hle hnone
  | case2 searchFrom reach hlt found hfound htail =>
      have hsearch := exists_searchWindow
        (searchWindow_absolute h (Nat.le_add_right _ _) (Nat.le_of_lt hlt)) hfound
      rw [nearTail_iff (Nat.le_add_right _ _) (Nat.le_of_lt hlt) hfound, Nat.not_lt] at htail
      rw [search_of_trusted h (Nat.le_of_lt hlt) hsearch htail] at hnone
      cases hnone
  | case3 searchFrom reach hlt hwindow ih =>
      rw [findNextFrom, if_pos hlt, hwindow]
      apply ih (Nat.le_of_lt hlt)
      rw [search_eq_none_iff] at hnone ⊢
      exact fun position hp => hnone position (by omega)
  | case4 searchFrom reach hlt =>
      have hsearch := searchWindow_absolute h hle (Nat.le_refl _)
      rw [List.take_length, hnone, Option.map_eq_none_iff] at hsearch
      rw [findNextFrom, if_neg hlt, hsearch]

/-- A match with a margin behind it in the window, or in a window that reaches the end, is found. -/
theorem findNextFrom_of_margin (hle : searchFrom ≤ content.length)
    (hm : pattern.search content searchFrom = some m)
    (hmargin : content.length ≤ searchFrom + reach ∨ m.start + w.overlapMargin ≤ searchFrom + reach) :
    (findNextFrom w pattern content searchFrom reach).map HugeRegexMatch.absolute = some m := by
  induction searchFrom, reach using findNextFrom.induct w pattern content with
  | case1 searchFrom reach hlt found hfound htail ih =>
      rw [findNextFrom, if_pos hlt, hfound]
      simp only [htail, if_true]
      exact ih hle hm (by omega)
  | case2 searchFrom reach hlt found hfound htail =>
      have hsearch := exists_searchWindow
        (searchWindow_absolute h (Nat.le_add_right _ _) (Nat.le_of_lt hlt)) hfound
      have htake := search_take_of_search h (Nat.le_of_lt hlt) hm (by omega)
      rw [hsearch] at htake
      rw [findNextFrom, if_pos hlt, hfound]
      simp only [htail, Bool.false_eq_true, if_false, Option.map_some]
      exact htake
  | case3 searchFrom reach hlt hwindow ih =>
      have hsearch := searchWindow_absolute h (Nat.le_add_right _ _) (Nat.le_of_lt hlt)
      rw [hwindow, search_take_of_search h (Nat.le_of_lt hlt) hm (by omega)] at hsearch
      cases hsearch
  | case4 searchFrom reach hlt =>
      rw [findNextFrom, if_neg hlt, searchWindow_absolute h hle (Nat.le_refl _), List.take_length, hm]

/-- The match of the whole content is found, unless the first window that goes beyond its start is not
the last one and has nothing left of it. -/
theorem findNextFrom_eq_iff {steps : Nat} (hle : searchFrom ≤ content.length)
    (hm : pattern.search content searchFrom = some m)
    (hbeyond : m.start < searchFrom + reach + steps * w.body)
    (hfirst : ∀ fewer < steps, searchFrom + reach + fewer * w.body ≤ m.start) :
    (findNextFrom w pattern content searchFrom reach).map HugeRegexMatch.absolute = some m ↔
      content.length ≤ searchFrom + reach + steps * w.body ∨
        (pattern.search (content.take (searchFrom + reach + steps * w.body)) searchFrom).isSome := by
  have hmargins := w.margins_le
  have hpos := w.margin_pos
  induction searchFrom, reach using findNextFrom.induct w pattern content generalizing steps with
  | case1 searchFrom reach hlt found hfound htail ih =>
      have hsearch := exists_searchWindow
        (searchWindow_absolute h (Nat.le_add_right _ _) (Nat.le_of_lt hlt)) hfound
      rw [findNextFrom, if_pos hlt, hfound]
      simp only [htail, if_true]
      cases steps with
      | zero =>
          rw [Nat.zero_mul, Nat.add_zero] at hbeyond ⊢
          rw [hsearch]
          exact iff_of_true (findNextFrom_of_margin h hle hm (by omega)) (.inr rfl)
      | succ steps =>
          have hreach : ∀ fewer, searchFrom + (reach + w.body) + fewer * w.body =
              searchFrom + reach + (fewer + 1) * w.body := by
            intro fewer
            rw [Nat.add_mul]
            omega
          have hih := ih hle hm ((hreach steps).symm ▸ hbeyond) fun fewer hlt =>
            (hreach fewer).symm ▸ hfirst (fewer + 1) (Nat.succ_lt_succ hlt)
          rw [hreach] at hih
          exact hih
  | case2 searchFrom reach hlt found hfound htail =>
      have hsearch := exists_searchWindow
        (searchWindow_absolute h (Nat.le_add_right _ _) (Nat.le_of_lt hlt)) hfound
      rw [nearTail_iff (Nat.le_add_right _ _) (Nat.le_of_lt hlt) hfound, Nat.not_lt] at htail
      have hwhole := search_of_trusted h (Nat.le_of_lt hlt) hsearch htail
      obtain rfl : found.absolute = m := Option.some.inj (hwhole.symm.trans hm)
      have hstart : found.absolute.start ≤ found.absolute.stop := Nat.le_add_right _ _
      have hsteps : steps = 0 := by
        rcases Nat.eq_zero_or_pos steps with hzero | hsteps
        · exact hzero
        · have := hfirst 0 hsteps
          omega
      subst hsteps
      rw [findNextFrom, if_pos hlt, hfound]
      simp only [nearTail_iff (Nat.le_add_right _ _) (Nat.le_of_lt hlt) hfound, Nat.not_lt.2 htail,
        if_false, Option.map_some, true_iff]
      rw [Nat.zero_mul, Nat.add_zero, hsearch]
      exact .inr rfl
  | case3 searchFrom reach hlt hwindow ih =>
      have hsearch := searchWindow_absolute h (Nat.le_add_right _ _) (Nat.le_of_lt hlt)
      rw [hwindow, Option.map_none] at hsearch
      rw [findNextFrom, if_pos hlt, hwindow]
      cases steps with
      | zero =>
          rw [Nat.zero_mul, Nat.add_zero] at hbeyond ⊢
          rw [← hsearch]
          refine iff_of_false ?_ (by simp; omega)
          intro hfound
          obtain ⟨found, hnext, rfl⟩ := Option.map_eq_some_iff.1 hfound
          have := le_start_of_findNextFrom hnext
          omega
      | succ steps =>
          have hskip : searchFrom + reach ≤ m.start := by
            have := hfirst 0 (Nat.succ_pos _)
            omega
          have hreach : ∀ fewer, searchFrom + reach + w.body + fewer * w.body =
              searchFrom + reach + (fewer + 1) * w.body := by
            intro fewer
            rw [Nat.add_mul]
            omega
          have hm' : pattern.search content (searchFrom + reach) = some m := by
            rw [search_eq_some_iff] at hm ⊢
            exact ⟨hskip, hm.2.1, hm.2.2.1, fun position hp => hm.2.2.2 position (by omega)⟩
          have hih := ih (Nat.le_of_lt hlt) hm' ((hreach steps).symm ▸ hbeyond) fun fewer hlt =>
            (hreach fewer).symm ▸ hfirst (fewer + 1) (Nat.succ_lt_succ hlt)
          rw [hreach] at hih
          apply hih.trans
          apply or_congr_right
          -- between the two places there is no match, and none when the end is cut off
          rw [← not_iff_not, Option.not_isSome_iff_eq_none, Option.not_isSome_iff_eq_none,
            search_eq_none_iff, search_eq_none_iff]
          constructor
          · intro hnone position hp hposition
            rcases Nat.lt_or_ge position (searchFrom + reach) with hbefore | hafter
            · rw [h.matchIn_take (.inr (by rw [Nat.add_mul]; omega))]
              exact (search_eq_some_iff.1 hm).2.2.2 position hp (by omega)
            · exact hnone position hafter hposition
          · exact fun hnone position hp => hnone position (by omega)
  | case4 searchFrom reach hlt =>
      rw [findNextFrom, if_neg hlt, searchWindow_absolute h hle (Nat.le_refl _), List.take_length, hm]
      exact iff_of_true rfl (.inl (by omega))

end Forwards

/-- The end of the first window that goes beyond a place. -/
def endBeyond (searchFrom place : Nat) : Nat :=
  searchFrom + ((place - searchFrom) / windows.body + 1) * windows.body

/-- A search through windows finds what a search of the whole content finds, exactly when the content cut
off at the first window's end behind the match still has a match. -/
theorem findNextRegexMatchHuge_eq_iff (h : Local pattern windows.overlapMargin) :
    (findNextRegexMatchHuge pattern content searchFrom).map HugeRegexMatch.absolute =
        pattern.search content searchFrom ↔
      ∀ m, pattern.search content searchFrom = some m →
        content.length ≤ endBeyond searchFrom m.start ∨
          (pattern.search (content.take (endBeyond searchFrom m.start)) searchFrom).isSome := by
  rw [findNextRegexMatchHuge]
  cases hm : pattern.search content searchFrom with
  | none =>
      simp only [reduceCtorEq, false_implies, implies_true, iff_true]
      split
      · rfl
      · rename_i hle
        rw [findNextFrom_eq_none h (Nat.not_lt.1 hle) hm, Option.map_none]
  | some m =>
      have hstart := (search_eq_some_iff.1 hm).1
      have hlength := (search_eq_some_iff.1 hm).2.1
      rw [if_neg (Nat.not_lt.2 (Nat.le_trans hstart hlength))]
      have hend : ∀ steps, searchFrom + windows.body + steps * windows.body =
          searchFrom + (steps + 1) * windows.body := by
        intro steps
        rw [Nat.add_mul]
        omega
      have hdiv := Nat.div_add_mod (m.start - searchFrom) windows.body
      have hmod := Nat.mod_lt (m.start - searchFrom) windows.body_pos
      rw [Nat.mul_comm] at hdiv
      have hbeyond : m.start < searchFrom + windows.body +
          (m.start - searchFrom) / windows.body * windows.body := by
        rw [hend, Nat.add_mul]
        omega
      have hfirst : ∀ fewer < (m.start - searchFrom) / windows.body,
          searchFrom + windows.body + fewer * windows.body ≤ m.start := by
        intro fewer hfewer
        have hmul := Nat.mul_le_mul_right windows.body (Nat.succ_le_of_lt hfewer)
        rw [Nat.succ_eq_add_one] at hmul
        rw [hend]
        omega
      have hiff := findNextFrom_eq_iff h (Nat.le_trans hstart hlength) hm hbeyond hfirst
      rw [hend] at hiff
      simpa [endBeyond] using hiff

/-! ## The scan -/

section Scan

variable {subject : Bytes} {best : Option RegexMatch}

/-- Where the scan goes on after a match, unless nothing is left to step over. -/
def resume (subject : Bytes) (m : RegexMatch) : Nat :=
  if m.stop = m.start then nextCodepointBoundaryOf subject m.stop else m.stop

theorem scanBefore_of_none (h : pattern.search subject searchFrom = none) :
    scanBefore pattern subject bound searchFrom best = best := by
  rw [scanBefore]
  split
  · rfl
  · rename_i m hm
    rw [h] at hm
    cases hm

theorem scanBefore_of_ge (h : pattern.search subject searchFrom = some m) (hge : bound ≤ m.start) :
    scanBefore pattern subject bound searchFrom best = best := by
  rw [scanBefore]
  split
  · rfl
  · rename_i m' hm
    rw [h] at hm
    cases hm
    rw [if_pos hge]

theorem scanBefore_of_lt (h : pattern.search subject searchFrom = some m) (hlt : m.start < bound)
    (hlength : m.start < subject.length) : scanBefore pattern subject bound searchFrom best =
      scanBefore pattern subject bound (resume subject m) (some m) := by
  rw [scanBefore]
  split
  · rename_i hnone
    rw [h] at hnone
    cases hnone
  · rename_i m' hm
    rw [h] at hm
    cases hm
    rw [if_neg (Nat.not_le.2 hlt), resume]
    split
    · rename_i hempty
      have hne : nextCodepointBoundaryOf subject m.stop ≠ m.stop := by
        have := @lt_nextCodepointBoundaryOf subject m.stop (by omega)
        omega
      rw [dif_neg hne]
    · rfl

theorem scanBefore_of_le (h : bound ≤ searchFrom) :
    scanBefore pattern subject bound searchFrom best = best := by
  cases hm : pattern.search subject searchFrom with
  | none => exact scanBefore_of_none hm
  | some m => exact scanBefore_of_ge hm (Nat.le_trans h (start_le_of_search hm))

theorem lt_resume (h : pattern.search subject searchFrom = some m) (hlt : m.start < subject.length) :
    searchFrom < resume subject m := by
  have hstart := start_le_of_search h
  have hmatch : m.start ≤ m.stop := Nat.le_add_right _ _
  rw [resume]
  split
  · rename_i hempty
    have := @lt_nextCodepointBoundaryOf subject m.stop (by omega)
    omega
  · omega

/-- The scan takes something exactly when there is a match before the bound. -/
theorem scanBefore_eq_none_iff (hbound : bound ≤ subject.length) :
    scanBefore pattern subject bound searchFrom none = none ↔
      ∀ position, searchFrom ≤ position → position < bound →
        pattern.matchIn subject position = none := by
  have hsome : ∀ (from' : Nat) (m : RegexMatch),
      (scanBefore pattern subject bound from' (some m)).isSome := by
    intro from' m
    induction hleft : subject.length + 1 - from' using Nat.strongRecOn generalizing from' m with
    | ind left ih =>
      cases hm : pattern.search subject from' with
      | none => rw [scanBefore_of_none hm]; rfl
      | some m' =>
          rcases Nat.lt_or_ge m'.start bound with hlt | hge
          · rw [scanBefore_of_lt hm hlt (Nat.lt_of_lt_of_le hlt hbound)]
            have hresume := lt_resume hm (by omega)
            have hstart := start_le_of_search hm
            exact ih (subject.length + 1 - resume subject m') (by omega) _ _ rfl
          · rw [scanBefore_of_ge hm hge]
            rfl
  cases hm : pattern.search subject searchFrom with
  | none =>
      rw [scanBefore_of_none hm]
      exact iff_of_true rfl fun position hp hlt => search_eq_none_iff.1 hm position hp (by omega)
  | some m =>
      obtain ⟨hstart, -, hhit, hnone⟩ := search_eq_some_iff.1 hm
      rcases Nat.lt_or_ge m.start bound with hlt | hge
      · rw [scanBefore_of_lt hm hlt (Nat.lt_of_lt_of_le hlt hbound)]
        refine iff_of_false ?_ fun h => ?_
        · intro hscan
          have := hsome (resume subject m) m
          rw [hscan] at this
          cases this
        · rw [h _ hstart hlt] at hhit
          cases hhit
      · rw [scanBefore_of_ge hm hge]
        exact iff_of_true rfl fun position hp hlt => hnone position hp (by omega)

/-- The scan of the subject comes to a place. -/
inductive Resumes (pattern : RegexPattern) (subject : Bytes) : Nat → Prop where
  | start : Resumes pattern subject 0
  | behind {place : Nat} {m : RegexMatch} (before : Resumes pattern subject place)
      (found : pattern.search subject place = some m) : Resumes pattern subject (resume subject m)

/-- From a place that the scan comes to before the bound, it goes on as from the start. -/
theorem Resumes.scanBefore_eq {place : Nat} (h : Resumes pattern subject place) (hlt : place < bound)
    (hbound : bound ≤ subject.length) : ∃ best,
      scanBefore pattern subject bound 0 none = scanBefore pattern subject bound place best := by
  induction h with
  | start => exact ⟨none, rfl⟩
  | @behind place m before found ih =>
      have hstart := start_le_of_search found
      have hresume : place < resume subject m ∧ m.start < bound := by
        rcases Nat.lt_or_ge m.start subject.length with hm | hm
        · refine ⟨lt_resume found hm, ?_⟩
          have hmatch : m.start ≤ m.stop := Nat.le_add_right _ _
          rw [resume] at hlt
          split at hlt
          · have := @lt_nextCodepointBoundaryOf subject m.stop (by omega)
            omega
          · omega
        · have hstop := stop_le_of_search found
          have hmatch : m.start ≤ m.stop := Nat.le_add_right _ _
          rw [resume, if_pos (by omega), nextCodepointBoundaryOf, if_pos (by omega)] at hlt
          omega
      obtain ⟨best, hbest⟩ := ih (by omega)
      exact ⟨some m, hbest.trans (scanBefore_of_lt found hresume.2 (Nat.lt_of_lt_of_le hresume.2 hbound))⟩

end Scan

/-! ## One window, backwards -/

/-- In the content from a place on, there is a match before the bound. -/
def HasMatch (pattern : RegexPattern) (content : Bytes) (windowStart bound : Nat) : Prop :=
  ∃ position, windowStart ≤ position ∧ position < bound ∧
    (pattern.matchIn (content.drop windowStart) (position - windowStart)).isSome

/-- The scan of the whole content resumes at the window's start, or before it with no match up to there,
and cutting the text before the start away changes no match before the bound. -/
structure Synchronised (pattern : RegexPattern) (content : Bytes) (windowStart bound : Nat) : Prop where
  resumes : ∃ place ≤ windowStart, Resumes pattern content place ∧
    ∀ position, place ≤ position → position < windowStart → pattern.matchIn content position = none
  unaffected : ∀ position, windowStart ≤ position → position < bound →
    pattern.matchIn (content.drop windowStart) (position - windowStart) = pattern.matchIn content position

/-- Moved from a window into the content. -/
def shift (windowStart : Nat) (m : RegexMatch) : RegexMatch := ⟨windowStart + m.start, m.hit⟩

theorem resume_shift (hlt : windowStart + m.start < windowEnd) (hend : windowEnd ≤ content.length) :
    windowStart + resume (window content windowStart windowEnd) m = resume content (shift windowStart m) ∨
      windowEnd ≤ windowStart + resume (window content windowStart windowEnd) m ∧
        windowEnd ≤ resume content (shift windowStart m) := by
  have hstop : (shift windowStart m).stop = windowStart + m.stop := Nat.add_assoc _ _ _
  have hview : (window content windowStart windowEnd).length = windowEnd - windowStart := by
    rw [window_eq, List.length_drop, List.length_take_of_le hend]
  by_cases hempty : m.stop = m.start
  · have hdrop : (window content windowStart windowEnd).drop (m.stop + 1) =
        (content.drop (windowStart + m.stop + 1)).take (windowEnd - (windowStart + m.stop + 1)) := by
      rw [window_eq, List.drop_drop, List.drop_take, Nat.add_assoc]
    have hshift : (shift windowStart m).stop = (shift windowStart m).start := by
      rw [hstop, hempty]
      rfl
    rw [resume, resume, if_pos hempty, if_pos hshift, hstop, nextCodepointBoundaryOf,
      nextCodepointBoundaryOf, if_neg (by omega), if_neg (by omega), hdrop]
    rw [← List.take_takeWhile, List.length_take]
    omega
  · have hshift : (shift windowStart m).stop ≠ (shift windowStart m).start := by
      rw [hstop]
      show windowStart + m.stop ≠ windowStart + m.start
      omega
    rw [resume, resume, if_neg hempty, if_neg hshift, hstop]
    exact .inl rfl

section Backwards

variable {upperBound : Nat} {best : Option RegexMatch} (h : Local pattern w.overlapMargin)

include h

/-- Before the bound, a window that reaches a margin beyond it has the matches of the content. -/
theorem matchIn_window (hle : upperBound ≤ content.length) (hlt : windowStart + position < upperBound) :
    pattern.matchIn (window content windowStart (min content.length (upperBound + w.overlapMargin)))
        position = pattern.matchIn (content.drop windowStart) position := by
  have hview : window content windowStart (min content.length (upperBound + w.overlapMargin)) =
      (content.drop windowStart).take
        (min content.length (upperBound + w.overlapMargin) - windowStart) := by
    rw [window, substr]
  rw [hview]
  apply h.matchIn_take
  rw [List.length_drop]
  omega

/-- A scan of the window and one of the content that are at the same place take the same matches. -/
theorem scanBefore_window (hle : upperBound ≤ content.length) (hfrom : windowStart ≤ searchFrom)
    (hagree : ∀ position, searchFrom ≤ position → position < upperBound →
      pattern.matchIn (content.drop windowStart) (position - windowStart) =
        pattern.matchIn content position) :
    (scanBefore pattern (window content windowStart (min content.length (upperBound + w.overlapMargin)))
        (upperBound - windowStart) (searchFrom - windowStart) best).map (shift windowStart) =
      scanBefore pattern content upperBound searchFrom (best.map (shift windowStart)) := by
  have hpos := w.margin_pos
  have hview : (window content windowStart (min content.length (upperBound + w.overlapMargin))).length =
      min content.length (upperBound + w.overlapMargin) - windowStart := by
    rw [window_eq, List.length_drop, List.length_take_of_le (Nat.min_le_left _ _)]
  induction hleft : content.length + 1 - searchFrom using Nat.strongRecOn
    generalizing searchFrom best with
  | ind left ih =>
    rcases Nat.lt_or_ge searchFrom upperBound with hlt | hge
    · have hmatch : ∀ position, searchFrom - windowStart ≤ position →
          windowStart + position < upperBound →
          pattern.matchIn
            (window content windowStart (min content.length (upperBound + w.overlapMargin))) position =
            pattern.matchIn content (windowStart + position) := by
        intro position hp hposition
        rw [matchIn_window h hle hposition, ← hagree _ (by omega) hposition, Nat.add_sub_cancel_left]
      cases hm : pattern.search content searchFrom with
      | none =>
          rw [scanBefore_of_none hm]
          cases hm' : pattern.search (window content windowStart
              (min content.length (upperBound + w.overlapMargin))) (searchFrom - windowStart) with
          | none => rw [scanBefore_of_none hm']
          | some m' =>
              obtain ⟨hstart, hend, hhit, -⟩ := search_eq_some_iff.1 hm'
              rw [scanBefore_of_ge hm']
              rcases Nat.lt_or_ge (windowStart + m'.start) upperBound with hbefore | hafter
              · rw [hmatch _ hstart hbefore, search_eq_none_iff.1 hm _ (by omega) (by omega)] at hhit
                cases hhit
              · omega
      | some m =>
          obtain ⟨hstart, hend, hhit, hnone⟩ := search_eq_some_iff.1 hm
          rcases Nat.lt_or_ge m.start upperBound with hbefore | hafter
          · have hm' : pattern.search (window content windowStart
                (min content.length (upperBound + w.overlapMargin))) (searchFrom - windowStart) =
                some ⟨m.start - windowStart, m.hit⟩ := by
              apply search_eq_some_iff.2
              refine ⟨by show _ ≤ m.start - windowStart; omega,
                by rw [hview]; show m.start - windowStart ≤ _; omega, ?_, ?_⟩
              · show pattern.matchIn _ (m.start - windowStart) = some m.hit
                rw [hmatch _ (by omega) (by omega), Nat.add_sub_cancel' (by omega)]
                exact hhit
              · intro position hp hposition
                have hposition : position < m.start - windowStart := hposition
                rw [hmatch _ hp (by omega)]
                exact hnone _ (by omega) (by omega)
            have hshift : shift windowStart ⟨m.start - windowStart, m.hit⟩ = m := by
              rw [shift, Nat.add_sub_cancel' (by omega)]
            rw [scanBefore_of_lt hm hbefore (by omega), scanBefore_of_lt hm'
              (by show m.start - windowStart < _; omega)
              (by rw [hview]; show m.start - windowStart < _; omega)]
            have hresume := lt_resume hm (by omega)
            have hboth := @resume_shift content ⟨m.start - windowStart, m.hit⟩ windowStart
              (min content.length (upperBound + w.overlapMargin))
              (by show windowStart + (m.start - windowStart) < _; omega) (Nat.min_le_left _ _)
            rw [hshift] at hboth
            rcases hboth with hsame | ⟨hview', hcontent⟩
            · have hih := @ih (content.length + 1 - resume content m) (by omega) (resume content m)
                (some ⟨m.start - windowStart, m.hit⟩) (by omega)
                (fun position hp => hagree position (by omega)) rfl
              rw [Option.map_some, hshift] at hih
              rw [← hih]
              congr 2
              omega
            · rw [scanBefore_of_le (by omega), scanBefore_of_le (by omega), Option.map_some, hshift]
          · rw [scanBefore_of_ge hm hafter]
            cases hm' : pattern.search (window content windowStart
                (min content.length (upperBound + w.overlapMargin))) (searchFrom - windowStart) with
            | none => rw [scanBefore_of_none hm']
            | some m' =>
                obtain ⟨hstart', hend', hhit', -⟩ := search_eq_some_iff.1 hm'
                rw [scanBefore_of_ge hm']
                rcases Nat.lt_or_ge (windowStart + m'.start) upperBound with hbefore | hafter'
                · rw [hmatch _ hstart' hbefore, hnone _ (by omega) (by omega)] at hhit'
                  cases hhit'
                · omega
    · rw [scanBefore_of_le hge, scanBefore_of_le (by omega)]

/-- Where the window has a match before the bound and the scans are synchronised, the window's last match
is that of the whole content. -/
theorem scanBefore_of_synchronised (hle : upperBound ≤ content.length) (hlt : windowStart < upperBound)
    (hsync : Synchronised pattern content windowStart upperBound)
    (hmatch : HasMatch pattern content windowStart upperBound) :
    (scanBefore pattern (window content windowStart (min content.length (upperBound + w.overlapMargin)))
        (upperBound - windowStart) 0 none).map (shift windowStart) =
      scanBefore pattern content upperBound 0 none := by
  have hscan := @scanBefore_window w pattern content windowStart windowStart upperBound none h hle
    (Nat.le_refl _) hsync.unaffected
  rw [Nat.sub_self, Option.map_none] at hscan
  obtain ⟨place, hplace, hresumes, hnone⟩ := hsync.resumes
  obtain ⟨best, hbest⟩ := hresumes.scanBefore_eq (Nat.lt_of_le_of_lt hplace hlt) hle
  obtain ⟨position, hp, hposition, hsome⟩ := hmatch
  rw [hsync.unaffected position hp hposition] at hsome
  -- the first match from the place on is the first from the window's start on
  cases hm : pattern.search content windowStart with
  | none =>
      rw [search_eq_none_iff.1 hm position hp (by omega)] at hsome
      cases hsome
  | some m =>
      obtain ⟨hstart, hend, hhit, hbefore⟩ := search_eq_some_iff.1 hm
      have hmlt : m.start < upperBound := by
        rcases Nat.lt_or_ge position m.start with hpm | hpm
        · rw [hbefore position hp hpm] at hsome
          cases hsome
        · omega
      have hplaced : pattern.search content place = some m := by
        apply search_eq_some_iff.2 ⟨by omega, hend, hhit, _⟩
        intro q hq hqm
        rcases Nat.lt_or_ge q windowStart with hqw | hqw
        · exact hnone q hq hqw
        · exact hbefore q hqw hqm
      rw [hscan, hbest, scanBefore_of_lt hm hmlt (by omega), scanBefore_of_lt hplaced hmlt (by omega)]

/-- The window gives something exactly when it has a match before the bound. -/
theorem scanBefore_window_eq_none_iff (hle : upperBound ≤ content.length) :
    scanBefore pattern (window content windowStart (min content.length (upperBound + w.overlapMargin)))
        (upperBound - windowStart) 0 none = none ↔
      ¬HasMatch pattern content windowStart upperBound := by
  have hview : (window content windowStart (min content.length (upperBound + w.overlapMargin))).length =
      min content.length (upperBound + w.overlapMargin) - windowStart := by
    rw [window_eq, List.length_drop, List.length_take_of_le (Nat.min_le_left _ _)]
  rw [scanBefore_eq_none_iff (by omega)]
  constructor
  · rintro hnone ⟨position, hp, hlt, hsome⟩
    have hposition := hnone (position - windowStart) (Nat.zero_le _) (by omega)
    rw [matchIn_window h hle (by omega)] at hposition
    rw [hposition] at hsome
    cases hsome
  · intro hno position _ hlt
    rw [matchIn_window h hle (by omega)]
    apply Option.not_isSome_iff_eq_none.1
    intro hsome
    refine hno ⟨windowStart + position, Nat.le_add_right _ _, by omega, ?_⟩
    rw [Nat.add_sub_cancel_left]
    exact hsome

omit h in
theorem findLastBefore_of_some {found : Option RegexMatch}
    (hscan : (scanBefore pattern (window content (upperBound - reach)
      (min content.length (upperBound + w.overlapMargin))) (upperBound - (upperBound - reach)) 0 none).map
        (shift (upperBound - reach)) = found) (hsome : found.isSome) :
    (findLastBefore w pattern content upperBound reach).map HugeRegexMatch.absolute = found := by
  rw [findLastBefore]
  split
  · rename_i m hm
    rw [hm] at hscan
    exact hscan
  · rename_i hnone
    rw [hnone] at hscan
    rw [← hscan] at hsome
    cases hsome

omit h in
theorem findLastBefore_of_none
    (hscan : scanBefore pattern (window content (upperBound - reach)
      (min content.length (upperBound + w.overlapMargin))) (upperBound - (upperBound - reach)) 0 none =
        none) : findLastBefore w pattern content upperBound reach =
      if upperBound - reach = 0 then none
      else findLastBefore w pattern content upperBound (reach + w.body) := by
  rw [findLastBefore]
  simp only [hscan]

/-- The window that decides is the first one with a match. -/
theorem findLastBefore_eq (hle : upperBound ≤ content.length)
    (hsync : ∀ wider, (∀ fewer < wider,
        ¬HasMatch pattern content (upperBound - (reach + fewer * w.body)) upperBound) →
      HasMatch pattern content (upperBound - (reach + wider * w.body)) upperBound →
      Synchronised pattern content (upperBound - (reach + wider * w.body)) upperBound) :
    (findLastBefore w pattern content upperBound reach).map HugeRegexMatch.absolute =
      scanBefore pattern content upperBound 0 none := by
  have hpos := w.body_pos
  induction hleft : upperBound - reach using Nat.strongRecOn generalizing reach with
  | ind left ih =>
    by_cases hmatch : HasMatch pattern content (upperBound - reach) upperBound
    · have hlt : upperBound - reach < upperBound := by
        obtain ⟨position, hp, hlt, -⟩ := hmatch
        omega
      have hzero : upperBound - (reach + 0 * w.body) = upperBound - reach := by rw [Nat.zero_mul]; rfl
      have hfirst := hsync 0 fun fewer hfewer => absurd hfewer (Nat.not_lt_zero _)
      rw [hzero] at hfirst
      have hscan := scanBefore_of_synchronised h hle hlt (hfirst hmatch) hmatch
      apply findLastBefore_of_some hscan
      rw [← hscan, Option.isSome_map]
      apply Option.isSome_iff_ne_none.2
      intro hnone
      exact (scanBefore_window_eq_none_iff h hle).1 hnone hmatch
    · rw [findLastBefore_of_none ((scanBefore_window_eq_none_iff h hle).2 hmatch)]
      split
      · rename_i hzero
        symm
        rw [Option.map_none, scanBefore_eq_none_iff hle]
        intro position _ hlt
        apply Option.not_isSome_iff_eq_none.1
        intro hsome
        rw [hzero] at hmatch
        exact hmatch ⟨position, Nat.zero_le _, hlt, hsome⟩
      · have hreach : ∀ wider, reach + w.body + wider * w.body = reach + (wider + 1) * w.body := by
          intro wider
          rw [Nat.add_mul]
          omega
        apply ih (upperBound - (reach + w.body)) (by omega) _ rfl
        intro wider hfewer hwider
        rw [hreach] at hwider ⊢
        apply hsync _ _ hwider
        intro fewer hlt
        cases fewer with
        | zero =>
            rw [Nat.zero_mul]
            exact hmatch
        | succ fewer =>
            rw [← hreach]
            exact hfewer fewer (Nat.lt_of_succ_lt_succ hlt)

end Backwards

theorem scanBefore_min {best : Option RegexMatch}
    (hend : bound ≤ content.length ∨ pattern.matchIn content content.length = none) :
    scanBefore pattern content (min bound content.length) searchFrom best =
      scanBefore pattern content bound searchFrom best := by
  rcases hend with hend | hend
  · rw [Nat.min_eq_left hend]
  · induction hleft : content.length + 1 - searchFrom using Nat.strongRecOn
      generalizing searchFrom best with
    | ind left ih =>
      cases hm : pattern.search content searchFrom with
      | none => rw [scanBefore_of_none hm, scanBefore_of_none hm]
      | some m =>
          obtain ⟨hstart, hle, hhit, -⟩ := search_eq_some_iff.1 hm
          have hlt : m.start < content.length := by
            rcases Nat.lt_or_eq_of_le hle with hlt | heq
            · exact hlt
            · rw [heq, hend] at hhit
              cases hhit
          rcases Nat.lt_or_ge m.start bound with hbefore | hafter
          · have hresume := lt_resume hm hlt
            rw [scanBefore_of_lt hm (Nat.lt_min.2 ⟨hbefore, hlt⟩) hlt, scanBefore_of_lt hm hbefore hlt]
            exact ih (content.length + 1 - resume content m) (by omega) rfl
          · rw [scanBefore_of_ge hm (Nat.le_trans (Nat.min_le_left _ _) hafter),
              scanBefore_of_ge hm hafter]

/-- Where the first window with a match before the offset starts, the scan of the whole content resumes,
and the matches are those of the whole content. Behind the end there is nothing to be found. -/
structure FoundBackwards (pattern : RegexPattern) (content : Bytes) (beforeOffset : Nat) : Prop where
  inside : beforeOffset ≤ content.length ∨ pattern.matchIn content content.length = none
  synchronised : ∀ wider,
    (∀ fewer < wider, ¬HasMatch pattern content
      (min beforeOffset content.length - (fewer + 1) * windows.body) (min beforeOffset content.length)) →
    HasMatch pattern content
      (min beforeOffset content.length - (wider + 1) * windows.body) (min beforeOffset content.length) →
    Synchronised pattern content
      (min beforeOffset content.length - (wider + 1) * windows.body) (min beforeOffset content.length)

theorem findLastRegexMatchHugeBefore_eq {beforeOffset : Nat} (h : Local pattern windows.overlapMargin)
    (hfound : FoundBackwards pattern content beforeOffset) :
    (findLastRegexMatchHugeBefore pattern content beforeOffset).map HugeRegexMatch.absolute =
      scanBefore pattern content beforeOffset 0 none := by
  rw [findLastRegexMatchHugeBefore, ← scanBefore_min hfound.inside]
  apply findLastBefore_eq h (Nat.min_le_right _ _)
  have hreach : ∀ wider, windows.body + wider * windows.body = (wider + 1) * windows.body := by
    intro wider
    rw [Nat.add_mul]
    omega
  intro wider hfewer hmatch
  rw [hreach] at hmatch ⊢
  apply hfound.synchronised wider _ hmatch
  intro fewer hlt
  rw [← hreach]
  exact hfewer fewer hlt

/-- Forwards the windows find what a search of the whole content finds exactly when the content cut off
at the first window's end behind the match still has a match. Backwards they find the last match of a
scan of the whole content when that scan and the window's are in step. -/
theorem windowed_search (pattern : RegexPattern) (content : Bytes) (searchFrom beforeOffset : Nat)
    (h : Local pattern windows.overlapMargin) :
    ((findNextRegexMatchHuge pattern content searchFrom).map HugeRegexMatch.absolute =
        pattern.search content searchFrom ↔
      ∀ m, pattern.search content searchFrom = some m →
        content.length ≤ endBeyond searchFrom m.start ∨
          (pattern.search (content.take (endBeyond searchFrom m.start)) searchFrom).isSome) ∧
    (FoundBackwards pattern content beforeOffset →
      (findLastRegexMatchHugeBefore pattern content beforeOffset).map HugeRegexMatch.absolute =
        scanBefore pattern content beforeOffset 0 none) :=
  ⟨findNextRegexMatchHuge_eq_iff h, findLastRegexMatchHugeBefore_eq h⟩

/-! ## A match across a window's end -/

/-- The pattern `ab`. -/
def abPattern : RegexPattern where
  matchAt _ after := if after.take 2 = [97, 98] then some ⟨2, [some (0, 2)]⟩ else none
  within before after hit h := by
    split at h
    · rename_i htake
      cases h
      have hlength := congrArg List.length htake
      rw [List.length_take] at hlength
      exact Nat.le_trans (Nat.le_of_eq hlength.symm) (Nat.min_le_right _ _)
    · cases h
  captureCount := 0
  groupNumber _ := none

theorem abPattern_local (hmargin : 2 ≤ margin) : Local abPattern margin := by
  intro before after
  have htake : (after.take margin).take 2 = after.take 2 := by
    rw [List.take_take, Nat.min_eq_left hmargin]
  simp only [abPattern, htake]

theorem abPattern_matchIn {hit : Hit} (h : abPattern.matchIn content position = some hit) :
    content[position]? = some 97 ∧ content[position + 1]? = some 98 := by
  simp only [matchIn, abPattern, Option.ite_none_right_eq_some] at h
  obtain ⟨htake, -⟩ := h
  have hfirst := congrArg (·[0]?) htake
  have hsecond := congrArg (·[1]?) htake
  simp only [List.getElem?_take, List.getElem?_drop] at hfirst hsecond
  exact ⟨by simpa using hfirst, by simpa using hsecond⟩

theorem windowed_search_ab :
    (findNextRegexMatchHuge abPattern [97, 98] 0).map HugeRegexMatch.absolute =
      abPattern.search [97, 98] 0 := by
  apply (windowed_search abPattern [97, 98] 0 2 (abPattern_local (by decide))).1.2
  intro m _
  left
  have hbody : 2 ≤ windows.body := by decide
  have hone : 1 * windows.body ≤ ((m.start - 0) / windows.body + 1) * windows.body :=
    Nat.mul_le_mul_right _ (Nat.le_add_left _ _)
  rw [endBeyond, Nat.zero_add]
  exact Nat.le_trans hbody (Nat.le_trans (Nat.le_of_eq (Nat.one_mul _).symm) hone)

/-- `ab` across the end of the first window is not found. -/
theorem not_windowed_search :
    let content : Bytes := List.replicate (windows.body - 1) 0 ++ [97, 98]
    (findNextRegexMatchHuge abPattern content 0).map HugeRegexMatch.absolute ≠
      abPattern.search content 0 := by
  intro content
  have hpos := windows.body_pos
  have hlength : content.length = windows.body + 1 := by
    rw [List.length_append, List.length_replicate]
    show windows.body - 1 + 2 = _
    omega
  have hzeros : ∀ position < windows.body - 1, content[position]? = some 0 := by
    intro position hlt
    rw [List.getElem?_append_left (by rw [List.length_replicate]; exact hlt),
      List.getElem?_replicate_of_lt hlt]
  have hdrop : content.drop (windows.body - 1) = [97, 98] :=
    List.drop_left' List.length_replicate
  have hnone : ∀ position < windows.body - 1, abPattern.matchIn content position = none := by
    intro position hlt
    apply Option.eq_none_iff_forall_ne_some.2
    intro hit hhit
    have hfirst := (abPattern_matchIn hhit).1
    rw [hzeros position hlt] at hfirst
    cases hfirst
  have hsearch : abPattern.search content 0 = some ⟨windows.body - 1, ⟨2, [some (0, 2)]⟩⟩ := by
    refine search_eq_some_iff.2 ⟨Nat.zero_le _, ?_, ?_, fun position _ hlt => hnone position hlt⟩
    · rw [hlength]
      show windows.body - 1 ≤ _
      omega
    · rw [matchIn, hdrop]
      rfl
  have hend : endBeyond 0 (windows.body - 1) = windows.body := by
    rw [endBeyond, Nat.sub_zero, Nat.div_eq_of_lt (Nat.sub_lt hpos Nat.one_pos), Nat.zero_add,
      Nat.zero_add, Nat.one_mul]
  have hcut : abPattern.search (content.take windows.body) 0 = none := by
    apply search_eq_none_iff.2
    intro position _ hle
    apply Option.eq_none_iff_forall_ne_some.2
    intro hit hhit
    obtain ⟨hfirst, hsecond⟩ := abPattern_matchIn hhit
    rw [List.getElem?_take, Option.ite_none_right_eq_some] at hfirst hsecond
    have hbefore : position < windows.body - 1 := Nat.lt_sub_of_add_lt hsecond.1
    rw [hzeros position hbefore] at hfirst
    cases hfirst.2
  intro hfound
  have hcondition := (findNextRegexMatchHuge_eq_iff (abPattern_local (by decide))).1 hfound _ hsearch
  simp only [hend, hlength, hcut, Option.isSome_none, Bool.false_eq_true, or_false] at hcondition
  exact Nat.not_succ_le_self _ hcondition

end Ned.Editor.Regex
