import Ned.Editor.Grammar.Tables
import Ned.Editor.Grammar.Lemmas.CharacterSet

/-!
# What rendered conditions hold of

At the end of the text the lookahead is U+0000.
-/

namespace Ned.Editor.Grammar

open Library
open Parse (LexClause LexDfaTransition holds searchRanges setContains LargeCharacterSets)

variable {set chars ruledOut asserted : CharacterSet} {largeSets : List CharacterSet}
  {ranges : List CodepointRange} {r : CodepointRange} {action : AdvanceAction} {c : Nat} {eof : Bool}

/-! ## Clauses -/

theorem includedConditions_holds (hr : r.start < r.stop) (heof : eof = true → c = 0) :
    (includedConditions r).any (holds · c eof) = true ↔ eof = false ∧ r.start ≤ c ∧ c < r.stop := by
  unfold includedConditions
  simp only
  split
  · by_cases hlast : r.stop - 1 = 0
    · simp [hlast, holds]
      omega
    · simp [hlast, holds]
      omega
  · split
    · simp [holds]
      cases eof <;> simp at heof ⊢ <;> omega
    · split
      · simp [holds]
        cases eof <;> simp at heof ⊢ <;> omega
      · simp [holds]
        cases eof <;> simp at heof ⊢ <;> omega

theorem excludedConditions_holds (hr : r.start < r.stop) :
    (excludedConditions r).all (holds · c eof) = true ↔ ¬(r.start ≤ c ∧ c < r.stop) := by
  unfold excludedConditions
  simp only
  split
  · simp [holds]
    omega
  · split
    · simp [holds]
      omega
    · split
      · simp [holds]
        omega
      · simp [holds]
        omega

theorem addRangeConditions_included (h : Ordered set.ranges) (heof : eof = true → c = 0) :
    (addRangeConditions set true).any (holds · c eof) = true ↔ eof = false ∧ c ∈ set := by
  simp only [addRangeConditions, if_true, List.any_flatMap, List.any_eq_true,
    CharacterSet.mem_def, Covers]
  constructor
  · rintro ⟨r, hr, hholds⟩
    obtain ⟨heof, hc⟩ := (includedConditions_holds (h.nonempty r hr) heof).1 (List.any_eq_true.2 hholds)
    exact ⟨heof, r, hr, hc⟩
  · rintro ⟨hfalse, r, hr, hc⟩
    exact ⟨r, hr, List.any_eq_true.1
      ((includedConditions_holds (h.nonempty r hr) heof).2 ⟨hfalse, hc⟩)⟩

theorem addRangeConditions_excluded (h : Ordered set.ranges) :
    (addRangeConditions set false).all (holds · c eof) = true ↔ c ∉ set := by
  simp only [addRangeConditions, Bool.false_eq_true, if_false, List.all_flatMap,
    CharacterSet.mem_def, Covers, not_exists, not_and]
  rw [List.all_eq_true]
  constructor
  · intro hall r hr hlow hhigh
    exact (excludedConditions_holds (h.nonempty r hr)).1 (hall r hr) ⟨hlow, hhigh⟩
  · intro hout r hr
    exact (excludedConditions_holds (h.nonempty r hr)).2 fun hin => hout r hr hin.1 hin.2

theorem addRangeConditions_ne_nil (h : set.ranges ≠ []) (included : Bool) :
    addRangeConditions set included ≠ [] := by
  obtain ⟨r, ranges, hranges⟩ := List.exists_cons_of_ne_nil h
  rw [addRangeConditions, hranges, List.flatMap_cons]
  refine List.append_ne_nil_of_left_ne_nil ?_ _
  cases included
  · simp only [Bool.false_eq_true, if_false, excludedConditions]
    split
    · simp
    · split
      · simp
      · split <;> simp
  · simp only [if_true, includedConditions]
    split
    · simp
    · split
      · simp
      · split <;> simp

/-! ## Large sets -/

theorem range_has (r : CodepointRange) :
    Parse.LexCharacterRange.has ⟨r.start, r.stop - 1⟩ c = true ↔ r.start ≤ c ∧ c < r.stop := by
  simp only [Parse.LexCharacterRange.has, Bool.and_eq_true, decide_eq_true_eq]
  omega

/-- A character is looked for in a window of the ranges. -/
def InWindow (ranges : List CodepointRange) (c index size : Nat) : Prop :=
  ∃ k, ∃ h : k < ranges.length, index ≤ k ∧ k < index + size ∧
    ranges[k].start ≤ c ∧ c < ranges[k].stop

theorem searchRanges_iff (h : Ordered set.ranges) {index size : Nat} (hsize : 0 < size)
    (hfits : index + size ≤ set.ranges.length) :
    searchRanges (renderLargeSet set) c index size = true ↔ InWindow set.ranges c index size := by
  induction size using Nat.strongRecOn generalizing index with
  | ind size ih =>
      have hget : ∀ k, (hk : k < set.ranges.length) →
          (renderLargeSet set).getD k ⟨0, -1⟩ = ⟨set.ranges[k].start, set.ranges[k].stop - 1⟩ := by
        intro k hk
        simp only [renderLargeSet, List.getD_eq_getElem?_getD, List.getElem?_map,
          List.getElem?_eq_getElem hk, Option.map_some, Option.getD_some]
      have hlt : ∀ k, (hk : k < set.ranges.length) → set.ranges[k].start < set.ranges[k].stop :=
        fun k hk => h.nonempty _ (List.getElem_mem hk)
      have happart : ∀ i j, (hi : i < set.ranges.length) → (hj : j < set.ranges.length) → i < j →
          set.ranges[i].stop ≤ set.ranges[j].start :=
        fun i j hi hj hij => List.pairwise_iff_getElem.1 h.apart i j hi hj hij
      rw [searchRanges]
      split
      · rename_i hmore
        have hmid : index + size / 2 < set.ranges.length := by omega
        simp only [hget _ hmid]
        split
        · rename_i hhas
          rw [range_has] at hhas
          simp only [true_iff]
          exact ⟨_, hmid, by omega, by omega, hhas⟩
        · rename_i hhas
          rw [range_has] at hhas
          split
          · rename_i habove
            have habove' : set.ranges[index + size / 2].stop ≤ c := by omega
            rw [ih (size - size / 2) (by omega) (by omega) (by omega)]
            constructor
            · rintro ⟨k, hk, hlow, hhigh, hc⟩
              exact ⟨k, hk, by omega, by omega, hc⟩
            · rintro ⟨k, hk, hlow, hhigh, hc⟩
              refine ⟨k, hk, Nat.le_of_not_lt fun hbelow => ?_, by omega, hc⟩
              have hapart' := happart _ _ hk hmid hbelow
              have hmidlt := hlt _ hmid
              omega
          · rename_i hbelow
            have hmidlt := hlt _ hmid
            have hbelow' : c < set.ranges[index + size / 2].start := by omega
            rw [ih (size - size / 2) (by omega) (by omega) (by omega)]
            constructor
            · rintro ⟨k, hk, hlow, hhigh, hc⟩
              exact ⟨k, hk, by omega, by omega, hc⟩
            · rintro ⟨k, hk, hlow, hhigh, hc⟩
              refine ⟨k, hk, hlow, Nat.lt_of_not_le fun habove => ?_, hc⟩
              have hle : set.ranges[index + size / 2].start ≤ set.ranges[k].start := by
                rcases Nat.lt_or_ge (index + size / 2) k with hlt' | hge
                · have hapart' := happart _ _ hmid hk hlt'
                  omega
                · have heq : k = index + size / 2 := by omega
                  subst heq
                  exact Nat.le_refl _
              omega
      · have hone : size = 1 := by omega
        subst hone
        have hindex : index < set.ranges.length := by omega
        rw [hget _ hindex, range_has]
        constructor
        · intro hc
          exact ⟨index, hindex, Nat.le_refl _, by omega, hc⟩
        · rintro ⟨k, hk, hlow, hhigh, hc⟩
          have heq : k = index := by omega
          subst heq
          exact hc

theorem setContains_iff (h : Ordered set.ranges) :
    setContains (renderLargeSet set) c = true ↔ c ∈ set := by
  unfold setContains
  rcases Nat.eq_zero_or_pos set.ranges.length with hempty | hpos
  · have hnil := List.eq_nil_of_length_eq_zero hempty
    simp [renderLargeSet, hnil, searchRanges, Parse.LexCharacterRange.has, CharacterSet.mem_def]
    omega
  · have hlength : (renderLargeSet set).length = set.ranges.length := by simp [renderLargeSet]
    rw [hlength, searchRanges_iff h hpos (by omega), CharacterSet.mem_def]
    constructor
    · rintro ⟨k, hk, -, -, hc⟩
      exact ⟨_, List.getElem_mem hk, hc⟩
    · rintro ⟨r, hr, hc⟩
      obtain ⟨k, hk, rfl⟩ := List.getElem_of_mem hr
      exact ⟨k, hk, by omega, by omega, hc⟩

/-! ## Asserted sets -/

theorem negate_ordered (h : set.Proper) : Ordered set.negate.ranges :=
  (CharacterSet.negateFrom_ordered h.ordered fun _ _ => Nat.zero_le _).1

theorem mem_nulExcluded (h : set.Proper) (hc : c < kCodepointEnd) :
    c ∈ set.negate.addChar 0 ↔ c = 0 ∨ c ∉ set := by
  rw [CharacterSet.mem_addChar (negate_ordered h), CharacterSet.mem_negate h hc]

theorem assertedClauses_isEmpty {t : LexDfaTransition} (h : asserted.Proper)
    (ht : assertedClauses asserted = (t.assertedAnyOf, t.asserted)) :
    t.asserted.isEmpty = asserted.isEmpty := by
  unfold assertedClauses at ht
  cases hempty : asserted.isEmpty with
  | true =>
      rw [hempty, if_pos rfl] at ht
      rw [← (Prod.mk.inj ht).2, List.isEmpty_nil]
  | false =>
      rw [hempty, if_neg Bool.false_ne_true] at ht
      rw [List.isEmpty_eq_false_iff]
      split at ht
      · have hnul := (mem_nulExcluded (c := 0) h (by decide)).2 (Or.inl rfl)
        rw [← (Prod.mk.inj ht).2]
        exact addRangeConditions_ne_nil (CharacterSet.ranges_ne_nil hnul) false
      · rw [← (Prod.mk.inj ht).2]
        exact addRangeConditions_ne_nil (List.isEmpty_eq_false_iff.1 hempty) true

theorem assertedHolds_iff {t : LexDfaTransition} (h : asserted.Proper)
    (hne : asserted.isEmpty = false)
    (ht : assertedClauses asserted = (t.assertedAnyOf, t.asserted)) (hc : c < kCodepointEnd)
    (heof : eof = true → c = 0) :
    t.assertedHolds c eof = true ↔
      eof = false ∧ c ∈ asserted ∧ (kCodepointEnd - 1 ∈ asserted → c ≠ 0) := by
  unfold assertedClauses at ht
  rw [hne, if_neg Bool.false_ne_true] at ht
  split at ht
  · rename_i hlast
    obtain ⟨hany, hclauses⟩ := Prod.mk.inj ht
    rw [CharacterSet.contains_iff h.ordered] at hlast
    rw [Parse.LexDfaTransition.assertedHolds, ← hany, ← hclauses, if_neg Bool.false_ne_true,
      addRangeConditions_excluded (CharacterSet.addChar_ordered (negate_ordered h) 0),
      mem_nulExcluded h hc]
    cases eof with
    | true => simp [heof rfl]
    | false =>
        simp only [true_and, not_or, Classical.not_not, hlast, true_implies]
        exact and_comm
  · rename_i hlast
    obtain ⟨hany, hclauses⟩ := Prod.mk.inj ht
    rw [CharacterSet.contains_iff h.ordered] at hlast
    rw [Parse.LexDfaTransition.assertedHolds, ← hany, ← hclauses, if_pos rfl,
      addRangeConditions_included h.ordered heof]
    simp [hlast]

/-! ## Shared sets -/

/-- A large set that a transition may share with what it lacks and has too much. -/
structure SharedSet.Sound (largeSets : List CharacterSet) (simplified ruledOut : CharacterSet)
    (shared : SharedSet) : Prop where
  large : largeSets[shared.index]? = some shared.set
  additions : shared.additions.Proper
  removals : shared.removals.Proper
  mem_additions : ∀ c, c ∉ ruledOut → (c ∈ shared.additions ↔ c ∈ simplified ∧ c ∉ shared.set)
  mem_removals : ∀ c, c ∉ ruledOut → (c ∈ shared.removals ↔ c ∈ shared.set ∧ c ∉ simplified)
  zero : 0 ∈ shared.additions → 0 ∈ simplified
  last : kCodepointEnd - 1 ∈ shared.additions → kCodepointEnd - 1 ∈ simplified

theorem shareSet_sound {simplified largeSet : CharacterSet} {shared : SharedSet} {i : Nat}
    (h : shareSet simplified ruledOut i largeSet = some shared) (hsimplified : simplified.Proper)
    (hlarge : largeSet.Proper) (hi : largeSets[i]? = some largeSet) :
    shared.Sound largeSets simplified ruledOut := by
  unfold shareSet CharacterSet.removeIntersection at h
  simp only at h
  have hsplits := CharacterSet.splitRanges_splits hsimplified.ordered hlarge.ordered
  generalize CharacterSet.splitRanges simplified.ranges largeSet.ranges = s at h hsplits
  split at h
  · cases h
  · simp only [Option.some.injEq] at h
    subst h
    have hleft : (CharacterSet.mk s.left).Proper := by
      refine .of_mem hsplits.leftOrdered fun c hc => ?_
      exact hsimplified.lt_of_mem ((hsplits.mem_left c).1 hc).1
    have hright : (CharacterSet.mk s.right).Proper := by
      refine .of_mem hsplits.rightOrdered fun c hc => ?_
      exact hlarge.lt_of_mem ((hsplits.mem_right c).1 hc).1
    have hadditions : CharacterSet.Simplified ruledOut _ _ :=
      CharacterSet.simplifyIgnoring_simplified hleft.ordered
    have hremovals : CharacterSet.Simplified ruledOut _ _ :=
      CharacterSet.simplifyIgnoring_simplified hright.ordered
    exact {
      large := hi
      additions := ⟨hadditions.ordered, hadditions.stopsBy hleft.stopsBy⟩
      removals := ⟨hremovals.ordered, hremovals.stopsBy hright.stopsBy⟩
      mem_additions := fun c hc => (hadditions.covers c hc).trans (hsplits.mem_left c)
      mem_removals := fun c hc => (hremovals.covers c hc).trans (hsplits.mem_right c)
      zero := fun h => ((hsplits.mem_left 0).1 (hadditions.covers_zero hleft.ordered h)).1
      last := fun h =>
        ((hsplits.mem_left _).1 (hadditions.covers_last hleft.ordered hleft.stopsBy h)).1 }

theorem bestSharedSet_sound {simplified : CharacterSet} {best : Option SharedSet}
    {shared : SharedSet} {i : Nat} {rest : List CharacterSet} (hrest : largeSets.drop i = rest)
    (hlarge : ∀ set ∈ largeSets, set.Proper) (hsimplified : simplified.Proper)
    (hbest : ∀ b ∈ best, b.Sound largeSets simplified ruledOut)
    (h : bestSharedSet simplified ruledOut i best rest = some shared) :
    shared.Sound largeSets simplified ruledOut := by
  induction rest generalizing i best with
  | nil => exact hbest shared h
  | cons largeSet rest ih =>
      have hi : largeSets[i]? = some largeSet := by
        rw [← List.head?_drop, hrest, List.head?_cons]
      have hdrop : largeSets.drop (i + 1) = rest := by
        rw [← List.tail_drop, hrest, List.tail_cons]
      refine ih hdrop (fun b hb => ?_) h
      cases hshare : shareSet simplified ruledOut i largeSet with
      | none =>
          rw [hshare] at hb
          exact hbest b hb
      | some candidate =>
          rw [hshare] at hb
          simp only at hb
          split at hb
          · exact hbest b hb
          · rw [Option.mem_some_iff] at hb
            subst hb
            exact shareSet_sound hshare hsimplified (hlarge _ (List.mem_of_getElem? hi)) hi

/-! ## Transitions -/

/-- A set that is asserted may not be checked for U+0000. -/
def NulApart (set : CharacterSet) : Prop := ¬(0 ∈ set ∧ kCodepointEnd - 1 ∈ set)

section Matches

variable {t : LexDfaTransition}

theorem matches_asserted (hasserted : asserted.Proper) (hne : asserted.isEmpty = false)
    (hclauses : assertedClauses asserted = (t.assertedAnyOf, t.asserted)) (hlarge : t.largeSet = none)
    (hnegated : t.negated = []) (hconditional : t.conditional = true) (hc : c < kCodepointEnd)
    (heof : eof = true → c = 0) :
    t.matches (renderLargeSets largeSets) c eof = true ↔
      eof = false ∧ c ∈ asserted ∧ (kCodepointEnd - 1 ∈ asserted → c ≠ 0) := by
  unfold Parse.LexDfaTransition.matches Parse.LexDfaTransition.inLargeSet
  simp only [hconditional, hlarge, hnegated, assertedClauses_isEmpty hasserted hclauses, hne,
    Option.map_none, Bool.not_true, Bool.false_eq_true, if_false, Bool.false_or, List.all_nil,
    Bool.and_true]
  exact assertedHolds_iff hasserted hne hclauses hc heof

theorem matches_shared {shared : SharedSet} {simplified : CharacterSet}
    (h : shared.Sound largeSets simplified ruledOut) (hset : shared.set.Proper)
    (hclauses : assertedClauses shared.additions = (t.assertedAnyOf, t.asserted))
    (hlarge : t.largeSet = some shared.index) (hcheck : t.largeSetCheckEof = shared.set.contains 0)
    (hnegated : t.negated = addRangeConditions shared.removals false)
    (hconditional : t.conditional = true) (hc : c < kCodepointEnd) (heof : eof = true → c = 0) :
    t.matches (renderLargeSets largeSets) c eof = true ↔
      eof = false ∧ (c ∈ shared.set ∨
        c ∈ shared.additions ∧ (kCodepointEnd - 1 ∈ shared.additions → c ≠ 0)) ∧
          c ∉ shared.removals := by
  have hget : (renderLargeSets largeSets).getD shared.index [] = renderLargeSet shared.set := by
    simp [renderLargeSets, List.getD_eq_getElem?_getD, h.large]
  have hin : ((!shared.set.contains 0 || !eof) && setContains (renderLargeSet shared.set) c) = true ↔
      eof = false ∧ c ∈ shared.set := by
    rw [Bool.and_eq_true, setContains_iff hset.ordered]
    cases eof with
    | false => simp
    | true =>
        have hzero := CharacterSet.contains_iff (c := 0) hset.ordered
        simp [heof rfl, ← hzero]
  have hadded : (!shared.additions.isEmpty && t.assertedHolds c eof) = true ↔
      eof = false ∧ c ∈ shared.additions ∧ (kCodepointEnd - 1 ∈ shared.additions → c ≠ 0) := by
    cases hempty : shared.additions.isEmpty with
    | true =>
        have hnone : c ∉ shared.additions :=
          fun hmem => CharacterSet.ranges_ne_nil hmem (List.isEmpty_iff.1 hempty)
        simp [hnone]
    | false =>
        rw [Bool.not_false, Bool.true_and]
        exact assertedHolds_iff h.additions hempty hclauses hc heof
  unfold Parse.LexDfaTransition.matches Parse.LexDfaTransition.inLargeSet
  simp only [hconditional, hlarge, hnegated, hcheck, assertedClauses_isEmpty h.additions hclauses,
    Option.map_some, hget, Bool.not_true, Bool.false_eq_true, if_false]
  rw [Bool.and_eq_true, Bool.or_eq_true, hin, hadded, addRangeConditions_excluded h.removals.ordered,
    ← and_or_left, and_assoc]

end Matches

theorem conditionTransition_matches (hchars : chars.Proper) (hlarge : ∀ set ∈ largeSets, set.Proper)
    (hfresh : ∃ d, d ∈ chars ∧ d ∉ ruledOut) (hc : c < kCodepointEnd) (heof : eof = true → c = 0)
    (hout : eof = false → c ∉ ruledOut) (hnul : eof = false → c = 0 → NulApart chars) :
    (conditionTransition largeSets ruledOut chars action).matches (renderLargeSets largeSets) c eof
      = true ↔ eof = false ∧ c ∈ chars := by
  have hsimplified : CharacterSet.Simplified ruledOut _ _ :=
    CharacterSet.simplifyIgnoring_simplified hchars.ordered
  unfold conditionTransition
  generalize chars.simplifyIgnoring ruledOut = simplified at hsimplified ⊢
  have hproper : simplified.Proper :=
    ⟨hsimplified.ordered, hsimplified.stopsBy hchars.stopsBy⟩
  have hne : simplified.isEmpty = false := by
    obtain ⟨d, hd, hdout⟩ := hfresh
    have hdmem : d ∈ simplified := (hsimplified.covers d hdout).2 hd
    exact List.isEmpty_eq_false_iff.2 (CharacterSet.ranges_ne_nil hdmem)
  have hmem : eof = false → (c ∈ simplified ↔ c ∈ chars) :=
    fun hfalse => hsimplified.covers c (hout hfalse)
  have hlast : kCodepointEnd - 1 ∈ simplified → kCodepointEnd - 1 ∈ chars :=
    hsimplified.covers_last hchars.ordered hchars.stopsBy
  have hzero : 0 ∈ simplified → 0 ∈ chars := hsimplified.covers_zero hchars.ordered
  simp only
  cases hshared : (if simplified.rangeCount ≥ kLargeCharacterRangeCount then
      bestSharedSet simplified ruledOut 0 none largeSets else none) with
  | none =>
      rw [matches_asserted hproper hne rfl rfl rfl (by simp [hne]) hc heof]
      refine and_congr_right fun hfalse => (and_congr_left' (hmem hfalse)).trans ?_
      refine and_iff_left_of_imp fun hin hmax hz => ?_
      subst hz
      exact hnul hfalse rfl ⟨hin, hlast hmax⟩
  | some shared =>
      have hsound : shared.Sound largeSets simplified ruledOut := by
        split at hshared
        · exact bestSharedSet_sound rfl hlarge hproper (fun b hb => by cases hb) hshared
        · cases hshared
      have hset := hlarge _ (List.mem_of_getElem? hsound.large)
      rw [matches_shared hsound hset rfl rfl rfl rfl rfl hc heof]
      refine and_congr_right fun hfalse => ?_
      rw [hsound.mem_removals c (hout hfalse), ← hmem hfalse]
      have hadditions := hsound.mem_additions c (hout hfalse)
      have hapart : c ∈ shared.additions → kCodepointEnd - 1 ∈ shared.additions → c ≠ 0 := by
        intro hadded hmax hz
        subst hz
        exact hnul hfalse rfl ⟨hzero (hsound.zero hadded), hlast (hsound.last hmax)⟩
      grind

theorem mapConditions_hold (hr : r.start < r.stop) (hsimple : r.stop - 1 ≤ r.start + 1) :
    (mapConditions r).any (holds · c eof) = true ↔ r.start ≤ c ∧ c < r.stop := by
  unfold mapConditions
  split
  · simp [holds]
    omega
  · simp [holds]
    omega

theorem mapTransition_matches (hchars : chars.Proper) (hne : chars.ranges ≠ [])
    (hsimple : isSimple chars action = true) :
    (mapTransition chars action).matches (renderLargeSets largeSets) c eof = true ↔ c ∈ chars := by
  have hshort : ∀ r ∈ chars.ranges, r.stop - 1 ≤ r.start + 1 := by
    intro r hr
    unfold isSimple at hsimple
    have hall := List.all_eq_true.1 (Bool.and_eq_true_iff.1 hsimple).2 r hr
    exact of_decide_eq_true (Bool.and_eq_true_iff.1 hall).1
  have hclauses : (chars.ranges.flatMap mapConditions).isEmpty = false := by
    obtain ⟨r, ranges, hranges⟩ := List.exists_cons_of_ne_nil hne
    rw [hranges, List.flatMap_cons]
    simp [mapConditions]
  have hholds : (chars.ranges.flatMap mapConditions).any (holds · c eof) = true ↔ c ∈ chars := by
    rw [List.any_flatMap, List.any_eq_true, CharacterSet.mem_def, Covers]
    refine exists_congr fun r => and_congr_right fun hr => ?_
    exact mapConditions_hold (hchars.ordered.nonempty r hr) (hshort r hr)
  unfold Parse.LexDfaTransition.matches Parse.LexDfaTransition.inLargeSet
    Parse.LexDfaTransition.assertedHolds mapTransition
  simp only [Option.map_none, Bool.not_true, Bool.false_eq_true, if_false, if_true, hclauses,
    Bool.false_or, List.all_nil, Bool.and_true]
  exact hholds

/-! ## States -/

def transitionAction (t : LexDfaTransition) : AdvanceAction := ⟨t.nextState, t.inMainToken⟩

/-- The sets of a state hold sorted codepoints, at least one, and none twice; the states meant have
numbers that fit. -/
structure ActionsWellFormed (actions : List (CharacterSet × AdvanceAction)) : Prop where
  proper : ∀ p ∈ actions, p.1.Proper
  nonempty : ∀ p ∈ actions, ∃ c, c ∈ p.1
  disjoint : actions.Pairwise fun p q => ∀ c, c ∈ p.1 → c ∉ q.1
  small : ∀ p ∈ actions, p.2.state < 2 ^ 16

namespace ActionsWellFormed

variable {actions before after : List (CharacterSet × AdvanceAction)}

theorem left (h : ActionsWellFormed (before ++ after)) : ActionsWellFormed before where
  proper p hp := h.proper p (List.mem_append_left _ hp)
  nonempty p hp := h.nonempty p (List.mem_append_left _ hp)
  disjoint := (List.pairwise_append.1 h.disjoint).1
  small p hp := h.small p (List.mem_append_left _ hp)

theorem right (h : ActionsWellFormed (before ++ after)) : ActionsWellFormed after where
  proper p hp := h.proper p (List.mem_append_right _ hp)
  nonempty p hp := h.nonempty p (List.mem_append_right _ hp)
  disjoint := (List.pairwise_append.1 h.disjoint).2.1
  small p hp := h.small p (List.mem_append_right _ hp)

theorem tail {p : CharacterSet × AdvanceAction} (h : ActionsWellFormed (p :: after)) :
    ActionsWellFormed after := by
  rw [← List.singleton_append] at h
  exact h.right

end ActionsWellFormed

variable {actions : List (CharacterSet × AdvanceAction)}

@[simp] theorem conditionTransition_action (hsmall : action.state < 2 ^ 16) :
    transitionAction (conditionTransition largeSets ruledOut chars action) = action := by
  simp [transitionAction, conditionTransition, uint16_of_lt hsmall]

theorem mapTransition_action (hsmall : action.state < 2 ^ 16)
    (hsimple : isSimple chars action = true) :
    transitionAction (mapTransition chars action) = action := by
  have hmain : action.inMainToken = true := (Bool.and_eq_true_iff.1 hsimple).1
  simp [transitionAction, mapTransition, uint16_of_lt hsmall, ← hmain]

theorem conditionTransitions_find (h : ActionsWellFormed actions)
    (hlarge : ∀ set ∈ largeSets, set.Proper)
    (hfresh : ∀ p ∈ actions, ∃ d, d ∈ p.1 ∧ d ∉ ruledOut) (hc : c < kCodepointEnd)
    (hout : c ∉ ruledOut) (hnul : c = 0 → ∀ p ∈ actions, NulApart p.1) :
    ((conditionTransitions largeSets ruledOut actions).find?
        (·.matches (renderLargeSets largeSets) c false)).map transitionAction =
      (actions.find? (·.1.contains c)).map (·.2) := by
  induction actions generalizing ruledOut with
  | nil => rfl
  | cons p actions ih =>
      obtain ⟨chars, action⟩ := p
      have hchars : chars.Proper := h.proper _ List.mem_cons_self
      have hmatches : (conditionTransition largeSets ruledOut chars action).matches
          (renderLargeSets largeSets) c false = true ↔ false = false ∧ c ∈ chars :=
        conditionTransition_matches hchars hlarge (hfresh _ List.mem_cons_self) hc
          (fun h => absurd h Bool.false_ne_true) (fun _ => hout)
          fun _ hz => hnul hz _ List.mem_cons_self
      have hcontains : chars.contains c = true ↔ c ∈ chars :=
        CharacterSet.contains_iff hchars.ordered
      rw [conditionTransitions, List.find?_cons, List.find?_cons]
      by_cases hin : c ∈ chars
      · rw [hmatches.2 ⟨rfl, hin⟩, hcontains.2 hin]
        simp only [Option.map_some]
        rw [conditionTransition_action (h.small _ List.mem_cons_self)]
      · have hno : (conditionTransition largeSets ruledOut chars action).matches
            (renderLargeSets largeSets) c false = false :=
          Bool.eq_false_iff.2 fun hyes => hin (hmatches.1 hyes).2
        have hno' : chars.contains c = false := Bool.eq_false_iff.2 fun hyes => hin (hcontains.1 hyes)
        rw [hno, hno']
        obtain ⟨hapart, -⟩ := List.pairwise_cons.1 h.disjoint
        refine ih h.tail (fun q hq => ?_) ?_ ?_
        · obtain ⟨d, hd, hdout⟩ := hfresh q (List.mem_cons_of_mem _ hq)
          refine ⟨d, hd, fun hadd => ?_⟩
          rcases CharacterSet.mem_add hadd with hadd | hadd
          · exact hdout hadd
          · exact hapart q hq d hadd hd
        · intro hadd
          rcases CharacterSet.mem_add hadd with hadd | hadd
          · exact hout hadd
          · exact hin hadd
        · exact fun hz q hq => hnul hz q (List.mem_cons_of_mem _ hq)

theorem conditionTransitions_eof (h : ActionsWellFormed actions)
    (hlarge : ∀ set ∈ largeSets, set.Proper)
    (hfresh : ∀ p ∈ actions, ∃ d, d ∈ p.1 ∧ d ∉ ruledOut) :
    (conditionTransitions largeSets ruledOut actions).find?
      (·.matches (renderLargeSets largeSets) ((0 : Nat) : Int) true) = none := by
  induction actions generalizing ruledOut with
  | nil => rfl
  | cons p actions ih =>
      obtain ⟨chars, action⟩ := p
      have hmatches : (conditionTransition largeSets ruledOut chars action).matches
          (renderLargeSets largeSets) ((0 : Nat) : Int) true = true ↔ true = false ∧ 0 ∈ chars :=
        conditionTransition_matches (h.proper _ List.mem_cons_self) hlarge
          (hfresh _ List.mem_cons_self) (by decide) (fun _ => rfl) (fun h => absurd h.symm
            Bool.false_ne_true) fun h => absurd h.symm Bool.false_ne_true
      have hno := Bool.eq_false_iff.2 fun hyes => absurd (hmatches.1 hyes).1.symm Bool.false_ne_true
      rw [conditionTransitions, List.find?_cons, hno]
      obtain ⟨hapart, -⟩ := List.pairwise_cons.1 h.disjoint
      refine ih h.tail fun q hq => ?_
      obtain ⟨d, hd, hdout⟩ := hfresh q (List.mem_cons_of_mem _ hq)
      refine ⟨d, hd, fun hadd => ?_⟩
      rcases CharacterSet.mem_add hadd with hadd | hadd
      · exact hdout hadd
      · exact hapart q hq d hadd hd

/-! ## ADVANCE_MAPs -/

theorem leadingActions_append (actions : List (CharacterSet × AdvanceAction)) :
    leadingActions actions ++ actions.drop (leadingActions actions).length = actions := by
  unfold leadingActions
  simp only
  split
  · exact (List.prefix_iff_eq_append.1 (List.takeWhile_prefix _))
  · rfl

theorem isSimple_of_mem_leading {p : CharacterSet × AdvanceAction}
    (h : p ∈ leadingActions actions) : isSimple p.1 p.2 = true := by
  unfold leadingActions at h
  simp only at h
  split at h
  · exact List.all_eq_true.1 List.all_takeWhile p h
  · cases h

theorem mem_ruledOut {set : CharacterSet}
    (h : c ∈ actions.foldl (fun ruledOut (p : CharacterSet × AdvanceAction) => ruledOut.add p.1) set) :
    c ∈ set ∨ ∃ p ∈ actions, c ∈ p.1 := by
  induction actions generalizing set with
  | nil => exact Or.inl h
  | cons p actions ih =>
      rcases ih h with h | ⟨q, hq, h⟩
      · rcases CharacterSet.mem_add h with h | h
        · exact Or.inl h
        · exact Or.inr ⟨p, List.mem_cons_self, h⟩
      · exact Or.inr ⟨q, List.mem_cons_of_mem _ hq, h⟩

theorem mapTransitions_find (largeSets : List CharacterSet) (c : Nat) (eof : Bool)
    (h : ActionsWellFormed actions) (hsimple : ∀ p ∈ actions, isSimple p.1 p.2 = true) :
    ((actions.map fun p => mapTransition p.1 p.2).find?
        (·.matches (renderLargeSets largeSets) c eof)).map transitionAction =
      (actions.find? (·.1.contains c)).map (·.2) := by
  induction actions with
  | nil => rfl
  | cons p actions ih =>
      obtain ⟨chars, action⟩ := p
      have hchars : chars.Proper := h.proper _ List.mem_cons_self
      have hmatches : (mapTransition chars action).matches (renderLargeSets largeSets) c eof =
          chars.contains c := by
        obtain ⟨d, hd⟩ := h.nonempty _ List.mem_cons_self
        rw [Bool.eq_iff_iff, CharacterSet.contains_iff hchars.ordered]
        exact mapTransition_matches hchars (CharacterSet.ranges_ne_nil hd)
          (hsimple _ List.mem_cons_self)
      rw [List.map_cons, List.find?_cons, List.find?_cons, hmatches]
      simp only
      cases chars.contains c with
      | true =>
          simp only [Option.map_some]
          rw [mapTransition_action (h.small _ List.mem_cons_self) (hsimple _ List.mem_cons_self)]
      | false => exact ih h.tail fun q hq => hsimple q (List.mem_cons_of_mem _ hq)

theorem renderTransitions_eq (largeSets : List CharacterSet)
    (actions : List (CharacterSet × AdvanceAction)) :
    ∃ after ruledOut, leadingActions actions ++ after = actions ∧
      (∀ c, c ∈ ruledOut → ∃ p ∈ leadingActions actions, c ∈ p.1) ∧
      renderTransitions largeSets actions =
        ((leadingActions actions).map fun p => mapTransition p.1 p.2) ++
          conditionTransitions largeSets ruledOut after := by
  refine ⟨_, _, leadingActions_append actions, fun c hc => ?_, rfl⟩
  refine (mem_ruledOut hc).resolve_left ?_
  rw [CharacterSet.mem_def]
  exact covers_nil c

theorem ActionsWellFormed.fresh {before after : List (CharacterSet × AdvanceAction)}
    (h : ActionsWellFormed (before ++ after)) (hruled : ∀ c, c ∈ ruledOut → ∃ p ∈ before, c ∈ p.1) :
    ∀ p ∈ after, ∃ d, d ∈ p.1 ∧ d ∉ ruledOut := by
  intro p hp
  obtain ⟨d, hd⟩ := h.nonempty p (List.mem_append_right _ hp)
  refine ⟨d, hd, fun hout => ?_⟩
  obtain ⟨q, hq, hdq⟩ := hruled d hout
  exact (List.pairwise_append.1 h.disjoint).2.2 q hq p hp d hdq hd

theorem renderTransitions_find (h : ActionsWellFormed actions)
    (hlarge : ∀ set ∈ largeSets, set.Proper) (hc : c < kCodepointEnd)
    (hnul : c = 0 → ∀ p ∈ actions, NulApart p.1) :
    ((renderTransitions largeSets actions).find?
        (·.matches (renderLargeSets largeSets) c false)).map transitionAction =
      (actions.find? (·.1.contains c)).map (·.2) := by
  obtain ⟨after, ruledOut, happend, hruled, heq⟩ := renderTransitions_eq largeSets actions
  have happended : ActionsWellFormed (leadingActions actions ++ after) := happend.symm ▸ h
  have hleading := mapTransitions_find largeSets c false
    happended.left fun p hp => isSimple_of_mem_leading hp
  have hactions : actions.find? (·.1.contains c) =
      ((leadingActions actions).find? (·.1.contains c)).or (after.find? (·.1.contains c)) := by
    rw [← List.find?_append, happend]
  rw [heq, List.find?_append, hactions]
  cases hfind : (leadingActions actions).find? (·.1.contains c) with
  | some p =>
      rw [hfind] at hleading
      obtain ⟨t, ht, -⟩ := Option.map_eq_some_iff.1 hleading
      rw [ht] at hleading ⊢
      exact hleading
  | none =>
      rw [hfind, Option.map_none, Option.map_eq_none_iff] at hleading
      rw [hleading, Option.none_or, Option.none_or]
      refine conditionTransitions_find happended.right hlarge (happended.fresh hruled) hc ?_ ?_
      · intro hout
        obtain ⟨p, hp, hcp⟩ := hruled c hout
        have hproper := happended.left.proper p hp
        have hnone := List.find?_eq_none.1 hfind p hp
        exact hnone ((CharacterSet.contains_iff hproper.ordered).2 hcp)
      · intro hz p hp
        exact hnul hz p (happend ▸ List.mem_append_right _ hp)

theorem renderTransitions_eof (h : ActionsWellFormed actions)
    (hlarge : ∀ set ∈ largeSets, set.Proper) (hmap : ∀ p ∈ leadingActions actions, 0 ∉ p.1) :
    (renderTransitions largeSets actions).find?
      (·.matches (renderLargeSets largeSets) ((0 : Nat) : Int) true) = none := by
  obtain ⟨after, ruledOut, happend, hruled, heq⟩ := renderTransitions_eq largeSets actions
  have happended : ActionsWellFormed (leadingActions actions ++ after) := happend.symm ▸ h
  have hleading := mapTransitions_find largeSets 0 true
    happended.left fun p hp => isSimple_of_mem_leading hp
  have hnone : (leadingActions actions).find? (·.1.contains 0) = none := by
    refine List.find?_eq_none.2 fun p hp hcontains => ?_
    have hproper := happended.left.proper p hp
    exact hmap p hp ((CharacterSet.contains_iff hproper.ordered).1 hcontains)
  rw [hnone, Option.map_none, Option.map_eq_none_iff] at hleading
  rw [heq, List.find?_append, hleading, Option.none_or]
  exact conditionTransitions_eof happended.right hlarge (happended.fresh hruled)

end Ned.Editor.Grammar
