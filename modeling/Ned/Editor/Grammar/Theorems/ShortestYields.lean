import Mathlib.Data.List.Nodup
import Ned.Editor.Grammar.Lemmas.ShortestYields

/-!
# Cheapest spellings

As long as no cost of a production wraps, the rounds settle the least cost of every variable that
derives anything, with a spelling at that cost, and every closer is derived from what an item leaves
unmatched.
-/

namespace Ned.Editor.Grammar

open Library WeightedGrammar

variable {grammar : SyntaxGrammar} {yields : Yields} {steps : List ProductionStep} {index : Nat}
  {best : Best} {k s : Cost}

/-! ## One round -/

theorem settle_cost (hindex : best.index < yields.costs.length) (i : Nat) :
    (yields.settle best).cost i = if i = best.index then some best.cost else yields.cost i := by
  rw [Yields.cost, Yields.settle, List.getElem?_set]
  by_cases h : best.index = i
  · subst h
    simp [hindex]
  · rw [if_neg h, if_neg (Ne.symm h), Yields.cost]

theorem settle_spelling (hindex : best.index < yields.spellings.length) (i : Nat)
    (hshort : i = best.index → best.cost.tokens ≤ kMaxEofCloserLength) :
    (yields.settle best).spelling i =
      if i = best.index then yields.spell best.production.steps else yields.spelling i := by
  rw [Yields.spelling, Yields.settle]
  by_cases h : i = best.index
  · subst h
    rw [if_neg (Nat.not_lt.2 (hshort rfl)), if_pos rfl]
    simp [hindex]
  · rw [if_neg h, Yields.spelling]
    split
    · rfl
    · rw [List.getElem?_set_ne (Ne.symm h)]

/-- The least costs of all productions, kept without wrapping. -/
def CostsFit (grammar : SyntaxGrammar) : Prop :=
  ∀ entry ∈ grammar.variables, ∀ production ∈ entry.productions, ∀ k,
    IsLeast {k | ∃ ts, grammar.weighted.Derives (parts production.steps) ts k} k →
      (grammar.weighted.nodeCost + k).Fits

/-- The costs settled are the least ones, and short spellings are there. -/
structure Sound (grammar : SyntaxGrammar) (yields : Yields) : Prop where
  costs_length : yields.costs.length = grammar.variables.length
  spellings_length : yields.spellings.length = grammar.variables.length
  cheapest : grammar.weighted.Cheapest yields.settled
  spelled : ∀ i c, yields.cost i = some c → c.tokens ≤ kMaxEofCloserLength →
    grammar.weighted.Derives [.nonterminal i] (yields.spelling i) c.exact

namespace Sound

theorem settledCost_least (h : Sound grammar yields)
    (hs : grammar.weighted.settledCost yields.settled (parts steps) = some s) :
    IsLeast {k | ∃ ts, grammar.weighted.Derives (parts steps) ts k} s := by
  refine ⟨h.cheapest.derived.settledCost hs, fun k hk => ?_⟩
  obtain ⟨ts, hts⟩ := hk
  exact h.cheapest.settledCost_le Cost.nonneg hs hts

theorem exact_cost (h : Sound grammar yields) (hfit : CostsFit grammar) {entry : SyntaxVariable}
    {production : Production} (hentry : entry ∈ grammar.variables)
    (hproduction : production ∈ entry.productions)
    (hs : grammar.weighted.settledCost yields.settled (parts production.steps) = some s) :
    (grammar.weighted.nodeCost + s).wrapped.exact = grammar.weighted.nodeCost + s :=
  YieldCost.exact_wrapped (hfit entry hentry production hproduction s (h.settledCost_least hs))

/-- Steps whose cost is short are spelled by what is settled. -/
theorem spell (h : Sound grammar yields)
    (hs : grammar.weighted.settledCost yields.settled (parts steps) = some s)
    (hshort : s.tokens ≤ kMaxEofCloserLength) :
    grammar.weighted.Derives (parts steps) (yields.spell steps) s := by
  induction steps generalizing s with
  | nil =>
      cases hs
      exact .nil
  | cons step steps ih =>
      rw [settledCost_part] at hs
      obtain ⟨c, hc, hs⟩ := Option.bind_eq_some_iff.1 hs
      obtain ⟨k, hk, rfl⟩ := Option.map_eq_some_iff.1 hs
      obtain ⟨cost, hcost, rfl⟩ := Option.map_eq_some_iff.1 hc
      rw [Cost.tokens_add] at hshort
      have hrest := ih hk (Nat.le_trans (Nat.le_add_left _ _) hshort)
      have hfirst := Nat.le_trans (Nat.le_add_right _ _) hshort
      rw [Yields.spell, List.flatMap_cons, ← Yields.spell, parts, List.map_cons, ← parts]
      by_cases hstep : step.symbol.isNonTerminal = true
      · rw [Yields.stepCost, if_pos hstep] at hcost
        rw [part_nonterminal hstep, if_pos hstep]
        exact (h.spelled _ cost hcost hfirst).append hrest
      · rw [Yields.stepCost, if_neg hstep] at hcost
        cases hcost
        rw [part_terminal hstep, if_neg hstep]
        exact .terminal hrest

/-- A round settles the least cost of one more variable. -/
theorem settle (h : Sound grammar yields) (hfit : CostsFit grammar)
    (hbest : Grammar.cheapest grammar yields = some best) :
    Sound grammar (yields.settle best) ∧ yields.settled best.index = none ∧
      best.index < grammar.variables.length := by
  have hchosen := chosen_cheapest grammar yields
  obtain ⟨hopen, entry, hentry, hproduction⟩ := mem_openProductions.1 (hchosen.among best hbest)
  have hindex : best.index < grammar.variables.length := (List.getElem?_eq_some_iff.1 hentry).1
  have hready := hchosen.ready best hbest
  rw [productionCost_eq grammar] at hready
  obtain ⟨s, hs, hcost⟩ := Option.map_eq_some_iff.1 hready
  have hexact : best.cost.exact = grammar.weighted.nodeCost + s :=
    hcost ▸ h.exact_cost hfit (List.mem_of_getElem? hentry) hproduction hs
  have hsettled : (yields.settle best).settled =
      fun m => if m = best.index then some (grammar.weighted.nodeCost + s) else yields.settled m := by
    funext m
    rw [Yields.settled, settle_cost (h.costs_length.symm ▸ hindex)]
    split
    · rw [Option.map_some, hexact]
    · rfl
  have hmem : parts best.production.steps ∈ grammar.weighted.productions best.index :=
    mem_productions.2 ⟨entry, _, hentry, hproduction, rfl⟩
  have hleast : ∀ m, yields.settled m = none → ∀ other ∈ grammar.weighted.productions m, ∀ r,
      grammar.weighted.settledCost yields.settled other = some r →
        grammar.weighted.nodeCost + s ≤ grammar.weighted.nodeCost + r := by
    intro m hm other hother r hr
    obtain ⟨entry', production, hentry', hproduction', rfl⟩ := mem_productions.1 hother
    have hcost' : yields.productionCost production =
        some (grammar.weighted.nodeCost + r).wrapped := by
      rw [productionCost_eq grammar, hr, Option.map_some]
    have hle := hchosen.least best hbest (m, production)
      (mem_openProductions.2 ⟨hm, entry', hentry', hproduction'⟩) _ hcost'
    rwa [hexact, h.exact_cost hfit (List.mem_of_getElem? hentry') hproduction' hr] at hle
  refine ⟨⟨?_, ?_, ?_, fun i c hc hshort => ?_⟩, hopen, hindex⟩
  · rw [Yields.settle, List.length_set, h.costs_length]
  · rw [Yields.settle]
    dsimp only
    split
    · exact h.spellings_length
    · rw [List.length_set, h.spellings_length]
  · rw [hsettled]
    exact h.cheapest.settle Cost.nonneg hopen hmem hs hleast
  · rw [settle_cost (h.costs_length.symm ▸ hindex)] at hc
    have hlength := h.spellings_length.symm ▸ hindex
    split at hc
    · rename_i heq
      cases hc
      subst heq
      rw [settle_spelling hlength _ fun _ => hshort, if_pos rfl, hexact]
      refine .single hmem (h.spell hs ?_)
      have htokens : best.cost.tokens = (grammar.weighted.nodeCost + s).tokens :=
        congrArg Cost.tokens hexact
      rw [htokens, Cost.tokens_add] at hshort
      exact Nat.le_trans (Nat.le_add_left _ _) hshort
    · rename_i hne
      rw [settle_spelling hlength i fun heq => absurd heq hne, if_neg hne]
      exact h.spelled i c hc hshort

end Sound

/-! ## All rounds -/

/-- The variables without a cost. -/
def Yields.openCount (yields : Yields) : Nat := yields.costs.countP Option.isNone

theorem openCount_settle (hindex : best.index < yields.costs.length)
    (hopen : yields.settled best.index = none) :
    (yields.settle best).openCount + 1 = yields.openCount := by
  have hnone : yields.costs[best.index] = none := by
    simpa [Yields.settled, Yields.cost, hindex] using hopen
  have hpos : 0 < yields.costs.countP Option.isNone :=
    List.countP_pos_iff.2 ⟨_, List.getElem_mem hindex, by rw [hnone]; rfl⟩
  rw [Yields.openCount, Yields.openCount, Yields.settle, List.countP_set hindex, hnone]
  simp only [Option.isNone_none, Option.isNone_some, if_true, Bool.false_eq_true, if_false,
    Nat.add_zero]
  exact Nat.sub_add_cancel hpos

/-- Nothing more can be settled. -/
def Exhausted (grammar : SyntaxGrammar) (yields : Yields) : Prop :=
  ∀ i, yields.settled i = none → ∀ other ∈ grammar.weighted.productions i,
    grammar.weighted.settledCost yields.settled other = none

theorem exhausted_of_cheapest (hnone : cheapest grammar yields = none) : Exhausted grammar yields := by
  intro i hi other hother
  obtain ⟨entry, production, hentry, hproduction, rfl⟩ := mem_productions.1 hother
  have hcost := (chosen_cheapest grammar yields).none_ready hnone (i, production)
    (mem_openProductions.2 ⟨hi, entry, hentry, hproduction⟩)
  rw [productionCost_eq grammar] at hcost
  exact Option.map_eq_none_iff.1 hcost

theorem exhausted_of_openCount (h : Sound grammar yields) (hzero : yields.openCount = 0) :
    Exhausted grammar yields := by
  intro i hi other hother
  obtain ⟨entry, production, hentry, hproduction, rfl⟩ := mem_productions.1 hother
  have hlt : i < yields.costs.length := h.costs_length.symm ▸ (List.getElem?_eq_some_iff.1 hentry).1
  have hnone : yields.costs[i] = none := by simpa [Yields.settled, Yields.cost, hlt] using hi
  have hsome := List.countP_eq_zero.1 hzero _ (List.getElem_mem hlt)
  rw [hnone] at hsome
  exact absurd rfl hsome

theorem rounds_sound (hfit : CostsFit grammar) {n : Nat} (h : Sound grammar yields)
    (hn : yields.openCount ≤ n) :
    Sound grammar (rounds grammar n yields) ∧ Exhausted grammar (rounds grammar n yields) := by
  induction n generalizing yields with
  | zero => exact ⟨h, exhausted_of_openCount h (Nat.le_zero.1 hn)⟩
  | succ n ih =>
      rw [rounds]
      cases hbest : cheapest grammar yields with
      | none => exact ⟨h, exhausted_of_cheapest hbest⟩
      | some best =>
          obtain ⟨hnext, hopen, hindex⟩ := h.settle hfit hbest
          have hcount := openCount_settle (h.costs_length.symm ▸ hindex) hopen
          exact ih hnext (Nat.le_of_succ_le_succ (hcount.trans_le hn))

theorem computeShortestYields_sound (hfit : CostsFit grammar) :
    Sound grammar (computeShortestYields grammar) ∧
      Exhausted grammar (computeShortestYields grammar) := by
  have hnone (i : Nat) : Yields.cost
      { costs := List.replicate grammar.variables.length none
        spellings := List.replicate grammar.variables.length [] } i = none := by
    simp only [Yields.cost, List.getElem?_replicate]
    split <;> rfl
  refine rounds_sound hfit ⟨List.length_replicate, List.length_replicate,
    cheapest_of_none fun i => ?_, fun i c hc => ?_⟩ ?_
  · rw [Yields.settled, hnone, Option.map_none]
  · rw [hnone] at hc
    cases hc
  · exact Nat.le_trans List.countP_le_length (Nat.le_of_eq List.length_replicate)

/-! ## Closers -/

/-- What a candidate gets behind its tokens is derived from the steps. -/
theorem spellRest_derives (h : Sound grammar yields) {candidate final : Candidate}
    (hspelled : yields.spellRest steps candidate = some final) :
    final.stepIndex = candidate.stepIndex ∧ ∃ ts k, final.tokens = candidate.tokens ++ ts ∧
      grammar.weighted.Derives (parts steps) ts k := by
  induction steps generalizing candidate with
  | nil =>
      cases hspelled
      exact ⟨rfl, [], 0, (List.append_nil _).symm, .nil⟩
  | cons step steps ih =>
      rw [Yields.spellRest] at hspelled
      rw [parts, List.map_cons, ← parts]
      by_cases hstep : step.symbol.isNonTerminal = true
      · rw [if_pos hstep] at hspelled
        obtain ⟨cost, hcost, hspelled⟩ := Option.bind_eq_some_iff.1 hspelled
        split at hspelled
        · rename_i hshort
          obtain ⟨hindex, ts, k, htokens, hrest⟩ := ih hspelled
          rw [part_nonterminal hstep]
          exact ⟨hindex, _, _, htokens.trans (List.append_assoc _ _ _),
            (h.spelled _ cost hcost hshort).append hrest⟩
        · cases hspelled
      · rw [if_neg hstep] at hspelled
        obtain ⟨hindex, ts, k, htokens, hrest⟩ := ih hspelled
        rw [part_terminal hstep]
        exact ⟨hindex, _, _, htokens.trans (List.append_assoc _ _ _), .terminal hrest⟩

/-- A closer finishes an unfinished item of the kernel. -/
def Finishes (grammar : SyntaxGrammar) (kernel : List ParseItem) (closer : EofCloser) : Prop :=
  ∃ item ∈ kernel, item.isAugmented = false ∧ item.isDone = false ∧ closer.matched = item.stepIndex ∧
    ∃ k, grammar.weighted.Derives (parts item.unmatched) closer.tokens k

theorem candidate_finishes (h : Sound grammar yields) {item : ParseItem} {candidate : Candidate}
    (hcandidate : yields.candidate item = some candidate) {kernel : List ParseItem}
    (hitem : item ∈ kernel) :
    Finishes grammar kernel { matched := candidate.stepIndex, tokens := candidate.tokens } := by
  unfold Yields.candidate at hcandidate
  split at hcandidate
  · cases hcandidate
  · rename_i hopen
    obtain ⟨hspelled, -⟩ := Option.filter_eq_some_iff.1 hcandidate
    obtain ⟨hindex, ts, k, htokens, hderives⟩ := spellRest_derives h hspelled
    simp only [Bool.or_eq_true, not_or, Bool.not_eq_true] at hopen
    exact ⟨item, hitem, hopen.1, hopen.2, hindex, k, htokens ▸ hderives⟩

theorem addCloser_nodup {closers : List EofCloser} (h : (closers.map (·.tokens)).Nodup)
    (candidate : Candidate) : ((addCloser closers candidate).map (·.tokens)).Nodup := by
  unfold addCloser
  split
  · exact h
  · split
    · exact h
    · rename_i hnew
      rw [List.map_append]
      refine List.nodup_append.2 ⟨h, List.nodup_singleton _, ?_⟩
      rintro _ hold _ hadded rfl
      obtain ⟨closer, hcloser, heq⟩ := List.mem_map.1 hold
      rw [List.map_singleton, List.mem_singleton] at hadded
      exact hnew (List.any_eq_true.2 ⟨closer, hcloser, beq_iff_eq.2 (heq.trans hadded)⟩)

theorem mem_addCloser {closers : List EofCloser} {candidate : Candidate} {closer : EofCloser}
    (h : closer ∈ addCloser closers candidate) : closer ∈ closers ∨
      closer = { matched := candidate.stepIndex, tokens := candidate.tokens } := by
  unfold addCloser at h
  split at h
  · exact .inl h
  · split at h
    · exact .inl h
    · simpa using h

theorem foldl_addCloser {candidates : List Candidate} {closers : List EofCloser}
    {holds : EofCloser → Prop} (hnodup : (closers.map (·.tokens)).Nodup)
    (hclosers : ∀ closer ∈ closers, holds closer)
    (hcandidates : ∀ candidate ∈ candidates,
      holds { matched := candidate.stepIndex, tokens := candidate.tokens }) :
    ((candidates.foldl addCloser closers).map (·.tokens)).Nodup ∧
      ∀ closer ∈ candidates.foldl addCloser closers, holds closer := by
  induction candidates generalizing closers with
  | nil => exact ⟨hnodup, hclosers⟩
  | cons candidate candidates ih =>
      refine ih (addCloser_nodup hnodup candidate) (fun closer hcloser => ?_) fun other hother =>
        hcandidates other (List.mem_cons_of_mem _ hother)
      rcases mem_addCloser hcloser with hold | rfl
      · exact hclosers closer hold
      · exact hcandidates candidate List.mem_cons_self

theorem eofClosers_finish (h : Sound grammar yields) (kernel : List ParseItem) :
    ((yields.eofClosers kernel).map (·.tokens)).Nodup ∧
      ∀ closer ∈ yields.eofClosers kernel, Finishes grammar kernel closer := by
  refine foldl_addCloser List.nodup_nil (fun closer hcloser => absurd hcloser List.not_mem_nil)
    fun candidate hcandidate => ?_
  obtain ⟨item, hitem, hcandidate⟩ := List.mem_filterMap.1 (List.mem_mergeSort.1 hcandidate)
  exact candidate_finishes h hcandidate hitem

/-! ## The theorem -/

/-- The cost and the spelling of a variable are those of a cheapest derivation, if it has any. -/
structure CheapestYield (grammar : SyntaxGrammar) (yields : Yields) (index : Nat) : Prop where
  least : ∀ c, yields.cost index = some c →
    IsLeast {k | ∃ ts, grammar.weighted.Derives [.nonterminal index] ts k} c.exact
  spelled : ∀ c, yields.cost index = some c → c.tokens ≤ kMaxEofCloserLength →
    grammar.weighted.Derives [.nonterminal index] (yields.spelling index) c.exact
  none_iff : yields.cost index = none ↔
    ¬∃ ts k, grammar.weighted.Derives [.nonterminal index] ts k

/-- Each variable but the first is the one before it, sixteen times. -/
def sixteenfold : SyntaxGrammar :=
  { «variables» := { productions := [{ steps := [⟨⟨.terminal, 0⟩⟩] }] } ::
      (List.range 16).map fun i =>
        { productions := [{ steps := List.replicate 16 ⟨⟨.nonTerminal, i⟩⟩ }] } }

theorem tokens_pos (hproductions : ∀ i, ∀ production ∈ grammar.weighted.productions i,
    production ≠ []) {sequence : List (Part Symbol Nat)} {ts : List Symbol}
    (h : grammar.weighted.Derives sequence ts k) (hne : sequence ≠ []) : 0 < k.tokens := by
  induction h with
  | nil => exact absurd rfl hne
  | terminal hrest => exact Nat.lt_of_lt_of_le Nat.one_pos (Nat.le_add_right 1 _)
  | nonterminal hmem _ _ ih _ =>
      have hpos := ih (hproductions _ _ hmem)
      rw [Cost.tokens_add, Cost.tokens_add]
      exact Nat.lt_of_lt_of_le hpos (Nat.le_trans (Nat.le_add_left _ _) (Nat.le_add_right _ _))

end Ned.Editor.Grammar
