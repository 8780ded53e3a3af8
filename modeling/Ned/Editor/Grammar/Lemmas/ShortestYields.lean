import Mathlib.Algebra.Order.Monoid.Prod
import Mathlib.Algebra.Order.Ring.Nat
import Mathlib.Order.Bounds.Defs
import Ned.Editor.Grammar.ShortestYields
import Ned.Library.Derivations

/-!
# Lemmas for the shortest yields
-/

namespace Ned.Editor.Grammar

open Library WeightedGrammar

/-! ## Costs without a bound -/

/-- Terminals, externals and nodes, compared in this order. -/
abbrev Cost := ℕ ×ₗ ℕ ×ₗ ℕ

def Cost.of (tokens externals nodes : Nat) : Cost := toLex (tokens, toLex (externals, nodes))

namespace Cost

variable (k l : Cost)

def tokens : Nat := (ofLex k).1

def externals : Nat := (ofLex (ofLex k).2).1

def nodes : Nat := (ofLex (ofLex k).2).2

/-- No part of the cost wraps. -/
def Fits : Prop := k.tokens < 2 ^ 64 ∧ k.externals < 2 ^ 64 ∧ k.nodes < 2 ^ 64

instance : Decidable k.Fits := inferInstanceAs (Decidable (_ ∧ _ ∧ _))

/-- The cost as the code keeps it. -/
def wrapped : YieldCost :=
  { tokens := sizeT k.tokens, externals := sizeT k.externals, nodes := sizeT k.nodes }

@[simp] theorem tokens_add : (k + l).tokens = k.tokens + l.tokens := rfl

@[simp] theorem externals_add : (k + l).externals = k.externals + l.externals := rfl

@[simp] theorem nodes_add : (k + l).nodes = k.nodes + l.nodes := rfl

theorem nonneg : 0 ≤ k := by
  rcases Nat.eq_zero_or_pos k.tokens with h | h
  · rcases Nat.eq_zero_or_pos k.externals with h' | h'
    · refine Prod.Lex.le_iff.2 (.inr ⟨h.symm, Prod.Lex.le_iff.2 (.inr ⟨h'.symm, Nat.zero_le _⟩)⟩)
    · exact Prod.Lex.le_iff.2 (.inr ⟨h.symm, Prod.Lex.le_iff.2 (.inl h')⟩)
  · exact Prod.Lex.le_iff.2 (.inl h)

end Cost

namespace YieldCost

def exact (cost : YieldCost) : Cost := Cost.of cost.tokens cost.externals cost.nodes

@[simp] theorem exact_tokens (cost : YieldCost) : cost.exact.tokens = cost.tokens := rfl

theorem exact_wrapped {k : Cost} (h : k.Fits) : k.wrapped.exact = k := by
  simp only [Cost.wrapped, sizeT, Nat.mod_eq_of_lt h.1, Nat.mod_eq_of_lt h.2.1,
    Nat.mod_eq_of_lt h.2.2]
  rfl

theorem wrapped_plus (k : Cost) (cost : YieldCost) :
    k.wrapped.plus cost = (k + cost.exact).wrapped := by
  simp only [plus, Cost.wrapped, sizeT, Nat.mod_add_mod, Cost.tokens_add, Cost.externals_add,
    Cost.nodes_add]
  rfl

theorem less_iff (cost other : YieldCost) : cost.less other = true ↔ cost.exact < other.exact := by
  simp only [less, Bool.or_eq_true, Bool.and_eq_true, decide_eq_true_eq, beq_iff_eq]
  rw [exact, exact, Cost.of, Cost.of, Prod.Lex.toLex_lt_toLex, Prod.Lex.toLex_lt_toLex]

end YieldCost

/-! ## The grammar and its derivations -/

def Symbol.part (symbol : Symbol) : Part Symbol Nat :=
  if symbol.isNonTerminal then .nonterminal symbol.index else .terminal symbol

def parts (steps : List ProductionStep) : List (Part Symbol Nat) := steps.map (·.symbol.part)

/-- What each terminal and each node adds to a cost. -/
def SyntaxGrammar.weighted (grammar : SyntaxGrammar) : WeightedGrammar Symbol Nat Cost where
  productions index := ((grammar.variables[index]?).map fun entry =>
    entry.productions.map fun production => parts production.steps).getD []
  terminalCost symbol := (terminalCost symbol).exact
  nodeCost := Cost.of 0 0 1

variable {grammar : SyntaxGrammar} {yields : Yields} {steps : List ProductionStep}
  {step : ProductionStep} {k : Cost}

theorem mem_productions {index : Nat} {sequence : List (Part Symbol Nat)} :
    sequence ∈ grammar.weighted.productions index ↔ ∃ entry production,
      grammar.variables[index]? = some entry ∧ production ∈ entry.productions ∧
        sequence = parts production.steps := by
  cases h : grammar.variables[index]? with
  | none => simp [SyntaxGrammar.weighted, h]
  | some entry => simp [SyntaxGrammar.weighted, h, eq_comm]

theorem part_nonterminal {symbol : Symbol} (h : symbol.isNonTerminal = true) :
    symbol.part = .nonterminal symbol.index := if_pos h

theorem part_terminal {symbol : Symbol} (h : ¬symbol.isNonTerminal = true) :
    symbol.part = .terminal symbol := if_neg h

/-- The costs settled so far. -/
def Yields.settled (yields : Yields) (index : Nat) : Option Cost :=
  (yields.cost index).map YieldCost.exact

theorem settledCost_part (steps : List ProductionStep) :
    grammar.weighted.settledCost yields.settled (parts (step :: steps)) =
      ((yields.stepCost step.symbol).map YieldCost.exact).bind fun c =>
        (grammar.weighted.settledCost yields.settled (parts steps)).map (c + ·) := by
  rw [parts, List.map_cons, ← parts, Yields.stepCost]
  by_cases h : step.symbol.isNonTerminal = true
  · rw [part_nonterminal h, if_pos h, settledCost_nonterminal]
    rfl
  · rw [part_terminal h, if_neg h, settledCost_terminal]
    rfl

theorem addSteps_eq (total : Cost) : yields.addSteps steps total.wrapped =
    (grammar.weighted.settledCost yields.settled (parts steps)).map fun k =>
      (total + k).wrapped := by
  induction steps generalizing total with
  | nil => simp [Yields.addSteps, parts, settledCost_nil]
  | cons step steps ih =>
      rw [Yields.addSteps, settledCost_part]
      cases yields.stepCost step.symbol with
      | none => rfl
      | some c =>
          simp only [Option.bind_some, Option.map_some, YieldCost.wrapped_plus, ih, Option.map_map,
            Function.comp_def, add_assoc]

variable (grammar) in
theorem productionCost_eq (production : Production) : yields.productionCost production =
    (grammar.weighted.settledCost yields.settled (parts production.steps)).map fun k =>
      (grammar.weighted.nodeCost + k).wrapped := by
  rw [Yields.productionCost, ← addSteps_eq]
  rfl

/-! ## The cheapest candidate -/

/-- The best of the productions seen, each with the index of its variable. -/
structure Chosen (yields : Yields) (seen : List (Nat × Production)) (best : Option Best) : Prop where
  none_ready : best = none → ∀ entry ∈ seen, yields.productionCost entry.2 = none
  among : ∀ b, best = some b → (b.index, b.production) ∈ seen
  ready : ∀ b, best = some b → yields.productionCost b.production = some b.cost
  least : ∀ b, best = some b → ∀ entry ∈ seen, ∀ c, yields.productionCost entry.2 = some c →
    b.cost.exact ≤ c.exact

theorem Chosen.nil : Chosen yields [] none :=
  ⟨fun _ _ h => absurd h List.not_mem_nil, fun b h => absurd h.symm (Option.some_ne_none b),
    fun b h => absurd h.symm (Option.some_ne_none b),
    fun b h => absurd h.symm (Option.some_ne_none b)⟩

theorem Chosen.consider {seen : List (Nat × Production)} {best : Option Best}
    (h : Chosen yields seen best) (index : Nat) (production : Production) :
    Chosen yields (seen ++ [(index, production)]) (considerProduction yields index best production) := by
  have hmem {entry : Nat × Production} (hentry : entry ∈ seen ++ [(index, production)]) :
      entry ∈ seen ∨ entry = (index, production) := by simpa using hentry
  unfold considerProduction
  cases hcost : yields.productionCost production with
  | none =>
      refine ⟨fun hnone entry hentry => ?_, fun b hb => List.mem_append_left _ (h.among b hb), h.ready,
        fun b hb entry hentry c hc => ?_⟩
      · rcases hmem hentry with hentry | rfl
        · exact h.none_ready hnone entry hentry
        · exact hcost
      · rcases hmem hentry with hentry | rfl
        · exact h.least b hb entry hentry c hc
        · exact absurd (hcost.symm.trans hc) (Option.some_ne_none c).symm
  | some cost =>
      dsimp only
      split
      · rename_i himproves
        refine ⟨fun hnone => absurd hnone (Option.some_ne_none _), fun b hb => ?_, fun b hb => ?_,
          fun b hb entry hentry c hc => ?_⟩
        all_goals cases hb
        · simp
        · exact hcost
        · rcases hmem hentry with hentry | rfl
          · cases best with
            | none => exact absurd (hc.symm.trans (h.none_ready rfl entry hentry)) (Option.some_ne_none c)
            | some b =>
                have hless := (YieldCost.less_iff _ _).1 himproves
                exact hless.le.trans (h.least b rfl entry hentry c hc)
          · exact le_of_eq (congrArg YieldCost.exact (Option.some.inj (hcost.symm.trans hc)))
      · rename_i hnot
        cases best with
        | none => exact absurd rfl hnot
        | some b =>
            refine ⟨fun hnone => absurd hnone (Option.some_ne_none _),
              fun b hb => List.mem_append_left _ (h.among b hb), h.ready,
              fun b' hb entry hentry c hc => ?_⟩
            cases hb
            rcases hmem hentry with hentry | rfl
            · exact h.least b rfl entry hentry c hc
            · cases hcost.symm.trans hc
              exact not_lt.1 (mt (YieldCost.less_iff _ _).2 hnot)

theorem Chosen.considerAll {seen : List (Nat × Production)} {best : Option Best}
    (h : Chosen yields seen best) (index : Nat) (productions : List Production) :
    Chosen yields (seen ++ productions.map (index, ·))
      (productions.foldl (considerProduction yields index) best) := by
  induction productions generalizing seen best with
  | nil => simpa using h
  | cons production productions ih =>
      rw [List.foldl_cons, List.map_cons, List.append_cons]
      exact ih (h.consider index production)

def Yields.openProductions (yields : Yields) (entries : List (SyntaxVariable × Nat)) :
    List (Nat × Production) :=
  entries.flatMap fun entry =>
    if (yields.cost entry.2).isSome then [] else entry.1.productions.map (entry.2, ·)

theorem Chosen.considerVariables {seen : List (Nat × Production)} {best : Option Best}
    (h : Chosen yields seen best) (entries : List (SyntaxVariable × Nat)) :
    Chosen yields (seen ++ yields.openProductions entries)
      (entries.foldl (considerVariable yields) best) := by
  induction entries generalizing seen best with
  | nil => simpa [Yields.openProductions] using h
  | cons entry entries ih =>
      rw [Yields.openProductions, List.flatMap_cons, List.foldl_cons, considerVariable,
        ← List.append_assoc]
      apply ih
      split
      · simpa using h
      · exact h.considerAll entry.2 entry.1.productions

theorem chosen_cheapest (grammar : SyntaxGrammar) (yields : Yields) :
    Chosen yields (yields.openProductions grammar.variables.zipIdx) (cheapest grammar yields) :=
  Chosen.nil.considerVariables grammar.variables.zipIdx

theorem mem_openProductions {index : Nat} {production : Production} :
    (index, production) ∈ yields.openProductions grammar.variables.zipIdx ↔
      yields.settled index = none ∧ ∃ entry, grammar.variables[index]? = some entry ∧
        production ∈ entry.productions := by
  rw [Yields.openProductions, List.mem_flatMap]
  constructor
  · rintro ⟨⟨entry, i⟩, hentry, hmem⟩
    split at hmem
    · exact absurd hmem List.not_mem_nil
    · rename_i hopen
      obtain ⟨p, hp, heq⟩ := List.mem_map.1 hmem
      cases heq
      have hnone : yields.cost i = none := by simpa using hopen
      exact ⟨by rw [Yields.settled, hnone, Option.map_none], entry,
        List.mem_zipIdx_iff_getElem?.1 hentry, hp⟩
  · rintro ⟨hnone, entry, hentry, hp⟩
    refine ⟨(entry, index), List.mem_zipIdx_iff_getElem?.2 hentry, ?_⟩
    have hcost : ¬(yields.cost index).isSome = true := by simpa [Yields.settled] using hnone
    rw [if_neg hcost]
    exact List.mem_map_of_mem hp

end Ned.Editor.Grammar
