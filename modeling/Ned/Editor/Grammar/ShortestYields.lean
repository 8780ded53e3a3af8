import Mathlib.Algebra.Group.Nat.Defs
import Ned.Editor.Grammar.Tables

/-!
# Shortest yields

The cheapest terminal string each variable derives, and from these the strings that close what a
document leaves open at its end. Costs are kept in `size_t`, and wrap.
-/

namespace Ned.Editor.Grammar

structure ProductionStep where
  symbol : Symbol
  deriving DecidableEq

structure Production where
  steps : List ProductionStep
  deriving DecidableEq

structure SyntaxVariable where
  productions : List Production
  deriving DecidableEq

structure SyntaxGrammar where
  «variables» : List SyntaxVariable
  deriving DecidableEq

/-! ## Costs -/

def sizeT (n : Nat) : Nat := n % 2 ^ 64

structure YieldCost where
  tokens : Nat := 0
  externals : Nat := 0
  nodes : Nat := 0
  deriving DecidableEq

namespace YieldCost

def plus (cost other : YieldCost) : YieldCost :=
  { tokens := sizeT (cost.tokens + other.tokens)
    externals := sizeT (cost.externals + other.externals)
    nodes := sizeT (cost.nodes + other.nodes) }

/-- In this order: terminals, externals, nodes. -/
def less (cost other : YieldCost) : Bool :=
  cost.tokens < other.tokens || cost.tokens == other.tokens &&
    (cost.externals < other.externals || cost.externals == other.externals &&
      cost.nodes < other.nodes)

end YieldCost

def kMaxEofCloserLength : Nat := 16

def kMaxEofClosersPerState : Nat := 4

def terminalCost (symbol : Symbol) : YieldCost :=
  { tokens := 1, externals := if symbol.isExternal then 1 else 0 }

/-! ## Yields -/

/-- Per variable: the cost of its cheapest spelling, and that spelling, empty where it is too long. -/
structure Yields where
  costs : List (Option YieldCost)
  spellings : List (List Symbol)
  deriving DecidableEq

namespace Yields

def cost (yields : Yields) (index : Nat) : Option YieldCost := (yields.costs[index]?).join

def spelling (yields : Yields) (index : Nat) : List Symbol := (yields.spellings[index]?).getD []

def stepCost (yields : Yields) (symbol : Symbol) : Option YieldCost :=
  if symbol.isNonTerminal then yields.cost symbol.index else some (terminalCost symbol)

/-- `none` when a variable has no cost yet. -/
def addSteps (yields : Yields) : List ProductionStep → YieldCost → Option YieldCost
  | [], total => some total
  | step :: steps, total =>
      (yields.stepCost step.symbol).bind fun c => yields.addSteps steps (total.plus c)

def productionCost (yields : Yields) (production : Production) : Option YieldCost :=
  yields.addSteps production.steps { nodes := 1 }

def spell (yields : Yields) (steps : List ProductionStep) : List Symbol :=
  steps.flatMap fun step =>
    if step.symbol.isNonTerminal then yields.spelling step.symbol.index else [step.symbol]

end Yields

/-- The cheapest variable so far, and how it is spelled. -/
structure Best where
  index : Nat
  cost : YieldCost
  production : Production
  deriving DecidableEq

def Best.improves (best : Option Best) (cost : YieldCost) : Bool :=
  match best with
  | none => true
  | some best => cost.less best.cost

def considerProduction (yields : Yields) (index : Nat) (best : Option Best)
    (production : Production) : Option Best :=
  match yields.productionCost production with
  | none => best
  | some cost =>
      if Best.improves best cost then some { index := index, cost := cost, production := production }
      else best

def considerVariable (yields : Yields) (best : Option Best) (entry : SyntaxVariable × Nat) :
    Option Best :=
  if (yields.cost entry.2).isSome then best
  else entry.1.productions.foldl (considerProduction yields entry.2) best

def cheapest (grammar : SyntaxGrammar) (yields : Yields) : Option Best :=
  grammar.variables.zipIdx.foldl (considerVariable yields) none

def Yields.settle (yields : Yields) (best : Best) : Yields :=
  { costs := yields.costs.set best.index (some best.cost)
    spellings :=
      if best.cost.tokens > kMaxEofCloserLength then yields.spellings
      else yields.spellings.set best.index (yields.spell best.production.steps) }

def rounds (grammar : SyntaxGrammar) : Nat → Yields → Yields
  | 0, yields => yields
  | n + 1, yields =>
      match cheapest grammar yields with
      | none => yields
      | some best => rounds grammar n (yields.settle best)

def computeShortestYields (grammar : SyntaxGrammar) : Yields :=
  let count := grammar.variables.length
  rounds grammar count { costs := List.replicate count none, spellings := List.replicate count [] }

/-! ## Closers -/

def kAugmentedVariable : Nat := 2 ^ 32 - 1

structure ParseItem where
  variableIndex : Nat
  stepIndex : Nat
  production : Production
  deriving DecidableEq

namespace ParseItem

def isDone (item : ParseItem) : Bool := item.stepIndex == item.production.steps.length

def isAugmented (item : ParseItem) : Bool := item.variableIndex == kAugmentedVariable

/-- The steps that are still to be matched. -/
def unmatched (item : ParseItem) : List ProductionStep := item.production.steps.drop item.stepIndex

end ParseItem

structure EofCloser where
  matched : Nat := 0
  tokens : List Symbol
  deriving DecidableEq

structure Candidate where
  tokens : List Symbol := []
  cost : YieldCost := {}
  stepIndex : Nat
  deriving DecidableEq

/-- Cheapest first; between equals the item further along. -/
def Candidate.less (a b : Candidate) : Bool :=
  if a.cost.tokens ≠ b.cost.tokens then a.cost.tokens < b.cost.tokens
  else if a.cost.externals ≠ b.cost.externals then a.cost.externals < b.cost.externals
  else if a.stepIndex ≠ b.stepIndex then a.stepIndex > b.stepIndex
  else a.cost.nodes < b.cost.nodes

/-- Spells the steps behind what the candidate has, `none` when one of them is not spelled. -/
def Yields.spellRest (yields : Yields) : List ProductionStep → Candidate → Option Candidate
  | [], candidate => some candidate
  | step :: steps, candidate =>
      if step.symbol.isNonTerminal then
        (yields.cost step.symbol.index).bind fun cost =>
          if cost.tokens ≤ kMaxEofCloserLength then
            yields.spellRest steps
              { candidate with
                tokens := candidate.tokens ++ yields.spelling step.symbol.index
                cost := candidate.cost.plus cost }
          else none
      else
        yields.spellRest steps
          { candidate with
            tokens := candidate.tokens ++ [step.symbol]
            cost := candidate.cost.plus (terminalCost step.symbol) }

def Yields.candidate (yields : Yields) (item : ParseItem) : Option Candidate :=
  if item.isAugmented || item.isDone then none
  else
    (yields.spellRest item.unmatched { stepIndex := item.stepIndex }).filter fun candidate =>
      !candidate.tokens.isEmpty && candidate.tokens.length ≤ kMaxEofCloserLength

def addCloser (closers : List EofCloser) (candidate : Candidate) : List EofCloser :=
  if closers.length = kMaxEofClosersPerState then closers
  else if closers.any fun closer => closer.tokens == candidate.tokens then closers
  else closers ++ [{ matched := candidate.stepIndex, tokens := candidate.tokens }]

/-- The rest of each unfinished item of a kernel, spelled out in terminals. -/
def Yields.eofClosers (yields : Yields) (kernel : List ParseItem) : List EofCloser :=
  let candidates := kernel.filterMap yields.candidate
  (candidates.mergeSort fun a b => !b.less a).foldl addCloser []

end Ned.Editor.Grammar
