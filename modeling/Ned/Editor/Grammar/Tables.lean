import Ned.Editor.Grammar.CharacterSet
import Ned.Editor.Parse.Lexer
import Mathlib.Algebra.Ring.Nat

/-!
# Lex tables

What the lexer compiler computes, and the lexer it describes.
-/

namespace Ned.Editor.Grammar

open Parse (Lexer)

inductive SymbolType
  | external
  | «end»
  | endOfNonTerminalExtra
  | terminal
  | nonTerminal
  deriving DecidableEq

structure Symbol where
  kind : SymbolType := .«end»
  index : Nat := 0
  deriving DecidableEq

structure AdvanceAction where
  state : Nat := 0
  inMainToken : Bool := false
  deriving DecidableEq

structure LexState where
  acceptAction : Option Symbol := none
  eofAction : Option AdvanceAction := none
  advanceActions : List (CharacterSet × AdvanceAction) := []
  deriving DecidableEq

abbrev LexTable := List LexState

/-- A table's symbols have their ids by then. -/
abbrev SymbolIds := Symbol → Option Nat

/-- The action whose set holds a character. -/
def LexState.advanceOn (state : LexState) (c : Nat) : Option AdvanceAction :=
  (state.advanceActions.find? (·.1.contains c)).map (·.2)

/-- What a state says to do at a lookahead. An advance action is for a character; the end of the text
is none. -/
def LexState.advanceAt (state : LexState) (lookahead : Int) (eof : Bool) : Option AdvanceAction :=
  if eof || lookahead < 0 then none else state.advanceOn lookahead.toNat

/-- The lexer a table describes. -/
def LexTable.lex (ids : SymbolIds) (table : LexTable) :
    Nat → Bool → Lexer → Nat → Option (Bool × Lexer)
  | 0, _, _, _ => none
  | fuel + 1, result, lexer, i =>
      match table[i]? with
      | none => some (false, lexer)
      | some state =>
          let lookahead := lexer.lookahead
          let eof := lexer.atEof
          let accept := state.acceptAction.bind ids
          let result := result || accept.isSome
          let lexer := lexer.recordAccept accept
          match state.eofAction.filter fun _ => eof with
          | some action => lex ids table fuel result (lexer.advance false) action.state
          | none =>
              match state.advanceAt lookahead eof with
              | some action =>
                  lex ids table fuel result (lexer.advance !action.inMainToken) action.state
              | none => some (result, lexer)

end Ned.Editor.Grammar

/-!
## Parse tables

What the grammar compiler computes, before it is stored in cells.
-/

namespace Ned.Editor.Grammar

namespace Symbol

def «end» : Symbol := { kind := .«end» }

def endOfNonTerminalExtra : Symbol := { kind := .endOfNonTerminalExtra }

/-- The end of a non-terminal extra has no number of its own. -/
def lookedUpAs (symbol : Symbol) : Symbol :=
  if symbol = endOfNonTerminalExtra then «end» else symbol

def isTerminal (symbol : Symbol) : Bool := symbol.kind == .terminal

def isNonTerminal (symbol : Symbol) : Bool := symbol.kind == .nonTerminal

def isExternal (symbol : Symbol) : Bool := symbol.kind == .external

def isEof (symbol : Symbol) : Bool := symbol.kind == .«end»

end Symbol

inductive ParseAction
  | accept
  | shift (state : Nat) (isRepetition : Bool)
  | shiftExtra
  | recover
  | reduce (symbol : Symbol) (childCount : Nat) (dynamicPrecedence : Int) (productionId : Nat)
  deriving DecidableEq

structure ParseTableEntry where
  actions : List ParseAction
  reusable : Bool := true
  deriving DecidableEq

structure GotoAction where
  shiftExtra : Bool := false
  state : Nat := 0
  deriving DecidableEq

structure ParseState where
  terminalEntries : List (Symbol × ParseTableEntry) := []
  nonterminalEntries : List (Symbol × GotoAction) := []
  deriving DecidableEq

structure FieldLocation where
  index : Nat := 0
  inherited : Bool := false
  deriving DecidableEq

structure ProductionInfo where
  fieldMap : List (String × List FieldLocation) := []
  deriving DecidableEq

structure ParseTable where
  states : List ParseState
  symbols : List Symbol
  productionInfos : List ProductionInfo := []
  deriving DecidableEq

/-- The state that a goto of state `i` leads to. -/
def GotoAction.target (action : GotoAction) (i : Nat) : Nat :=
  if action.shiftExtra then i else action.state

end Ned.Editor.Grammar

/-!
## The lexer as the generator would have emitted it

The rendering of a lex table in `Editor/Grammar/Compile/Tables.cpp`.
-/

namespace Ned.Editor.Grammar

open Parse (LexClause LexDfaTransition LexDfaState LexDfa LexCharacterRange LargeCharacterSets)

def kLargeCharacterRangeCount : Nat := 8

/-- The width of a state's number in a transition. -/
def uint16 (n : Nat) : Nat := n % 2 ^ 16

theorem uint16_of_lt {n : Nat} (h : n < 2 ^ 16) : uint16 n = n := Nat.mod_eq_of_lt h

theorem uint16_lt (n : Nat) : uint16 n < 2 ^ 16 := Nat.mod_lt n (Nat.two_pow_pos 16)

/-! ## Conditions -/

def includedConditions (range : CodepointRange) : List LexClause :=
  let start := range.start
  let last := range.stop - 1
  if start = 0 then
    [{ kind := if last = 0 then .nulUnlessEof else .atMostUnlessEof, start := 0, last := last }]
  else if last = start then
    [{ kind := .equal, start := start, last := last }]
  else if last = start + 1 then
    [{ kind := .equal, start := start, last := start }, { kind := .equal, start := last, last := last }]
  else
    [{ kind := .between, start := start, last := last }]

def excludedConditions (range : CodepointRange) : List LexClause :=
  let start := range.start
  let last := range.stop - 1
  if last = start then
    [{ kind := .notEqual, start := start, last := last }]
  else if last = start + 1 then
    [{ kind := .notEqual, start := start, last := start },
      { kind := .notEqual, start := last, last := last }]
  else if start ≠ 0 then
    [{ kind := .outside, start := start, last := last }]
  else
    [{ kind := .greater, start := start, last := last }]

def addRangeConditions (set : CharacterSet) (included : Bool) : List LexClause :=
  set.ranges.flatMap fun range =>
    if included then includedConditions range else excludedConditions range

/-! ## Transitions -/

/-- Whether an action is fit for an ADVANCE_MAP. -/
def isSimple (chars : CharacterSet) (action : AdvanceAction) : Bool :=
  action.inMainToken &&
    chars.ranges.all fun r => r.stop - 1 ≤ r.start + 1 && r.stop - 1 ≤ 0xFFFF

/-- The leading actions that are fit for an ADVANCE_MAP, when there are enough of them. -/
def leadingActions (actions : List (CharacterSet × AdvanceAction)) :
    List (CharacterSet × AdvanceAction) :=
  let leading := actions.takeWhile fun (chars, action) => isSimple chars action
  if (leading.map (·.1.rangeCount)).sum ≥ 8 then leading else []

def mapConditions (range : CodepointRange) : List LexClause :=
  { kind := .equal, start := range.start, last := range.start } ::
    if range.stop - 1 > range.start then
      [{ kind := .equal, start := ↑(range.stop - 1), last := range.stop - 1 }]
    else []

/-- A plain `==` per character, with no guard at the end of the text. -/
def mapTransition (chars : CharacterSet) (action : AdvanceAction) : LexDfaTransition where
  nextState := uint16 action.state
  inMainToken := true
  conditional := true
  assertedAnyOf := true
  asserted := chars.ranges.flatMap mapConditions

/-- A large set a transition can share, with what it lacks and has too much. -/
structure SharedSet where
  index : Nat
  set : CharacterSet
  additions : CharacterSet
  removals : CharacterSet
  deriving DecidableEq

def SharedSet.total (shared : SharedSet) : Nat :=
  shared.additions.rangeCount + shared.removals.rangeCount

/-- How a large set would do for a transition. -/
def shareSet (simplified ruledOut : CharacterSet) (index : Nat) (largeSet : CharacterSet) :
    Option SharedSet :=
  let (intersection, charsLeft, largeLeft) := simplified.removeIntersection largeSet
  let shared :=
    { index := index
      set := largeSet
      additions := charsLeft.simplifyIgnoring ruledOut
      removals := largeLeft.simplifyIgnoring ruledOut }
  if intersection.isEmpty || shared.total ≥ simplified.rangeCount then none else some shared

/-- Of the large sets, one with which the fewest ranges are left; the last of them. -/
def bestSharedSet (simplified ruledOut : CharacterSet) :
    Nat → Option SharedSet → List CharacterSet → Option SharedSet
  | _, best, [] => best
  | i, best, largeSet :: largeSets =>
      let best :=
        match shareSet simplified ruledOut i largeSet with
        | none => best
        | some shared =>
            if best.any fun best => best.total < shared.total then best else some shared
      bestSharedSet simplified ruledOut (i + 1) best largeSets

/-- A set holding the maximum codepoint came from a negated class; it is checked as exclusions, with
NUL excluded too. -/
def assertedClauses (asserted : CharacterSet) : Bool × List LexClause :=
  if asserted.isEmpty then (true, [])
  else if asserted.contains (kCodepointEnd - 1) then
    (false, addRangeConditions (asserted.negate.addChar 0) false)
  else (true, addRangeConditions asserted true)

def conditionTransition (largeSets : List CharacterSet) (ruledOut chars : CharacterSet)
    (action : AdvanceAction) : LexDfaTransition :=
  let simplified := chars.simplifyIgnoring ruledOut
  let shared :=
    if simplified.rangeCount ≥ kLargeCharacterRangeCount then
      bestSharedSet simplified ruledOut 0 none largeSets
    else none
  let asserted := (shared.map (·.additions)).getD simplified
  let negated := (shared.map (·.removals)).getD {}
  let (anyOf, clauses) := assertedClauses asserted
  { nextState := uint16 action.state
    inMainToken := action.inMainToken
    conditional := shared.isSome || !asserted.isEmpty || !negated.isEmpty
    largeSet := shared.map (·.index)
    largeSetCheckEof := shared.any (·.set.contains 0)
    assertedAnyOf := anyOf
    asserted := clauses
    negated := addRangeConditions negated false }

def conditionTransitions (largeSets : List CharacterSet) :
    CharacterSet → List (CharacterSet × AdvanceAction) → List LexDfaTransition
  | _, [] => []
  | ruledOut, (chars, action) :: actions =>
      conditionTransition largeSets ruledOut chars action ::
        conditionTransitions largeSets (ruledOut.add chars) actions

def renderTransitions (largeSets : List CharacterSet)
    (actions : List (CharacterSet × AdvanceAction)) : List LexDfaTransition :=
  let leading := leadingActions actions
  let ruledOut := leading.foldl (fun ruledOut (chars, _) => ruledOut.add chars) {}
  leading.map (fun (chars, action) => mapTransition chars action) ++
    conditionTransitions largeSets ruledOut (actions.drop leading.length)

/-! ## States -/

/-- `ids.at` throws on a symbol without an id. -/
def renderState (largeSets : List CharacterSet) (ids : SymbolIds) (state : LexState) :
    Option LexDfaState := do
  let accept ←
    match state.acceptAction with
    | none => some none
    | some symbol => (ids symbol).map some
  some
    { accept := accept
      eof := state.eofAction.map fun action => uint16 action.state
      transitions := renderTransitions largeSets state.advanceActions }

def renderLexDfa (table : LexTable) (largeSets : List CharacterSet) (ids : SymbolIds) :
    Option LexDfa :=
  table.mapM (renderState largeSets ids)

/-- The ranges of a large set, as the language holds them. -/
def renderLargeSet (set : CharacterSet) : List LexCharacterRange :=
  set.ranges.map fun range => { start := range.start, last := range.stop - 1 }

def renderLargeSets (largeSets : List CharacterSet) : LargeCharacterSets :=
  largeSets.map renderLargeSet

end Ned.Editor.Grammar
