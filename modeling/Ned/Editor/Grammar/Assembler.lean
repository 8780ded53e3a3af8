import Ned.Editor.Grammar.Tables
import Ned.Editor.Parse.Lexer
import Ned.Library.Pool
import Mathlib.Algebra.Ring.Int.Defs

/-!
# Assembled tables

How `Assembler` of `Editor/Grammar/Compile/Tables.cpp` stores a parse table in the cells of a
language.
-/

namespace Ned.Editor.Grammar

open Library
open Parse (LanguageData MapSlice FieldMapEntry ParseActionEntry)

def kSmallStateThreshold : Nat := 64

/-! ## Cells -/

def uint8 (n : Nat) : Nat := n % 2 ^ 8

def uint32 (n : Nat) : Nat := n % 2 ^ 32

def int16 (n : Int) : Int := (n + 2 ^ 15) % 2 ^ 16 - 2 ^ 15

theorem uint16_eq_iff (n : Nat) : uint16 n = n ↔ n < 2 ^ 16 :=
  ⟨fun h => h ▸ uint16_lt n, uint16_of_lt⟩

theorem uint8_eq_iff (n : Nat) : uint8 n = n ↔ n < 2 ^ 8 :=
  ⟨fun h => h ▸ Nat.mod_lt n (Nat.two_pow_pos 8), Nat.mod_eq_of_lt⟩

theorem int16_eq_iff (n : Int) : int16 n = n ↔ -2 ^ 15 ≤ n ∧ n < 2 ^ 15 := by
  unfold int16
  omega

namespace ParseTable

/-! ## Symbols -/

variable (table : ParseTable)

/-- Where a symbol stands among the symbols. -/
def number (symbol : Symbol) : Nat := table.symbols.idxOf symbol.lookedUpAs

def symbolId (symbol : Symbol) : Nat := uint16 (table.number symbol)

/-- Whether `symbolIds.at` finds a symbol. -/
def isNumbered (symbol : Symbol) : Bool := table.number symbol < table.symbols.length

/-- What `symbolIds.at` is asked for. -/
def usedSymbols : List Symbol :=
  table.states.flatMap fun state =>
    state.terminalEntries.flatMap (fun (symbol, entry) =>
      symbol :: entry.actions.filterMap fun
        | .reduce symbol _ _ _ => some symbol
        | _ => none) ++
    state.nonterminalEntries.map (·.1)

/-- The symbols that count as tokens, given the internal tokens that external tokens stand for. -/
def isToken (externalTokens : List (Option Symbol)) (symbol : Symbol) : Bool :=
  symbol.isTerminal || symbol.isEof ||
    symbol.isExternal && (externalTokens.getD symbol.index none).isNone

def terminalEntriesById (state : ParseState) : List (Symbol × ParseTableEntry) :=
  state.terminalEntries.mergeSort fun a b => table.symbolId a.1 ≤ table.symbolId b.1

/-! ## Actions -/

/-- An action list takes a header and a cell for each action. -/
def entrySize (entry : ParseTableEntry) : Nat := 1 + entry.actions.length

abbrev ActionLists := Pool entrySize

def noActions : ParseTableEntry := { actions := [], reusable := false }

/-- The entries in the order in which the rows name them, after that of no actions. -/
def namedEntries : List ParseTableEntry :=
  noActions :: table.states.flatMap fun state => (table.terminalEntriesById state).map (·.2)

def actionLists : ActionLists := Pool.internAll {} table.namedEntries

def actionListId (entry : ParseTableEntry) : Nat := table.actionLists.place entry

def renderAction : ParseAction → Parse.ParseAction
  | .accept => .accept
  | .recover => .recover
  | .shiftExtra => .shift 0 true false
  | .shift state isRepetition => .shift (uint16 state) false isRepetition
  | .reduce symbol childCount dynamicPrecedence productionId =>
      .reduce (uint8 childCount) (table.symbolId symbol) (int16 dynamicPrecedence)
        (uint16 productionId)

def renderEntry (entry : ParseTableEntry) : List ParseActionEntry :=
  .entry (uint8 entry.actions.length) entry.reusable ::
    (entry.actions.map table.renderAction).map .action

def parseActions : List ParseActionEntry := table.actionLists.cells table.renderEntry

/-! ## Rows -/

/-- The first two states are large, and those after them for as long as they have many entries. -/
def countLargeStates (threshold : Nat) : Nat → List ParseState → Nat
  | _, [] => 0
  | i, state :: states =>
      if i ≤ 1 || state.terminalEntries.length + state.nonterminalEntries.length > threshold then
        countLargeStates threshold (i + 1) states + 1
      else 0

def largeStateCount : Nat :=
  countLargeStates (min kSmallStateThreshold (table.symbols.length / 2)) 0 table.states

def largeRow (i : Nat) (state : ParseState) : List Nat :=
  let row := List.replicate table.symbols.length 0
  let row := state.nonterminalEntries.foldl
    (fun row (symbol, action) => row.set (table.symbolId symbol) (uint16 (action.target i))) row
  (table.terminalEntriesById state).foldl
    (fun row (symbol, entry) => row.set (table.symbolId symbol) (uint16 (table.actionListId entry)))
    row

def parseTable : List Nat :=
  (table.states.take table.largeStateCount).zipIdx.flatMap fun (state, i) => table.largeRow i state

/-- Symbols of a small state that share a value. -/
structure Group where
  value : Nat
  nonTerminal : Bool
  symbols : List Symbol
  deriving DecidableEq

/-- `groupFor`, with the symbol that it is asked for. -/
def addToGroup (value : Nat) (nonTerminal : Bool) (symbol : Symbol) : List Group → List Group
  | [] => [⟨value, nonTerminal, [symbol]⟩]
  | group :: groups =>
      if group.value == value && group.nonTerminal == nonTerminal then
        { group with symbols := group.symbols ++ [symbol] } :: groups
      else group :: addToGroup value nonTerminal symbol groups

def SymbolType.rank : SymbolType → Nat
  | .external => 0
  | .«end» => 1
  | .endOfNonTerminalExtra => 2
  | .terminal => 3
  | .nonTerminal => 4

def symbolLe (a b : Symbol) : Bool :=
  SymbolType.rank a.kind < SymbolType.rank b.kind || a.kind == b.kind && a.index ≤ b.index

/-- By size, terminals before non-terminals, then by value, then by the first symbol. -/
def Group.le (a b : Group) : Bool :=
  if a.symbols.length ≠ b.symbols.length then a.symbols.length < b.symbols.length
  else if a.nonTerminal ≠ b.nonTerminal then b.nonTerminal
  else if a.value ≠ b.value then a.value < b.value
  else symbolLe (a.symbols.headD {}) (b.symbols.headD {})

/-- The groups as the engine is to walk them. -/
def groups (i : Nat) (state : ParseState) : List Group :=
  let groups := (table.terminalEntriesById state).foldl
    (fun groups (symbol, entry) => addToGroup (table.actionListId entry) false symbol groups) []
  let groups := state.nonterminalEntries.foldl
    (fun groups (symbol, action) => addToGroup (action.target i) true symbol groups) groups
  groups.mergeSort Group.le

def renderGroup (group : Group) : List Nat :=
  uint16 group.value :: uint16 group.symbols.length ::
    (group.symbols.mergeSort symbolLe).map table.symbolId

def smallRow (i : Nat) (state : ParseState) : List Nat :=
  let groups := table.groups i state
  uint16 groups.length :: groups.flatMap table.renderGroup

/-- The rows of the small states, with the state's numbers. -/
def smallRows : List (List Nat) :=
  (table.states.zipIdx.drop table.largeStateCount).map fun (state, i) => table.smallRow i state

def smallParseTable : List Nat := table.smallRows.flatten

/-- Where the row of the `k`th small state starts. -/
def smallRowStart (k : Nat) : Nat := ((table.smallRows.take k).map List.length).sum

def smallParseTableMap : List Nat :=
  (List.range table.smallRows.length).map fun k => uint32 (table.smallRowStart k)

/-! ## Fields -/

/-- Names in their order, each once. -/
def insertName (name : String) : List String → List String
  | [] => [name]
  | n :: names =>
      if n < name then n :: insertName name names
      else if n = name then n :: names
      else name :: n :: names

def fieldNames : List String :=
  (table.productionInfos.flatMap fun info => info.fieldMap.map (·.1)).foldl
    (fun names name => insertName name names) []

/-- Where a field's name stands, from 1 on. -/
def fieldNumber (name : String) : Nat := (table.fieldNames.takeWhile (· < name)).length + 1

def fieldId (name : String) : Nat := uint16 (table.fieldNumber name)

abbrev FlatMap := List (String × FieldLocation)

def flatMap (info : ProductionInfo) : FlatMap :=
  info.fieldMap.flatMap fun (name, locations) => locations.map fun location => (name, location)

/-- The productions' maps in their order, after the empty one. -/
def namedFieldMaps : List FlatMap :=
  [] :: (table.productionInfos.filter fun info => !info.fieldMap.isEmpty).map flatMap

def fieldMaps : Pool (List.length (α := String × FieldLocation)) :=
  Pool.internAll {} table.namedFieldMaps

def fieldMapSlice (info : ProductionInfo) : MapSlice :=
  if info.fieldMap.isEmpty then { index := 0, length := 0 }
  else
    { index := uint16 (table.fieldMaps.place (flatMap info))
      length := uint16 (flatMap info).length }

def renderFieldMap (map : FlatMap) : List FieldMapEntry :=
  map.map fun (name, location) =>
    { fieldId := table.fieldId name
      childIndex := uint8 location.index
      inherited := location.inherited }

/-! ## The language -/

def language (externalTokens : List (Option Symbol)) : LanguageData where
  symbolCount := uint32 table.symbols.length
  tokenCount := uint32 (table.symbols.countP (isToken externalTokens))
  largeStateCount := uint32 table.largeStateCount
  fieldCount := uint32 table.fieldNames.length
  parseTable := table.parseTable
  smallParseTable := table.smallParseTable
  smallParseTableMap := table.smallParseTableMap
  parseActions := table.parseActions
  fieldNames := none :: table.fieldNames.map some
  fieldMapSlices := table.productionInfos.map table.fieldMapSlice
  fieldMapEntries := table.fieldMaps.cells table.renderFieldMap

/-- `symbolIds.at` throws on a symbol that has no number. -/
def assemble (externalTokens : List (Option Symbol)) : Option LanguageData :=
  if table.usedSymbols.all table.isNumbered then some (table.language externalTokens) else none

end ParseTable

end Ned.Editor.Grammar
