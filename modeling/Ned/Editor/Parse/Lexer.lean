import Mathlib.Algebra.Group.Nat.Defs
import Mathlib.Order.Lattice

/-!
# The lexer's position in a text

The part of `Editor/Parse/Lexer.cpp` that lex functions drive: the lookahead, the position, and the
token's ends, over the included ranges of a text. Columns are left out.
-/

namespace Ned.Editor.Parse

def kDecodeError : Int := -1

def kByteOrderMark : Int := 0xFEFF

/-! ## Decoding -/

/-- How many continuation bytes a lead byte announces, and the bits it holds. -/
def leadBits (lead : UInt8) : Option (Nat × Nat) :=
  if lead &&& 0xE0 == 0xC0 then some (1, (lead &&& 0x1F).toNat)
  else if lead &&& 0xF0 == 0xE0 then some (2, (lead &&& 0x0F).toNat)
  else if lead &&& 0xF8 == 0xF0 then some (3, (lead &&& 0x07).toNat)
  else none

def continueUtf8 : Nat → List UInt8 → Nat → Option Nat
  | 0, _, codepoint => some codepoint
  | _ + 1, [], _ => none
  | n + 1, b :: bytes, codepoint =>
      if b &&& 0xC0 == 0x80 then continueUtf8 n bytes (codepoint <<< 6 ||| (b &&& 0x3F).toNat)
      else none

/-- The codepoint, and the bytes it takes. -/
def decodeUtf8 : List UInt8 → Int × Nat
  | [] => (kDecodeError, 1)
  | lead :: bytes =>
      if lead < 0x80 then (lead.toNat, 1)
      else
        match leadBits lead with
        | none => (kDecodeError, 1)
        | some (continuations, bits) =>
            match continueUtf8 continuations bytes bits with
            | none => (kDecodeError, 1)
            | some codepoint =>
                let overlong := continuations == 1 && codepoint < 0x80 ||
                  continuations == 2 && codepoint < 0x800 ||
                  continuations == 3 && codepoint < 0x10000
                if overlong || codepoint > 0x10FFFF || (codepoint ≥ 0xD800 && codepoint ≤ 0xDFFF) then
                  (kDecodeError, 1)
                else
                  (codepoint, continuations + 1)

/-! ## Positions -/

structure Point where
  row : Nat
  column : Nat
  deriving DecidableEq

structure Length where
  bytes : Nat
  extent : Point
  deriving DecidableEq

def kLengthUndefined : Length := { bytes := 0, extent := { row := 0, column := 1 } }

structure Range where
  startPoint : Point
  endPoint : Point
  startByte : Nat
  endByte : Nat
  deriving DecidableEq

namespace Range

def startPosition (range : Range) : Length := ⟨range.startByte, range.startPoint⟩

def endPosition (range : Range) : Length := ⟨range.endByte, range.endPoint⟩

def isEmpty (range : Range) : Bool := range.endByte == range.startByte

/-- The whole text. -/
def default : Range where
  startPoint := ⟨0, 0⟩
  endPoint := ⟨0xFFFFFFFF, 0xFFFFFFFF⟩
  startByte := 0
  endByte := 0xFFFFFFFF

end Range

/-! ## The lexer -/

structure Lexer where
  text : List UInt8
  includedRanges : List Range := [.default]
  currentIncludedRangeIndex : Nat := 0
  currentPosition : Length := ⟨0, ⟨0, 0⟩⟩
  tokenStartPosition : Length := ⟨0, ⟨0, 0⟩⟩
  tokenEndPosition : Length := kLengthUndefined
  lookahead : Int := 0
  lookaheadSize : Nat := 0
  resultSymbol : Nat := 0
  deriving DecidableEq

namespace Lexer

def atEof (lexer : Lexer) : Bool := lexer.currentIncludedRangeIndex == lexer.includedRanges.length

/-- What has not been read. -/
def rest (lexer : Lexer) : List UInt8 := lexer.text.drop lexer.currentPosition.bytes

/-- The index of the first range that a position is in or before. -/
def findIncludedRange (position : Length) (ranges : List Range) : Option Nat :=
  ranges.findIdx? fun range => range.endByte > position.bytes && !range.isEmpty

def goto (lexer : Lexer) (position : Length) : Lexer :=
  match findIncludedRange position lexer.includedRanges with
  | some i =>
      let start := (lexer.includedRanges.getD i .default).startPosition
      { lexer with
        currentPosition := if start.bytes ≥ position.bytes then start else position
        currentIncludedRangeIndex := i
        lookaheadSize := 0
        lookahead := 0 }
  | none =>
      { lexer with
        currentPosition := (lexer.includedRanges.getLastD .default).endPosition
        currentIncludedRangeIndex := lexer.includedRanges.length
        lookaheadSize := 1
        lookahead := 0 }

def getLookahead (lexer : Lexer) : Lexer :=
  if lexer.rest.isEmpty then
    { lexer with
      currentIncludedRangeIndex := lexer.includedRanges.length
      lookaheadSize := 1
      lookahead := 0 }
  else
    let (lookahead, size) := decodeUtf8 lexer.rest
    { lexer with lookahead := lookahead, lookaheadSize := size }

/-- Moves past the lookahead. -/
def stepOver (lexer : Lexer) : Length :=
  if lexer.lookaheadSize ≠ 0 then
    let { bytes, extent } := lexer.currentPosition
    { bytes := bytes + lexer.lookaheadSize
      extent :=
        if lexer.lookahead = 10 then { row := extent.row + 1, column := 0 }
        else { extent with column := extent.column + lexer.lookaheadSize } }
  else
    lexer.currentPosition

/-- The loop that leaves finished ranges. It says how many, and where the position is then. -/
def leaveRanges (position : Length) : List Range → Nat × Length
  | [] => (0, position)
  | range :: ranges =>
      if position.bytes ≥ range.endByte || range.isEmpty then
        let (n, position) := leaveRanges ((ranges.head?.map (·.startPosition)).getD position) ranges
        (n + 1, position)
      else
        (0, position)

def doAdvance (lexer : Lexer) (skip : Bool) : Lexer :=
  let (left, position) :=
    leaveRanges lexer.stepOver (lexer.includedRanges.drop lexer.currentIncludedRangeIndex)
  let lexer :=
    { lexer with
      currentPosition := position
      currentIncludedRangeIndex := lexer.currentIncludedRangeIndex + left
      tokenStartPosition := if skip then position else lexer.tokenStartPosition }
  if lexer.atEof then { lexer with lookahead := 0, lookaheadSize := 1 } else lexer.getLookahead

/-- A no-op at the end of the text. -/
def advance (lexer : Lexer) (skip : Bool) : Lexer :=
  if lexer.atEof then lexer else lexer.doAdvance skip

/-- At the beginning of an included range the token ends where the range before ends. -/
def markEnd (lexer : Lexer) : Lexer :=
  let i := lexer.currentIncludedRangeIndex
  let range := lexer.includedRanges.getD i .default
  if !lexer.atEof && i > 0 && lexer.currentPosition.bytes == range.startByte then
    { lexer with
      tokenEndPosition := (lexer.includedRanges.getD (i - 1) .default).endPosition }
  else
    { lexer with tokenEndPosition := lexer.currentPosition }

/-- Records a token that ends here. -/
def recordAccept (lexer : Lexer) : Option Nat → Lexer
  | some symbol => { lexer with resultSymbol := symbol }.markEnd
  | none => lexer

/-- Forgets the token before. -/
def beginToken (lexer : Lexer) : Lexer :=
  { lexer with
    tokenStartPosition := lexer.currentPosition
    tokenEndPosition := kLengthUndefined
    resultSymbol := 0 }

/-- Reads the first lookahead of a token, and skips a byte order mark. -/
def start (lexer : Lexer) : Lexer :=
  let lexer := lexer.beginToken
  if lexer.atEof then lexer
  else
    let lexer := if lexer.lookaheadSize = 0 then lexer.getLookahead else lexer
    if lexer.currentPosition.bytes = 0 && lexer.lookahead = kByteOrderMark then lexer.advance true
    else lexer

end Lexer

/-!
## The lexer as data

The automaton of `Editor/Parse/LexDfa.h`, whose transitions keep the shape of the conditions a
generated lexer would have, and the loop that runs it.
-/

/-! ## Clauses -/

inductive LexClauseKind
  | nulUnlessEof
  | atMostUnlessEof
  | equal
  | between
  | notEqual
  | outside
  | greater
  deriving DecidableEq

structure LexClause where
  kind : LexClauseKind := .equal
  start : Int := 0
  last : Int := 0
  deriving DecidableEq

def holds (clause : LexClause) (lookahead : Int) (eof : Bool) : Bool :=
  match clause.kind with
  | .nulUnlessEof => !eof && lookahead == 0
  | .atMostUnlessEof => !eof && lookahead ≤ clause.last
  | .equal => lookahead == clause.start
  | .between => clause.start ≤ lookahead && lookahead ≤ clause.last
  | .notEqual => lookahead != clause.start
  | .outside => lookahead < clause.start || clause.last < lookahead
  | .greater => lookahead > clause.last

/-! ## Large character sets -/

/-- Both ends belong to the range. -/
structure LexCharacterRange where
  start : Int
  last : Int
  deriving DecidableEq

def LexCharacterRange.has (r : LexCharacterRange) (lookahead : Int) : Bool :=
  lookahead ≥ r.start && lookahead ≤ r.last

/-- The binary search over the `size` ranges from `index` on. -/
def searchRanges (ranges : List LexCharacterRange) (lookahead : Int) (index size : Nat) : Bool :=
  if size > 1 then
    let half := size / 2
    let mid := index + half
    let r := ranges.getD mid ⟨0, -1⟩
    if r.has lookahead then true
    else searchRanges ranges lookahead (if lookahead > r.last then mid else index) (size - half)
  else
    (ranges.getD index ⟨0, -1⟩).has lookahead
termination_by size

def setContains (ranges : List LexCharacterRange) (lookahead : Int) : Bool :=
  searchRanges ranges lookahead 0 ranges.length

/-! ## The automaton -/

structure LexDfaTransition where
  nextState : Nat := 0
  inMainToken : Bool := true
  conditional : Bool := true
  largeSet : Option Nat := none
  largeSetCheckEof : Bool := false
  assertedAnyOf : Bool := true
  asserted : List LexClause := []
  negated : List LexClause := []
  deriving DecidableEq

structure LexDfaState where
  accept : Option Nat := none
  eof : Option Nat := none
  transitions : List LexDfaTransition := []
  deriving DecidableEq

abbrev LexDfa := List LexDfaState

abbrev LargeCharacterSets := List (List LexCharacterRange)

section Matches

variable (largeSets : LargeCharacterSets) (t : LexDfaTransition) (lookahead : Int) (eof : Bool)

/-- Whether the lookahead is in the transition's large set; `none` where it has none. -/
def LexDfaTransition.inLargeSet : Option Bool :=
  t.largeSet.map fun i =>
    (!t.largeSetCheckEof || !eof) && setContains (largeSets.getD i []) lookahead

/-- The asserted clauses, joined as the transition says. -/
def LexDfaTransition.assertedHolds : Bool :=
  if t.assertedAnyOf then t.asserted.any (holds · lookahead eof)
  else t.asserted.all (holds · lookahead eof)

def LexDfaTransition.matches : Bool :=
  if !t.conditional then true
  else
    let positive :=
      match t.inLargeSet largeSets lookahead eof with
      | some inLargeSet => inLargeSet || !t.asserted.isEmpty && t.assertedHolds lookahead eof
      | none => t.asserted.isEmpty || t.assertedHolds lookahead eof
    positive && t.negated.all (holds · lookahead eof)

end Matches

/-- The first transition that matches. -/
def LexDfaState.transitionAt (largeSets : LargeCharacterSets) (state : LexDfaState)
    (lookahead : Int) (eof : Bool) : Option LexDfaTransition :=
  state.transitions.find? (·.matches largeSets lookahead eof)

/-- Each turn records an accepted token and takes the end-of-text action or the first transition that
matches. The fuel bounds the turns; without it there is no result. -/
def dfaLex (largeSets : LargeCharacterSets) (dfa : LexDfa) :
    Nat → Bool → Lexer → Nat → Option (Bool × Lexer)
  | 0, _, _, _ => none
  | fuel + 1, result, lexer, state =>
      match dfa[state]? with
      | none => some (false, lexer)
      | some current =>
          let lookahead := lexer.lookahead
          let eof := lexer.atEof
          let result := result || current.accept.isSome
          let lexer := lexer.recordAccept current.accept
          match current.eof.filter fun _ => eof with
          | some eofState => dfaLex largeSets dfa fuel result (lexer.advance false) eofState
          | none =>
              match current.transitionAt largeSets lookahead eof with
              | some t =>
                  dfaLex largeSets dfa fuel result (lexer.advance !t.inMainToken) t.nextState
              | none => some (result, lexer)

/-!
## Language tables

The read-side accessors of `Editor/Parse/LanguageTables.h` over the tables of a language. A read out
of bounds, or of the other member of a union, gives nothing.
-/

/-! ## Cells -/

inductive ParseAction
  | shift (state : Nat) (extra repetition : Bool)
  | reduce (childCount symbol : Nat) (dynamicPrecedence : Int) (productionId : Nat)
  | accept
  | recover
  deriving DecidableEq

inductive ParseActionEntry
  | entry (count : Nat) (reusable : Bool)
  | action (action : ParseAction)
  deriving DecidableEq

structure FieldMapEntry where
  fieldId : Nat
  childIndex : Nat
  inherited : Bool
  deriving DecidableEq

structure MapSlice where
  index : Nat
  length : Nat
  deriving DecidableEq

/-- The tables that the accessors below read. -/
structure LanguageData where
  symbolCount : Nat
  tokenCount : Nat
  largeStateCount : Nat
  fieldCount : Nat
  parseTable : List Nat
  smallParseTable : List Nat
  smallParseTableMap : List Nat
  parseActions : List ParseActionEntry
  fieldNames : List (Option String)
  fieldMapSlices : List MapSlice
  fieldMapEntries : List FieldMapEntry
  deriving DecidableEq

def kBuiltinSymbolError : Nat := 2 ^ 16 - 1

def kBuiltinSymbolErrorRepeat : Nat := kBuiltinSymbolError - 1

def isBuiltinSymbol (symbol : Nat) : Bool :=
  symbol == kBuiltinSymbolError || symbol == kBuiltinSymbolErrorRepeat

/-! ## Accessors -/

structure TableEntry where
  actions : List ParseAction := []
  isReusable : Bool := false
  deriving DecidableEq

/-- The search of a small state's groups. -/
def searchGroups (symbol : Nat) : Nat → List Nat → Option Nat
  | 0, _ => some 0
  | groupCount + 1, sectionValue :: symbolCount :: data =>
      if (data.take symbolCount).contains symbol then some sectionValue
      else if symbolCount ≤ data.length then
        searchGroups symbol groupCount (data.drop symbolCount)
      else none
  | _ + 1, _ => none

section Accessors

variable (language : LanguageData) (state symbol : Nat)

/-- For a terminal the value is where its actions are, for a non-terminal it is the successor
state. -/
def languageLookup : Option Nat :=
  if state ≥ language.largeStateCount then do
    let index ← language.smallParseTableMap[state - language.largeStateCount]?
    match language.smallParseTable.drop index with
    | [] => none
    | groupCount :: data => searchGroups symbol groupCount data
  else
    language.parseTable[(state * language.symbolCount + symbol) % 2 ^ 32]?

def readActions : Nat → List ParseActionEntry → Option (List ParseAction)
  | 0, _ => some []
  | count + 1, .action action :: cells => (readActions count cells).map (action :: ·)
  | _ + 1, _ => none

/-- The actions that a count and the cells after it stand for. -/
def readEntry : List ParseActionEntry → Option TableEntry
  | .entry count reusable :: cells =>
      (readActions count cells).map fun actions => { actions := actions, isReusable := reusable }
  | _ => none

def languageTableEntry : Option TableEntry :=
  if isBuiltinSymbol symbol then some {}
  else do
    let actionIndex ← languageLookup language state symbol
    readEntry (language.parseActions.drop actionIndex)

def languageNextState : Option Nat :=
  if isBuiltinSymbol symbol then some 0
  else if symbol < language.tokenCount then do
    let entry ← languageTableEntry language state symbol
    match entry.actions.getLast? with
    | some (.shift nextState extra _) => some (if extra then state else nextState)
    | _ => some 0
  else
    languageLookup language state symbol

def languageFieldMap (productionId : Nat) : Option (List FieldMapEntry) :=
  if language.fieldCount = 0 then some []
  else do
    let slice ← language.fieldMapSlices[productionId]?
    if slice.index + slice.length ≤ language.fieldMapEntries.length then
      some ((language.fieldMapEntries.drop slice.index).take slice.length)
    else none

end Accessors

end Ned.Editor.Parse
