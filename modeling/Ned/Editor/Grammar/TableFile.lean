import Ned.Editor.Parse.Lexer
import Ned.Library.ByteFormat
import Ned.Text.Bytes
import Mathlib.Algebra.Ring.Int.Defs

/-!
# Table files

The byte stream of `Editor/Grammar/Compile/TableFile.cpp`, which holds a compiled language: two
sequences of fields, one that writes and one that reads.
-/

namespace Ned.Editor.Grammar

open Library (ByteReader)
open Parse
open Text (Bytes)

/-! ## Compiled languages -/

structure SymbolMetadata where
  visible : Bool
  named : Bool
  supertype : Bool
  deriving DecidableEq

structure LexerMode where
  lexState : Nat
  externalLexState : Nat
  reservedWordSetId : Nat
  deriving DecidableEq

/-- The counts of a language's header. -/
structure LanguageCounts where
  abiVersion : Nat
  symbolCount : Nat
  aliasCount : Nat
  tokenCount : Nat
  externalTokenCount : Nat
  stateCount : Nat
  largeStateCount : Nat
  productionIdCount : Nat
  fieldCount : Nat
  maxAliasSequenceLength : Nat
  keywordCaptureToken : Nat
  maxReservedWordSetSize : Nat
  supertypeCount : Nat
  deriving DecidableEq

structure CompiledLanguage where
  name : Bytes
  data : LanguageCounts
  parseTable : List Nat
  smallParseTable : List Nat
  smallParseTableMap : List Nat
  parseActions : List ParseActionEntry
  symbolNameStorage : List Bytes
  fieldNameStorage : List Bytes
  fieldMapSlices : List MapSlice
  fieldMapEntries : List FieldMapEntry
  symbolMetadata : List SymbolMetadata
  publicSymbolMap : List Nat
  aliasMap : List Nat
  aliasSequences : List Nat
  lexModes : List LexerMode
  externalScannerSymbolMap : List Nat
  externalScannerStateCount : Nat
  externalScannerStates : List Bool
  primaryStateIds : List Nat
  reservedWords : List Nat
  supertypeSymbols : List Nat
  supertypeMapSlices : List MapSlice
  supertypeMapEntries : List Nat
  eofCloserStarts : List Nat
  eofCloserSymbols : List Nat
  largeCharacterSets : LargeCharacterSets
  main : LexDfa
  keyword : LexDfa
  deriving DecidableEq

def kTableFileMagic : Bytes := "NEDTABLE".toUTF8.toList

def kTableFileVersion : Nat := 2

def kAbiVersion : Nat := 15

/-! ## Writer -/

namespace Writer

def u8 (v : Nat) : Bytes := [UInt8.ofNat v]

def u16 (v : Nat) : Bytes := u8 v ++ u8 (v / 2 ^ 8)

def u32 (v : Nat) : Bytes := u16 v ++ u16 (v / 2 ^ 16)

/-- The two's complement of a signed number. -/
def i16 (v : Int) : Bytes := u16 (v % 2 ^ 16).toNat

def i32 (v : Int) : Bytes := u32 (v % 2 ^ 32).toNat

def flag (b : Bool) : Bytes := u8 b.toNat

def size (n : Nat) : Bytes := u32 n

/-- The elements of an array, after their number. -/
def array {α : Type} (write : α → Bytes) (items : List α) : Bytes :=
  size items.length ++ items.flatMap write

def str (s : Bytes) : Bytes := array (fun c => [c]) s

def u16s (v : List Nat) : Bytes := array u16 v

def u32s (v : List Nat) : Bytes := array u32 v

def strs (v : List Bytes) : Bytes := array str v

def slice (s : MapSlice) : Bytes := u16 s.index ++ u16 s.length

def slices (v : List MapSlice) : Bytes := array slice v

end Writer

/-! ## Reader -/

abbrev Reader (α : Type) := ByteReader String α

namespace Reader

def byte : Reader UInt8 := do
  match ← get with
  | [] => throw "tables: truncated"
  | b :: bytes => do
      set bytes
      pure b

def u8 : Reader Nat := do
  let b ← byte
  pure b.toNat

def u16 : Reader Nat := do
  let low ← u8
  let high ← u8
  pure (low + high * 2 ^ 8)

def u32 : Reader Nat := do
  let low ← u16
  let high ← u16
  pure (low + high * 2 ^ 16)

def i16 : Reader Int := do
  let v ← u16
  pure (if v < 2 ^ 15 then v else v - 2 ^ 16)

def i32 : Reader Int := do
  let v ← u32
  pure (if v < 2 ^ 31 then v else v - 2 ^ 32)

def flag : Reader Bool := do
  let v ← u8
  pure (v != 0)

/-- Every element costs at least a byte, so a count past the bytes left is corrupt. -/
def size : Reader Nat := do
  let n ← u32
  let left ← get
  if n > left.length then
    throw "tables: element count out of range"
  else
    pure n

def array {α : Type} (read : Reader α) : Reader (List α) := do
  let n ← size
  read.times n

def str : Reader Bytes := array byte

def u16s : Reader (List Nat) := array u16

def u32s : Reader (List Nat) := array u32

def strs : Reader (List Bytes) := array str

def slice : Reader MapSlice := do
  let index ← u16
  let length ← u16
  pure { index := index, length := length }

def slices : Reader (List MapSlice) := array slice

end Reader

/-! ## Lexer automata -/

def LexClauseKind.value : LexClauseKind → Nat
  | .nulUnlessEof => 0
  | .atMostUnlessEof => 1
  | .equal => 2
  | .between => 3
  | .notEqual => 4
  | .outside => 5
  | .greater => 6

def kindOf : Nat → Except String LexClauseKind
  | 0 => .ok .nulUnlessEof
  | 1 => .ok .atMostUnlessEof
  | 2 => .ok .equal
  | 3 => .ok .between
  | 4 => .ok .notEqual
  | 5 => .ok .outside
  | 6 => .ok .greater
  | _ => .error "tables: unknown lex clause kind"

def readKind : Reader LexClauseKind := do
  let kind ← Reader.u8
  ByteReader.require (kindOf kind)

open Writer in
def writeClause (c : LexClause) : Bytes := u8 (LexClauseKind.value c.kind) ++ (i32 c.start ++ i32 c.last)

open Writer in
def writeClauses (clauses : List LexClause) : Bytes := array writeClause clauses

open Reader in
def readClause : Reader LexClause := do
  let kind ← readKind
  let start ← i32
  let last ← i32
  pure { kind := kind, start := start, last := last }

open Reader in
def readClauses : Reader (List LexClause) := array readClause

/-- A flag and a number, which is written where there is none as well. -/
def writeOption (write : Nat → Bytes) (o : Option Nat) : Bytes :=
  Writer.flag o.isSome ++ write (o.getD 0)

def readOption (read : Reader Nat) : Reader (Option Nat) := do
  let has ← Reader.flag
  let v ← read
  pure (if has then some v else none)

open Writer in
def writeTransition (t : LexDfaTransition) : Bytes :=
  u16 t.nextState ++ (flag t.inMainToken ++ (flag t.conditional ++ (writeOption u32 t.largeSet ++
    (flag t.largeSetCheckEof ++ (flag t.assertedAnyOf ++
      (writeClauses t.asserted ++ writeClauses t.negated))))))

def checkLargeSet (largeSetCount : Nat) (t : LexDfaTransition) : Except String LexDfaTransition :=
  if t.largeSet.all fun largeSet => largeSet < largeSetCount then
    .ok t
  else
    .error "tables: large character set index out of range"

open Reader in
def readTransitionFields : Reader LexDfaTransition := do
  let nextState ← u16
  let inMainToken ← flag
  let conditional ← flag
  let largeSet ← readOption u32
  let largeSetCheckEof ← flag
  let assertedAnyOf ← flag
  let asserted ← readClauses
  let negated ← readClauses
  pure
    { nextState := nextState
      inMainToken := inMainToken
      conditional := conditional
      largeSet := largeSet
      largeSetCheckEof := largeSetCheckEof
      assertedAnyOf := assertedAnyOf
      asserted := asserted
      negated := negated }

def readTransition (largeSetCount : Nat) : Reader LexDfaTransition := do
  let t ← readTransitionFields
  ByteReader.require (checkLargeSet largeSetCount t)

open Writer in
def writeState (s : LexDfaState) : Bytes :=
  writeOption u16 s.accept ++ (writeOption u16 s.eof ++ array writeTransition s.transitions)

open Reader in
def readState (largeSetCount : Nat) : Reader LexDfaState := do
  let accept ← readOption u16
  let eof ← readOption u16
  let transitions ← array (readTransition largeSetCount)
  pure { accept := accept, eof := eof, transitions := transitions }

def writeDfa (dfa : LexDfa) : Bytes := Writer.array writeState dfa

/-- Whether every state that a state leads to is one of so many. -/
def LexDfaState.leadsBelow (count : Nat) (s : LexDfaState) : Bool :=
  (s.eof.all fun eofState => eofState < count) && s.transitions.all fun t => t.nextState < count

def checkStates (dfa : LexDfa) : Except String LexDfa :=
  if dfa.all (LexDfaState.leadsBelow dfa.length) then
    .ok dfa
  else
    .error "tables: lex state index out of range"

def readDfa (largeSetCount : Nat) : Reader LexDfa := do
  let dfa ← Reader.array (readState largeSetCount)
  ByteReader.require (checkStates dfa)

/-! ## Parse actions -/

/-- How writing ends early: with a `CompileError`, or in a read outside an array or of the other
member of a union. -/
inductive WriteFault where
  | compileError (message : String)
  | undefined
  deriving DecidableEq

open Writer in
def writeAction : Parse.ParseAction → Bytes
  | .shift state extra repetition => u8 0 ++ (u16 state ++ (flag extra ++ flag repetition))
  | .reduce childCount symbol dynamicPrecedence productionId =>
      u8 1 ++ (u8 childCount ++ (u16 symbol ++ (i16 dynamicPrecedence ++ u16 productionId)))
  | .accept => u8 2
  | .recover => u8 3

/-- The cells that are written once so many of a list's actions are still to come. -/
def writeCells : Nat → List ParseActionEntry → Except WriteFault Bytes
  | 0, [] => .ok []
  | 0, .entry count reusable :: cells =>
      if cells.length < count then
        .error (.compileError "tables: parse action list overruns its array")
      else do
        let written ← writeCells count cells
        .ok (Writer.u8 count ++ (Writer.flag reusable ++ written))
  | left + 1, .action action :: cells => do
      let written ← writeCells left cells
      .ok (writeAction action ++ written)
  | _, _ => .error .undefined

def writeActions (actions : List ParseActionEntry) : Except WriteFault Bytes := do
  let written ← writeCells 0 actions
  .ok (Writer.size actions.length ++ written)

open Reader in
def readAction : Reader Parse.ParseAction := do
  match ← u8 with
  | 0 => do
      let state ← u16
      let extra ← flag
      let repetition ← flag
      pure (.shift state extra repetition)
  | 1 => do
      let childCount ← u8
      let symbol ← u16
      let dynamicPrecedence ← i16
      let productionId ← u16
      pure (.reduce childCount symbol dynamicPrecedence productionId)
  | 2 => pure .accept
  | 3 => pure .recover
  | _ => throw "tables: unknown parse action type"

/-- Reads so many cells, where so many of a list's actions are still to come. -/
def readCells : Nat → Nat → Reader (List ParseActionEntry)
  | 0, 0 => pure []
  | 0, left => do
      let _ ← readAction.times left
      throw "tables: parse action list length disagrees with its count"
  | wanted + 1, 0 => do
      let count ← Reader.u8
      let reusable ← Reader.flag
      let cells ← readCells wanted count
      pure (.entry count reusable :: cells)
  | wanted + 1, left + 1 => do
      let action ← readAction
      let cells ← readCells wanted left
      pure (.action action :: cells)

def readActions : Reader (List ParseActionEntry) := do
  let total ← Reader.size
  readCells total 0

/-! ## Languages -/

open Writer in
def writeFieldMapEntry (e : FieldMapEntry) : Bytes :=
  u16 e.fieldId ++ (u8 e.childIndex ++ flag e.inherited)

open Reader in
def readFieldMapEntry : Reader FieldMapEntry := do
  let fieldId ← u16
  let childIndex ← u8
  let inherited ← flag
  pure { fieldId := fieldId, childIndex := childIndex, inherited := inherited }

open Writer in
def writeSymbolMetadata (m : SymbolMetadata) : Bytes :=
  flag m.visible ++ (flag m.named ++ flag m.supertype)

open Reader in
def readSymbolMetadata : Reader SymbolMetadata := do
  let visible ← flag
  let named ← flag
  let supertype ← flag
  pure { visible := visible, named := named, supertype := supertype }

open Writer in
def writeLexerMode (m : LexerMode) : Bytes :=
  u16 m.lexState ++ (u16 m.externalLexState ++ u16 m.reservedWordSetId)

open Reader in
def readLexerMode : Reader LexerMode := do
  let lexState ← u16
  let externalLexState ← u16
  let reservedWordSetId ← u16
  pure { lexState := lexState, externalLexState := externalLexState,
         reservedWordSetId := reservedWordSetId }

open Writer in
def writeRange (range : LexCharacterRange) : Bytes := i32 range.start ++ i32 range.last

open Reader in
def readRange : Reader LexCharacterRange := do
  let start ← i32
  let last ← i32
  pure { start := start, last := last }

open Writer in
def writeCounts (data : LanguageCounts) : Bytes :=
  u32 data.abiVersion ++ (u32 data.symbolCount ++ (u32 data.aliasCount ++ (u32 data.tokenCount ++
    (u32 data.externalTokenCount ++ (u32 data.stateCount ++ (u32 data.largeStateCount ++
      (u32 data.productionIdCount ++ (u32 data.fieldCount ++ (u16 data.maxAliasSequenceLength ++
        (u16 data.keywordCaptureToken ++ (u16 data.maxReservedWordSetSize ++
          u32 data.supertypeCount)))))))))))

def checkAbiVersion (abiVersion : Nat) : Except String Nat :=
  if abiVersion = kAbiVersion then
    .ok abiVersion
  else
    .error ("tables: language tables version " ++ toString abiVersion ++ ", this ned reads " ++
      toString kAbiVersion)

open Reader in
def readAbiVersion : Reader Nat := do
  let abiVersion ← u32
  ByteReader.require (checkAbiVersion abiVersion)

open Reader in
def readCounts : Reader LanguageCounts := do
  let abiVersion ← readAbiVersion
  let symbolCount ← u32
  let aliasCount ← u32
  let tokenCount ← u32
  let externalTokenCount ← u32
  let stateCount ← u32
  let largeStateCount ← u32
  let productionIdCount ← u32
  let fieldCount ← u32
  let maxAliasSequenceLength ← u16
  let keywordCaptureToken ← u16
  let maxReservedWordSetSize ← u16
  let supertypeCount ← u32
  pure
    { abiVersion := abiVersion
      symbolCount := symbolCount
      aliasCount := aliasCount
      tokenCount := tokenCount
      externalTokenCount := externalTokenCount
      stateCount := stateCount
      largeStateCount := largeStateCount
      productionIdCount := productionIdCount
      fieldCount := fieldCount
      maxAliasSequenceLength := maxAliasSequenceLength
      keywordCaptureToken := keywordCaptureToken
      maxReservedWordSetSize := maxReservedWordSetSize
      supertypeCount := supertypeCount }

/-- The cells of the external scanner's states. -/
def CompiledLanguage.stateCells (language : CompiledLanguage) : Nat :=
  language.externalScannerStateCount * language.data.externalTokenCount

open Writer in
def serializeLanguage (language : CompiledLanguage) : Except WriteFault Bytes := do
  let actions ← writeActions language.parseActions
  if language.externalScannerStates.length < language.stateCells then
    .error .undefined
  else
    .ok (kTableFileMagic ++ (u32 kTableFileVersion ++ (str language.name ++ (writeCounts language.data ++
    (u16s language.parseTable ++ (u16s language.smallParseTable ++ (u32s language.smallParseTableMap ++
    (actions ++ (strs language.symbolNameStorage ++ (strs language.fieldNameStorage ++
    (slices language.fieldMapSlices ++ (array writeFieldMapEntry language.fieldMapEntries ++
    (array writeSymbolMetadata language.symbolMetadata ++ (u16s language.publicSymbolMap ++
    (u16s language.aliasMap ++ (u16s language.aliasSequences ++
    (array writeLexerMode language.lexModes ++ (u16s language.externalScannerSymbolMap ++
    (size language.externalScannerStateCount ++
    ((language.externalScannerStates.take language.stateCells).flatMap flag ++
    (u16s language.primaryStateIds ++ (u16s language.reservedWords ++
    (u16s language.supertypeSymbols ++ (slices language.supertypeMapSlices ++
    (u16s language.supertypeMapEntries ++ (u32s language.eofCloserStarts ++
    (u16s language.eofCloserSymbols ++ (array (array writeRange) language.largeCharacterSets ++
    (writeDfa language.main ++ writeDfa language.keyword)))))))))))))))))))))))))))))

open Reader in
/-- The fields of a language, after the magic number and the version. -/
def readLanguage : Reader CompiledLanguage := do
  let name ← str
  let data ← readCounts
  let parseTable ← u16s
  let smallParseTable ← u16s
  let smallParseTableMap ← u32s
  let parseActions ← readActions
  let symbolNameStorage ← strs
  let fieldNameStorage ← strs
  let fieldMapSlices ← slices
  let fieldMapEntries ← array readFieldMapEntry
  let symbolMetadata ← array readSymbolMetadata
  let publicSymbolMap ← u16s
  let aliasMap ← u16s
  let aliasSequences ← u16s
  let lexModes ← array readLexerMode
  let externalScannerSymbolMap ← u16s
  let externalScannerStateCount ← size
  let externalScannerStates ← flag.times (externalScannerStateCount * data.externalTokenCount)
  let primaryStateIds ← u16s
  let reservedWords ← u16s
  let supertypeSymbols ← u16s
  let supertypeMapSlices ← slices
  let supertypeMapEntries ← u16s
  let eofCloserStarts ← u32s
  let eofCloserSymbols ← u16s
  let largeCharacterSets ← array (array readRange)
  let main ← readDfa largeCharacterSets.length
  let keyword ← readDfa largeCharacterSets.length
  pure
    { name := name
      data := data
      parseTable := parseTable
      smallParseTable := smallParseTable
      smallParseTableMap := smallParseTableMap
      parseActions := parseActions
      symbolNameStorage := symbolNameStorage
      fieldNameStorage := fieldNameStorage
      fieldMapSlices := fieldMapSlices
      fieldMapEntries := fieldMapEntries
      symbolMetadata := symbolMetadata
      publicSymbolMap := publicSymbolMap
      aliasMap := aliasMap
      aliasSequences := aliasSequences
      lexModes := lexModes
      externalScannerSymbolMap := externalScannerSymbolMap
      externalScannerStateCount := externalScannerStateCount
      externalScannerStates := externalScannerStates
      primaryStateIds := primaryStateIds
      reservedWords := reservedWords
      supertypeSymbols := supertypeSymbols
      supertypeMapSlices := supertypeMapSlices
      supertypeMapEntries := supertypeMapEntries
      eofCloserStarts := eofCloserStarts
      eofCloserSymbols := eofCloserSymbols
      largeCharacterSets := largeCharacterSets
      main := main
      keyword := keyword }

/-- The counts the engine indexes by must agree with what was stored. They are 32 bits wide, and so
are their sums. -/
def CompiledLanguage.agrees (language : CompiledLanguage) : Bool :=
  let data := language.data
  language.symbolNameStorage.length == (data.symbolCount + data.aliasCount) % 2 ^ 32 &&
    language.symbolMetadata.length == language.symbolNameStorage.length &&
    language.publicSymbolMap.length == language.symbolNameStorage.length &&
    language.lexModes.length == data.stateCount &&
    language.primaryStateIds.length == data.stateCount &&
    language.parseTable.length == data.largeStateCount * data.symbolCount &&
    language.fieldNameStorage.length == (data.fieldCount + 1) % 2 ^ 32 &&
    language.supertypeSymbols.length == data.supertypeCount &&
    language.externalScannerSymbolMap.length == data.externalTokenCount &&
    language.eofCloserStarts.length == (data.stateCount + 1) % 2 ^ 32 &&
    (language.eofCloserStarts.getLast?.all fun last => last == language.eofCloserSymbols.length) &&
    (!(data.stateCount > data.largeStateCount) ||
      language.smallParseTableMap.length == data.stateCount - data.largeStateCount)

/-- What is left once the magic number is taken off. -/
def afterMagic (bytes : Bytes) : Except String Bytes :=
  if kTableFileMagic.isPrefixOf bytes then
    .ok (bytes.drop kTableFileMagic.length)
  else
    .error "tables: not a ned table file"

def checkVersion (version : Nat) : Except String Nat :=
  if version = kTableFileVersion then
    .ok version
  else
    .error ("tables: format version " ++ toString version ++ ", this ned reads version " ++
      toString kTableFileVersion)

open Reader in
def readVersion : Reader Nat := do
  let version ← u32
  ByteReader.require (checkVersion version)

/-- What is checked when everything has been read. -/
def checkLoaded (language : CompiledLanguage) (rest : Bytes) : Except String CompiledLanguage :=
  if !rest.isEmpty then
    .error "tables: trailing bytes"
  else if !language.agrees then
    .error "tables: table sizes disagree with the header counts"
  else
    .ok language

def loadLanguage (bytes : Bytes) : Except String CompiledLanguage := do
  let stream ← afterMagic bytes
  let (_, stream) ← readVersion.run stream
  let (language, rest) ← readLanguage.run stream
  checkLoaded language rest

end Ned.Editor.Grammar
