import Ned.Editor.Grammar.Lemmas.TableFile
import Mathlib.Data.List.Find
import Mathlib.Data.List.GetD

/-!
# Table files: theorems

Which languages a file can hold, that a language that is written is the one that is read, and that the
lexers of a file that is read stay within their states.
-/

namespace Ned.Editor.Grammar

open Library Parse
open Text (Bytes)

variable {language : CompiledLanguage} {bytes : Bytes}

/-! ## Writing -/

/-- What is written of a language, the magic number and the version included. -/
def fileBytes (language : CompiledLanguage) : Bytes :=
  kTableFileMagic ++ (Writer.u32 kTableFileVersion ++ languageBytes language)

theorem serializeLanguage_eq_ok {room : Nat} (h : FitsLanguage language room) :
    serializeLanguage language = .ok (fileBytes language) := by
  have hactions : writeActions language.parseActions =
      .ok (Writer.size language.parseActions.length ++ language.parseActions.flatMap cellBytes) := by
    rw [writeActions, writeCells_eq_ok h.parseActions.2]
    rfl
  have hcells : ¬ language.externalScannerStates.length < language.stateCells :=
    Nat.not_lt_of_le (Nat.le_of_eq h.externalScannerStates.symm)
  refine bind_eq_ok.2 ⟨_, hactions, ?_⟩
  rw [if_neg hcells, ← h.externalScannerStates, List.take_length, fileBytes, languageBytes,
    bytesFromStates]

/-! ## Reading -/

theorem version_format : ByteFormat readVersion Writer.u32 fun v _ => v = kTableFileVersion := by
  refine (Reader.u32_format.checkIf _).congr (fun _ => rfl) fun v _ => ?_
  refine (and_iff_left_of_imp fun h => ?_).symm
  rw [h]
  decide

theorem afterMagic_eq_ok {stream : Bytes} : afterMagic bytes = .ok stream ↔ bytes = kTableFileMagic ++ stream := by
  unfold afterMagic
  split
  · rename_i h
    obtain ⟨rest, rfl⟩ := List.isPrefixOf_iff_prefix.1 h
    rw [List.drop_left]
    constructor
    · intro hok
      cases hok
      rfl
    · intro heq
      rw [List.append_cancel_left heq]
  · rename_i h
    constructor
    · intro hok
      cases hok
    · rintro rfl
      exact absurd (List.isPrefixOf_iff_prefix.2 (List.prefix_append _ _)) h

theorem checkLoaded_eq_ok {read : CompiledLanguage} {rest : Bytes} :
    checkLoaded read rest = .ok language ↔ rest = [] ∧ read.agrees = true ∧ read = language := by
  unfold checkLoaded
  cases rest with
  | cons c rest => simp
  | nil => cases read.agrees <;> simp

theorem loadLanguage_eq_ok_iff : loadLanguage bytes = .ok language ↔
    ∃ stream version fields, bytes = kTableFileMagic ++ stream ∧
      readVersion.run stream = .ok (version, fields) ∧
      readLanguage.run fields = .ok (language, []) ∧ language.agrees = true := by
  constructor
  · intro h
    obtain ⟨stream, hstream, h⟩ := bind_eq_ok.1 h
    obtain ⟨⟨version, fields⟩, hversion, h⟩ := bind_eq_ok.1 h
    obtain ⟨⟨read, rest⟩, hread, h⟩ := bind_eq_ok.1 h
    obtain ⟨rfl, hagrees, rfl⟩ := checkLoaded_eq_ok.1 h
    exact ⟨stream, version, fields, afterMagic_eq_ok.1 hstream, hversion, hread, hagrees⟩
  · rintro ⟨stream, version, fields, rfl, hversion, hread, hagrees⟩
    refine bind_eq_ok.2 ⟨stream, afterMagic_eq_ok.2 rfl, ?_⟩
    refine bind_eq_ok.2 ⟨(version, fields), hversion, ?_⟩
    refine bind_eq_ok.2 ⟨(language, []), hread, ?_⟩
    exact checkLoaded_eq_ok.2 ⟨rfl, hagrees, rfl⟩

theorem loadLanguage_fileBytes (h : FitsLanguage language 0) (hagrees : language.agrees = true) :
    loadLanguage (fileBytes language) = .ok language := by
  refine loadLanguage_eq_ok_iff.2 ⟨_, kTableFileVersion, languageBytes language, rfl, ?_, ?_, hagrees⟩
  · exact version_format.reads rfl
  · rw [← List.append_nil (languageBytes language)]
    exact language_format.reads h

theorem fits_of_loadLanguage (h : loadLanguage bytes = .ok language) :
    FitsLanguage language 0 ∧ language.agrees = true := by
  obtain ⟨stream, version, fields, -, -, hread, hagrees⟩ := loadLanguage_eq_ok_iff.1 h
  exact ⟨language_format.fits hread, hagrees⟩

/-! ## Files -/

/-- A language of one lex state, which loops. -/
def tiny : CompiledLanguage where
  name := []
  data :=
    { abiVersion := 15, symbolCount := 0, aliasCount := 0, tokenCount := 0, externalTokenCount := 0,
      stateCount := 0, largeStateCount := 0, productionIdCount := 0, fieldCount := 0,
      maxAliasSequenceLength := 0, keywordCaptureToken := 0, maxReservedWordSetSize := 0,
      supertypeCount := 0 }
  parseTable := []
  smallParseTable := []
  smallParseTableMap := []
  parseActions := [.entry 1 true, .action (.shift 3 false true)]
  symbolNameStorage := []
  fieldNameStorage := [[]]
  fieldMapSlices := []
  fieldMapEntries := []
  symbolMetadata := []
  publicSymbolMap := []
  aliasMap := []
  aliasSequences := []
  lexModes := []
  externalScannerSymbolMap := []
  externalScannerStateCount := 0
  externalScannerStates := []
  primaryStateIds := []
  reservedWords := []
  supertypeSymbols := []
  supertypeMapSlices := []
  supertypeMapEntries := []
  eofCloserStarts := [0]
  eofCloserSymbols := []
  largeCharacterSets := [[⟨97, 122⟩]]
  main := [{ transitions := [{ largeSet := some 0 }] }]
  keyword := []

theorem fits_tiny : FitsLanguage tiny 0 := by
  rw [fitsLanguage_iff, fitsCounts_iff, fitsDfa_iff, fitsDfa_iff]
  simp [tiny, FitsArray, FitsActions, FitsCells, FitsBits, FitsAction, FitsRange, FitsInt32, kAbiVersion,
    fitsState_iff, fitsTransition_iff, LexDfaState.leadsBelow, CompiledLanguage.stateCells]

theorem loadLanguage_tiny : loadLanguage (fileBytes tiny) = .ok tiny :=
  loadLanguage_fileBytes fits_tiny rfl

/-- A language is what some file holds exactly when it fits the format and its arrays are as long as its
counts say. -/
theorem loads_iff : (∃ bytes, loadLanguage bytes = .ok language) ↔
    FitsLanguage language 0 ∧ language.agrees = true := by
  constructor
  · rintro ⟨bytes, h⟩
    exact fits_of_loadLanguage h
  · rintro ⟨h, hagrees⟩
    exact ⟨_, loadLanguage_fileBytes h hagrees⟩

/-- Writing a language that was read, and reading it again, changes nothing; the file is as long as it
was. -/
theorem serialize_loaded (h : loadLanguage bytes = .ok language) :
    ∃ written, serializeLanguage language = .ok written ∧ written.length = bytes.length ∧
      loadLanguage written = .ok language := by
  obtain ⟨stream, version, fields, rfl, hversion, hread, hagrees⟩ := loadLanguage_eq_ok_iff.1 h
  have hfits := language_format.fits hread
  refine ⟨_, serializeLanguage_eq_ok hfits, ?_, loadLanguage_fileBytes hfits hagrees⟩
  rw [fileBytes, List.length_append, List.length_append, List.length_append,
    version_format.length hversion, language_format.length hread, Writer.length_u32]
  rfl

theorem serialize_loaded_tiny : ∃ written, serializeLanguage tiny = .ok written ∧
    written.length = (fileBytes tiny).length ∧ loadLanguage written = .ok tiny :=
  serialize_loaded loadLanguage_tiny

/-! ## Lexing -/

/-- Every state that a state leads to is a state, and every large set a transition names is there. -/
def Within (largeSets : LargeCharacterSets) (dfa : LexDfa) : Prop :=
  ∀ s ∈ dfa, (∀ i ∈ s.eof, i < dfa.length) ∧
    ∀ t ∈ s.transitions, t.nextState < dfa.length ∧ ∀ i ∈ t.largeSet, i < largeSets.length

theorem FitsDfa.within {largeSets : LargeCharacterSets} {dfa : LexDfa}
    (h : FitsDfa largeSets.length dfa) : Within largeSets dfa := by
  intro s hs
  have hleads := List.all_eq_true.1 h.closed s hs
  simp only [LexDfaState.leadsBelow, Bool.and_eq_true, List.all_eq_true, decide_eq_true_eq] at hleads
  refine ⟨fun i hi => ?_, fun t ht => ⟨hleads.2 t ht, ?_⟩⟩
  · have heof := hleads.1
    rw [Option.mem_def.1 hi] at heof
    exact of_decide_eq_true heof
  · exact ((h.states.2 s hs).transitions.2 t ht).inRange

variable {largeSets : LargeCharacterSets} {dfa : LexDfa}

theorem matches_append (moreSets : LargeCharacterSets) {t : LexDfaTransition}
    (h : ∀ i ∈ t.largeSet, i < largeSets.length) (lookahead : Int) (eof : Bool) :
    t.matches (largeSets ++ moreSets) lookahead eof = t.matches largeSets lookahead eof := by
  have hlarge : t.inLargeSet (largeSets ++ moreSets) lookahead eof =
      t.inLargeSet largeSets lookahead eof := by
    cases hset : t.largeSet with
    | none => rw [LexDfaTransition.inLargeSet, LexDfaTransition.inLargeSet, hset]; rfl
    | some i =>
        have hi : i < largeSets.length := h i hset
        rw [LexDfaTransition.inLargeSet, LexDfaTransition.inLargeSet, hset, Option.map_some,
          Option.map_some, List.getD_append _ _ _ _ hi]
  rw [LexDfaTransition.matches, LexDfaTransition.matches, hlarge]

/-- What stands after the states and the sets of an automaton within them is never looked at. -/
theorem Within.dfaLex_append (h : Within largeSets dfa) (moreSets : LargeCharacterSets)
    (moreStates : LexDfa) (fuel : Nat) (result : Bool) (lexer : Lexer) {state : Nat}
    (hstate : state < dfa.length) :
    dfaLex (largeSets ++ moreSets) (dfa ++ moreStates) fuel result lexer state =
      dfaLex largeSets dfa fuel result lexer state := by
  induction fuel generalizing result lexer state with
  | zero => rfl
  | succ fuel ih =>
      obtain ⟨heof, htransitions⟩ := h dfa[state] (List.getElem_mem hstate)
      have hat : dfa[state].transitionAt (largeSets ++ moreSets) lexer.lookahead lexer.atEof =
          dfa[state].transitionAt largeSets lexer.lookahead lexer.atEof :=
        List.find?_congr fun t ht => matches_append moreSets (htransitions t ht).2 _ _
      rw [dfaLex, dfaLex, List.getElem?_append_left hstate, List.getElem?_eq_getElem hstate]
      simp only [hat]
      cases hfilter : dfa[state].eof.filter fun _ => lexer.atEof with
      | some eofState => exact ih _ _ (heof eofState (Option.mem_filter_iff.1 hfilter).1)
      | none =>
          cases htransition : dfa[state].transitionAt largeSets lexer.lookahead lexer.atEof with
          | some t => exact ih _ _ (htransitions t (List.mem_of_find?_eq_some htransition)).1
          | none => rfl

end Ned.Editor.Grammar
