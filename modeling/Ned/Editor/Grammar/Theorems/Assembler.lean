import Ned.Editor.Grammar.Lemmas.Assembler
import Ned.Editor.Grammar.Lemmas.FieldMaps

/-!
# Theorems about assembled tables

The cells of a language say what its parse table says exactly if every number fits its cell.
-/

namespace Ned.Editor.Grammar.ParseTable

open Library
open Parse (LanguageData languageLookup languageTableEntry languageNextState readEntry isBuiltinSymbol
  kBuiltinSymbolErrorRepeat)

variable {table : ParseTable} {externalTokens : List (Option Symbol)} {state : ParseState}
  {symbol : Symbol} {i k : Nat} {α : Type} {entries : List (Symbol × α)}

/-! ## What a state has for a symbol -/

/-- The entry for a symbol. The end of a non-terminal extra counts as the end. -/
def entryFor (entries : List (Symbol × α)) (symbol : Symbol) : Option α :=
  (entries.find? fun p => p.1.lookedUpAs == symbol.lookedUpAs).map (·.2)

theorem mem_of_entryFor {a : α} (h : entryFor entries symbol = some a) :
    ∃ p ∈ entries, p.1.lookedUpAs = symbol.lookedUpAs ∧ p.2 = a := by
  obtain ⟨p, hp, heq⟩ := Option.map_eq_some_iff.1 h
  exact ⟨p, List.mem_of_find?_eq_some hp, by simpa using List.find?_some hp, heq⟩

theorem entryFor_eq_none (h : ∀ p ∈ entries, p.1.lookedUpAs ≠ symbol.lookedUpAs) :
    entryFor entries symbol = none := by
  rw [entryFor, Option.map_eq_none_iff, List.find?_eq_none]
  exact fun p hp => by simpa using h p hp

theorem entryFor_of_mem
    (hunique : ∀ p ∈ entries, ∀ q ∈ entries, p.1.lookedUpAs = q.1.lookedUpAs → p = q)
    {p : Symbol × α} (hp : p ∈ entries) (h : p.1.lookedUpAs = symbol.lookedUpAs) :
    entryFor entries symbol = some p.2 := by
  cases hfound : entryFor entries symbol with
  | none =>
      rw [entryFor, Option.map_eq_none_iff, List.find?_eq_none] at hfound
      exact absurd (by simpa using h) (hfound p hp)
  | some a =>
      obtain ⟨q, hq, hlookedUp, rfl⟩ := mem_of_entryFor hfound
      rw [hunique p hp q hq (h.trans hlookedUp.symm)]

theorem lookup_numbered (f : α → Nat) (entries : List (Symbol × α))
    (h : table.number symbol < table.symbols.length) :
    (entries.map fun p => (table.number p.1, f p.2)).lookup (table.number symbol) =
      (entryFor entries symbol).map f := by
  induction entries with
  | nil => rfl
  | cons p entries ih =>
      have hsame : (table.number symbol == table.number p.1) =
          (p.1.lookedUpAs == symbol.lookedUpAs) := by
        rw [Bool.eq_iff_iff, beq_iff_eq, beq_iff_eq]
        exact ⟨fun heq => (number_inj h heq).symm, fun heq => congrArg table.symbols.idxOf heq.symm⟩
      rw [List.map_cons, List.lookup_cons, ih, hsame, entryFor, entryFor, List.find?_cons]
      cases p.1.lookedUpAs == symbol.lookedUpAs <;> rfl

theorem lookup_values (h : table.number symbol < table.symbols.length) :
    (table.values i state).lookup (table.number symbol) =
      ((entryFor state.terminalEntries symbol).map table.actionListId).or
        ((entryFor state.nonterminalEntries symbol).map fun action => action.target i) := by
  have hgotos := lookup_numbered (fun action : GotoAction => action.target i)
    state.nonterminalEntries h
  rw [values, lookup_append, terminalValues, nonterminalValues, lookup_numbered _ _ h, hgotos]

/-! ## Numbers -/

theorem ids_iff (n : Nat) : (∀ i < n, uint16 i = i) ↔ n ≤ 2 ^ 16 := by
  constructor
  · intro h
    by_contra hlt
    have hcut := h (2 ^ 16) (Nat.lt_of_not_le hlt)
    simp [uint16] at hcut
  · exact fun h i hi => uint16_of_lt (Nat.lt_of_lt_of_le hi h)

theorem lookedUpAs_lookedUpAs (symbol : Symbol) :
    symbol.lookedUpAs.lookedUpAs = symbol.lookedUpAs := by
  unfold Symbol.lookedUpAs
  split
  · rfl
  · rfl

theorem number_lt (hsymbol : symbol ∈ table.symbols) (h : symbol.lookedUpAs = symbol) :
    table.number symbol < table.symbols.length := by
  rw [number, h]
  exact List.idxOf_lt_length_iff.2 hsymbol

theorem number_lookedUpAs (table : ParseTable) (symbol : Symbol) :
    table.number symbol.lookedUpAs = table.number symbol := by
  rw [number, number, lookedUpAs_lookedUpAs]

theorem isBuiltinSymbol_iff (hk : k < 2 ^ 16) :
    isBuiltinSymbol k = true ↔ kBuiltinSymbolErrorRepeat ≤ k := by
  simp only [isBuiltinSymbol, Bool.or_eq_true, beq_iff_eq, kBuiltinSymbolErrorRepeat,
    Parse.kBuiltinSymbolError]
  omega

theorem countP_isToken_le (hwf : table.WellFormed externalTokens)
    (hsymbol : symbol.isNonTerminal = true) :
    table.symbols.countP (isToken externalTokens) ≤ table.number symbol := by
  obtain ⟨tokens, nonTerminals, hsplit, htokens, hnonTerminals⟩ := hwf.tokens_first
  have hnone : nonTerminals.countP (isToken externalTokens) = 0 := by
    refine List.countP_eq_zero.2 fun s hs => ?_
    simp [isToken_of_nonTerminal (hnonTerminals s hs)]
  have hnot : symbol ∉ tokens := by
    intro hmem
    have htoken := htokens symbol hmem
    rw [isToken_of_nonTerminal hsymbol] at htoken
    cases htoken
  rw [number, lookedUpAs_of_nonTerminal hsymbol, hsplit, List.countP_append, hnone, Nat.add_zero,
    List.countP_eq_length.2 htokens, List.idxOf_append, if_neg hnot]
  exact Nat.le_add_left _ _

/-! ## Lookups -/

theorem languageTableEntry_builtin {language : LanguageData} (hk : k < 2 ^ 16)
    (hbuiltin : kBuiltinSymbolErrorRepeat ≤ k) : languageTableEntry language i k = some {} := by
  rw [languageTableEntry, if_pos ((isBuiltinSymbol_iff hk).2 hbuiltin)]

theorem languageNextState_builtin {language : LanguageData} (hk : k < 2 ^ 16)
    (hbuiltin : kBuiltinSymbolErrorRepeat ≤ k) : languageNextState language i k = some 0 := by
  rw [languageNextState, if_pos ((isBuiltinSymbol_iff hk).2 hbuiltin)]

section Lookups

variable (hwf : table.WellFormed externalTokens) (hnumbered : table.Numbered)
  (hstates : table.states.length ≤ 2 ^ 16) (hsymbols : table.symbols.length ≤ 2 ^ 16)

theorem readEntry_zero (table : ParseTable) : readEntry (table.parseActions.drop 0) = some {} := by
  have hmem : noActions ∈ table.namedEntries := List.mem_cons_self
  have hread := readEntry_place hmem
  rw [noActions_place] at hread
  exact hread

include hwf

theorem terminal_token (hstate : state ∈ table.states) {p : Symbol × ParseTableEntry}
    (hp : p ∈ state.terminalEntries) : isToken externalTokens p.1.lookedUpAs = true := by
  rcases (hwf.terminals state hstate p hp).1 with ⟨hextra, -⟩ | htoken
  · rw [hextra]
    rfl
  · rw [lookedUpAs_of_token htoken]
    exact htoken

include hnumbered hstates hsymbols

theorem languageTableEntry_eq (hi : table.states[i]? = some state) (hsymbol : symbol ∈ table.symbols)
    (htoken : isToken externalTokens symbol = true)
    (hnumber : table.number symbol < kBuiltinSymbolErrorRepeat) :
    languageTableEntry (table.language externalTokens) i (table.number symbol) =
      readEntry (table.parseActions.drop
        (uint16 (((entryFor state.terminalEntries symbol).map table.actionListId).getD 0))) := by
  have hlt := number_lt hsymbol (lookedUpAs_of_token htoken)
  have hbuiltin : isBuiltinSymbol (table.number symbol) ≠ true := fun h =>
    Nat.not_le_of_lt hnumber ((isBuiltinSymbol_iff (Nat.lt_of_lt_of_le hlt hsymbols)).1 h)
  have hnone : entryFor state.nonterminalEntries symbol = none := by
    refine entryFor_eq_none fun p hp heq => ?_
    have hnonTerminal := (hwf.nonterminals state (List.mem_of_getElem? hi) p hp).1
    rw [lookedUpAs_of_nonTerminal hnonTerminal, lookedUpAs_of_token htoken] at heq
    rw [heq] at hnonTerminal
    rw [isToken_of_nonTerminal hnonTerminal] at htoken
    cases htoken
  rw [languageTableEntry, if_neg hbuiltin, lookup_value hwf hnumbered hstates hsymbols hi hlt,
    lookup_values hlt, hnone, Option.map_none, Option.or_none]
  rfl

theorem languageNextState_eq (hi : table.states[i]? = some state) (hsymbol : symbol ∈ table.symbols)
    (hnonTerminal : symbol.isNonTerminal = true)
    (hnumber : table.number symbol < kBuiltinSymbolErrorRepeat) :
    languageNextState (table.language externalTokens) i (table.number symbol) =
      some (uint16 (((entryFor state.nonterminalEntries symbol).map (·.target i)).getD 0)) := by
  have hlt := number_lt hsymbol (lookedUpAs_of_nonTerminal hnonTerminal)
  have hbuiltin : isBuiltinSymbol (table.number symbol) ≠ true := fun h =>
    Nat.not_le_of_lt hnumber ((isBuiltinSymbol_iff (Nat.lt_of_lt_of_le hlt hsymbols)).1 h)
  have htokens : ¬ table.number symbol < (table.language externalTokens).tokenCount := by
    refine Nat.not_lt_of_le (Nat.le_trans (Nat.mod_le _ _) ?_)
    exact countP_isToken_le hwf hnonTerminal
  have hnone : entryFor state.terminalEntries symbol = none := by
    refine entryFor_eq_none fun p hp heq => ?_
    have htoken := terminal_token hwf (List.mem_of_getElem? hi) hp
    rw [heq, lookedUpAs_of_nonTerminal hnonTerminal, isToken_of_nonTerminal hnonTerminal] at htoken
    cases htoken
  rw [languageNextState, if_neg hbuiltin, if_neg htokens,
    lookup_value hwf hnumbered hstates hsymbols hi hlt, lookup_values hlt, hnone, Option.map_none,
    Option.none_or]

end Lookups

/-! ## States -/

/-- The cells hold the actions and gotos of a state. -/
structure SaysState (table : ParseTable) (externalTokens : List (Option Symbol))
    (language : LanguageData) (i : Nat) (state : ParseState) : Prop where
  entries : ∀ symbol ∈ table.symbols, isToken externalTokens symbol = true →
    languageTableEntry language (uint16 i) (table.symbolId symbol) =
      some (((entryFor state.terminalEntries symbol).map table.meantEntry).getD {})
  gotos : ∀ symbol ∈ table.symbols, symbol.isNonTerminal = true →
    languageNextState language (uint16 i) (table.symbolId symbol) =
      some (((entryFor state.nonterminalEntries symbol).map fun action => action.target i).getD 0)

/-- The entry's symbol is no built-in one, and the cells before its actions and the numbers in these
fit. -/
structure TerminalFits (table : ParseTable) (p : Symbol × ParseTableEntry) : Prop where
  symbol : table.number p.1 < kBuiltinSymbolErrorRepeat
  start : Pool.sizeBefore entrySize table.namedEntries p.2 < 2 ^ 16
  entry : EntryFits p.2

structure GotoFits (table : ParseTable) (i : Nat) (p : Symbol × GotoAction) : Prop where
  target : p.2.target i < 2 ^ 16
  symbol : p.2.target i ≠ 0 → table.number p.1 < kBuiltinSymbolErrorRepeat

section States

variable (hwf : table.WellFormed externalTokens) (hnumbered : table.Numbered)
  (hstates : table.states.length ≤ 2 ^ 16) (hsymbols : table.symbols.length ≤ 2 ^ 16)

include hwf hnumbered hstates hsymbols

/-- What a state's entries are stored as, where the state's cells hold them. -/
theorem read_of_saysState
    (hsaid : ∀ i state, table.states[i]? = some state →
      table.SaysState externalTokens (table.language externalTokens) i state)
    (hstate : state ∈ table.states) {p : Symbol × ParseTableEntry} (hp : p ∈ state.terminalEntries) :
    table.number p.1 < kBuiltinSymbolErrorRepeat ∧
      readEntry (table.parseActions.drop (uint16 (table.actionListId p.2))) =
        some (table.meantEntry p.2) := by
  obtain ⟨i, hi⟩ := List.mem_iff_getElem?.1 hstate
  have hsymbol : p.1.lookedUpAs ∈ table.symbols :=
    List.idxOf_lt_length_iff.1 (hnumbered.terminal hstate hp)
  have htoken := terminal_token hwf hstate hp
  have hlt := number_lt hsymbol (lookedUpAs_lookedUpAs _)
  have hilt := (List.getElem?_eq_some_iff.1 hi).1
  have hentry : entryFor state.terminalEntries p.1.lookedUpAs = some p.2 :=
    entryFor_of_mem (fun p hp q hq => terminal_unique hwf hstate hp hq) hp
      (lookedUpAs_lookedUpAs _).symm
  have hread := (hsaid i state hi).entries _ hsymbol htoken
  rw [uint16_of_lt (Nat.lt_of_lt_of_le hilt hstates), symbolId_eq hsymbols hlt, hentry,
    Option.map_some, Option.getD_some] at hread
  have hnumber : table.number p.1.lookedUpAs < kBuiltinSymbolErrorRepeat := by
    by_contra hbuiltin
    rw [languageTableEntry_builtin (Nat.lt_of_lt_of_le hlt hsymbols) (Nat.le_of_not_lt hbuiltin),
      Option.some.injEq] at hread
    have hactions := congrArg Parse.TableEntry.actions hread
    exact (hwf.terminals state hstate p hp).2 (List.map_eq_nil_iff.1 hactions.symm)
  rw [languageTableEntry_eq hwf hnumbered hstates hsymbols hi hsymbol htoken hnumber, hentry] at hread
  exact ⟨table.number_lookedUpAs p.1 ▸ hnumber, hread⟩

/-- Where every state's cells hold its entries, the entries fit. -/
theorem terminalFits_of_saysState
    (hsaid : ∀ i state, table.states[i]? = some state →
      table.SaysState externalTokens (table.language externalTokens) i state)
    (hstate : state ∈ table.states) {p : Symbol × ParseTableEntry} (hp : p ∈ state.terminalEntries) :
    table.TerminalFits p := by
  obtain ⟨hnumber, hread⟩ := read_of_saysState hwf hnumbered hstates hsymbols hsaid hstate hp
  have hstart : table.actionListId p.2 < 2 ^ 16 := by
    obtain ⟨entry, hentry, hplace⟩ := place_of_readEntry hread
    rcases of_mem_lists hentry with rfl | ⟨state', hstate', q, hq, rfl⟩
    · rw [noActions_place] at hplace
      rw [← hplace, readEntry_zero, Option.some.injEq] at hread
      have hactions := congrArg Parse.TableEntry.actions hread
      exact absurd (List.map_eq_nil_iff.1 hactions.symm) (hwf.terminals state hstate p hp).2
    · -- the entry that is read starts where it can be, and is read there for its own symbol as well
      have hread' := (read_of_saysState hwf hnumbered hstates hsymbols hsaid hstate' hq).2
      rw [hplace, uint16_of_lt (uint16_lt _), hread, Option.some.injEq] at hread'
      rw [meantEntry_inj hwf hnumbered hstate hp hstate' hq hread', hplace]
      exact uint16_lt _
  rw [uint16_of_lt hstart] at hread
  refine ⟨hnumber, ?_, (readEntry_meant_iff hnumbered hstate hp hsymbols).1 hread⟩
  rw [← actionListId_eq (mem_namedEntries hstate hp)]
  exact hstart

theorem gotoFits_of_saysState (hi : table.states[i]? = some state)
    (hsaid : table.SaysState externalTokens (table.language externalTokens) i state)
    {p : Symbol × GotoAction} (hp : p ∈ state.nonterminalEntries) : table.GotoFits i p := by
  have hstate := List.mem_of_getElem? hi
  have hnonTerminal := (hwf.nonterminals state hstate p hp).1
  have hsymbol : p.1 ∈ table.symbols :=
    lookedUpAs_of_nonTerminal hnonTerminal ▸
      List.idxOf_lt_length_iff.1 (hnumbered.nonterminal hstate hp)
  have hlt := hnumbered.nonterminal hstate hp
  have hilt := (List.getElem?_eq_some_iff.1 hi).1
  have hentry : entryFor state.nonterminalEntries p.1 = some p.2 :=
    entryFor_of_mem (fun p hp q hq => nonterminal_unique hwf hstate hp hq) hp rfl
  have hnext := hsaid.gotos _ hsymbol hnonTerminal
  rw [uint16_of_lt (Nat.lt_of_lt_of_le hilt hstates), symbolId_eq hsymbols hlt, hentry,
    Option.map_some, Option.getD_some] at hnext
  rcases Nat.lt_or_ge (table.number p.1) kBuiltinSymbolErrorRepeat with hnumber | hbuiltin
  · rw [languageNextState_eq hwf hnumbered hstates hsymbols hi hsymbol hnonTerminal hnumber, hentry,
      Option.some.injEq] at hnext
    exact ⟨(uint16_eq_iff _).1 hnext, fun _ => hnumber⟩
  · rw [languageNextState_builtin (Nat.lt_of_lt_of_le hlt hsymbols) hbuiltin,
      Option.some.injEq] at hnext
    exact ⟨hnext ▸ Nat.two_pow_pos 16, fun hne => absurd hnext.symm hne⟩

theorem saysState_of_fits (hi : table.states[i]? = some state)
    (hterminals : ∀ p ∈ state.terminalEntries, table.TerminalFits p)
    (hgotos : ∀ p ∈ state.nonterminalEntries, table.GotoFits i p) :
    table.SaysState externalTokens (table.language externalTokens) i state := by
  have hstate := List.mem_of_getElem? hi
  have hilt := (List.getElem?_eq_some_iff.1 hi).1
  have hid : uint16 i = i := uint16_of_lt (Nat.lt_of_lt_of_le hilt hstates)
  refine ⟨fun symbol hsymbol htoken => ?_, fun symbol hsymbol hnonTerminal => ?_⟩
  · have hlt := number_lt hsymbol (lookedUpAs_of_token htoken)
    rw [hid, symbolId_eq hsymbols hlt]
    rcases Nat.lt_or_ge (table.number symbol) kBuiltinSymbolErrorRepeat with hnumber | hbuiltin
    · rw [languageTableEntry_eq hwf hnumbered hstates hsymbols hi hsymbol htoken hnumber]
      cases hentry : entryFor state.terminalEntries symbol with
      | none => exact table.readEntry_zero
      | some entry =>
          obtain ⟨p, hp, -, rfl⟩ := mem_of_entryFor hentry
          have hfits := hterminals p hp
          have hstart := hfits.start
          rw [← actionListId_eq (mem_namedEntries hstate hp)] at hstart
          rw [Option.map_some, Option.getD_some, uint16_of_lt hstart, Option.map_some,
            Option.getD_some]
          exact (readEntry_meant_iff hnumbered hstate hp hsymbols).2 hfits.entry
    · have hentry : entryFor state.terminalEntries symbol = none := by
        refine entryFor_eq_none fun p hp heq => ?_
        have hnumber : table.number p.1 = table.number symbol := congrArg table.symbols.idxOf heq
        exact Nat.not_le_of_lt (hterminals p hp).symbol (hnumber ▸ hbuiltin)
      rw [languageTableEntry_builtin (Nat.lt_of_lt_of_le hlt hsymbols) hbuiltin, hentry]
      rfl
  · have hlt := number_lt hsymbol (lookedUpAs_of_nonTerminal hnonTerminal)
    rw [hid, symbolId_eq hsymbols hlt]
    have hfits : ∀ action, entryFor state.nonterminalEntries symbol = some action →
        action.target i < 2 ^ 16 ∧
          (action.target i ≠ 0 → table.number symbol < kBuiltinSymbolErrorRepeat) := by
      intro action hentry
      obtain ⟨p, hp, heq, rfl⟩ := mem_of_entryFor hentry
      have hnumber : table.number p.1 = table.number symbol := congrArg table.symbols.idxOf heq
      exact ⟨(hgotos p hp).target, hnumber ▸ (hgotos p hp).symbol⟩
    rcases Nat.lt_or_ge (table.number symbol) kBuiltinSymbolErrorRepeat with hnumber | hbuiltin
    · rw [languageNextState_eq hwf hnumbered hstates hsymbols hi hsymbol hnonTerminal hnumber]
      cases hentry : entryFor state.nonterminalEntries symbol with
      | none => rfl
      | some action => exact congrArg some (uint16_of_lt (hfits action hentry).1)
    · rw [languageNextState_builtin (Nat.lt_of_lt_of_le hlt hsymbols) hbuiltin]
      cases hentry : entryFor state.nonterminalEntries symbol with
      | none => rfl
      | some action =>
          have hzero : action.target i = 0 := by
            by_contra hne
            exact Nat.not_le_of_lt ((hfits action hentry).2 hne) hbuiltin
          rw [Option.map_some, Option.getD_some, hzero]

end States

/-! ## Languages -/

/-- The cells hold what the parse table says, for every state, symbol and production, and none of the
numbers of these is cut. -/
structure Says (table : ParseTable) (externalTokens : List (Option Symbol))
    (language : LanguageData) : Prop where
  state_ids : ∀ i < table.states.length, uint16 i = i
  symbol_ids : ∀ k < table.symbols.length, uint16 k = k
  states : ∀ i state, table.states[i]? = some state →
    table.SaysState externalTokens language i state
  productions : ∀ p info, table.productionInfos[p]? = some info → table.SaysFields language p info

/-- Every number of a parse table fits its cell. -/
structure Fits (table : ParseTable) : Prop where
  states : table.states.length ≤ 2 ^ 16
  symbols : table.symbols.length ≤ 2 ^ 16
  terminals : ∀ state ∈ table.states, ∀ p ∈ state.terminalEntries, table.TerminalFits p
  gotos : ∀ i state, table.states[i]? = some state →
    ∀ p ∈ state.nonterminalEntries, table.GotoFits i p
  productions : table.FieldsFit

theorem assemble_eq_some_iff {language : LanguageData} :
    table.assemble externalTokens = some language ↔
      table.Numbered ∧ table.language externalTokens = language := by
  unfold assemble Numbered
  split
  · rename_i hall
    simp only [List.all_eq_true, isNumbered, decide_eq_true_eq] at hall
    rw [Option.some.injEq]
    exact (and_iff_right hall).symm
  · rename_i hall
    simp only [List.all_eq_true, isNumbered, decide_eq_true_eq] at hall
    constructor
    · intro h
      cases h
    · rintro ⟨hnumbered, -⟩
      exact absurd hnumbered hall

/-- The assembled tables say what was computed exactly if every number fits. -/
theorem assembled_says_iff {language : LanguageData} (hwf : table.WellFormed externalTokens)
    (h : table.assemble externalTokens = some language) :
    table.Says externalTokens language ↔ table.Fits := by
  obtain ⟨hnumbered, rfl⟩ := assemble_eq_some_iff.1 h
  constructor
  · intro hsaid
    have hstates := (ids_iff _).1 hsaid.state_ids
    have hsymbols := (ids_iff _).1 hsaid.symbol_ids
    refine ⟨hstates, hsymbols, fun state hstate p hp => ?_, fun i state hi p hp => ?_,
      (saysFields_iff hwf.fields).1 hsaid.productions⟩
    · exact terminalFits_of_saysState hwf hnumbered hstates hsymbols hsaid.states hstate hp
    · exact gotoFits_of_saysState hwf hnumbered hstates hsymbols hi (hsaid.states i state hi) hp
  · intro hfits
    refine ⟨(ids_iff _).2 hfits.states, (ids_iff _).2 hfits.symbols, fun i state hi => ?_,
      (saysFields_iff hwf.fields).2 hfits.productions⟩
    exact saysState_of_fits hwf hnumbered hfits.states hfits.symbols hi
      (hfits.terminals state (List.mem_of_getElem? hi)) (hfits.gotos i state hi)

/-! ## A rule of many tokens -/

def tokenState (action : ParseAction) : ParseState where
  terminalEntries := [({ kind := .terminal }, { actions := [action] })]

def endState (action : ParseAction) : ParseState where
  terminalEntries := [(.«end», { actions := [action] })]

/-- The table of a grammar of one rule, a sequence of a token `n` times. -/
def sequenceTable (n : Nat) : ParseTable where
  states :=
    { terminalEntries :=
        [(.«end», { actions := [.recover], reusable := false }),
          ({ kind := .terminal }, { actions := [.recover], reusable := false })] } ::
    { tokenState (.shift 2 false) with
      nonterminalEntries := [({ kind := .nonTerminal }, { state := 3 })] } ::
    tokenState (.shift 4 false) :: endState .accept ::
    (List.range (n - 2)).map (fun j => tokenState (.shift (j + 5) false)) ++
    [endState (.reduce { kind := .nonTerminal } n 0 0)]
  symbols := [.«end», { kind := .terminal }, { kind := .nonTerminal }]
  productionInfos := [{}]

theorem mem_sequenceTable {n : Nat} {P : ParseState → Prop}
    (herror : P { terminalEntries :=
        [(.«end», { actions := [.recover], reusable := false }),
          ({ kind := .terminal }, { actions := [.recover], reusable := false })] })
    (hstart : P { tokenState (.shift 2 false) with
        nonterminalEntries := [({ kind := .nonTerminal }, { state := 3 })] })
    (hshift : ∀ j, P (tokenState (.shift j false))) (haccept : P (endState .accept))
    (hreduce : P (endState (.reduce { kind := .nonTerminal } n 0 0))) :
    ∀ state ∈ (sequenceTable n).states, P state := by
  intro state hstate
  simp only [sequenceTable, List.cons_append, List.mem_cons, List.mem_append, List.mem_map,
    List.not_mem_nil, or_false] at hstate
  rcases hstate with rfl | rfl | rfl | rfl | ⟨j, -, rfl⟩ | rfl
  · exact herror
  · exact hstart
  · exact hshift 4
  · exact haccept
  · exact hshift (j + 5)
  · exact hreduce

theorem sequenceTable_wellFormed (n : Nat) : (sequenceTable n).WellFormed [] where
  nodup := by simp [sequenceTable, Symbol.«end»]
  tokens_first := ⟨[.«end», { kind := .terminal }], [{ kind := .nonTerminal }], rfl, by decide,
    by decide⟩
  terminals := by
    apply mem_sequenceTable <;> simp [tokenState, endState, isToken, Symbol.isTerminal, Symbol.isEof,
      Symbol.«end»]
  reductions := by
    apply mem_sequenceTable <;> simp +contextual [tokenState, endState, Symbol.isNonTerminal]
  nonterminals := by
    apply mem_sequenceTable <;> simp [tokenState, endState, Symbol.isNonTerminal]
  terminals_nodup := by
    apply mem_sequenceTable <;> simp [tokenState, endState, Symbol.«end»]
  nonterminals_nodup := by
    apply mem_sequenceTable <;> simp [tokenState, endState]
  fields := by simp [sequenceTable]
  by_size := by
    intro _
    have hone : ∀ state ∈ (sequenceTable n).states.drop 2, state.entryCount = 1 := by
      intro state hstate
      simp only [sequenceTable, List.cons_append, List.drop_succ_cons, List.drop_zero,
        List.mem_cons, List.mem_append, List.mem_map, List.not_mem_nil, or_false] at hstate
      rcases hstate with rfl | rfl | ⟨j, -, rfl⟩ | rfl <;> rfl
    refine List.pairwise_of_forall_mem_list fun a ha b hb => ?_
    rw [hone a ha, hone b hb]

theorem sequenceTable_numbered (n : Nat) : (sequenceTable n).Numbered := by
  intro symbol hsymbol
  have hknown : symbol ∈ (sequenceTable n).symbols := by
    obtain ⟨state, hstate, hmem⟩ := List.mem_flatMap.1 hsymbol
    revert state
    apply mem_sequenceTable <;>
      simp +contextual [tokenState, endState, sequenceTable, or_imp]
  have hnumber : ∀ symbol ∈ (sequenceTable 0).symbols, (sequenceTable 0).number symbol < 3 := by
    decide
  exact hnumber symbol hknown

/-- The count of a reduction of more than 255 children is cut. -/
theorem long_sequence_unsaid :
    (sequenceTable 300).WellFormed [] ∧
      ∃ language, (sequenceTable 300).assemble [] = some language ∧
        ¬ (sequenceTable 300).Says [] language := by
  refine ⟨sequenceTable_wellFormed 300, _,
    assemble_eq_some_iff.2 ⟨sequenceTable_numbered 300, rfl⟩, fun hsaid => ?_⟩
  have hstate : endState (.reduce { kind := .nonTerminal } 300 0 0) ∈ (sequenceTable 300).states :=
    List.mem_append_right _ List.mem_cons_self
  have hfits := terminalFits_of_saysState (sequenceTable_wellFormed 300) (sequenceTable_numbered 300)
    ((ids_iff _).1 hsaid.state_ids) ((ids_iff _).1 hsaid.symbol_ids) hsaid.states hstate
    List.mem_cons_self
  have haction := hfits.entry.2 _ List.mem_cons_self
  exact absurd haction.1 (by decide)

theorem sequenceTable_namedEntries (n : Nat) :
    (sequenceTable n).namedEntries =
      noActions :: (sequenceTable n).states.flatMap fun state =>
        state.terminalEntries.map (·.2) := by
  have hsorted : ∀ state ∈ (sequenceTable n).states,
      (sequenceTable n).terminalEntriesById state = state.terminalEntries := by
    apply mem_sequenceTable
    · exact List.mergeSort_of_pairwise (List.pairwise_pair.2 (decide_eq_true (Nat.zero_le _)))
    · exact List.mergeSort_singleton _
    · exact fun j => List.mergeSort_singleton _
    · exact List.mergeSort_singleton _
    · exact List.mergeSort_singleton _
  refine congrArg (noActions :: ·) (List.flatMap_congr fun state hstate => ?_)
  rw [hsorted state hstate]

/-- A short sequence fits. -/
theorem short_sequence_said :
    (sequenceTable 2).Says [] ((sequenceTable 2).language []) := by
  refine (assembled_says_iff (sequenceTable_wellFormed 2)
    (assemble_eq_some_iff.2 ⟨sequenceTable_numbered 2, rfl⟩)).2 ⟨by decide, by decide, ?_, ?_, ?_⟩
  · have hfits : ∀ state ∈ (sequenceTable 2).states, ∀ p ∈ state.terminalEntries,
        (sequenceTable 2).number p.1 < kBuiltinSymbolErrorRepeat ∧
          Pool.sizeBefore entrySize (noActions :: (sequenceTable 2).states.flatMap fun state =>
            state.terminalEntries.map (·.2)) p.2 < 2 ^ 16 ∧ EntryFits p.2 := by
      decide
    intro state hstate p hp
    obtain ⟨hsymbol, hstart, hentry⟩ := hfits state hstate p hp
    exact ⟨hsymbol, sequenceTable_namedEntries 2 ▸ hstart, hentry⟩
  · intro i state hi
    have hgotos : ∀ q ∈ (sequenceTable 2).states.zipIdx, ∀ p ∈ q.1.nonterminalEntries,
        p.2.target q.2 < 2 ^ 16 ∧ (sequenceTable 2).number p.1 < kBuiltinSymbolErrorRepeat := by
      decide
    intro p hp
    obtain ⟨htarget, hsymbol⟩ := hgotos (state, i) (List.mem_zipIdx_iff_getElem?.2 hi) p hp
    exact ⟨htarget, fun _ => hsymbol⟩
  · exact ⟨by decide, by decide, by decide⟩

end Ned.Editor.Grammar.ParseTable
