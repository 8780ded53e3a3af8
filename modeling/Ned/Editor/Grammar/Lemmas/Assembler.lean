import Ned.Editor.Grammar.Assembler
import Ned.Library.Rows
import Mathlib.Data.List.Perm.Basic

/-!
# What the cells of a language hold

A lookup ends at the value that a state has for a symbol, cut to the width of a cell.
-/

namespace Ned.Editor.Grammar

open Library
open Parse (LanguageData languageLookup searchGroups)

def ParseState.entryCount (state : ParseState) : Nat :=
  state.terminalEntries.length + state.nonterminalEntries.length

namespace ParseTable

variable {table : ParseTable} {externalTokens : List (Option Symbol)} {state : ParseState}
  {symbol : Symbol} {entry : ParseTableEntry} {i k : Nat}

/-! ## Tables as they are built -/

/-- What the table builder sees to. The tokens are numbered first; the end of a non-terminal extra is
alone in its state; an entry has an action, a field a location, and no goto leads to the error
state. The states after the first two stand by descending size, which a sort by `-1'000'000` for the
first state gives where no state has as many entries. -/
structure WellFormed (table : ParseTable) (externalTokens : List (Option Symbol)) : Prop where
  nodup : table.symbols.Nodup
  tokens_first : ∃ tokens nonTerminals, table.symbols = tokens ++ nonTerminals ∧
    (∀ symbol ∈ tokens, isToken externalTokens symbol = true) ∧
    ∀ symbol ∈ nonTerminals, symbol.isNonTerminal = true
  terminals : ∀ state ∈ table.states, ∀ p ∈ state.terminalEntries,
    (p.1 = .endOfNonTerminalExtra ∧ state.terminalEntries.length = 1 ∨
      isToken externalTokens p.1 = true) ∧ p.2.actions ≠ []
  reductions : ∀ state ∈ table.states, ∀ p ∈ state.terminalEntries,
    ∀ symbol childCount precedence productionId,
      .reduce symbol childCount precedence productionId ∈ p.2.actions → symbol.isNonTerminal = true
  nonterminals : ∀ state ∈ table.states, ∀ p ∈ state.nonterminalEntries,
    p.1.isNonTerminal = true ∧ (p.2.shiftExtra = false → p.2.state ≠ 0)
  terminals_nodup : ∀ state ∈ table.states, (state.terminalEntries.map (·.1)).Nodup
  nonterminals_nodup : ∀ state ∈ table.states, (state.nonterminalEntries.map (·.1)).Nodup
  fields : ∀ info ∈ table.productionInfos, ∀ p ∈ info.fieldMap, p.2 ≠ []
  by_size : table.symbols.length < 1000000 →
    (table.states.drop 2).Pairwise fun a b => b.entryCount ≤ a.entryCount

def Numbered (table : ParseTable) : Prop :=
  ∀ symbol ∈ table.usedSymbols, table.number symbol < table.symbols.length

theorem Numbered.terminal (h : table.Numbered) (hstate : state ∈ table.states)
    {p : Symbol × ParseTableEntry} (hp : p ∈ state.terminalEntries) :
    table.number p.1 < table.symbols.length := by
  refine h _ (List.mem_flatMap.2 ⟨state, hstate, List.mem_append_left _ ?_⟩)
  exact List.mem_flatMap.2 ⟨p, hp, List.mem_cons_self⟩

theorem Numbered.nonterminal (h : table.Numbered) (hstate : state ∈ table.states)
    {p : Symbol × GotoAction} (hp : p ∈ state.nonterminalEntries) :
    table.number p.1 < table.symbols.length := by
  refine h _ (List.mem_flatMap.2 ⟨state, hstate, List.mem_append_right _ ?_⟩)
  exact List.mem_map.2 ⟨p, hp, rfl⟩

theorem isToken_of_nonTerminal (h : symbol.isNonTerminal = true) :
    isToken externalTokens symbol = false := by
  obtain ⟨kind, index⟩ := symbol
  simp only [Symbol.isNonTerminal, beq_iff_eq] at h
  subst h
  rfl

theorem lookedUpAs_of_token (h : isToken externalTokens symbol = true) :
    symbol.lookedUpAs = symbol := by
  unfold Symbol.lookedUpAs
  refine if_neg fun heq => ?_
  subst heq
  cases h

theorem lookedUpAs_of_nonTerminal (h : symbol.isNonTerminal = true) :
    symbol.lookedUpAs = symbol := by
  unfold Symbol.lookedUpAs
  refine if_neg fun heq => ?_
  subst heq
  cases h

theorem number_inj {a b : Symbol} (ha : table.number a < table.symbols.length)
    (h : table.number a = table.number b) : a.lookedUpAs = b.lookedUpAs :=
  (List.idxOf_inj (List.idxOf_lt_length_iff.1 ha)).1 h

/-! ## Values -/

/-- The values of a state, by the numbers of the symbols: where the actions are, and the state a goto
leads to. -/
def terminalValues (table : ParseTable) (state : ParseState) : List (Nat × Nat) :=
  state.terminalEntries.map fun p => (table.number p.1, table.actionListId p.2)

def nonterminalValues (table : ParseTable) (i : Nat) (state : ParseState) : List (Nat × Nat) :=
  state.nonterminalEntries.map fun p => (table.number p.1, p.2.target i)

def values (table : ParseTable) (i : Nat) (state : ParseState) : List (Nat × Nat) :=
  table.terminalValues state ++ table.nonterminalValues i state

section Values

variable (hwf : table.WellFormed externalTokens) (hnumbered : table.Numbered)
  (hstate : state ∈ table.states)

include hwf hstate

theorem terminal_unique {p q : Symbol × ParseTableEntry} (hp : p ∈ state.terminalEntries)
    (hq : q ∈ state.terminalEntries) (h : p.1.lookedUpAs = q.1.lookedUpAs) : p = q := by
  rcases (hwf.terminals state hstate p hp).1 with ⟨-, hone⟩ | htoken
  · obtain ⟨r, hr⟩ := List.length_eq_one_iff.1 hone
    rw [hr, List.mem_singleton] at hp hq
    exact hp.trans hq.symm
  · rcases (hwf.terminals state hstate q hq).1 with ⟨-, hone⟩ | htoken'
    · obtain ⟨r, hr⟩ := List.length_eq_one_iff.1 hone
      rw [hr, List.mem_singleton] at hp hq
      exact hp.trans hq.symm
    · rw [lookedUpAs_of_token htoken, lookedUpAs_of_token htoken'] at h
      exact List.inj_on_of_nodup_map (hwf.terminals_nodup state hstate) hp hq h

theorem nonterminal_unique {p q : Symbol × GotoAction} (hp : p ∈ state.nonterminalEntries)
    (hq : q ∈ state.nonterminalEntries) (h : p.1.lookedUpAs = q.1.lookedUpAs) : p = q := by
  rw [lookedUpAs_of_nonTerminal (hwf.nonterminals state hstate p hp).1,
    lookedUpAs_of_nonTerminal (hwf.nonterminals state hstate q hq).1] at h
  exact List.inj_on_of_nodup_map (hwf.nonterminals_nodup state hstate) hp hq h

theorem terminal_ne_nonterminal {p : Symbol × ParseTableEntry} {q : Symbol × GotoAction}
    (hp : p ∈ state.terminalEntries) (hq : q ∈ state.nonterminalEntries) :
    p.1.lookedUpAs ≠ q.1.lookedUpAs := by
  intro h
  have hq' := (hwf.nonterminals state hstate q hq).1
  rw [lookedUpAs_of_nonTerminal hq'] at h
  rcases (hwf.terminals state hstate p hp).1 with ⟨hextra, -⟩ | htoken
  · rw [hextra] at h
    rw [← h] at hq'
    cases hq'
  · rw [lookedUpAs_of_token htoken] at h
    rw [h, isToken_of_nonTerminal hq'] at htoken
    cases htoken

include hnumbered

theorem values_nodup : ((table.values i state).map (·.1)).Nodup := by
  unfold values
  rw [List.map_append]
  refine List.Nodup.append ?_ ?_ ?_
  · rw [terminalValues, List.map_map]
    refine List.Nodup.map_on ?_ (List.Nodup.of_map _ (hwf.terminals_nodup state hstate))
    intro p hp q hq heq
    exact terminal_unique hwf hstate hp hq (number_inj (hnumbered.terminal hstate hp) heq)
  · rw [nonterminalValues, List.map_map]
    refine List.Nodup.map_on ?_ (List.Nodup.of_map _ (hwf.nonterminals_nodup state hstate))
    intro p hp q hq heq
    exact nonterminal_unique hwf hstate hp hq (number_inj (hnumbered.nonterminal hstate hp) heq)
  · intro k hterminal hnonterminal
    simp only [terminalValues, nonterminalValues, List.map_map, List.mem_map,
      Function.comp_apply] at hterminal hnonterminal
    obtain ⟨p, hp, hpk⟩ := hterminal
    obtain ⟨q, hq, hqk⟩ := hnonterminal
    exact terminal_ne_nonterminal hwf hstate hp hq
      (number_inj (hnumbered.terminal hstate hp) (hpk.trans hqk.symm))

end Values

/-! ## Large rows -/

theorem symbolId_eq (hsymbols : table.symbols.length ≤ 2 ^ 16)
    (h : table.number symbol < table.symbols.length) : table.symbolId symbol = table.number symbol :=
  Nat.mod_eq_of_lt (Nat.lt_of_lt_of_le h hsymbols)

theorem terminalEntriesById_perm (table : ParseTable) (state : ParseState) :
    (table.terminalEntriesById state).Perm state.terminalEntries := List.mergeSort_perm _ _

theorem largeRow_eq (table : ParseTable) (i : Nat) (state : ParseState) :
    table.largeRow i state =
      ((state.nonterminalEntries.map fun p => (table.symbolId p.1, uint16 (p.2.target i))) ++
        (table.terminalEntriesById state).map fun p =>
          (table.symbolId p.1, uint16 (table.actionListId p.2))).foldl
        (fun row p => row.set p.1 p.2) (List.replicate table.symbols.length 0) := by
  rw [List.foldl_append, List.foldl_map, List.foldl_map]
  rfl

@[simp] theorem largeRow_length (table : ParseTable) (i : Nat) (state : ParseState) :
    (table.largeRow i state).length = table.symbols.length := by
  rw [largeRow_eq, foldl_set_length, List.length_replicate]

section Rows

variable (hwf : table.WellFormed externalTokens) (hnumbered : table.Numbered)
  (hsymbols : table.symbols.length ≤ 2 ^ 16) (hstate : state ∈ table.states)

include hwf hnumbered hsymbols hstate

theorem largeRow_get (hk : k < table.symbols.length) :
    (table.largeRow i state)[k]? = some (uint16 (((table.values i state).lookup k).getD 0)) := by
  have hperm : ((table.values i state).map fun p => (p.1, uint16 p.2)).Perm
      ((state.nonterminalEntries.map fun p => (table.symbolId p.1, uint16 (p.2.target i))) ++
        (table.terminalEntriesById state).map fun p =>
          (table.symbolId p.1, uint16 (table.actionListId p.2))) := by
    rw [values, List.map_append, terminalValues, nonterminalValues, List.map_map, List.map_map]
    refine List.perm_append_comm.trans (List.Perm.append ?_ ?_)
    · refine List.Perm.of_eq (List.map_congr_left fun p hp => ?_)
      exact Prod.ext (symbolId_eq hsymbols (hnumbered.nonterminal hstate hp)).symm rfl
    · refine List.Perm.trans (List.Perm.of_eq (List.map_congr_left fun p hp => ?_))
        ((table.terminalEntriesById_perm state).symm.map _)
      exact Prod.ext (symbolId_eq hsymbols (hnumbered.terminal hstate hp)).symm rfl
  have hkeys : (((table.values i state).map fun p => (p.1, uint16 p.2)).map (·.1)).Nodup := by
    rw [List.map_map]
    exact values_nodup hwf hnumbered hstate
  rw [largeRow_eq, foldl_set _ _ ((hperm.map _).nodup_iff.1 hkeys) (by simpa using hk),
    ← lookup_perm hperm hkeys, lookup_mapped]
  cases (table.values i state).lookup k with
  | some v => rfl
  | none => simp [hk, uint16]

end Rows

theorem countLargeStates_le (threshold i : Nat) (states : List ParseState) :
    countLargeStates threshold i states ≤ states.length := by
  induction states generalizing i with
  | nil => exact Nat.le_refl 0
  | cons state states ih =>
      unfold countLargeStates
      split
      · exact Nat.succ_le_succ (ih (i + 1))
      · exact Nat.zero_le _

theorem largeStateCount_le (table : ParseTable) : table.largeStateCount ≤ table.states.length :=
  countLargeStates_le _ _ _

theorem parseTable_get (hi : table.states[i]? = some state) (hlarge : i < table.largeStateCount)
    (hk : k < table.symbols.length) :
    table.parseTable[i * table.symbols.length + k]? = (table.largeRow i state)[k]? := by
  unfold parseTable
  rw [List.flatMap_def]
  refine getElem?_rows (fun row hrow => ?_) ?_ hk
  · obtain ⟨p, -, rfl⟩ := List.mem_map.1 hrow
    exact largeRow_length _ _ _
  · rw [List.getElem?_map, List.getElem?_zipIdx, List.getElem?_take_of_lt hlarge, hi]
    simp

/-! ## Groups -/

/-- A symbol, whether it is a non-terminal, and its value. -/
abbrev Label := Symbol × Bool × Nat

def addLabel (groups : List Group) (label : Label) : List Group :=
  addToGroup label.2.2 label.2.1 label.1 groups

/-- The labels that a group stands for. -/
def Group.labels (group : Group) : List Label :=
  group.symbols.map fun symbol => (symbol, group.nonTerminal, group.value)

variable {groups groups' : List Group} {label : Label} {group : Group}

theorem addLabel_labels (groups : List Group) (label : Label) :
    ((addLabel groups label).flatMap Group.labels).Perm (groups.flatMap Group.labels ++ [label]) := by
  obtain ⟨symbol, nonTerminal, value⟩ := label
  unfold addLabel
  induction groups with
  | nil => exact List.Perm.refl _
  | cons group groups ih =>
      unfold addToGroup
      split
      · rename_i hsame
        simp only [Bool.and_eq_true, beq_iff_eq] at hsame
        obtain ⟨rfl, rfl⟩ := hsame
        rw [List.flatMap_cons, List.flatMap_cons, Group.labels, List.map_append, List.append_assoc,
          List.append_assoc]
        exact (List.perm_append_comm).append_left _
      · rw [List.flatMap_cons, List.flatMap_cons, List.append_assoc]
        exact ih.append_left _

theorem addLabel_nonempty (h : ∀ group ∈ groups, group.symbols ≠ []) :
    ∀ group ∈ addLabel groups label, group.symbols ≠ [] := by
  obtain ⟨symbol, nonTerminal, value⟩ := label
  unfold addLabel
  induction groups with
  | nil => simp [addToGroup]
  | cons group groups ih =>
      obtain ⟨hgroup, hgroups⟩ := List.forall_mem_cons.1 h
      unfold addToGroup
      split
      · exact List.forall_mem_cons.2 ⟨by simp, hgroups⟩
      · exact List.forall_mem_cons.2 ⟨hgroup, ih hgroups⟩

/-- The labels of a state, in the order in which they are grouped. -/
def stateLabels (table : ParseTable) (i : Nat) (state : ParseState) : List Label :=
  ((table.terminalEntriesById state).map fun p => (p.1, false, table.actionListId p.2)) ++
    state.nonterminalEntries.map fun p => (p.1, true, p.2.target i)

theorem groups_perm (table : ParseTable) (i : Nat) (state : ParseState) :
    (table.groups i state).Perm ((table.stateLabels i state).foldl addLabel []) := by
  unfold ParseTable.groups stateLabels
  rw [List.foldl_append, List.foldl_map, List.foldl_map]
  exact List.mergeSort_perm _ _

theorem groups_labels (table : ParseTable) (i : Nat) (state : ParseState) :
    ((table.groups i state).flatMap Group.labels).Perm (table.stateLabels i state) ∧
      ∀ group ∈ table.groups i state, group.symbols ≠ [] := by
  have hfold : ∀ (labels : List Label) (groups : List Group), (∀ group ∈ groups, group.symbols ≠ []) →
      ((labels.foldl addLabel groups).flatMap Group.labels).Perm
          (groups.flatMap Group.labels ++ labels) ∧
        ∀ group ∈ labels.foldl addLabel groups, group.symbols ≠ [] := by
    intro labels
    induction labels with
    | nil => exact fun groups h => ⟨by simp, h⟩
    | cons label labels ih =>
        intro groups h
        obtain ⟨hlabels, hnonempty⟩ := ih (addLabel groups label) (addLabel_nonempty h)
        refine ⟨hlabels.trans ?_, hnonempty⟩
        rw [← List.singleton_append, ← List.append_assoc]
        exact (addLabel_labels groups label).append_right _
  obtain ⟨hlabels, hnonempty⟩ := hfold (table.stateLabels i state) [] (by simp)
  have hperm := table.groups_perm i state
  refine ⟨(hperm.flatMap_right _).trans hlabels, fun group hgroup => ?_⟩
  exact hnonempty group (hperm.mem_iff.1 hgroup)

theorem labels_values (table : ParseTable) (i : Nat) (state : ParseState) :
    ((table.stateLabels i state).map fun label => (table.number label.1, label.2.2)).Perm
      (table.values i state) := by
  unfold stateLabels values terminalValues nonterminalValues
  rw [List.map_append, List.map_map, List.map_map]
  exact ((table.terminalEntriesById_perm state).map _).append_right _

theorem mem_labels {symbol : Symbol} (hgroup : group ∈ table.groups i state)
    (hsymbol : symbol ∈ group.symbols) :
    (table.number symbol, group.value) ∈ table.values i state := by
  have hlabel : (symbol, group.nonTerminal, group.value) ∈ table.stateLabels i state := by
    refine (table.groups_labels i state).1.mem_iff.1 (List.mem_flatMap.2 ⟨group, hgroup, ?_⟩)
    exact List.mem_map.2 ⟨symbol, hsymbol, rfl⟩
  exact (table.labels_values i state).mem_iff.1 (List.mem_map.2 ⟨_, hlabel, rfl⟩)

theorem exists_group {v : Nat} (h : (k, v) ∈ table.values i state) :
    ∃ group ∈ table.groups i state, ∃ symbol ∈ group.symbols, table.number symbol = k := by
  obtain ⟨label, hlabel, heq⟩ := List.mem_map.1 ((table.labels_values i state).mem_iff.2 h)
  have hgrouped := (table.groups_labels i state).1.mem_iff.2 hlabel
  obtain ⟨group, hgroup, hmem⟩ := List.mem_flatMap.1 hgrouped
  obtain ⟨symbol, hsymbol, rfl⟩ := List.mem_map.1 hmem
  exact ⟨group, hgroup, symbol, hsymbol, (Prod.mk.inj heq).1⟩

theorem labels_length_le (hnonempty : ∀ group ∈ groups, group.symbols ≠ []) :
    groups.length ≤ (groups.flatMap Group.labels).length ∧
      ∀ group ∈ groups, group.symbols.length ≤ (groups.flatMap Group.labels).length := by
  induction groups with
  | nil => simp
  | cons group groups ih =>
      obtain ⟨hgroup, hgroups⟩ := List.forall_mem_cons.1 hnonempty
      obtain ⟨hcount, hsizes⟩ := ih hgroups
      have hlength : ((group :: groups).flatMap Group.labels).length =
          group.symbols.length + (groups.flatMap Group.labels).length := by
        rw [List.flatMap_cons, List.length_append, Group.labels, List.length_map]
      have hpos := List.length_pos_iff.2 hgroup
      rw [hlength, List.length_cons]
      refine ⟨by omega, List.forall_mem_cons.2 ⟨Nat.le_add_right _ _, fun g hg => ?_⟩⟩
      exact Nat.le_trans (hsizes g hg) (Nat.le_add_left _ _)

theorem groups_length_le (table : ParseTable) (i : Nat) (state : ParseState) :
    (table.groups i state).length ≤ (table.values i state).length ∧
      ∀ group ∈ table.groups i state, group.symbols.length ≤ (table.values i state).length := by
  obtain ⟨hlabels, hnonempty⟩ := table.groups_labels i state
  rw [← (table.labels_values i state).length_eq, List.length_map, ← hlabels.length_eq]
  exact labels_length_le hnonempty

/-! ## Small rows -/

theorem renderGroups_length (table : ParseTable) (hnonempty : ∀ group ∈ groups, group.symbols ≠ []) :
    (groups.flatMap table.renderGroup).length ≤ 3 * (groups.flatMap Group.labels).length := by
  induction groups with
  | nil => exact Nat.zero_le _
  | cons group groups ih =>
      obtain ⟨hgroup, hgroups⟩ := List.forall_mem_cons.1 hnonempty
      have hpos := List.length_pos_iff.2 hgroup
      have htail := ih hgroups
      simp only [List.flatMap_cons, List.length_append, renderGroup, Group.labels, List.length_cons,
        List.length_map, List.length_mergeSort]
      omega

theorem smallRow_length_le (table : ParseTable) (i : Nat) (state : ParseState) :
    (table.smallRow i state).length ≤ 1 + 3 * state.entryCount := by
  obtain ⟨hlabels, hnonempty⟩ := table.groups_labels i state
  have hrow := renderGroups_length table hnonempty
  have hcount : ((table.groups i state).flatMap Group.labels).length = state.entryCount := by
    rw [hlabels.length_eq, stateLabels, List.length_append, List.length_map, List.length_map,
      (table.terminalEntriesById_perm state).length_eq]
    rfl
  rw [hcount] at hrow
  rw [smallRow, List.length_cons, Nat.add_comm]
  exact Nat.add_le_add_left hrow 1

theorem searchGroups_render (hsizes : ∀ group ∈ groups, group.symbols.length < 2 ^ 16)
    (rest : List Nat) :
    searchGroups k groups.length (groups.flatMap table.renderGroup ++ rest) =
      some (((groups.find? fun group => group.symbols.any (table.symbolId · == k)).map fun group =>
        uint16 group.value).getD 0) := by
  induction groups with
  | nil => rfl
  | cons group groups ih =>
      obtain ⟨hgroup, hgroups⟩ := List.forall_mem_cons.1 hsizes
      generalize hids : (group.symbols.mergeSort symbolLe).map table.symbolId = ids
      have hlength : ids.length = group.symbols.length := by
        rw [← hids, List.length_map, List.length_mergeSort]
      have hcontains : ids.contains k = group.symbols.any (table.symbolId · == k) := by
        rw [Bool.eq_iff_iff, List.contains_iff_mem, ← hids, List.mem_map, List.any_eq_true]
        simp only [List.mem_mergeSort, beq_iff_eq]
      rw [List.flatMap_cons, renderGroup, hids]
      simp only [List.cons_append, List.append_assoc, List.length_cons]
      rw [searchGroups, uint16_of_lt hgroup, ← hlength, List.take_left, hcontains, List.find?_cons]
      cases hfound : group.symbols.any (table.symbolId · == k) with
      | true => simp
      | false =>
          rw [List.drop_left]
          simp [ih hgroups]

section Rows

variable (hwf : table.WellFormed externalTokens) (hnumbered : table.Numbered)
  (hsymbols : table.symbols.length ≤ 2 ^ 16) (hstate : state ∈ table.states)

include hnumbered hstate

theorem values_numbered {v : Nat} (h : (k, v) ∈ table.values i state) :
    k < table.symbols.length := by
  rcases List.mem_append.1 h with h | h
  · obtain ⟨p, hp, heq⟩ := List.mem_map.1 h
    exact (Prod.mk.inj heq).1 ▸ hnumbered.terminal hstate hp
  · obtain ⟨p, hp, heq⟩ := List.mem_map.1 h
    exact (Prod.mk.inj heq).1 ▸ hnumbered.nonterminal hstate hp

include hwf hsymbols

theorem smallRow_search (hvalues : (table.values i state).length < 2 ^ 16) (rest : List Nat) :
    ∃ data, table.smallRow i state ++ rest = (table.groups i state).length :: data ∧
      searchGroups k (table.groups i state).length data =
        some (uint16 (((table.values i state).lookup k).getD 0)) := by
  obtain ⟨hcount, hsizes⟩ := table.groups_length_le i state
  refine ⟨(table.groups i state).flatMap table.renderGroup ++ rest, ?_, ?_⟩
  · rw [smallRow, uint16_of_lt (Nat.lt_of_le_of_lt hcount hvalues)]
    rfl
  · rw [searchGroups_render fun group hgroup => Nat.lt_of_le_of_lt (hsizes group hgroup) hvalues]
    have hid : ∀ group ∈ table.groups i state, ∀ symbol ∈ group.symbols,
        table.symbolId symbol = table.number symbol := fun group hgroup symbol hsymbol =>
      symbolId_eq hsymbols (values_numbered hnumbered hstate (mem_labels hgroup hsymbol))
    cases hfound : (table.groups i state).find? fun group =>
        group.symbols.any (table.symbolId · == k) with
    | some group =>
        have hgroup := List.mem_of_find?_eq_some hfound
        have hany : group.symbols.any (table.symbolId · == k) = true := by
          simpa using List.find?_some hfound
        obtain ⟨symbol, hsymbol, heq⟩ := List.any_eq_true.1 hany
        rw [beq_iff_eq, hid group hgroup symbol hsymbol] at heq
        have hvalue := mem_labels hgroup hsymbol
        rw [heq] at hvalue
        rw [lookup_of_mem (values_nodup hwf hnumbered hstate) hvalue]
        rfl
    | none =>
        cases hlookup : (table.values i state).lookup k with
        | none => rfl
        | some v =>
            obtain ⟨group, hgroup, symbol, hsymbol, heq⟩ := exists_group (mem_of_lookup hlookup)
            have hnone := List.find?_eq_none.1 hfound group hgroup
            refine absurd (List.any_eq_true.2 ⟨symbol, hsymbol, ?_⟩) hnone
            rw [beq_iff_eq, hid group hgroup symbol hsymbol]
            exact heq

end Rows

theorem smallRows_get (hi : table.states[i]? = some state) (hsmall : table.largeStateCount ≤ i) :
    table.smallRows[i - table.largeStateCount]? = some (table.smallRow i state) := by
  unfold smallRows
  rw [List.getElem?_map, List.getElem?_drop, List.getElem?_zipIdx, Nat.add_sub_cancel' hsmall, hi]
  simp

/-! ## Small states -/

theorem countLargeStates_stop {threshold : Nat} {states : List ParseState}
    (h : states[countLargeStates threshold i states]? = some state) :
    2 ≤ i + countLargeStates threshold i states ∧ state.entryCount ≤ threshold := by
  induction states generalizing i with
  | nil => cases h
  | cons first states ih =>
      unfold countLargeStates at h ⊢
      split at h
      · rename_i hlarge
        rw [if_pos hlarge]
        obtain ⟨hcount, hsize⟩ := ih h
        exact ⟨by omega, hsize⟩
      · rename_i hsmall
        rw [if_neg hsmall]
        obtain rfl : first = state := Option.some.inj h
        simp only [Bool.or_eq_true, decide_eq_true_eq, not_or, Nat.not_le, Nat.not_lt,
          gt_iff_lt] at hsmall
        exact ⟨hsmall.1, hsmall.2⟩

theorem entryCount_le_of_small (hwf : table.WellFormed externalTokens)
    (hsymbols : table.symbols.length ≤ 2 ^ 16) (hi : table.states[i]? = some state)
    (hsmall : table.largeStateCount ≤ i) : state.entryCount ≤ kSmallStateThreshold := by
  obtain ⟨hilt, hget⟩ := List.getElem?_eq_some_iff.1 hi
  have hfirst := List.getElem?_eq_getElem (Nat.lt_of_le_of_lt hsmall hilt)
  obtain ⟨hstop, hthreshold⟩ := countLargeStates_stop hfirst
  have htwo : 2 ≤ table.largeStateCount := Nat.zero_add table.largeStateCount ▸ hstop
  refine Nat.le_trans ?_ (Nat.le_trans hthreshold (Nat.min_le_left _ _))
  rcases Nat.eq_or_lt_of_le hsmall with heq | hlt
  · subst heq
    rw [← hget]
  · have hsorted := List.pairwise_iff_getElem.1 (hwf.by_size (by omega))
      (table.largeStateCount - 2) (i - 2) (by rw [List.length_drop]; omega)
      (by rw [List.length_drop]; omega) (Nat.sub_lt_sub_right htwo hlt)
    simp only [List.getElem_drop, Nat.add_sub_cancel' htwo,
      Nat.add_sub_cancel' (Nat.le_trans htwo hsmall), hget] at hsorted
    exact hsorted

theorem smallRowStart_lt (hwf : table.WellFormed externalTokens)
    (hsymbols : table.symbols.length ≤ 2 ^ 16) (hstates : table.states.length ≤ 2 ^ 16) (k : Nat) :
    table.smallRowStart k < 2 ^ 32 := by
  have hrow : ∀ row ∈ table.smallRows.take k, row.length ≤ 1 + 3 * kSmallStateThreshold := by
    intro row hmem
    obtain ⟨⟨state, i⟩, hp, rfl⟩ := List.mem_map.1 (List.mem_of_mem_take hmem)
    obtain ⟨n, hn⟩ := List.mem_iff_getElem?.1 hp
    rw [List.getElem?_drop, List.getElem?_zipIdx] at hn
    obtain ⟨state', hstate', heq⟩ := Option.map_eq_some_iff.1 hn
    obtain ⟨rfl, rfl⟩ := Prod.mk.inj heq
    have hcount := entryCount_le_of_small hwf hsymbols hstate' (Nat.le_add_right _ _)
    exact Nat.le_trans (table.smallRow_length_le _ _)
      (Nat.add_le_add_left (Nat.mul_le_mul_left 3 hcount) 1)
  have hcount : (table.smallRows.take k).length ≤ 2 ^ 16 := by
    simp only [List.length_take, smallRows, List.length_map, List.length_drop, List.length_zipIdx]
    omega
  calc table.smallRowStart k
      ≤ (table.smallRows.take k).length * (1 + 3 * kSmallStateThreshold) := sum_lengths_le hrow
    _ ≤ 2 ^ 16 * (1 + 3 * kSmallStateThreshold) := Nat.mul_le_mul_right _ hcount
    _ < 2 ^ 32 := by decide

/-! ## Lookups -/

theorem lookup_value (hwf : table.WellFormed externalTokens) (hnumbered : table.Numbered)
    (hstates : table.states.length ≤ 2 ^ 16) (hsymbols : table.symbols.length ≤ 2 ^ 16)
    (hi : table.states[i]? = some state) (hk : k < table.symbols.length) :
    languageLookup (table.language externalTokens) i k =
      some (uint16 (((table.values i state).lookup k).getD 0)) := by
  have hstate : state ∈ table.states := List.mem_of_getElem? hi
  have hilt : i < table.states.length := (List.getElem?_eq_some_iff.1 hi).1
  have hlargeCount : uint32 table.largeStateCount = table.largeStateCount := by
    have hle := table.largeStateCount_le
    exact Nat.mod_eq_of_lt (by omega)
  have hsymbolCount : uint32 table.symbols.length = table.symbols.length :=
    Nat.mod_eq_of_lt (by omega)
  unfold languageLookup
  simp only [language, hlargeCount, hsymbolCount]
  split
  · rename_i hsmall
    have hrow := smallRows_get hi hsmall
    have hindex : i - table.largeStateCount < table.smallRows.length :=
      (List.getElem?_eq_some_iff.1 hrow).1
    have hmap : table.smallParseTableMap[i - table.largeStateCount]? =
        some (table.smallRowStart (i - table.largeStateCount)) := by
      rw [smallParseTableMap, List.getElem?_map, List.getElem?_range hindex, Option.map_some, uint32,
        Nat.mod_eq_of_lt (smallRowStart_lt hwf hsymbols hstates _)]
    obtain ⟨rest, hdrop⟩ := drop_rows hrow
    have hvalues : (table.values i state).length < 2 ^ 16 := by
      have hcount := entryCount_le_of_small hwf hsymbols hi hsmall
      rw [values, terminalValues, nonterminalValues, List.length_append, List.length_map,
        List.length_map]
      exact Nat.lt_of_le_of_lt hcount (by decide)
    obtain ⟨data, hdata, hsearch⟩ := smallRow_search (k := k) hwf hnumbered hsymbols hstate
      hvalues rest
    rw [hmap]
    simp only [Option.bind_eq_bind, Option.bind_some]
    rw [smallParseTable, smallRowStart, hdrop, hdata]
    exact hsearch
  · rename_i hlarge
    have hlt : i * table.symbols.length + k < 2 ^ 32 := by
      calc i * table.symbols.length + k
          < i * table.symbols.length + table.symbols.length := Nat.add_lt_add_left hk _
        _ = (i + 1) * table.symbols.length := (Nat.succ_mul i _).symm
        _ ≤ 2 ^ 16 * 2 ^ 16 := Nat.mul_le_mul (Nat.le_trans hilt hstates) hsymbols
    rw [Nat.mod_eq_of_lt hlt, parseTable_get hi (Nat.lt_of_not_le hlarge) hk,
      largeRow_get hwf hnumbered hsymbols hstate hk]

/-! ## Action lists -/

theorem mem_namedEntries (hstate : state ∈ table.states) {p : Symbol × ParseTableEntry}
    (hp : p ∈ state.terminalEntries) : p.2 ∈ table.namedEntries := by
  refine List.mem_cons_of_mem _ (List.mem_flatMap.2 ⟨state, hstate, ?_⟩)
  exact List.mem_map.2 ⟨p, (table.terminalEntriesById_perm state).mem_iff.2 hp, rfl⟩

theorem of_mem_lists (h : entry ∈ table.actionLists.items.map (·.1)) :
    entry = noActions ∨ ∃ state ∈ table.states, ∃ p ∈ state.terminalEntries, p.2 = entry := by
  obtain ⟨item, hitem, rfl⟩ := List.mem_map.1 h
  rcases Pool.internAll_only hitem with hnone | hnamed
  · cases hnone
  · rcases List.mem_cons.1 hnamed with heq | hnamed
    · exact Or.inl heq
    · obtain ⟨state, hstate, hmem⟩ := List.mem_flatMap.1 hnamed
      obtain ⟨p, hp, heq⟩ := List.mem_map.1 hmem
      exact Or.inr ⟨state, hstate, p, (table.terminalEntriesById_perm state).mem_iff.1 hp, heq⟩

theorem actionListId_eq (h : entry ∈ table.namedEntries) :
    table.actionListId entry = Pool.sizeBefore entrySize table.namedEntries entry :=
  Pool.place_internAll h

theorem noActions_place (table : ParseTable) : table.actionListId noActions = 0 :=
  Pool.place_first _ _

theorem renderEntry_length (table : ParseTable) (entry : ParseTableEntry) :
    (table.renderEntry entry).length = entrySize entry := by
  rw [renderEntry, List.length_cons, List.length_map, List.length_map, entrySize, Nat.add_comm]

theorem readActions_map (actions : List Parse.ParseAction) {n : Nat} (hn : n ≤ actions.length)
    (rest : List Parse.ParseActionEntry) :
    Parse.readActions n (actions.map .action ++ rest) = some (actions.take n) := by
  induction actions generalizing n with
  | nil =>
      obtain rfl := Nat.le_zero.1 hn
      simp [Parse.readActions]
  | cons action actions ih =>
      cases n with
      | zero => simp [Parse.readActions]
      | succ n =>
          rw [List.map_cons, List.cons_append, Parse.readActions, ih (Nat.le_of_succ_le_succ hn)]
          rfl

theorem readEntry_place (h : entry ∈ table.namedEntries) :
    Parse.readEntry (table.parseActions.drop (table.actionListId entry)) =
      some { actions := (entry.actions.map table.renderAction).take (uint8 entry.actions.length)
             isReusable := entry.reusable } := by
  have hmem : entry ∈ table.actionLists.items.map (·.1) := Pool.internAll_mem h
  obtain ⟨rest, hrest⟩ := Pool.drop_cells table.renderEntry_length hmem
  have hcount : uint8 entry.actions.length ≤ (entry.actions.map table.renderAction).length := by
    rw [List.length_map]
    exact Nat.mod_le _ _
  unfold parseActions actionListId
  rw [hrest, renderEntry, List.cons_append, Parse.readEntry, readActions_map _ hcount]
  rfl

theorem place_of_readEntry {v : Nat} {read : Parse.TableEntry}
    (h : Parse.readEntry (table.parseActions.drop v) = some read) :
    ∃ entry, entry ∈ table.actionLists.items.map (·.1) ∧ table.actionListId entry = v := by
  cases hcell : table.parseActions[v]? with
  | none =>
      rw [List.drop_eq_nil_of_le (List.getElem?_eq_none_iff.1 hcell)] at h
      cases h
  | some cell =>
      obtain ⟨hv, hget⟩ := List.getElem?_eq_some_iff.1 hcell
      rw [List.drop_eq_getElem_cons hv, hget] at h
      obtain ⟨entry, hentry, hle, hcell'⟩ := Pool.cell table.renderEntry_length hcell
      refine ⟨entry, hentry, ?_⟩
      cases hk : v - table.actionLists.place entry with
      | zero => exact Nat.le_antisymm hle (Nat.sub_eq_zero_iff_le.1 hk)
      | succ k =>
          rw [hk, renderEntry, List.getElem?_cons_succ, List.getElem?_map] at hcell'
          obtain ⟨action, -, rfl⟩ := Option.map_eq_some_iff.1 hcell'
          cases h

/-! ## Actions -/

/-- An action as a parser is to take it. -/
def meant (table : ParseTable) : ParseAction → Parse.ParseAction
  | .accept => .accept
  | .recover => .recover
  | .shiftExtra => .shift 0 true false
  | .shift state isRepetition => .shift state false isRepetition
  | .reduce symbol childCount dynamicPrecedence productionId =>
      .reduce childCount (table.number symbol) dynamicPrecedence productionId

def ActionFits : ParseAction → Prop
  | .shift state _ => state < 2 ^ 16
  | .reduce _ childCount dynamicPrecedence productionId =>
      childCount < 2 ^ 8 ∧ (-2 ^ 15 ≤ dynamicPrecedence ∧ dynamicPrecedence < 2 ^ 15) ∧
        productionId < 2 ^ 16
  | _ => True

instance : DecidablePred ActionFits
  | .shift _ _ => inferInstanceAs (Decidable (_ < _))
  | .reduce _ _ _ _ => inferInstanceAs (Decidable (_ < _ ∧ (_ ≤ _ ∧ _ < _) ∧ _ < _))
  | .accept => inferInstanceAs (Decidable True)
  | .recover => inferInstanceAs (Decidable True)
  | .shiftExtra => inferInstanceAs (Decidable True)

theorem Numbered.reduce (h : table.Numbered) (hstate : state ∈ table.states)
    {p : Symbol × ParseTableEntry} (hp : p ∈ state.terminalEntries) {childCount productionId : Nat}
    {precedence : Int} (ha : .reduce symbol childCount precedence productionId ∈ p.2.actions) :
    table.number symbol < table.symbols.length := by
  refine h _ (List.mem_flatMap.2 ⟨state, hstate, List.mem_append_left _ ?_⟩)
  refine List.mem_flatMap.2 ⟨p, hp, List.mem_cons_of_mem _ ?_⟩
  exact List.mem_filterMap.2 ⟨_, ha, rfl⟩

theorem renderAction_eq_iff {action : ParseAction} (hsymbols : table.symbols.length ≤ 2 ^ 16)
    (hnumbered : ∀ symbol childCount precedence productionId,
      action = .reduce symbol childCount precedence productionId →
        table.number symbol < table.symbols.length) :
    table.renderAction action = table.meant action ↔ ActionFits action := by
  cases action with
  | accept => simp [renderAction, meant, ActionFits]
  | recover => simp [renderAction, meant, ActionFits]
  | shiftExtra => simp [renderAction, meant, ActionFits]
  | shift state isRepetition => simp [renderAction, meant, ActionFits, uint16_eq_iff]
  | reduce symbol childCount precedence productionId =>
      have hid := symbolId_eq hsymbols (hnumbered symbol childCount precedence productionId rfl)
      simp [renderAction, meant, ActionFits, uint16_eq_iff, uint8_eq_iff, int16_eq_iff, hid]

/-- An entry as a parser is to read it. -/
def meantEntry (table : ParseTable) (entry : ParseTableEntry) : Parse.TableEntry where
  actions := entry.actions.map table.meant
  isReusable := entry.reusable

def EntryFits (entry : ParseTableEntry) : Prop :=
  entry.actions.length < 2 ^ 8 ∧ ∀ action ∈ entry.actions, ActionFits action

instance (entry : ParseTableEntry) : Decidable (EntryFits entry) :=
  inferInstanceAs (Decidable (_ < _ ∧ ∀ action ∈ _, ActionFits action))

section Entries

variable (hwf : table.WellFormed externalTokens) (hnumbered : table.Numbered)
  (hstate : state ∈ table.states) {p : Symbol × ParseTableEntry} (hp : p ∈ state.terminalEntries)

include hnumbered hstate hp

theorem readEntry_meant_iff (hsymbols : table.symbols.length ≤ 2 ^ 16) :
    Parse.readEntry (table.parseActions.drop (table.actionListId p.2)) =
      some (table.meantEntry p.2) ↔ EntryFits p.2 := by
  rw [readEntry_place (mem_namedEntries hstate hp), meantEntry, Option.some.injEq,
    Parse.TableEntry.mk.injEq, and_iff_left rfl, EntryFits]
  have haction : ∀ action ∈ p.2.actions,
      (table.renderAction action = table.meant action ↔ ActionFits action) :=
    fun action ha => renderAction_eq_iff hsymbols fun symbol childCount precedence productionId heq =>
      hnumbered.reduce hstate hp (heq ▸ ha)
  constructor
  · intro heq
    have hlength := congrArg List.length heq
    rw [List.length_take, List.length_map, List.length_map] at hlength
    have hcount : p.2.actions.length < 2 ^ 8 := by
      refine (uint8_eq_iff _).1 (Nat.le_antisymm (Nat.mod_le _ _) ?_)
      omega
    rw [(uint8_eq_iff _).2 hcount, List.take_of_length_le (by simp)] at heq
    exact ⟨hcount, fun action ha => (haction action ha).1 (List.map_inj_left.1 heq action ha)⟩
  · rintro ⟨hcount, hactions⟩
    rw [(uint8_eq_iff _).2 hcount, List.take_of_length_le (by simp)]
    exact List.map_congr_left fun action ha => (haction action ha).2 (hactions action ha)

include hwf

theorem meantEntry_inj {state' : ParseState} (hstate' : state' ∈ table.states)
    {q : Symbol × ParseTableEntry} (hq : q ∈ state'.terminalEntries)
    (h : table.meantEntry p.2 = table.meantEntry q.2) : p.2 = q.2 := by
  have hactions : p.2.actions.map table.meant = q.2.actions.map table.meant :=
    congrArg Parse.TableEntry.actions h
  have hreusable : p.2.reusable = q.2.reusable := congrArg Parse.TableEntry.isReusable h
  have hinj : ∀ a ∈ p.2.actions, ∀ b ∈ q.2.actions, table.meant a = table.meant b → a = b := by
    intro a ha b hb heq
    cases a <;> cases b <;> simp only [meant, Parse.ParseAction.shift.injEq,
      Parse.ParseAction.reduce.injEq, reduceCtorEq, Bool.true_eq_false, Bool.false_eq_true,
      and_false, false_and, ParseAction.shift.injEq, ParseAction.reduce.injEq] at heq ⊢
    · exact ⟨heq.1, heq.2.2⟩
    · rename_i symbol _ _ _ symbol' _ _ _
      obtain ⟨hcount, hnumber, hprecedence, hproduction⟩ := heq
      have hlookedUp := number_inj (hnumbered.reduce hstate hp ha) hnumber
      rw [lookedUpAs_of_nonTerminal (hwf.reductions state hstate p hp _ _ _ _ ha),
        lookedUpAs_of_nonTerminal (hwf.reductions state' hstate' q hq _ _ _ _ hb)] at hlookedUp
      exact ⟨hlookedUp, hcount, hprecedence, hproduction⟩
  have hsame : p.2.actions = q.2.actions := by
    generalize p.2.actions = as at hactions hinj
    generalize q.2.actions = bs at hactions hinj
    induction as generalizing bs with
    | nil => exact (List.map_eq_nil_iff.1 hactions.symm).symm
    | cons a as ih =>
        cases bs with
        | nil => cases hactions
        | cons b bs =>
            rw [List.map_cons, List.map_cons, List.cons.injEq] at hactions
            rw [hinj a List.mem_cons_self b List.mem_cons_self hactions.1,
              ih bs hactions.2 fun a ha b hb =>
                hinj a (List.mem_cons_of_mem _ ha) b (List.mem_cons_of_mem _ hb)]
  cases hpe : p.2
  cases hqe : q.2
  simp_all

end Entries

end ParseTable

end Ned.Editor.Grammar
