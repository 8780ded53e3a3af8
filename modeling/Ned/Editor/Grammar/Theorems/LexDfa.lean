import Ned.Editor.Grammar.Lemmas.Tables
import Ned.Editor.Parse.Lemmas.Lexer

/-!
# The rendered lexer runs the lex table

A rendered state does at a character what the state of the table does. The two lexers then go through
the text in step.
-/

namespace Ned.Editor.Grammar

open Library
open Parse (Lexer LexDfa LexDfaState Decodes dfaLex)

variable {table : LexTable} {largeSets : List CharacterSet} {ids : SymbolIds} {dfa : LexDfa}
  {state : LexState} {rendered : LexDfaState} {lexer : Lexer} {result : Bool} {fuel i : Nat}

/-! ## Tables -/

/-- An ADVANCE_MAP of the state lists U+0000. -/
def LexState.MapsNul (state : LexState) : Prop :=
  ∃ p ∈ leadingActions state.advanceActions, 0 ∈ p.1

def LexState.NulApart (state : LexState) : Prop :=
  ∀ p ∈ state.advanceActions, Grammar.NulApart p.1

namespace LexTable

structure WellFormed (table : LexTable) : Prop where
  actions : ∀ state ∈ table, ActionsWellFormed state.advanceActions
  eof : ∀ state ∈ table, ∀ action ∈ state.eofAction, action.state < 2 ^ 16

/-- The end-of-text actions do not go in a circle. -/
def EofEnds (table : LexTable) : Prop :=
  ∃ rank : Nat → Nat, ∀ i state action, table[i]? = some state → state.eofAction = some action →
    rank action.state < rank i

end LexTable

/-! ## Rendered states -/

theorem mapM_places {α β : Type} {f : α → Option β} {list : List α} {out : List β}
    (h : list.mapM f = some out) (i : Nat) :
    (list[i]? = none ∧ out[i]? = none) ∨
      ∃ a b, list[i]? = some a ∧ out[i]? = some b ∧ f a = some b := by
  induction list generalizing out i with
  | nil =>
      simp only [List.mapM_nil, Option.pure_def, Option.some.injEq] at h
      subst h
      exact Or.inl ⟨rfl, rfl⟩
  | cons a list ih =>
      simp only [List.mapM_cons, Option.bind_eq_bind, Option.pure_def, Option.bind_eq_some_iff,
        Option.some.injEq] at h
      obtain ⟨b, hb, rest, hrest, rfl⟩ := h
      cases i with
      | zero => exact Or.inr ⟨a, b, rfl, rfl, hb⟩
      | succ i =>
          rw [List.getElem?_cons_succ, List.getElem?_cons_succ]
          exact ih hrest i

/-- What a rendered state holds. -/
structure Renders (largeSets : List CharacterSet) (ids : SymbolIds) (state : LexState)
    (rendered : LexDfaState) : Prop where
  accept : rendered.accept = state.acceptAction.bind ids
  eof : rendered.eof = state.eofAction.map fun action => uint16 action.state
  transitions : rendered.transitions = renderTransitions largeSets state.advanceActions

theorem renderState_renders (h : renderState largeSets ids state = some rendered) :
    Renders largeSets ids state rendered := by
  unfold renderState at h
  cases haccept : state.acceptAction with
  | none =>
      rw [haccept] at h
      simp only [Option.bind_eq_bind, Option.bind_some, Option.some.injEq] at h
      subst h
      exact ⟨by simp [haccept], rfl, rfl⟩
  | some symbol =>
      rw [haccept] at h
      simp only [Option.bind_eq_bind, Option.bind_eq_some_iff, Option.map_eq_some_iff,
        Option.some.injEq] at h
      obtain ⟨_, ⟨id, hid, rfl⟩, rfl⟩ := h
      exact ⟨by simp [haccept, hid], rfl, rfl⟩

theorem rendered_get (h : renderLexDfa table largeSets ids = some dfa) (i : Nat) :
    (table[i]? = none ∧ dfa[i]? = none) ∨ ∃ state rendered, table[i]? = some state ∧
      dfa[i]? = some rendered ∧ Renders largeSets ids state rendered := by
  refine (mapM_places h i).imp_right ?_
  rintro ⟨state, rendered, hstate, hrendered, hrender⟩
  exact ⟨state, rendered, hstate, hrendered, renderState_renders hrender⟩

/-! ## One turn -/

section Turn

variable (hlarge : ∀ set ∈ largeSets, set.Proper) (h : Renders largeSets ids state rendered)
  (hactions : ActionsWellFormed state.advanceActions)

include hlarge h hactions

theorem transitionAt_character {c : Nat} (hc : c < kCodepointEnd) (hnul : c = 0 → state.NulApart) :
    (rendered.transitionAt (renderLargeSets largeSets) c false).map transitionAction =
      state.advanceOn c := by
  unfold LexDfaState.transitionAt LexState.advanceOn
  rw [h.transitions]
  exact renderTransitions_find hactions hlarge hc hnul

theorem transitionAt_eof (hmap : ¬state.MapsNul) :
    rendered.transitionAt (renderLargeSets largeSets) ((0 : Nat) : Int) true = none := by
  unfold LexDfaState.transitionAt
  rw [h.transitions]
  exact renderTransitions_eof hactions hlarge fun p hp hzero => hmap ⟨p, hp, hzero⟩

/-- At what a lexer reads, a rendered state does what the state says. -/
theorem transitionAt_lookahead (hreads : lexer.Reads) (hnul : 0 ∈ lexer.text → state.NulApart)
    (hmap : ¬state.MapsNul) :
    (rendered.transitionAt (renderLargeSets largeSets) lexer.lookahead lexer.atEof).map
        transitionAction = state.advanceAt lexer.lookahead lexer.atEof := by
  obtain ⟨c, hlookahead, hle, hend, hzero⟩ := hreads.lookahead_eq
  unfold LexState.advanceAt
  rw [hlookahead]
  cases heof : lexer.atEof with
  | true =>
      rw [hend heof, transitionAt_eof hlarge h hactions hmap]
      rfl
  | false =>
      have hlt : c < kCodepointEnd := Nat.lt_succ_of_le hle
      rw [transitionAt_character hlarge h hactions hlt fun hz => hnul (hzero heof hz)]
      simp

end Turn

theorem advanceOn_iff {c : Nat} {action : AdvanceAction}
    (h : ActionsWellFormed state.advanceActions) :
    state.advanceOn c = some action ↔ ∃ chars, (chars, action) ∈ state.advanceActions ∧ c ∈ chars := by
  unfold LexState.advanceOn
  generalize state.advanceActions = actions at h ⊢
  induction actions with
  | nil => simp
  | cons p actions ih =>
      obtain ⟨chars, first⟩ := p
      have hchars : chars.Proper := h.proper _ List.mem_cons_self
      obtain ⟨hapart, -⟩ := List.pairwise_cons.1 h.disjoint
      have hcontains : chars.contains c = true ↔ c ∈ chars :=
        CharacterSet.contains_iff hchars.ordered
      rw [List.find?_cons]
      simp only
      cases hin : chars.contains c with
      | true =>
          have hmem := hcontains.1 hin
          simp only [Option.map_some, Option.some.injEq]
          constructor
          · rintro rfl
            exact ⟨chars, List.mem_cons_self, hmem⟩
          · rintro ⟨chars', hmem', hc'⟩
            rcases List.mem_cons.1 hmem' with heq | hmem'
            · exact (Prod.mk.inj heq).2.symm
            · exact absurd hc' (hapart _ hmem' c hmem)
      | false =>
          have hnot : c ∉ chars := fun hmem => by
            rw [hcontains.2 hmem] at hin
            cases hin
          rw [ih h.tail]
          constructor
          · rintro ⟨chars', hmem', hc'⟩
            exact ⟨chars', List.mem_cons_of_mem _ hmem', hc'⟩
          · rintro ⟨chars', hmem', hc'⟩
            rcases List.mem_cons.1 hmem' with heq | hmem'
            · obtain ⟨rfl, -⟩ := Prod.mk.inj heq
              exact absurd hc' hnot
            · exact ⟨chars', hmem', hc'⟩

/-! ## The two lexers -/

/-- They go in step, for as long as one likes. -/
theorem dfaLex_eq_lex (hrender : renderLexDfa table largeSets ids = some dfa)
    (htable : table.WellFormed) (hlarge : ∀ set ∈ largeSets, set.Proper)
    (hmap : ∀ state ∈ table, ¬state.MapsNul) (hreads : lexer.Reads)
    (hnul : 0 ∈ lexer.text → ∀ state ∈ table, state.NulApart) :
    dfaLex (renderLargeSets largeSets) dfa fuel result lexer i =
      table.lex ids fuel result lexer i := by
  induction fuel generalizing result lexer i with
  | zero => rfl
  | succ fuel ih =>
      rw [dfaLex, LexTable.lex]
      rcases rendered_get hrender i with ⟨hstate, hrendered⟩ | ⟨state, rendered, hstate, hrendered, h⟩
      · rw [hstate, hrendered]
      · rw [hstate, hrendered]
        have hmem : state ∈ table := List.mem_of_getElem? hstate
        have hactions := htable.actions state hmem
        have hturn := transitionAt_lookahead hlarge h hactions hreads (fun hz => hnul hz state hmem)
          (hmap state hmem)
        have hnext : ∀ skip next, dfaLex (renderLargeSets largeSets) dfa fuel
            (result || (state.acceptAction.bind ids).isSome)
            ((lexer.recordAccept (state.acceptAction.bind ids)).advance skip) next =
              table.lex ids fuel (result || (state.acceptAction.bind ids).isSome)
                ((lexer.recordAccept (state.acceptAction.bind ids)).advance skip) next :=
          fun skip next => ih (hreads.recordAccept _).advance (by simpa using hnul)
        have heof : (rendered.eof.filter fun _ => lexer.atEof) =
            (state.eofAction.filter fun _ => lexer.atEof).map (·.state) := by
          rw [h.eof]
          cases hactionEof : state.eofAction with
          | none => rfl
          | some action =>
              simp only [Option.map_some, uint16_of_lt (htable.eof state hmem action hactionEof)]
              cases lexer.atEof <;> rfl
        simp only [h.accept, heof]
        cases state.eofAction.filter fun _ => lexer.atEof with
        | some action => exact hnext false action.state
        | none =>
            simp only [Option.map_none]
            cases hfound : state.advanceAt lexer.lookahead lexer.atEof with
            | none =>
                rw [hfound, Option.map_eq_none_iff] at hturn
                rw [hturn]
            | some action =>
                rw [hfound] at hturn
                obtain ⟨t, ht, haction⟩ := Option.map_eq_some_iff.1 hturn
                rw [ht]
                subst haction
                exact hnext (!t.inMainToken) t.nextState

theorem lex_ends_eof {rank : Nat → Nat}
    (hrank : ∀ i state action, table[i]? = some state → state.eofAction = some action →
      rank action.state < rank i) (heof : lexer.atEof = true) :
    ∃ fuel out, table.lex ids fuel result lexer i = some out := by
  induction hr : rank i using Nat.strongRecOn generalizing result lexer i with
  | ind r ih =>
      cases hstate : table[i]? with
      | none => exact ⟨1, _, by rw [LexTable.lex, hstate]⟩
      | some state =>
          generalize haccept : state.acceptAction.bind ids = accept
          have heof' : (lexer.recordAccept accept).atEof = true := by simpa using heof
          cases haction : state.eofAction with
          | none =>
              refine ⟨1, (result || accept.isSome, lexer.recordAccept accept), ?_⟩
              rw [LexTable.lex, hstate]
              simp [heof, haction, haccept, LexState.advanceAt]
          | some action =>
              obtain ⟨fuel, out, hout⟩ := ih _ (hr ▸ hrank i state action hstate haction) heof' rfl
              refine ⟨fuel + 1, out, ?_⟩
              rw [LexTable.lex, hstate]
              simp only [heof, haction, haccept, Option.filter_some, if_true]
              rw [Lexer.advance, if_pos heof']
              exact hout

/-- Before it every turn reads on. -/
theorem lex_ends (hends : table.EofEnds) (hreads : lexer.Reads) :
    ∃ fuel out, table.lex ids fuel result lexer i = some out := by
  obtain ⟨rank, hrank⟩ := hends
  induction hn : lexer.remaining using Nat.strongRecOn generalizing result lexer i with
  | ind n ih =>
      cases heof : lexer.atEof with
      | true => exact lex_ends_eof hrank heof
      | false =>
          cases hstate : table[i]? with
          | none => exact ⟨1, _, by rw [LexTable.lex, hstate]⟩
          | some state =>
              generalize haccept : state.acceptAction.bind ids = accept
              cases hfound : state.advanceAt lexer.lookahead false with
              | none =>
                  refine ⟨1, (result || accept.isSome, lexer.recordAccept accept), ?_⟩
                  rw [LexTable.lex, hstate]
                  simp [heof, hfound, haccept]
              | some action =>
                  have hrecorded := hreads.recordAccept accept
                  have heof' : (lexer.recordAccept accept).atEof = false := by simpa using heof
                  have hless := hrecorded.remaining_advance (!action.inMainToken) heof'
                  rw [Lexer.remaining_recordAccept, hn] at hless
                  obtain ⟨fuel, out, hout⟩ := ih _ hless hrecorded.advance rfl
                  refine ⟨fuel + 1, out, ?_⟩
                  rw [LexTable.lex, hstate]
                  simp only [heof, hfound, haccept]
                  simpa using hout

/-- A rendered state takes the advance action whose set holds the character, and no other; at the end
of the text it takes none. So the rendered lexer and the table's find the same tokens. -/
theorem rendered_lexer_runs_table (hrender : renderLexDfa table largeSets ids = some dfa)
    (htable : table.WellFormed) (hlarge : ∀ set ∈ largeSets, set.Proper) :
    (∀ (i : Nat) (state : LexState), table[i]? = some state →
      ∃ rendered : LexDfaState, dfa[i]? = some rendered ∧
      rendered.accept = state.acceptAction.bind ids ∧
      rendered.eof = state.eofAction.map (·.state) ∧
      (∀ c : Nat, c < kCodepointEnd → (c = 0 → state.NulApart) → ∀ action,
        (rendered.transitionAt (renderLargeSets largeSets) c false).map transitionAction =
            some action ↔ ∃ chars, (chars, action) ∈ state.advanceActions ∧ c ∈ chars) ∧
      (¬state.MapsNul → rendered.transitionAt (renderLargeSets largeSets) 0 true = none)) ∧
    ∀ (lexer : Lexer) (position : Parse.Length), lexer.Aligned →
      Decodes (lexer.text.drop position.bytes) →
      (0 ∈ lexer.text → ∀ state ∈ table, state.NulApart) → (∀ state ∈ table, ¬state.MapsNul) →
      ∀ i, (∀ fuel, dfaLex (renderLargeSets largeSets) dfa fuel false (lexer.goto position).start i =
          table.lex ids fuel false (lexer.goto position).start i) ∧
        (table.EofEnds → ∃ fuel out,
          dfaLex (renderLargeSets largeSets) dfa fuel false (lexer.goto position).start i =
            some out) := by
  constructor
  · intro i state hstate
    rcases rendered_get hrender i with ⟨hnone, -⟩ | ⟨state', rendered, hstate', hrendered, h⟩
    · rw [hnone] at hstate
      cases hstate
    · obtain rfl : state' = state := Option.some.inj (hstate'.symm.trans hstate)
      have hmem : state' ∈ table := List.mem_of_getElem? hstate
      have hactions := htable.actions state' hmem
      refine ⟨rendered, hrendered, h.accept, ?_, fun c hc hnul action => ?_, fun hmap => ?_⟩
      · rw [h.eof]
        cases haction : state'.eofAction with
        | none => rfl
        | some action =>
            rw [Option.map_some, Option.map_some,
              uint16_of_lt (htable.eof state' hmem action haction)]
      · rw [transitionAt_character hlarge h hactions hc hnul, advanceOn_iff hactions]
      · exact transitionAt_eof hlarge h hactions hmap
  · intro lexer position haligned hposition hnul hmap i
    have hreads := Parse.Lexer.start_reads haligned hposition
    have hnul' : 0 ∈ (lexer.goto position).start.text → ∀ state ∈ table, state.NulApart := by
      rw [Parse.Lexer.start_text]
      exact hnul
    have hstep : ∀ fuel,
        dfaLex (renderLargeSets largeSets) dfa fuel false (lexer.goto position).start i =
          table.lex ids fuel false (lexer.goto position).start i :=
      fun fuel => dfaLex_eq_lex hrender htable hlarge hmap hreads hnul'
    refine ⟨hstep, fun hends => ?_⟩
    obtain ⟨fuel, out, hout⟩ := lex_ends hends hreads
    exact ⟨fuel, out, (hstep fuel).trans hout⟩

/-! ## A string literal -/

/-- A quote, anything but quotes, and a quote. -/
def stringTable : LexTable :=
  [{ advanceActions := [(⟨[⟨34, 35⟩]⟩, ⟨1, true⟩)] },
    { eofAction := some ⟨2, true⟩
      advanceActions := [(⟨[⟨0, 34⟩, ⟨35, kCodepointEnd⟩]⟩, ⟨1, true⟩), (⟨[⟨34, 35⟩]⟩, ⟨2, true⟩)] },
    { acceptAction := some { kind := .terminal } }]

theorem quote_proper : (CharacterSet.mk [⟨34, 35⟩]).Proper :=
  ⟨Ordered.cons_iff.2 ⟨by decide, by simp, .nil⟩, by simp [kCodepointEnd]⟩

theorem noQuote_proper : (CharacterSet.mk [⟨0, 34⟩, ⟨35, kCodepointEnd⟩]).Proper :=
  ⟨Ordered.cons_iff.2 ⟨by decide, by simp, Ordered.cons_iff.2 ⟨by decide, by simp, .nil⟩⟩,
    by simp [kCodepointEnd]⟩

theorem stringTable_wellFormed : stringTable.WellFormed where
  actions := by
    have hquote : 34 ∈ CharacterSet.mk [⟨34, 35⟩] := by simp [CharacterSet.mem_def]
    have hnoQuote : 0 ∈ CharacterSet.mk [⟨0, 34⟩, ⟨35, kCodepointEnd⟩] := by
      simp [CharacterSet.mem_def]
    intro state hstate
    simp only [stringTable, List.mem_cons, List.not_mem_nil, or_false] at hstate
    rcases hstate with rfl | rfl | rfl
    · exact ⟨by simpa using quote_proper, by simpa using ⟨34, hquote⟩, by simp, by simp⟩
    · refine ⟨by simpa using ⟨noQuote_proper, quote_proper⟩,
        by simpa using ⟨⟨0, hnoQuote⟩, 34, hquote⟩, ?_, by simp⟩
      simp [CharacterSet.mem_def]
      omega
    · exact ⟨by simp, by simp, by simp, by simp⟩
  eof := by simp [stringTable]

def stringIds : SymbolIds := fun _ => some 7

/-- The lexers read a literal alike, and end. -/
theorem rendered_lexer_runs_string :
    ∃ dfa, renderLexDfa stringTable [] stringIds = some dfa ∧
      (∀ fuel, dfaLex [] dfa fuel false
          (({ text := [34, 97, 34, 98] } : Lexer).goto ⟨0, ⟨0, 0⟩⟩).start 0 =
        stringTable.lex stringIds fuel false
          (({ text := [34, 97, 34, 98] } : Lexer).goto ⟨0, ⟨0, 0⟩⟩).start 0) ∧
      ∃ fuel out, dfaLex [] dfa fuel false
        (({ text := [34, 97, 34, 98] } : Lexer).goto ⟨0, ⟨0, 0⟩⟩).start 0 = some out := by
  obtain ⟨dfa, hrender⟩ := Option.isSome_iff_exists.1
    (show (renderLexDfa stringTable [] stringIds).isSome = true by decide)
  have hdecodes : Decodes [34, 97, 34, 98] :=
    .cons (by decide) (by decide) (.cons (by decide) (by decide)
      (.cons (by decide) (by decide) (.cons (by decide) (by decide) .nil)))
  have haligned : ({ text := [34, 97, 34, 98] } : Lexer).Aligned := by
    intro range hrange
    obtain rfl := List.mem_singleton.1 hrange
    exact hdecodes
  have hmap : ∀ state ∈ stringTable, ¬state.MapsNul := by
    rintro state hstate ⟨p, hp, -⟩
    have hnone : ∀ state ∈ stringTable, leadingActions state.advanceActions = [] := by decide
    rw [hnone state hstate] at hp
    cases hp
  have hends : stringTable.EofEnds := by
    refine ⟨fun i => if i = 1 then 1 else 0, fun i state action hstate haction => ?_⟩
    rcases i with _ | _ | _ | i
    · cases hstate
      cases haction
    · cases hstate
      cases haction
      decide
    · cases hstate
      cases haction
    · cases hstate
  have hruns := (rendered_lexer_runs_table hrender stringTable_wellFormed (by simp)).2
    { text := [34, 97, 34, 98] } ⟨0, ⟨0, 0⟩⟩ haligned hdecodes
    (fun hzero => absurd hzero (by decide)) hmap 0
  exact ⟨dfa, hrender, hruns.1, hruns.2 hends⟩

/-! ## U+0000 -/

/-- Any character, as a negated class that excludes none has it. -/
def anyTable : LexTable :=
  [{ advanceActions := [(⟨[⟨0, kCodepointEnd⟩]⟩, ⟨1, true⟩)] }, { acceptAction := some {} }]

/-- An ADVANCE_MAP with U+0000. -/
def mapTable : LexTable :=
  [{ advanceActions :=
      [(⟨(List.range 8).map fun i => ⟨2 * i, 2 * i + 1⟩⟩, ⟨0, true⟩)] }]

def circleTable : LexTable := [{ eofAction := some ⟨0, true⟩ }]

/-- Advancing at the end of the text is a no-op, so a state that leads back to itself there does so
for ever. -/
theorem dfaLex_circles {large : Parse.LargeCharacterSets} (hstate : dfa[i]? = some rendered)
    (hback : rendered.eof = some i ∨ rendered.eof = none ∧
      ∃ t, rendered.transitionAt large 0 true = some t ∧ t.nextState = i)
    (heof : lexer.atEof = true) (hlookahead : lexer.lookahead = 0) :
    dfaLex large dfa fuel result lexer i = none := by
  induction fuel generalizing result lexer with
  | zero => rfl
  | succ fuel ih =>
      have hstays : ∀ skip, (lexer.recordAccept rendered.accept).advance skip =
          lexer.recordAccept rendered.accept := by
        intro skip
        rw [Lexer.advance, if_pos (by simpa using heof)]
      have hnext : ∀ result, dfaLex large dfa fuel result (lexer.recordAccept rendered.accept) i = none :=
        fun result => ih (by simpa using heof) (by simpa using hlookahead)
      rw [dfaLex, hstate]
      simp only [heof, hlookahead]
      rcases hback with hend | ⟨hend, t, ht, hback⟩
      · rw [hend]
        simp only [Option.filter_some, if_true, hstays]
        exact hnext _
      · rw [hend, ht]
        simp only [Option.filter_none, hstays, hback]
        exact hnext _

/-- U+0000 is not matched where a set is checked as exclusions; at the end of the text an ADVANCE_MAP
may match it, again and again; a byte that does not decode passes the exclusions; and end-of-text
actions may go in a circle. -/
theorem rendered_lexer_at_nul :
    (∃ dfa rendered, renderLexDfa anyTable [] stringIds = some dfa ∧ dfa[0]? = some rendered ∧
      0 ∈ CharacterSet.mk [⟨0, kCodepointEnd⟩] ∧ rendered.transitionAt [] 0 false = none) ∧
    (∃ dfa, renderLexDfa mapTable [] stringIds = some dfa ∧
      ∀ fuel, dfaLex [] dfa fuel false (({ text := [] } : Lexer).goto ⟨0, ⟨0, 0⟩⟩).start 0 = none) ∧
    (∃ dfa rendered, renderLexDfa anyTable [] stringIds = some dfa ∧ dfa[0]? = some rendered ∧
      rendered.transitionAt [] Parse.kDecodeError false ≠ none) ∧
    ∃ dfa, renderLexDfa circleTable [] stringIds = some dfa ∧
      ∀ fuel, dfaLex [] dfa fuel false (({ text := [] } : Lexer).goto ⟨0, ⟨0, 0⟩⟩).start 0 = none := by
  have heof : (({ text := [] } : Lexer).goto ⟨0, ⟨0, 0⟩⟩).start.atEof = true := by decide
  have hlookahead : (({ text := [] } : Lexer).goto ⟨0, ⟨0, 0⟩⟩).start.lookahead = 0 := by decide
  refine ⟨⟨_, _, rfl, rfl, ?_, by decide⟩, ⟨_, rfl, fun fuel => ?_⟩, ⟨_, _, rfl, rfl, by decide⟩, _,
    rfl, fun fuel => ?_⟩
  · simp [CharacterSet.mem_def, kCodepointEnd]
  · exact dfaLex_circles rfl (Or.inr ⟨rfl, _, rfl, rfl⟩) heof hlookahead
  · exact dfaLex_circles rfl (Or.inl rfl) heof hlookahead

end Ned.Editor.Grammar
