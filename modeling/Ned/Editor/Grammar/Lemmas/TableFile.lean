import Ned.Editor.Grammar.TableFile
import Mathlib.Algebra.Group.Nat.Defs
import Mathlib.Tactic.MkIffOfInductiveProp

/-!
# Formats of a table file

For every piece of a table file, the values that fit it: what is written of them reads back, and
what is read is one of them.
-/

namespace Ned.Editor.Grammar

open Library Parse
open Text (Bytes)

/-! ## Numbers -/

namespace Writer

@[simp] theorem length_u8 (v : Nat) : (u8 v).length = 1 := rfl

@[simp] theorem length_u16 (v : Nat) : (u16 v).length = 2 := rfl

@[simp] theorem length_u32 (v : Nat) : (u32 v).length = 4 := rfl

@[simp] theorem length_flag (b : Bool) : (flag b).length = 1 := rfl

@[simp] theorem length_array {α : Type} (write : α → Bytes) (items : List α) :
    (array write items).length = 4 + (items.flatMap write).length := by
  rw [array, List.length_append]
  rfl

theorem u8_mod (v : Nat) : u8 (v % 2 ^ 8) = u8 v := congrArg (fun b => [b]) UInt8.ofNat_mod_size

theorem u16_mod (v : Nat) : u16 (v % 2 ^ 16) = u16 v := by
  have hlow : v % 2 ^ 16 % 2 ^ 8 = v % 2 ^ 8 := by omega
  have hhigh : v % 2 ^ 16 / 2 ^ 8 % 2 ^ 8 = v / 2 ^ 8 % 2 ^ 8 := by omega
  rw [u16, u16, ← u8_mod (v % 2 ^ 16), hlow, ← u8_mod (v % 2 ^ 16 / 2 ^ 8), hhigh, u8_mod, u8_mod]

end Writer

def FitsInt32 (v : Int) : Prop := -2 ^ 31 ≤ v ∧ v < 2 ^ 31

namespace Reader

theorem byte_format : ByteFormat byte (fun c => [c]) fun _ _ => True where
  reads _ := rfl
  fits _ := trivial
  length {bytes c rest} h := by
    cases bytes with
    | nil => cases h
    | cons b bytes =>
        cases h
        exact Nat.add_comm _ _

theorem u8_format : ByteFormat u8 Writer.u8 fun v _ => v < 2 ^ 8 :=
  byte_format.map UInt8.toNat UInt8.ofNat (fun _ _ h => ⟨UInt8.toNat_ofNat_of_lt' h, trivial⟩)
    (fun c _ _ => c.toNat_lt) fun _ => rfl

theorem u16_format : ByteFormat u16 Writer.u16 fun v _ => v < 2 ^ 16 := by
  have h : ByteFormat u16 (fun v => Writer.u8 (v % 2 ^ 8) ++ Writer.u8 (v / 2 ^ 8))
      fun v _ => v < 2 ^ 16 :=
    u8_format.both u8_format (fun low high => low + high * 2 ^ 8) (· % 2 ^ 8) (· / 2 ^ 8)
      (fun _ _ _ => by omega) (fun _ _ _ _ _ => by omega) fun _ _ => rfl
  refine h.congr (fun v => ?_) fun _ _ => Iff.rfl
  rw [Writer.u8_mod, Writer.u16]

theorem u32_format : ByteFormat u32 Writer.u32 fun v _ => v < 2 ^ 32 := by
  have h : ByteFormat u32 (fun v => Writer.u16 (v % 2 ^ 16) ++ Writer.u16 (v / 2 ^ 16))
      fun v _ => v < 2 ^ 32 :=
    u16_format.both u16_format (fun low high => low + high * 2 ^ 16) (· % 2 ^ 16) (· / 2 ^ 16)
      (fun _ _ _ => by omega) (fun _ _ _ _ _ => by omega) fun _ _ => rfl
  refine h.congr (fun v => ?_) fun _ _ => Iff.rfl
  rw [Writer.u16_mod, Writer.u32]

theorem i16_format : ByteFormat i16 Writer.i16 fun v _ => -2 ^ 15 ≤ v ∧ v < 2 ^ 15 := by
  refine u16_format.map (fun v => if v < 2 ^ 15 then (v : Int) else v - 2 ^ 16)
    (fun v : Int => (v % 2 ^ 16).toNat) (fun v _ hv => ?_) (fun v _ hv => ?_) fun _ => rfl
  · constructor
    · split <;> omega
    · omega
  · split <;> omega

theorem i32_format : ByteFormat i32 Writer.i32 fun v _ => FitsInt32 v := by
  refine u32_format.map (fun v => if v < 2 ^ 31 then (v : Int) else v - 2 ^ 32)
    (fun v : Int => (v % 2 ^ 32).toNat) (fun v _ hv => ?_) (fun v _ hv => ?_) fun _ => rfl
  · obtain ⟨hlow, hhigh⟩ := hv
    constructor
    · split <;> omega
    · omega
  · unfold FitsInt32
    split <;> omega

theorem flag_format : ByteFormat flag Writer.flag fun _ _ => True :=
  u8_format.map (· != 0) Bool.toNat (fun b _ _ => by cases b <;> exact ⟨rfl, by decide⟩)
    (fun _ _ _ => trivial) fun _ => rfl

/-! ## Arrays -/

theorem size_run_eq_ok {bytes rest : Bytes} {n : Nat} :
    size.run bytes = .ok (n, rest) ↔ u32.run bytes = .ok (n, rest) ∧ n ≤ rest.length := by
  have hcheck (m : Nat) (middle : Bytes) :
      (do if m > (← get).length then throw "tables: element count out of range" else pure m :
        Reader Nat).run middle = .ok (n, rest) ↔ (m = n ∧ middle = rest) ∧ n ≤ rest.length := by
    by_cases hm : m > middle.length
    · constructor
      · intro h
        simp [hm] at h
        cases h
      · rintro ⟨⟨rfl, rfl⟩, hle⟩
        exact absurd hm (Nat.not_lt_of_le hle)
    · constructor
      · intro h
        simp [hm] at h
        cases h
        exact ⟨⟨rfl, rfl⟩, Nat.le_of_not_gt hm⟩
      · rintro ⟨⟨rfl, rfl⟩, -⟩
        simp [hm]
        rfl
  constructor
  · intro h
    obtain ⟨m, middle, hm, h⟩ := ByteReader.run_bind_eq_ok.1 h
    obtain ⟨⟨rfl, rfl⟩, hle⟩ := (hcheck m middle).1 h
    exact ⟨hm, hle⟩
  · rintro ⟨h, hle⟩
    exact ByteReader.run_bind_eq_ok.2 ⟨n, rest, h, (hcheck n rest).2 ⟨⟨rfl, rfl⟩, hle⟩⟩

theorem size_format : ByteFormat size Writer.size fun n room => n < 2 ^ 32 ∧ n ≤ room where
  reads h := size_run_eq_ok.2 ⟨u32_format.reads h.1, h.2⟩
  fits h := ⟨u32_format.fits (size_run_eq_ok.1 h).1, (size_run_eq_ok.1 h).2⟩
  length h := u32_format.length (size_run_eq_ok.1 h).1

end Reader

/-- The number of elements can be written, and each of them. -/
def FitsArray {α : Type} (Good : α → Prop) (items : List α) : Prop :=
  items.length < 2 ^ 32 ∧ ∀ item ∈ items, Good item

def FitsBits (bits : Nat) (v : Nat) : Prop := v < 2 ^ bits

abbrev FitsStr : Bytes → Prop := FitsArray fun _ => True

abbrev FitsU16s : List Nat → Prop := FitsArray (FitsBits 16)

abbrev FitsU32s : List Nat → Prop := FitsArray (FitsBits 32)

def FitsSlice (s : MapSlice) : Prop := FitsBits 16 s.index ∧ FitsBits 16 s.length

namespace Reader

theorem array_format {α : Type} {read : Reader α} {write : α → Bytes} {Good : α → Prop}
    (h : ByteFormat read write fun item _ => Good item)
    (hpos : ∀ item, 0 < (write item).length) :
    ByteFormat (array read) (Writer.array write) fun items _ => FitsArray Good items where
  reads {items rest} hfits := by
    have hsize : items.length ≤ (items.flatMap write ++ rest).length := by
      rw [List.length_append]
      exact Nat.le_add_right_of_le (ByteFormat.length_le_flatMap fun item _ => hpos item)
    refine ByteReader.run_bind_eq_ok.2 ⟨items.length, items.flatMap write ++ rest, ?_, ?_⟩
    · rw [Writer.array, List.append_assoc]
      exact size_format.reads ⟨hfits.1, hsize⟩
    · exact (h.times items.length).reads ⟨rfl, hfits.2⟩
  fits {bytes items rest} hrun := by
    obtain ⟨n, middle, hn, hitems⟩ := ByteReader.run_bind_eq_ok.1 hrun
    obtain ⟨rfl, hgood⟩ := (h.times n).fits hitems
    exact ⟨(size_format.fits hn).1, hgood⟩
  length {bytes items rest} hrun := by
    obtain ⟨n, middle, hn, hitems⟩ := ByteReader.run_bind_eq_ok.1 hrun
    obtain ⟨rfl, -⟩ := (h.times n).fits hitems
    rw [size_format.length hn, (h.times _).length hitems, Writer.array, List.length_append,
      Nat.add_assoc]

theorem str_format : ByteFormat str Writer.str fun s _ => FitsStr s :=
  array_format byte_format fun _ => Nat.one_pos

theorem u16s_format : ByteFormat u16s Writer.u16s fun v _ => FitsU16s v :=
  array_format u16_format fun _ => Nat.two_pos

theorem u32s_format : ByteFormat u32s Writer.u32s fun v _ => FitsU32s v :=
  array_format u32_format fun _ => Nat.succ_pos 3

theorem strs_format : ByteFormat strs Writer.strs fun v _ => FitsArray FitsStr v :=
  array_format str_format fun s => by
    rw [Writer.str, Writer.length_array]
    exact Nat.add_pos_left (Nat.succ_pos 3) _

theorem slice_format : ByteFormat slice Writer.slice fun s _ => FitsSlice s :=
  u16_format.both u16_format MapSlice.mk MapSlice.index MapSlice.length (fun _ _ h => ⟨rfl, h⟩)
    (fun _ _ _ h h' => ⟨h, h'⟩) fun _ _ => rfl

theorem slices_format : ByteFormat slices Writer.slices fun v _ => FitsArray FitsSlice v :=
  array_format slice_format fun _ => Nat.succ_pos 3

end Reader

open Reader

/-! ## Lexer automata -/

theorem kindOf_eq_ok (v : Nat) (kind : LexClauseKind) :
    kindOf v = .ok kind ↔ True ∧ LexClauseKind.value kind = v := by
  constructor
  · intro h
    unfold kindOf at h
    split at h <;> cases h <;> exact ⟨trivial, rfl⟩
  · rintro ⟨-, rfl⟩
    cases kind <;> rfl

theorem readKind_format : ByteFormat readKind (fun kind => Writer.u8 (LexClauseKind.value kind))
    fun _ _ => True := by
  refine (u8_format.check LexClauseKind.value kindOf_eq_ok).congr (fun _ => rfl) fun kind _ => ?_
  cases kind <;> decide

def FitsClause (c : LexClause) : Prop := FitsInt32 c.start ∧ FitsInt32 c.last

theorem clause_format : ByteFormat readClause writeClause fun c _ => FitsClause c := by
  refine .record ?_ fun _ _ => Iff.rfl
  refine readKind_format.anyField LexClause.kind fun kind => ?_
  refine i32_format.field LexClause.start fun start => ?_
  refine i32_format.last LexClause.last fun last c => ?_
  cases c
  simp [and_assoc]

theorem clauses_format : ByteFormat readClauses writeClauses fun v _ => FitsArray FitsClause v :=
  array_format clause_format fun _ => Nat.succ_pos _

theorem option_format {read : Reader Nat} {write : Nat → Bytes} {bits : Nat}
    (h : ByteFormat read write fun v _ => FitsBits bits v)
    (hlength : ∀ v v', (write v).length = (write v').length) :
    ByteFormat (readOption read) (writeOption write) fun o _ => ∀ v ∈ o, FitsBits bits v := by
  refine flag_format.both h (fun has v => if has then some v else none) Option.isSome
    (Option.getD · 0) (fun o _ ho => ?_) (fun has v _ _ hv => ?_) fun _ _ => ?_
  · cases o with
    | none => exact ⟨rfl, trivial, Nat.two_pow_pos bits⟩
    | some v => exact ⟨rfl, trivial, ho v rfl⟩
  · cases has with
    | false =>
        intro v' hv'
        cases hv'
    | true =>
        intro v' hv'
        cases hv'
        exact hv
  · rw [Writer.length_flag, Writer.length_flag, hlength]

@[mk_iff]
structure FitsTransition (largeSetCount : Nat) (t : LexDfaTransition) : Prop where
  nextState : FitsBits 16 t.nextState
  largeSet : ∀ v ∈ t.largeSet, FitsBits 32 v
  asserted : FitsArray FitsClause t.asserted
  negated : FitsArray FitsClause t.negated
  inRange : ∀ v ∈ t.largeSet, v < largeSetCount

theorem transitionFields_format : ByteFormat readTransitionFields writeTransition fun t _ =>
    FitsBits 16 t.nextState ∧ (∀ v ∈ t.largeSet, FitsBits 32 v) ∧ FitsArray FitsClause t.asserted ∧
      FitsArray FitsClause t.negated := by
  refine .record ?_ fun _ _ => Iff.rfl
  refine u16_format.field LexDfaTransition.nextState fun nextState => ?_
  refine flag_format.anyField LexDfaTransition.inMainToken fun inMainToken => ?_
  refine flag_format.anyField LexDfaTransition.conditional fun conditional => ?_
  refine (option_format u32_format fun _ _ => rfl).field LexDfaTransition.largeSet
    fun largeSet => ?_
  refine flag_format.anyField LexDfaTransition.largeSetCheckEof fun largeSetCheckEof => ?_
  refine flag_format.anyField LexDfaTransition.assertedAnyOf fun assertedAnyOf => ?_
  refine clauses_format.field LexDfaTransition.asserted fun asserted => ?_
  refine clauses_format.last LexDfaTransition.negated fun negated t => ?_
  cases t
  simp [and_assoc]

theorem largeSets_inRange {largeSetCount : Nat} {t : LexDfaTransition} :
    (t.largeSet.all fun largeSet => largeSet < largeSetCount) = true ↔
      ∀ v ∈ t.largeSet, v < largeSetCount := by
  cases t.largeSet <;> simp

theorem transition_format (largeSetCount : Nat) :
    ByteFormat (readTransition largeSetCount) writeTransition
      fun t _ => FitsTransition largeSetCount t := by
  refine (transitionFields_format.checkIf _).congr (fun _ => rfl) fun t _ => ?_
  rw [largeSets_inRange]
  constructor
  · rintro ⟨hnext, hlarge, hasserted, hnegated, hrange⟩
    exact ⟨hrange, hnext, hlarge, hasserted, hnegated⟩
  · rintro ⟨hrange, hnext, hlarge, hasserted, hnegated⟩
    exact ⟨hnext, hlarge, hasserted, hnegated, hrange⟩

@[mk_iff]
structure FitsState (largeSetCount : Nat) (s : LexDfaState) : Prop where
  accept : ∀ v ∈ s.accept, FitsBits 16 v
  eof : ∀ v ∈ s.eof, FitsBits 16 v
  transitions : FitsArray (FitsTransition largeSetCount) s.transitions

theorem state_format (largeSetCount : Nat) :
    ByteFormat (readState largeSetCount) writeState fun s _ => FitsState largeSetCount s := by
  refine .record ?_ fun s _ => fitsState_iff largeSetCount s
  refine (option_format u16_format fun _ _ => rfl).field LexDfaState.accept fun accept => ?_
  refine (option_format u16_format fun _ _ => rfl).field LexDfaState.eof fun eof => ?_
  refine (array_format (transition_format largeSetCount) fun _ => Nat.succ_pos _).last
    LexDfaState.transitions fun transitions s => ?_
  cases s
  simp [and_assoc]

@[mk_iff]
structure FitsDfa (largeSetCount : Nat) (dfa : LexDfa) : Prop where
  states : FitsArray (FitsState largeSetCount) dfa
  closed : dfa.all (LexDfaState.leadsBelow dfa.length) = true

theorem dfa_format (largeSetCount : Nat) :
    ByteFormat (readDfa largeSetCount) writeDfa fun dfa _ => FitsDfa largeSetCount dfa := by
  have hstates := array_format (state_format largeSetCount) fun _ => Nat.succ_pos _
  refine (hstates.checkIf _).congr (fun _ => rfl) fun dfa _ => ?_
  rw [fitsDfa_iff, and_comm]

/-! ## Parse actions -/

def FitsAction : Parse.ParseAction → Prop
  | .shift state _ _ => FitsBits 16 state
  | .reduce childCount symbol dynamicPrecedence productionId =>
      FitsBits 8 childCount ∧ FitsBits 16 symbol ∧
        (-2 ^ 15 ≤ dynamicPrecedence ∧ dynamicPrecedence < 2 ^ 15) ∧ FitsBits 16 productionId
  | .accept => True
  | .recover => True

open ByteReader in
theorem readAction_spec {bytes rest : Bytes} {action : Parse.ParseAction}
    (h : readAction.run bytes = .ok (action, rest)) :
    FitsAction action ∧ bytes.length = (writeAction action).length + rest.length := by
  obtain ⟨type, middle, htype, h⟩ := run_bind_eq_ok.1 h
  have hbytes := u8_format.length htype
  split at h
  · obtain ⟨state, _, hstate, h⟩ := run_bind_eq_ok.1 h
    obtain ⟨extra, _, hextra, h⟩ := run_bind_eq_ok.1 h
    obtain ⟨repetition, _, hrepetition, h⟩ := run_bind_eq_ok.1 h
    obtain ⟨rfl, rfl⟩ := run_pure_eq_ok.1 h
    refine ⟨u16_format.fits hstate, ?_⟩
    rw [hbytes, u16_format.length hstate, flag_format.length hextra, flag_format.length hrepetition]
    simp only [writeAction, List.length_append, Writer.length_u8, Nat.add_assoc]
  · obtain ⟨childCount, _, hcount, h⟩ := run_bind_eq_ok.1 h
    obtain ⟨symbol, _, hsymbol, h⟩ := run_bind_eq_ok.1 h
    obtain ⟨dynamicPrecedence, _, hprecedence, h⟩ := run_bind_eq_ok.1 h
    obtain ⟨productionId, _, hid, h⟩ := run_bind_eq_ok.1 h
    obtain ⟨rfl, rfl⟩ := run_pure_eq_ok.1 h
    refine ⟨⟨u8_format.fits hcount, u16_format.fits hsymbol, i16_format.fits hprecedence,
      u16_format.fits hid⟩, ?_⟩
    rw [hbytes, u8_format.length hcount, u16_format.length hsymbol, i16_format.length hprecedence,
      u16_format.length hid]
    simp only [writeAction, List.length_append, Writer.length_u8, Nat.add_assoc]
  · obtain ⟨rfl, rfl⟩ := run_pure_eq_ok.1 h
    exact ⟨trivial, hbytes⟩
  · obtain ⟨rfl, rfl⟩ := run_pure_eq_ok.1 h
    exact ⟨trivial, hbytes⟩
  · cases h

theorem action_format : ByteFormat readAction writeAction fun action _ => FitsAction action where
  reads {action rest} hfits := by
    cases action with
    | shift state extra repetition =>
        simp only [writeAction, List.append_assoc]
        refine ByteReader.run_bind_eq_ok.2 ⟨0, _, u8_format.reads (by decide), ?_⟩
        refine ByteReader.run_bind_eq_ok.2 ⟨state, _, u16_format.reads hfits, ?_⟩
        refine ByteReader.run_bind_eq_ok.2 ⟨extra, _, flag_format.reads trivial, ?_⟩
        exact ByteReader.run_bind_eq_ok.2 ⟨repetition, _, flag_format.reads trivial, rfl⟩
    | reduce childCount symbol dynamicPrecedence productionId =>
        obtain ⟨hcount, hsymbol, hprecedence, hid⟩ := hfits
        simp only [writeAction, List.append_assoc]
        refine ByteReader.run_bind_eq_ok.2 ⟨1, _, u8_format.reads (by decide), ?_⟩
        refine ByteReader.run_bind_eq_ok.2 ⟨childCount, _, u8_format.reads hcount, ?_⟩
        refine ByteReader.run_bind_eq_ok.2 ⟨symbol, _, u16_format.reads hsymbol, ?_⟩
        refine ByteReader.run_bind_eq_ok.2 ⟨dynamicPrecedence, _, i16_format.reads hprecedence, ?_⟩
        exact ByteReader.run_bind_eq_ok.2 ⟨productionId, _, u16_format.reads hid, rfl⟩
    | accept => rfl
    | recover => rfl
  fits h := (readAction_spec h).1
  length h := (readAction_spec h).2

/-- Cells in lists: a header counts the actions after it, and so many of the first list's are still to
come. -/
def FitsCells : Nat → List ParseActionEntry → Prop
  | 0, [] => True
  | 0, .entry count _ :: cells => FitsBits 8 count ∧ FitsCells count cells
  | left + 1, .action action :: cells => FitsAction action ∧ FitsCells left cells
  | _, _ => False

def cellBytes : ParseActionEntry → Bytes
  | .entry count reusable => Writer.u8 count ++ Writer.flag reusable
  | .action action => writeAction action

theorem FitsCells.le_length {left : Nat} {cells : List ParseActionEntry} (h : FitsCells left cells) :
    left ≤ cells.length := by
  induction cells generalizing left with
  | nil => cases left <;> first | exact Nat.le_refl 0 | cases h
  | cons cell cells ih =>
      cases left with
      | zero => exact Nat.zero_le _
      | succ left =>
          cases cell with
          | entry count reusable => cases h
          | action action => exact Nat.succ_le_succ (ih h.2)

theorem writeCells_eq_ok {left : Nat} {cells : List ParseActionEntry} (h : FitsCells left cells) :
    writeCells left cells = .ok (cells.flatMap cellBytes) := by
  induction cells generalizing left with
  | nil => cases left <;> first | rfl | cases h
  | cons cell cells ih =>
      cases left with
      | zero =>
          cases cell with
          | entry count reusable =>
              simp [writeCells, ih h.2, Nat.not_lt_of_le (FitsCells.le_length h.2), cellBytes]
              rfl
          | action action => cases h
      | succ left =>
          cases cell with
          | entry count reusable => cases h
          | action action =>
              simp [writeCells, ih h.2, cellBytes]
              rfl

section

open ByteReader

theorem cells_format_zero (left : Nat) :
    ByteFormat (readCells 0 left) (fun cells => cells.flatMap cellBytes)
      fun cells _ => cells.length = 0 ∧ FitsCells left cells := by
  cases left with
  | zero =>
      refine ⟨?_, ?_, ?_⟩
      · rintro cells rest ⟨hlength, -⟩
        rw [List.eq_nil_of_length_eq_zero hlength]
        rfl
      · intro bytes cells rest h
        obtain ⟨rfl, -⟩ := run_pure_eq_ok.1 h
        exact ⟨rfl, trivial⟩
      · intro bytes cells rest h
        obtain ⟨rfl, rfl⟩ := run_pure_eq_ok.1 h
        exact (Nat.zero_add _).symm
  | succ left =>
      have hfails {bytes rest : Bytes} {cells : List ParseActionEntry} :
          (readCells 0 (left + 1)).run bytes ≠ .ok (cells, rest) := by
        intro h
        obtain ⟨_, _, -, h⟩ := run_bind_eq_ok.1 h
        cases h
      refine ⟨?_, fun h => absurd h hfails, fun h => absurd h hfails⟩
      rintro cells rest ⟨hlength, h⟩
      rw [List.eq_nil_of_length_eq_zero hlength] at h
      cases h

section Succ

variable {wanted : Nat} {bytes rest : Bytes} {cells : List ParseActionEntry}
  (ih : ∀ left, ByteFormat (readCells wanted left) (fun cells => cells.flatMap cellBytes)
    fun cells _ => cells.length = wanted ∧ FitsCells left cells)

include ih

theorem readCells_header_spec (h : (readCells (wanted + 1) 0).run bytes = .ok (cells, rest)) :
    (cells.length = wanted + 1 ∧ FitsCells 0 cells) ∧
      bytes.length = (cells.flatMap cellBytes).length + rest.length := by
  obtain ⟨count, _, hcount, h⟩ := run_bind_eq_ok.1 h
  obtain ⟨reusable, _, hreusable, h⟩ := run_bind_eq_ok.1 h
  obtain ⟨tail, _, htail, h⟩ := run_bind_eq_ok.1 h
  obtain ⟨rfl, rfl⟩ := run_pure_eq_ok.1 h
  obtain ⟨hlength, hcells⟩ := (ih count).fits htail
  refine ⟨⟨congrArg (· + 1) hlength, u8_format.fits hcount, hcells⟩, ?_⟩
  rw [u8_format.length hcount, flag_format.length hreusable, (ih count).length htail,
    List.flatMap_cons, cellBytes, List.length_append, List.length_append, Nat.add_assoc, Nat.add_assoc]

theorem header_format : ByteFormat (readCells (wanted + 1) 0) (fun cells => cells.flatMap cellBytes)
    fun cells _ => cells.length = wanted + 1 ∧ FitsCells 0 cells where
  reads {cells rest} h := by
    obtain ⟨hlength, h⟩ := h
    cases cells with
    | nil => cases hlength
    | cons cell cells =>
        cases cell with
        | action action => cases h
        | entry count reusable =>
            rw [List.flatMap_cons, cellBytes, List.append_assoc, List.append_assoc]
            refine run_bind_eq_ok.2 ⟨count, _, u8_format.reads h.1, ?_⟩
            refine run_bind_eq_ok.2 ⟨reusable, _, flag_format.reads trivial, ?_⟩
            exact run_bind_eq_ok.2 ⟨cells, rest, (ih count).reads ⟨Nat.succ_inj.1 hlength, h.2⟩, rfl⟩
  fits h := (readCells_header_spec ih h).1
  length h := (readCells_header_spec ih h).2

theorem readCells_action_spec {left : Nat}
    (h : (readCells (wanted + 1) (left + 1)).run bytes = .ok (cells, rest)) :
    (cells.length = wanted + 1 ∧ FitsCells (left + 1) cells) ∧
      bytes.length = (cells.flatMap cellBytes).length + rest.length := by
  obtain ⟨action, _, haction, h⟩ := run_bind_eq_ok.1 h
  obtain ⟨tail, _, htail, h⟩ := run_bind_eq_ok.1 h
  obtain ⟨rfl, rfl⟩ := run_pure_eq_ok.1 h
  obtain ⟨hlength, hcells⟩ := (ih left).fits htail
  refine ⟨⟨congrArg (· + 1) hlength, action_format.fits haction, hcells⟩, ?_⟩
  rw [action_format.length haction, (ih left).length htail, List.flatMap_cons, cellBytes,
    List.length_append, Nat.add_assoc]

theorem action_cells_format (left : Nat) :
    ByteFormat (readCells (wanted + 1) (left + 1)) (fun cells => cells.flatMap cellBytes)
      fun cells _ => cells.length = wanted + 1 ∧ FitsCells (left + 1) cells where
  reads {cells rest} h := by
    obtain ⟨hlength, h⟩ := h
    cases cells with
    | nil => cases hlength
    | cons cell cells =>
        cases cell with
        | entry count reusable => cases h
        | action action =>
            rw [List.flatMap_cons, cellBytes, List.append_assoc]
            refine run_bind_eq_ok.2 ⟨action, _, action_format.reads h.1, ?_⟩
            exact run_bind_eq_ok.2 ⟨cells, rest, (ih left).reads ⟨Nat.succ_inj.1 hlength, h.2⟩, rfl⟩
  fits h := (readCells_action_spec ih h).1
  length h := (readCells_action_spec ih h).2

end Succ

theorem cells_format (wanted left : Nat) :
    ByteFormat (readCells wanted left) (fun cells => cells.flatMap cellBytes)
      fun cells _ => cells.length = wanted ∧ FitsCells left cells := by
  induction wanted generalizing left with
  | zero => exact cells_format_zero left
  | succ wanted ih =>
      cases left with
      | zero => exact header_format ih
      | succ left => exact action_cells_format ih left

end

def FitsActions (actions : List ParseActionEntry) : Prop :=
  actions.length < 2 ^ 32 ∧ FitsCells 0 actions

theorem cellBytes_pos (cell : ParseActionEntry) : 0 < (cellBytes cell).length := by
  cases cell with
  | entry count reusable => exact Nat.two_pos
  | action action => cases action <;> exact Nat.succ_pos _

theorem actions_format : ByteFormat readActions
    (fun actions => Writer.size actions.length ++ actions.flatMap cellBytes)
    fun actions _ => FitsActions actions := by
  refine ⟨?_, ?_, ?_⟩
  · rintro actions rest ⟨hlength, hcells⟩
    have hsize : actions.length ≤ (actions.flatMap cellBytes ++ rest).length := by
      rw [List.length_append]
      exact Nat.le_add_right_of_le (ByteFormat.length_le_flatMap fun cell _ => cellBytes_pos cell)
    rw [List.append_assoc]
    refine ByteReader.run_bind_eq_ok.2 ⟨actions.length, _, size_format.reads ⟨hlength, hsize⟩, ?_⟩
    exact (cells_format _ 0).reads ⟨rfl, hcells⟩
  · intro bytes actions rest h
    obtain ⟨total, _, htotal, h⟩ := ByteReader.run_bind_eq_ok.1 h
    obtain ⟨rfl, hcells⟩ := (cells_format total 0).fits h
    exact ⟨(size_format.fits htotal).1, hcells⟩
  · intro bytes actions rest h
    obtain ⟨total, _, htotal, h⟩ := ByteReader.run_bind_eq_ok.1 h
    obtain ⟨rfl, hcells⟩ := (cells_format total 0).fits h
    rw [size_format.length htotal, (cells_format _ 0).length h, List.length_append, Nat.add_assoc]

/-! ## Languages -/

def FitsFieldMapEntry (e : FieldMapEntry) : Prop := FitsBits 16 e.fieldId ∧ FitsBits 8 e.childIndex

theorem fieldMapEntry_format :
    ByteFormat readFieldMapEntry writeFieldMapEntry fun e _ => FitsFieldMapEntry e := by
  refine .record ?_ fun e _ => and_congr_right fun _ => (iff_of_eq (and_true _)).symm
  refine u16_format.field FieldMapEntry.fieldId fun fieldId => ?_
  refine u8_format.field FieldMapEntry.childIndex fun childIndex => ?_
  refine flag_format.anyLast FieldMapEntry.inherited fun inherited e => ?_
  cases e
  simp [and_assoc]

theorem symbolMetadata_format :
    ByteFormat readSymbolMetadata writeSymbolMetadata fun _ _ => True := by
  refine .record ?_ fun _ _ => Iff.rfl
  refine flag_format.anyField SymbolMetadata.visible fun visible => ?_
  refine flag_format.anyField SymbolMetadata.named fun named => ?_
  refine flag_format.anyLast SymbolMetadata.supertype fun supertype m => ?_
  cases m
  simp [and_assoc]

def FitsLexerMode (m : LexerMode) : Prop :=
  FitsBits 16 m.lexState ∧ FitsBits 16 m.externalLexState ∧ FitsBits 16 m.reservedWordSetId

theorem lexerMode_format : ByteFormat readLexerMode writeLexerMode fun m _ => FitsLexerMode m := by
  refine .record ?_ fun _ _ => Iff.rfl
  refine u16_format.field LexerMode.lexState fun lexState => ?_
  refine u16_format.field LexerMode.externalLexState fun externalLexState => ?_
  refine u16_format.last LexerMode.reservedWordSetId fun reservedWordSetId m => ?_
  cases m
  simp [and_assoc]

def FitsRange (range : LexCharacterRange) : Prop := FitsInt32 range.start ∧ FitsInt32 range.last

theorem range_format : ByteFormat readRange writeRange fun range _ => FitsRange range := by
  refine .record ?_ fun _ _ => Iff.rfl
  refine i32_format.field LexCharacterRange.start fun start => ?_
  refine i32_format.last LexCharacterRange.last fun last range => ?_
  cases range
  simp

@[mk_iff]
structure FitsCounts (data : LanguageCounts) : Prop where
  abiVersion : data.abiVersion = kAbiVersion
  symbolCount : FitsBits 32 data.symbolCount
  aliasCount : FitsBits 32 data.aliasCount
  tokenCount : FitsBits 32 data.tokenCount
  externalTokenCount : FitsBits 32 data.externalTokenCount
  stateCount : FitsBits 32 data.stateCount
  largeStateCount : FitsBits 32 data.largeStateCount
  productionIdCount : FitsBits 32 data.productionIdCount
  fieldCount : FitsBits 32 data.fieldCount
  maxAliasSequenceLength : FitsBits 16 data.maxAliasSequenceLength
  keywordCaptureToken : FitsBits 16 data.keywordCaptureToken
  maxReservedWordSetSize : FitsBits 16 data.maxReservedWordSetSize
  supertypeCount : FitsBits 32 data.supertypeCount

theorem abiVersion_format : ByteFormat readAbiVersion Writer.u32 fun v _ => v = kAbiVersion := by
  refine (u32_format.checkIf _).congr (fun _ => rfl) fun v _ => ?_
  refine (and_iff_left_of_imp fun h => ?_).symm
  rw [h]
  decide

theorem counts_format : ByteFormat readCounts writeCounts fun data _ => FitsCounts data := by
  refine .record ?_ fun data _ => fitsCounts_iff data
  refine abiVersion_format.field LanguageCounts.abiVersion fun abiVersion => ?_
  refine u32_format.field LanguageCounts.symbolCount fun symbolCount => ?_
  refine u32_format.field LanguageCounts.aliasCount fun aliasCount => ?_
  refine u32_format.field LanguageCounts.tokenCount fun tokenCount => ?_
  refine u32_format.field LanguageCounts.externalTokenCount fun externalTokenCount => ?_
  refine u32_format.field LanguageCounts.stateCount fun stateCount => ?_
  refine u32_format.field LanguageCounts.largeStateCount fun largeStateCount => ?_
  refine u32_format.field LanguageCounts.productionIdCount fun productionIdCount => ?_
  refine u32_format.field LanguageCounts.fieldCount fun fieldCount => ?_
  refine u16_format.field LanguageCounts.maxAliasSequenceLength fun maxAliasSequenceLength => ?_
  refine u16_format.field LanguageCounts.keywordCaptureToken fun keywordCaptureToken => ?_
  refine u16_format.field LanguageCounts.maxReservedWordSetSize fun maxReservedWordSetSize => ?_
  refine u32_format.last LanguageCounts.supertypeCount fun supertypeCount data => ?_
  cases data
  simp [and_assoc]

/-- What is written after the number of the external scanner's states. -/
def bytesFromStates (language : CompiledLanguage) : Bytes :=
  language.externalScannerStates.flatMap Writer.flag ++
    (Writer.u16s language.primaryStateIds ++ (Writer.u16s language.reservedWords ++
    (Writer.u16s language.supertypeSymbols ++ (Writer.slices language.supertypeMapSlices ++
    (Writer.u16s language.supertypeMapEntries ++ (Writer.u32s language.eofCloserStarts ++
    (Writer.u16s language.eofCloserSymbols ++ (Writer.array (Writer.array writeRange) language.largeCharacterSets ++
    (writeDfa language.main ++ writeDfa language.keyword)))))))))

/-- What is written after the version. -/
def languageBytes (language : CompiledLanguage) : Bytes :=
  Writer.str language.name ++ (writeCounts language.data ++
    (Writer.u16s language.parseTable ++ (Writer.u16s language.smallParseTable ++ (Writer.u32s language.smallParseTableMap ++
    ((Writer.size language.parseActions.length ++ language.parseActions.flatMap cellBytes) ++
    (Writer.strs language.symbolNameStorage ++ (Writer.strs language.fieldNameStorage ++
    (Writer.slices language.fieldMapSlices ++ (Writer.array writeFieldMapEntry language.fieldMapEntries ++
    (Writer.array writeSymbolMetadata language.symbolMetadata ++ (Writer.u16s language.publicSymbolMap ++
    (Writer.u16s language.aliasMap ++ (Writer.u16s language.aliasSequences ++
    (Writer.array writeLexerMode language.lexModes ++ (Writer.u16s language.externalScannerSymbolMap ++
    (Writer.size language.externalScannerStateCount ++ bytesFromStates language))))))))))))))))


@[mk_iff]
structure FitsLanguage (language : CompiledLanguage) (room : Nat) : Prop where
  name : FitsStr language.name
  data : FitsCounts language.data
  parseTable : FitsU16s language.parseTable
  smallParseTable : FitsU16s language.smallParseTable
  smallParseTableMap : FitsU32s language.smallParseTableMap
  parseActions : FitsActions language.parseActions
  symbolNameStorage : FitsArray FitsStr language.symbolNameStorage
  fieldNameStorage : FitsArray FitsStr language.fieldNameStorage
  fieldMapSlices : FitsArray FitsSlice language.fieldMapSlices
  fieldMapEntries : FitsArray FitsFieldMapEntry language.fieldMapEntries
  symbolMetadata : FitsArray (fun _ => True) language.symbolMetadata
  publicSymbolMap : FitsU16s language.publicSymbolMap
  aliasMap : FitsU16s language.aliasMap
  aliasSequences : FitsU16s language.aliasSequences
  lexModes : FitsArray FitsLexerMode language.lexModes
  externalScannerSymbolMap : FitsU16s language.externalScannerSymbolMap
  externalScannerStateCount : language.externalScannerStateCount < 2 ^ 32 ∧
    language.externalScannerStateCount ≤ (bytesFromStates language).length + room
  externalScannerStates : language.externalScannerStates.length = language.stateCells
  primaryStateIds : FitsU16s language.primaryStateIds
  reservedWords : FitsU16s language.reservedWords
  supertypeSymbols : FitsU16s language.supertypeSymbols
  supertypeMapSlices : FitsArray FitsSlice language.supertypeMapSlices
  supertypeMapEntries : FitsU16s language.supertypeMapEntries
  eofCloserStarts : FitsU32s language.eofCloserStarts
  eofCloserSymbols : FitsU16s language.eofCloserSymbols
  largeCharacterSets : FitsArray (FitsArray FitsRange) language.largeCharacterSets
  main : FitsDfa language.largeCharacterSets.length language.main
  keyword : FitsDfa language.largeCharacterSets.length language.keyword

theorem states_format (n : Nat) : ByteFormat (flag.times n) (fun states => states.flatMap Writer.flag)
    fun states _ => states.length = n :=
  (flag_format.times n).congr (fun _ => rfl) fun states _ => by simp

theorem language_format : ByteFormat readLanguage languageBytes FitsLanguage := by
  refine .record ?_ fun language room => fitsLanguage_iff language room
  refine str_format.field CompiledLanguage.name fun name => ?_
  refine counts_format.field CompiledLanguage.data fun data => ?_
  refine u16s_format.field CompiledLanguage.parseTable fun parseTable => ?_
  refine u16s_format.field CompiledLanguage.smallParseTable fun smallParseTable => ?_
  refine u32s_format.field CompiledLanguage.smallParseTableMap fun smallParseTableMap => ?_
  refine actions_format.field CompiledLanguage.parseActions fun parseActions => ?_
  refine strs_format.field CompiledLanguage.symbolNameStorage fun symbolNameStorage => ?_
  refine strs_format.field CompiledLanguage.fieldNameStorage fun fieldNameStorage => ?_
  refine slices_format.field CompiledLanguage.fieldMapSlices fun fieldMapSlices => ?_
  refine (array_format fieldMapEntry_format fun _ => Nat.succ_pos _).field
    CompiledLanguage.fieldMapEntries fun fieldMapEntries => ?_
  refine (array_format symbolMetadata_format fun _ => Nat.succ_pos _).field
    CompiledLanguage.symbolMetadata fun symbolMetadata => ?_
  refine u16s_format.field CompiledLanguage.publicSymbolMap fun publicSymbolMap => ?_
  refine u16s_format.field CompiledLanguage.aliasMap fun aliasMap => ?_
  refine u16s_format.field CompiledLanguage.aliasSequences fun aliasSequences => ?_
  refine (array_format lexerMode_format fun _ => Nat.succ_pos _).field
    CompiledLanguage.lexModes fun lexModes => ?_
  refine u16s_format.field CompiledLanguage.externalScannerSymbolMap
    fun externalScannerSymbolMap => ?_
  refine size_format.field CompiledLanguage.externalScannerStateCount
    fun externalScannerStateCount => ?_
  -- the counts are known when the cells are read
  refine .congrField (fun language _ => language.externalScannerStates.length =
    externalScannerStateCount * data.externalTokenCount) (fun language _ h => ?_) ?_
  · rw [CompiledLanguage.stateCells, h.2]
    simp only [h]
  refine (states_format (externalScannerStateCount * data.externalTokenCount)).field
    CompiledLanguage.externalScannerStates fun externalScannerStates => ?_
  refine u16s_format.field CompiledLanguage.primaryStateIds fun primaryStateIds => ?_
  refine u16s_format.field CompiledLanguage.reservedWords fun reservedWords => ?_
  refine u16s_format.field CompiledLanguage.supertypeSymbols fun supertypeSymbols => ?_
  refine slices_format.field CompiledLanguage.supertypeMapSlices fun supertypeMapSlices => ?_
  refine u16s_format.field CompiledLanguage.supertypeMapEntries fun supertypeMapEntries => ?_
  refine u32s_format.field CompiledLanguage.eofCloserStarts fun eofCloserStarts => ?_
  refine u16s_format.field CompiledLanguage.eofCloserSymbols fun eofCloserSymbols => ?_
  refine (array_format (array_format range_format fun _ => Nat.succ_pos _) fun _ => Nat.succ_pos _).field
    CompiledLanguage.largeCharacterSets fun largeCharacterSets => ?_
  -- and so is the number of large sets
  refine .congrKnown (fun language _ => FitsDfa largeCharacterSets.length language.main ∧
    FitsDfa largeCharacterSets.length language.keyword) (fun language _ h => ?_) ?_
  · rw [h.2]
  refine (dfa_format largeCharacterSets.length).field CompiledLanguage.main fun main => ?_
  refine (dfa_format largeCharacterSets.length).last CompiledLanguage.keyword
    fun keyword language => ?_
  cases language
  simp [and_assoc]

end Ned.Editor.Grammar
