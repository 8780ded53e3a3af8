import Mathlib.Data.List.Basic

/-!
# Scanners

Reading an input token by token when it arrives in pieces. What a piece leaves unread is carried over
to the next one, and the pieces read like the whole.
-/

namespace Ned.Library

variable {α β γ : Type}

/-- What stands at the front of an input. -/
inductive Front (β : Type) where
  | short
  | bad
  | token (length : Nat) (value : β)
  deriving DecidableEq

/-- How far an input was read. -/
structure Scanned (α β : Type) where
  values : List β
  rest : List α
  bad : Bool
  deriving DecidableEq

/-- A look at the front of an input that more input does not change, except that it may complete a
token that was cut short. -/
structure Scanner (α β : Type) where
  front : List α → Front β
  front_nil : front [] = .short
  token_pos : ∀ {input length value}, front input = .token length value → 0 < length
  token_le : ∀ {input length value}, front input = .token length value → length ≤ input.length
  token_append : ∀ {input length value} (more : List α), front input = .token length value →
    front (input ++ more) = .token length value
  bad_append : ∀ {input} (more : List α), front input = .bad → front (input ++ more) = .bad

namespace Scanner

variable (s : Scanner α β)

def scanFrom : Nat → List α → Scanned α β
  | 0, input => ⟨[], input, false⟩
  | fuel + 1, input =>
      match s.front input with
      | .short => ⟨[], input, false⟩
      | .bad => ⟨[], input, true⟩
      | .token length value =>
          let scanned := scanFrom fuel (input.drop length)
          { scanned with values := value :: scanned.values }

/-- Reads tokens until none is complete, or a bad one is met. -/
def scan (input : List α) : Scanned α β := s.scanFrom input.length input

/-- Reads on with one more piece. -/
def feed (scanned : Scanned α β) (piece : List α) : Scanned α β :=
  if scanned.bad then
    { scanned with rest := scanned.rest ++ piece }
  else
    let next := s.scan (scanned.rest ++ piece)
    { next with values := scanned.values ++ next.values }

/-! ## Reading -/

/-- The input starts with tokens of the given values, before the rest. -/
inductive Reads : List α → List β → List α → Prop
  | done {rest : List α} : Reads rest [] rest
  | token {input rest : List α} {length : Nat} {value : β} {values : List β}
      (h : s.front input = .token length value) (htail : Reads (input.drop length) values rest) :
      Reads input (value :: values) rest

variable {s} {input middle rest more : List α} {values values' : List β}

theorem Reads.trans (h : s.Reads input values middle) (h' : s.Reads middle values' rest) :
    s.Reads input (values ++ values') rest := by
  induction h with
  | done => exact h'
  | token hfront _ ih => exact .token hfront (ih h')

theorem Reads.append (h : s.Reads input values rest) (more : List α) :
    s.Reads (input ++ more) values (rest ++ more) := by
  induction h with
  | done => exact .done
  | token hfront _ ih =>
      refine .token (s.token_append more hfront) ?_
      rw [List.drop_append_of_le_length (s.token_le hfront)]
      exact ih

theorem Reads.length_le (h : s.Reads input values rest) : rest.length ≤ input.length := by
  induction h with
  | done => exact Nat.le_refl _
  | token _ _ ih => exact Nat.le_trans ih (List.drop_sublist _ _).length_le

/-- No token is read from the rest: the scan stops there. -/
structure Stops (s : Scanner α β) (scanned : Scanned α β) : Prop where
  short : scanned.bad = false → s.front scanned.rest = .short
  bad : scanned.bad = true → s.front scanned.rest = .bad

theorem scanFrom_reads {fuel : Nat} (hfuel : input.length ≤ fuel) :
    s.Reads input (s.scanFrom fuel input).values (s.scanFrom fuel input).rest ∧
      s.Stops (s.scanFrom fuel input) := by
  induction fuel generalizing input with
  | zero =>
      obtain rfl := List.length_eq_zero_iff.1 (Nat.le_zero.1 hfuel)
      exact ⟨.done, fun _ => s.front_nil, fun h => by cases h⟩
  | succ fuel ih =>
      rw [scanFrom]
      cases hfront : s.front input with
      | short => exact ⟨.done, fun _ => hfront, fun h => by cases h⟩
      | bad =>
          refine ⟨.done, ⟨fun h => ?_, fun _ => hfront⟩⟩
          cases h
      | token length value =>
          have hpos := s.token_pos hfront
          have hle : (input.drop length).length ≤ fuel := by
            rw [List.length_drop]
            omega
          obtain ⟨hreads, hstops⟩ := ih hle
          exact ⟨.token hfront hreads, hstops.short, hstops.bad⟩

theorem scan_reads (s : Scanner α β) (input : List α) :
    s.Reads input (s.scan input).values (s.scan input).rest :=
  (scanFrom_reads (Nat.le_refl _)).1

theorem scan_stops (s : Scanner α β) (input : List α) : s.Stops (s.scan input) :=
  (scanFrom_reads (Nat.le_refl _)).2

/-- What is read up to a stop is all that is read. -/
theorem Reads.unique (h : s.Reads input values rest) (hrest : ∀ n v, s.front rest ≠ .token n v)
    (h' : s.Reads input values' middle) (hmiddle : ∀ n v, s.front middle ≠ .token n v) :
    values = values' ∧ rest = middle := by
  induction h generalizing values' with
  | done =>
      cases h' with
      | done => exact ⟨rfl, rfl⟩
      | token hfront _ => exact absurd hfront (hrest _ _)
  | token hfront _ ih =>
      cases h' with
      | done => exact absurd hfront (hmiddle _ _)
      | token hfront' htail' =>
          rw [hfront] at hfront'
          cases hfront'
          obtain ⟨rfl, rfl⟩ := ih hrest htail'
          exact ⟨rfl, rfl⟩

theorem Stops.not_token {scanned : Scanned α β} (h : s.Stops scanned) (n : Nat) (v : β) :
    s.front scanned.rest ≠ .token n v := by
  intro htoken
  cases hbad : scanned.bad with
  | false =>
      have := (h.short hbad).symm.trans htoken
      cases this
  | true =>
      have := (h.bad hbad).symm.trans htoken
      cases this

theorem scan_eq {scanned : Scanned α β} (h : s.Reads input scanned.values scanned.rest)
    (hstops : s.Stops scanned) : s.scan input = scanned := by
  obtain ⟨hvalues, hrest⟩ :=
    (scan_reads s input).unique (scan_stops s input).not_token h hstops.not_token
  have hbad : (s.scan input).bad = scanned.bad := by
    have hscan := scan_stops s input
    cases hone : (s.scan input).bad <;> cases htwo : scanned.bad
    · rfl
    · have := (hscan.short hone).symm.trans (hrest ▸ hstops.bad htwo)
      cases this
    · have := (hscan.bad hone).symm.trans (hrest ▸ hstops.short htwo)
      cases this
    · rfl
  cases hscan : s.scan input
  cases scanned
  simp only [hscan] at hvalues hrest hbad
  subst hvalues hrest hbad
  rfl

/-! ## Pieces -/

theorem feed_scan (s : Scanner α β) (input piece : List α) :
    s.feed (s.scan input) piece = s.scan (input ++ piece) := by
  symm
  have hreads := (scan_reads s input).append piece
  have hstops := scan_stops s input
  unfold feed
  cases hbad : (s.scan input).bad with
  | true =>
      rw [if_pos rfl]
      refine scan_eq hreads ⟨fun h => ?_, fun _ => s.bad_append piece (hstops.bad hbad)⟩
      cases h
  | false =>
      rw [if_neg Bool.false_ne_true]
      have hnext := scan_stops s ((s.scan input).rest ++ piece)
      exact scan_eq (hreads.trans (scan_reads s _)) ⟨hnext.short, hnext.bad⟩

theorem scan_append (s : Scanner α β) (input more : List α) :
    s.scan (input ++ more) =
      if (s.scan input).bad then
        { s.scan input with rest := (s.scan input).rest ++ more }
      else
        let next := s.scan ((s.scan input).rest ++ more)
        { next with values := (s.scan input).values ++ next.values } :=
  (s.feed_scan input more).symm

/-! ## Codes -/

/-- The tokens are the codes of good symbols. -/
structure Speaks (s : Scanner α β) (good : γ → Prop) (code : γ → List α) (value : γ → β) :
    Prop where
  front_code : ∀ {c} (more : List α), good c →
    s.front (code c ++ more) = .token (code c).length (value c)
  of_front : ∀ {input n v}, s.front input = .token n v →
    ∃ c more, good c ∧ input = code c ++ more ∧ n = (code c).length ∧ v = value c

variable {good : γ → Prop} {code : γ → List α} {value : γ → β}

theorem Speaks.reads (h : s.Speaks good code value) {symbols : List γ}
    (hgood : ∀ c ∈ symbols, good c) (rest : List α) :
    s.Reads (symbols.flatMap code ++ rest) (symbols.map value) rest := by
  induction symbols with
  | nil => exact .done
  | cons c symbols ih =>
      obtain ⟨hc, hsymbols⟩ := List.forall_mem_cons.1 hgood
      rw [List.flatMap_cons, List.append_assoc, List.map_cons]
      refine .token (h.front_code _ hc) ?_
      rw [List.drop_left]
      exact ih hsymbols

theorem Speaks.of_reads (h : s.Speaks good code value) (hreads : s.Reads input values rest) :
    ∃ symbols : List γ, (∀ c ∈ symbols, good c) ∧ input = symbols.flatMap code ++ rest ∧
      values = symbols.map value := by
  induction hreads with
  | done => exact ⟨[], fun _ hc => absurd hc List.not_mem_nil, rfl, rfl⟩
  | token hfront _ ih =>
      obtain ⟨symbols, hgood, hdrop, rfl⟩ := ih
      obtain ⟨c, more, hc, rfl, rfl, rfl⟩ := h.of_front hfront
      rw [List.drop_left] at hdrop
      refine ⟨c :: symbols, List.forall_mem_cons.2 ⟨hc, hgood⟩, ?_, rfl⟩
      rw [hdrop, List.flatMap_cons, List.append_assoc]

/-- The input is read to its end exactly when it is a row of codes. -/
theorem Speaks.scan_eq_iff (h : s.Speaks good code value) :
    s.scan input = ⟨values, [], false⟩ ↔
      ∃ symbols : List γ, (∀ c ∈ symbols, good c) ∧ input = symbols.flatMap code ∧
        values = symbols.map value := by
  constructor
  · intro hscan
    have hreads := scan_reads s input
    rw [hscan] at hreads
    obtain ⟨symbols, hgood, hinput, hvalues⟩ := h.of_reads hreads
    exact ⟨symbols, hgood, hinput.trans (List.append_nil _), hvalues⟩
  · rintro ⟨symbols, hgood, rfl, rfl⟩
    have hreads := h.reads hgood []
    rw [List.append_nil] at hreads
    exact scan_eq hreads ⟨fun _ => s.front_nil, fun hbad => by cases hbad⟩

end Scanner

/-! ## Feeders -/

section Feeders

variable {σ : Type}

/-- Feeds pieces one after another: the state they lead to, all that comes out, and whether every
piece was taken. -/
def feedAll (feed : σ → List α → σ × List β × Bool) : σ → List (List α) → σ × List β × Bool
  | state, [] => (state, [], true)
  | state, piece :: pieces =>
      let (state, out, fed) := feed state piece
      let (state, outs, feds) := feedAll feed state pieces
      (state, out ++ outs, fed && feds)

variable {feed : σ → List α → σ × List β × Bool} {state : σ}

theorem feedAll_cons (piece : List α) (pieces : List (List α)) :
    feedAll feed state (piece :: pieces) =
      ((feedAll feed (feed state piece).1 pieces).1,
        (feed state piece).2.1 ++ (feedAll feed (feed state piece).1 pieces).2.1,
        (feed state piece).2.2 && (feedAll feed (feed state piece).1 pieces).2.2) := rfl

/-- Where two pieces can be fed as one, all of them can. -/
theorem feedAll_eq_feed_flatten (hnil : feed state [] = (state, [], true))
    (hsplit : ∀ piece more, feed state (piece ++ more) =
      ((feed (feed state piece).1 more).1,
        (feed state piece).2.1 ++ (feed (feed state piece).1 more).2.1,
        (feed state piece).2.2 && (feed (feed state piece).1 more).2.2))
    (pieces : List (List α)) : feedAll feed state pieces = feed state pieces.flatten := by
  have hcons : ∀ piece, feedAll feed state (piece :: pieces) =
      feed state (piece ++ pieces.flatten) := by
    induction pieces with
    | nil =>
        intro piece
        rw [feedAll_cons, List.flatten_nil, List.append_nil]
        simp only [feedAll, List.append_nil, Bool.and_true]
    | cons next pieces ih =>
        intro piece
        calc feedAll feed state (piece :: next :: pieces)
            = feedAll feed state ((piece ++ next) :: pieces) := by
              simp only [feedAll_cons, hsplit, List.append_assoc, Bool.and_assoc]
          _ = feed state (piece ++ next ++ pieces.flatten) := ih _
          _ = feed state (piece ++ (next :: pieces).flatten) := by
              rw [List.flatten_cons, List.append_assoc]
  cases pieces with
  | nil => exact hnil.symm
  | cons piece pieces =>
      have := hcons []
      rw [feedAll_cons, hnil] at this
      simpa using this

/-- A feeder that holds what a scan left, and gives out the values the next piece completes. -/
def Follows (s : Scanner α (List β)) (feed : σ → List α → σ × List β × Bool)
    (after : List α → σ) : Prop :=
  ∀ input more, feed (after input) more =
    (after (input ++ more),
      if (s.scan input).bad then [] else (s.scan ((s.scan input).rest ++ more)).values.flatten,
      !(s.scan (input ++ more)).bad)

variable {s : Scanner α (List β)} {after : List α → σ}

theorem scan_nil (s : Scanner α (List β)) : s.scan [] = ⟨[], [], false⟩ := rfl

theorem scan_append_values (s : Scanner α (List β)) (input more : List α) :
    (s.scan (input ++ more)).values.flatten =
      (s.scan input).values.flatten ++
        if (s.scan input).bad then [] else (s.scan ((s.scan input).rest ++ more)).values.flatten := by
  rw [s.scan_append]
  split
  · rw [List.append_nil]
  · rw [List.flatten_append]

theorem scan_append_bad (s : Scanner α (List β)) {input : List α} (more : List α)
    (h : (s.scan input).bad = true) : (s.scan (input ++ more)).bad = true := by
  rw [s.scan_append, if_pos h]
  exact h

theorem Follows.whole (h : Follows s feed after) (input : List α) :
    feed (after []) input =
      (after input, (s.scan input).values.flatten, !(s.scan input).bad) := by
  rw [h, scan_nil, List.nil_append]
  rfl

theorem Follows.pieces (h : Follows s feed after) (pieces : List (List α)) :
    feedAll feed (after []) pieces = feed (after []) pieces.flatten := by
  refine feedAll_eq_feed_flatten (h.whole []) (fun piece more => ?_) pieces
  simp only [h.whole, h piece more]
  rw [scan_append_values]
  cases hbad : (s.scan piece).bad with
  | true => simp only [scan_append_bad s more hbad, Bool.not_true, Bool.false_and]
  | false => simp only [Bool.not_false, Bool.true_and]

end Feeders

end Ned.Library
