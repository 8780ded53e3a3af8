import Ned.Text.Bytes

/-!
# Patterns

The matcher is a parameter: what it says about a position may depend on the text on both sides. A search
takes the leftmost position with a match. Templates are expanded, and all matches replaced, as the source
does it.
-/

namespace Ned.Editor.Regex

open Text

/-! ## Searching -/

/-- A match at a position. The spans of the groups are relative to the position; a group that did not
take part has none. -/
structure Hit where
  length : Nat
  groups : List (Option (Int × Int))
  deriving DecidableEq

structure RegexPattern where
  /-- What matches between a text before and a text after. -/
  matchAt : Bytes → Bytes → Option Hit
  within : ∀ before after hit, matchAt before after = some hit → hit.length ≤ after.length
  captureCount : Nat
  /-- `pcre2_substring_number_from_name`. -/
  groupNumber : Bytes → Option Nat

structure RegexMatch where
  start : Nat
  hit : Hit
  deriving DecidableEq

def RegexMatch.stop (m : RegexMatch) : Nat := m.start + m.hit.length

namespace RegexPattern

/-- The match at a position of a subject. -/
def matchIn (pattern : RegexPattern) (subject : Bytes) (position : Nat) : Option Hit :=
  pattern.matchAt (subject.take position) (subject.drop position)

/-- The leftmost match at or after an offset. -/
def search (pattern : RegexPattern) (subject : Bytes) (startOffset : Nat) : Option RegexMatch :=
  (List.range' startOffset (subject.length + 1 - startOffset)).findSome? fun position =>
    (pattern.matchIn subject position).map fun hit => ⟨position, hit⟩

variable {pattern : RegexPattern} {subject : Bytes} {startOffset position : Nat} {m : RegexMatch}

theorem findSome?_range'_eq_some {β : Type} {f : Nat → Option β} {b : β} {start count : Nat} :
    (List.range' start count).findSome? f = some b ↔
      ∃ i, start ≤ i ∧ i < start + count ∧ f i = some b ∧ ∀ j, start ≤ j → j < i → f j = none := by
  induction count generalizing start with
  | zero => simp; omega
  | succ count ih =>
      rw [List.range'_succ, List.findSome?_cons]
      cases hf : f start with
      | some b' =>
          constructor
          · intro h
            cases h
            exact ⟨start, Nat.le_refl _, by omega, hf, fun j hj hlt => absurd hj (by omega)⟩
          · rintro ⟨i, hi, -, hb, hnone⟩
            rcases Nat.lt_or_eq_of_le hi with hlt | rfl
            · have := hnone start (Nat.le_refl _) hlt
              rw [hf] at this
              cases this
            · rw [← hb, hf]
      | none =>
          rw [ih]
          constructor
          · rintro ⟨i, hi, hlt, hb, hnone⟩
            refine ⟨i, by omega, by omega, hb, fun j hj hlt => ?_⟩
            rcases Nat.lt_or_eq_of_le hj with hj | rfl
            · exact hnone j hj hlt
            · exact hf
          · rintro ⟨i, hi, hlt, hb, hnone⟩
            have hne : i ≠ start := by
              rintro rfl
              rw [hf] at hb
              cases hb
            exact ⟨i, by omega, by omega, hb, fun j hj hlt => hnone j (by omega) hlt⟩

/-- What a search finds: a match with none before it. -/
theorem search_eq_some_iff : pattern.search subject startOffset = some m ↔
    startOffset ≤ m.start ∧ m.start ≤ subject.length ∧
      pattern.matchIn subject m.start = some m.hit ∧
      ∀ position, startOffset ≤ position → position < m.start →
        pattern.matchIn subject position = none := by
  rw [search, findSome?_range'_eq_some]
  constructor
  · rintro ⟨i, hi, hlt, hb, hnone⟩
    rw [Option.map_eq_some_iff] at hb
    obtain ⟨hit, hhit, rfl⟩ := hb
    exact ⟨hi, by show i ≤ _; omega, hhit, fun position hle hlt => by
      simpa using hnone position hle hlt⟩
  · rintro ⟨hi, hle, hhit, hnone⟩
    refine ⟨m.start, hi, by omega, by simp [hhit], fun position hposition hlt => ?_⟩
    simp [hnone position hposition hlt]

theorem search_eq_none_iff : pattern.search subject startOffset = none ↔
    ∀ position, startOffset ≤ position → position ≤ subject.length →
      pattern.matchIn subject position = none := by
  rw [search, List.findSome?_eq_none_iff]
  constructor
  · intro h position hle hlt
    simpa using h position (List.mem_range'_1.2 ⟨hle, by omega⟩)
  · intro h position hmem
    rw [List.mem_range'_1] at hmem
    simp [h position hmem.1 (by omega)]

theorem start_le_of_search (h : pattern.search subject startOffset = some m) : startOffset ≤ m.start :=
  (search_eq_some_iff.1 h).1

theorem stop_le_of_search (h : pattern.search subject startOffset = some m) :
    m.stop ≤ subject.length := by
  obtain ⟨-, hle, hhit, -⟩ := search_eq_some_iff.1 h
  have hwithin := pattern.within _ _ _ hhit
  rw [List.length_drop] at hwithin
  rw [RegexMatch.stop]
  omega

/-- Two subjects whose matches agree from an offset on, up to a position, have the same search results
there. -/
theorem search_congr {other : Bytes} (bound : Nat) (hm : m.start ≤ bound)
    (hbound : bound ≤ subject.length ∧ bound ≤ other.length)
    (h : ∀ position, startOffset ≤ position → position ≤ bound →
      pattern.matchIn other position = pattern.matchIn subject position) :
    pattern.search other startOffset = some m ↔ pattern.search subject startOffset = some m := by
  rw [search_eq_some_iff, search_eq_some_iff]
  constructor
  · rintro ⟨hle, -, hhit, hnone⟩
    refine ⟨hle, Nat.le_trans hm hbound.1, (h _ hle hm).symm.trans hhit, fun position hp hlt => ?_⟩
    rw [← h position hp (by omega)]
    exact hnone position hp hlt
  · rintro ⟨hle, -, hhit, hnone⟩
    refine ⟨hle, Nat.le_trans hm hbound.2, (h _ hle hm).trans hhit, fun position hp hlt => ?_⟩
    rw [h position hp (by omega)]
    exact hnone position hp hlt

end RegexPattern

/-! ## Codepoints -/

/-- `text::NextCodepointBoundary`: past the byte at the offset and the continuation bytes behind it. -/
def nextCodepointBoundaryOf (text : Bytes) (offset : Nat) : Nat :=
  if offset ≥ text.length then text.length
  else offset + 1 + ((text.drop (offset + 1)).takeWhile isContinuationByte).length

theorem lt_nextCodepointBoundaryOf {text : Bytes} {offset : Nat} (h : offset < text.length) :
    offset < nextCodepointBoundaryOf text offset := by
  rw [nextCodepointBoundaryOf, if_neg (Nat.not_le.2 h)]
  omega

theorem nextCodepointBoundaryOf_le (text : Bytes) (offset : Nat) :
    nextCodepointBoundaryOf text offset ≤ text.length := by
  rw [nextCodepointBoundaryOf]
  split
  · exact Nat.le_refl _
  · have hle := (List.takeWhile_sublist isContinuationByte (l := text.drop (offset + 1))).length_le
    rw [List.length_drop] at hle
    omega

/-- At a boundary there is nothing left to step past only at the end. -/
theorem lt_nextCodepointBoundaryOf_of_ne {text : Bytes} {offset : Nat} (hle : offset ≤ text.length)
    (hne : nextCodepointBoundaryOf text offset ≠ offset) :
    offset < nextCodepointBoundaryOf text offset := by
  rcases Nat.lt_or_eq_of_le hle with hlt | rfl
  · exact lt_nextCodepointBoundaryOf hlt
  · rw [nextCodepointBoundaryOf, if_pos (Nat.le_refl _)] at hne
    exact absurd rfl hne

/-! ## Replacement templates -/

namespace RegexPattern

variable {pattern : RegexPattern}

def groupText (subject : Bytes) (m : RegexMatch) (groupNumber : Nat) : Bytes :=
  match m.hit.groups[groupNumber]? with
  | some (some (start, stop)) => substr subject (m.start + start).toNat (stop - start).toNat
  | _ => []

def isDigit (c : UInt8) : Bool := 48 ≤ c && c ≤ 57

def digitsValue (digits : Bytes) : Nat := digits.foldl (fun value c => value * 10 + (c.toNat - 48)) 0

/-- `$nn` when it names a group, else `$n`: the group, and how many digits it took. -/
def digitReference (pattern : RegexPattern) (digits : Bytes) : Option (Nat × Nat) :=
  let two := digits.take 2
  if two.length = 2 ∧ two.all isDigit ∧ digitsValue two ≤ pattern.captureCount then
    some (digitsValue two, 2)
  else if digitsValue (digits.take 1) ≤ pattern.captureCount then
    some (digitsValue (digits.take 1), 1)
  else none

/-- The group of `${name}`, if there is one. `std::stoul` throws when a number is too large. -/
def nameReference (pattern : RegexPattern) (name : Bytes) : Option (Option Nat) :=
  if name.all isDigit then
    if digitsValue name > sizeMax then none
    else some (if digitsValue name ≤ pattern.captureCount then some (digitsValue name) else none)
  else some (pattern.groupNumber name)

/-- A piece of a template: literal text, a group, or what surrounds the match. -/
inductive Piece where
  | literal (text : Bytes)
  | group (groupNumber : Nat)
  | before
  | after
  deriving DecidableEq

/-- What a `$` and the bytes behind it stand for, and what is left of the template. -/
def reference (pattern : RegexPattern) (next : UInt8) (rest : Bytes) : Option (Piece × Bytes) :=
  if next = 36 then some (.literal [36], rest)
  else if next = 38 then some (.group 0, rest)
  else if next = 96 then some (.before, rest)
  else if next = 39 then some (.after, rest)
  else if isDigit next then
    match pattern.digitReference (next :: rest) with
    | some (groupNumber, digits) => some (.group groupNumber, (next :: rest).drop digits)
    | none => some (.literal [36], next :: rest)
  else if next = 123 then
    let name := rest.takeWhile (· != 125)
    -- no closing brace, or an empty name
    if name.length = rest.length ∨ name = [] then some (.literal [36], next :: rest)
    else
      match pattern.nameReference name with
      | none => none
      | some (some groupNumber) => some (.group groupNumber, rest.drop (name.length + 1))
      | some none => some (.literal [36], next :: rest)
  else some (.literal [36], next :: rest)

theorem length_reference {next : UInt8} {rest left : Bytes} {piece : Piece}
    (h : pattern.reference next rest = some (piece, left)) : left.length ≤ rest.length + 1 := by
  unfold reference at h
  split at h
  · cases h; omega
  · split at h
    · cases h; omega
    · split at h
      · cases h; omega
      · split at h
        · cases h; omega
        · split at h
          · split at h
            · cases h
              rw [List.length_drop, List.length_cons]
              omega
            · cases h
              exact Nat.le_refl _
          · split at h
            · simp only at h
              split at h
              · cases h
                exact Nat.le_refl _
              · split at h
                · cases h
                · cases h
                  rw [List.length_drop]
                  omega
                · cases h
                  exact Nat.le_refl _
            · cases h
              exact Nat.le_refl _

/-- The pieces of a template. -/
def pieces (pattern : RegexPattern) : Bytes → Option (List Piece)
  | [] => some []
  | [c] => some [.literal [c]]
  | c :: next :: rest =>
      if c ≠ 36 then (pattern.pieces (next :: rest)).map (.literal [c] :: ·)
      else
        match h : pattern.reference next rest with
        | none => none
        | some (piece, left) => (pattern.pieces left).map (piece :: ·)
  termination_by template => template.length
  decreasing_by
    · exact Nat.lt_succ_self _
    · exact Nat.lt_succ_of_le (length_reference h)

/-- What a piece stands for. -/
def expand (subject : Bytes) (m : RegexMatch) : Piece → Bytes
  | .literal text => text
  | .group groupNumber => groupText subject m groupNumber
  | .before => subject.take m.start
  | .after => subject.drop m.stop

/-- Nothing when a number in the template is too large, which throws. -/
def formatReplacement (pattern : RegexPattern) (subject : Bytes) (m : RegexMatch) (template : Bytes) :
    Option Bytes :=
  (pattern.pieces template).map fun pieces => pieces.flatMap (expand subject m)

/-! ## Replacing all matches -/

structure ReplaceAllResult where
  text : Bytes
  count : Nat
  deriving DecidableEq

/-- The loop: what is copied, how far, and where the next search starts. -/
def replaceAllFrom (pattern : RegexPattern) (subject template text : Bytes)
    (copiedThrough searchFrom count : Nat) : Option ReplaceAllResult :=
  match h : pattern.search subject searchFrom with
  | none => some ⟨text ++ subject.drop copiedThrough, count⟩
  | some m =>
      match pattern.formatReplacement subject m template with
      | none => none
      | some formatted =>
          let text := text ++ substr subject copiedThrough (m.start - copiedThrough) ++ formatted
          if m.stop = m.start then
            -- a zero-width match: one codepoint is copied, unless there is none left
            let next := nextCodepointBoundaryOf subject m.stop
            if hnext : next = m.stop then some ⟨text ++ subject.drop m.stop, count + 1⟩
            else
              pattern.replaceAllFrom subject template (text ++ substr subject m.stop (next - m.stop))
                next next (count + 1)
          else pattern.replaceAllFrom subject template text m.stop m.stop (count + 1)
  termination_by subject.length + 1 - searchFrom
  decreasing_by
    · have hstart := start_le_of_search h
      have hstop := stop_le_of_search h
      have hle := nextCodepointBoundaryOf_le subject m.stop
      have hlt := lt_nextCodepointBoundaryOf_of_ne hstop hnext
      omega
    · have hstart := start_le_of_search h
      have hstop := stop_le_of_search h
      have hmatch : m.start ≤ m.stop := Nat.le_add_right _ _
      omega

def replaceAll (pattern : RegexPattern) (subject template : Bytes) : Option ReplaceAllResult :=
  pattern.replaceAllFrom subject template [] 0 0 0

end RegexPattern

/-!
## Searching through windows

A huge content is searched through windows of it. Forwards a match near the end of a window is not
trusted, and a window without one is skipped. Backwards a window is scanned from its start.
-/

open Text RegexPattern

/-- How far a window reaches at first, and how much of it is not trusted. -/
structure Windows where
  body : Nat
  overlapMargin : Nat
  margin_pos : 0 < overlapMargin
  margins_le : 2 * overlapMargin ≤ body

theorem Windows.body_pos (w : Windows) : 0 < w.body := by
  have hpos := w.margin_pos
  have hle := w.margins_le
  omega

/-- `kWindowBody` and `kOverlapMargin`. -/
def windows : Windows where
  body := 4 * 1024 * 1024
  overlapMargin := 64 * 1024
  margin_pos := by decide
  margins_le := by decide

/-- A match in a window, and where the window starts. -/
structure HugeRegexMatch where
  window : Bytes
  windowStart : Nat
  m : RegexMatch

/-- The match in the whole content. -/
def HugeRegexMatch.absolute (found : HugeRegexMatch) : RegexMatch :=
  ⟨found.windowStart + found.m.start, found.m.hit⟩

/-- The bytes from `windowStart` up to `windowEnd`. -/
def window (content : Bytes) (windowStart windowEnd : Nat) : Bytes :=
  substr content windowStart (windowEnd - windowStart)

/-! ## Forwards -/

/-- The first match in the window that reaches back a margin from the place where a match may start. -/
def searchWindow (w : Windows) (pattern : RegexPattern) (content : Bytes) (searchFrom windowEnd : Nat) :
    Option HugeRegexMatch :=
  let windowStart := searchFrom - w.overlapMargin
  let view := window content windowStart windowEnd
  (pattern.search view (searchFrom - windowStart)).map fun m => ⟨view, windowStart, m⟩

/-- Fewer bytes than the margin follow the match in its window. -/
def HugeRegexMatch.nearTail (w : Windows) (found : HugeRegexMatch) : Bool :=
  found.window.length - found.m.stop < w.overlapMargin

/-- The loop, with the place where a match may start, and how far the window reaches from there. -/
def findNextFrom (w : Windows) (pattern : RegexPattern) (content : Bytes) (searchFrom reach : Nat) :
    Option HugeRegexMatch :=
  if searchFrom + reach < content.length then
    match searchWindow w pattern content searchFrom (searchFrom + reach) with
    | some found =>
        -- possibly cut short: the window is widened
        if found.nearTail w then findNextFrom w pattern content searchFrom (reach + w.body)
        else some found
    | none => findNextFrom w pattern content (searchFrom + reach) w.body
  else searchWindow w pattern content searchFrom content.length
  termination_by content.length - (searchFrom + reach)
  decreasing_by
    · have hpos := w.body_pos
      omega
    · have hpos := w.body_pos
      omega

def findNextRegexMatchHuge (pattern : RegexPattern) (content : Bytes) (searchFrom : Nat) :
    Option HugeRegexMatch :=
  if searchFrom > content.length then none
  else findNextFrom windows pattern content searchFrom windows.body

/-! ## Backwards -/

/-- The scan of a subject, of which `best` is the last match that starts before the bound. -/
def scanBefore (pattern : RegexPattern) (subject : Bytes) (bound searchFrom : Nat)
    (best : Option RegexMatch) : Option RegexMatch :=
  match h : pattern.search subject searchFrom with
  | none => best
  | some m =>
      if m.start ≥ bound then best
      else if m.stop = m.start then
        if hnext : nextCodepointBoundaryOf subject m.stop = m.stop then some m
        else scanBefore pattern subject bound (nextCodepointBoundaryOf subject m.stop) (some m)
      else scanBefore pattern subject bound m.stop (some m)
  termination_by subject.length + 1 - searchFrom
  decreasing_by
    · have hstart := start_le_of_search h
      have hstop := stop_le_of_search h
      have hle := nextCodepointBoundaryOf_le subject m.stop
      have hlt := lt_nextCodepointBoundaryOf_of_ne hstop hnext
      omega
    · have hstart := start_le_of_search h
      have hstop := stop_le_of_search h
      have hmatch : m.start ≤ m.stop := Nat.le_add_right _ _
      omega

/-- The loop, with how far the window reaches back. -/
def findLastBefore (w : Windows) (pattern : RegexPattern) (content : Bytes) (upperBound reach : Nat) :
    Option HugeRegexMatch :=
  let windowStart := upperBound - reach
  let windowEnd := min content.length (upperBound + w.overlapMargin)
  let view := window content windowStart windowEnd
  match scanBefore pattern view (upperBound - windowStart) 0 none with
  | some m => some ⟨view, windowStart, m⟩
  | none =>
      if windowStart = 0 then none
      else findLastBefore w pattern content upperBound (reach + w.body)
  termination_by upperBound - reach
  decreasing_by
    have hpos := w.body_pos
    omega

def findLastRegexMatchHugeBefore (pattern : RegexPattern) (content : Bytes) (beforeOffset : Nat) :
    Option HugeRegexMatch :=
  findLastBefore windows pattern content (min beforeOffset content.length) windows.body

end Ned.Editor.Regex
