import Ned.Editor.Regex.RegexPattern
import Ned.Text.Buffer

/-!
# Query replace

A session that offers one match after the other and edits the buffer and a copy of its content of its
own. The pattern has been compiled; only the number of its steps bounds the loop that replaces all.
-/

namespace Ned.Editor.Regex

open Text RegexPattern

inductive Stage where
  | enteringPattern
  | enteringReplacement
  | confirming
  | done
  deriving DecidableEq

structure QueryReplace where
  buffer : Buffer
  pattern : RegexPattern
  replacementText : Bytes
  stage : Stage := .enteringReplacement
  huge : Bool := false
  content : Bytes := []
  searchCursor : Nat := 0
  replacementCount : Nat := 0
  hasMatch : Bool := false
  matchStart : Nat := 0
  matchEnd : Nat := 0
  matchFormattedReplacement : Bytes := []
  binaryRefused : Bool := false
  scopeToExcerptBodies : Bool := false

/-! ## Scope -/

/-- The order of `std::pair`. -/
def pairLe (a b : Nat × Nat) : Bool := a.1 < b.1 || (a.1 == b.1 && a.2 ≤ b.2)

/-- Whether a match lies in one of the ranges, which are sorted. Without ranges every match does. -/
def inScope (scope : List (Nat × Nat)) (start stop : Nat) : Bool :=
  scope.isEmpty || ((scope.takeWhile fun range => range.1 ≤ start).any fun range => stop ≤ range.2)

/-- Where to search on after a match that was out of scope. -/
def resumeAfterRejectedMatch (content : Bytes) (matchStart : Nat) : List (Nat × Nat) → Option Nat
  | [] => none
  | range :: ranges =>
      if matchStart < range.1 then some range.1
      else if matchStart < range.2 then
        if matchStart + 1 ≥ content.length then none
        else some (nextCodepointBoundaryOf content matchStart)
      else resumeAfterRejectedMatch content matchStart ranges

theorem lt_resumeAfterRejectedMatch {content : Bytes} {matchStart resume : Nat}
    {scope : List (Nat × Nat)} (h : resumeAfterRejectedMatch content matchStart scope = some resume) :
    matchStart < resume := by
  induction scope with
  | nil => cases h
  | cons range ranges ih =>
      rw [resumeAfterRejectedMatch] at h
      split at h
      · rename_i hlt
        cases h
        exact hlt
      · split at h
        · split at h
          · cases h
          · rename_i hsize
            cases h
            exact lt_nextCodepointBoundaryOf (by omega)
        · exact ih h

/-- `Search`, which is not called past the end. -/
def searchAt (pattern : RegexPattern) (content : Bytes) (searchCursor : Nat) : Option RegexMatch :=
  if searchCursor ≤ content.length then pattern.search content searchCursor else none

theorem start_le_of_searchAt {pattern : RegexPattern} {content : Bytes} {searchCursor : Nat}
    {m : RegexMatch} (h : searchAt pattern content searchCursor = some m) :
    searchCursor ≤ m.start ∧ m.stop ≤ content.length := by
  rw [searchAt] at h
  split at h
  · exact ⟨start_le_of_search h, stop_le_of_search h⟩
  · cases h

/-- The loop of `FindNextMatch`: where it stopped, and the first match in scope. -/
def findInScope (pattern : RegexPattern) (content : Bytes) (scope : List (Nat × Nat))
    (searchCursor : Nat) : Nat × Option RegexMatch :=
  match hsearch : searchAt pattern content searchCursor with
  | none => (searchCursor, none)
  | some m =>
      if inScope scope m.start m.stop then (searchCursor, some m)
      else
        match hresume : resumeAfterRejectedMatch content m.start scope with
        | none => (searchCursor, none)
        | some resume => findInScope pattern content scope resume
  termination_by content.length + 1 - searchCursor
  decreasing_by
    obtain ⟨hstart, hstop⟩ := start_le_of_searchAt hsearch
    have hlt := lt_resumeAfterRejectedMatch hresume
    have hmatch : m.start ≤ m.stop := Nat.le_add_right _ _
    omega

namespace QueryReplace

/-- What an operation leaves, and whether an exception came out of it. -/
structure Outcome where
  session : QueryReplace
  threw : Bool := false

variable (p : Platform) (s : QueryReplace)

/-- The editable ranges that hold any bytes. -/
def scopeRanges : List (Nat × Nat) :=
  if !s.scopeToExcerptBodies || s.huge then []
  else
    ((s.buffer.excerptRanges.filter fun range => range.editable && decide (range.start < range.stop)).map
      fun range => (range.start, range.stop)).mergeSort pairLe

/-! ## Finding -/

def finished : Outcome := { session := { s with hasMatch := false, stage := .done } }

/-- The match is offered, with the text that is to replace it. -/
def offer (subject : Bytes) (m : RegexMatch) (offset : Nat) : Outcome :=
  let s := { s with hasMatch := true, matchStart := offset + m.start, matchEnd := offset + m.stop }
  match s.pattern.formatReplacement subject m s.replacementText with
  | none => { session := s, threw := true }
  | some text => { session := { s with matchFormattedReplacement := text } }

def findNextMatchHuge : Outcome :=
  match findNextRegexMatchHuge s.pattern s.buffer.storage.bytes s.searchCursor with
  | none => s.finished
  | some found => s.offer found.window found.m found.windowStart

def findNextMatch : Outcome :=
  if s.huge then s.findNextMatchHuge
  else
    let found := findInScope s.pattern s.content s.scopeRanges s.searchCursor
    let s := { s with searchCursor := found.1 }
    match found.2 with
    | none => s.finished
    | some m => s.offer s.content m 0

/-! ## Steps -/

/-- The stage after the replacement has been typed. -/
def confirmReplacement (binarySafeguardsActive : Bool) : Outcome :=
  if s.stage ≠ .enteringReplacement then { session := s }
  else if binarySafeguardsActive then { session := { s with binaryRefused := true, stage := .done } }
  else
    let s := { s with huge := s.buffer.storage.huge }
    let s := if s.huge then s else { s with content := s.buffer.storage.bytes }
    findNextMatch { s with searchCursor := s.buffer.point, stage := .confirming }

def nextCodepointBoundaryInBuffer (buffer : Buffer) (offset : Nat) : Nat :=
  let total := buffer.storage.byteLength
  if offset ≥ total then total
  else offset + nextCodepointBoundaryOf (buffer.storage.substring offset (min 4 (total - offset))) 0

/-- One codepoint on, or past the end. -/
def stepFrom (offset : Nat) : Nat :=
  if s.huge then
    let total := s.buffer.storage.byteLength
    if offset ≥ total then total + 1 else nextCodepointBoundaryInBuffer s.buffer offset
  else if offset ≥ s.content.length then s.content.length + 1
  else nextCodepointBoundaryOf s.content offset

def replaceAndNext : Option Outcome :=
  if s.stage ≠ .confirming ∨ s.hasMatch = false then some { session := s }
  else do
    match ← s.buffer.deleteRange p s.matchStart (s.matchEnd - s.matchStart) with
    | .error _ => some { session := s, threw := true }
    | .ok (buffer, _) =>
        match ← buffer.insertAt p s.matchStart s.matchFormattedReplacement with
        | .error _ => some { session := { s with buffer := buffer }, threw := true }
        | .ok buffer =>
            let wasEmptyMatch := s.matchStart == s.matchEnd
            let s := { s with buffer := buffer }
            let s :=
              if s.huge then s
              else
                { s with
                  content := s.content.take s.matchStart ++ s.matchFormattedReplacement ++
                    s.content.drop s.matchEnd }
            let s :=
              { s with
                replacementCount := s.replacementCount + 1
                searchCursor := s.matchStart + s.matchFormattedReplacement.length }
            -- only an empty replacement of an empty match is stepped past
            let s :=
              if wasEmptyMatch && s.matchFormattedReplacement.isEmpty then
                { s with searchCursor := s.stepFrom s.searchCursor }
              else s
            some s.findNextMatch

def skipAndNext : Outcome :=
  if s.stage ≠ .confirming ∨ s.hasMatch = false then { session := s }
  else if s.matchStart = s.matchEnd then findNextMatch { s with searchCursor := s.stepFrom s.matchEnd }
  else findNextMatch { s with searchCursor := s.matchEnd }

/-- `ReplaceAll`, as far as it gets in so many rounds of its loop. -/
def replaceAllWithin : Nat → QueryReplace → Option Outcome
  | 0, _ => none
  | rounds + 1, s =>
      if s.hasMatch = true ∧ s.stage = .confirming then do
        let out ← s.replaceAndNext p
        if out.threw then some out else replaceAllWithin rounds out.session
      else some { session := s }

/-- `Finish` and `Cancel`. -/
def cancel : QueryReplace := { s with stage := .done }

end QueryReplace

end Ned.Editor.Regex
