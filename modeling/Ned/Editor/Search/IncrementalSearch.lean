import Ned.Library.Occurrences
import Ned.Text.Buffer

/-!
# Incremental search

A session searches a buffer for its query, forwards or backwards, and wraps around. A content in memory is
searched in a snapshot of it; a huge one is read through windows that overlap by the length of the query
less one byte.
-/

namespace Ned.Editor.Search

open Library Text

inductive Direction where
  | forward
  | backward
  deriving DecidableEq

/-! ## Smart case -/

def isAsciiUpper (c : UInt8) : Bool := 65 ≤ c && c ≤ 90

def asciiLower (c : UInt8) : UInt8 := if isAsciiUpper c then c - 65 + 97 else c

def toAsciiLower (text : Bytes) : Bytes := text.map asciiLower

def hasAsciiUppercase (text : Bytes) : Bool := text.any isAsciiUpper

/-! ## Searching in a string -/

/-- `std::string::find`. -/
def find (haystack needle : Bytes) (start : Nat) : Option Nat :=
  (List.range' start (haystack.length + 1 - start)).find? fun i => decide (OccursAt needle haystack i)

/-- `std::string::rfind`: the last occurrence that starts at `last` or before it. -/
def rfind (haystack needle : Bytes) (last : Nat) : Option Nat :=
  (List.range (min last haystack.length + 1)).reverse.find? fun i =>
    decide (OccursAt needle haystack i)

theorem find_isFirst (haystack needle : Bytes) (start : Nat) (hne : needle ≠ []) :
    IsFirst (OccursAt needle haystack) start (find haystack needle start) := by
  apply isFirst_find?
  intro j hj
  have hlt := hj.lt_length hne
  omega

theorem rfind_isLast (haystack needle : Bytes) (last : Nat) (hne : needle ≠ []) :
    IsLast (OccursAt needle haystack) (last + 1) (rfind haystack needle last) := by
  apply (isLast_find? _).earlier (Nat.succ_le_succ (Nat.min_le_left _ _))
  intro j hj hlt hocc
  have hlt := hocc.lt_length hne
  omega

/-- Whether a match lies in one of the ranges, which are sorted. Without ranges every match does. -/
def inScope (scope : List (Nat × Nat)) (start stop : Nat) : Bool :=
  scope.isEmpty || ((scope.takeWhile fun range => range.1 ≤ start).any fun range => stop ≤ range.2)

theorem find_bounds {haystack needle : Bytes} {start pos : Nat} (h : find haystack needle start = some pos) :
    start ≤ pos ∧ pos ≤ haystack.length := by
  have hmem := List.mem_of_find?_eq_some h
  rw [List.mem_range'_1] at hmem
  omega

theorem rfind_le {haystack needle : Bytes} {last pos : Nat} (h : rfind haystack needle last = some pos) :
    pos ≤ last := by
  have hmem := List.mem_of_find?_eq_some h
  rw [List.mem_reverse, List.mem_range] at hmem
  omega

def findForward (scope : List (Nat × Nat)) (haystack needle : Bytes) (start : Nat) : Option Nat :=
  match _hpos : find haystack needle start with
  | none => none
  | some pos =>
      if inScope scope pos (pos + needle.length) then some pos
      else findForward scope haystack needle (pos + 1)
  termination_by haystack.length + 1 - start
  decreasing_by
    have hbounds := find_bounds _hpos
    omega

def findBackward (scope : List (Nat × Nat)) (haystack needle : Bytes) : Nat → Option Nat
  | 0 => none
  | last + 1 =>
      match _hpos : rfind haystack needle last with
      | none => none
      | some pos =>
          if inScope scope pos (pos + needle.length) then some pos
          else findBackward scope haystack needle pos
  termination_by before => before
  decreasing_by exact Nat.lt_succ_of_le (rfind_le _hpos)

/-- `PreviousCodepointBoundary` of a string. -/
def previousBoundary (text : Bytes) (offset : Nat) : Nat :=
  back (min offset text.length - 1)
where
  back : Nat → Nat
    | 0 => 0
    | prev + 1 => if (text[prev + 1]?).any isContinuationByte then back prev else prev + 1

theorem previousBoundary.back_le (text : Bytes) (prev : Nat) : previousBoundary.back text prev ≤ prev := by
  induction prev with
  | zero => exact Nat.le_refl _
  | succ prev ih =>
      rw [back]
      split
      · exact Nat.le_succ_of_le ih
      · exact Nat.le_refl _

theorem previousBoundary_lt (text : Bytes) {offset : Nat} (hpos : 0 < offset) :
    previousBoundary text offset < offset := by
  have hle := previousBoundary.back_le text (min offset text.length - 1)
  rw [previousBoundary]
  omega

/-! ## Sessions -/

theorem setPoint_storage {p : Platform} {b b' : Buffer} {byteOffset : Nat}
    (h : b.setPoint p byteOffset = some b') : b'.storage = b.storage := by
  obtain ⟨point, _, hbuffer⟩ := Option.bind_eq_some_iff.1 h
  cases hbuffer
  rfl

structure IncrementalSearch where
  buffer : Buffer
  direction : Direction
  huge : Bool
  content : Bytes
  contentLower : Bytes
  query : Bytes := []
  originalPoint : Nat
  found : Bool := true
  matchedPrefixLength : Nat := 0
  scope : List (Nat × Nat) := []
  huge_eq : huge = buffer.storage.huge
  /-- The session never edits its buffer, so its snapshot stays the buffer's text. -/
  content_eq : content = if huge then [] else buffer.storage.bytes
  contentLower_eq : contentLower = if huge then [] else toAsciiLower content

namespace IncrementalSearch

/-- The constructor. -/
def new (buffer : Buffer) (direction : Direction) : IncrementalSearch where
  buffer := buffer
  direction := direction
  huge := buffer.storage.huge
  content := if buffer.storage.huge then [] else buffer.storage.bytes
  contentLower :=
    if buffer.storage.huge then [] else
      toAsciiLower (if buffer.storage.huge then [] else buffer.storage.bytes)
  originalPoint := buffer.point
  huge_eq := rfl
  content_eq := rfl
  contentLower_eq := rfl

variable (p : Platform) (s : IncrementalSearch)

def caseSensitive : Bool := hasAsciiUppercase s.query

def haystack : Bytes := if s.caseSensitive then s.content else s.contentLower

def needle : Bytes := if s.caseSensitive then s.query else toAsciiLower s.query

/-- The loop of `ComputeMatchedPrefixLength`. -/
def matchedLengthFrom (len : Nat) : Nat :=
  if _h : 0 < len then
    if (findForward s.scope s.haystack (s.needle.take len) 0).isSome then len
    else matchedLengthFrom (previousBoundary s.query len)
  else 0
  termination_by len
  decreasing_by exact previousBoundary_lt s.query _h

def computeMatchedPrefixLength : Nat :=
  s.matchedLengthFrom (previousBoundary s.query s.query.length)

/-- `buffer_.SetPoint`, which leaves the text of the buffer alone. -/
def setPoint (byteOffset : Nat) : Option IncrementalSearch :=
  match _h : s.buffer.setPoint p byteOffset with
  | none => none
  | some buffer => some
      { s with
        buffer := buffer
        huge_eq := by rw [setPoint_storage _h, s.huge_eq]
        content_eq := by rw [setPoint_storage _h, s.content_eq] }

/-- Where a match at `pos` puts point. -/
def pointAt (pos : Nat) : Nat :=
  match s.direction with
  | .forward => pos + s.query.length
  | .backward => pos

def matched (pos : Nat) : Option IncrementalSearch :=
  { s with found := true, matchedPrefixLength := s.query.length }.setPoint p (s.pointAt pos)

/-- The match in memory, from an offset and around. -/
def locate (start : Nat) : Option Nat :=
  match s.direction with
  | .forward =>
      (findForward s.scope s.haystack s.needle start).or (findForward s.scope s.haystack s.needle 0)
  | .backward =>
      (findBackward s.scope s.haystack s.needle start).or
        (findBackward s.scope s.haystack s.needle s.haystack.length)

/-! ### Huge contents -/

/-- How many bytes a window adds to the overlap with the one before. -/
structure Window where
  size : Nat
  size_pos : 0 < size

def kWindow : Window where
  size := 4 * 1024 * 1024
  size_pos := by decide

/-- The bytes of a window, lowered unless the query has an upper-case letter. -/
def readLower (start length : Nat) : Bytes :=
  let window := s.buffer.storage.substring start length
  if s.caseSensitive then window else window.map asciiLower

/-- The loop that scans up to the end, a window at a time. -/
def scanForwardFrom (w : Window) (offset : Nat) : Option Nat :=
  if offset < s.buffer.storage.byteLength then
    let windowLen := min (w.size + s.needle.length - 1) (s.buffer.storage.byteLength - offset)
    match find (s.readLower offset windowLen) s.needle 0 with
    | some pos => some (offset + pos)
    | none => scanForwardFrom w (offset + w.size)
  else
    none
  termination_by s.buffer.storage.byteLength - offset
  decreasing_by
    have hpos := w.size_pos
    omega

/-- The loop that scans down to the start, a window at a time. -/
def scanBackwardFrom (w : Window) (stop : Nat) : Option Nat :=
  if stop > 0 then
    let windowLen := min (w.size + s.needle.length - 1) stop
    let start := stop - windowLen
    let window := s.readLower start windowLen
    match rfind window s.needle window.length with
    | some pos => some (start + pos)
    | none =>
        -- the next window keeps the overlap
        if start = 0 then none else scanBackwardFrom w (start + s.needle.length - 1)
  else
    none
  termination_by stop
  decreasing_by
    have hpos := w.size_pos
    omega

/-- The match in a huge content, from an offset and around. -/
def locateHuge (w : Window) (start : Nat) : Option Nat :=
  match s.direction with
  | .forward => (s.scanForwardFrom w start).or (s.scanForwardFrom w 0)
  | .backward =>
      (s.scanBackwardFrom w start).or (s.scanBackwardFrom w s.buffer.storage.byteLength)

def searchHuge (w : Window) (start : Nat) : Option IncrementalSearch :=
  match s.locateHuge w start with
  | some pos => s.matched p pos
  | none => some { s with found := false, matchedPrefixLength := s.query.length }

/-- `Search`, `none` where the point cannot be set. -/
def search (w : Window) (start : Nat) : Option IncrementalSearch :=
  if s.query.isEmpty then
    { s with found := true, matchedPrefixLength := 0 }.setPoint p s.originalPoint
  else if s.huge then
    s.searchHuge p w start
  else
    match s.locate start with
    | some pos => s.matched p pos
    | none => some { s with found := false, matchedPrefixLength := s.computeMatchedPrefixLength }

end IncrementalSearch

end Ned.Editor.Search
