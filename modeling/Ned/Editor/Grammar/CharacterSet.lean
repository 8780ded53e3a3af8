import Ned.Library.Ranges
import Mathlib.Algebra.Ring.Int.Defs
import Mathlib.Data.Int.Order.Basic
import Mathlib.Data.List.Sort

/-!
# Character sets

Sets of codepoints as sorted lists of disjoint half-open ranges, as in
`Editor/Grammar/Compile/Nfa.cpp`.
-/

namespace Ned.Editor.Grammar

open Library

abbrev CodepointRange := Range Nat

def kCodepointEnd : Nat := 0x10FFFF + 1

structure CharacterSet where
  ranges : List CodepointRange := []
  deriving DecidableEq

namespace CharacterSet

def isEmpty (set : CharacterSet) : Bool := set.ranges.isEmpty

def rangeCount (set : CharacterSet) : Nat := set.ranges.length

def fromChar (c : Nat) : CharacterSet := ⟨[⟨c, c + 1⟩]⟩

/-- Both ends belong to the set. -/
def fromRange (first last : Nat) : CharacterSet :=
  if first > last then ⟨[⟨last, first + 1⟩]⟩ else ⟨[⟨first, last + 1⟩]⟩

/-! ## Membership -/

/-- The first range that does not end before `start` is to hold the others. -/
def containsRange (set : CharacterSet) (start stop : Nat) : Bool :=
  match set.ranges.dropWhile fun probe => decide (probe.stop ≤ start) with
  | [] => false
  | r :: _ => decide (r.start ≤ start) && decide (stop ≤ r.stop)

def contains (set : CharacterSet) (c : Nat) : Bool := set.containsRange c (c + 1)

/-! ## Union -/

/-- The ranges that `r` runs into become part of it. -/
def absorb (r : CodepointRange) : List CodepointRange → List CodepointRange
  | [] => [r]
  | next :: ranges =>
      if next.start ≤ r.stop then absorb ⟨r.start, max r.stop next.stop⟩ ranges
      else r :: next :: ranges

/-- The loop of `AddIntRange`, which also says at which index it stopped. -/
def insertRange (start stop : Nat) : List CodepointRange → List CodepointRange × Nat
  | [] => ([⟨start, stop⟩], 0)
  | r :: ranges =>
      if r.start > stop then (⟨start, stop⟩ :: r :: ranges, 0)
      else if r.stop ≥ start then (absorb ⟨min r.start start, max r.stop stop⟩ ranges, 0)
      else
        let (ranges, i) := insertRange start stop ranges
        (r :: ranges, i + 1)

def addIntRange (set : CharacterSet) (i start stop : Nat) : CharacterSet × Nat :=
  let (ranges, n) := insertRange start stop (set.ranges.drop i)
  (⟨set.ranges.take i ++ ranges⟩, i + n)

def addChar (set : CharacterSet) (c : Nat) : CharacterSet := (set.addIntRange 0 c (c + 1)).1

def addRange (set : CharacterSet) (first last : Nat) : CharacterSet :=
  (set.addIntRange 0 first (last + 1)).1

def addFrom (set : CharacterSet) (i : Nat) : List CodepointRange → CharacterSet
  | [] => set
  | r :: ranges =>
      let (set, i) := set.addIntRange i r.start r.stop
      set.addFrom i ranges

def add (set other : CharacterSet) : CharacterSet := set.addFrom 0 other.ranges

/-! ## Complement and difference -/

def negateFrom (previousEnd : Nat) : List CodepointRange → List CodepointRange
  | [] => if previousEnd < kCodepointEnd then [⟨previousEnd, kCodepointEnd⟩] else []
  | r :: ranges =>
      if previousEnd < r.start then ⟨previousEnd, r.start⟩ :: negateFrom r.stop ranges
      else negateFrom r.stop ranges

def negate (set : CharacterSet) : CharacterSet := ⟨negateFrom 0 set.ranges⟩

/-- What two lists of ranges have in common, and what is left of them without it. -/
structure Split where
  intersection : List CodepointRange
  left : List CodepointRange
  right : List CodepointRange

/-- The loop of `RemoveIntersection`. The ranges before the two indices are done with. -/
def splitRanges : List CodepointRange → List CodepointRange → Split
  | [], right => ⟨[], [], right⟩
  | l :: ls, [] => ⟨[], l :: ls, []⟩
  | l :: ls, r :: rs =>
      if l.start < r.start then
        if l.stop ≤ r.start then
          let s := splitRanges ls (r :: rs)
          { s with left := l :: s.left }
        else if l.stop < r.stop then
          let s := splitRanges ls (⟨l.stop, r.stop⟩ :: rs)
          { s with
            intersection := ⟨r.start, l.stop⟩ :: s.intersection
            left := ⟨l.start, r.start⟩ :: s.left }
        else if l.stop = r.stop then
          let s := splitRanges (⟨l.start, r.start⟩ :: ls) rs
          { s with intersection := r :: s.intersection }
        else
          let s := splitRanges (⟨r.stop, l.stop⟩ :: ls) rs
          { s with intersection := r :: s.intersection, left := ⟨l.start, r.start⟩ :: s.left }
      else if l.start = r.start then
        if l.stop < r.stop then
          let s := splitRanges ls (⟨l.stop, r.stop⟩ :: rs)
          { s with intersection := l :: s.intersection }
        else if l.stop = r.stop then
          let s := splitRanges ls rs
          { s with intersection := l :: s.intersection }
        else
          let s := splitRanges (⟨r.stop, l.stop⟩ :: ls) rs
          { s with intersection := r :: s.intersection }
      else if l.start ≥ r.stop then
        let s := splitRanges (l :: ls) rs
        { s with right := r :: s.right }
      else if l.stop < r.stop then
        let s := splitRanges ls (⟨l.stop, r.stop⟩ :: rs)
        { s with intersection := l :: s.intersection, right := ⟨r.start, l.start⟩ :: s.right }
      else if l.stop = r.stop then
        let s := splitRanges ls (⟨r.start, l.start⟩ :: rs)
        { s with intersection := l :: s.intersection }
      else
        let s := splitRanges (⟨r.stop, l.stop⟩ :: ls) rs
        { s with
          intersection := ⟨l.start, r.stop⟩ :: s.intersection
          right := ⟨r.start, l.start⟩ :: s.right }
termination_by left right => left.length + right.length

/-- The characters in both sets, and both operands without them. -/
def removeIntersection (set other : CharacterSet) : CharacterSet × CharacterSet × CharacterSet :=
  let s := splitRanges set.ranges other.ranges
  (⟨s.intersection⟩, ⟨s.left⟩, ⟨s.right⟩)

def difference (set other : CharacterSet) : CharacterSet := (set.removeIntersection other).2.1

/-- Whether two ranges meet, with the one that ends first passed by. -/
def rangesMeet : List CodepointRange → List CodepointRange → Bool
  | [], _ => false
  | _ :: _, [] => false
  | l :: ls, r :: rs =>
      if l.stop ≤ r.start then rangesMeet ls (r :: rs)
      else if l.start ≥ r.stop then rangesMeet (l :: ls) rs
      else true
termination_by left right => left.length + right.length

def doesIntersect (set other : CharacterSet) : Bool := rangesMeet set.ranges other.ranges

/-! ## Simplification -/

def simplifyFrom (ruledOut : CharacterSet) :
    Option CodepointRange → List CodepointRange → List CodepointRange
  | prev, [] => prev.toList
  | none, r :: ranges =>
      if ruledOut.containsRange r.start r.stop then simplifyFrom ruledOut none ranges
      else simplifyFrom ruledOut (some r) ranges
  | some prev, r :: ranges =>
      if ruledOut.containsRange r.start r.stop then simplifyFrom ruledOut (some prev) ranges
      else if ruledOut.containsRange prev.stop r.start then
        simplifyFrom ruledOut (some ⟨prev.start, r.stop⟩) ranges
      else prev :: simplifyFrom ruledOut (some r) ranges

/-- Reduced ranges given that `ruledOut` characters need no checking. -/
def simplifyIgnoring (set ruledOut : CharacterSet) : CharacterSet :=
  ⟨simplifyFrom ruledOut none set.ranges⟩

/-! ## Ordering -/

def size (set : CharacterSet) : Nat :=
  set.ranges.foldl (fun total r => total + (r.stop - r.start)) 0

def compareRanges : List CodepointRange → List CodepointRange → Ordering
  | l :: ls, r :: rs =>
      (Ord.compare (l.stop - l.start) (r.stop - r.start)).then
        ((Ord.compare l.start r.start).then (compareRanges ls rs))
  | _, _ => .eq

/-- By total size, then range by range. -/
def compare (set other : CharacterSet) : Ordering :=
  (Ord.compare set.size other.size).then (compareRanges set.ranges other.ranges)

end CharacterSet

/-!
## The lexical NFA

The states of `Editor/Grammar/Compile/Nfa.cpp` and the grouping of the raw transitions of a cursor
into disjoint character sets.
-/

inductive NfaState
  | advance (chars : CharacterSet) (stateId : Nat) (isSep : Bool) (precedence : Int)
  | split (left right : Nat)
  | accept (variableIndex : Nat) (precedence : Int)
  deriving DecidableEq

structure Nfa where
  states : List NfaState

structure NfaTransition where
  characters : CharacterSet
  isSeparator : Bool
  precedence : Int
  states : List Nat
  deriving DecidableEq

/-- A set of NFA states with split states already followed. -/
structure NfaCursor where
  nfa : Nfa
  stateIds : List Nat

/-- A sorted list of states takes in one more, unless it has it. -/
def insertState (stateId : Nat) : List Nat → List Nat
  | [] => [stateId]
  | s :: states =>
      if s < stateId then s :: insertState stateId states
      else if s = stateId then s :: states
      else stateId :: s :: states

namespace NfaCursor

/-! ## Raw transitions -/

/-- An advance state is taken in: each transition is cut where its characters meet those that are
left of the state's, and the characters that none has get a transition of their own. -/
def addAdvance (stateId : Nat) (isSep : Bool) (precedence : Int) (chars : CharacterSet) :
    List NfaTransition → List NfaTransition
  | [] => if chars.isEmpty then [] else [⟨chars, isSep, precedence, [stateId]⟩]
  | t :: result =>
      if chars.isEmpty then t :: result
      else
        let parts := t.characters.removeIntersection chars
        let rest := { t with characters := parts.2.1 }
        if parts.1.isEmpty then
          rest :: addAdvance stateId isSep precedence parts.2.2 result
        else
          let common : NfaTransition :=
            { characters := parts.1
              isSeparator := t.isSeparator && isSep
              precedence := max t.precedence precedence
              states := insertState stateId t.states }
          if parts.2.1.isEmpty then
            common :: addAdvance stateId isSep precedence parts.2.2 result
          else
            common :: rest :: addAdvance stateId isSep precedence parts.2.2 result

/-- A state that is not there is not read. -/
def addState (nfa : Nfa) (result : List NfaTransition) (id : Nat) : Option (List NfaTransition) :=
  nfa.states[id]?.map fun
    | .advance chars stateId isSep precedence => addAdvance stateId isSep precedence chars result
    | .split _ _ | .accept _ _ => result

/-! ## Equal transitions -/

def sameTarget (a b : NfaTransition) : Bool :=
  a.states == b.states && a.isSeparator == b.isSeparator && a.precedence == b.precedence

/-- The first transition with the same target takes the characters. -/
def mergeInto (t : NfaTransition) : List NfaTransition → List NfaTransition
  | [] => [t]
  | kept :: result =>
      if sameTarget kept t then
        { kept with characters := kept.characters.add t.characters } :: result
      else kept :: mergeInto t result

def mergeEqual (result : List NfaTransition) : List NfaTransition :=
  result.foldl (fun merged t => mergeInto t merged) []

/-- Raw transitions grouped into disjoint character sets. No two of these compare equal, so that
every sort puts them into one order. -/
def transitions (cursor : NfaCursor) : Option (List NfaTransition) :=
  (cursor.stateIds.foldlM (addState cursor.nfa) []).map fun result =>
    (mergeEqual result).insertionSort fun a b => a.characters.compare b.characters ≠ .gt

end NfaCursor

end Ned.Editor.Grammar
