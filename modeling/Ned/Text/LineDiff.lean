import Ned.Text.Bytes

/-!
# Line diff

Linear-space Myers over the lines of two texts. Indices are the signed ones of the source; an
operation is `none` where it reads a vector out of bounds or a loop runs out of fuel.
-/

namespace Ned.Text

/-- A line with its newline, which only the last line of a text may lack. -/
abbrev Line := Bytes

/-- Splits after every newline. -/
def splitLines : Bytes → List Line
  | [] => []
  | c :: text =>
      if isNewline c then
        [c] :: splitLines text
      else
        match splitLines text with
        | [] => [[c]]
        | line :: lines => (c :: line) :: lines

/-- The base range `[aStart, aStart + aCount)` replaced by `b[bStart, bStart + bCount)`. -/
structure LineDiffHunk where
  aStart : Nat
  aCount : Nat
  bStart : Nat
  bCount : Nat
  deriving DecidableEq

namespace MyersDiff

/-! ## The search for a middle snake -/

/-- `xs[i]` for a signed index. -/
def get {α : Type} (xs : List α) (i : Int) : Option α :=
  if 0 ≤ i then xs[i.toNat]? else none

def set {α : Type} (xs : List α) (i : Int) (x : α) : Option (List α) :=
  if 0 ≤ i ∧ i < xs.length then some (xs.set i.toNat x) else none

/-- Whether line `i` of `a` is line `j` of `b`. -/
def same (a b : List Line) (i j : Int) : Option Bool := do
  let x ← get a i
  let y ← get b j
  some (x == y)

/-- Walks along a diagonal while the lines match. -/
def slide (same : Int → Int → Option Bool) (n m : Int) : Nat → Int → Int → Option (Int × Int)
  | 0, _, _ => none
  | fuel + 1, x, y =>
      if x < n ∧ y < m then do
        if ← same x y then
          slide same n m fuel (x + 1) (y + 1)
        else
          some (x, y)
      else
        some (x, y)

/-- One of the two frontiers, and how many of its outer diagonals have left the range. -/
structure Frontier where
  furthest : List Int
  skippedAtStart : Int
  skippedAtEnd : Int
  deriving DecidableEq

/-- The furthest point of diagonal `k`, `-1` before it has one. -/
def Frontier.at (frontier : Frontier) (offset k : Int) : Option Int :=
  get frontier.furthest (offset + k)

/-- Where a step of length `d` enters diagonal `k`. -/
def Frontier.enter (frontier : Frontier) (offset d k : Int) : Option Int :=
  if k = -d then
    frontier.at offset (k + 1)
  else if k = d then do
    let below ← frontier.at offset (k - 1)
    some (below + 1)
  else do
    let below ← frontier.at offset (k - 1)
    let above ← frontier.at offset (k + 1)
    some (if below < above then above else below + 1)

/-- The ranges a search is about, seen from one of its ends. -/
structure Search where
  same : Int → Int → Option Bool
  n : Int
  m : Int
  offset : Int

/-- Enough fuel for a loop whose counter climbs to `n` or `m`. -/
def Search.slideFuel (search : Search) : Nat := search.n.toNat + search.m.toNat + 1

/-- The loop over the diagonals of one frontier. `meets` is its test against the other one. -/
def Search.extend (search : Search) (meets : Int → Int → Option (Option (Int × Int))) (d : Int) :
    Nat → Int → Frontier → Option (Frontier × Option (Int × Int))
  | 0, _, _ => none
  | fuel + 1, k, frontier =>
      if k ≤ d - frontier.skippedAtEnd then do
        let start ← frontier.enter search.offset d k
        let (x, y) ← slide search.same search.n search.m search.slideFuel start (start - k)
        let furthest ← set frontier.furthest (search.offset + k) x
        let frontier := { frontier with furthest := furthest }
        if x > search.n then
          search.extend meets d fuel (k + 2)
            { frontier with skippedAtEnd := frontier.skippedAtEnd + 2 }
        else if y > search.m then
          search.extend meets d fuel (k + 2)
            { frontier with skippedAtStart := frontier.skippedAtStart + 2 }
        else do
          match ← meets k x with
          | some split => some (frontier, some split)
          | none => search.extend meets d fuel (k + 2) frontier
      else
        some (frontier, none)

/-- The other frontier's furthest point on the diagonal that meets diagonal `k`. -/
def opposite (other : Frontier) (offset delta k : Int) : Option (Option Int) :=
  if 0 ≤ offset + (delta - k) ∧ offset + (delta - k) < other.furthest.length then do
    let x ← other.at offset (delta - k)
    some (if x ≠ -1 then some x else none)
  else
    some none

variable (a b : List Line) (a0 a1 b0 b1 : Int)

/-- The test of a forward step. -/
def meetsBackward (backward : Frontier) (offset : Int) (k x : Int) :
    Option (Option (Int × Int)) :=
  let n := a1 - a0
  let delta := n - (b1 - b0)
  if delta % 2 ≠ 0 then do
    match ← opposite backward offset delta k with
    | some backwardX => some (if x ≥ n - backwardX then some (a0 + x, b0 + (x - k)) else none)
    | none => some none
  else
    some none

/-- The test of a backward step. -/
def meetsForward (forward : Frontier) (offset : Int) (k x : Int) :
    Option (Option (Int × Int)) :=
  let n := a1 - a0
  let delta := n - (b1 - b0)
  if delta % 2 = 0 then do
    match ← opposite forward offset delta k with
    | some forwardX =>
        some (if forwardX ≥ n - x then some (a0 + forwardX, b0 + forwardX - (delta - k)) else none)
    | none => some none
  else
    some none

/-- The search from the start of the range. -/
def forwardSearch (offset : Int) : Search :=
  { same := fun x y => same a b (a0 + x) (b0 + y), n := a1 - a0, m := b1 - b0, offset := offset }

/-- The search from its end, which counts backwards. -/
def backwardSearch (offset : Int) : Search :=
  { same := fun x y => same a b (a1 - x - 1) (b1 - y - 1), n := a1 - a0, m := b1 - b0,
    offset := offset }

/-- The rounds from `d` on, of which there are `rounds` left. -/
def searchFrom (offset : Int) : Nat → Int → Frontier → Frontier → Option (Option (Int × Int))
  | 0, _, _, _ => some none
  | rounds + 1, d, forward, backward => do
      let fuel := d.toNat + 2
      let (forward, split) ← (forwardSearch a b a0 a1 b0 b1 offset).extend
        (meetsBackward a0 a1 b0 b1 backward offset) d fuel (-d + forward.skippedAtStart) forward
      if let some split := split then
        some (some split)
      else
        let (backward, split) ← (backwardSearch a b a0 a1 b0 b1 offset).extend
          (meetsForward a0 a1 b0 b1 forward offset) d fuel (-d + backward.skippedAtStart) backward
        if let some split := split then
          some (some split)
        else
          searchFrom offset rounds (d + 1) forward backward

/-- A frontier before the first round. -/
def Frontier.initial (offset : Int) : Frontier :=
  { furthest := (List.replicate (2 * offset + 1).toNat (-1)).set (offset + 1).toNat 0
    skippedAtStart := 0
    skippedAtEnd := 0 }

def middleSnake (halfLimit : Int) : Option (Option (Int × Int)) :=
  let maxD := min ((a1 - a0 + (b1 - b0) + 1) / 2) halfLimit
  let offset := maxD + 1
  searchFrom a b a0 a1 b0 b1 offset maxD.toNat 0 (.initial offset) (.initial offset)

/-! ## The hunks -/

/-- Joins onto the previous hunk when no matching line separates them. -/
def emit (hunks : List LineDiffHunk) : List LineDiffHunk :=
  if a0 = a1 ∧ b0 = b1 then
    hunks
  else
    let hunk : LineDiffHunk :=
      { aStart := a0.toNat, aCount := (a1 - a0).toNat, bStart := b0.toNat,
        bCount := (b1 - b0).toNat }
    match hunks.getLast? with
    | none => hunks ++ [hunk]
    | some last =>
        if last.aStart + last.aCount = hunk.aStart ∧ last.bStart + last.bCount = hunk.bStart then
          hunks.dropLast ++
            [{ last with aCount := last.aCount + hunk.aCount, bCount := last.bCount + hunk.bCount }]
        else
          hunks ++ [hunk]

/-- The first loop of `Compare`. -/
def trimStart : Option (Int × Int) :=
  slide (same a b) a1 b1 ((a1 - a0).toNat + (b1 - b0).toNat + 1) a0 b0

/-- The second loop of `Compare`. -/
def trimEnd : Option (Int × Int) := do
  let (x, y) ← slide (fun x y => same a b (a1 - x - 1) (b1 - y - 1)) (a1 - a0) (b1 - b0)
    ((a1 - a0).toNat + (b1 - b0).toNat + 1) 0 0
  some (a1 - x, b1 - y)

def compare (halfLimit : Int) :
    Nat → Int → Int → Int → Int → List LineDiffHunk → Option (List LineDiffHunk)
  | 0, _, _, _, _, _ => none
  | fuel + 1, a0, a1, b0, b1, hunks => do
      let (a0, b0) ← trimStart a b a0 a1 b0 b1
      let (a1, b1) ← trimEnd a b a0 a1 b0 b1
      if a0 < a1 ∧ b0 < b1 then
        match ← middleSnake a b a0 a1 b0 b1 halfLimit with
        | none => some (emit a0 a1 b0 b1 hunks)
        | some (x, y) =>
            -- a split on either corner would recurse on the same range
            if ¬(x = a0 ∧ y = b0) ∧ ¬(x = a1 ∧ y = b1) then do
              let hunks ← compare halfLimit fuel a0 x b0 y hunks
              compare halfLimit fuel x a1 y b1 hunks
            else
              some (emit a0 a1 b0 b1 hunks)
      else
        some (emit a0 a1 b0 b1 hunks)

end MyersDiff

def kMaxWork : Int := 16000000

def kMaxEditDistance : Int := 2000

def diffLines (a b : List Line) : Option (List LineDiffHunk) :=
  let total : Int := max 1 (a.length + b.length : Nat)
  let halfLimit := max (kMaxEditDistance / 2) (kMaxWork / total)
  MyersDiff.compare a b halfLimit (a.length + b.length + 1) 0 a.length 0 b.length []

end Ned.Text
