/-!
# Measured trees

Persistent binary trees whose leaves stand for pieces of a sequence and whose nodes cache a measure
of the sequence below them. How a leaf is read is a parameter: `view` runs in a monad `m`.
-/

namespace Ned.Library

/-! ## Measures -/

/-- A measure of sequences that is additive and determines their length. -/
structure Measure (μ β : Type) [Add μ] where
  of : List β → μ
  size : μ → Nat
  of_append : ∀ s t, of (s ++ t) = of s + of t
  size_of : ∀ s, size (of s) = s.length

/-- The number of elements satisfying `holds`, read off a measure. -/
structure Measure.Counter {μ β : Type} [Add μ] (M : Measure μ β) where
  holds : β → Bool
  count : μ → Nat
  count_of : ∀ s, count (M.of s) = s.countP holds

/-! ## Trees -/

/-- A leaf keeps its measure and a value; a node caches measure and depth. -/
inductive MeasuredTree (μ α : Type) where
  | leaf (measure : μ) (value : α)
  | node (measure : μ) (depth : Nat) (left right : MeasuredTree μ α)
  deriving DecidableEq

namespace MeasuredTree

variable {m : Type → Type} {μ α β : Type}

def measure : MeasuredTree μ α → μ
  | leaf ms _ => ms
  | node ms _ _ _ => ms

def depth : MeasuredTree μ α → Nat
  | leaf _ _ => 0
  | node _ d _ _ => d

@[simp] theorem measure_leaf (ms : μ) (a : α) : (leaf ms a).measure = ms := rfl

@[simp] theorem measure_node (ms : μ) (d : Nat) (l r : MeasuredTree μ α) :
    (node ms d l r).measure = ms := rfl

/-- The leaves from left to right. -/
def leaves : MeasuredTree μ α → List (μ × α)
  | leaf ms a => [(ms, a)]
  | node _ _ l r => l.leaves ++ r.leaves

/-! ## Joining -/

section Join

variable [Add μ]

/-- The node over two subtrees, with the cached fields filled in. -/
def mk (l r : MeasuredTree μ α) : MeasuredTree μ α :=
  node (l.measure + r.measure) (1 + max l.depth r.depth) l r

/-- `mk` where either side may be the null tree. -/
def makeInternal : Option (MeasuredTree μ α) → Option (MeasuredTree μ α) →
    Option (MeasuredTree μ α)
  | none, r => r
  | l, none => l
  | some l, some r => some (mk l r)

-- A rotation whose pivot is a leaf does not occur: `rebalance` rotates away from the deeper side.
def rotateLeft : MeasuredTree μ α → MeasuredTree μ α
  | node _ _ l (node _ _ pl pr) => mk (mk l pl) pr
  | t => t

def rotateRight : MeasuredTree μ α → MeasuredTree μ α
  | node _ _ (node _ _ pl pr) r => mk pl (mk pr r)
  | t => t

def leansLeft : MeasuredTree μ α → Bool
  | node _ _ l r => l.depth > r.depth
  | leaf _ _ => false

def leansRight : MeasuredTree μ α → Bool
  | node _ _ l r => r.depth > l.depth
  | leaf _ _ => false

/-- One rotation, or two, when one side is deeper than the other by more than one. -/
def rebalance : MeasuredTree μ α → MeasuredTree μ α
  | node ms d l r =>
      if l.depth > r.depth + 1 then
        rotateRight (if l.leansRight then mk (rotateLeft l) r else node ms d l r)
      else if r.depth > l.depth + 1 then
        rotateLeft (if r.leansLeft then mk l (rotateRight r) else node ms d l r)
      else
        node ms d l r
  | leaf ms a => leaf ms a

/-- Joins two trees by descending into the deeper one. -/
def join (l r : MeasuredTree μ α) : MeasuredTree μ α :=
  if l.depth > r.depth + 1 then
    match l with
    | node _ _ ll lr => rebalance (mk ll (join lr r))
    | leaf _ _ => mk l r
  else if r.depth > l.depth + 1 then
    match r with
    | node _ _ rl rr => rebalance (mk (join l rl) rr)
    | leaf _ _ => mk l r
  else
    mk l r
termination_by sizeOf l + sizeOf r
decreasing_by
  · rw [node.sizeOf_spec]
    omega
  · rw [node.sizeOf_spec]
    omega

/-- `join` where either side may be the null tree. -/
def concat : Option (MeasuredTree μ α) → Option (MeasuredTree μ α) → Option (MeasuredTree μ α)
  | none, r => r
  | l, none => l
  | some l, some r => some (join l r)

/-- One pass of pairing neighbours. -/
def pairUp : List (Option (MeasuredTree μ α)) → List (Option (MeasuredTree μ α))
  | l :: r :: rest => makeInternal l r :: pairUp rest
  | ts => ts

theorem length_pairUp_le : ∀ ts : List (Option (MeasuredTree μ α)),
    (pairUp ts).length ≤ (ts.length + 1) / 2
  | [] => by simp [pairUp]
  | [_] => by simp [pairUp]
  | _ :: _ :: rest => by
      have := length_pairUp_le rest
      simp only [pairUp, List.length_cons]
      omega

/-- Pairs neighbours until one tree is left. -/
def buildBalanced (ts : List (Option (MeasuredTree μ α))) : Option (MeasuredTree μ α) :=
  if ts.length > 1 then buildBalanced (pairUp ts) else ts.headD none
termination_by ts.length
decreasing_by
  have := length_pairUp_le ts
  omega

/-- Splits before position `o`; `splitLeaf` splits a leaf at an inner position. -/
def split [Monad m] (size : μ → Nat)
    (splitLeaf : μ → α → Nat → m (Option (MeasuredTree μ α) × Option (MeasuredTree μ α))) :
    MeasuredTree μ α → Nat → m (Option (MeasuredTree μ α) × Option (MeasuredTree μ α))
  | t, 0 => pure (none, some t)
  | leaf ms a, o + 1 =>
      if o + 1 ≥ size ms then pure (some (leaf ms a), none) else splitLeaf ms a (o + 1)
  | node ms d l r, o + 1 =>
      if o + 1 ≥ size ms then
        pure (some (node ms d l r), none)
      else if o + 1 < size l.measure then do
        let (ll, lr) ← split size splitLeaf l (o + 1)
        pure (ll, concat lr (some r))
      else if o + 1 > size l.measure then do
        let (rl, rr) ← split size splitLeaf r (o + 1 - size l.measure)
        pure (concat (some l) rl, rr)
      else
        pure (some l, some r)

end Join

/-! ## Queries -/

section Queries

variable [Monad m] (view : μ → α → m (List β))

/-- Concatenates the leaves. -/
def toList : MeasuredTree μ α → m (List β)
  | leaf ms a => view ms a
  | node _ _ l r => do
      let s ← toList l
      let t ← toList r
      pure (s ++ t)

/-- Counts the elements satisfying `holds` before position `o`. -/
def countBefore (size count : μ → Nat) (holds : β → Bool) : MeasuredTree μ α → Nat → m Nat
  | _, 0 => pure 0
  | leaf ms a, o + 1 => do
      let s ← view ms a
      pure ((s.take (min (o + 1) (size ms))).countP holds)
  | node _ _ l r, o + 1 =>
      if o + 1 ≤ size l.measure then
        countBefore size count holds l (o + 1)
      else do
        let n ← countBefore size count holds r (o + 1 - size l.measure)
        pure (count l.measure + n)

/-- Descends to the leaf where the `k`-th counted element is looked for; `scan` searches a leaf. -/
def find (size count : μ → Nat) (scan : Nat → List β → Option Nat) :
    MeasuredTree μ α → Nat → m Nat
  | _, 0 => pure 0
  | leaf ms a, k + 1 => do
      let s ← view ms a
      pure ((scan (k + 1) s).getD (size ms))
  | node _ _ l r, k + 1 =>
      if count l.measure ≥ k + 1 then
        find size count scan l (k + 1)
      else do
        let n ← find size count scan r (k + 1 - count l.measure)
        pure (size l.measure + n)

end Queries

/-- The element at position `o`, read out of its leaf by `read`. -/
def itemAt (view : μ → α → Option (List β)) (read : List β → Nat → Option β) (size : μ → Nat) :
    MeasuredTree μ α → Nat → Option β
  | leaf ms a, o => do
      let s ← view ms a
      read s o
  | node _ _ l r, o =>
      if o < size l.measure then
        itemAt view read size l o
      else
        itemAt view read size r (o - size l.measure)

/-! ## Denotation -/

/-- A nonempty list whose first element may start a piece. -/
def Starts (start : β → Bool) (s : List β) : Prop :=
  ∃ c u, s = c :: u ∧ start c = true

/-- `o` is a position at which `s` may be cut into pieces. -/
def Cut (start : β → Bool) (s : List β) (o : Nat) : Prop :=
  ∀ c, s[o]? = some c → start c = true

/-- The tree stands for a sequence: every leaf reads as a nonempty piece, and all caches are right. -/
inductive Denotes [Add μ] [Monad m] (M : Measure μ β) (view : μ → α → m (List β))
    (start : β → Bool) : MeasuredTree μ α → List β → Prop
  | leaf {ms a s} : view ms a = pure s → ms = M.of s → Starts start s →
      Denotes M view start (leaf ms a) s
  | node {l r s t} : Denotes M view start l s → Denotes M view start r t →
      Denotes M view start (node (l.measure + r.measure) (1 + max l.depth r.depth) l r) (s ++ t)

/-- `Denotes` for a tree that may be null. -/
def DenotesOpt [Add μ] [Monad m] (M : Measure μ β) (view : μ → α → m (List β))
    (start : β → Bool) : Option (MeasuredTree μ α) → List β → Prop
  | none, s => s = []
  | some t, s => Denotes M view start t s

end MeasuredTree

end Ned.Library
