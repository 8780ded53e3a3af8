import Mathlib.Data.List.Range
import Ned.Library.Backtracking

/-!
# Query matching

The patterns of a query, compiled, and the matcher of `Grammar/QueryMatcher.cpp`: backtracking in
continuation passing style over two shared vectors, and the root dispatch in front of it.
-/

namespace Ned.Editor.Query

open Library

/-! ## Nodes -/

/-- Where a node sits in its parent: the field naming it and the hidden supertypes it was reduced
through there. -/
structure NodeSlot where
  field : Nat := 0
  supertypes : List Nat := []
  deriving DecidableEq

structure NodeData where
  id : Nat
  symbol : Nat
  named : Bool
  isError : Bool
  startByte : Nat
  endByte : Nat
  /-- The fields it has a child under. -/
  fields : List Nat
  slot : NodeSlot
  deriving DecidableEq

/-- A visible node, as the accessors and a cursor show it. -/
inductive RedNode
  | mk (data : NodeData) (children : List RedNode)

namespace RedNode

def data : RedNode → NodeData
  | .mk data _ => data

def children : RedNode → List RedNode
  | .mk _ children => children

end RedNode

structure ChildInfo where
  node : RedNode
  slot : NodeSlot
  named : Bool

/-- Supertypes are read only for a query that asks for them. -/
def slotAt (node : RedNode) (withSupertypes : Bool) : NodeSlot :=
  { field := node.data.slot.field
    supertypes := if withSupertypes then node.data.slot.supertypes else [] }

def collectChildren (parent : RedNode) (withSupertypes : Bool) : List ChildInfo :=
  parent.children.map fun node =>
    { node := node, slot := slotAt node withSupertypes, named := node.data.named }

/-! ## Symbols -/

/-- Symbols without duplicates. -/
structure SymbolSet where
  symbols : List Nat
  nodup : symbols.Nodup
  deriving DecidableEq

namespace SymbolSet

def empty : SymbolSet := ⟨[], List.nodup_nil⟩

def contains (set : SymbolSet) (symbol : Nat) : Bool := set.symbols.contains symbol

def insert (set : SymbolSet) (symbol : Nat) : SymbolSet :=
  if h : symbol ∈ set.symbols then set
  else ⟨symbol :: set.symbols, List.nodup_cons.2 ⟨h, set.nodup⟩⟩

def insertAll (set other : SymbolSet) : SymbolSet := other.symbols.foldl insert set

end SymbolSet

/-! ## Patterns -/

inductive PatternKind
  | named
  | supertype
  | anonymous
  | anyNode
  | anyNamed
  | error
  | alternation
  | group
  deriving DecidableEq

structure PatternHead where
  kind : PatternKind
  symbols : SymbolSet := .empty
  subtypeSymbols : SymbolSet := .empty
  negatedFields : List Nat := []
  trailingAnchor : Bool := false
  requiredSupertype : Nat := 0
  deriving DecidableEq

inductive Quantifier
  | one
  | optional
  | star
  | plus
  deriving DecidableEq

structure ItemHead where
  field : Nat := 0
  quantifier : Quantifier := .one
  anchorBefore : Bool := false
  captures : List Nat := []
  deriving DecidableEq

mutual
inductive PatternNode
  | mk (head : PatternHead) (children : List ChildItem)

inductive ChildItem
  | mk (head : ItemHead) (node : PatternNode)
end

namespace PatternNode

def head : PatternNode → PatternHead
  | .mk head _ => head

def children : PatternNode → List ChildItem
  | .mk _ children => children

end PatternNode

namespace ChildItem

def head : ChildItem → ItemHead
  | .mk head _ => head

def node : ChildItem → PatternNode
  | .mk _ node => node

end ChildItem

/-! ## Matching -/

structure Binding where
  captureId : Nat
  node : RedNode

/-- The two shared vectors. -/
@[ext] structure Trails where
  bindings : List Binding
  matchedTrail : List RedNode

abbrev MatchFn (σ : Type) := Visit Trails σ

namespace Trails

/-- A node that is matched, under some captures. -/
def push (trails : Trails) (captures : List Nat) (node : RedNode) : Trails :=
  { bindings := trails.bindings ++ captures.map (Binding.mk · node)
    matchedTrail := trails.matchedTrail ++ [node] }

def bind (trails : Trails) (captures : List Nat) (node : RedNode) : Trails :=
  { trails with bindings := trails.bindings ++ captures.map (Binding.mk · node) }

def resize (trails : Trails) (mark trailMark : Nat) : Trails :=
  { bindings := trails.bindings.take mark
    matchedTrail := trails.matchedTrail.take trailMark }

def resizeBindings (trails : Trails) (mark : Nat) : Trails :=
  { trails with bindings := trails.bindings.take mark }

end Trails

def symbolMatches (symbols : SymbolSet) (node : RedNode) : Bool := symbols.contains node.data.symbol

/-- What a pattern asks of the node itself. Alternations and groups are dealt with elsewhere. -/
def PatternHead.accepts (head : PatternHead) (node : RedNode) (slot : NodeSlot) : Bool :=
  match head.kind with
  | .anyNode => true
  | .anyNamed => node.data.named
  | .error => node.data.isError
  | .named => symbolMatches head.symbols node &&
      (head.requiredSupertype == 0 || slot.supertypes.contains head.requiredSupertype)
  | .supertype => node.data.named && head.subtypeSymbols.contains node.data.symbol
  | .anonymous => symbolMatches head.symbols node
  | .alternation | .group => false

def PatternHead.fieldsOk (head : PatternHead) (node : RedNode) : Bool :=
  !head.negatedFields.any node.data.fields.contains

/-- A field, and the symbols of a concrete branch, rule the branch out before it is tried. -/
def branchSkipped (item : ItemHead) (branch : PatternHead) (node : RedNode) (slot : NodeSlot) : Bool :=
  item.field != 0 && item.field != slot.field ||
    (branch.kind == .named || branch.kind == .anonymous) && !symbolMatches branch.symbols node

/-- There is a named child after `a`, or after the start, and before `b`. -/
def namedBetween (children : List ChildInfo) (a : Option Nat) (b : Nat) : Bool :=
  ((children.take b).drop (a.elim 0 (· + 1))).any (·.named)

/-- An anchor holds between neighbours, and at the edges of a bounded list. -/
def anchorHolds (children : List ChildInfo) (lastMatched : Option Nat) (bounded : Bool) (c : Nat) : Bool :=
  match lastMatched with
  | none => !(bounded && namedBetween children none c)
  | some last => !namedBetween children (some last) c

/-- Matches a pattern against one child under some captures, whatever its continuation writes to. -/
abbrev ChildMatcher := List Nat → (σ : Type) → ChildInfo → MatchFn σ → MatchFn σ

/-- Tries a pattern with bindings of its own. -/
def probeMatches (matchChild : ChildMatcher) (child : ChildInfo) (trails : Trails) : Bool × Trails :=
  let result := matchChild [] Bool child (fun trails _ => (trails, true))
    { trails with bindings := [] } false
  (result.2, { trails with matchedTrail := result.1.matchedTrail })

/-- The named sibling before `start`, if it comes after the last match. -/
def namedPredecessor (children : List ChildInfo) (start : Nat) (lastMatched : Option Nat) :
    Option ChildInfo :=
  ((List.range start).reverse.find? fun prev => (children[prev]?).any (·.named)).bind fun prev =>
    if lastMatched.any (prev ≤ ·) then none else children[prev]?

def startHasMatchingPredecessor (matchChild : ChildMatcher) (children : List ChildInfo) (start : Nat)
    (lastMatched : Option Nat) (trails : Trails) : Bool × Trails :=
  match namedPredecessor children start lastMatched with
  | none => (false, trails)
  | some before => probeMatches matchChild before trails

/-- After a rep at `last`: the next candidate is the next named sibling, or the next one at all for a
pattern that may match anonymous nodes. While it matches the run goes on. -/
def extendRep {σ : Type} (kind : PatternKind) (captures : List Nat) (matchChild : ChildMatcher)
    (proceed : Nat → MatchFn σ) (last : Nat) : Nat → List ChildInfo → MatchFn σ
  | _, [] => proceed last
  | n, child :: rest =>
      if kind = .anonymous ∨ kind = .anyNode ∨ child.named = true then fun trails s =>
        let probed := probeMatches matchChild child trails
        if probed.1 then
          matchChild captures σ child (extendRep kind captures matchChild proceed n (n + 1) rest) probed.2 s
        else proceed last probed.2 s
      else extendRep kind captures matchChild proceed last (n + 1) rest

/-- A rep at `c`, the rest of the run, and then what follows the run. -/
def extendStarRun {σ : Type} (kind : PatternKind) (captures : List Nat) (matchChild : ChildMatcher)
    (children : List ChildInfo) (proceed : Nat → MatchFn σ) (c : Nat) (child : ChildInfo) : MatchFn σ :=
  matchChild captures σ child
    (extendRep kind captures matchChild proceed c (c + 1) (children.drop (c + 1)))

/-- One child, for one item of a sequence: a run of reps, or a single match, which is noted. -/
def tryChild {σ : Type} (item : ItemHead) (kind : PatternKind) (matchChild : ChildMatcher)
    (children : List ChildInfo) (lastMatched : Option Nat) (anchored bounded : Bool)
    (proceed : Nat → (σ : Type) → MatchFn σ → MatchFn σ) (next : MatchFn σ) (c : Nat) :
    MatchFn (σ × Bool) := fun trails state =>
  match children[c]? with
  | none => (trails, state)
  | some child =>
      if item.field != 0 && item.field != child.slot.field then (trails, state)
      else if anchored && !anchorHolds children lastMatched bounded c then (trails, state)
      else if item.quantifier = .star ∨ item.quantifier = .plus then
        let before := startHasMatchingPredecessor matchChild children c lastMatched trails
        if before.1 then (before.2, state)
        else
          extendStarRun kind item.captures matchChild children
            (fun last => proceed last (σ × Bool) (unflagged next)) c child before.2 state
      else matchChild item.captures (σ × Bool) child (flagged (proceed c σ next)) trails state

mutual
/-- Binds `captures` and everything inside, and calls `next` once for every complete assignment. -/
def matchNode (supertypeSteps : Bool) :
    PatternNode → List Nat → (σ : Type) → ChildInfo → MatchFn σ → MatchFn σ
  | .mk head children, captures, σ, info, next => fun trails s =>
      match head.kind with
      | .alternation => matchBranches supertypeSteps children captures σ info next trails s
      | .group => (trails, s)
      | _ =>
          if head.accepts info.node info.slot then
            let pushed := trails.push captures info.node
            let result :=
              if head.fieldsOk info.node then
                if children.isEmpty && !head.trailingAnchor then next pushed s
                else
                  enumSequence supertypeSteps head.trailingAnchor children
                    (collectChildren info.node supertypeSteps) 0 none false true σ next pushed s
              else (pushed, s)
            (result.1.resize trails.bindings.length trails.matchedTrail.length, result.2)
          else (trails, s)

/-- Every branch of an alternation that matches gives assignments of its own. -/
def matchBranches (supertypeSteps : Bool) :
    List ChildItem → List Nat → (σ : Type) → ChildInfo → MatchFn σ → MatchFn σ
  | [], _, _, _, _ => fun trails s => (trails, s)
  | .mk item branch :: rest, captures, σ, info, next => fun trails s =>
      if branchSkipped item branch.head info.node info.slot then
        matchBranches supertypeSteps rest captures σ info next trails s
      else
        let result := matchNode supertypeSteps branch item.captures σ info next
          (trails.bind captures info.node) s
        matchBranches supertypeSteps rest captures σ info next
          (result.1.resizeBindings trails.bindings.length) result.2

/-- Enumerates assignments of the items against the children from `childIdx` on. `lastMatched` is the
child the previous item bound, `carriedAnchor` an anchor owed since then. -/
def enumSequence (supertypeSteps trailingAnchor : Bool) : List ChildItem → List ChildInfo → Nat →
    Option Nat → Bool → Bool → (σ : Type) → MatchFn σ → MatchFn σ
  | [], children, _, lastMatched, _, bounded, _, next => fun trails s =>
      if trailingAnchor && bounded && namedBetween children lastMatched children.length then (trails, s)
      else next trails s
  | .mk item node :: items, children, childIdx, lastMatched, carriedAnchor, bounded, σ, next =>
      fun trails s =>
        let anchored := item.anchorBefore || carriedAnchor
        let start :=
          if item.quantifier = .star then
            enumSequence supertypeSteps trailingAnchor items children childIdx lastMatched anchored
              bounded σ next trails s
          else (trails, s)
        let found :=
          forEach (List.range' childIdx (children.length - childIdx))
            (tryChild item node.head.kind (matchNode supertypeSteps node) children lastMatched anchored
              bounded (fun c σ next => enumSequence supertypeSteps trailingAnchor items children (c + 1)
                (some c) false bounded σ next) next)
            start.1 (start.2, false)
        if item.quantifier = .optional ∧ found.2.2 = false then
          enumSequence supertypeSteps trailingAnchor items children childIdx lastMatched anchored bounded
            σ next found.1 found.2.1
        else (found.1, found.2.1)
end

/-! ## Predicates -/

structure CompiledOperand where
  isCapture : Bool
  text : List UInt8
  captureId : Nat := 0
  deriving DecidableEq

structure CompiledPredicate where
  name : String
  operands : List CompiledOperand
  deriving DecidableEq

inductive LocalCondition
  | none
  | «local»
  | notLocal
  deriving DecidableEq

/-- A condition on one capture, or on all of a pattern. -/
structure LocalRule where
  captureId : Option Nat
  condition : LocalCondition
  kind : String
  deriving DecidableEq

structure Pattern where
  root : ChildItem
  predicates : List CompiledPredicate := []
  localRules : List LocalRule := []

structure PredicateOperand where
  isCapture : Bool
  node : Option RedNode := .none
  text : Option (List UInt8) := .none
  ancestors : List RedNode := []

/-- `Grammar/QueryPredicates.h`, and the chain of ancestors along the path of a walk. -/
structure PredicateHost where
  evaluatePredicateCall : String → List PredicateOperand → Bool
  predicateReadsOutsideSubtree : String → Nat → Bool
  ancestorChain : List RedNode → RedNode → List RedNode

def firstBound (bindings : List Binding) (captureId : Nat) : Option RedNode :=
  (bindings.find? (·.captureId == captureId)).map (·.node)

def nodeText (sourceText : List UInt8) (node : RedNode) : Option (List UInt8) :=
  if node.data.startByte > node.data.endByte || node.data.endByte > sourceText.length then none
  else some ((sourceText.take node.data.endByte).drop node.data.startByte)

structure QueryMatcher where
  patterns : List Pattern
  captureNames : List String
  supertypeSteps : Bool := false

/-- What is set for a run. -/
structure QueryRun where
  matcher : QueryMatcher
  host : PredicateHost
  sourceText : List UInt8

namespace QueryRun

variable (run : QueryRun) (walkPath : List RedNode)

def operand (bindings : List Binding) (compiled : CompiledOperand) : PredicateOperand :=
  if compiled.isCapture then
    let node := firstBound bindings compiled.captureId
    { isCapture := true, node := node, text := node.bind (nodeText run.sourceText) }
  else { isCapture := false, text := some compiled.text }

/-- The first operand of a predicate that reads outside the subtree is given its ancestors. -/
def withAncestors (predicate : CompiledPredicate) : List PredicateOperand → List PredicateOperand
  | [] => []
  | first :: rest =>
      match first.node with
      | some node =>
          if run.host.predicateReadsOutsideSubtree predicate.name predicate.operands.length then
            { first with ancestors := run.host.ancestorChain walkPath node } :: rest
          else first :: rest
      | none => first :: rest

def evaluatePatternPredicates (pattern : Pattern) (bindings : List Binding) : Bool :=
  pattern.predicates.all fun predicate =>
    run.host.evaluatePredicateCall predicate.name
      (run.withAncestors walkPath predicate (predicate.operands.map (run.operand bindings)))

end QueryRun

/-! ## Root dispatch -/

mutual
/-- The symbols a root can match, or none when they cannot be listed. -/
def rootSymbolFilter : PatternNode → SymbolSet → Option SymbolSet
  | .mk head children, filter =>
      match head.kind with
      | .named | .anonymous => some (filter.insertAll head.symbols)
      | .supertype => some (filter.insertAll head.subtypeSymbols)
      | .alternation => branchSymbolFilter children filter
      | .anyNode | .anyNamed | .error | .group => none

def branchSymbolFilter : List ChildItem → SymbolSet → Option SymbolSet
  | [], filter => some filter
  | .mk _ node :: rest, filter => (rootSymbolFilter node filter).bind (branchSymbolFilter rest)
end

structure RootIndex where
  rootIndex : Nat → List Nat
  unindexedBySymbol : Nat → List Nat
  unfilteredUnindexed : List Nat

/-- Files a pattern under symbols. -/
def fileUnder (index : Nat → List Nat) (symbols : List Nat) (p : Nat) : Nat → List Nat :=
  symbols.foldl (fun index symbol other => if other = symbol then index other ++ [p] else index other) index

def RootIndex.file (index : RootIndex) (p : Nat) (root : PatternNode) : RootIndex :=
  if root.head.kind = .named ∨ root.head.kind = .anonymous then
    { index with rootIndex := fileUnder index.rootIndex root.head.symbols.symbols p }
  else
    match rootSymbolFilter root .empty with
    | some filter => { index with unindexedBySymbol := fileUnder index.unindexedBySymbol filter.symbols p }
    | none => { index with unfilteredUnindexed := index.unfilteredUnindexed ++ [p] }

def QueryMatcher.rootIndex (matcher : QueryMatcher) : RootIndex :=
  matcher.patterns.zipIdx.foldl (fun index entry => index.file entry.2 entry.1.root.node)
    { rootIndex := fun _ => [], unindexedBySymbol := fun _ => [], unfilteredUnindexed := [] }

/-! ## Trying patterns at a node -/

/-- `slot` is where the node sits in its own parent. A group is matched against the children. -/
def tryPattern (supertypeSteps : Bool) (root : ChildItem) (node : RedNode) (slot : NodeSlot) (σ : Type)
    (next : MatchFn σ) : MatchFn σ := fun trails s =>
  if root.head.field != 0 && root.head.field != slot.field then (trails, s)
  else if root.node.head.kind = .group then
    let children := collectChildren node supertypeSteps
    if children.isEmpty then (trails, s)
    else
      enumSequence supertypeSteps root.node.head.trailingAnchor root.node.children children 0 none false
        false σ next trails s
  else
    matchNode supertypeSteps root.node root.head.captures σ ⟨node, slot, node.data.named⟩ next trails s

namespace QueryRun

variable (run : QueryRun) (walkPath : List RedNode) (node : RedNode) (slot : NodeSlot) {σ : Type}
  (sink : Nat → Trails → RedNode → σ → σ)

/-- An assignment that passes the predicates of its pattern goes to the sink. -/
def report (p : Nat) (pattern : Pattern) : MatchFn σ := fun trails s =>
  (trails, if run.evaluatePatternPredicates walkPath pattern trails.bindings then sink p trails node s else s)

def tryOne (p : Nat) : MatchFn σ := fun trails s =>
  match run.matcher.patterns[p]? with
  | none => (trails, s)
  | some pattern =>
      tryPattern run.matcher.supertypeSteps pattern.root node slot σ
        (run.report walkPath node sink p pattern) { trails with bindings := [] } s

/-- The patterns filed under the symbol of a node: the indexed ones, and then the others in order. -/
def candidates : List Nat :=
  let index := run.matcher.rootIndex
  index.rootIndex node.data.symbol ++
    (index.unindexedBySymbol node.data.symbol).merge index.unfilteredUnindexed fun a b => a < b

/-- The bindings are of its own, the trail is shared. -/
def runAtNode (matchedTrail : List RedNode) (s : σ) : List RedNode × σ :=
  let result := forEach (run.candidates node) (run.tryOne walkPath node slot sink)
    { bindings := [], matchedTrail := matchedTrail } s
  (result.1.matchedTrail, result.2)

end QueryRun

end Ned.Editor.Query
