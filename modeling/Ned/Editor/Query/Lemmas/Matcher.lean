import Ned.Editor.Query.Matcher

/-!
# Lemmas for the matcher

What the matcher enumerates, as a list, and that the shared vectors are as they were when it returns.
-/

namespace Ned.Editor.Query

open Library

/-! ## The vectors -/

instance : Mul Trails where
  mul a b :=
    { bindings := a.bindings ++ b.bindings
      matchedTrail := a.matchedTrail ++ b.matchedTrail }

instance : One Trails := ⟨⟨[], []⟩⟩

namespace Trails

@[simp] theorem bindings_mul (a b : Trails) : (a * b).bindings = a.bindings ++ b.bindings := rfl

@[simp] theorem matchedTrail_mul (a b : Trails) :
    (a * b).matchedTrail = a.matchedTrail ++ b.matchedTrail := rfl

@[simp] theorem bindings_one : (1 : Trails).bindings = [] := rfl

@[simp] theorem matchedTrail_one : (1 : Trails).matchedTrail = [] := rfl

end Trails

instance : Monoid Trails where
  mul_assoc a b c := by ext1 <;> simp
  one_mul a := by ext1 <;> simp
  mul_one a := by ext1 <;> simp

namespace Trails

def matched (captures : List Nat) (node : RedNode) : Trails := (1 : Trails).push captures node

def bound (captures : List Nat) (node : RedNode) : Trails := (1 : Trails).bind captures node

theorem push_eq (trails : Trails) (captures : List Nat) (node : RedNode) :
    trails.push captures node = trails * matched captures node := rfl

theorem bind_eq (trails : Trails) (captures : List Nat) (node : RedNode) :
    trails.bind captures node = trails * bound captures node := by
  ext1
  · rfl
  · simp [bind, bound]

theorem resize_mul (a b : Trails) : (a * b).resize a.bindings.length a.matchedTrail.length = a := by
  ext1 <;> simp [resize]

theorem resizeBindings_bind (trails : Trails) (captures : List Nat) (node : RedNode) :
    (trails.bind captures node).resizeBindings trails.bindings.length = trails := by
  ext1 <;> simp [resizeBindings, bind]

end Trails

/-! ## Assignments -/

def probes (answers : List Nat → ChildInfo → List Trails) (child : ChildInfo) : Bool :=
  !(answers [] child).isEmpty

/-- The assignments of a run after a rep at `last`. -/
def repAnswers (kind : PatternKind) (captures : List Nat) (answers : List Nat → ChildInfo → List Trails)
    (after : Nat → List Trails) (last : Nat) : Nat → List ChildInfo → List Trails
  | _, [] => after last
  | n, child :: rest =>
      if kind = .anonymous ∨ kind = .anyNode ∨ child.named = true then
        if probes answers child then
          (answers captures child).flatMap fun answer =>
            (repAnswers kind captures answers after n (n + 1) rest).map (answer * ·)
        else after last
      else repAnswers kind captures answers after last (n + 1) rest

def runAnswers (kind : PatternKind) (captures : List Nat) (answers : List Nat → ChildInfo → List Trails)
    (children : List ChildInfo) (after : Nat → List Trails) (c : Nat) (child : ChildInfo) : List Trails :=
  (answers captures child).flatMap fun answer =>
    (repAnswers kind captures answers after c (c + 1) (children.drop (c + 1))).map (answer * ·)

/-- A field and anchors rule a child out. -/
def ruledOut (item : ItemHead) (children : List ChildInfo) (lastMatched : Option Nat)
    (anchored bounded : Bool) (c : Nat) (child : ChildInfo) : Bool :=
  item.field != 0 && item.field != child.slot.field ||
    anchored && !anchorHolds children lastMatched bounded c

/-- The assignments for one child, and whether there is a single match. -/
def childAnswers (item : ItemHead) (kind : PatternKind) (answers : List Nat → ChildInfo → List Trails)
    (children : List ChildInfo) (lastMatched : Option Nat) (anchored bounded : Bool)
    (after : Nat → List Trails) (c : Nat) : List Trails × Bool :=
  match children[c]? with
  | none => ([], false)
  | some child =>
      if ruledOut item children lastMatched anchored bounded c child then ([], false)
      else if item.quantifier = .star ∨ item.quantifier = .plus then
        if (namedPredecessor children c lastMatched).any (probes answers) then ([], false)
        else (runAnswers kind item.captures answers children after c child, false)
      else
        ((answers item.captures child).flatMap fun answer => (after c).map (answer * ·),
          !(answers item.captures child).isEmpty)

mutual
def nodeAnswers (supertypeSteps : Bool) : PatternNode → List Nat → ChildInfo → List Trails
  | .mk head children, captures, info =>
      match head.kind with
      | .alternation => branchAnswers supertypeSteps children captures info
      | .group => []
      | _ =>
          if head.accepts info.node info.slot then
            if head.fieldsOk info.node then
              (if children.isEmpty && !head.trailingAnchor then [1]
              else
                sequenceAnswers supertypeSteps head.trailingAnchor children
                  (collectChildren info.node supertypeSteps) 0 none false true).map
                (Trails.matched captures info.node * ·)
            else []
          else []

def branchAnswers (supertypeSteps : Bool) : List ChildItem → List Nat → ChildInfo → List Trails
  | [], _, _ => []
  | .mk item branch :: rest, captures, info =>
      (if branchSkipped item branch.head info.node info.slot then []
      else (nodeAnswers supertypeSteps branch item.captures info).map
        (Trails.bound captures info.node * ·)) ++
        branchAnswers supertypeSteps rest captures info

def sequenceAnswers (supertypeSteps trailingAnchor : Bool) :
    List ChildItem → List ChildInfo → Nat → Option Nat → Bool → Bool → List Trails
  | [], children, _, lastMatched, _, bounded =>
      if trailingAnchor && bounded && namedBetween children lastMatched children.length then [] else [1]
  | .mk item node :: items, children, childIdx, lastMatched, carriedAnchor, bounded =>
      let anchored := item.anchorBefore || carriedAnchor
      let skipped := sequenceAnswers supertypeSteps trailingAnchor items children childIdx lastMatched
        anchored bounded
      let found := (List.range' childIdx (children.length - childIdx)).map
        (childAnswers item node.head.kind (nodeAnswers supertypeSteps node) children lastMatched anchored
          bounded fun c =>
            sequenceAnswers supertypeSteps trailingAnchor items children (c + 1) (some c) false bounded)
      (if item.quantifier = .star then skipped else []) ++ found.flatMap (·.1) ++
        (if item.quantifier = .optional ∧ found.any (·.2) = false then skipped else [])
end

/-! ## Runs of reps -/

/-- A matcher enumerates these answers under every continuation. -/
def Matches (matchChild : ChildMatcher) (answers : List Nat → ChildInfo → List Trails) : Prop :=
  ∀ captures σ child, Enumerates (matchChild captures σ child) (answers captures child)

variable {matchChild : ChildMatcher} {answers : List Nat → ChildInfo → List Trails} {σ : Type}
  {kind : PatternKind} {captures : List Nat} {after : Nat → List Trails}

theorem probeMatches_eq (h : Matches matchChild answers) (child : ChildInfo) (trails : Trails) :
    probeMatches matchChild child trails = (probes answers child, trails) := by
  rw [probeMatches, (h [] Bool child).probe]
  rfl

theorem startHasMatchingPredecessor_eq (h : Matches matchChild answers) (children : List ChildInfo)
    (start : Nat) (lastMatched : Option Nat) (trails : Trails) :
    startHasMatchingPredecessor matchChild children start lastMatched trails =
      ((namedPredecessor children start lastMatched).any (probes answers), trails) := by
  rw [startHasMatchingPredecessor]
  cases namedPredecessor children start lastMatched with
  | none => rfl
  | some before => exact probeMatches_eq h before trails

theorem extendRep_enumerates (h : Matches matchChild answers) {proceed : Nat → MatchFn σ → MatchFn σ}
    (hproceed : ∀ c, Enumerates (proceed c) (after c)) (last n : Nat) (children : List ChildInfo) :
    Enumerates (fun next => extendRep kind captures matchChild (proceed · next) last n children)
      (repAnswers kind captures answers after last n children) := by
  induction children generalizing last n with
  | nil => exact hproceed last
  | cons child rest ih =>
      simp only [extendRep, repAnswers, probeMatches_eq h]
      split
      · split
        · exact (h captures σ child).andThen (ih n (n + 1))
        · exact hproceed last
      · exact ih last (n + 1)

theorem extendStarRun_enumerates (h : Matches matchChild answers) {proceed : Nat → MatchFn σ → MatchFn σ}
    (hproceed : ∀ c, Enumerates (proceed c) (after c)) (children : List ChildInfo) (c : Nat)
    (child : ChildInfo) :
    Enumerates
      (fun next => extendStarRun kind captures matchChild children (proceed · next) c child)
      (runAnswers kind captures answers children after c child) :=
  (h captures σ child).andThen (extendRep_enumerates h hproceed c (c + 1) _)

/-! ## The matcher -/

theorem PatternNode.induct {P : PatternNode → Prop} {Q : List ChildItem → Prop}
    (hnode : ∀ head children, Q children → P (.mk head children)) (hnil : Q [])
    (hcons : ∀ item node rest, P node → Q rest → Q (.mk item node :: rest)) :
    (∀ node, P node) ∧ ∀ items, Q items := by
  have hitems : ∀ items, Q items := fun items =>
    @PatternNode.rec_1 P (fun item => P item.node) Q (fun head children h => hnode head children h)
      (fun _ _ h => h) hnil (fun item rest h hrest => by
        cases item
        exact hcons _ _ rest h hrest) items
  refine ⟨fun node => ?_, hitems⟩
  cases node
  exact hnode _ _ (hitems _)

variable {supertypeSteps trailingAnchor : Bool}

variable (supertypeSteps) in
def BranchesMatch (items : List ChildItem) : Prop :=
  ∀ captures σ info, Enumerates (matchBranches supertypeSteps items captures σ info)
    (branchAnswers supertypeSteps items captures info)

variable (supertypeSteps) in
def SequenceMatches (items : List ChildItem) : Prop :=
  ∀ trailingAnchor children childIdx lastMatched carriedAnchor bounded σ,
    Enumerates
      (enumSequence supertypeSteps trailingAnchor items children childIdx lastMatched carriedAnchor
        bounded σ)
      (sequenceAnswers supertypeSteps trailingAnchor items children childIdx lastMatched carriedAnchor
        bounded)

theorem accepted_enumerates (captures : List Nat) (node : RedNode) (accepts fieldsOk : Bool)
    {inside : MatchFn σ → MatchFn σ} {answers : List Trails} (h : Enumerates inside answers) :
    Enumerates (fun next trails s =>
        if accepts then
          let pushed := trails.push captures node
          let result := if fieldsOk then inside next pushed s else (pushed, s)
          (result.1.resize trails.bindings.length trails.matchedTrail.length, result.2)
        else (trails, s))
      (if accepts then if fieldsOk then answers.map (Trails.matched captures node * ·) else [] else []) := by
  intro next hnext trails s
  have hresize : (trails.push captures node).resize trails.bindings.length trails.matchedTrail.length =
      trails := by
    rw [Trails.push_eq, Trails.resize_mul]
  cases accepts with
  | false => rfl
  | true =>
      cases fieldsOk with
      | false => exact Prod.ext hresize rfl
      | true =>
          have hinside := h next hnext (trails.push captures node) s
          refine Prod.ext ?_ ?_
          · change (inside next (trails.push captures node) s).1.resize _ _ = trails
            rw [hinside, hresize]
          · change (inside next (trails.push captures node) s).2 = _
            rw [hinside, Trails.push_eq, if_pos rfl, if_pos rfl, visitAll_map]

theorem matchNode_enumerates {head : PatternHead} {children : List ChildItem}
    (hbranches : BranchesMatch supertypeSteps children)
    (hsequence : SequenceMatches supertypeSteps children) :
    Matches (matchNode supertypeSteps (.mk head children))
      (nodeAnswers supertypeSteps (.mk head children)) := by
  intro captures σ info
  have hinside : Enumerates (σ := σ)
      (fun next pushed s =>
        if children.isEmpty && !head.trailingAnchor then next pushed s
        else
          enumSequence supertypeSteps head.trailingAnchor children
            (collectChildren info.node supertypeSteps) 0 none false true σ next pushed s)
      (if children.isEmpty && !head.trailingAnchor then [1]
      else
        sequenceAnswers supertypeSteps head.trailingAnchor children
          (collectChildren info.node supertypeSteps) 0 none false true) := by
    split
    · exact .one
    · exact hsequence _ _ _ _ _ _ _
  intro next hnext trails s
  have haccepted := accepted_enumerates captures info.node (head.accepts info.node info.slot)
    (head.fieldsOk info.node) hinside next hnext trails s
  simp only [matchNode, nodeAnswers]
  cases head.kind with
  | alternation => exact hbranches captures σ info next hnext trails s
  | group => rfl
  | _ => exact haccepted

theorem matchBranches_cons {item : ItemHead} {branch : PatternNode} {rest : List ChildItem}
    (hbranch : Matches (matchNode supertypeSteps branch) (nodeAnswers supertypeSteps branch))
    (hrest : BranchesMatch supertypeSteps rest) :
    BranchesMatch supertypeSteps (.mk item branch :: rest) := by
  intro captures σ info next hnext trails s
  rw [matchBranches, branchAnswers]
  split
  · exact hrest captures σ info next hnext trails s
  · dsimp only
    rw [hbranch item.captures σ info next hnext, Trails.resizeBindings_bind,
      hrest captures σ info next hnext, visitAll_append, visitAll_map, Trails.bind_eq]

variable {item : ItemHead} {children : List ChildInfo} {lastMatched : Option Nat}
  {anchored bounded : Bool}

theorem tryChild_enumerates (h : Matches matchChild answers)
    {proceed : Nat → (σ : Type) → MatchFn σ → MatchFn σ}
    (hproceed : ∀ c σ, Enumerates (proceed c σ) (after c)) (c : Nat) :
    EnumeratesFlagged (σ := σ)
      (fun next => tryChild item kind matchChild children lastMatched anchored bounded proceed next c)
      (childAnswers item kind answers children lastMatched anchored bounded after c).1
      (childAnswers item kind answers children lastMatched anchored bounded after c).2 := by
  unfold tryChild childAnswers
  simp only [startHasMatchingPredecessor_eq h]
  cases children[c]? with
  | none => exact .none
  | some child =>
      dsimp only [ruledOut]
      by_cases hfield : (item.field != 0 && item.field != child.slot.field) = true
      · simp only [hfield, if_true, Bool.true_or]
        exact .none
      by_cases hanchor : (anchored && !anchorHolds children lastMatched bounded c) = true
      · simp only [hfield, hanchor, if_true, Bool.or_true, if_false, Bool.false_eq_true]
        exact .none
      simp only [hfield, hanchor, if_false, Bool.false_eq_true, Bool.or_false]
      split
      · split
        · exact .none
        · exact .quiet (extendStarRun_enumerates h (hproceed · (σ × Bool)) children c child)
      · exact .andThen (h item.captures (σ × Bool) child) (hproceed c σ)

theorem enumSequence_cons {node : PatternNode} {items : List ChildItem}
    (hnode : Matches (matchNode supertypeSteps node) (nodeAnswers supertypeSteps node))
    (hitems : SequenceMatches supertypeSteps items) :
    SequenceMatches supertypeSteps (.mk item node :: items) := by
  intro trailingAnchor children childIdx lastMatched carriedAnchor bounded σ next hnext trails s
  rw [enumSequence, sequenceAnswers]
  dsimp only
  generalize (item.anchorBefore || carriedAnchor) = anchored
  have hskipped := hitems trailingAnchor children childIdx lastMatched anchored bounded σ next hnext
  have hchild : ∀ c, EnumeratesFlagged (σ := σ)
      (fun next => tryChild item node.head.kind (matchNode supertypeSteps node) children lastMatched
        anchored bounded (fun c σ next => enumSequence supertypeSteps trailingAnchor items children (c + 1)
          (some c) false bounded σ next) next c)
      (childAnswers item node.head.kind (nodeAnswers supertypeSteps node) children lastMatched anchored
        bounded (fun c =>
          sequenceAnswers supertypeSteps trailingAnchor items children (c + 1) (some c) false bounded) c).1
      _ :=
    tryChild_enumerates hnode fun c σ => hitems trailingAnchor children (c + 1) (some c) false bounded σ
  have hfound := EnumeratesFlagged.forEach
    fun c (_ : c ∈ List.range' childIdx (children.length - childIdx)) => hchild c
  have hstart : (if item.quantifier = .star then
        enumSequence supertypeSteps trailingAnchor items children childIdx lastMatched anchored bounded
          σ next trails s
      else (trails, s)) =
      (trails, visitAll next trails (if item.quantifier = .star then
        sequenceAnswers supertypeSteps trailingAnchor items children childIdx lastMatched anchored bounded
      else []) s) := by
    split
    · exact hskipped trails s
    · rfl
  have hloop := fun s => hfound next hnext trails s false
  beta_reduce at hloop
  rw [hstart, hloop, List.flatMap_map, List.any_map, visitAll_append, visitAll_append, Bool.false_or]
  dsimp only [Function.comp_def]
  split
  · exact hskipped trails _
  · rfl

theorem matcher_enumerates :
    (∀ node, Matches (matchNode supertypeSteps node) (nodeAnswers supertypeSteps node)) ∧
      ∀ items, BranchesMatch supertypeSteps items ∧ SequenceMatches supertypeSteps items := by
  apply PatternNode.induct
  · exact fun head children h => matchNode_enumerates h.1 h.2
  · refine ⟨fun captures σ info => .none, ?_⟩
    intro trailingAnchor children childIdx lastMatched carriedAnchor bounded σ next hnext trails s
    rw [enumSequence, sequenceAnswers]
    split
    · rfl
    · exact Enumerates.one next hnext trails s
  · exact fun item node rest hnode hrest =>
      ⟨matchBranches_cons hnode hrest.1, enumSequence_cons hnode hrest.2⟩

/-! ## Patterns at a node -/

def rootAnswers (supertypeSteps : Bool) (root : ChildItem) (node : RedNode) (slot : NodeSlot) :
    List Trails :=
  if root.head.field != 0 && root.head.field != slot.field then []
  else if root.node.head.kind = .group then
    if (collectChildren node supertypeSteps).isEmpty then []
    else
      sequenceAnswers supertypeSteps root.node.head.trailingAnchor root.node.children
        (collectChildren node supertypeSteps) 0 none false false
  else nodeAnswers supertypeSteps root.node root.head.captures ⟨node, slot, node.data.named⟩

theorem tryPattern_enumerates (root : ChildItem) (node : RedNode) (slot : NodeSlot) :
    Enumerates (tryPattern supertypeSteps root node slot σ) (rootAnswers supertypeSteps root node slot) := by
  intro next hnext trails s
  rw [tryPattern, rootAnswers]
  split
  · rfl
  · split
    · dsimp only
      split
      · rfl
      · exact (matcher_enumerates.2 root.node.children).2 _ _ _ _ _ _ σ next hnext trails s
    · exact matcher_enumerates.1 root.node _ σ _ next hnext trails s

end Ned.Editor.Query
