import Ned.Text.Lemmas.Session
import Ned.Library.Runs

/-!
# The order of anchors

Two offsets that an edit relocates under one policy keep their order, but for a replacement that
begins at the one and reaches past the other. No insertion and no deletion does that; a restore may.
-/

namespace Ned.Text

open Ned.Library

/-! ## One edit -/

/-- The edit replaces bytes from `x` on to beyond `y`, and the policy carries `x` past what it puts
there and collapses `y` to the point before it. -/
structure Crosses (policy : AnchorPolicy) (op : EditOp) (x y : Nat) : Prop where
  gravity : policy.gravity = .right
  insideDelete : policy.insideDelete = .clamp
  inserts : 0 < op.newLength
  start : x = op.offset
  inside : op.offset < y ∧ y < op.offset + op.oldLength

/-- Where an offset goes, by where it lies. -/
inductive Relocated (policy : AnchorPolicy) (op : EditOp) : Nat → Nat → Prop
  | before {x : Nat} (h : x < op.offset) : Relocated policy op x x
  | pushed (h : policy.gravity = .right) : Relocated policy op op.offset (op.offset + op.newLength)
  | stayed (h : policy.gravity ≠ .right) : Relocated policy op op.offset op.offset
  | collapsed {x : Nat} (hstart : op.offset < x) (hstop : x < op.offset + op.oldLength)
      (h : policy.insideDelete = .clamp) : Relocated policy op x op.offset
  | shifted {x : Nat} (hstart : op.offset < x) (hstop : op.offset + op.oldLength ≤ x) :
      Relocated policy op x (x + op.newLength - op.oldLength)

section Edit

variable {policy : AnchorPolicy} {op : EditOp} {x x' y y' : Nat}

theorem relocated_of_relocateThrough (h : relocateThrough x op policy = some x') :
    Relocated policy op x x' := by
  simp only [relocateThrough] at h
  split at h
  · cases h
  · split at h
    · rename_i hbefore
      cases h
      exact .before hbefore
    · rename_i hbefore
      split at h
      · rename_i hstart
        subst hstart
        cases h
        split
        · exact .pushed ‹_›
        · exact .stayed ‹_›
      · rename_i hstart
        have hstart : op.offset < x := Nat.lt_of_le_of_ne (Nat.le_of_not_lt hbefore) (Ne.symm hstart)
        split at h
        · rename_i hstop
          cases h
          exact .shifted hstart hstop
        · rename_i hstop
          split at h
          · cases h
          · rename_i hclamp
            cases h
            have hclamp : policy.insideDelete = .clamp := by
              cases hinside : policy.insideDelete with
              | clamp => rfl
              | invalidate => exact absurd hinside hclamp
            exact .collapsed hstart (Nat.lt_of_not_le hstop) hclamp

theorem Relocated.le (hx : Relocated policy op x x') (hy : Relocated policy op y y') (h : x ≤ y)
    (hcrosses : ¬ Crosses policy op x y) : x' ≤ y' := by
  cases hx with
  | before hbefore => cases hy <;> omega
  | stayed hgravity => cases hy <;> omega
  | collapsed hstart hstop hclamp => cases hy <;> omega
  | shifted hstart hstop => cases hy <;> omega
  | pushed hgravity =>
      cases hy with
      | before hbefore => omega
      | pushed => exact Nat.le_refl _
      | stayed hgravity' => exact absurd hgravity hgravity'
      | shifted hstart hstop => omega
      | collapsed hstart hstop hclamp =>
          -- the one case where the offsets would change places
          have hinserts : ¬ 0 < op.newLength := fun hinserts =>
            hcrosses ⟨hgravity, hclamp, hinserts, rfl, hstart, hstop⟩
          omega

theorem Crosses.lt (h : Crosses policy op x y) (hx : Relocated policy op x x')
    (hy : Relocated policy op y y') : y' < x' := by
  obtain ⟨hgravity, -, hinserts, rfl, hstart, hstop⟩ := h
  have hx' : x' = op.offset + op.newLength := by
    cases hx with
    | before hbefore => exact absurd hbefore (Nat.lt_irrefl _)
    | pushed => rfl
    | stayed hgravity' => exact absurd hgravity hgravity'
    | collapsed hstart => exact absurd hstart (Nat.lt_irrefl _)
    | shifted hstart => exact absurd hstart (Nat.lt_irrefl _)
  have hy' : y' = op.offset := by
    cases hy with
    | collapsed => rfl
    | _ => omega
  omega

theorem relocateThrough_le_iff (h : x ≤ y) (hx : relocateThrough x op policy = some x')
    (hy : relocateThrough y op policy = some y') : x' ≤ y' ↔ ¬ Crosses policy op x y := by
  have hx := relocated_of_relocateThrough hx
  have hy := relocated_of_relocateThrough hy
  exact ⟨fun hle hcrosses => Nat.not_lt.2 hle (hcrosses.lt hx hy), hx.le hy h⟩

/-- Nothing lies strictly inside an insertion, and a deletion puts nothing in place. -/
theorem not_crosses_of_oneSided (h : op.oldLength = 0 ∨ op.newLength = 0) :
    ¬ Crosses policy op x y := by
  intro hcrosses
  obtain ⟨hstart, hstop⟩ := hcrosses.inside
  have hinserts := hcrosses.inserts
  omega

end Edit

/-! ## Several edits -/

/-- Two offsets, carried through one edit. -/
def relocatePair (policy : AnchorPolicy) (pair : Nat × Nat) (op : EditOp) : Option (Nat × Nat) := do
  let x ← relocateThrough pair.1 op policy
  let y ← relocateThrough pair.2 op policy
  some (x, y)

section Edits

variable {policy : AnchorPolicy} {x x' y y' : Nat}

theorem relocatePair_eq_some {op : EditOp} :
    relocatePair policy (x, y) op = some (x', y') ↔
      relocateThrough x op policy = some x' ∧ relocateThrough y op policy = some y' := by
  simp only [relocatePair, Option.bind_eq_bind]
  cases relocateThrough x op policy <;> cases relocateThrough y op policy <;> simp

theorem run_relocatePair {ops : List EditOp} (hx : relocateThroughAll x ops policy = some x')
    (hy : relocateThroughAll y ops policy = some y') :
    run (relocatePair policy) (x, y) ops = some (x', y') := by
  induction ops generalizing x y with
  | nil =>
      cases hx
      cases hy
      rfl
  | cons op ops ih =>
      obtain ⟨u, hu, hx⟩ := Option.bind_eq_some_iff.1 hx
      obtain ⟨v, hv, hy⟩ := Option.bind_eq_some_iff.1 hy
      exact run_cons_eq_some.2 ⟨(u, v), relocatePair_eq_some.2 ⟨hu, hv⟩, ih hx hy⟩

theorem relocateThroughAll_le {ops : List EditOp} (h : x ≤ y)
    (hadm : Admissible (relocatePair policy) (fun pair op => ¬ Crosses policy op pair.1 pair.2)
      (x, y) ops)
    (hx : relocateThroughAll x ops policy = some x')
    (hy : relocateThroughAll y ops policy = some y') : x' ≤ y' := by
  refine run_invariant_of_admissible (fun pair : Nat × Nat => pair.1 ≤ pair.2)
    (fun pair op pair' hle hallowed hstep => ?_) h hadm (run_relocatePair hx hy)
  obtain ⟨hx, hy⟩ := relocatePair_eq_some.1 hstep
  exact (relocateThrough_le_iff hle hx hy).2 hallowed

end Edits

/-! ## Anchors of a buffer -/

namespace AnchorSet

/-- Two anchors with this policy, the first not behind the second while both are alive. -/
def InOrder (anchors : AnchorSet) (policy : AnchorPolicy) (id₁ id₂ : AnchorId) : Prop :=
  ∃ r₁ r₂, Carries anchors id₁ policy r₁ ∧ Carries anchors id₂ policy r₂ ∧
    ∀ x y, r₁ = some x → r₂ = some y → x ≤ y

variable {anchors anchors' : AnchorSet} {policy : AnchorPolicy} {id₁ id₂ : AnchorId}

theorem InOrder.le {x y : Nat} (h : InOrder anchors policy id₁ id₂)
    (hx : anchors.offset id₁ = some x) (hy : anchors.offset id₂ = some y) : x ≤ y := by
  obtain ⟨r₁, r₂, h₁, h₂, hle⟩ := h
  exact hle x y (h₁.offset.symm.trans hx) (h₂.offset.symm.trans hy)

theorem InOrder.relocates {op : EditOp} {f : Entry → Entry} (h : InOrder anchors policy id₁ id₂)
    (hcrosses : ∀ x y, anchors.offset id₁ = some x → anchors.offset id₂ = some y →
      ¬ Crosses policy op x y)
    (hrel : Relocates op anchors anchors' f) : InOrder anchors' policy id₁ id₂ := by
  obtain ⟨r₁, r₂, h₁, h₂, hle⟩ := h
  refine ⟨_, _, hrel.carries h₁, hrel.carries h₂, fun x' y' hx' hy' => ?_⟩
  obtain ⟨x, rfl, hx'⟩ := Option.bind_eq_some_iff.1 hx'
  obtain ⟨y, rfl, hy'⟩ := Option.bind_eq_some_iff.1 hy'
  exact (relocateThrough_le_iff (hle x y rfl rfl) hx' hy').2 (hcrosses x y h₁.offset h₂.offset)

end AnchorSet

namespace Session

open AnchorSet

variable {p : Platform} {s s' : Session} {op : Operation} {policy : AnchorPolicy}
  {id₁ id₂ : AnchorId}

/-- The operation restores a content whose one changed region crosses the two anchors. -/
def SwapsAnchors (s : Session) (policy : AnchorPolicy) (id₁ id₂ : AnchorId) (op : Operation) : Prop :=
  ∃ tree target span x y, s.MovesTo op tree ∧ tree.currentState = some target ∧
    changedByteRange s.buffer.storage target = some span ∧
    s.buffer.anchorOffset id₁ = some x ∧ s.buffer.anchorOffset id₂ = some y ∧
    Crosses policy (.replaced 0 span.oldStart (span.oldEnd - span.oldStart)
      (span.newEnd - span.newStart)) x y

/-- The anchors stay, and no restore swaps them. -/
def KeepsAnchors (policy : AnchorPolicy) (id₁ id₂ : AnchorId) (s : Session) (op : Operation) : Prop :=
  op ≠ .destroyAnchor id₁ ∧ op ≠ .destroyAnchor id₂ ∧ ¬ s.SwapsAnchors policy id₁ id₂ op

/-- No commit crosses the anchors, unless it is that of a restore which swaps them. -/
theorem Publishes.not_crosses {c : Tracking.Commit} (h : s.Publishes op c)
    (hswaps : ¬ s.SwapsAnchors policy id₁ id₂ op) {x y generation : Nat}
    (hx : s.buffer.anchorOffset id₁ = some x) (hy : s.buffer.anchorOffset id₂ = some y) :
    ¬ Crosses policy (c.op generation) x y := by
  cases h with
  | barrier => exact not_crosses_of_oneSided (Or.inl rfl)
  | inserted offset length => exact not_crosses_of_oneSided (Or.inl rfl)
  | erased offset length => exact not_crosses_of_oneSided (Or.inr rfl)
  | restored hmoves htarget =>
      rw [Buffer.restoreCommit]
      split
      · rename_i span hspan
        intro hcrosses
        obtain ⟨hgravity, hinside, hinserts, hstart, hspanned⟩ := hcrosses
        exact hswaps ⟨_, _, span, x, y, hmoves, htarget, hspan, hx, hy,
          ⟨hgravity, hinside, hinserts, hstart, hspanned⟩⟩
      · exact not_crosses_of_oneSided (Or.inl rfl)

theorem freeSlots_step (h : s.buffer.anchors.FreeSlots) (hstep : s.step p op = some s') :
    s'.buffer.anchors.FreeSlots := by
  by_cases hop : isAnchorOperation op = true
  · cases op with
    | createAnchor o q =>
        cases hstep
        exact h.create o q
    | destroyAnchor id =>
        cases hstep
        exact h.destroy id
    | _ => cases hop
  · rcases step_announces (Bool.eq_false_iff.2 hop) hstep with htracking | ⟨c, -, htracking⟩
    · rw [htracking]
      exact h
    · obtain ⟨-, -, f, hrel⟩ := Tracking.commit_spec s.buffer.toTracking c
      rw [htracking]
      exact hrel.freeSlots h

theorem inOrder_step (h : s.buffer.anchors.InOrder policy id₁ id₂)
    (hfree : s.buffer.anchors.FreeSlots) (hkeeps : KeepsAnchors policy id₁ id₂ s op)
    (hstep : s.step p op = some s') : s'.buffer.anchors.InOrder policy id₁ id₂ := by
  obtain ⟨hkeeps₁, hkeeps₂, hswaps⟩ := hkeeps
  by_cases hop : isAnchorOperation op = true
  · obtain ⟨r₁, r₂, h₁, h₂, hle⟩ := h
    cases op with
    | createAnchor o q =>
        cases hstep
        exact ⟨r₁, r₂, h₁.create hfree rfl, h₂.create hfree rfl, hle⟩
    | destroyAnchor id =>
        cases hstep
        have hne₁ : id ≠ id₁ := fun heq => hkeeps₁ (heq ▸ rfl)
        have hne₂ : id ≠ id₂ := fun heq => hkeeps₂ (heq ▸ rfl)
        exact ⟨r₁, r₂, h₁.destroy hne₁, h₂.destroy hne₂, hle⟩
    | _ => cases hop
  · rcases step_announces (Bool.eq_false_iff.2 hop) hstep with htracking | ⟨c, hc, htracking⟩
    · rw [htracking]
      exact h
    · obtain ⟨-, -, f, hrel⟩ := Tracking.commit_spec s.buffer.toTracking c
      rw [htracking]
      exact h.relocates (fun x y hx hy => hc.not_crosses hswaps hx hy) hrel

/-- Two anchors that no step of a run destroys or swaps are in the same order after it. -/
theorem anchors_inOrder {b : Buffer} (hb : b.toTracking = .initial) {before after : List Operation}
    {s₁ s₂ : Session} (hbefore : run (Session.step p) (ofBuffer b) before = some s₁)
    (h : s₁.buffer.anchors.InOrder policy id₁ id₂)
    (hadm : Admissible (Session.step p) (KeepsAnchors policy id₁ id₂) s₁ after)
    (hafter : run (Session.step p) s₁ after = some s₂) :
    s₂.buffer.anchors.InOrder policy id₁ id₂ := by
  have hinitial : (ofBuffer b).buffer.anchors.FreeSlots := by
    have hempty : b.anchors = .empty := congrArg Tracking.anchors hb
    exact hempty ▸ freeSlots_empty
  have hfree : s₁.buffer.anchors.FreeSlots :=
    run_invariant (fun s : Session => s.buffer.anchors.FreeSlots)
      (fun _ _ _ h hstep => freeSlots_step h hstep) hinitial hbefore
  exact (run_invariant_of_admissible
    (fun s : Session => s.buffer.anchors.InOrder policy id₁ id₂ ∧ s.buffer.anchors.FreeSlots)
    (fun _ _ _ h hkeeps hstep =>
      ⟨inOrder_step h.1 h.2 hkeeps hstep, freeSlots_step h.2 hstep⟩) ⟨h, hfree⟩ hadm hafter).1

end Session

/-- Relocation keeps the order of two offsets exactly where the edit does not cross them, hence along
every sequence of edits of which none does; and two anchors of one policy keep theirs in every run of
a buffer in which no restore swaps them. -/
theorem relocation_keeps_order :
    (∀ (op : EditOp) (policy : AnchorPolicy) (x y x' y' : Nat), op.barrier = false → x ≤ y →
      relocateThrough x op policy = some x' → relocateThrough y op policy = some y' →
      (x' ≤ y' ↔ ¬ Crosses policy op x y)) ∧
    (∀ (ops : List EditOp) (policy : AnchorPolicy) (x y x' y' : Nat), x ≤ y →
      Admissible (relocatePair policy) (fun pair op => ¬ Crosses policy op pair.1 pair.2) (x, y) ops →
      relocateThroughAll x ops policy = some x' → relocateThroughAll y ops policy = some y' →
      x' ≤ y') ∧
    ∀ (p : Platform) (b : Buffer) (before after : List Operation) (s₁ s₂ : Session)
      (policy : AnchorPolicy) (id₁ id₂ : AnchorId) (x y x' y' : Nat), b.toTracking = .initial →
      run (Session.step p) (.ofBuffer b) before = some s₁ →
      (s₁.buffer.anchors.find id₁).map (·.policy) = some policy →
      (s₁.buffer.anchors.find id₂).map (·.policy) = some policy →
      s₁.buffer.anchorOffset id₁ = some x → s₁.buffer.anchorOffset id₂ = some y → x ≤ y →
      Admissible (Session.step p) (Session.KeepsAnchors policy id₁ id₂) s₁ after →
      run (Session.step p) s₁ after = some s₂ →
      s₂.buffer.anchorOffset id₁ = some x' → s₂.buffer.anchorOffset id₂ = some y' → x' ≤ y' := by
  refine ⟨fun op policy x y x' y' _ h hx hy => relocateThrough_le_iff h hx hy,
    fun ops policy x y x' y' h hadm hx hy => relocateThroughAll_le h hadm hx hy, ?_⟩
  intro p b before after s₁ s₂ policy id₁ id₂ x y x' y' hb hbefore hpolicy₁ hpolicy₂ hx hy hle hadm
    hafter hx' hy'
  obtain ⟨e₁, hfind₁, hpolicy₁⟩ := Option.map_eq_some_iff.1 hpolicy₁
  obtain ⟨e₂, hfind₂, hpolicy₂⟩ := Option.map_eq_some_iff.1 hpolicy₂
  have hcarries₁ : s₁.buffer.anchors.Carries id₁ policy e₁.resolved := ⟨e₁, hfind₁, hpolicy₁, rfl⟩
  have hcarries₂ : s₁.buffer.anchors.Carries id₂ policy e₂.resolved := ⟨e₂, hfind₂, hpolicy₂, rfl⟩
  have horder : s₁.buffer.anchors.InOrder policy id₁ id₂ := by
    refine ⟨_, _, hcarries₁, hcarries₂, fun u v hu hv => ?_⟩
    obtain rfl := Option.some.inj (hu.symm.trans (hcarries₁.offset.symm.trans hx))
    obtain rfl := Option.some.inj (hv.symm.trans (hcarries₂.offset.symm.trans hy))
    exact hle
  exact (Session.anchors_inOrder hb hbefore horder hadm hafter).le hx' hy'

/-- Two offsets around a deletion of three bytes. -/
theorem relocation_keeps_order_sample :
    (2 ≤ 4 ↔ ¬ Crosses { gravity := .right } (.deleted 1 3 6) 2 7) :=
  relocation_keeps_order.1 (.deleted 1 3 6) { gravity := .right } 2 7 2 4 rfl (by decide) rfl rfl

/-- An anchor at the start of six bytes that become three goes past them, one inside before them. -/
theorem not_relocation_keeps_order :
    ¬ ∀ (op : EditOp) (policy : AnchorPolicy) (x y x' y' : Nat), op.barrier = false → x ≤ y →
      relocateThrough x op policy = some x' → relocateThrough y op policy = some y' → x' ≤ y' := by
  intro h
  have hle : 7 ≤ 4 :=
    h (.replaced 1 4 6 3) { gravity := .right } 4 6 7 4 rfl (by decide) rfl rfl
  exact absurd hle (by decide)

end Ned.Text
