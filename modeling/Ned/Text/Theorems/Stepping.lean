import Ned.Text.Lemmas.Grapheme
import Ned.Text.Lemmas.Rope

/-!
# Steps by codepoint

What a decoded codepoint covers, and why the step back from its end finds its start: a position that
stepping forward reaches lies inside no codepoint, however malformed the text is.
-/

namespace Ned.Text

section

variable {f : Nat → Option UInt8} {total : Nat}

def Continues (f : Nat → Option UInt8) (i : Nat) : Prop :=
  ∃ b, f i = some b ∧ isContinuationByte b = true

/-! ## What a codepoint covers -/

/-- The bytes of one step: the first may be any alone, and only continuation bytes follow it. -/
structure Covers (f : Nat → Option UInt8) (total offset length : Nat) : Prop where
  pos : 0 < length
  short : length ≤ 4
  fits : offset + length ≤ total
  tail : ∀ i, offset < i → i < offset + length → Continues f i
  lead : 1 < length → ¬ Continues f offset

theorem Covers.one {offset : Nat} (h : offset < total) : Covers f total offset 1 :=
  ⟨Nat.one_pos, by decide, h, fun i hlow hhigh => by omega, fun hlt => absurd hlt (by decide)⟩

theorem isContinuationByte_of_lead {b mask bits : UInt8} (hmask : mask &&& 0xC0 = 0xC0)
    (hbits : bits &&& 0xC0 = 0xC0) (h : (b &&& mask == bits) = true) :
    isContinuationByte b = false := by
  have hand : b &&& 0xC0 = 0xC0 := by
    calc b &&& 0xC0 = b &&& (mask &&& 0xC0) := by rw [hmask]
      _ = b &&& mask &&& 0xC0 := (UInt8.and_assoc ..).symm
      _ = 0xC0 := by rw [beq_iff_eq.1 h, hbits]
  rw [isContinuationByte, hand]
  rfl

theorem decodeLead_spec {b0 : UInt8} {len : Nat} {cp : UInt32} (h : decodeLead b0 = some (len, cp)) :
    isContinuationByte b0 = false ∧ 1 < len ∧ len ≤ 4 := by
  unfold decodeLead at h
  split at h
  · rename_i hlead
    cases h
    exact ⟨isContinuationByte_of_lead rfl rfl hlead, by decide, by decide⟩
  · split at h
    · rename_i hlead
      cases h
      exact ⟨isContinuationByte_of_lead rfl rfl hlead, by decide, by decide⟩
    · split at h
      · rename_i hlead
        cases h
        exact ⟨isContinuationByte_of_lead rfl rfl hlead, by decide, by decide⟩
      · cases h

theorem decodeTail_continues {offset n : Nat} {cp cp' : UInt32}
    (h : decodeTail f offset n cp = some (some cp')) :
    ∀ i, offset ≤ i → i < offset + n → Continues f i := by
  induction n generalizing offset cp with
  | zero =>
      intro i hlow hhigh
      omega
  | succ n ih =>
      obtain ⟨b, hb, h⟩ := Option.bind_eq_some_iff.1 h
      split at h
      · rename_i hcont
        intro i hlow hhigh
        rcases Nat.eq_or_lt_of_le hlow with rfl | hlt
        · exact ⟨b, hb, hcont⟩
        · exact ih h i hlt (by omega)
      · cases h

theorem codepointAt_covers {offset : Nat} {d : DecodedCodepoint} (ho : offset < total)
    (h : codepointAt f total offset = some d) : Covers f total offset d.byteLength := by
  rw [codepointAt, if_neg (Nat.not_le.2 ho)] at h
  obtain ⟨b0, hb0, h⟩ := Option.bind_eq_some_iff.1 h
  split at h
  · cases h
    exact .one ho
  · cases hlead : decodeLead b0 with
    | none =>
        simp only [hlead] at h
        cases h
        exact .one ho
    | some lead =>
        obtain ⟨len, cp⟩ := lead
        obtain ⟨hstart, hlong, hshort⟩ := decodeLead_spec hlead
        simp only [hlead] at h
        split at h
        · cases h
          exact .one ho
        · rename_i hfits
          obtain ⟨r, htail, h⟩ := Option.bind_eq_some_iff.1 h
          cases r with
          | none =>
              cases h
              exact .one ho
          | some cp' =>
              simp only at h
              split at h
              · cases h
                refine ⟨Nat.lt_of_succ_lt hlong, hshort, Nat.le_of_not_lt hfits, ?_, ?_⟩
                · intro i hlow hhigh
                  simp only at hhigh
                  exact decodeTail_continues htail i hlow (by omega)
                · rintro - ⟨b, hb, hcont⟩
                  obtain rfl := Option.some.inj (hb0.symm.trans hb)
                  rw [hstart] at hcont
                  cases hcont
              · cases h
                exact .one ho

/-! ## Stepping back -/

theorem backToLead_spec {offset steps r : Nat} (h : backToLead f offset steps = some r)
    (hsteps : steps ≤ 3) :
    r ≤ offset ∧ offset + steps ≤ r + 3 ∧ (∀ i, r < i → i ≤ offset → Continues f i) ∧
      (r = 0 ∨ offset + steps = r + 3 ∨ ¬ Continues f r) := by
  induction offset generalizing steps with
  | zero =>
      cases h
      exact ⟨Nat.le_refl _, by omega, fun i hlow hhigh => by omega, Or.inl rfl⟩
  | succ offset ih =>
      obtain ⟨b, hb, h⟩ := Option.bind_eq_some_iff.1 h
      split at h
      · rename_i hcont
        rw [Bool.and_eq_true, decide_eq_true_eq] at hcont
        obtain ⟨hle, hthree, htail, hstop⟩ := ih h (by omega)
        refine ⟨by omega, by omega, fun i hlow hhigh => ?_, ?_⟩
        · rcases Nat.eq_or_lt_of_le hhigh with rfl | hlt
          · exact ⟨b, hb, hcont.1⟩
          · exact htail i hlow (Nat.le_of_lt_succ hlt)
        · exact hstop.imp id (Or.imp (by omega) id)
      · rename_i hcont
        cases h
        refine ⟨Nat.le_refl _, by omega, fun i hlow hhigh => by omega, ?_⟩
        by_cases hfull : steps < 3
        · refine Or.inr (Or.inr ?_)
          rintro ⟨b', hb', hcont'⟩
          obtain rfl := Option.some.inj (hb.symm.trans hb')
          rw [hcont', Bool.true_and, decide_eq_true_eq] at hcont
          exact hcont hfull
        · exact Or.inr (Or.inl (by omega))

/-- No codepoint that starts before the position reaches past it. -/
def Boundary (f : Nat → Option UInt8) (total x : Nat) : Prop :=
  ∀ s d, s < x → codepointAt f total s = some d → s + d.byteLength ≤ x

theorem Boundary.next {x : Nat} {d : DecodedCodepoint} (h : Boundary f total x) (hx : x < total)
    (hd : codepointAt f total x = some d) : Boundary f total (x + d.byteLength) := by
  have hcovers := codepointAt_covers hx hd
  intro s e hs he
  rcases Nat.lt_trichotomy s x with hlt | rfl | hgt
  · exact Nat.le_trans (h s e hlt he) (Nat.le_add_right _ _)
  · obtain rfl := Option.some.inj (hd.symm.trans he)
    exact Nat.le_refl _
  · -- a continuation byte is taken alone
    have hinner := codepointAt_covers (Nat.lt_of_lt_of_le hs hcovers.fits) he
    have hone : ¬ 1 < e.byteLength := fun hlong => hinner.lead hlong (hcovers.tail s hgt hs)
    omega

theorem previousCodepointBoundary_next (hread : ∀ i < total, (f i).isSome) {x : Nat}
    {d : DecodedCodepoint} (h : Boundary f total x) (hx : x < total)
    (hd : codepointAt f total x = some d) :
    previousCodepointBoundary f total (x + d.byteLength) = some x := by
  have hcovers := codepointAt_covers hx hd
  have hpos := hcovers.pos
  have hfits := hcovers.fits
  obtain ⟨r, hr, -⟩ := backToLead_total hread (x + d.byteLength - 1) 0 (by omega)
  obtain ⟨e, he, -⟩ := codepointAt_total hread r
  obtain ⟨hle, hthree, htail, hstop⟩ := backToLead_spec hr (by decide)
  rw [previousCodepointBoundary, if_neg (by omega), hr, Option.bind_eq_bind, Option.bind_some, he,
    Option.bind_eq_bind, Option.bind_some]
  rcases Nat.lt_trichotomy r x with hlt | rfl | hgt
  · -- the walk passed the start, which is then a continuation byte taken alone
    have hone : ¬ 1 < d.byteLength := fun hlong => hcovers.lead hlong (htail x hlt (by omega))
    have hshort := h r e hlt he
    rw [if_neg (by omega)]
    congr 1
    omega
  · obtain rfl := Option.some.inj (hd.symm.trans he)
    rw [if_pos (Nat.le_refl _)]
  · -- the walk does not stop inside the sequence
    have hcont := hcovers.tail r hgt (by omega)
    have hshort := hcovers.short
    rcases hstop with hzero | hfull | hstart
    · omega
    · omega
    · exact absurd hcont hstart

end

/-!
## Stepping back undoes stepping forward

Whatever bytes a rope holds, the step back from the end of a codepoint finds its start, so the walk
back from the end visits the positions that the walk forward from the start visits.
-/

namespace Rope

/-- The positions that steps forward from the start reach. -/
inductive ForwardBoundary (rope : Rope) : Nat → Prop
  | start : ForwardBoundary rope 0
  | next {x y : Nat} (hx : ForwardBoundary rope x) (h : rope.nextCodepointBoundary x = some y) :
      ForwardBoundary rope y

/-- The positions that steps back from the end reach. -/
inductive BackwardBoundary (rope : Rope) : Nat → Prop
  | stop : BackwardBoundary rope rope.byteLength
  | previous {x y : Nat} (hx : BackwardBoundary rope x)
      (h : rope.previousCodepointBoundary x = some y) : BackwardBoundary rope y

section

variable {rope : Rope} {text : Bytes}

theorem getElem?_isSome (text : Bytes) (i : Nat) (h : i < text.length) : (text[i]?).isSome := by
  simp [h]

theorem next_eq (h : rope.Holds text) {x : Nat} (hx : x < text.length) :
    ∃ d, Text.codepointAt (fun i => text[i]?) text.length x = some d ∧
      rope.nextCodepointBoundary x = some (x + d.byteLength) := by
  obtain ⟨d, hd, -⟩ := codepointAt_total (getElem?_isSome text) x
  refine ⟨d, hd, ?_⟩
  rw [h.nextCodepointBoundary, Text.nextCodepointBoundary, if_neg (Nat.not_le.2 hx)]
  simp [hd]

theorem next_stop (h : rope.Holds text) {x : Nat} (hx : text.length ≤ x) :
    rope.nextCodepointBoundary x = some text.length := by
  rw [h.nextCodepointBoundary, Text.nextCodepointBoundary, if_pos hx]

/-- What steps forward keep: the position is in the text and inside no codepoint. -/
theorem ForwardBoundary.boundary (h : rope.Holds text) {x : Nat} (hx : ForwardBoundary rope x) :
    x ≤ text.length ∧ Boundary (fun i => text[i]?) text.length x := by
  induction hx with
  | start => exact ⟨Nat.zero_le _, fun s d hs => absurd hs (Nat.not_lt_zero s)⟩
  | @next x y _ hnext ih =>
      obtain ⟨hle, hbound⟩ := ih
      by_cases hx : x < text.length
      · obtain ⟨d, hd, hstep⟩ := next_eq h hx
        obtain rfl := Option.some.inj (hstep.symm.trans hnext)
        exact ⟨(codepointAt_covers hx hd).fits, hbound.next hx hd⟩
      · have hx := Nat.le_of_not_lt hx
        obtain rfl := Option.some.inj ((next_stop h hx).symm.trans hnext)
        obtain rfl := Nat.le_antisymm hle hx
        exact ⟨Nat.le_refl _, hbound⟩

theorem previous_next (h : rope.Holds text) {x : Nat} (hx : ForwardBoundary rope x)
    (hlt : x < text.length) : ∃ y, rope.nextCodepointBoundary x = some y ∧ x < y ∧
      y ≤ text.length ∧ rope.previousCodepointBoundary y = some x := by
  obtain ⟨d, hd, hstep⟩ := next_eq h hlt
  have hcovers := codepointAt_covers hlt hd
  refine ⟨x + d.byteLength, hstep, Nat.lt_add_of_pos_right hcovers.pos, hcovers.fits, ?_⟩
  rw [h.previousCodepointBoundary hcovers.fits]
  exact previousCodepointBoundary_next (getElem?_isSome text) (hx.boundary h).2 hlt hd

/-- The last step into a position after the start began before the end. -/
theorem ForwardBoundary.last (h : rope.Holds text) {y : Nat} (hy : ForwardBoundary rope y) :
    y = 0 ∨ ∃ x, ForwardBoundary rope x ∧ x < text.length ∧
      rope.nextCodepointBoundary x = some y := by
  induction hy with
  | start => exact Or.inl rfl
  | @next x y hx hnext ih =>
      by_cases hlt : x < text.length
      · exact Or.inr ⟨x, hx, hlt, hnext⟩
      · have hge := Nat.le_of_not_lt hlt
        have hstop := Option.some.inj ((next_stop h hge).symm.trans hnext)
        have hy : x = y := Nat.le_antisymm (hstop ▸ (hx.boundary h).1) (hstop ▸ hge)
        exact hy ▸ ih

theorem forward_stop (h : rope.Holds text) : ForwardBoundary rope text.length := by
  suffices hreach : ∀ n x, text.length - x = n → ForwardBoundary rope x →
      ForwardBoundary rope text.length from hreach _ 0 rfl .start
  intro n
  induction n using Nat.strongRecOn with
  | ind n ih =>
      intro x hn hx
      by_cases hlt : x < text.length
      · obtain ⟨y, hnext, hxy, hy, -⟩ := previous_next h hx hlt
        exact ih (text.length - y) (by omega) y rfl (hx.next hnext)
      · exact Nat.le_antisymm (hx.boundary h).1 (Nat.le_of_not_lt hlt) ▸ hx

theorem previous_zero (h : rope.Holds text) : rope.previousCodepointBoundary 0 = some 0 := by
  rw [h.previousCodepointBoundary (Nat.zero_le _)]
  rfl

theorem BackwardBoundary.forward (h : rope.Holds text) {x : Nat} (hx : BackwardBoundary rope x) :
    ForwardBoundary rope x := by
  induction hx with
  | stop => exact h.byteLength ▸ forward_stop h
  | @previous x y _ hprevious ih =>
      rcases ih.last h with rfl | ⟨z, hz, hlt, hnext⟩
      · obtain rfl := Option.some.inj ((previous_zero h).symm.trans hprevious)
        exact .start
      · obtain ⟨x', hnext', -, -, hback⟩ := previous_next h hz hlt
        obtain rfl := Option.some.inj (hnext.symm.trans hnext')
        obtain rfl := Option.some.inj (hback.symm.trans hprevious)
        exact hz

theorem ForwardBoundary.backward (h : rope.Holds text) {x : Nat} (hx : ForwardBoundary rope x) :
    BackwardBoundary rope x := by
  suffices hreach : ∀ n x, text.length - x = n → ForwardBoundary rope x →
      BackwardBoundary rope x from hreach _ x rfl hx
  intro n
  induction n using Nat.strongRecOn with
  | ind n ih =>
      intro x hn hx
      by_cases hlt : x < text.length
      · obtain ⟨y, hnext, hxy, hy, hback⟩ := previous_next h hx hlt
        exact .previous (ih (text.length - y) (by omega) y rfl (hx.next hnext)) hback
      · have hstop := Nat.le_antisymm (hx.boundary h).1 (Nat.le_of_not_lt hlt)
        have hlast : BackwardBoundary rope rope.byteLength := .stop
        rwa [h.byteLength, ← hstop] at hlast

end

/-- For every rope that edits make, whatever bytes it holds: a step forward from a position that
steps forward reach moves ahead and is undone by a step back, and the walk back from the end visits
the same positions. -/
theorem stepping_back_undoes_forward {rope : Rope} (hrope : rope.Built) :
    (∀ x, ForwardBoundary rope x → x < rope.byteLength → ∃ y,
      rope.nextCodepointBoundary x = some y ∧ x < y ∧
        rope.previousCodepointBoundary y = some x) ∧
      ∀ x, BackwardBoundary rope x ↔ ForwardBoundary rope x := by
  obtain ⟨text, h⟩ := hrope.exists_holds
  constructor
  · intro x hx hlt
    obtain ⟨y, hnext, hxy, -, hback⟩ := previous_next h hx (h.byteLength ▸ hlt)
    exact ⟨y, hnext, hxy, hback⟩
  · intro x
    exact ⟨fun hx => hx.forward h, fun hx => hx.backward h⟩

/-- On a truncated sequence, a letter and a stray continuation byte. -/
theorem stepping_back_undoes_forward_truncated : ∃ rope : Rope,
    ofText [0xE2, 0x82, 65, 0x82] = some rope ∧
      ((∀ x, ForwardBoundary rope x → x < rope.byteLength → ∃ y,
        rope.nextCodepointBoundary x = some y ∧ x < y ∧
          rope.previousCodepointBoundary y = some x) ∧
        ∀ x, BackwardBoundary rope x ↔ ForwardBoundary rope x) := by
  have hsome : ofText [0xE2, 0x82, 65, 0x82] =
      some ⟨some (.leaf (Counts.of [0xE2, 0x82, 65, 0x82]) [0xE2, 0x82, 65, 0x82])⟩ := by
    decide +kernel
  exact ⟨_, hsome, stepping_back_undoes_forward (.ofText (by decide) hsome)⟩

end Rope

end Ned.Text
