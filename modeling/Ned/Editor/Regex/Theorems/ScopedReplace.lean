import Ned.Editor.Regex.Theorems.QueryReplace
import Ned.Library.Runs

/-!
# Query replace inside excerpts

A session that is scoped to the excerpts offers only matches that the buffer lets it replace, as long as an
editable excerpt holds any bytes. Once none does, its scope is empty, which it takes for no scope at all.
-/

namespace Ned.Editor.Regex

open Text Library RegexPattern
open ExcerptRange (afterReplace)

namespace QueryReplace

variable {p : Platform} {s : QueryReplace}

/-- `y` and `n`. Replacing all is `y` over and over. -/
inductive Answer where
  | replaceAndNext
  | skipAndNext
  deriving DecidableEq

def answer (p : Platform) (s : QueryReplace) : Answer → Option Outcome
  | .replaceAndNext => s.replaceAndNext p
  | .skipAndNext => some s.skipAndNext

/-- The buffer holds the new text where the match was. -/
def replacedIn (s s' : QueryReplace) : Bool :=
  s'.buffer.storage.bytes == s.buffer.storage.bytes.take s.matchStart ++ s.matchFormattedReplacement ++
    s.buffer.storage.bytes.drop s.matchEnd

/-- Whether an answer made a replacement in the buffer. -/
def makes (s s' : QueryReplace) : Answer → Bool
  | .replaceAndNext =>
      s.stage == .confirming && s.hasMatch && !s.buffer.readOnly && replacedIn s s'
  | .skipAndNext => false

/-- A session, and how many replacements have been made in its buffer. -/
structure Tally where
  session : QueryReplace
  made : Nat

namespace Tally

def step (p : Platform) (t : Tally) (a : Answer) : Option Tally := do
  let out ← t.session.answer p a
  some { session := out.session, made := t.made + if makes t.session out.session a then 1 else 0 }

/-- The copy is the content of the buffer, the match that is offered lies in an editable excerpt, and the
replacements are counted. -/
structure InStep (t : Tally) : Prop where
  content : t.session.content = t.session.buffer.storage.bytes
  inside : ∃ range ∈ t.session.buffer.excerptRanges, range.editable = true ∧ range.start < range.stop ∧
    range.start ≤ t.session.matchStart ∧ t.session.matchEnd ≤ range.stop
  replacementCount : t.session.replacementCount = t.made

def Holds (t : Tally) : Prop := t.session.stage = .confirming → t.InStep

end Tally

/-- Some editable excerpt holds any bytes. -/
def AnyBody (ranges : List ExcerptRange) : Prop :=
  ∃ range ∈ ranges, range.editable = true ∧ range.start < range.stop

/-- A replacement leaves an editable excerpt with any bytes, or nothing matches behind it. -/
def LeavesBody (s : QueryReplace) : Prop :=
  AnyBody (afterReplace s.buffer.excerptRanges s.matchStart s.matchEnd
      s.matchFormattedReplacement.length) ∨
    s.pattern.search (s.replaced s.buffer).content (s.replaced s.buffer).searchCursor = none

/-- An answer that keeps a scoped session in step. -/
def Tally.Allowed (t : Tally) : Answer → Prop
  | .replaceAndNext =>
      t.session.stage = .confirming → t.session.buffer.readOnly = false → t.session.LeavesBody
  | .skipAndNext => True

/-! ## Searching -/

/-- What is the same for the whole session, whether a match is offered or not. -/
structure Scoped (s : QueryReplace) : Prop where
  bodies : s.scopeToExcerptBodies = true
  small : s.huge = false
  content : s.content = s.buffer.storage.bytes
  recorded : s.buffer.undoTree.currentNode.isSome

/-- The match that is offered lies in an editable excerpt. -/
structure OffersInside (s : QueryReplace) : Prop extends Offers s where
  inside : ∃ range ∈ s.buffer.excerptRanges, range.editable = true ∧ range.start < range.stop ∧
    range.start ≤ s.matchStart ∧ s.matchEnd ≤ range.stop

namespace Scoped

variable (h : s.Scoped)

include h

theorem scopeRanges_ne_nil (hbody : AnyBody s.buffer.excerptRanges) : s.scopeRanges ≠ [] := by
  obtain ⟨range, hmem, heditable, hlt⟩ := hbody
  intro hnil
  exact absurd ((scopeRanges_eq_nil_iff h.bodies h.small).1 hnil range hmem heditable)
    (Nat.not_le_of_gt hlt)

theorem scopeRanges_eq_nil (hbody : ¬AnyBody s.buffer.excerptRanges) : s.scopeRanges = [] := by
  refine (scopeRanges_eq_nil_iff h.bodies h.small).2 fun range hmem heditable => ?_
  by_contra hlt
  exact hbody ⟨range, hmem, heditable, Nat.lt_of_not_le hlt⟩

end Scoped

theorem offer_session (s : QueryReplace) (m : RegexMatch) :
    ∃ text, (s.offer s.content m 0).session = s.offered m text := by
  cases h : s.pattern.formatReplacement s.content m s.replacementText with
  | none =>
      refine ⟨s.matchFormattedReplacement, ?_⟩
      rw [offer]
      simp only [h, Nat.zero_add]
      rfl
  | some text =>
      exact ⟨text, congrArg Outcome.session (offer_eq h)⟩

/-- Either nothing is found any more, or a match is offered. -/
theorem findNextMatch_cases (hsmall : s.huge = false) :
    ∃ cursor, ((findInScope s.pattern s.content s.scopeRanges s.searchCursor).2 = none ∧
        s.findNextMatch.session = { s with searchCursor := cursor, hasMatch := false, stage := .done }) ∨
      ∃ m text, (findInScope s.pattern s.content s.scopeRanges s.searchCursor).2 = some m ∧
        s.findNextMatch.session = { s with searchCursor := cursor }.offered m text := by
  refine ⟨(findInScope s.pattern s.content s.scopeRanges s.searchCursor).1, ?_⟩
  rw [findNextMatch, if_neg (by simp [hsmall])]
  cases hfound : (findInScope s.pattern s.content s.scopeRanges s.searchCursor).2 with
  | none => exact .inl ⟨rfl, by simp only [hfound]; rfl⟩
  | some m =>
      obtain ⟨text, htext⟩ := offer_session
        { s with searchCursor := (findInScope s.pattern s.content s.scopeRanges s.searchCursor).1 } m
      exact .inr ⟨m, text, rfl, by simp only [hfound]; exact htext⟩

/-- What a search leaves: the session as it was, and an offered match only inside an excerpt. -/
theorem Scoped.findNextMatch (h : s.Scoped) (hstage : s.stage = .confirming)
    (hleaves : AnyBody s.buffer.excerptRanges ∨ s.pattern.search s.content s.searchCursor = none) :
    s.findNextMatch.session.Scoped ∧
      s.findNextMatch.session.replacementCount = s.replacementCount ∧
      (s.findNextMatch.session.stage = .confirming → s.findNextMatch.session.OffersInside) := by
  obtain ⟨cursor, ⟨-, hsession⟩ | ⟨m, text, hfound, hsession⟩⟩ := findNextMatch_cases h.small
  · rw [hsession]
    exact ⟨⟨h.bodies, h.small, h.content, h.recorded⟩, rfl, fun hconfirming => by cases hconfirming⟩
  · rw [hsession]
    refine ⟨⟨h.bodies, h.small, h.content, h.recorded⟩, rfl, fun _ => ?_⟩
    obtain ⟨hstop, hscope⟩ := findInScope_spec hfound
    have hbody : AnyBody s.buffer.excerptRanges := by
      rcases hleaves with hbody | hnone
      · exact hbody
      · by_contra hbody
        rw [h.scopeRanges_eq_nil hbody, findInScope_nil, hnone] at hfound
        cases hfound
    obtain ⟨range, hmem, hstart, hend⟩ := exists_of_inScope (h.scopeRanges_ne_nil hbody) hscope
    obtain ⟨excerpt, hexcerpt, heditable, hlt, rfl⟩ := mem_scopeRanges hmem
    exact ⟨⟨hstage, rfl, h.small, h.content, RegexMatch.start_le_stop, hstop, h.recorded⟩, excerpt,
      hexcerpt, heditable, hlt, hstart, hend⟩

/-- Without a body to be scoped to, whatever matches is offered. -/
theorem Scoped.search_eq_none (h : s.Scoped) (hstage : s.stage = .confirming)
    (hbody : ¬AnyBody s.buffer.excerptRanges)
    (hinside : s.findNextMatch.session.stage = .confirming →
      AnyBody s.findNextMatch.session.buffer.excerptRanges) :
    s.pattern.search s.content s.searchCursor = none := by
  obtain ⟨cursor, ⟨hfound, hsession⟩ | ⟨m, text, hfound, hsession⟩⟩ := findNextMatch_cases h.small
  · rwa [h.scopeRanges_eq_nil hbody, findInScope_nil] at hfound
  · rw [hsession] at hinside
    exact absurd (hinside hstage) hbody

/-! ## Steps -/

/-- A replacement that the buffer takes. -/
theorem OffersInside.replaced (h : s.OffersInside) {out : Outcome} (hscoped : s.Scoped)
    (hwritable : s.buffer.readOnly = false) (hstep : s.replaceAndNext p = some out) :
    ∃ b, out = (s.replaced b).findNextMatch ∧ (s.replaced b).Scoped ∧
      (s.replaced b).stage = .confirming ∧ b.storage.bytes = (s.replaced b).content ∧
      b.excerptRanges = afterReplace s.buffer.excerptRanges s.matchStart s.matchEnd
        s.matchFormattedReplacement.length := by
  obtain ⟨range, hmem, heditable, -, hstart, hend⟩ := h.inside
  have hallows : ExcerptRange.Allows s.buffer.excerptRanges s.matchStart s.matchEnd :=
    .inr ⟨range, hmem, heditable, hstart, hend⟩
  cases hbuilds : s.buffer.storage.inserted 0 s.matchFormattedReplacement with
  | none =>
      rw [h.toOffers.replaceAndNext_eq_none hwritable hallows hbuilds] at hstep
      cases hstep
  | some storage =>
      obtain ⟨b, hb, hbecame⟩ :=
        h.toOffers.replaceAndNext_eq p hwritable hallows (by rw [hbuilds]; rfl)
      have hbytes : b.storage.bytes = (s.replaced b).content := by rw [hbecame.storage]
      refine ⟨b, Option.some.inj (hstep.symm.trans hb), ⟨?_, ?_, ?_, ?_⟩, ?_, hbytes, hbecame.excerptRanges⟩
      · exact (replaced_scopeToExcerptBodies s b).trans hscoped.bodies
      · exact (replaced_huge s b).trans h.small
      · rw [replaced_buffer, hbytes]
      · rw [replaced_buffer]
        exact hbecame.recorded
      · exact (replaced_stage s b).trans h.confirming

theorem replaced_search (hsmall : s.huge = false) (b : Buffer) :
    (s.replaced b).content = (s.replaced s.buffer).content ∧
      (s.replaced b).searchCursor = (s.replaced s.buffer).searchCursor := by
  refine ⟨by rw [replaced_content, replaced_content], ?_⟩
  simp only [QueryReplace.replaced]
  split
  · simp only [stepFrom, hsmall, Bool.false_eq_true, if_false]
  · rfl

/-! ## Runs -/

namespace Tally

variable {t t' : Tally}

/-- What every allowed answer keeps. -/
structure Kept (t : Tally) : Prop extends Scoped t.session where
  replacementCount : t.session.replacementCount = t.made
  offers : t.session.stage = .confirming → t.session.OffersInside

theorem Kept.holds (h : t.Kept) : t.Holds := fun hconfirming =>
  ⟨h.content, (h.offers hconfirming).inside, h.replacementCount⟩

theorem step_eq {a : Answer} (h : t.step p a = some t') : ∃ out, t.session.answer p a = some out ∧
    t' = ⟨out.session, t.made + if makes t.session out.session a then 1 else 0⟩ := by
  obtain ⟨out, hout, h⟩ := Option.bind_eq_some_iff.1 h
  exact ⟨out, hout, (Option.some.inj h).symm⟩

theorem answer_of_done {a : Answer} (hdone : t.session.stage ≠ .confirming)
    (h : t.step p a = some t') : t' = t := by
  obtain ⟨out, hout, rfl⟩ := step_eq h
  cases a with
  | replaceAndNext =>
      rw [answer, replaceAndNext, if_pos (.inl hdone)] at hout
      cases hout
      simp [makes, hdone]
  | skipAndNext =>
      rw [answer, skipAndNext, if_pos (.inl hdone)] at hout
      cases hout
      simp [makes]

/-- `n` changes only where the next search starts. -/
theorem Kept.skipAndNext (h : t.Kept) (hconfirming : t.session.stage = .confirming)
    (hstep : t.step p .skipAndNext = some t') : t'.Kept := by
  obtain ⟨out, hout, rfl⟩ := step_eq hstep
  have hoffers := h.offers hconfirming
  obtain ⟨range, hmem, heditable, hlt, -⟩ := hoffers.inside
  have hbody : AnyBody t.session.buffer.excerptRanges := ⟨range, hmem, heditable, hlt⟩
  have hsession : ∃ cursor, out =
      QueryReplace.findNextMatch { t.session with searchCursor := cursor } := by
    rw [answer, QueryReplace.skipAndNext, if_neg (by simp [hconfirming, hoffers.hasMatch])] at hout
    split at hout
    · exact ⟨_, (Option.some.inj hout).symm⟩
    · exact ⟨_, (Option.some.inj hout).symm⟩
  obtain ⟨cursor, rfl⟩ := hsession
  have hscoped : QueryReplace.Scoped { t.session with searchCursor := cursor } :=
    ⟨h.bodies, h.small, h.content, h.recorded⟩
  obtain ⟨hscoped', hcount, hnext⟩ := hscoped.findNextMatch hconfirming (.inl hbody)
  exact ⟨hscoped', hcount.trans h.replacementCount, hnext⟩

/-- `y`, in a buffer that is not read-only, replaces in the copy and in the buffer. -/
theorem Kept.replaceAndNext (h : t.Kept) (hconfirming : t.session.stage = .confirming)
    (hwritable : t.session.buffer.readOnly = false) (hstep : t.step p .replaceAndNext = some t') :
    ∃ b, t' = ⟨(t.session.replaced b).findNextMatch.session, t.made + 1⟩ ∧
      (t.session.replaced b).Scoped ∧ (t.session.replaced b).stage = .confirming ∧
      b.excerptRanges = afterReplace t.session.buffer.excerptRanges t.session.matchStart
        t.session.matchEnd t.session.matchFormattedReplacement.length := by
  obtain ⟨out, hout, rfl⟩ := step_eq hstep
  have hoffers := h.offers hconfirming
  obtain ⟨b, rfl, hscoped, hstage, hbytes, hranges⟩ :=
    hoffers.replaced h.toScoped hwritable hout
  refine ⟨b, ?_, hscoped, hstage, hranges⟩
  have hbuffer : (t.session.replaced b).findNextMatch.session.buffer = b := by
    obtain ⟨cursor, ⟨-, hsession⟩ | ⟨m, text, -, hsession⟩⟩ := findNextMatch_cases hscoped.small
    · rw [hsession]
      exact replaced_buffer t.session b
    · rw [hsession]
      exact replaced_buffer t.session b
  have hmakes : makes t.session (t.session.replaced b).findNextMatch.session .replaceAndNext = true := by
    rw [makes, replacedIn, hbuffer, hbytes, replaced_content, h.content]
    simp [hconfirming, hoffers.hasMatch, hwritable]
  rw [hmakes, if_pos rfl]

theorem Kept.step (h : t.Kept) {a : Answer} (hallowed : t.Allowed a) (hstep : t.step p a = some t') :
    t'.Kept := by
  by_cases hconfirming : t.session.stage = .confirming
  · cases a with
    | skipAndNext => exact h.skipAndNext hconfirming hstep
    | replaceAndNext =>
        cases hreadOnly : t.session.buffer.readOnly with
        | true =>
            obtain ⟨out, hout, rfl⟩ := step_eq hstep
            rw [answer, (h.offers hconfirming).replaceAndNext_readOnly hreadOnly] at hout
            cases hout
            simpa [makes, hreadOnly] using h
        | false =>
            obtain ⟨b, rfl, hscoped, hstage, hranges⟩ := h.replaceAndNext hconfirming hreadOnly hstep
            have hleaves := hallowed hconfirming hreadOnly
            obtain ⟨hcontent, hcursor⟩ := replaced_search h.small b
            obtain ⟨hscoped', hcount, hnext⟩ := hscoped.findNextMatch hstage (by
              rwa [replaced_buffer, hranges, replaced_pattern, hcontent, hcursor])
            refine ⟨hscoped', ?_, hnext⟩
            rw [hcount, replaced_replacementCount, h.replacementCount]
  · rw [answer_of_done hconfirming hstep]
    exact h

/-- After an answer that is not allowed, a match outside every excerpt is offered. -/
theorem Kept.allowed (h : t.Kept) {a : Answer} (hstep : t.step p a = some t') (hholds : t'.Holds) :
    t.Allowed a := by
  cases a with
  | skipAndNext => exact trivial
  | replaceAndNext =>
      intro hconfirming hwritable
      obtain ⟨b, rfl, hscoped, hstage, hranges⟩ := h.replaceAndNext hconfirming hwritable hstep
      obtain ⟨hcontent, hcursor⟩ := replaced_search h.small b
      rw [LeavesBody, ← hranges, ← hcontent, ← hcursor]
      by_cases hbody : AnyBody b.excerptRanges
      · exact .inl hbody
      · refine .inr ?_
        rw [← replaced_pattern t.session b]
        refine hscoped.search_eq_none hstage (by rwa [replaced_buffer]) fun hagain => ?_
        obtain ⟨range, hmem, heditable, hlt, -⟩ := (hholds hagain).inside
        exact ⟨range, hmem, heditable, hlt⟩

/-- A scoped session at its first match. -/
def start (b : Buffer) (pattern : RegexPattern) (template : Bytes) : Tally :=
  ⟨((entered b pattern template true).confirmReplacement false).session, 0⟩

theorem start_eq (b : Buffer) (pattern : RegexPattern) (template : Bytes)
    (hrecorded : b.undoTree.currentNode.isSome) (hsmall : b.storage.huge = false) :
    ∃ s : QueryReplace, start b pattern template = ⟨s.findNextMatch.session, 0⟩ ∧ s.Scoped ∧
      s.stage = .confirming ∧ s.buffer = b ∧ s.pattern = pattern ∧ s.content = b.storage.bytes ∧
      s.searchCursor = b.point ∧ s.replacementCount = 0 := by
  refine ⟨{ entered b pattern template true with
    content := b.storage.bytes
    searchCursor := b.point
    stage := .confirming }, ?_, ⟨rfl, rfl, rfl, hrecorded⟩, rfl, rfl, rfl, rfl, rfl, rfl⟩
  simp [start, confirmReplacement, entered, hsmall]

theorem kept_start {b : Buffer} {pattern : RegexPattern} {template : Bytes}
    (hrecorded : b.undoTree.currentNode.isSome) (hsmall : b.storage.huge = false)
    (hbody : AnyBody b.excerptRanges ∨ pattern.search b.storage.bytes b.point = none) :
    (start b pattern template).Kept := by
  obtain ⟨s, hstart, hscoped, hstage, rfl, rfl, hcontent, hcursor, hcount⟩ :=
    start_eq b pattern template hrecorded hsmall
  rw [← hcontent, ← hcursor] at hbody
  obtain ⟨hscoped', hcount', hnext⟩ := hscoped.findNextMatch hstage hbody
  rw [hstart]
  exact ⟨hscoped', hcount'.trans hcount, hnext⟩

theorem body_of_holds {b : Buffer} {pattern : RegexPattern} {template : Bytes}
    (hrecorded : b.undoTree.currentNode.isSome) (hsmall : b.storage.huge = false)
    (hholds : (start b pattern template).Holds) :
    AnyBody b.excerptRanges ∨ pattern.search b.storage.bytes b.point = none := by
  obtain ⟨s, hstart, hscoped, hstage, rfl, rfl, hcontent, hcursor, -⟩ :=
    start_eq b pattern template hrecorded hsmall
  rw [hstart] at hholds
  rw [← hcontent, ← hcursor]
  by_cases hbody : AnyBody s.buffer.excerptRanges
  · exact .inl hbody
  · refine .inr (hscoped.search_eq_none hstage hbody fun hagain => ?_)
    obtain ⟨range, hmem, heditable, hlt, -⟩ := (hholds hagain).inside
    exact ⟨range, hmem, heditable, hlt⟩

/-- Replacing all is answering with `y` until nothing is offered. -/
theorem replaceAllWithin_run {rounds : Nat} {out : Outcome}
    (h : replaceAllWithin p rounds t.session = some out) :
    ∃ n made, run (step p) t (List.replicate n .replaceAndNext) = some ⟨out.session, made⟩ := by
  induction rounds generalizing t with
  | zero => cases h
  | succ rounds ih =>
      rw [replaceAllWithin] at h
      split at h
      · obtain ⟨next, hnext, h⟩ := Option.bind_eq_some_iff.1 h
        have hstep : t.step p .replaceAndNext = some ⟨next.session,
            t.made + if makes t.session next.session .replaceAndNext then 1 else 0⟩ :=
          Option.bind_eq_some_iff.2 ⟨next, hnext, rfl⟩
        split at h
        · cases h
          exact ⟨1, _, run_cons_eq_some.2 ⟨_, hstep, rfl⟩⟩
        · obtain ⟨n, made, hrun⟩ := @ih ⟨next.session, _⟩ h
          exact ⟨n + 1, made, run_cons_eq_some.2 ⟨_, hstep, hrun⟩⟩
      · cases h
        exact ⟨0, t.made, rfl⟩

/-- A scoped session stays in step, inside its excerpts, and counts its replacements, exactly as long as an
editable excerpt holds any bytes or nothing matches; and replacing all is such a run as well. -/
theorem inStep_iff (p : Platform) (b : Buffer) (pattern : RegexPattern) (template : Bytes)
    (hrecorded : b.undoTree.currentNode.isSome) (hsmall : b.storage.huge = false) :
    (∀ answers last, run (step p) (start b pattern template) answers = some last →
      ((∀ first t, first <+: answers → run (step p) (start b pattern template) first = some t → t.Holds) ↔
        (AnyBody b.excerptRanges ∨ pattern.search b.storage.bytes b.point = none) ∧
          Admissible (step p) Allowed (start b pattern template) answers)) ∧
      ∀ (t : Tally) (rounds : Nat) (out : Outcome), replaceAllWithin p rounds t.session = some out →
        ∃ n made, run (step p) t (List.replicate n .replaceAndNext) = some ⟨out.session, made⟩ := by
  refine ⟨fun answers last hrun => ?_, fun t rounds out h => replaceAllWithin_run h⟩
  by_cases hbody : AnyBody b.excerptRanges ∨ pattern.search b.storage.bytes b.point = none
  · rw [and_iff_right hbody]
    exact run_holds_iff Kept Holds (fun t h => h.holds) (fun t a t' h hallowed hstep => h.step hallowed hstep)
      (fun t a t' h hstep hholds => h.allowed hstep hholds) (kept_start hrecorded hsmall hbody) hrun
  · refine iff_of_false (fun hall => hbody ?_) fun h => hbody h.1
    exact body_of_holds hrecorded hsmall (hall [] _ List.nil_prefix rfl)

/-- An excerpt "a" between two lines of chrome, of which the last has an "a" too. -/
def sample : Buffer :=
  { Buffer.ofStorage "sample" { bytes := [72, 97, 72, 97], huge := false } with
    excerptRanges := [{ start := 1, stop := 2, editable := true }] }

/-- The session that searches the sample for "a". -/
def sampleSession (template : Bytes) : QueryReplace :=
  { entered sample (character 97) template true with
    content := [72, 97, 72, 97]
    stage := .confirming }

theorem start_sample (template t : Bytes)
    (ht : (character 97).formatReplacement [72, 97, 72, 97] ⟨1, 1, []⟩ template = some t) :
    start sample (character 97) template = ⟨(sampleSession template).offered ⟨1, 1, []⟩ t, 0⟩ := by
  have hsearch : searchAt (character 97) [72, 97, 72, 97] 0 = some ⟨1, 1, []⟩ := by decide
  have hscope : inScope [(1, 2)] 1 2 = true := by decide
  have hfound : findInScope (character 97) [72, 97, 72, 97] [(1, 2)] 0 = (0, some ⟨1, 1, []⟩) := by
    rw [findInScope]
    split
    · rename_i hnone
      rw [hsearch] at hnone
      cases hnone
    · rename_i m hm
      obtain rfl := Option.some.inj (hsearch.symm.trans hm)
      rw [if_pos]
      exact hscope
  have hranges : (sampleSession template).scopeRanges = [(1, 2)] := by
    simp [scopeRanges, sampleSession, entered, sample, Buffer.ofStorage]
  have hnext : (sampleSession template).findNextMatch =
      { session := (sampleSession template).offered ⟨1, 1, []⟩ t } := by
    rw [findNextMatch, hranges]
    have hfound : findInScope (sampleSession template).pattern (sampleSession template).content [(1, 2)]
        (sampleSession template).searchCursor = (0, some ⟨1, 1, []⟩) := hfound
    rw [hfound]
    exact offer_eq ht
  have hstart : start sample (character 97) template =
      ⟨(sampleSession template).findNextMatch.session, 0⟩ := rfl
  rw [hstart, hnext]

theorem sample_step (p : Platform) {template t : Bytes}
    (ht : (character 97).formatReplacement [72, 97, 72, 97] ⟨1, 1, []⟩ template = some t)
    (hbuilds : (sample.storage.inserted 0 t).isSome) :
    (start sample (character 97) template).Kept ∧
      ∃ last, (start sample (character 97) template).step p .replaceAndNext = some last := by
  have hbody : AnyBody sample.excerptRanges := ⟨⟨1, 2, true⟩, List.mem_cons_self, rfl, by decide⟩
  have hkept : (start sample (character 97) template).Kept := kept_start rfl rfl (.inl hbody)
  refine ⟨hkept, ?_⟩
  rw [start_sample template t ht] at hkept ⊢
  obtain ⟨b, hb, -⟩ := (hkept.offers rfl).toOffers.replaceAndNext_eq p rfl
    (.inr ⟨⟨1, 2, true⟩, List.mem_cons_self, rfl, Nat.le_refl 1, Nat.le_refl 2⟩) hbuilds
  exact ⟨_, Option.bind_eq_some_iff.2 ⟨_, hb, rfl⟩⟩

/-- The "a" of the excerpt becomes "c". -/
theorem inStep_iff_sample :
    let p : Platform := { graphemeBreak := fun s _ _ => (true, s), keySort := .insertion }
    ∃ last, run (step p) (start sample (character 97) [99]) [.replaceAndNext] = some last ∧
      last.Holds := by
  intro p
  have hpieces : (character 97).pieces [99] = some [.literal [99]] := by rw [pieces]
  have ht : (character 97).formatReplacement [72, 97, 72, 97] ⟨1, 1, []⟩ [99] = some [99] := by
    rw [formatReplacement, hpieces]
    rfl
  obtain ⟨-, last, hlast⟩ := sample_step p ht (by decide +kernel)
  have hrun : run (step p) (start sample (character 97) [99]) [.replaceAndNext] = some last :=
    run_cons_eq_some.2 ⟨last, hlast, rfl⟩
  have hbody : AnyBody sample.excerptRanges := ⟨⟨1, 2, true⟩, List.mem_cons_self, rfl, by decide⟩
  have hallowed : (start sample (character 97) [99]).Allowed .replaceAndNext := by
    rw [start_sample [99] [99] ht]
    exact fun _ _ => .inl ⟨⟨1, 2, true⟩, by decide, rfl, by decide⟩
  have hholds := ((inStep_iff p sample (character 97) [99] rfl rfl).1 [.replaceAndNext] last hrun).2
    ⟨.inl hbody, hallowed, fun _ _ => trivial⟩
  exact ⟨last, hrun, hholds _ last (List.prefix_refl _) hrun⟩

/-- Replaced by nothing, the excerpt is empty, and the "a" of the chrome is offered. -/
theorem not_inStep :
    let p : Platform := { graphemeBreak := fun s _ _ => (true, s), keySort := .insertion }
    ∃ last, run (step p) (start sample (character 97) []) [.replaceAndNext] = some last ∧
      ¬last.Holds := by
  intro p
  have ht : (character 97).formatReplacement [72, 97, 72, 97] ⟨1, 1, []⟩ [] = some [] := by
    rw [formatReplacement, pieces]
    rfl
  obtain ⟨hkept, last, hlast⟩ := sample_step p ht (by decide +kernel)
  refine ⟨last, run_cons_eq_some.2 ⟨last, hlast, rfl⟩, fun hholds => ?_⟩
  have hallowed := hkept.allowed hlast hholds
  rw [start_sample [] [] ht] at hallowed
  rcases hallowed rfl rfl with ⟨range, hmem, -, hlt⟩ | hnone
  · have hranges : afterReplace sample.excerptRanges 1 2 0 = [⟨1, 1, true⟩] := by decide
    have hmem : range ∈ afterReplace sample.excerptRanges 1 2 0 := hmem
    rw [hranges, List.mem_singleton] at hmem
    subst hmem
    exact Nat.lt_irrefl _ hlt
  · have hsearch : (character 97).search [72, 72, 97] 1 = some ⟨2, 1, []⟩ := by decide
    have hnone : (character 97).search [72, 72, 97] 1 = none := hnone
    rw [hsearch] at hnone
    cases hnone

end Tally

end QueryReplace

end Ned.Editor.Regex
