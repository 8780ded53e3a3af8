import Ned.Editor.Regex.Lemmas.Forward
import Ned.Editor.Regex.Lemmas.QueryReplace

/-!
# Replacing all matches, one by one and at once

For a pattern that looks only forwards, the session makes the same replacements as the pattern does at
once, until an empty match is to become something: that match is found again behind its own replacement,
without end.
-/

namespace Ned.Editor.Regex

open Text RegexPattern

variable {pattern : RegexPattern} {subject template text t : Bytes} {m : RegexMatch} {offset : Nat}

/-! ## One by one -/

namespace QueryReplace

variable {p : Platform} {s last : QueryReplace} {out : Outcome}

/-- The loop that replaces all ends, without an exception. -/
def Completes (p : Platform) (out : Outcome) (last : QueryReplace) : Prop :=
  out.threw = false ∧ ∃ rounds, replaceAllWithin p rounds out.session = some { session := last }

/-- It ends in what replacing all matches at once gives. -/
def Agrees (p : Platform) (out : Outcome) (result : Option ReplaceAllResult) : Prop :=
  ∃ last, Completes p out last ∧ result = some ⟨last.buffer.storage.bytes, last.replacementCount⟩

theorem completes_finished : Completes p s.finished last ↔ last = s.finished.session := by
  have hdone : ∀ rounds, replaceAllWithin p (rounds + 1) s.finished.session =
      some { session := s.finished.session } := fun rounds => rfl
  constructor
  · rintro ⟨-, rounds, hrounds⟩
    cases rounds with
    | zero => cases hrounds
    | succ rounds =>
        rw [hdone] at hrounds
        exact (Outcome.mk.inj (Option.some.inj hrounds)).1.symm
  · rintro rfl
    exact ⟨rfl, 1, hdone 0⟩

theorem completes_step (hoffers : s.Offers) (hstep : s.replaceAndNext p = some out) :
    Completes p { session := s } last ↔ Completes p out last := by
  have hround : ∀ rounds, replaceAllWithin p (rounds + 1) s =
      if out.threw then some out else replaceAllWithin p rounds out.session := by
    intro rounds
    rw [replaceAllWithin, if_pos ⟨hoffers.hasMatch, hoffers.confirming⟩, hstep]
    rfl
  constructor
  · rintro ⟨-, rounds, hrounds⟩
    cases rounds with
    | zero => cases hrounds
    | succ rounds =>
        have hrounds : replaceAllWithin p (rounds + 1) s = some { session := last } := hrounds
        rw [hround] at hrounds
        split at hrounds
        · rename_i hthrew
          rw [Option.some.inj hrounds] at hthrew
          cases hthrew
        · rename_i hok
          exact ⟨Bool.eq_false_iff.2 hok, rounds, hrounds⟩
  · rintro ⟨hok, rounds, hrounds⟩
    refine ⟨rfl, rounds + 1, ?_⟩
    show replaceAllWithin p (rounds + 1) s = _
    rw [hround, hok, if_neg (by simp)]
    exact hrounds

theorem not_completes (hoffers : s.Offers) (hstep : s.replaceAndNext p = none) :
    ¬Completes p { session := s } last := by
  rintro ⟨-, rounds, hrounds⟩
  cases rounds with
  | zero => cases hrounds
  | succ rounds =>
      have hround : replaceAllWithin p (rounds + 1) s = none := by
        rw [replaceAllWithin, if_pos ⟨hoffers.hasMatch, hoffers.confirming⟩, hstep]
        rfl
      have hrounds : replaceAllWithin p (rounds + 1) s = some { session := last } := hrounds
      rw [hround] at hrounds
      cases hrounds

/-! ### Without end -/

/-- An empty match is offered, and something is to replace it. -/
structure Stuck (s : QueryReplace) : Prop extends Offers s where
  forward : s.pattern.Forward
  whole : s.buffer.excerptRanges = []
  empty : s.matchStart = s.matchEnd
  found : ∃ m, s.pattern.search s.content s.matchStart = some m ∧ m.start = s.matchStart ∧
    m.stop = m.start ∧
      s.pattern.formatReplacement s.content m s.replacementText = some s.matchFormattedReplacement
  something : s.matchFormattedReplacement ≠ []

theorem Stuck.step (h : s.Stuck) (hwritable : s.buffer.readOnly = false)
    (hbuilds : (s.buffer.storage.inserted 0 s.matchFormattedReplacement).isSome) :
    ∃ s', s.replaceAndNext p = some { session := s' } ∧ s'.Stuck ∧ s'.buffer.readOnly = false := by
  obtain ⟨m, hm, hstart, hstop, hformat⟩ := h.found
  obtain ⟨b, hstep, hbecame⟩ := h.toOffers.replaceAndNext_eq p hwritable (.inl h.whole) hbuilds
  have hwhole : b.excerptRanges = [] := by
    rw [hbecame.excerptRanges, h.whole, ExcerptRange.afterReplace_nil]
  have hcursor : (s.replaced b).searchCursor = s.matchStart + s.matchFormattedReplacement.length := by
    rw [replaced, if_neg fun hboth => h.something hboth.2]
  have hwithin : s.matchStart ≤ s.content.length := Nat.le_trans h.ordered h.within
  have hlength : (s.content.take s.matchStart ++ s.matchFormattedReplacement).length =
      s.matchStart + s.matchFormattedReplacement.length := by
    rw [List.length_append, List.length_take_of_le hwithin]
  have hcontent := replaced_content s b
  rw [← h.empty] at hcontent
  have hagain := h.forward.search_append (s.content.take s.matchStart ++ s.matchFormattedReplacement) hwithin
  obtain ⟨t, ht, hne⟩ := h.forward.formatReplacement_ne_nil hm
    (s.content.take s.matchStart ++ s.matchFormattedReplacement)
    (by rw [hlength]; exact Nat.le_add_right _ _) hformat h.something
  rw [hm, ← hcontent, hlength, Option.map_some] at hagain
  rw [← hcontent, hlength] at ht
  obtain ⟨hstart', hstop'⟩ :
      (m.moved s.matchStart (s.matchStart + s.matchFormattedReplacement.length)).start =
        s.matchStart + s.matchFormattedReplacement.length ∧
      (m.moved s.matchStart (s.matchStart + s.matchFormattedReplacement.length)).stop =
        s.matchStart + s.matchFormattedReplacement.length := by
    simp only [RegexMatch.stop, RegexMatch.moved] at hstop ⊢
    omega
  generalize m.moved s.matchStart (s.matchStart + s.matchFormattedReplacement.length) = m' at *
  have hnext : (s.replaced b).findNextMatch = { session := (s.replaced b).offered m' t } := by
    have hsmall : (s.replaced b).huge = false := (replaced_huge s b).trans h.small
    have hwhole' : (s.replaced b).buffer.excerptRanges = [] := by rw [replaced_buffer, hwhole]
    rw [findNextMatch_of_whole hsmall hwhole', replaced_pattern, hcursor, hagain]
    exact offer_eq (by rw [replaced_pattern, replaced_replacementText, ht])
  refine ⟨(s.replaced b).offered m' t, hstep.trans (congrArg some hnext), ⟨⟨?_, rfl, ?_, ?_, ?_, ?_, ?_⟩,
    ?_, ?_, ?_, ?_, hne⟩, ?_⟩
  · exact (replaced_stage s b).trans h.confirming
  · exact (replaced_huge s b).trans h.small
  · show (s.replaced b).content = (s.replaced b).buffer.storage.bytes
    rw [replaced_buffer, hbecame.storage]
  · show m'.start ≤ m'.stop
    rw [hstart', hstop']
  · show m'.stop ≤ (s.replaced b).content.length
    rw [hstop', hcontent, List.length_append, hlength]
    exact Nat.le_add_right _ _
  · show (s.replaced b).buffer.undoTree.currentNode.isSome
    rw [replaced_buffer]
    exact hbecame.recorded
  · exact (replaced_pattern s b) ▸ h.forward
  · show (s.replaced b).buffer.excerptRanges = []
    rw [replaced_buffer, hwhole]
  · exact hstart'.trans hstop'.symm
  · refine ⟨m', ?_, rfl, hstop'.trans hstart'.symm, ?_⟩
    · show (s.replaced b).pattern.search (s.replaced b).content m'.start = some m'
      rw [replaced_pattern, hstart', hagain]
    · show (s.replaced b).pattern.formatReplacement (s.replaced b).content m'
        (s.replaced b).replacementText = some t
      rw [replaced_pattern, replaced_replacementText, ht]
  · show (s.replaced b).buffer.readOnly = false
    rw [replaced_buffer, hbecame.readOnly, hwritable]

theorem Stuck.endless (h : s.Stuck) (hwritable : s.buffer.readOnly = false) (rounds : Nat) :
    replaceAllWithin p rounds s = none := by
  induction rounds generalizing s with
  | zero => rfl
  | succ rounds ih =>
      rw [replaceAllWithin, if_pos ⟨h.hasMatch, h.confirming⟩]
      cases hbuilds : s.buffer.storage.inserted 0 s.matchFormattedReplacement with
      | none =>
          rw [h.toOffers.replaceAndNext_eq_none hwritable (.inl h.whole) hbuilds]
          rfl
      | some storage =>
          obtain ⟨s', hstep, hstuck, hwritable'⟩ := h.step (p := p) hwritable (by rw [hbuilds]; rfl)
          rw [hstep]
          exact ih hstuck hwritable'

/-! ### Step by step -/

/-- The session has replaced what lies before an offset, and searches on from there. -/
structure Follows (pattern : RegexPattern) (subject template text : Bytes) (offset : Nat)
    (s : QueryReplace) : Prop where
  pattern : s.pattern = pattern
  replacementText : s.replacementText = template
  confirming : s.stage = .confirming
  small : s.huge = false
  content : s.content = text ++ subject.drop offset
  buffer : s.content = s.buffer.storage.bytes
  searchCursor : s.searchCursor = text.length
  within : offset ≤ subject.length
  whole : s.buffer.excerptRanges = []
  recorded : s.buffer.undoTree.currentNode.isSome

theorem nextCodepointBoundaryOf_append (hle : offset ≤ subject.length) :
    nextCodepointBoundaryOf (text ++ subject.drop offset) text.length + offset =
      nextCodepointBoundaryOf subject offset + text.length := by
  rw [nextCodepointBoundaryOf, nextCodepointBoundaryOf, List.length_append, List.length_drop]
  by_cases hend : offset ≥ subject.length
  · rw [if_pos (by omega), if_pos hend]
    omega
  · rw [if_neg (by omega), if_neg hend, List.drop_length_add_append, List.drop_drop]
    omega

namespace Follows

variable (h : s.Follows pattern subject template text offset)

include h

theorem findNextMatch_of_none (hforward : pattern.Forward)
    (hm : pattern.search subject offset = none) : s.findNextMatch = s.finished := by
  rw [findNextMatch_of_whole h.small h.whole, h.pattern, h.content, h.searchCursor,
    hforward.search_append text h.within, hm]
  rfl

theorem findNextMatch_of_some (hforward : pattern.Forward)
    (hm : pattern.search subject offset = some m) :
    s.findNextMatch = s.offer s.content (m.moved offset text.length) 0 := by
  rw [findNextMatch_of_whole h.small h.whole, h.pattern, h.searchCursor]
  rw [show pattern.search s.content text.length = some (m.moved offset text.length) by
    rw [h.content, hforward.search_append text h.within, hm]
    rfl]

variable (hm : pattern.search subject offset = some m)

include hm

theorem moved_bounds : (m.moved offset text.length).start = text.length + (m.start - offset) ∧
    (m.moved offset text.length).stop = text.length + (m.stop - offset) ∧
      offset ≤ m.start ∧ m.start ≤ m.stop ∧ m.stop ≤ subject.length := by
  have hstart := start_le_of_search hm
  have hstop := stop_le_of_search hm
  simp only [RegexMatch.moved, RegexMatch.stop] at hstop ⊢
  omega

theorem offers : (s.offered (m.moved offset text.length) t).Offers := by
  obtain ⟨hstart, hstop, hfrom, hle, hsize⟩ := h.moved_bounds hm
  refine ⟨h.confirming, rfl, h.small, h.buffer, RegexMatch.start_le_stop, ?_, h.recorded⟩
  show (m.moved offset text.length).stop ≤ s.content.length
  rw [hstop, h.content, List.length_append, List.length_drop]
  omega

theorem replaced_content_eq (b : Buffer) : ((s.offered (m.moved offset text.length) t).replaced b).content =
    text ++ substr subject offset (m.start - offset) ++ t ++ subject.drop m.stop := by
  obtain ⟨hstart, hstop, hfrom, hle, hsize⟩ := h.moved_bounds hm
  rw [replaced_content]
  show s.content.take (m.moved offset text.length).start ++ t ++
    s.content.drop (m.moved offset text.length).stop = _
  rw [h.content, Forward.take_append hm, hstop, List.drop_length_add_append, List.drop_drop,
    Nat.add_sub_cancel' (Nat.le_trans hfrom hle)]

theorem length_behind : (text ++ substr subject offset (m.start - offset)).length =
    (m.moved offset text.length).start := by
  obtain ⟨hstart, hstop, hfrom, hle, hsize⟩ := h.moved_bounds hm
  rw [hstart, List.length_append, substr, List.length_take, List.length_drop]
  omega

theorem searchCursor_of_ne (b : Buffer) (hne : m.stop ≠ m.start) :
    ((s.offered (m.moved offset text.length) t).replaced b).searchCursor =
      (m.moved offset text.length).start + t.length := by
  obtain ⟨hstart, hstop, hfrom, hle, hsize⟩ := h.moved_bounds hm
  have hdiffer : (m.moved offset text.length).start ≠ (m.moved offset text.length).stop := by
    rw [hstart, hstop]
    omega
  rw [replaced, if_neg fun hboth => hdiffer hboth.1]
  rfl

/-- An empty match that is replaced by nothing is stepped past. -/
theorem searchCursor_of_empty (b : Buffer) (hempty : m.stop = m.start) :
    ((s.offered (m.moved offset text.length) []).replaced b).searchCursor =
      if m.stop = subject.length then
        ((s.offered (m.moved offset text.length) []).replaced b).content.length + 1
      else (m.moved offset text.length).start + (nextCodepointBoundaryOf subject m.stop - m.stop) := by
  obtain ⟨hstart, hstop, hfrom, hle, hsize⟩ := h.moved_bounds hm
  have hsame : (m.moved offset text.length).start = (m.moved offset text.length).stop := by
    rw [hstart, hstop, hempty]
  have hcontent := h.replaced_content_eq hm b (t := [])
  rw [List.append_nil] at hcontent
  have hlength := congrArg List.length hcontent
  rw [List.length_append, h.length_behind hm, List.length_drop] at hlength
  have hstep : ((s.offered (m.moved offset text.length) []).replaced b).searchCursor =
      ((s.offered (m.moved offset text.length) []).replaced b).stepFrom
        (m.moved offset text.length).start := by
    rw [replaced, if_pos ⟨hsame, rfl⟩]
    rfl
  rw [hstep, stepFrom, if_neg (by rw [replaced_huge]; exact Bool.eq_false_iff.1 h.small)]
  by_cases hend : m.stop = subject.length
  · rw [if_pos hend, if_pos (by omega)]
  · rw [if_neg hend, if_neg (by omega), hcontent]
    have hboundary := @nextCodepointBoundaryOf_append subject
      (text ++ substr subject offset (m.start - offset)) m.stop hsize
    rw [h.length_behind hm] at hboundary
    have hlt := lt_nextCodepointBoundaryOf (Nat.lt_of_le_of_ne hsize hend)
    omega

variable {next : Nat} {b : Buffer}

theorem replaced_follows (hnext : resumeAfter subject m = some next) (hnothing : m.stop = m.start → t = [])
    (hbecame : s.buffer.Became b ((s.offered (m.moved offset text.length) t).replaced b).content []) :
    ((s.offered (m.moved offset text.length) t).replaced b).Follows pattern subject template
      (behind subject text t offset m next) next := by
  obtain ⟨hstart, hstop, hfrom, hle, hsize⟩ := h.moved_bounds hm
  obtain ⟨-, hgap, hwithin⟩ := resumeAfter_bounds hm hnext
  have hcursor : ((s.offered (m.moved offset text.length) t).replaced b).searchCursor =
      (m.moved offset text.length).start + t.length + (next - m.stop) := by
    rw [resumeAfter] at hnext
    split at hnext
    · rename_i hempty
      obtain rfl := hnothing hempty
      split at hnext
      · cases hnext
      · rename_i hmore
        cases hnext
        have hend : m.stop ≠ subject.length := by
          rintro hend
          rw [nextCodepointBoundaryOf, if_pos (Nat.le_of_eq hend.symm)] at hmore
          exact hmore hend.symm
        rw [h.searchCursor_of_empty hm b hempty, if_neg hend]
        rfl
    · rename_i hne
      cases hnext
      rw [h.searchCursor_of_ne hm b hne, Nat.sub_self]
      rfl
  refine ⟨?_, ?_, ?_, ?_, ?_, ?_, ?_, hwithin, ?_, ?_⟩
  · exact (replaced_pattern _ b).trans h.pattern
  · exact (replaced_replacementText _ b).trans h.replacementText
  · exact (replaced_stage _ b).trans h.confirming
  · exact (replaced_huge _ b).trans h.small
  · rw [h.replaced_content_eq hm b, behind, List.append_assoc _ (substr subject m.stop _) _,
      ← Excerpt.drop_eq_substr_append_drop hgap]
  · rw [replaced_buffer, hbecame.storage]
  · rw [hcursor, behind, List.length_append, List.length_append, h.length_behind hm,
      substr_length (by omega)]
  · rw [replaced_buffer, hbecame.excerptRanges]
  · rw [replaced_buffer]
    exact hbecame.recorded

theorem replaced_finished (hnext : resumeAfter subject m = none) (hnothing : m.stop = m.start → t = [])
    (hbecame : s.buffer.Became b ((s.offered (m.moved offset text.length) t).replaced b).content []) :
    ((s.offered (m.moved offset text.length) t).replaced b).findNextMatch =
      ((s.offered (m.moved offset text.length) t).replaced b).finished := by
  rw [resumeAfter] at hnext
  split at hnext
  · rename_i hempty
    obtain rfl := hnothing hempty
    split at hnext
    · rename_i hlast
      have hend : m.stop = subject.length := by
        obtain ⟨-, -, -, -, hsize⟩ := h.moved_bounds hm
        by_contra hne
        exact Nat.ne_of_gt (lt_nextCodepointBoundaryOf (Nat.lt_of_le_of_ne hsize hne)) hlast
      have hcursor := h.searchCursor_of_empty hm b hempty
      rw [if_pos hend] at hcursor
      have hwhole : ((s.offered (m.moved offset text.length) []).replaced b).buffer.excerptRanges = [] := by
        rw [replaced_buffer, hbecame.excerptRanges]
      have hsmall : ((s.offered (m.moved offset text.length) []).replaced b).huge = false :=
        (replaced_huge _ b).trans h.small
      rw [findNextMatch_of_whole hsmall hwhole, hcursor, ← searchAt_eq, searchAt,
        if_neg (Nat.not_succ_le_self _)]
    · cases hnext
  · cases hnext

end Follows

/-! ## Where they agree -/

/-- The buffer takes what is to replace a match, which is nothing where the match is empty. -/
structure Replaces (b : Buffer) (pattern : RegexPattern) (subject template : Bytes) (m : RegexMatch) :
    Prop where
  writable : b.readOnly = false
  text : ∃ t, pattern.formatReplacement subject m template = some t ∧ (m.stop = m.start → t = []) ∧
    (b.storage.inserted 0 t).isSome

theorem Replaces.of_became {b b' : Buffer} {bytes : Bytes} {ranges : List ExcerptRange}
    (hbecame : b.Became b' bytes ranges) (h : Replaces b pattern subject template m) :
    Replaces b' pattern subject template m := by
  obtain ⟨t, ht, hnothing, hbuilds⟩ := h.text
  refine ⟨hbecame.readOnly.trans h.writable, t, ht, hnothing, ?_⟩
  rw [hbecame.storage, Buffer.inserted_of_isSome hbuilds]
  rfl

theorem replaces_iff_of_became {b b' : Buffer} {bytes : Bytes} {ranges : List ExcerptRange}
    (hbecame : b.Became b' bytes ranges) (hrecorded : b.undoTree.currentNode.isSome) :
    Replaces b' pattern subject template m ↔ Replaces b pattern subject template m := by
  have hback : b'.Became b b.storage.bytes b.excerptRanges :=
    ⟨by rw [hbecame.storage], rfl, hbecame.readOnly.symm, hrecorded⟩
  exact ⟨.of_became hback, .of_became hbecame⟩

/-- What comes before a match is as it was, or the template does not ask for it. -/
def KeepsBefore (pattern : RegexPattern) (subject template text : Bytes) (offset : Nat) : Prop :=
  NoBefore pattern template ∨ pattern.matchesFrom subject offset = [] ∨
    text = subject.take offset ∧ ∀ m ∈ (pattern.matchesFrom subject offset).dropLast,
      pattern.formatReplacement subject m template = some (substr subject m.start m.hit.length)

theorem take_append_substr {i j : Nat} (h : i ≤ j) :
    subject.take i ++ substr subject i (j - i) = subject.take j := by
  rw [substr, ← List.take_add, Nat.add_sub_cancel' h]

theorem KeepsBefore.next {next : Nat} (h : KeepsBefore pattern subject template text offset)
    (hm : pattern.search subject offset = some m) (hnext : resumeAfter subject m = some next)
    (ht : pattern.formatReplacement subject m template = some t) (hgap : m.stop ≤ next) :
    KeepsBefore pattern subject template (behind subject text t offset m next) next := by
  rcases h with hnone | hempty | ⟨rfl, hown⟩
  · exact .inl hnone
  · rw [matchesFrom_of_next hm hnext] at hempty
    cases hempty
  · rw [matchesFrom_of_next hm hnext] at hown
    by_cases hmore : pattern.matchesFrom subject next = []
    · exact .inr (.inl hmore)
    · rw [List.dropLast_cons_of_ne_nil hmore] at hown
      refine .inr (.inr ⟨?_, fun m' hm' => hown m' (List.mem_cons_of_mem _ hm')⟩)
      have hsame := hown m List.mem_cons_self
      rw [ht] at hsame
      have hlength : m.hit.length = m.stop - m.start := (Nat.add_sub_cancel_left _ _).symm
      rw [Option.some.inj hsame, behind, take_append_substr (start_le_of_search hm), hlength,
        take_append_substr RegexMatch.start_le_stop, take_append_substr hgap]

theorem KeepsBefore.upTo (h : KeepsBefore pattern subject template text offset)
    (hm : pattern.search subject offset = some m) (hne : pattern.matchesFrom subject offset ≠ []) :
    NoBefore pattern template ∨
      text ++ substr subject offset (m.start - offset) = subject.take m.start := by
  rcases h with hnone | hempty | ⟨rfl, -⟩
  · exact .inl hnone
  · exact absurd hempty hne
  · exact .inr (take_append_substr (start_le_of_search hm))

section Step

variable (hforward : pattern.Forward) (h : s.Follows pattern subject template text offset)
  (hm : pattern.search subject offset = some m)
  (hbefore : NoBefore pattern template ∨
    text ++ substr subject offset (m.start - offset) = subject.take m.start)

include hforward h hm hbefore

theorem findNextMatch_eq (ht : pattern.formatReplacement subject m template = some t) :
    s.findNextMatch = { session := s.offered (m.moved offset text.length) t } := by
  have hformat := hforward.formatReplacement_append hm hbefore
  rw [h.findNextMatch_of_some hforward hm]
  exact offer_eq (by rw [h.pattern, h.content, h.replacementText, hformat, ht])

/-- A match that is not replaced keeps the loop from ending. -/
theorem not_completes_of_not_replaces (hnot : ¬Replaces s.buffer pattern subject template m) :
    ¬Completes p s.findNextMatch last := by
  have hformat := hforward.formatReplacement_append hm hbefore
  cases ht : pattern.formatReplacement subject m template with
  | none =>
      intro hcompletes
      rw [h.findNextMatch_of_some hforward hm] at hcompletes
      have hthrew := offer_threw (s := s) (m := m.moved offset text.length)
        (by rw [h.pattern, h.content, h.replacementText, hformat, ht])
      rw [hcompletes.1] at hthrew
      cases hthrew
  | some t =>
      rw [findNextMatch_eq hforward h hm hbefore ht]
      have hoffers := h.offers hm (t := t)
      cases hreadOnly : s.buffer.readOnly with
      | true =>
          rw [completes_step hoffers (hoffers.replaceAndNext_readOnly hreadOnly)]
          exact fun hcompletes => Bool.false_ne_true hcompletes.1.symm
      | false =>
          cases hbuilds : s.buffer.storage.inserted 0 t with
          | none =>
              exact not_completes hoffers
                (hoffers.replaceAndNext_eq_none hreadOnly (.inl h.whole) hbuilds)
          | some storage =>
              have hstuck : m.stop = m.start ∧ t ≠ [] := by
                by_contra hcalm
                refine hnot ⟨hreadOnly, t, ht, fun hempty => ?_, by rw [hbuilds]; rfl⟩
                by_contra hne
                exact hcalm ⟨hempty, hne⟩
              obtain ⟨hstart, hstop, -⟩ := h.moved_bounds hm
              have hagain := hforward.search_append text h.within
              rw [hm, Option.map_some, ← h.content, search_eq_some_iff] at hagain
              obtain ⟨-, hsize, hhit, -⟩ := hagain
              have hstuck' : (s.offered (m.moved offset text.length) t).Stuck := by
                refine ⟨hoffers, h.pattern ▸ hforward, h.whole, ?_, ⟨m.moved offset text.length, ?_, rfl,
                  ?_, ?_⟩, hstuck.2⟩
                · show (m.moved offset text.length).start = (m.moved offset text.length).stop
                  rw [hstart, hstop, hstuck.1]
                · show s.pattern.search s.content (m.moved offset text.length).start = _
                  rw [h.pattern]
                  exact search_eq_some_iff.2 ⟨Nat.le_refl _, hsize, hhit, fun position hle hlt =>
                    absurd hle (Nat.not_le_of_gt hlt)⟩
                · rw [hstart, hstop, hstuck.1]
                · show s.pattern.formatReplacement s.content _ s.replacementText = some t
                  rw [h.pattern, h.content, h.replacementText, hformat, ht]
              rintro ⟨-, rounds, hrounds⟩
              have hnone := hstuck'.endless (p := p) hreadOnly rounds
              rw [hnone] at hrounds
              cases hrounds

/-- A match that is replaced is one round of the loop. -/
theorem completes_iff_of_replaces (hreplaces : Replaces s.buffer pattern subject template m)
    (ht : pattern.formatReplacement subject m template = some t) :
    ∃ b, s.buffer.Became b ((s.offered (m.moved offset text.length) t).replaced b).content [] ∧
      ∀ last, Completes p s.findNextMatch last ↔
        Completes p ((s.offered (m.moved offset text.length) t).replaced b).findNextMatch last := by
  obtain ⟨t', ht', -, hbuilds⟩ := hreplaces.text
  obtain rfl := Option.some.inj (ht.symm.trans ht')
  have hoffers := h.offers hm (t := t)
  obtain ⟨b, hstep, hbecame⟩ := hoffers.replaceAndNext_eq p hreplaces.writable (.inl h.whole) hbuilds
  have hranges : ExcerptRange.afterReplace (s.offered (m.moved offset text.length) t).buffer.excerptRanges
      (m.moved offset text.length).start (m.moved offset text.length).stop t.length = [] := by
    rw [show (s.offered (m.moved offset text.length) t).buffer.excerptRanges = [] from h.whole,
      ExcerptRange.afterReplace_nil]
  refine ⟨b, hranges ▸ hbecame, fun last => ?_⟩
  rw [findNextMatch_eq hforward h hm hbefore ht, completes_step hoffers hstep]

end Step

theorem agrees_iff_of_follows (hforward : pattern.Forward)
    (h : s.Follows pattern subject template text offset)
    (hbefore : KeepsBefore pattern subject template text offset) :
    Agrees p s.findNextMatch
        (pattern.replaceAllFrom subject template text offset offset s.replacementCount) ↔
      ∀ m ∈ pattern.matchesFrom subject offset, Replaces s.buffer pattern subject template m := by
  induction offset using matchesFrom.induct pattern subject generalizing s text with
  | case1 offset hm =>
      rw [matchesFrom_of_none hm, h.findNextMatch_of_none hforward hm, replaceAllFrom_of_none hm]
      refine iff_of_true ⟨_, completes_finished.2 rfl, ?_⟩ (fun m hmem => by cases hmem)
      rw [← h.content, h.buffer]
      rfl
  | case2 offset m hm hnext =>
      have hmatches := matchesFrom_of_last hm hnext
      have hupTo := hbefore.upTo hm (by rw [hmatches]; exact List.cons_ne_nil _ _)
      simp only [hmatches, List.mem_singleton, forall_eq]
      constructor
      · rintro ⟨last, hcompletes, -⟩
        by_contra hnot
        exact not_completes_of_not_replaces hforward h hm hupTo hnot hcompletes
      · intro hreplaces
        obtain ⟨t, ht, hnothing, -⟩ := hreplaces.text
        obtain ⟨b, hbecame, hcompletes⟩ :=
          completes_iff_of_replaces (p := p) hforward h hm hupTo hreplaces ht
        have hfinished := h.replaced_finished hm hnext hnothing hbecame
        rw [hfinished] at hcompletes
        refine ⟨_, (hcompletes _).2 (completes_finished.2 rfl), ?_⟩
        rw [replaceAllFrom_of_last hm ht hnext, ← h.replaced_content_eq hm b]
        show _ = some (ReplaceAllResult.mk _ ((s.offered _ t).replaced b).replacementCount)
        rw [replaced_replacementCount]
        show _ = some (ReplaceAllResult.mk ((s.offered _ t).replaced b).buffer.storage.bytes _)
        rw [replaced_buffer, hbecame.storage]
        rfl
  | case3 offset m hm next hnext ih =>
      have hmatches := matchesFrom_of_next hm hnext
      have hupTo := hbefore.upTo hm (by rw [hmatches]; exact List.cons_ne_nil _ _)
      simp only [hmatches, List.forall_mem_cons]
      by_cases hreplaces : Replaces s.buffer pattern subject template m
      · obtain ⟨t, ht, hnothing, -⟩ := id hreplaces.text
        obtain ⟨b, hbecame, hcompletes⟩ :=
          completes_iff_of_replaces (p := p) hforward h hm hupTo hreplaces ht
        have hfollows := h.replaced_follows hm hnext hnothing hbecame
        have hrest := ih hfollows (hbefore.next hm hnext ht (resumeAfter_bounds hm hnext).2.1)
        rw [replaced_replacementCount, replaced_buffer] at hrest
        simp only [replaces_iff_of_became hbecame h.recorded] at hrest
        rw [← replaceAllFrom_of_next hm ht hnext] at hrest
        simp only [hreplaces, true_and, ← hrest, Agrees, hcompletes]
        rfl
      · refine iff_of_false ?_ fun hall => hreplaces hall.1
        rintro ⟨last, hcompletes, -⟩
        exact not_completes_of_not_replaces hforward h hm hupTo hreplaces hcompletes

/-- The session that is about to start. -/
def entered (b : Buffer) (pattern : RegexPattern) (template : Bytes) (bodies : Bool) : QueryReplace :=
  { buffer := b, pattern := pattern, replacementText := template, scopeToExcerptBodies := bodies }

theorem follows_start (b : Buffer) (pattern : RegexPattern) (template : Bytes) (bodies : Bool)
    (hrecorded : b.undoTree.currentNode.isSome) (hwhole : b.excerptRanges = [])
    (hsmall : b.storage.huge = false) (hpoint : b.point = 0) :
    ∃ s : QueryReplace, (entered b pattern template bodies).confirmReplacement false = s.findNextMatch ∧
      s.Follows pattern b.storage.bytes template [] 0 ∧ s.buffer = b ∧ s.replacementCount = 0 := by
  refine ⟨{ entered b pattern template bodies with
    content := b.storage.bytes
    searchCursor := 0
    stage := .confirming }, ?_, ⟨rfl, rfl, rfl, rfl, rfl, rfl, rfl, Nat.zero_le _, hwhole, hrecorded⟩,
    rfl, rfl⟩
  simp [confirmReplacement, entered, hsmall, hpoint]

/-- The pattern of one character. -/
def character (c : UInt8) : RegexPattern where
  matchAt _ after := if after.head? = some c then some ⟨1, []⟩ else none
  within _ after hit h := by
    split at h
    · rename_i hhead
      cases h
      cases after with
      | nil => cases hhead
      | cons _ after => exact Nat.succ_le_succ (Nat.zero_le _)
    · cases h
  captureCount := 0
  groupNumber _ := none

/-- `$`, in a text without newlines. -/
def endOfText : RegexPattern where
  matchAt _ after := if after = [] then some ⟨0, []⟩ else none
  within _ after hit h := by
    split at h
    · cases h
      exact Nat.zero_le _
    · cases h
  captureCount := 0
  groupNumber _ := none

end QueryReplace

end Ned.Editor.Regex
