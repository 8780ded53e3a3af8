import Ned.Editor.Regex.RegexPattern

/-!
# Patterns that look only forwards

Such a pattern finds in a text, behind another one, what it finds there alone. The matches it replaces at
once are the ones a search finds, each from where the one before it ends.
-/

namespace Ned.Editor.Regex

open Text RegexPattern

/-! ## Patterns that look only forwards -/

/-- A match, and the places of its groups, depend only on the text from its start on. -/
structure RegexPattern.Forward (pattern : RegexPattern) : Prop where
  matchAt : ∀ before before' after, pattern.matchAt before after = pattern.matchAt before' after
  groups : ∀ before after hit, pattern.matchAt before after = some hit →
    ∀ span : Int × Int, some span ∈ hit.groups → 0 ≤ span.1

variable {pattern : RegexPattern} {subject other template text t : Bytes} {m : RegexMatch}
  {offset searchFrom count : Nat}

def RegexMatch.moved (m : RegexMatch) (offset offset' : Nat) : RegexMatch :=
  ⟨m.start - offset + offset', m.hit⟩

theorem RegexMatch.start_le_stop : m.start ≤ m.stop := Nat.le_add_right _ _

namespace RegexPattern.Forward

variable (h : pattern.Forward)

include h

theorem matchIn_append (text : Bytes) (position : Nat) :
    pattern.matchIn (text ++ subject.drop offset) (text.length + position) =
      pattern.matchIn subject (offset + position) := by
  rw [matchIn, matchIn, List.drop_length_add_append, List.drop_drop]
  exact h.matchAt _ _ _

theorem search_append (text : Bytes) (hle : offset ≤ subject.length) :
    pattern.search (text ++ subject.drop offset) text.length =
      (pattern.search subject offset).map fun m => m.moved offset text.length := by
  have hlength : (text ++ subject.drop offset).length = text.length + (subject.length - offset) := by
    rw [List.length_append, List.length_drop]
  apply Option.ext
  intro found
  rw [Option.map_eq_some_iff, search_eq_some_iff, hlength]
  constructor
  · rintro ⟨hstart, hsize, hhit, hnone⟩
    obtain ⟨position, hposition⟩ := Nat.exists_eq_add_of_le hstart
    refine ⟨⟨offset + position, found.hit⟩, search_eq_some_iff.2 ⟨Nat.le_add_right _ _, ?_, ?_, ?_⟩, ?_⟩
    · show offset + position ≤ _
      omega
    · show pattern.matchIn subject (offset + position) = some found.hit
      rw [← h.matchIn_append text position, ← hposition]
      exact hhit
    · intro q hq hlt
      have hlt : q < offset + position := hlt
      obtain ⟨q, rfl⟩ := Nat.exists_eq_add_of_le hq
      rw [← h.matchIn_append text q]
      exact hnone _ (Nat.le_add_right _ _) (by omega)
    · rw [RegexMatch.moved, Nat.add_sub_cancel_left, Nat.add_comm, ← hposition]
  · rintro ⟨m, hm, rfl⟩
    obtain ⟨hstart, hsize, hhit, hnone⟩ := search_eq_some_iff.1 hm
    obtain ⟨position, hposition⟩ := Nat.exists_eq_add_of_le hstart
    have hmoved : (m.moved offset text.length).start = text.length + position := by
      rw [RegexMatch.moved, hposition, Nat.add_sub_cancel_left, Nat.add_comm]
    refine ⟨by omega, by omega, ?_, fun q hq hlt => ?_⟩
    · rw [hmoved, h.matchIn_append, ← hposition]
      exact hhit
    · obtain ⟨q, rfl⟩ := Nat.exists_eq_add_of_le hq
      rw [h.matchIn_append]
      exact hnone _ (Nat.le_add_right _ _) (by omega)

theorem groupText_append (hm : pattern.search subject offset = some m) (groupNumber : Nat) :
    groupText (text ++ subject.drop offset) (m.moved offset text.length) groupNumber =
      groupText subject m groupNumber := by
  obtain ⟨hstart, -, hhit, -⟩ := search_eq_some_iff.1 hm
  have hspans := h.groups _ _ _ hhit
  simp only [groupText, RegexMatch.moved]
  split
  · rename_i start stop hgroup
    have hpos : 0 ≤ start := hspans _ (List.mem_of_getElem? hgroup)
    obtain ⟨n, rfl⟩ := Int.eq_ofNat_of_zero_le hpos
    obtain ⟨position, hposition⟩ := Nat.exists_eq_add_of_le hstart
    rw [hposition, Nat.add_sub_cancel_left]
    have hmoved : (((position + text.length : Nat) : Int) + n).toNat = text.length + (position + n) := by
      omega
    have hplace : (((offset + position : Nat) : Int) + n).toNat = offset + (position + n) := by
      omega
    rw [hmoved, hplace, substr, substr, List.drop_length_add_append, List.drop_drop]
  · rfl

end RegexPattern.Forward

/-! ## The matches of a text -/

/-- Where the search goes on: behind a match, and one codepoint behind an empty one. -/
def resumeAfter (subject : Bytes) (m : RegexMatch) : Option Nat :=
  if m.stop = m.start then
    if nextCodepointBoundaryOf subject m.stop = m.stop then none
    else some (nextCodepointBoundaryOf subject m.stop)
  else some m.stop

theorem resumeAfter_bounds {next : Nat} (hm : pattern.search subject searchFrom = some m)
    (h : resumeAfter subject m = some next) :
    searchFrom < next ∧ m.stop ≤ next ∧ next ≤ subject.length := by
  have hstart := start_le_of_search hm
  have hstop := stop_le_of_search hm
  have hmatch : m.start ≤ m.stop := Nat.le_add_right _ _
  rw [resumeAfter] at h
  split at h
  · split at h
    · cases h
    · rename_i hne
      cases h
      have hlt := lt_nextCodepointBoundaryOf_of_ne hstop hne
      exact ⟨by omega, Nat.le_of_lt hlt, nextCodepointBoundaryOf_le _ _⟩
  · cases h
    exact ⟨by omega, Nat.le_refl _, hstop⟩

def RegexPattern.matchesFrom (pattern : RegexPattern) (subject : Bytes) (searchFrom : Nat) :
    List RegexMatch :=
  match hm : pattern.search subject searchFrom with
  | none => []
  | some m =>
      match hnext : resumeAfter subject m with
      | none => [m]
      | some next => m :: pattern.matchesFrom subject next
  termination_by subject.length + 1 - searchFrom
  decreasing_by
    obtain ⟨hlt, -, hle⟩ := resumeAfter_bounds hm hnext
    omega

theorem matchesFrom_of_none (h : pattern.search subject searchFrom = none) :
    pattern.matchesFrom subject searchFrom = [] := by
  rw [matchesFrom]
  split
  · rfl
  · rename_i hm
    rw [h] at hm
    cases hm

theorem matchesFrom_of_last (h : pattern.search subject searchFrom = some m)
    (hnext : resumeAfter subject m = none) : pattern.matchesFrom subject searchFrom = [m] := by
  rw [matchesFrom]
  split
  · rename_i hnone
    rw [h] at hnone
    cases hnone
  · rename_i m' hm
    obtain rfl := Option.some.inj (h.symm.trans hm)
    split
    · rfl
    · rename_i next hsome
      rw [hnext] at hsome
      cases hsome

theorem matchesFrom_of_next {next : Nat} (h : pattern.search subject searchFrom = some m)
    (hnext : resumeAfter subject m = some next) :
    pattern.matchesFrom subject searchFrom = m :: pattern.matchesFrom subject next := by
  rw [matchesFrom]
  split
  · rename_i hnone
    rw [h] at hnone
    cases hnone
  · rename_i m' hm
    obtain rfl := Option.some.inj (h.symm.trans hm)
    split
    · rename_i hnone
      rw [hnext] at hnone
      cases hnone
    · rename_i next' hsome
      obtain rfl := Option.some.inj (hnext.symm.trans hsome)
      rfl

/-! ## The texts that replace them -/

/-- Nothing in the template stands for what comes before a match. -/
def NoBefore (pattern : RegexPattern) (template : Bytes) : Prop :=
  ∀ pieces, pattern.pieces template = some pieces → Piece.before ∉ pieces

namespace RegexPattern.Forward

variable (h : pattern.Forward) (hm : pattern.search subject offset = some m)

include h hm

theorem expand_append {piece : Piece} (hne : piece ≠ .before) :
    expand (text ++ subject.drop offset) (m.moved offset text.length) piece = expand subject m piece := by
  cases piece with
  | literal => rfl
  | group groupNumber => exact h.groupText_append hm groupNumber
  | before => exact absurd rfl hne
  | after =>
      have hstart := start_le_of_search hm
      have hstop : (m.moved offset text.length).stop = text.length + (m.stop - offset) := by
        simp only [RegexMatch.stop, RegexMatch.moved]
        omega
      have hle : offset ≤ m.stop := Nat.le_trans hstart RegexMatch.start_le_stop
      rw [expand, expand, hstop, List.drop_length_add_append, List.drop_drop, Nat.add_sub_cancel' hle]

omit h in
theorem take_append : (text ++ subject.drop offset).take (m.moved offset text.length).start =
    text ++ substr subject offset (m.start - offset) := by
  rw [RegexMatch.moved, Nat.add_comm, List.take_length_add_append, substr]

theorem formatReplacement_append
    (hbefore : NoBefore pattern template ∨
      text ++ substr subject offset (m.start - offset) = subject.take m.start) :
    pattern.formatReplacement (text ++ subject.drop offset) (m.moved offset text.length) template =
      pattern.formatReplacement subject m template := by
  rw [formatReplacement, formatReplacement]
  cases hpieces : pattern.pieces template with
  | none => rfl
  | some pieces =>
      have hexpand : ∀ piece ∈ pieces, expand (text ++ subject.drop offset)
          (m.moved offset text.length) piece = expand subject m piece := by
        intro piece hpiece
        by_cases hne : piece = .before
        · subst hne
          rcases hbefore with hnone | hsame
          · exact absurd hpiece (hnone pieces hpieces)
          · rw [expand, expand, take_append hm, hsame]
        · exact h.expand_append hm hne
      simp only [Option.map_some, Option.some.injEq, List.flatMap_def, List.map_congr_left hexpand]

theorem formatReplacement_ne_nil (text : Bytes) (hlength : offset ≤ text.length)
    (ht : pattern.formatReplacement subject m template = some t) (hne : t ≠ []) :
    ∃ t', pattern.formatReplacement (text ++ subject.drop offset) (m.moved offset text.length)
      template = some t' ∧ t' ≠ [] := by
  obtain ⟨pieces, hpieces, rfl⟩ := Option.map_eq_some_iff.1 ht
  refine ⟨_, Option.map_eq_some_iff.2 ⟨pieces, hpieces, rfl⟩, fun hnil => hne ?_⟩
  rw [List.flatMap_eq_nil_iff] at hnil ⊢
  intro piece hpiece
  have hempty := hnil piece hpiece
  by_cases hbefore : piece = .before
  · subst hbefore
    rw [expand, take_append hm, List.append_eq_nil_iff] at hempty
    have hstart : offset = 0 := Nat.le_zero.1 (Nat.le_trans hlength (by rw [hempty.1]; exact Nat.le_refl 0))
    have hrest := hempty.2
    rw [hstart, substr, List.drop_zero, Nat.sub_zero] at hrest
    exact hrest
  · have hsame : expand (text ++ subject.drop offset) (m.moved offset text.length) piece =
        expand subject m piece := h.expand_append hm hbefore
    exact hsame ▸ hempty

end RegexPattern.Forward

/-! ## At once -/

/-- What a match leaves behind the text so far: the bytes before it, its own text, and the codepoint that
is stepped over. -/
def behind (subject text t : Bytes) (searchFrom : Nat) (m : RegexMatch) (next : Nat) : Bytes :=
  text ++ substr subject searchFrom (m.start - searchFrom) ++ t ++ substr subject m.stop (next - m.stop)

theorem replaceAllFrom_of_none (h : pattern.search subject searchFrom = none) :
    pattern.replaceAllFrom subject template text searchFrom searchFrom count =
      some ⟨text ++ subject.drop searchFrom, count⟩ := by
  rw [replaceAllFrom]
  split
  · rfl
  · rename_i hm
    rw [h] at hm
    cases hm

theorem replaceAllFrom_of_last (h : pattern.search subject searchFrom = some m)
    (ht : pattern.formatReplacement subject m template = some t) (hnext : resumeAfter subject m = none) :
    pattern.replaceAllFrom subject template text searchFrom searchFrom count =
      some ⟨text ++ substr subject searchFrom (m.start - searchFrom) ++ t ++ subject.drop m.stop,
        count + 1⟩ := by
  rw [resumeAfter] at hnext
  split at hnext
  · rename_i hempty
    split at hnext
    · rename_i hlast
      rw [replaceAllFrom]
      split
      · rename_i hnone
        rw [h] at hnone
        cases hnone
      · rename_i m' hm
        obtain rfl := Option.some.inj (h.symm.trans hm)
        simp only [ht, hempty, if_true]
        rw [dif_pos (hempty ▸ hlast)]
    · cases hnext
  · cases hnext

theorem replaceAllFrom_of_next {next : Nat} (h : pattern.search subject searchFrom = some m)
    (ht : pattern.formatReplacement subject m template = some t) (hnext : resumeAfter subject m = some next) :
    pattern.replaceAllFrom subject template text searchFrom searchFrom count =
      pattern.replaceAllFrom subject template (behind subject text t searchFrom m next) next next
        (count + 1) := by
  rw [resumeAfter] at hnext
  rw [replaceAllFrom]
  split
  · rename_i hnone
    rw [h] at hnone
    cases hnone
  · rename_i m' hm
    obtain rfl := Option.some.inj (h.symm.trans hm)
    split at hnext
    · rename_i hempty
      split at hnext
      · cases hnext
      · rename_i hmore
        cases hnext
        simp only [ht, hempty, if_true]
        rw [dif_neg (hempty ▸ hmore), behind, hempty]
    · rename_i hne
      cases hnext
      simp only [ht, if_neg hne]
      simp only [behind, Nat.sub_self, substr, List.take_zero, List.append_nil]

end Ned.Editor.Regex
