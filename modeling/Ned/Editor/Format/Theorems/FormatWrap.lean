import Ned.Editor.Format.Lemmas.FormatWrap
import Ned.Editor.Format.Theorems.FormatEdit

/-!
# What rewrapping a list keeps

The interior is built from the items alone. So it loses what else stands between the delimiters, unless
that is whitespace and commas; and on one line a comment takes in what follows it.
-/

namespace Ned.Editor.Format

open Text Library

/-- Without whitespace and commas outside the items. -/
def strippedText (text : Bytes) (items : List (Nat × Nat)) : Bytes :=
  (interiorOf text 0 text.length items).stripped

namespace FormatCapture

def interior (text : Bytes) (capture : FormatCapture) : Interior :=
  interiorOf text capture.interiorStart capture.interiorEnd capture.items

def texts (text : Bytes) (capture : FormatCapture) : List Bytes := capture.items.map (itemText text)

/-- A capture that the pass does not skip. -/
structure Proper (text : Bytes) (capture : FormatCapture) : Prop where
  items : capture.items ≠ []
  positive : capture.startByte ≠ 0
  order : capture.startByte < capture.endByte
  within : capture.endByte ≤ text.length
  opens : capture.openLength ≠ 0
  closes : capture.closeLength ≠ 0
  room : capture.openLength + capture.closeLength ≤ capture.endByte - capture.startByte

/-- Where a capture is once its items stand in other gaps. -/
def moved (text : Bytes) (gaps : Gaps) (capture : FormatCapture) : FormatCapture :=
  let interior := gaps.interior (capture.texts text)
  { capture with
    endByte := capture.interiorStart + interior.render.length + capture.closeLength
    items := placeFrom (capture.interiorStart + interior.lead.length) interior.parts }

end FormatCapture

variable (wrapRuleFor : String → String → WrapRuleValue) (endsInComment : Bytes → Bool) (text : Bytes)
  (languageKey : String) (style : IndentStyle) (capture : FormatCapture)

def policyOf : Option WrapPolicy := (wrapRuleFor capture.name languageKey).policy

/-- A comma behind the last item is configured, and safe. -/
def forcesComma : Bool :=
  (if trailingCommaUnsafeForLanguage languageKey capture.name then none
    else (wrapRuleFor capture.name languageKey).forceTrailingComma).getD false

def gapsOf (policy : WrapPolicy) : Gaps :=
  Gaps.ofPolicy policy (lineIndentOf text capture.startByte) (forcesComma wrapRuleFor languageKey capture)
    style

/-- Nothing but separators goes, the pass is done after one edit, and behind a comment the line ends if
it did before. -/
structure Kept (text' : Bytes) (capture' : FormatCapture) : Prop where
  stripped : strippedText text' capture'.items = strippedText text capture.items
  again : computeWrapEdits wrapRuleFor text' languageKey [capture'] style = []
  closed : (capture.interior text).CommentsClosed endsInComment →
    (capture'.interior text').CommentsClosed endsInComment

/-- The edit of a capture keeps what there is. -/
def KeepsAll : Prop :=
  ∀ edit ∈ computeWrapEdits wrapRuleFor text languageKey [capture] style, ∀ policy,
    policyOf wrapRuleFor languageKey capture = some policy →
      Kept wrapRuleFor endsInComment text languageKey style capture (edit.replacement.splice text)
        (capture.moved text (gapsOf wrapRuleFor text languageKey style capture policy))

/-- What a list has to be like for a policy. -/
structure Wrappable (policy : WrapPolicy) : Prop where
  separators : (capture.interior text).OnlySeparators
  uncommented : policy = .never → (capture.interior text).CommentsClosed endsInComment →
    ∀ item ∈ capture.texts text, endsInComment item = false
  header : policy = .always →
    lineStartOf text capture.startByte + (lineIndentOf text capture.startByte).length ≤
      capture.interiorStart

/-- A list that is not as its policy wants it can be wrapped. -/
def WrappableOrDone : Prop :=
  capture.Proper text → ∀ policy, policyOf wrapRuleFor languageKey capture = some policy →
    (capture.interior text).render ≠
        ((gapsOf wrapRuleFor text languageKey style capture policy).interior (capture.texts text)).render →
      Wrappable endsInComment text capture policy

variable {wrapRuleFor endsInComment text languageKey style capture} {policy : WrapPolicy}
  {edit : FormatTextEdit} {gaps : Gaps}

/-! ## The edit of a capture -/

theorem mem_computeWrapEdits : edit ∈ computeWrapEdits wrapRuleFor text languageKey [capture] style ↔
    computeWrapEdit wrapRuleFor text languageKey style capture = some edit := by
  simp [computeWrapEdits]

theorem computeWrapEdits_eq_nil : computeWrapEdits wrapRuleFor text languageKey [capture] style = [] ↔
    computeWrapEdit wrapRuleFor text languageKey style capture = none := by
  simp [computeWrapEdits, List.filterMap_cons]
  cases computeWrapEdit wrapRuleFor text languageKey style capture <;> simp

theorem FormatCapture.Proper.le (h : capture.Proper text) :
    capture.interiorStart ≤ capture.interiorEnd ∧ capture.interiorEnd ≤ text.length ∧
      capture.interiorEnd + capture.closeLength = capture.endByte := by
  have hroom := h.room
  have hwithin := h.within
  have horder := h.order
  simp only [FormatCapture.interiorStart, FormatCapture.interiorEnd]
  omega

variable (style) in
/-- A capture is rewritten when it does not stand as its policy wants it. -/
theorem computeWrapEdit_eq (hproper : capture.Proper text)
    (hpolicy : policyOf wrapRuleFor languageKey capture = some policy) :
    computeWrapEdit wrapRuleFor text languageKey style capture =
      if substr text capture.interiorStart (capture.interiorEnd - capture.interiorStart) ≠
          ((gapsOf wrapRuleFor text languageKey style capture policy).interior (capture.texts text)).render
      then some ⟨capture.interiorStart, capture.interiorEnd,
        ((gapsOf wrapRuleFor text languageKey style capture policy).interior (capture.texts text)).render⟩
      else none := by
  rw [policyOf] at hpolicy
  have hitems : capture.items.isEmpty = false := by simpa using hproper.items
  have hspan : ¬(capture.startByte = 0 ∨ capture.startByte ≥ capture.endByte ∨
      capture.endByte > text.length) := by
    have := hproper.positive
    have := hproper.order
    have := hproper.within
    omega
  have hlengths : ¬(capture.openLength = 0 ∨ capture.closeLength = 0 ∨
      capture.openLength + capture.closeLength > capture.endByte - capture.startByte) := by
    have := hproper.opens
    have := hproper.closes
    have := hproper.room
    omega
  simp only [computeWrapEdit, hitems, hpolicy, Bool.false_eq_true, if_false]
  rw [if_neg hspan, if_neg hlengths, if_neg (Nat.not_lt.2 hproper.le.1)]
  cases policy with
  | never =>
      simp only [collapsedInterior_eq (lineIndentOf text capture.startByte)
        (forcesComma wrapRuleFor languageKey capture) style]
      rfl
  | always =>
      simp only [choppedInterior_eq hproper.items]
      rfl

theorem proper_of_edit (h : computeWrapEdit wrapRuleFor text languageKey style capture = some edit) :
    capture.Proper text := by
  simp only [computeWrapEdit] at h
  split at h
  · cases h
  · rename_i hitems
    split at h
    · cases h
    · split at h
      · cases h
      · split at h
        · cases h
        · constructor <;> simp_all

/-! ## The text around a list -/

theorem substr_between {start stop : Nat} (hle : start ≤ stop) :
    text.take start ++ (substr text start (stop - start) ++ text.drop stop) = text := by
  have hdrop : (text.drop start).drop (stop - start) = text.drop stop := by
    rw [List.drop_drop, Nat.add_sub_of_le hle]
  rw [substr, ← hdrop, List.take_append_drop, List.take_append_drop]

section

variable (hproper : capture.Proper text)
  (hordered : OrderedIn capture.interiorStart capture.interiorEnd capture.items)

include hproper

theorem length_take_interiorStart : (text.take capture.interiorStart).length = capture.interiorStart :=
  List.length_take_of_le (Nat.le_trans hproper.le.1 hproper.le.2.1)

include hordered

theorem text_eq : text.take capture.interiorStart ++
    ((capture.interior text).render ++ text.drop capture.interiorEnd) = text := by
  rw [FormatCapture.interior, hordered.render_eq]
  exact substr_between hproper.le.1

theorem strippedText_eq : strippedText text capture.items =
    strip (text.take capture.interiorStart) ++
      ((capture.interior text).stripped ++ strip (text.drop capture.interiorEnd)) := by
  have h := @Interior.strippedText_render (text.take capture.interiorStart)
    (text.drop capture.interiorEnd) (capture.interior text)
  rw [text_eq hproper hordered, length_take_interiorStart hproper, FormatCapture.interior,
    hordered.place_eq hproper.le.2.1] at h
  exact h

end

/-! ## The text after the edit -/

section

variable (gaps) (hproper : capture.Proper text)

/-- The list in other gaps. -/
def rewrapped (text : Bytes) (gaps : Gaps) (capture : FormatCapture) : Bytes :=
  text.take capture.interiorStart ++
    ((gaps.interior (capture.texts text)).render ++ text.drop capture.interiorEnd)

include hproper

theorem moved_interior : (capture.moved text gaps).interior (rewrapped text gaps capture) =
    gaps.interior (capture.texts text) := by
  have h := @Interior.interiorOf_render (text.take capture.interiorStart)
    (text.drop capture.interiorEnd) (gaps.interior (capture.texts text))
  rw [length_take_interiorStart hproper] at h
  have hend : (capture.moved text gaps).interiorEnd =
      capture.interiorStart + (gaps.interior (capture.texts text)).render.length :=
    Nat.add_sub_cancel _ _
  rw [FormatCapture.interior, hend]
  exact h

theorem moved_texts : (capture.moved text gaps).texts (rewrapped text gaps capture) =
    capture.texts text := by
  have hitems := congrArg Interior.items (moved_interior gaps hproper)
  rw [FormatCapture.interior, interiorOf_items] at hitems
  exact hitems.trans (gaps.parts_items _)

theorem moved_stripped : strippedText (rewrapped text gaps capture) (capture.moved text gaps).items =
    strip (text.take capture.interiorStart) ++
      ((gaps.interior (capture.texts text)).stripped ++ strip (text.drop capture.interiorEnd)) := by
  have h := @Interior.strippedText_render (text.take capture.interiorStart)
    (text.drop capture.interiorEnd) (gaps.interior (capture.texts text))
  rw [length_take_interiorStart hproper] at h
  exact h

theorem moved_substr : substr (rewrapped text gaps capture) (capture.moved text gaps).interiorStart
    ((capture.moved text gaps).interiorEnd - (capture.moved text gaps).interiorStart) =
      (gaps.interior (capture.texts text)).render := by
  have h := substr_append (text.take capture.interiorStart)
    (gaps.interior (capture.texts text)).render (text.drop capture.interiorEnd)
  have hlength : (capture.moved text gaps).interiorEnd - (capture.moved text gaps).interiorStart =
      (gaps.interior (capture.texts text)).render.length := by
    simp only [FormatCapture.interiorEnd, FormatCapture.interiorStart, FormatCapture.moved]
    omega
  rw [length_take_interiorStart hproper] at h
  rw [hlength]
  exact h

/-- The pass does not skip the capture the second time. -/
theorem moved_proper : (capture.moved text gaps).Proper (rewrapped text gaps capture) := by
  have htexts : capture.texts text ≠ [] := by simpa [FormatCapture.texts] using hproper.items
  have hparts := gaps.parts_ne_nil htexts
  have hlength := length_take_interiorStart hproper
  have hle := hproper.le
  have hclose := hproper.within
  refine ⟨?_, hproper.positive, ?_, ?_, hproper.opens, hproper.closes, ?_⟩
  · simp only [FormatCapture.moved, Gaps.interior]
    cases hcases : gaps.parts (capture.texts text) with
    | nil => exact absurd hcases hparts
    | cons part parts => simp [placeFrom]
  · have := hproper.opens
    simp only [FormatCapture.moved, FormatCapture.interiorStart]
    omega
  · simp only [rewrapped, FormatCapture.moved, List.length_append, List.length_drop, hlength]
    omega
  · simp only [FormatCapture.moved, FormatCapture.interiorStart]
    omega

end

theorem isBlank_of_mem_lineIndentOf {offset : Nat} {c : UInt8} (h : c ∈ lineIndentOf text offset) :
    isBlank c = true :=
  List.mem_takeWhile_imp h

theorem moved_lineIndentOf (hproper : capture.Proper text) (forceTrailingComma : Bool) :
    lineIndentOf (rewrapped text (Gaps.ofPolicy .always (lineIndentOf text capture.startByte)
        forceTrailingComma style) capture) capture.startByte =
      (lineIndentOf text capture.startByte).take
        (capture.interiorStart - lineStartOf text capture.startByte) := by
  have hlength := length_take_interiorStart hproper
  have hstart : capture.startByte ≤ (text.take capture.interiorStart).length := by
    rw [hlength]
    exact Nat.le_add_right _ _
  have hsplit := List.take_append_drop capture.interiorStart text
  have hline : lineStartOf (text.take capture.interiorStart) capture.startByte =
      lineStartOf text capture.startByte := by
    conv_rhs => rw [← hsplit]
    exact (lineStartOf_append hstart).symm
  have h := @lineIndentOf_newline (text.take capture.interiorStart) (text.drop capture.interiorStart)
    capture.startByte
  rw [hline, hlength, hsplit] at h
  exact h (hlength ▸ hstart)

theorem again_header {indent : Bytes} (h : lineIndentOf (rewrapped text
      (gapsOf wrapRuleFor text languageKey style capture policy) capture) capture.startByte = indent) :
    gapsOf wrapRuleFor (rewrapped text (gapsOf wrapRuleFor text languageKey style capture policy) capture)
        languageKey style
        (capture.moved text (gapsOf wrapRuleFor text languageKey style capture policy)) policy =
      Gaps.ofPolicy policy indent (forcesComma wrapRuleFor languageKey capture) style := by
  rw [← h]
  rfl

/-- Nothing is left to do exactly if the header keeps its indentation. -/
theorem again_iff (hproper : capture.Proper text)
    (hpolicy : policyOf wrapRuleFor languageKey capture = some policy) :
    computeWrapEdits wrapRuleFor
        (rewrapped text (gapsOf wrapRuleFor text languageKey style capture policy) capture) languageKey
        [capture.moved text (gapsOf wrapRuleFor text languageKey style capture policy)] style = [] ↔
      (policy = .always →
        lineStartOf text capture.startByte + (lineIndentOf text capture.startByte).length ≤
          capture.interiorStart) := by
  have hmoved : policyOf wrapRuleFor languageKey (capture.moved text
      (gapsOf wrapRuleFor text languageKey style capture policy)) = some policy := hpolicy
  have hproper' := moved_proper (gapsOf wrapRuleFor text languageKey style capture policy) hproper
  rw [computeWrapEdits_eq_nil, computeWrapEdit_eq style hproper' hmoved, moved_substr _ hproper,
    moved_texts _ hproper, ite_eq_right_iff]
  simp only [reduceCtorEq, imp_false, not_not]
  cases policy with
  | never => simp [gapsOf, Gaps.ofPolicy]
  | always =>
      have hindent := @moved_lineIndentOf text style capture hproper
        (forcesComma wrapRuleFor languageKey capture)
      have hle := lineStartOf_le text capture.startByte
      have hstart : capture.startByte ≤ capture.interiorStart := Nat.le_add_right _ _
      rw [again_header hindent]
      simp only [gapsOf, forall_const]
      constructor
      · intro h
        by_contra hdeep
        have hshort : ((lineIndentOf text capture.startByte).take
            (capture.interiorStart - lineStartOf text capture.startByte)).length <
              (lineIndentOf text capture.startByte).length := by
          rw [List.length_take]
          omega
        have hlength := @Gaps.length_render_always (capture.texts text) _ _ hshort
          (forcesComma wrapRuleFor languageKey capture) style
        rw [← h] at hlength
        exact Nat.lt_irrefl _ hlength
      · intro h
        rw [List.take_of_length_le (by omega)]

/-- What an edit keeps is what its list has to be like. -/
theorem rewrapped_kept_iff (hproper : capture.Proper text)
    (hordered : OrderedIn capture.interiorStart capture.interiorEnd capture.items)
    (hpolicy : policyOf wrapRuleFor languageKey capture = some policy) :
    Kept wrapRuleFor endsInComment text languageKey style capture
        (rewrapped text (gapsOf wrapRuleFor text languageKey style capture policy) capture)
        (capture.moved text (gapsOf wrapRuleFor text languageKey style capture policy)) ↔
      Wrappable endsInComment text capture policy := by
  have hstripped := moved_stripped (gapsOf wrapRuleFor text languageKey style capture policy) hproper
  have hinterior := moved_interior (gapsOf wrapRuleFor text languageKey style capture policy) hproper
  have hseparators : ((gapsOf wrapRuleFor text languageKey style capture policy).interior
      (capture.texts text)).stripped = (capture.texts text).flatten := by
    have hblank : ∀ c ∈ lineIndentOf text capture.startByte, isBlank c = true :=
      fun c hc => isBlank_of_mem_lineIndentOf hc
    have h := Interior.onlySeparators_iff.1 (@Gaps.onlySeparators _ (capture.texts text) policy hblank
      (forcesComma wrapRuleFor languageKey capture) style)
    exact h.trans (congrArg List.flatten (Gaps.parts_items _ _))
  have hseparators_iff : (capture.interior text).OnlySeparators ↔
      (capture.interior text).stripped = (capture.texts text).flatten := by
    rw [Interior.onlySeparators_iff, FormatCapture.interior, interiorOf_items]
    rfl
  have hclosed : ((gapsOf wrapRuleFor text languageKey style capture policy).interior
      (capture.texts text)).CommentsClosed endsInComment ↔
        (policy = .never → ∀ item ∈ capture.texts text, endsInComment item = false) := by
    cases policy with
    | never => exact (Gaps.commentsClosed_never _ _).trans ⟨fun h _ => h, fun h => h rfl⟩
    | always => exact iff_of_true (Gaps.commentsClosed_always _ _) (fun h => by cases h)
  constructor
  · intro h
    have hkept := h.stripped
    rw [hstripped, strippedText_eq hproper hordered, hseparators] at hkept
    have hsame := List.append_cancel_right (List.append_cancel_left hkept)
    have hclose := h.closed
    rw [hinterior, hclosed] at hclose
    exact ⟨hseparators_iff.2 hsame.symm, fun hnever hbefore => hclose hbefore hnever,
      (again_iff hproper hpolicy).1 h.again⟩
  · intro h
    constructor
    · rw [hstripped, strippedText_eq hproper hordered, hseparators, hseparators_iff.1 h.separators]
    · exact (again_iff hproper hpolicy).2 h.header
    · rw [hinterior, hclosed]
      exact fun hbefore hnever => h.uncommented hnever hbefore

/-- Rewrapping a list loses nothing exactly when the list is as its policy wants it, or has separators
only between its items, on one line no comment that was closed, and a header that is not blank up to
its items. -/
theorem keepsAll_iff (hordered : OrderedIn capture.interiorStart capture.interiorEnd capture.items) :
    KeepsAll wrapRuleFor endsInComment text languageKey style capture ↔
      WrappableOrDone wrapRuleFor endsInComment text languageKey style capture := by
  have hinterior (hproper : capture.Proper text) :
      substr text capture.interiorStart (capture.interiorEnd - capture.interiorStart) =
        (capture.interior text).render := hordered.render_eq.symm
  constructor
  · intro h hproper policy hpolicy hdifferent
    have hedit := computeWrapEdit_eq style hproper hpolicy
    rw [hinterior hproper, if_pos hdifferent] at hedit
    have hkept := h _ (mem_computeWrapEdits.2 hedit) policy hpolicy
    rw [Replacement.splice, FormatTextEdit.replacement, List.append_assoc] at hkept
    exact (rewrapped_kept_iff hproper hordered hpolicy).1 hkept
  · intro h edit hedit policy hpolicy
    have hedit := mem_computeWrapEdits.1 hedit
    have hproper := proper_of_edit hedit
    rw [computeWrapEdit_eq style hproper hpolicy, hinterior hproper] at hedit
    obtain ⟨hdifferent, hedit⟩ := Option.ite_none_right_eq_some.1 hedit
    cases hedit
    rw [Replacement.splice, FormatTextEdit.replacement, List.append_assoc]
    exact (rewrapped_kept_iff hproper hordered hpolicy).2 (h hproper policy hpolicy hdifferent)

/-- `f(a,` and `b)` on a line each become one line. -/
theorem keepsAll_arguments :
    KeepsAll (fun _ _ => { policy := some .never }) (fun item => item.take 2 == [47, 47])
      [102, 40, 97, 44, 10, 98, 41] "cpp" {}
      { name := "wrap.args", startByte := 1, endByte := 7, items := [(2, 3), (5, 6)] } := by
  apply (keepsAll_iff (by simp [OrderedIn, FormatCapture.interiorStart, FormatCapture.interiorEnd])).2
  intro _ policy hpolicy _
  obtain rfl : WrapPolicy.never = policy := Option.some.inj hpolicy
  refine ⟨by decide, fun _ _ => by decide, fun h => ?_⟩
  cases h

/-- A comment behind an argument, an argument of its own to the query, takes in the rest of the call:
`f(a, // c` and `b)` become `f(a, // c, b)`. -/
theorem not_keepsAll_comment :
    ¬∀ wrapRuleFor endsInComment text languageKey style (capture : FormatCapture),
      OrderedIn capture.interiorStart capture.interiorEnd capture.items →
        KeepsAll wrapRuleFor endsInComment text languageKey style capture := by
  intro h
  have hkept := h (fun _ _ => { policy := some .never }) (fun item => item.take 2 == [47, 47])
    [102, 40, 97, 44, 32, 47, 47, 32, 99, 10, 98, 41] "cpp" {}
    { name := "wrap.args", startByte := 1, endByte := 12, items := [(2, 3), (5, 9), (10, 11)] }
    (by simp [OrderedIn, FormatCapture.interiorStart, FormatCapture.interiorEnd])
    ⟨2, 11, [97, 44, 32, 47, 47, 32, 99, 44, 32, 98]⟩ (mem_computeWrapEdits.2 (by decide)) .never rfl
  exact absurd (hkept.closed (by decide)) (by decide)

end Ned.Editor.Format
