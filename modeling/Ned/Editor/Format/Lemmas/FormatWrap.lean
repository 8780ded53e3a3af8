import Ned.Editor.Format.FormatEdit

/-!
# What stands between two delimiters

The items of a list, each with what follows it, and what leads the first. Ordered items give such an
interior, and an interior says where its items are. What the pass writes is an interior with gaps of
its own.
-/

namespace Ned.Editor.Format

open Text

/-- What leads the first item, and each item with what follows it. -/
structure Interior where
  lead : Bytes
  parts : List (Bytes × Bytes)

def isSeparator (c : UInt8) : Bool := c == 32 || (9 ≤ c && c ≤ 13) || c == comma

def strip (gap : Bytes) : Bytes := gap.filter fun c => !isSeparator c

/-- Disjoint spans between two offsets, in order. -/
def OrderedIn : Nat → Nat → List (Nat × Nat) → Prop
  | start, stop, [] => start ≤ stop
  | start, stop, item :: items => start ≤ item.1 ∧ item.1 ≤ item.2 ∧ OrderedIn item.2 stop items

def interiorOf (text : Bytes) : Nat → Nat → List (Nat × Nat) → Interior
  | start, stop, [] => ⟨substr text start (stop - start), []⟩
  | start, stop, item :: items =>
      let rest := interiorOf text item.2 stop items
      ⟨substr text start (item.1 - start), (itemText text item, rest.lead) :: rest.parts⟩

def placeFrom : Nat → List (Bytes × Bytes) → List (Nat × Nat)
  | _, [] => []
  | start, part :: parts =>
      (start, start + part.1.length) :: placeFrom (start + part.1.length + part.2.length) parts

def renderParts (parts : List (Bytes × Bytes)) : Bytes := parts.flatMap fun part => part.1 ++ part.2

namespace Interior

def render (interior : Interior) : Bytes := interior.lead ++ renderParts interior.parts

def items (interior : Interior) : List Bytes := interior.parts.map Prod.fst

/-- Without the separators outside the items. -/
def stripped (interior : Interior) : Bytes :=
  strip interior.lead ++ interior.parts.flatMap fun part => part.1 ++ strip part.2

/-- Outside the items there are separators only. -/
def OnlySeparators (interior : Interior) : Prop :=
  strip interior.lead = [] ∧ ∀ part ∈ interior.parts, strip part.2 = []

/-- Whatever ends in a line comment has a newline behind it before the next item or the closer. -/
def CommentsClosed (endsInComment : Bytes → Bool) (interior : Interior) : Prop :=
  ∀ part ∈ interior.parts, endsInComment part.1 = true → newline ∈ part.2

instance (endsInComment : Bytes → Bool) (interior : Interior) :
    Decidable (interior.CommentsClosed endsInComment) :=
  inferInstanceAs (Decidable (∀ part ∈ interior.parts, endsInComment part.1 = true → newline ∈ part.2))

instance (interior : Interior) : Decidable interior.OnlySeparators :=
  inferInstanceAs (Decidable (strip interior.lead = [] ∧ ∀ part ∈ interior.parts, strip part.2 = []))

end Interior

/-- The gaps a policy puts between the items. -/
structure Gaps where
  lead : Bytes
  between : Bytes
  last : Bytes

namespace Gaps

def parts (gaps : Gaps) : List Bytes → List (Bytes × Bytes)
  | [] => []
  | [item] => [(item, gaps.last)]
  | item :: next :: items => (item, gaps.between) :: gaps.parts (next :: items)

def interior (gaps : Gaps) (items : List Bytes) : Interior := ⟨gaps.lead, gaps.parts items⟩

/-- On one line, or on a line each. -/
def ofPolicy (policy : WrapPolicy) (headerIndent : Bytes) (forceTrailingComma : Bool)
    (style : IndentStyle) : Gaps :=
  let itemIndent := headerIndent ++ indentString style.width style
  match policy with
  | .never => ⟨[], [comma, space], []⟩
  | .always =>
      ⟨newline :: itemIndent, comma :: newline :: itemIndent,
        (if forceTrailingComma then [comma] else []) ++ newline :: headerIndent⟩

end Gaps

variable {text before after lead headerIndent : Bytes} {start stop : Nat} {items : List (Nat × Nat)}
  {item : Bytes} {texts : List Bytes} {part : Bytes × Bytes} {parts : List (Bytes × Bytes)}
  {gaps : Gaps} {interior : Interior} {endsInComment : Bytes → Bool}

@[simp] theorem renderParts_nil : renderParts [] = [] := rfl

@[simp] theorem renderParts_cons :
    renderParts (part :: parts) = part.1 ++ (part.2 ++ renderParts parts) := by
  simp [renderParts]

theorem strip_append (x y : Bytes) : strip (x ++ y) = strip x ++ strip y := by
  simp [strip]

theorem substr_append (x y z : Bytes) : substr (x ++ (y ++ z)) x.length y.length = y := by
  simp [substr]

theorem substr_eq_drop (h : start ≤ before.length) :
    substr (before ++ after) start (before.length - start) = before.drop start := by
  simp [substr, List.drop_append_of_le_length h]

/-! ## Where the items are -/

theorem OrderedIn.le (h : OrderedIn start stop items) : start ≤ stop := by
  induction items generalizing start with
  | nil => exact h
  | cons item items ih =>
      obtain ⟨hstart, hitem, hrest⟩ := h
      exact Nat.le_trans hstart (Nat.le_trans hitem (ih hrest))

theorem substr_split {mid : Nat} (hmid : start ≤ mid) (hstop : mid ≤ stop) :
    substr text start (stop - start) = substr text start (mid - start) ++ substr text mid (stop - mid) := by
  have hlength : stop - start = (mid - start) + (stop - mid) := by omega
  simp only [substr]
  rw [hlength, List.take_add, List.drop_drop, Nat.add_sub_of_le hmid]

theorem OrderedIn.render_eq (h : OrderedIn start stop items) :
    (interiorOf text start stop items).render = substr text start (stop - start) := by
  induction items generalizing start with
  | nil => simp [interiorOf, Interior.render]
  | cons item items ih =>
      obtain ⟨hstart, hitem, hrest⟩ := h
      have hih := ih hrest
      simp only [Interior.render] at hih
      simp only [interiorOf, Interior.render, renderParts_cons, itemText]
      rw [hih, ← substr_split hitem hrest.le, ← substr_split hstart (Nat.le_trans hitem hrest.le)]

theorem length_substr (h : stop ≤ text.length) : (substr text start (stop - start)).length = stop - start := by
  simp only [substr, List.length_take, List.length_drop]
  exact Nat.min_eq_left (Nat.sub_le_sub_right h start)

theorem OrderedIn.place_eq (h : OrderedIn start stop items) (hstop : stop ≤ text.length) :
    placeFrom (start + (interiorOf text start stop items).lead.length)
      (interiorOf text start stop items).parts = items := by
  induction items generalizing start with
  | nil => rfl
  | cons item items ih =>
      obtain ⟨hstart, hitem, hrest⟩ := h
      have hend : item.2 ≤ text.length := Nat.le_trans hrest.le hstop
      have hih := ih hrest
      simp only [interiorOf, placeFrom, itemText]
      rw [length_substr hend, length_substr (Nat.le_trans hitem hend), Nat.add_sub_of_le hstart,
        Nat.add_sub_of_le hitem, hih]

theorem interiorOf_place (hstart : start ≤ before.length) :
    interiorOf (before ++ (renderParts parts ++ after)) start
        (before.length + (renderParts parts).length) (placeFrom before.length parts) =
      ⟨before.drop start, parts⟩ := by
  induction parts generalizing before start with
  | nil => simp [interiorOf, placeFrom, substr_eq_drop hstart]
  | cons part parts ih =>
      have htext : before ++ (renderParts (part :: parts) ++ after) =
          (before ++ part.1 ++ part.2) ++ (renderParts parts ++ after) := by
        simp
      have hlength : before.length + (renderParts (part :: parts)).length =
          (before ++ part.1 ++ part.2).length + (renderParts parts).length := by
        simp [Nat.add_assoc]
      have hplace : before.length + part.1.length + part.2.length =
          (before ++ part.1 ++ part.2).length := by
        simp [Nat.add_assoc]
      have hih := @ih (before ++ part.1 ++ part.2) (before.length + part.1.length) (by simp)
      have hdrop : (before ++ part.1 ++ part.2).drop (before.length + part.1.length) = part.2 := by
        rw [← List.length_append, List.drop_left]
      simp only [interiorOf, placeFrom, itemText]
      rw [htext, hlength, hplace, hih, hdrop, List.append_assoc, List.append_assoc,
        substr_eq_drop hstart, Nat.add_sub_cancel_left, substr_append]

theorem stripped_place (hstart : start ≤ before.length) :
    (interiorOf (before ++ (renderParts parts ++ after)) start
        (before ++ (renderParts parts ++ after)).length (placeFrom before.length parts)).stripped =
      strip (before.drop start) ++ (parts.flatMap fun part => part.1 ++ strip part.2) ++ strip after := by
  induction parts generalizing before start with
  | nil =>
      have hdrop : substr (before ++ after) start ((before ++ after).length - start) =
          before.drop start ++ after := by
        rw [substr, List.drop_append_of_le_length hstart, List.take_of_length_le]
        simp only [List.length_append, List.length_drop]
        omega
      simp only [interiorOf, placeFrom, Interior.stripped, renderParts_nil, List.nil_append, hdrop,
        strip_append, List.flatMap_nil, List.append_nil]
  | cons part parts ih =>
      have htext : before ++ (renderParts (part :: parts) ++ after) =
          (before ++ part.1 ++ part.2) ++ (renderParts parts ++ after) := by
        simp
      have hplace : before.length + part.1.length + part.2.length =
          (before ++ part.1 ++ part.2).length := by
        simp [Nat.add_assoc]
      have hdrop : (before ++ part.1 ++ part.2).drop (before.length + part.1.length) = part.2 := by
        rw [← List.length_append, List.drop_left]
      have hih := @ih (before ++ part.1 ++ part.2) (before.length + part.1.length) (by simp)
      simp only [Interior.stripped, hdrop] at hih
      simp only [interiorOf, placeFrom, itemText, Interior.stripped, List.flatMap_cons]
      rw [htext, hplace, List.append_assoc (substr _ _ _), hih, List.append_assoc before,
        List.append_assoc before, substr_eq_drop hstart, Nat.add_sub_cancel_left, List.append_assoc part.1,
        substr_append]
      simp only [List.append_assoc]

theorem Interior.interiorOf_render (interior : Interior) :
    interiorOf (before ++ (interior.render ++ after)) before.length
        (before.length + interior.render.length)
        (placeFrom (before.length + interior.lead.length) interior.parts) = interior := by
  have h := @interiorOf_place (before ++ interior.lead) after before.length interior.parts (by simp)
  simp only [render, List.append_assoc, List.length_append, List.drop_left, Nat.add_assoc] at h ⊢
  exact h

theorem Interior.strippedText_render (interior : Interior) :
    (interiorOf (before ++ (interior.render ++ after)) 0 (before ++ (interior.render ++ after)).length
        (placeFrom (before.length + interior.lead.length) interior.parts)).stripped =
      strip before ++ (interior.stripped ++ strip after) := by
  have h := @stripped_place (before ++ interior.lead) after 0 interior.parts (Nat.zero_le _)
  simp only [render, List.append_assoc, List.length_append, List.drop_zero, strip_append, stripped] at h ⊢
  exact h

theorem interiorOf_items : (interiorOf text start stop items).items = items.map (itemText text) := by
  induction items generalizing start with
  | nil => rfl
  | cons item items ih =>
      have hih := @ih item.2
      simp only [Interior.items] at hih
      simp [interiorOf, Interior.items, hih]

/-! ## Gaps -/

theorem Gaps.parts_items (gaps : Gaps) (texts : List Bytes) : (gaps.parts texts).map Prod.fst = texts := by
  fun_induction gaps.parts texts with
  | case1 => rfl
  | case2 item => rfl
  | case3 item next items ih => simp [ih]

theorem Gaps.mem_parts (h : part ∈ gaps.parts texts) : part.2 = gaps.between ∨ part.2 = gaps.last := by
  fun_induction gaps.parts texts with
  | case1 => cases h
  | case2 item =>
      cases List.mem_singleton.1 h
      exact .inr rfl
  | case3 item next items ih =>
      rcases List.mem_cons.1 h with rfl | h
      · exact .inl rfl
      · exact ih h

theorem Gaps.parts_ne_nil (gaps : Gaps) (h : texts ≠ []) : gaps.parts texts ≠ [] := by
  intro hparts
  have hitems := gaps.parts_items texts
  rw [hparts] at hitems
  exact h hitems.symm

theorem Gaps.length_renderParts {wider : Gaps} (hbetween : gaps.between.length ≤ wider.between.length)
    (hlast : gaps.last.length ≤ wider.last.length) :
    (renderParts (gaps.parts texts)).length ≤ (renderParts (wider.parts texts)).length := by
  fun_induction gaps.parts texts with
  | case1 => exact Nat.zero_le _
  | case2 item => simpa [Gaps.parts] using hlast
  | case3 item next items ih =>
      simp only [Gaps.parts, renderParts_cons, List.length_append]
      omega

theorem Gaps.length_render_always {shallow deep : Bytes} (h : shallow.length < deep.length)
    (forceTrailingComma : Bool) (style : IndentStyle) :
    ((ofPolicy .always shallow forceTrailingComma style).interior texts).render.length <
      ((ofPolicy .always deep forceTrailingComma style).interior texts).render.length := by
  have hparts := @length_renderParts texts (ofPolicy .always shallow forceTrailingComma style)
    (ofPolicy .always deep forceTrailingComma style) (by simpa [ofPolicy] using Nat.le_of_lt h)
    (by simpa [ofPolicy] using Nat.le_of_lt h)
  simp only [Interior.render, interior, List.length_append]
  have hlead : (ofPolicy .always shallow forceTrailingComma style).lead.length <
      (ofPolicy .always deep forceTrailingComma style).lead.length := by
    simpa [ofPolicy] using h
  omega

theorem strip_eq_nil {gap : Bytes} (h : ∀ c ∈ gap, isSeparator c = true) : strip gap = [] := by
  simpa [strip] using h

theorem isSeparator_of_isBlank {c : UInt8} (h : isBlank c = true) : isSeparator c = true := by
  simp only [isBlank, Bool.or_eq_true, beq_iff_eq] at h
  rcases h with rfl | rfl <;> rfl

theorem strip_cons {c : UInt8} (h : isSeparator c = true) (gap : Bytes) : strip (c :: gap) = strip gap := by
  simp [strip, h]

theorem Gaps.onlySeparators {policy : WrapPolicy} (hblank : ∀ c ∈ headerIndent, isBlank c = true)
    (forceTrailingComma : Bool) (style : IndentStyle) :
    ((ofPolicy policy headerIndent forceTrailingComma style).interior texts).OnlySeparators := by
  have hindent : strip headerIndent = [] := strip_eq_nil fun c hc => isSeparator_of_isBlank (hblank c hc)
  have hitem : strip (headerIndent ++ indentString style.width style) = [] := by
    rw [strip_append, hindent, List.nil_append]
    exact strip_eq_nil fun c hc => isSeparator_of_isBlank (isBlank_of_mem_indentString hc)
  have hcomma : isSeparator comma = true := rfl
  have hnewline : isSeparator newline = true := rfl
  cases policy with
  | never =>
      refine ⟨rfl, fun part hpart => ?_⟩
      rcases mem_parts hpart with h | h <;> rw [h] <;> rfl
  | always =>
      constructor
      · simp only [interior, ofPolicy, strip_cons hnewline, hitem]
      · intro part hpart
        rcases mem_parts hpart with h | h
        · simp only [h, ofPolicy, strip_cons hcomma, strip_cons hnewline, hitem]
        · rw [h, ofPolicy, strip_append, strip_cons hnewline, hindent]
          cases forceTrailingComma <;> rfl

theorem Gaps.commentsClosed_never (forceTrailingComma : Bool) (style : IndentStyle) :
    ((ofPolicy .never headerIndent forceTrailingComma style).interior texts).CommentsClosed endsInComment ↔
      ∀ item ∈ texts, endsInComment item = false := by
  have hitems := (ofPolicy .never headerIndent forceTrailingComma style).parts_items texts
  constructor
  · intro h item hitem
    rw [← hitems] at hitem
    obtain ⟨part, hpart, rfl⟩ := List.mem_map.1 hitem
    cases hends : endsInComment part.1 with
    | false => rfl
    | true =>
        have hnewline := h part hpart hends
        rcases mem_parts hpart with hgap | hgap <;> rw [hgap] at hnewline <;>
          exact absurd hnewline (by simp [ofPolicy, newline, comma, space])
  · intro h part hpart hends
    have hmem : part.1 ∈ texts := by
      rw [← hitems]
      exact List.mem_map_of_mem hpart
    rw [h part.1 hmem] at hends
    cases hends

theorem Gaps.commentsClosed_always (forceTrailingComma : Bool) (style : IndentStyle) :
    ((ofPolicy .always headerIndent forceTrailingComma style).interior texts).CommentsClosed
      endsInComment := by
  intro part hpart _
  rcases mem_parts hpart with h | h <;> rw [h] <;> simp [ofPolicy]

theorem strippedParts_eq (h : ∀ part ∈ parts, strip part.2 = []) :
    (parts.flatMap fun part => part.1 ++ strip part.2) = (parts.map Prod.fst).flatten := by
  induction parts with
  | nil => rfl
  | cons part parts ih =>
      have hih := ih fun p hp => h p (List.mem_cons_of_mem _ hp)
      simp [hih, h part List.mem_cons_self]

theorem length_strippedParts (parts : List (Bytes × Bytes)) : (parts.map Prod.fst).flatten.length ≤
    (parts.flatMap fun part => part.1 ++ strip part.2).length := by
  induction parts with
  | nil => exact Nat.le_refl _
  | cons part parts ih =>
      simp only [List.map_cons, List.flatten_cons, List.flatMap_cons, List.length_append]
      omega

theorem gaps_of_length (h : (parts.flatMap fun part => part.1 ++ strip part.2).length =
    (parts.map Prod.fst).flatten.length) : ∀ part ∈ parts, strip part.2 = [] := by
  induction parts with
  | nil => simp
  | cons part parts ih =>
      have hrest := length_strippedParts parts
      simp only [List.map_cons, List.flatten_cons, List.flatMap_cons, List.length_append] at h
      intro p hp
      rcases List.mem_cons.1 hp with rfl | hp
      · exact List.eq_nil_of_length_eq_zero (by omega)
      · exact ih (by omega) p hp

theorem Interior.onlySeparators_iff : interior.OnlySeparators ↔ interior.stripped = interior.items.flatten := by
  constructor
  · rintro ⟨hlead, hparts⟩
    rw [stripped, hlead, strippedParts_eq hparts]
    rfl
  · intro h
    have hrest := length_strippedParts interior.parts
    have hlength := congrArg List.length h
    simp only [stripped, items, List.length_append] at hlength
    exact ⟨List.eq_nil_of_length_eq_zero (by omega), gaps_of_length (by omega)⟩

/-! ## The header -/

theorem lineStartOf_le (text : Bytes) (offset : Nat) : lineStartOf text offset ≤ offset := by
  rw [lineStartOf, List.length_take]
  exact Nat.le_trans (Nat.sub_le _ _) (Nat.min_le_left _ _)

theorem lineStartOf_append {offset : Nat} (h : offset ≤ before.length) :
    lineStartOf (before ++ after) offset = lineStartOf before offset := by
  rw [lineStartOf, List.take_append_of_le_length h, ← lineStartOf]

theorem lineIndentOf_newline {offset : Nat} {rest : Bytes} (h : offset ≤ before.length) :
    lineIndentOf (before ++ newline :: rest) offset =
      (lineIndentOf (before ++ after) offset).take (before.length - lineStartOf before offset) := by
  have hle := Nat.le_trans (lineStartOf_le before offset) h
  have hlength : before.length - lineStartOf before offset =
      (before.drop (lineStartOf before offset)).length := List.length_drop.symm
  rw [lineIndentOf, lineIndentOf, lineStartOf_append h, lineStartOf_append h,
    List.drop_append_of_le_length hle, List.drop_append_of_le_length hle, hlength,
    List.takeWhile_append, List.takeWhile_append]
  split
  · have hnewline : isBlank newline = false := rfl
    simp [hnewline]
  · rw [List.take_of_length_le (List.takeWhile_prefix isBlank).length_le]

/-! ## What the pass writes -/

theorem collapsedInterior_eq (headerIndent : Bytes) (forceTrailingComma : Bool) (style : IndentStyle) :
    collapsedInterior text items =
      ((Gaps.ofPolicy .never headerIndent forceTrailingComma style).interior
        (items.map (itemText text))).render := by
  have hnext : ∀ item items, collapsedFrom text true (item :: items) =
      renderParts ((Gaps.ofPolicy .never headerIndent forceTrailingComma style).parts
        ((item :: items).map (itemText text))) := by
    intro item items
    induction items generalizing item with
    | nil => simp [collapsedFrom, Gaps.parts, Gaps.ofPolicy]
    | cons next items ih =>
        have hih := ih next
        simp only [collapsedFrom, if_true, List.nil_append, List.map_cons] at hih ⊢
        simp only [Gaps.parts, renderParts_cons, ← hih]
        simp [Gaps.ofPolicy]
  cases items with
  | nil => rfl
  | cons item items => exact hnext item items

theorem choppedInterior_eq (hitems : items ≠ []) (headerIndent : Bytes) (forceTrailingComma : Bool)
    (style : IndentStyle) :
    choppedInterior text items headerIndent forceTrailingComma style =
      ((Gaps.ofPolicy .always headerIndent forceTrailingComma style).interior
        (items.map (itemText text))).render := by
  have hnext : ∀ item items itemIndent, itemIndent = headerIndent ++ indentString style.width style →
      choppedFrom text itemIndent forceTrailingComma (item :: items) ++ headerIndent =
      itemIndent ++ renderParts ((Gaps.ofPolicy .always headerIndent forceTrailingComma style).parts
        ((item :: items).map (itemText text))) := by
    intro item items itemIndent hindent
    induction items generalizing item with
    | nil => simp [choppedFrom, Gaps.parts, Gaps.ofPolicy]
    | cons next items ih =>
        have hih := ih next
        rw [choppedFrom]
        simp only [List.append_assoc, List.map_cons] at hih ⊢
        rw [hih]
        simp [Gaps.parts, Gaps.ofPolicy, hindent]
  cases items with
  | nil => exact absurd rfl hitems
  | cons item items =>
      have hfirst := hnext item items _ rfl
      simp only [choppedInterior, Interior.render, Gaps.interior, List.cons_append, hfirst]
      simp [Gaps.ofPolicy]

end Ned.Editor.Format
