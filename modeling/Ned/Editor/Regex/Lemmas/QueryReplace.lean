import Ned.Editor.Regex.QueryReplace
import Ned.Text.Lemmas.Replacing

/-!
# Steps of a query replace

Where the buffer refuses nothing, a replacement puts the new text into the buffer and into the copy alike,
and the search goes on behind it.
-/

namespace Ned.Editor.Regex

open Text RegexPattern
open ExcerptRange (Allows afterReplace)

variable {pattern : RegexPattern} {content : Bytes} {scope : List (Nat × Nat)} {searchCursor : Nat}
  {m : RegexMatch}

/-! ## Searching in scope -/

theorem searchAt_eq : searchAt pattern content searchCursor = pattern.search content searchCursor := by
  rw [searchAt]
  split
  · rfl
  · rename_i hlt
    rw [search, Nat.sub_eq_zero_of_le (by omega)]
    rfl

theorem findInScope_nil :
    findInScope pattern content [] searchCursor = (searchCursor, pattern.search content searchCursor) := by
  rw [findInScope, searchAt_eq]
  split
  · rename_i hnone
    rw [hnone]
  · rename_i m hm
    have hscope : inScope [] m.start m.stop = true := rfl
    rw [hm, if_pos hscope]

theorem exists_of_inScope {start stop : Nat} (hscope : scope ≠ []) (h : inScope scope start stop = true) :
    ∃ range ∈ scope, range.1 ≤ start ∧ stop ≤ range.2 := by
  rw [inScope, Bool.or_eq_true, List.isEmpty_iff] at h
  obtain ⟨range, hmem, hstop⟩ := List.any_eq_true.1 (h.resolve_left hscope)
  exact ⟨range, (List.takeWhile_sublist _).subset hmem, by simpa using List.mem_takeWhile_imp hmem,
    of_decide_eq_true hstop⟩

theorem findInScope_spec (h : (findInScope pattern content scope searchCursor).2 = some m) :
    m.stop ≤ content.length ∧ inScope scope m.start m.stop = true := by
  induction searchCursor using findInScope.induct pattern content scope with
  | case1 cursor hsearch =>
      rw [findInScope] at h
      split at h
      · cases h
      · rename_i m' hm'
        rw [hsearch] at hm'
        cases hm'
  | case2 cursor m' hsearch hscope =>
      rw [findInScope] at h
      split at h
      · rename_i hnone
        rw [hsearch] at hnone
        cases hnone
      · rename_i found hfound
        obtain rfl := Option.some.inj (hsearch.symm.trans hfound)
        rw [if_pos hscope] at h
        obtain rfl := Option.some.inj h
        exact ⟨(start_le_of_searchAt hsearch).2, hscope⟩
  | case3 cursor m' hsearch hscope hresume =>
      rw [findInScope] at h
      split at h
      · cases h
      · rename_i found hfound
        obtain rfl := Option.some.inj (hsearch.symm.trans hfound)
        rw [if_neg hscope] at h
        split at h
        · cases h
        · rename_i resume hsome
          rw [hresume] at hsome
          cases hsome
  | case4 cursor m' hsearch hscope resume hresume ih =>
      rw [findInScope] at h
      split at h
      · cases h
      · rename_i found hfound
        obtain rfl := Option.some.inj (hsearch.symm.trans hfound)
        rw [if_neg hscope] at h
        split at h
        · cases h
        · rename_i resume' hsome
          obtain rfl := Option.some.inj (hresume.symm.trans hsome)
          exact ih h

namespace QueryReplace

variable {p : Platform} {s : QueryReplace}

theorem mem_scopeRanges {range : Nat × Nat} (h : range ∈ s.scopeRanges) :
    ∃ excerpt ∈ s.buffer.excerptRanges, excerpt.editable = true ∧ excerpt.start < excerpt.stop ∧
      range = (excerpt.start, excerpt.stop) := by
  rw [scopeRanges] at h
  split at h
  · cases h
  · obtain ⟨excerpt, hmem, rfl⟩ := List.mem_map.1 (List.mem_mergeSort.1 h)
    obtain ⟨hmem, hholds⟩ := List.mem_filter.1 hmem
    rw [Bool.and_eq_true, decide_eq_true_eq] at hholds
    exact ⟨excerpt, hmem, hholds.1, hholds.2, rfl⟩

theorem scopeRanges_eq_nil_iff (hscope : s.scopeToExcerptBodies = true) (hhuge : s.huge = false) :
    s.scopeRanges = [] ↔
      ∀ excerpt ∈ s.buffer.excerptRanges, excerpt.editable = true → excerpt.stop ≤ excerpt.start := by
  rw [scopeRanges, hscope, hhuge, if_neg (by simp), ← List.length_eq_zero_iff, List.length_mergeSort,
    List.length_map, List.length_eq_zero_iff, List.filter_eq_nil_iff]
  simp

theorem scopeRanges_of_whole (h : s.buffer.excerptRanges = []) : s.scopeRanges = [] := by
  rw [scopeRanges, h]
  split
  · rfl
  · exact List.mergeSort_nil

/-! ## Offering -/

/-- The session with a match of its copy, and the text that is to replace it. -/
def offered (s : QueryReplace) (m : RegexMatch) (text : Bytes) : QueryReplace :=
  { s with hasMatch := true, matchStart := m.start, matchEnd := m.stop, matchFormattedReplacement := text }

theorem offer_eq {text : Bytes}
    (h : s.pattern.formatReplacement s.content m s.replacementText = some text) :
    s.offer s.content m 0 = { session := s.offered m text } := by
  rw [offer]
  simp only [h, Nat.zero_add]
  rfl

theorem offer_threw (h : s.pattern.formatReplacement s.content m s.replacementText = none) :
    (s.offer s.content m 0).threw = true := by
  rw [offer]
  simp only [h]

theorem findNextMatch_of_whole (hsmall : s.huge = false) (hwhole : s.buffer.excerptRanges = []) :
    s.findNextMatch =
      match s.pattern.search s.content s.searchCursor with
      | none => s.finished
      | some m => s.offer s.content m 0 := by
  rw [findNextMatch, if_neg (by simp [hsmall]), scopeRanges_of_whole hwhole]
  have hscan : findInScope s.pattern s.content [] s.searchCursor =
      (s.searchCursor, s.pattern.search s.content s.searchCursor) := findInScope_nil
  generalize findInScope s.pattern s.content [] s.searchCursor = scanned at hscan ⊢
  subst hscan
  cases s.pattern.search s.content s.searchCursor with
  | none => rfl
  | some m => rfl

/-! ## Replacing -/

def replaced (s : QueryReplace) (buffer : Buffer) : QueryReplace :=
  let s := { s with
    buffer := buffer
    content := s.content.take s.matchStart ++ s.matchFormattedReplacement ++ s.content.drop s.matchEnd
    replacementCount := s.replacementCount + 1
    searchCursor := s.matchStart + s.matchFormattedReplacement.length }
  if s.matchStart = s.matchEnd ∧ s.matchFormattedReplacement = [] then
    { s with searchCursor := s.stepFrom s.searchCursor }
  else s

section Replaced

variable (s) (buffer : Buffer)

@[simp] theorem replaced_buffer : (s.replaced buffer).buffer = buffer := by
  simp only [replaced]
  split <;> rfl

@[simp] theorem replaced_pattern : (s.replaced buffer).pattern = s.pattern := by
  simp only [replaced]
  split <;> rfl

@[simp] theorem replaced_replacementText :
    (s.replaced buffer).replacementText = s.replacementText := by
  simp only [replaced]
  split <;> rfl

@[simp] theorem replaced_stage : (s.replaced buffer).stage = s.stage := by
  simp only [replaced]
  split <;> rfl

@[simp] theorem replaced_huge : (s.replaced buffer).huge = s.huge := by
  simp only [replaced]
  split <;> rfl

@[simp] theorem replaced_replacementCount :
    (s.replaced buffer).replacementCount = s.replacementCount + 1 := by
  simp only [replaced]
  split <;> rfl

@[simp] theorem replaced_scopeToExcerptBodies :
    (s.replaced buffer).scopeToExcerptBodies = s.scopeToExcerptBodies := by
  simp only [replaced]
  split <;> rfl

theorem replaced_content : (s.replaced buffer).content =
    s.content.take s.matchStart ++ s.matchFormattedReplacement ++ s.content.drop s.matchEnd := by
  simp only [replaced]
  split <;> rfl

end Replaced

structure Offers (s : QueryReplace) : Prop where
  confirming : s.stage = .confirming
  hasMatch : s.hasMatch = true
  small : s.huge = false
  content : s.content = s.buffer.storage.bytes
  ordered : s.matchStart ≤ s.matchEnd
  within : s.matchEnd ≤ s.content.length
  recorded : s.buffer.undoTree.currentNode.isSome

namespace Offers

variable (h : Offers s)

include h

theorem replaceAndNext_readOnly (hreadOnly : s.buffer.readOnly = true) :
    s.replaceAndNext p = some { session := s, threw := true } := by
  rw [replaceAndNext, if_neg (by simp [h.confirming, h.hasMatch]), Buffer.deleteRange_readOnly hreadOnly]
  rfl

variable (hwritable : s.buffer.readOnly = false)
  (hallows : Allows s.buffer.excerptRanges s.matchStart s.matchEnd)

include hwritable hallows

variable (p) in
theorem deleteRange_became : ∃ b deleted,
    s.buffer.deleteRange p s.matchStart (s.matchEnd - s.matchStart) = some (.ok (b, deleted)) ∧
      s.matchStart ≤ b.storage.byteLength ∧ Allows b.excerptRanges s.matchStart s.matchStart ∧
      s.buffer.Became b (eraseAt s.content s.matchStart (s.matchEnd - s.matchStart))
        (ExcerptRange.afterDelete s.buffer.excerptRanges s.matchStart s.matchEnd) := by
  have hstop : s.matchStart + (s.matchEnd - s.matchStart) = s.matchEnd := Nat.add_sub_of_le h.ordered
  have hwithin := h.within
  rw [h.content] at hwithin ⊢
  obtain ⟨b, deleted, hb, hbecame⟩ := @Buffer.deleteRange_became p s.buffer s.matchStart
    (s.matchEnd - s.matchStart) h.recorded hwritable (hstop.symm ▸ hwithin) (hstop.symm ▸ hallows)
  rw [hstop] at hbecame
  refine ⟨b, deleted, hb, ?_, ?_, hbecame⟩
  · rw [hbecame.storage, Storage.byteLength, eraseAt, List.length_append,
      List.length_take_of_le (Nat.le_trans h.ordered hwithin)]
    exact Nat.le_add_right _ _
  · rw [hbecame.excerptRanges]
    exact hallows.afterDelete h.ordered

theorem replaceAndNext_eq_none
    (hbuilds : s.buffer.storage.inserted 0 s.matchFormattedReplacement = none) :
    s.replaceAndNext p = none := by
  obtain ⟨b, deleted, hdelete, hstart, hallowed, hbecame⟩ := h.deleteRange_became p hwritable hallows
  have hfails : b.storage.inserted 0 s.matchFormattedReplacement = none := by
    apply Option.not_isSome_iff_eq_none.1
    intro hsome
    have hback := Buffer.inserted_of_isSome hsome s.buffer.storage.bytes 0
    rw [hbecame.storage] at hback
    rw [show ({ s.buffer.storage with bytes := s.buffer.storage.bytes } : Storage) = s.buffer.storage
      from rfl, hbuilds] at hback
    cases hback
  have hnone : b.insertAt p s.matchStart s.matchFormattedReplacement = none :=
    Buffer.insertAt_eq_none (hbecame.readOnly.trans hwritable) hstart hallowed hfails
  rw [replaceAndNext, if_neg (by simp [h.confirming, h.hasMatch]), hdelete]
  simp only [Option.bind_eq_bind, Option.bind_some, hnone, Option.bind_none]

variable (p)

theorem replaceAndNext_eq
    (hbuilds : (s.buffer.storage.inserted 0 s.matchFormattedReplacement).isSome) :
    ∃ b, s.replaceAndNext p = some (s.replaced b).findNextMatch ∧
      s.buffer.Became b (s.replaced b).content
        (afterReplace s.buffer.excerptRanges s.matchStart s.matchEnd
          s.matchFormattedReplacement.length) := by
  obtain ⟨b₁, deleted, hdelete, hstart, hallowed, hbecame⟩ :=
    h.deleteRange_became p hwritable hallows
  have hbuilds₁ : (b₁.storage.inserted 0 s.matchFormattedReplacement).isSome := by
    rw [hbecame.storage, Buffer.inserted_of_isSome hbuilds]
    rfl
  obtain ⟨b, hinsert, hbecame'⟩ := Buffer.insertAt_became p hbecame.recorded
    (hbecame.readOnly.trans hwritable) hstart hallowed hbuilds₁
  have htake : (s.content.take s.matchStart).length = s.matchStart :=
    List.length_take_of_le (Nat.le_trans h.ordered h.within)
  have hbytes : Text.insertAt b₁.storage.bytes s.matchStart s.matchFormattedReplacement =
      s.content.take s.matchStart ++ s.matchFormattedReplacement ++ s.content.drop s.matchEnd := by
    rw [hbecame.storage, eraseAt, Text.insertAt, Nat.add_sub_of_le h.ordered, List.take_left' htake,
      List.drop_left' htake]
  have hall := hbecame.trans hbecame'
  rw [hbytes, hbecame.excerptRanges] at hall
  refine ⟨b, ?_, ?_⟩
  · rw [replaceAndNext, if_neg (by simp [h.confirming, h.hasMatch]), hdelete]
    simp only [Option.bind_eq_bind, Option.bind_some, hinsert, h.small, Bool.false_eq_true, if_false,
      replaced, Bool.and_eq_true, beq_iff_eq, List.isEmpty_iff]
  · rw [replaced_content]
    exact hall

end Offers

end QueryReplace

end Ned.Editor.Regex
