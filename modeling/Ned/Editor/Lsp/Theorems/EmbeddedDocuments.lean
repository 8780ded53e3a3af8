import Ned.Library.Fallible
import Ned.Editor.Lsp.Lemmas.EmbeddedDocuments
import Mathlib.Data.List.Induction
import Mathlib.Data.List.Nodup

/-!
# Positions in embedded documents

Each document owns the union of its language's regions, and every boundary of the host has the host's position
in it.
-/

namespace Ned.Editor.Lsp

open Text Library

/-! ## Grouping -/

/-- The ranges of one language, in the order of the regions. -/
def rangesOf (language : Bytes) (regions : List InjectionRegion) : List (Nat × Nat) :=
  (regions.filter (·.language = language)).map fun region => (region.startByte, region.endByte)

theorem mem_rangesOf {language : Bytes} {regions : List InjectionRegion} {range : Nat × Nat} :
    range ∈ rangesOf language regions ↔
      ∃ region ∈ regions, region.language = language ∧ (region.startByte, region.endByte) = range := by
  simp [rangesOf, and_assoc]

theorem emplaceBack_languages (region : InjectionRegion) (byLanguage : List (Bytes × List (Nat × Nat))) :
    (emplaceBack region byLanguage).map Prod.fst =
      if region.language ∈ byLanguage.map Prod.fst then byLanguage.map Prod.fst
      else byLanguage.map Prod.fst ++ [region.language] := by
  induction byLanguage with
  | nil => rfl
  | cons group byLanguage ih =>
      obtain ⟨language, ranges⟩ := group
      rw [emplaceBack]
      by_cases heq : language = region.language
      · simp [heq]
      · have hne : region.language ≠ language := fun h => heq h.symm
        rw [if_neg heq, List.map_cons, ih]
        simp only [List.map_cons, List.mem_cons, hne, false_or]
        split
        · rfl
        · rfl

theorem mem_emplaceBack {region : InjectionRegion} {byLanguage : List (Bytes × List (Nat × Nat))}
    {regions : List InjectionRegion} (hnodup : (byLanguage.map Prod.fst).Nodup)
    (hgroups : ∀ group ∈ byLanguage, group.2 = rangesOf group.1 regions)
    (hmissing : region.language ∉ byLanguage.map Prod.fst → rangesOf region.language regions = []) :
    ∀ group ∈ emplaceBack region byLanguage, group.2 = rangesOf group.1 (regions ++ [region]) := by
  have hsnoc (language : Bytes) : rangesOf language (regions ++ [region]) = rangesOf language regions ++
      if region.language = language then [(region.startByte, region.endByte)] else [] := by
    rw [rangesOf, List.filter_append, List.map_append, rangesOf]
    by_cases heq : region.language = language
    · simp [heq]
    · simp [heq]
  induction byLanguage with
  | nil =>
      intro group hgroup
      rw [List.mem_singleton.1 hgroup, hsnoc, hmissing List.not_mem_nil, if_pos rfl]
      rfl
  | cons head byLanguage ih =>
      obtain ⟨language, ranges⟩ := head
      obtain ⟨hnew, htail⟩ := List.nodup_cons.1 hnodup
      have hhead : ranges = rangesOf language regions := hgroups _ List.mem_cons_self
      have hrest : ∀ group ∈ byLanguage, group.2 = rangesOf group.1 regions := fun group hgroup =>
        hgroups group (List.mem_cons_of_mem _ hgroup)
      rw [emplaceBack]
      by_cases heq : language = region.language
      · rw [if_pos heq]
        intro group hgroup
        rcases List.mem_cons.1 hgroup with rfl | hgroup
        · rw [hsnoc, if_pos heq.symm, ← hhead]
        · have hother : region.language ≠ group.1 := by
            intro h
            apply hnew
            rw [heq, h]
            exact List.mem_map.2 ⟨group, hgroup, rfl⟩
          rw [hsnoc, if_neg hother, List.append_nil]
          exact hrest group hgroup
      · rw [if_neg heq]
        intro group hgroup
        rcases List.mem_cons.1 hgroup with rfl | hgroup
        · have hother : region.language ≠ language := fun h => heq h.symm
          rw [hsnoc, if_neg hother, List.append_nil]
          exact hhead
        · apply ih htail hrest ?_ group hgroup
          intro hnot
          apply hmissing
          intro hmem
          rcases List.mem_cons.1 hmem with hmem | hmem
          · exact heq hmem.symm
          · exact hnot hmem

theorem grouped (regions : List InjectionRegion) :
    let byLanguage := regions.foldl (fun byLanguage region => emplaceBack region byLanguage) []
    (byLanguage.map Prod.fst).Nodup ∧ (∀ group ∈ byLanguage, group.2 = rangesOf group.1 regions) ∧
      ∀ region ∈ regions, region.language ∈ byLanguage.map Prod.fst := by
  induction regions using List.reverseRecOn with
  | nil =>
      refine ⟨.nil, ?_, ?_⟩
      · intro group hgroup
        cases hgroup
      · intro region hregion
        cases hregion
  | append_singleton regions region ih =>
      obtain ⟨hnodup, hgroups, hall⟩ := ih
      rw [List.foldl_append]
      simp only [List.foldl_cons, List.foldl_nil]
      refine ⟨?_, ?_, ?_⟩
      · rw [emplaceBack_languages]
        split
        · exact hnodup
        next hnot =>
          apply hnodup.append (List.nodup_singleton _)
          rw [List.disjoint_singleton]
          exact hnot
      · apply mem_emplaceBack hnodup hgroups
        intro hmissing
        apply List.eq_nil_iff_forall_not_mem.2
        intro range hrange
        obtain ⟨region', hregion', hlanguage, -⟩ := mem_rangesOf.1 hrange
        exact hmissing (hlanguage ▸ hall region' hregion')
      · intro region' hregion'
        rw [emplaceBack_languages]
        rcases List.mem_append.1 hregion' with hregion' | hregion'
        · split
          · exact hall region' hregion'
          · exact List.mem_append_left _ (hall region' hregion')
        · rw [List.mem_singleton.1 hregion']
          split
          next hmem => exact hmem
          · exact List.mem_append_right _ (List.mem_singleton_self _)

theorem pairwise_insertionSort_rangeLe (ranges : List (Nat × Nat)) :
    (ranges.insertionSort RangeLe).Pairwise fun a b => a.1 ≤ b.1 := by
  have htotal : Std.Total RangeLe := ⟨fun a b => by simp only [RangeLe]; omega⟩
  have htrans : IsTrans (Nat × Nat) RangeLe := ⟨fun a b c => by simp only [RangeLe]; omega⟩
  refine (List.pairwise_insertionSort RangeLe ranges).imp ?_
  intro a b hle
  rcases hle with hlt | ⟨heq, -⟩
  · exact Nat.le_of_lt hlt
  · exact Nat.le_of_eq heq

/-- The ranges of a language are separated, and hold what its regions hold. -/
theorem groupRangesByLanguage_spec {regions : List InjectionRegion} {group : Bytes × List (Nat × Nat)}
    (h : group ∈ groupRangesByLanguage regions) : Apart group.2 ∧ ∀ i, Within group.2 i ↔
      ∃ region ∈ regions, region.language = group.1 ∧ region.startByte ≤ i ∧ i < region.endByte := by
  obtain ⟨⟨language, ranges⟩, hmem, rfl⟩ := List.mem_map.1 h
  have hranges : ranges = rangesOf language regions := (grouped regions).2.1 _ hmem
  obtain ⟨hapart, hwithin⟩ := mergeTouching_spec (pairwise_insertionSort_rangeLe ranges)
  refine ⟨hapart, ?_⟩
  intro i
  rw [hwithin i]
  constructor
  · rintro ⟨range, hrange, hlow, hhigh⟩
    rw [List.mem_insertionSort, hranges] at hrange
    obtain ⟨region, hregion, hlanguage, rfl⟩ := mem_rangesOf.1 hrange
    exact ⟨region, hregion, hlanguage, hlow, hhigh⟩
  · rintro ⟨region, hregion, hlanguage, hlow, hhigh⟩
    refine ⟨(region.startByte, region.endByte), ?_, hlow, hhigh⟩
    rw [List.mem_insertionSort, hranges]
    exact mem_rangesOf.2 ⟨region, hregion, hlanguage, rfl⟩

theorem byteInRanges_iff {ranges : List (Nat × Nat)} (h : Apart ranges) (offset : Nat) :
    byteInRanges offset ranges = true ↔ Within ranges offset := by
  rw [h.within_iff, byteInRanges]
  cases (ranges.takeWhile fun range => decide (range.1 ≤ offset)).getLast? with
  | none => simp
  | some previous => simp

/-! ## Documents -/

/-- What a document of a host has to be. -/
structure EmbeddedIn (host : Bytes) (regions : List InjectionRegion) (document : EmbeddedDocument) : Prop where
  length_eq : document.documentText.length = host.length
  owned : ∀ i : Nat, Within document.ownedRanges i → document.documentText[i]? = host[i]?
  newlines : ∀ i : Nat, host[i]? = some newline → document.documentText[i]? = some newline
  apart : Apart document.ownedRanges
  covered : ∀ i, Within document.ownedRanges i ↔
    ∃ region ∈ regions, region.language = document.language ∧ region.startByte ≤ i ∧ i < region.endByte
  position : ∀ o huge huge', CodepointBoundary ⟨host, huge⟩ o → ∃ position,
    bytePositionToLsp ⟨host, huge⟩ o = some position ∧
      bytePositionToLsp ⟨document.documentText, huge'⟩ o = some position

theorem exists_embedded {host : Bytes} {huge : Bool} {regions : List InjectionRegion}
    {group : Bytes × List (Nat × Nat)} {document : EmbeddedDocument} (hgroup : group ∈ groupRangesByLanguage regions)
    (hends : ∀ region ∈ regions, CodepointBoundary ⟨host, false⟩ region.startByte ∧
      CodepointBoundary ⟨host, false⟩ region.endByte)
    (h : ((padFrom ⟨host, huge⟩ group.2 (host.length + 1) 0).bind fun documentText =>
      some { language := group.1, documentText := documentText, ownedRanges := group.2 }) = some document) :
    EmbeddedIn host regions document := by
  obtain ⟨documentText, hpadded, h⟩ := Option.bind_eq_some_iff.1 h
  cases h
  obtain ⟨hapart, hcovered⟩ := groupRangesByLanguage_spec hgroup
  have hshadows := shadows_of_padFrom hpadded
  constructor
  case length_eq => exact hshadows.length_eq
  case owned =>
    intro i hi
    obtain ⟨region, hregion, hlanguage, hlow, hhigh⟩ := (hcovered i).1 hi
    apply hshadows.getElem?_owned (hends region hregion).1.between.2 ?_ hlow hhigh
    intro k hklow hkhigh
    rw [byteInRanges_iff hapart]
    exact (hcovered k).2 ⟨region, hregion, hlanguage, hklow, hkhigh⟩
  case newlines => exact fun i hi => hshadows.getElem?_newline.2 hi
  case apart => exact hapart
  case covered => exact hcovered
  case position => exact fun o huge huge' hboundary => hshadows.bytePositionToLsp_eq hboundary

/-- `BuildInjectedDocuments` returns unless the rope of the host is never built, and every document that it returns
keeps all positions. -/
theorem injected_documents (regions : List InjectionRegion) (bufferText : Bytes)
    (hends : ∀ region ∈ regions, CodepointBoundary ⟨bufferText, false⟩ region.startByte ∧
      CodepointBoundary ⟨bufferText, false⟩ region.endByte) :
    ((buildInjectedDocuments regions bufferText).isSome = true ↔
      regions = [] ∨ (Storage.ofText bufferText).isSome = true) ∧
    ∀ documents, buildInjectedDocuments regions bufferText = some documents →
      ∀ document ∈ documents, EmbeddedIn bufferText regions document := by
  rw [buildInjectedDocuments]
  cases regions with
  | nil =>
      simp only [List.isEmpty_nil, if_true]
      refine ⟨iff_of_true rfl (.inl trivial), ?_⟩
      intro documents hdocuments document hdocument
      cases hdocuments
      cases hdocument
  | cons region regions =>
      rw [List.isEmpty_cons, if_neg Bool.false_ne_true]
      cases hrope : Storage.ofText bufferText with
      | none =>
          refine ⟨?_, ?_⟩
          · simp
          · intro documents hdocuments
            cases hdocuments
      | some hostRope =>
          obtain rfl : hostRope = ⟨bufferText, false⟩ := by
            obtain ⟨rope, -, h⟩ := Option.bind_eq_some_iff.1 hrope
            exact (Option.some.inj h).symm
          constructor
          · refine iff_of_true ?_ (.inr rfl)
            apply isSome_mapM
            intro group hgroup
            obtain ⟨documentText, hpadded⟩ :=
              @padFrom_total bufferText group.2 0 (bufferText.length + 1) false (Nat.lt_succ_self _)
            rw [hpadded]
            rfl
          · intro documents hdocuments document hdocument
            obtain ⟨group, hgroup, h⟩ := exists_of_mem_mapM hdocuments hdocument
            exact exists_embedded hgroup hends h

/-- A letter that is owned between one that is not and a lone continuation byte. -/
theorem injected_documents_letter : ∃ document, buildInjectedDocuments [⟨1, 2, [106, 115]⟩] [60, 97, 0x80] =
    some [document] ∧ EmbeddedIn [60, 97, 0x80] [⟨1, 2, [106, 115]⟩] document := by
  have hfirst : CodepointBoundary ⟨[60, 97, 0x80], false⟩ 1 := .next .start (by decide)
  have hsecond : CodepointBoundary ⟨[60, 97, 0x80], false⟩ 2 := .next hfirst (by decide)
  have hends : ∀ region ∈ [(⟨1, 2, [106, 115]⟩ : InjectionRegion)],
      CodepointBoundary ⟨[60, 97, 0x80], false⟩ region.startByte ∧
        CodepointBoundary ⟨[60, 97, 0x80], false⟩ region.endByte := by
    intro region hregion
    rw [List.mem_singleton.1 hregion]
    exact ⟨hfirst, hsecond⟩
  have hbuilt : buildInjectedDocuments [⟨1, 2, [106, 115]⟩] [60, 97, 0x80] =
      some [{ language := [106, 115], documentText := [32, 97, 32], ownedRanges := [(1, 2)] }] := by decide
  exact ⟨_, hbuilt, (injected_documents _ _ hends).2 _ hbuilt _ (List.mem_singleton_self _)⟩

end Ned.Editor.Lsp
