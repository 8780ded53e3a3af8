import Ned.Editor.Refactoring.Lemmas.ChangeSignature

/-!
# Theorems about changing a signature

A call that is rewritten means what it meant.
-/

namespace Ned.Editor.Refactoring

open Library (bind_eq_ok mapM_eq_ok getElem?_of_forall₂)
open Text (Bytes)

variable {oldText newText callText separator text : Bytes}
  {oldParams newParams : List SignatureParameter} {parameter : SignatureParameter}
  {oldArgs : List CallArgument} {mapping : MappingResult} {receiver : CallReceiver} {curried : Bool}
  {filled : Nat}

/-! ## Places -/

theorem positionalNames_length (text : Bytes) (params : List SignatureParameter) :
    (positionalNames text params).length = (positionalParameters params).length :=
  List.length_map _

theorem Maps.nodup (h : Maps oldText oldParams newText newParams mapping) :
    (positionalNames newText newParams).Nodup := by
  obtain ⟨seen, hmapped, -⟩ := h.origins
  exact (List.filter_sublist.map _).nodup hmapped.nodup

/-- Where a new positional parameter comes from. -/
theorem Maps.origin (h : Maps oldText oldParams newText newParams mapping) {place : Nat}
    (hparameter : (positionalParameters newParams)[place]? = some parameter) :
    ∃ origin, mapping.origins[place]? = some origin ∧
      Origin newText (oldIndexByName (positionalNames oldText oldParams)) parameter origin := by
  obtain ⟨seen, hmapped, -⟩ := h.origins
  exact getElem?_of_forall₂ hmapped.origins hparameter

theorem Maps.origins_length (h : Maps oldText oldParams newText newParams mapping) :
    mapping.origins.length = (positionalNames newText newParams).length := by
  obtain ⟨seen, hmapped, -⟩ := h.origins
  rw [positionalNames_length]
  exact hmapped.origins.length_eq.symm

theorem Maps.object (h : Maps oldText oldParams newText newParams mapping)
    (hfilled : filled ≤ mapping.receivers.length ∨
      filled = 1 ∧ mapping.oldArity ≠ 0 ∧ mapping.origins.head? = some (.kept 0)) :
    filled ≤ (positionalNames oldText oldParams).length ∧ ∀ place < filled,
      (positionalNames newText newParams)[place]? =
        (positionalNames oldText oldParams)[place]? := by
  rcases hfilled with hle | ⟨rfl, harity, hhead⟩
  · constructor
    · rw [positionalNames_length]
      refine Nat.le_trans hle ?_
      rw [h.receivers]
      exact leadingReceivers_length_le _
    · intro place hplace
      have hlt := Nat.lt_of_lt_of_le hplace hle
      obtain ⟨old, new, hold, hnew, -, hsame⟩ := h.unmoved place hlt
      have hleads : (positionalParameters newParams)[place]? = newParams[place]? := by
        refine positionalParameters_getElem? (fun place hplace => ?_) place hlt
        obtain ⟨-, new, -, hnew, hkeyword, -⟩ := h.unmoved place hplace
        exact ⟨new, hnew, hkeyword⟩
      simp [positionalNames, hleads, hnew, hold, hsame]
  · rw [h.oldArity] at harity
    refine ⟨positionalNames_length _ _ ▸ Nat.pos_of_ne_zero harity, fun place hplace => ?_⟩
    obtain rfl := Nat.lt_one_iff.1 hplace
    rw [List.head?_eq_getElem?] at hhead
    have hin : 0 < (positionalNames newText newParams).length := by
      rw [← h.origins_length]
      exact (List.getElem?_eq_some_iff.1 hhead).1
    rw [positionalNames_length] at hin
    have hparameter := List.getElem?_eq_getElem hin
    obtain ⟨origin, horigin, hfrom⟩ := h.origin hparameter
    cases horigin.symm.trans hhead
    have honly := (lookup_oldIndexByName _ _ _).1 hfrom.lookup
    rw [honly.1, positionalNames, List.getElem?_map, hparameter, Option.map_some]

theorem Maps.filled_le (h : Maps oldText oldParams newText newParams mapping)
    (hobject : ∀ place < filled, (positionalNames newText newParams)[place]? =
      (positionalNames oldText oldParams)[place]?) {place oldPlace : Nat} (hplace : filled ≤ place)
    (hparameter : (positionalParameters newParams)[place]? = some parameter)
    (honly : OnlyAt (positionalNames oldText oldParams) (parameterName newText parameter) oldPlace) :
    filled ≤ oldPlace := by
  refine Nat.le_of_not_lt fun hlt => ?_
  have hnew : (positionalNames newText newParams)[place]? = some (parameterName newText parameter) := by
    rw [positionalNames, List.getElem?_map, hparameter]
    rfl
  have hold := (hobject oldPlace hlt).trans honly.1
  have hin := (List.getElem?_eq_some_iff.1 hold).1
  have heq := (List.getElem?_inj hin h.nodup).1 (hold.trans hnew.symm)
  exact Nat.lt_irrefl _ (Nat.lt_of_lt_of_le (heq ▸ hlt) hplace)

/-! ## Arguments -/

theorem Maps.named (h : Maps oldText oldParams newText newParams mapping)
    (hnamed : ∀ argument ∈ namedTexts callText oldArgs,
      argument.1 ∈ mapping.droppedKeywords ∨ argument.1 ∈ mapping.keptKeywords) :
    (namedTexts callText oldArgs).filter (·.1 ∉ mapping.droppedKeywords) =
      (namedTexts callText oldArgs).filter fun argument =>
        argument.1 ∈ keywordNames oldText oldParams &&
          argument.1 ∈ keywordNames newText newParams := by
  obtain ⟨seen, hmapped, hdropped⟩ := h.origins
  have hseen : ∀ name ∈ keywordNames newText newParams, name ∈ seen := by
    intro name hname
    refine (hmapped.seen_iff name).2 (Or.inr ?_)
    exact (List.filter_sublist.map _).subset hname
  refine List.filter_congr fun argument hargument => ?_
  rcases hnamed argument hargument with hgone | hkept
  · have hnot : argument.1 ∉ keywordNames newText newParams := by
      intro hname
      rw [hdropped] at hgone
      exact of_decide_eq_true (List.mem_filter.1 hgone).2 (hseen _ hname)
    simp [hgone, hnot]
  · obtain ⟨hold, hnew⟩ := (hmapped.kept_iff _).1 hkept
    have hstays : argument.1 ∉ mapping.droppedKeywords := by
      rw [hdropped]
      intro hgone
      exact of_decide_eq_true (List.mem_filter.1 hgone).2 (hseen _ hnew)
    simp [hstays, hold, hnew]

/-- A new positional parameter that no old one is kept for. -/
def IsNew (oldText : Bytes) (oldParams : List SignatureParameter) (newText : Bytes)
    (parameter : SignatureParameter) : Prop :=
  ∀ oldPlace,
    ¬ OnlyAt (positionalNames oldText oldParams) (parameterName newText parameter) oldPlace

/-- What one positional parameter is passed. -/
structure Passed (oldText : Bytes) (oldParams : List SignatureParameter) (newText callText : Bytes)
    (oldArgs : List CallArgument) (filled : Nat) (parameter : SignatureParameter) (piece : Bytes) :
    Prop where
  kept : ∀ oldPlace,
    OnlyAt (positionalNames oldText oldParams) (parameterName newText parameter) oldPlace →
      filled ≤ oldPlace ∧
        argumentAt (positionalTexts callText oldArgs) filled oldPlace = some piece
  new : IsNew oldText oldParams newText parameter →
    parameter.hasDefaultValue = true ∧ piece = labelledDefault newText parameter

theorem OnlyAt.eq {names : List Bytes} {name : Bytes} {place other : Nat}
    (h : OnlyAt names name place) (hother : OnlyAt names name other) : other = place :=
  h.2 other hother.1

/-- The piece made from a parameter's origin is what the parameter should be passed. -/
theorem Maps.passed (h : Maps oldText oldParams newText newParams mapping)
    (hobject : ∀ place < filled, (positionalNames newText newParams)[place]? =
      (positionalNames oldText oldParams)[place]?) {place : Nat} (hplace : filled ≤ place)
    (hparameter : (positionalParameters newParams)[place]? = some parameter) {origin : ParamOrigin}
    (horigin : Origin newText (oldIndexByName (positionalNames oldText oldParams)) parameter origin)
    {piece : Bytes} (hpiece : originPiece callText newText (oldArgs.filter (·.positional)) filled
      origin = .ok piece) :
    Passed oldText oldParams newText callText oldArgs filled parameter piece := by
  cases horigin with
  | kept hindex =>
      have honly := (lookup_oldIndexByName _ _ _).1 hindex
      have hle := h.filled_le hobject hplace hparameter honly
      constructor
      · intro oldPlace hat
        cases honly.eq hat
        refine ⟨hle, ?_⟩
        rw [argumentAt, if_pos hle]
        exact originPiece_kept hle hpiece
      · intro hnew
        exact absurd honly (hnew _)
  | new hnone hdefault =>
      constructor
      · intro oldPlace hat
        cases hnone.symm.trans ((lookup_oldIndexByName _ _ _).2 hat)
      · intro _
        exact ⟨hdefault, originPiece_new hpiece⟩

theorem exists_onlyAt_or_isNew (oldText : Bytes) (oldParams : List SignatureParameter)
    (newText : Bytes) (parameter : SignatureParameter) :
    (∃ oldPlace, OnlyAt (positionalNames oldText oldParams) (parameterName newText parameter)
      oldPlace) ∨ IsNew oldText oldParams newText parameter := by
  by_cases h : ∃ oldPlace,
      OnlyAt (positionalNames oldText oldParams) (parameterName newText parameter) oldPlace
  · exact Or.inl h
  · exact Or.inr fun oldPlace hat => h ⟨oldPlace, hat⟩

theorem Passed.ne_nil {piece : Bytes}
    (h : Passed oldText oldParams newText callText oldArgs filled parameter piece)
    (hargs : ∀ argument ∈ oldArgs, argumentText callText argument ≠ [])
    (hdefault : IsNew oldText oldParams newText parameter → labelledDefault newText parameter ≠ []) :
    piece ≠ [] := by
  rcases exists_onlyAt_or_isNew oldText oldParams newText parameter with ⟨oldPlace, hat⟩ | hnew
  · obtain ⟨hle, hpiece⟩ := h.kept oldPlace hat
    rw [argumentAt, if_pos hle] at hpiece
    obtain ⟨argument, hargument, rfl⟩ := List.mem_map.1 (List.mem_of_getElem? hpiece)
    exact hargs argument (List.mem_filter.1 hargument).1
  · rw [(h.new hnew).2]
    exact hdefault hnew

theorem namedTexts_ne_nil (hargs : ∀ argument ∈ oldArgs, argumentText callText argument ≠ []) :
    ∀ argument ∈ namedTexts callText oldArgs, argument.2 ≠ [] := by
  intro argument hargument
  obtain ⟨old, hold, rfl⟩ := List.mem_map.1 hargument
  exact hargs old (List.mem_filter.1 hold).1

theorem Maps.pieces (h : Maps oldText oldParams newText newParams mapping)
    (hobject : ∀ place < filled, (positionalNames newText newParams)[place]? =
      (positionalNames oldText oldParams)[place]?) {pieces : List Bytes}
    (hpieces : (mapping.origins.drop filled).mapM
      (originPiece callText newText (oldArgs.filter (·.positional)) filled) = .ok pieces) :
    ∀ place, filled ≤ place → ∀ parameter, (positionalParameters newParams)[place]? = some parameter →
      ∃ piece, pieces[place - filled]? = some piece ∧
        Passed oldText oldParams newText callText oldArgs filled parameter piece := by
  intro place hplace parameter hparameter
  obtain ⟨origin, hat, horigin⟩ := h.origin hparameter
  have hdrop : (mapping.origins.drop filled)[place - filled]? = some origin := by
    rw [List.getElem?_drop, Nat.add_sub_cancel' hplace, hat]
  obtain ⟨piece, hpiece, hmade⟩ := getElem?_of_forall₂ (mapM_eq_ok hpieces) hdrop
  exact ⟨piece, hpiece, h.passed hobject hplace hparameter horigin hmade⟩

theorem filled_le_length {names oldNames : List Bytes} (hle : filled ≤ oldNames.length)
    (hobject : ∀ place < filled, names[place]? = oldNames[place]?) : filled ≤ names.length := by
  refine Nat.le_of_not_lt fun hlt => ?_
  have hnone : names[names.length]? = none := List.getElem?_eq_none (Nat.le_refl _)
  rw [hobject _ hlt, List.getElem?_eq_none_iff] at hnone
  exact Nat.lt_irrefl _ (Nat.lt_of_lt_of_le hlt (Nat.le_trans hle hnone))

/-- A call that is rewritten keeps its meaning, where no text it is made of is empty. -/
theorem rewrite_keeps_meaning
    (hmapping : buildPositionMapping oldText oldParams newText newParams = .ok mapping)
    (hargs : ∀ argument ∈ oldArgs, argumentText callText argument ≠ [])
    (hdefaults : ∀ parameter ∈ positionalParameters newParams,
      IsNew oldText oldParams newText parameter → labelledDefault newText parameter ≠ [])
    (hrewrite : rewriteArgumentList callText oldArgs newText mapping receiver separator curried =
      .ok text) :
    KeepsMeaning oldText oldParams newText newParams callText oldArgs
      (objectFills oldParams receiver) separator text := by
  have hmaps := Maps.of_eq hmapping
  unfold rewriteArgumentList at hrewrite
  obtain ⟨⟨positional, named⟩, hsplit, hrewrite⟩ := bind_eq_ok.1 hrewrite
  obtain ⟨filled, himplicit, hrewrite⟩ := bind_eq_ok.1 hrewrite
  obtain ⟨rfl, rfl, hall⟩ := splitArguments_eq_ok hsplit
  obtain ⟨hfills, hfilled⟩ := implicitCount_eq_ok himplicit hmaps.receivers
  obtain ⟨hle, hobject⟩ := hmaps.object hfilled
  rw [← hfills]
  split at hrewrite
  · cases hrewrite
  · split at hrewrite
    · cases hrewrite
    · obtain ⟨pieces, hpieces, hrewrite⟩ := bind_eq_ok.1 hrewrite
      cases hrewrite
      have hpassed := hmaps.pieces hobject hpieces
      have hfits := filled_le_length hle hobject
      have hlength : filled + pieces.length = (positionalNames newText newParams).length := by
        rw [← (mapM_eq_ok hpieces).length_eq, List.length_drop, hmaps.origins_length,
          Nat.add_sub_cancel' hfits]
      have hpiece : ∀ piece ∈ pieces, piece ≠ [] := by
        intro piece hmem
        obtain ⟨index, hindex, rfl⟩ := List.getElem_of_mem hmem
        have hin : filled + index < (positionalParameters newParams).length := by
          rw [← positionalNames_length newText, ← hlength]
          exact Nat.add_lt_add_left hindex filled
        obtain ⟨piece, hat, hpassed⟩ :=
          hpassed (filled + index) (Nat.le_add_right _ _) _ (List.getElem?_eq_getElem hin)
        rw [Nat.add_sub_cancel_left, List.getElem?_eq_getElem hindex] at hat
        cases hat
        exact hpassed.ne_nil hargs (hdefaults _ (List.getElem_mem hin))
      refine ⟨hle, hobject, pieces, ?_, hlength, fun place parameter hplace hparameter => ?_⟩
      · rw [hmaps.named hall, foldl_append]
        refine List.forall_mem_append.2 ⟨hpiece, fun piece hmem => ?_⟩
        obtain ⟨argument, hargument, rfl⟩ := List.mem_map.1 hmem
        exact namedTexts_ne_nil hargs argument (List.mem_filter.1 hargument).1
      · obtain ⟨piece, hat, hpassed⟩ := hpassed place hplace parameter hparameter
        refine ⟨fun oldPlace honly => ?_, fun hnew => ?_⟩
        · obtain ⟨hold, hvalue⟩ := hpassed.kept oldPlace honly
          exact ⟨hold, piece, hvalue, (if_pos hplace).trans hat⟩
        · obtain ⟨hdefault, rfl⟩ := hpassed.new hnew
          exact ⟨hdefault, (if_pos hplace).trans hat⟩

/-- `f(1, 2)` for `f(a, b)` is `f(2, 1, 9)` for `f(b, a, c)`. -/
theorem swapped_call_keeps_meaning :
    KeepsMeaning [97, 98] [{ startByte := 0, endByte := 1 }, { startByte := 1, endByte := 2 }]
      [98, 97, 99, 57]
      [{ startByte := 0, endByte := 1, defaultStartByte := 3, defaultEndByte := 4 },
        { startByte := 1, endByte := 2, defaultStartByte := 3, defaultEndByte := 4 },
        { startByte := 2, endByte := 3, hasDefaultValue := true,
          defaultStartByte := 3, defaultEndByte := 4 }]
      [49, 50] [{ startByte := 0, endByte := 1 }, { startByte := 1, endByte := 2 }] 0 [44, 32]
      [50, 44, 32, 49, 44, 32, 57] := by
  have hmapping : buildPositionMapping [97, 98]
      [{ startByte := 0, endByte := 1 }, { startByte := 1, endByte := 2 }] [98, 97, 99, 57]
      [{ startByte := 0, endByte := 1, defaultStartByte := 3, defaultEndByte := 4 },
        { startByte := 1, endByte := 2, defaultStartByte := 3, defaultEndByte := 4 },
        { startByte := 2, endByte := 3, hasDefaultValue := true,
          defaultStartByte := 3, defaultEndByte := 4 }] =
      .ok { origins := [.kept 1, .kept 0, .new 3 4 0 0], oldArity := 2 } := rfl
  have hrewrite : rewriteArgumentList [49, 50]
      [{ startByte := 0, endByte := 1 }, { startByte := 1, endByte := 2 }] [98, 97, 99, 57]
      { origins := [.kept 1, .kept 0, .new 3 4 0 0], oldArity := 2 } .none [44, 32] false =
      .ok [50, 44, 32, 49, 44, 32, 57] := rfl
  have hdefaults : ∀ parameter ∈ positionalParameters
      [{ startByte := 0, endByte := 1, defaultStartByte := 3, defaultEndByte := 4 },
        { startByte := 1, endByte := 2, defaultStartByte := 3, defaultEndByte := 4 },
        { startByte := 2, endByte := 3, hasDefaultValue := true,
          defaultStartByte := 3, defaultEndByte := 4 }],
      labelledDefault [98, 97, 99, 57] parameter ≠ [] := by decide
  exact rewrite_keeps_meaning hmapping (by decide) (fun parameter hmem _ => hdefaults parameter hmem)
    hrewrite

/-- An empty default at the front loses its separator: `f(1)` for `f(a)` stays `f(1)` for `f(x, a)`. -/
theorem empty_default_loses_place :
    ¬ ∀ (oldText newText callText separator text : Bytes)
        (oldParams newParams : List SignatureParameter) (oldArgs : List CallArgument)
        (mapping : MappingResult) (receiver : CallReceiver) (curried : Bool),
      buildPositionMapping oldText oldParams newText newParams = .ok mapping →
      (∀ argument ∈ oldArgs, argumentText callText argument ≠ []) →
      rewriteArgumentList callText oldArgs newText mapping receiver separator curried = .ok text →
      KeepsMeaning oldText oldParams newText newParams callText oldArgs
        (objectFills oldParams receiver) separator text := by
  intro h
  have hkeeps := h [97] [120, 97] [49] [44, 32] [49] [{ startByte := 0, endByte := 1 }]
    [{ startByte := 0, endByte := 1, hasDefaultValue := true }, { startByte := 1, endByte := 2 }]
    [{ startByte := 0, endByte := 1 }] { origins := [.new 0 0 0 0, .kept 0], oldArity := 1 } .none
    false rfl (by decide) rfl
  obtain ⟨values, htext, hlength, -⟩ := hkeeps.passes
  have htwo : values.length = 2 := (Nat.zero_add _).symm.trans hlength
  obtain ⟨first, second, rfl⟩ := List.length_eq_two.1 htwo
  have hnone : namedTexts [49] [{ startByte := 0, endByte := 1 }] = [] := rfl
  rw [hnone, List.filter_nil, List.map_nil, List.append_nil] at htext
  have hshape : [49] = first ++ [44, 32] ++ second := by
    simpa [List.intercalate, List.intersperse] using htext
  have hone := congrArg List.length hshape
  simp only [List.length_append, List.length_cons, List.length_nil] at hone
  omega

end Ned.Editor.Refactoring
