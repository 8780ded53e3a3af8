import Ned.Editor.Refactoring.ChangeSignature
import Ned.Library.Fallible
import Mathlib.Data.List.Nodup
import Mathlib.Data.List.Induction

/-!
# What the mapping and the rewriting do

One lemma for each loop, about results that are not refused.
-/

namespace Ned.Editor.Refactoring

open Library (erase lookup_append lookup_erase_self lookup_erase_of_ne bind_eq_ok mapM_eq_ok
  mapM_eq_map)
open Text (Bytes substr)

variable {text oldText newText callText separator : Bytes}
  {params oldParams newParams : List SignatureParameter} {parameter : SignatureParameter}
  {args : List CallArgument} {names oldKeywords seen seen' kept : List Bytes}
  {oldIndex : List (Bytes × Nat)} {origins : List ParamOrigin} {mapping : MappingResult}
  {receiver : CallReceiver}

theorem slice_eq_ok {startByte endByte : Nat} {part : Bytes}
    (h : slice text startByte endByte = .ok part) : part = range text startByte endByte := by
  unfold slice at h
  split at h
  · cases h
    rfl
  · cases h

theorem nameOf_eq_ok {name : Bytes} (h : nameOf text parameter = .ok name) :
    name = parameterName text parameter := by
  unfold nameOf at h
  unfold parameterName
  split at h
  · rename_i hname
    rw [if_pos hname]
    exact slice_eq_ok h
  · rename_i hname
    rw [if_neg hname]
    exact slice_eq_ok h

/-! ## The table of old names -/

def FirstAt (names : List Bytes) (name : Bytes) (place : Nat) : Prop :=
  names[place]? = some name ∧ ∀ other, names[other]? = some name → place ≤ other

/-- What the tables hold after some names. -/
structure Noted (names : List Bytes) (tables : List (Bytes × Nat) × List Bytes) : Prop where
  first : ∀ name place, tables.1.lookup name = some place ↔ FirstAt names name place
  again : ∀ name, name ∈ tables.2 ↔
    ∃ place other : Nat, place < other ∧ names[place]? = some name ∧ names[other]? = some name

theorem getElem?_concat {name other : Bytes} {place : Nat} :
    (names ++ [name])[place]? = some other ↔
      names[place]? = some other ∨ place = names.length ∧ name = other := by
  rw [List.getElem?_append]
  split
  · rename_i hlt
    constructor
    · exact Or.inl
    · rintro (h | ⟨rfl, -⟩)
      · exact h
      · exact absurd hlt (Nat.lt_irrefl _)
  · rename_i hnot
    have hnone : names[place]? = none := List.getElem?_eq_none (Nat.le_of_not_lt hnot)
    rw [hnone, List.getElem?_singleton]
    split
    · rename_i hzero
      have heq : place = names.length :=
        Nat.le_antisymm (Nat.sub_eq_zero_iff_le.1 hzero) (Nat.le_of_not_lt hnot)
      simp [heq]
    · rename_i hne
      constructor
      · intro h
        cases h
      · rintro (h | ⟨rfl, -⟩)
        · cases h
        · exact absurd (Nat.sub_self _) hne

theorem lt_of_getElem? {name : Bytes} {place : Nat} (h : names[place]? = some name) :
    place < names.length := (List.getElem?_eq_some_iff.1 h).1

theorem firstAt_concat {name other : Bytes} {place : Nat} :
    FirstAt (names ++ [name]) other place ↔ FirstAt names other place ∨
      (name = other ∧ place = names.length ∧ ∀ earlier : Nat, names[earlier]? ≠ some other) := by
  constructor
  · rintro ⟨hat, hfirst⟩
    rcases getElem?_concat.1 hat with hold | ⟨hplace, hname⟩
    · exact Or.inl ⟨hold, fun earlier h => hfirst earlier (getElem?_concat.2 (Or.inl h))⟩
    · refine Or.inr ⟨hname, hplace, fun earlier h => ?_⟩
      have hle := hfirst earlier (getElem?_concat.2 (Or.inl h))
      exact Nat.lt_irrefl _ (Nat.lt_of_lt_of_le (lt_of_getElem? h) (hplace ▸ hle))
  · rintro (⟨hat, hfirst⟩ | ⟨hname, hplace, hnone⟩)
    · refine ⟨getElem?_concat.2 (Or.inl hat), fun earlier h => ?_⟩
      rcases getElem?_concat.1 h with h | ⟨heq, -⟩
      · exact hfirst earlier h
      · exact heq ▸ Nat.le_of_lt (lt_of_getElem? hat)
    · refine ⟨getElem?_concat.2 (Or.inr ⟨hplace, hname⟩), fun earlier h => ?_⟩
      rcases getElem?_concat.1 h with h | ⟨heq, -⟩
      · exact absurd h (hnone earlier)
      · exact Nat.le_of_eq (hplace.trans heq.symm)

theorem exists_firstAt {name : Bytes} {place : Nat} (h : names[place]? = some name) :
    ∃ first, FirstAt names name first := by
  induction place using Nat.strongRecOn with
  | ind place ih =>
      by_cases hearlier : ∃ earlier < place, names[earlier]? = some name
      · obtain ⟨earlier, hlt, hat⟩ := hearlier
        exact ih earlier hlt hat
      · refine ⟨place, h, fun other hother => Nat.le_of_not_lt fun hlt => ?_⟩
        exact hearlier ⟨other, hlt, hother⟩

theorem noted_concat {tables : List (Bytes × Nat) × List Bytes} (h : Noted names tables)
    (name : Bytes) : Noted (names ++ [name]) (noteOldName tables (name, names.length)) := by
  unfold noteOldName
  split
  · rename_i hsome
    obtain ⟨first, hfirst⟩ := Option.isSome_iff_exists.1 hsome
    have hat := ((h.first name first).1 hfirst).1
    constructor
    · intro other place
      rw [h.first, firstAt_concat]
      constructor
      · exact Or.inl
      · rintro (hold | ⟨rfl, -, hnone⟩)
        · exact hold
        · exact absurd hat (hnone first)
    · intro other
      rw [List.mem_cons, h.again]
      constructor
      · rintro (rfl | ⟨place, later, hlt, hplace, hlater⟩)
        · exact ⟨first, names.length, lt_of_getElem? hat, getElem?_concat.2 (Or.inl hat),
            getElem?_concat.2 (Or.inr ⟨rfl, rfl⟩)⟩
        · exact ⟨place, later, hlt, getElem?_concat.2 (Or.inl hplace),
            getElem?_concat.2 (Or.inl hlater)⟩
      · rintro ⟨place, later, hlt, hplace, hlater⟩
        rcases getElem?_concat.1 hlater with hlater | ⟨-, rfl⟩
        · rcases getElem?_concat.1 hplace with hplace | ⟨rfl, -⟩
          · exact Or.inr ⟨place, later, hlt, hplace, hlater⟩
          · exact absurd (Nat.lt_trans hlt (lt_of_getElem? hlater)) (Nat.lt_irrefl _)
        · exact Or.inl rfl
  · rename_i hnone
    have hlookup := Option.not_isSome_iff_eq_none.1 hnone
    have hnowhere : ∀ place : Nat, names[place]? ≠ some name := by
      intro place hat
      obtain ⟨first, hfirst⟩ := exists_firstAt hat
      cases hlookup.symm.trans ((h.first name first).2 hfirst)
    constructor
    · intro other place
      rw [lookup_append, firstAt_concat, ← h.first]
      by_cases heq : other = name
      · subst heq
        simp [hlookup, hnowhere, eq_comm]
      · have hbeq : (other == name) = false := beq_eq_false_iff_ne.2 heq
        simp [List.lookup_cons, hbeq, Ne.symm heq]
    · intro other
      rw [h.again]
      constructor
      · rintro ⟨place, later, hlt, hplace, hlater⟩
        exact ⟨place, later, hlt, getElem?_concat.2 (Or.inl hplace),
          getElem?_concat.2 (Or.inl hlater)⟩
      · rintro ⟨place, later, hlt, hplace, hlater⟩
        rcases getElem?_concat.1 hplace with hplace | ⟨rfl, rfl⟩
        · rcases getElem?_concat.1 hlater with hlater | ⟨-, rfl⟩
          · exact ⟨place, later, hlt, hplace, hlater⟩
          · exact absurd hplace (hnowhere place)
        · rcases getElem?_concat.1 hlater with hlater | ⟨rfl, -⟩
          · exact absurd hlater (hnowhere later)
          · exact absurd hlt (Nat.lt_irrefl _)

theorem noted_all (names : List Bytes) :
    Noted names (names.zipIdx.foldl noteOldName ([], [])) := by
  induction names using List.reverseRecOn with
  | nil => constructor <;> simp [FirstAt]
  | append_singleton names name ih =>
      rw [List.zipIdx_append, List.foldl_append]
      simpa using noted_concat ih name

theorem lookup_foldl_erase (ambiguous : List Bytes) (table : List (Bytes × Nat)) (name : Bytes) :
    (ambiguous.foldl erase table).lookup name =
      if name ∈ ambiguous then none else table.lookup name := by
  induction ambiguous generalizing table with
  | nil => rfl
  | cons other ambiguous ih =>
      rw [List.foldl_cons, ih]
      by_cases heq : name = other
      · simp [heq, lookup_erase_self]
      · simp [heq, lookup_erase_of_ne heq]

theorem lookup_oldIndexByName (names : List Bytes) (name : Bytes) (place : Nat) :
    (oldIndexByName names).lookup name = some place ↔ OnlyAt names name place := by
  have hnoted := noted_all names
  simp only [oldIndexByName]
  rw [lookup_foldl_erase]
  split
  · rename_i hagain
    obtain ⟨first, later, hlt, hfirst, hlater⟩ := (hnoted.again name).1 hagain
    constructor
    · intro h
      cases h
    · rintro ⟨-, honly⟩
      rw [honly first hfirst, honly later hlater] at hlt
      exact absurd hlt (Nat.lt_irrefl _)
  · rename_i honce
    rw [hnoted.first]
    constructor
    · rintro ⟨hat, hfirst⟩
      refine ⟨hat, fun other hother => Nat.le_antisymm ?_ (hfirst other hother)⟩
      refine Nat.le_of_not_lt fun hlt => honce ((hnoted.again name).2 ?_)
      exact ⟨place, other, hlt, hat, hother⟩
    · rintro ⟨hat, honly⟩
      exact ⟨hat, fun other hother => Nat.le_of_eq (honly other hother).symm⟩

/-! ## Receivers -/

theorem anyMoved_eq_false {pairs : List (SignatureParameter × SignatureParameter)}
    (h : anyMoved oldText newText pairs = .ok false) :
    ∀ pair ∈ pairs, pair.2.isKeyword = false ∧
      parameterName oldText pair.1 = parameterName newText pair.2 := by
  induction pairs with
  | nil => simp
  | cons pair pairs ih =>
      obtain ⟨old, new⟩ := pair
      unfold anyMoved at h
      split at h
      · cases h
      · rename_i hkeyword
        obtain ⟨oldName, hold, h⟩ := bind_eq_ok.1 h
        obtain ⟨newName, hnew, h⟩ := bind_eq_ok.1 h
        split at h
        · cases h
        · rename_i hsame
          rw [ne_eq, not_not] at hsame
          refine List.forall_mem_cons.2 ⟨⟨Bool.eq_false_iff.2 hkeyword, ?_⟩, ih h⟩
          rw [← nameOf_eq_ok hold, ← nameOf_eq_ok hnew, hsame]

theorem leadingReceivers_length_le (params : List SignatureParameter) :
    (leadingReceivers params).length ≤ params.length := by
  have hle := (List.takeWhile_sublist (l := params.map (·.receiver)) (· ≠ .none)).length_le
  rwa [List.length_map] at hle

theorem receiverMoved_eq_false {oldPositional : List SignatureParameter}
    (h : receiverMoved oldText newText oldPositional newParams = .ok false) :
    ∀ place < (leadingReceivers oldPositional).length,
      ∃ old new, oldPositional[place]? = some old ∧ newParams[place]? = some new ∧
        new.isKeyword = false ∧ parameterName oldText old = parameterName newText new := by
  intro place hplace
  have hle := leadingReceivers_length_le oldPositional
  unfold receiverMoved at h
  simp only at h
  split at h
  · cases h
  · split at h
    · cases h
    · rename_i hcount
      have hold : place < oldPositional.length := Nat.lt_of_lt_of_le hplace hle
      have hnew : place < newParams.length := Nat.lt_of_lt_of_le hplace (Nat.le_of_not_lt hcount)
      have hpair := anyMoved_eq_false h (oldPositional[place], newParams[place]) ?_
      · exact ⟨_, _, List.getElem?_eq_getElem hold, List.getElem?_eq_getElem hnew, hpair⟩
      · refine List.mem_of_getElem? (List.getElem?_take_of_lt hplace |>.trans ?_)
        rw [List.getElem?_zip_eq_some]
        exact ⟨List.getElem?_eq_getElem hold, List.getElem?_eq_getElem hnew⟩

theorem positionalParameters_getElem? {count : Nat}
    (h : ∀ place < count, ∃ parameter, params[place]? = some parameter ∧
      parameter.isKeyword = false) :
    ∀ place < count, (positionalParameters params)[place]? = params[place]? := by
  induction params generalizing count with
  | nil => simp [positionalParameters]
  | cons first params ih =>
      intro place hplace
      cases count with
      | zero => cases hplace
      | succ count =>
          obtain ⟨parameter, hfirst, hkeyword⟩ := h 0 (Nat.succ_pos _)
          cases hfirst
          have hcons : positionalParameters (first :: params) =
              first :: positionalParameters params := by
            simp [positionalParameters, hkeyword]
          rw [hcons]
          cases place with
          | zero => rfl
          | succ place =>
              refine ih (fun place' hplace' => ?_) place (Nat.lt_of_succ_lt_succ hplace)
              exact h (place' + 1) (Nat.succ_lt_succ hplace')

/-! ## The new parameters -/

/-- Where a new positional parameter comes from. -/
inductive Origin (newText : Bytes) (oldIndex : List (Bytes × Nat)) (parameter : SignatureParameter) :
    ParamOrigin → Prop
  | kept {index : Nat} (h : oldIndex.lookup (parameterName newText parameter) = some index) :
      Origin newText oldIndex parameter (.kept index)
  | new (h : oldIndex.lookup (parameterName newText parameter) = none)
      (hdefault : parameter.hasDefaultValue = true) :
      Origin newText oldIndex parameter (.new parameter.defaultStartByte parameter.defaultEndByte
        parameter.labelStartByte parameter.labelEndByte)

theorem Origin.lookup {index : Nat} (h : Origin newText oldIndex parameter (.kept index)) :
    oldIndex.lookup (parameterName newText parameter) = some index := by
  cases h with
  | kept h => exact h

structure Mapped (newText : Bytes) (oldKeywords : List Bytes) (oldIndex : List (Bytes × Nat))
    (params : List SignatureParameter) (seen : List Bytes) (origins : List ParamOrigin)
    (kept seen' : List Bytes) : Prop where
  origins : List.Forall₂ (Origin newText oldIndex) (positionalParameters params) origins
  kept_iff : ∀ name, name ∈ kept ↔ name ∈ oldKeywords ∧ name ∈ keywordNames newText params
  seen_iff : ∀ name, name ∈ seen' ↔ name ∈ seen ∨ name ∈ params.map (parameterName newText)
  nodup : (params.map (parameterName newText)).Nodup
  fresh : ∀ name ∈ params.map (parameterName newText), name ∉ seen

theorem Mapped.cons_names {name : Bytes}
    (h : Mapped newText oldKeywords oldIndex params (name :: seen) origins kept seen')
    (hname : name = parameterName newText parameter) (hfresh : name ∉ seen) :
    (∀ other, other ∈ seen' ↔
      other ∈ seen ∨ other ∈ (parameter :: params).map (parameterName newText)) ∧
      ((parameter :: params).map (parameterName newText)).Nodup ∧
      ∀ other ∈ (parameter :: params).map (parameterName newText), other ∉ seen := by
  subst hname
  rw [List.map_cons]
  refine ⟨fun other => ?_, List.nodup_cons.2 ⟨fun hmem => ?_, h.nodup⟩,
    List.forall_mem_cons.2 ⟨hfresh, fun other hother hmem => ?_⟩⟩
  · rw [h.seen_iff, List.mem_cons, List.mem_cons]
    tauto
  · exact h.fresh _ hmem List.mem_cons_self
  · exact h.fresh other hother (List.mem_cons_of_mem _ hmem)

theorem Mapped.cons_keyword {name : Bytes}
    (h : Mapped newText oldKeywords oldIndex params (name :: seen) origins kept seen')
    (hname : name = parameterName newText parameter) (hkeyword : parameter.isKeyword = true)
    (hfresh : name ∉ seen) :
    Mapped newText oldKeywords oldIndex (parameter :: params) seen origins
      (if name ∈ oldKeywords then name :: kept else kept) seen' := by
  obtain ⟨hseen, hnodup, hfresh⟩ := h.cons_names hname hfresh
  refine ⟨?_, fun other => ?_, hseen, hnodup, hfresh⟩
  · have hskip : positionalParameters (parameter :: params) = positionalParameters params := by
      simp [positionalParameters, hkeyword]
    rw [hskip]
    exact h.origins
  · have hcons : keywordNames newText (parameter :: params) =
        name :: keywordNames newText params := by
      simp [keywordNames, hkeyword, hname]
    rw [hcons, List.mem_cons]
    split
    · rename_i hold
      rw [List.mem_cons, h.kept_iff]
      constructor
      · rintro (rfl | ⟨hother, hmem⟩)
        · exact ⟨hold, Or.inl rfl⟩
        · exact ⟨hother, Or.inr hmem⟩
      · rintro ⟨hother, heq | hmem⟩
        · exact Or.inl heq
        · exact Or.inr ⟨hother, hmem⟩
    · rename_i hnew
      rw [h.kept_iff]
      constructor
      · exact fun hother => ⟨hother.1, Or.inr hother.2⟩
      · rintro ⟨hother, rfl | hmem⟩
        · exact absurd hother hnew
        · exact ⟨hother, hmem⟩

theorem Mapped.cons_positional {name : Bytes} {origin : ParamOrigin}
    (h : Mapped newText oldKeywords oldIndex params (name :: seen) origins kept seen')
    (hname : name = parameterName newText parameter) (hkeyword : parameter.isKeyword = false)
    (hfresh : name ∉ seen) (horigin : Origin newText oldIndex parameter origin) :
    Mapped newText oldKeywords oldIndex (parameter :: params) seen (origin :: origins) kept seen' := by
  obtain ⟨hseen, hnodup, hfresh⟩ := h.cons_names hname hfresh
  refine ⟨?_, fun other => ?_, hseen, hnodup, hfresh⟩
  · have hcons : positionalParameters (parameter :: params) =
        parameter :: positionalParameters params := by
      simp [positionalParameters, hkeyword]
    rw [hcons]
    exact .cons horigin h.origins
  · have hskip : keywordNames newText (parameter :: params) = keywordNames newText params := by
      simp [keywordNames, hkeyword]
    rw [hskip]
    exact h.kept_iff other

theorem Mapped.of_eq
    (h : mapParameters newText oldKeywords oldIndex params seen = .ok (origins, kept, seen')) :
    Mapped newText oldKeywords oldIndex params seen origins kept seen' := by
  induction params generalizing seen origins kept seen' with
  | nil =>
      cases h
      exact ⟨.nil, by simp [keywordNames], by simp, by simp, by simp⟩
  | cons parameter params ih =>
      unfold mapParameters at h
      obtain ⟨name, hname, h⟩ := bind_eq_ok.1 h
      split at h
      · cases h
      · rename_i hfresh
        split at h
        · cases h
        · split at h
          · rename_i hkeyword
            split at h
            · cases h
            · obtain ⟨⟨origins', kept', seen''⟩, hrest, h⟩ := bind_eq_ok.1 h
              cases h
              exact (ih hrest).cons_keyword (nameOf_eq_ok hname) hkeyword hfresh
          · rename_i hpositional
            have hkeyword := Bool.eq_false_iff.2 hpositional
            split at h
            · rename_i index hindex
              obtain ⟨⟨origins', kept', seen''⟩, hrest, h⟩ := bind_eq_ok.1 h
              cases h
              refine (ih hrest).cons_positional (nameOf_eq_ok hname) hkeyword hfresh (.kept ?_)
              rw [← nameOf_eq_ok hname]
              exact hindex
            · rename_i hnone
              split at h
              · cases h
              · rename_i hdefault
                obtain ⟨⟨origins', kept', seen''⟩, hrest, h⟩ := bind_eq_ok.1 h
                cases h
                refine (ih hrest).cons_positional (nameOf_eq_ok hname) hkeyword hfresh (.new ?_ ?_)
                · rw [← nameOf_eq_ok hname]
                  exact hnone
                · exact Bool.not_eq_false _ ▸ hdefault

structure Maps (oldText : Bytes) (oldParams : List SignatureParameter) (newText : Bytes)
    (newParams : List SignatureParameter) (mapping : MappingResult) : Prop where
  oldArity : mapping.oldArity = (positionalParameters oldParams).length
  receivers : mapping.receivers = leadingReceivers (positionalParameters oldParams)
  unmoved : ∀ place < mapping.receivers.length, ∃ old new,
    (positionalParameters oldParams)[place]? = some old ∧ newParams[place]? = some new ∧
      new.isKeyword = false ∧ parameterName oldText old = parameterName newText new
  origins : ∃ seen, Mapped newText (keywordNames oldText oldParams)
      (oldIndexByName (positionalNames oldText oldParams)) newParams [] mapping.origins
      mapping.keptKeywords seen ∧
    mapping.droppedKeywords = (keywordNames oldText oldParams).filter (· ∉ seen)

theorem Maps.of_eq (h : buildPositionMapping oldText oldParams newText newParams = .ok mapping) :
    Maps oldText oldParams newText newParams mapping := by
  unfold buildPositionMapping at h
  split at h
  · cases h
  · obtain ⟨oldKeywords, hkeywords, h⟩ := bind_eq_ok.1 h
    obtain ⟨moved, hmoved, h⟩ := bind_eq_ok.1 h
    split at h
    · cases h
    · rename_i hunmoved
      rw [Bool.not_eq_true] at hunmoved
      subst hunmoved
      obtain ⟨oldNames, hnames, h⟩ := bind_eq_ok.1 h
      obtain ⟨⟨origins, kept, seen⟩, hmapped, h⟩ := bind_eq_ok.1 h
      cases h
      have heq := mapM_eq_map (fun _ _ h => nameOf_eq_ok h) hkeywords
      have heq' := mapM_eq_map (fun _ _ h => nameOf_eq_ok h) hnames
      subst heq heq'
      exact ⟨rfl, rfl, receiverMoved_eq_false hmoved, seen, .of_eq hmapped, rfl⟩

/-! ## A call -/

theorem splitArguments_eq_ok {positional : List CallArgument} {named : List Bytes}
    (h : splitArguments callText mapping args = .ok (positional, named)) :
    positional = args.filter (·.positional) ∧
      named = ((namedTexts callText args).filter (·.1 ∉ mapping.droppedKeywords)).map (·.2) ∧
      ∀ argument ∈ namedTexts callText args,
        argument.1 ∈ mapping.droppedKeywords ∨ argument.1 ∈ mapping.keptKeywords := by
  induction args generalizing positional named with
  | nil =>
      cases h
      simp [namedTexts]
  | cons argument args ih =>
      unfold splitArguments at h
      split at h
      · rename_i hpositional
        obtain ⟨⟨positional', named'⟩, hrest, h⟩ := bind_eq_ok.1 h
        cases h
        obtain ⟨rfl, rfl, hall⟩ := ih hrest
        simp only [namedTexts, List.filter_cons, hpositional, Bool.not_true] at hall ⊢
        exact ⟨rfl, rfl, hall⟩
      · rename_i hnamed
        rw [Bool.not_eq_true] at hnamed
        have hcons : namedTexts callText (argument :: args) =
            (argumentName callText argument, argumentText callText argument) ::
              namedTexts callText args := by
          simp [namedTexts, hnamed]
        rw [hcons, List.filter_cons_of_neg (by simp [hnamed])]
        split at h
        · cases h
        · obtain ⟨name, hname, h⟩ := bind_eq_ok.1 h
          obtain rfl : name = argumentName callText argument := slice_eq_ok hname
          split at h
          · rename_i hdropped
            obtain ⟨rfl, rfl, hall⟩ := ih h
            refine ⟨rfl, ?_, List.forall_mem_cons.2 ⟨Or.inl hdropped, hall⟩⟩
            rw [List.filter_cons_of_neg (by simpa using hdropped)]
          · rename_i hstays
            split at h
            · cases h
            · rename_i hkept
              rw [not_not] at hkept
              obtain ⟨value, hvalue, h⟩ := bind_eq_ok.1 h
              obtain ⟨⟨positional', named'⟩, hrest, h⟩ := bind_eq_ok.1 h
              cases h
              obtain ⟨rfl, rfl, hall⟩ := ih hrest
              refine ⟨rfl, ?_, List.forall_mem_cons.2 ⟨Or.inr hkept, hall⟩⟩
              rw [List.filter_cons_of_pos (by simpa using hstays), List.map_cons,
                slice_eq_ok hvalue]
              rfl

theorem implicitCount_eq_ok {filled : Nat} (h : implicitCount mapping receiver = .ok filled)
    (hreceivers : mapping.receivers = leadingReceivers (positionalParameters oldParams)) :
    filled = objectFills oldParams receiver ∧ (filled ≤ mapping.receivers.length ∨
      filled = 1 ∧ mapping.oldArity ≠ 0 ∧ mapping.origins.head? = some (.kept 0)) := by
  unfold implicitCount at h
  unfold objectFills
  rw [← hreceivers]
  simp only at h ⊢
  split at h
  · rename_i hfirst
    split at h
    · cases h
    · rename_i hkept
      rw [not_or, ne_eq, not_not] at hkept
      cases h
      rw [if_pos hfirst]
      exact ⟨rfl, Or.inr ⟨rfl, hkept⟩⟩
  · rename_i hnot
    cases h
    rw [if_neg hnot]
    exact ⟨rfl, Or.inl (List.takeWhile_sublist _).length_le⟩

theorem originPiece_kept {positional : List CallArgument} {implicit index : Nat} {piece : Bytes}
    (hle : implicit ≤ index)
    (h : originPiece callText newText positional implicit (.kept index) = .ok piece) :
    (positional.map (argumentText callText))[index - implicit]? = some piece := by
  have hsub : sizeSub index implicit = index - implicit := if_pos hle
  simp only [originPiece, hsub] at h
  split at h
  · rename_i argument hargument
    rw [List.getElem?_map, hargument, slice_eq_ok h]
    rfl
  · cases h

theorem originPiece_new {positional : List CallArgument} {implicit : Nat} {piece : Bytes}
    (h : originPiece callText newText positional implicit (.new parameter.defaultStartByte
      parameter.defaultEndByte parameter.labelStartByte parameter.labelEndByte) = .ok piece) :
    piece = labelledDefault newText parameter := by
  unfold originPiece at h
  obtain ⟨value, hvalue, h⟩ := bind_eq_ok.1 h
  unfold labelledDefault
  split at h
  · rename_i hlabel
    obtain ⟨label, hlabelText, h⟩ := bind_eq_ok.1 h
    cases h
    rw [if_pos hlabel, slice_eq_ok hvalue, slice_eq_ok hlabelText]
    rfl
  · rename_i hlabel
    cases h
    rw [if_neg hlabel, slice_eq_ok hvalue]
    rfl

/-! ## Joining the pieces -/

theorem foldl_append_of_ne_nil {result : Bytes} (hresult : result ≠ []) (separator : Bytes)
    (pieces : List Bytes) :
    pieces.foldl (append separator) result = separator.intercalate (result :: pieces) := by
  induction pieces generalizing result with
  | nil => simp
  | cons piece pieces ih =>
      have happend : append separator result piece = result ++ separator ++ piece := by
        rw [append, if_neg (by simpa using hresult)]
      rw [List.foldl_cons, happend, ih (by simp [hresult])]
      cases pieces <;> simp [List.intercalate, List.intersperse]

theorem foldl_append {pieces : List Bytes} (hpieces : ∀ piece ∈ pieces, piece ≠ [])
    (separator : Bytes) :
    pieces.foldl (append separator) [] = separator.intercalate pieces := by
  cases pieces with
  | nil => rfl
  | cons piece pieces =>
      have hfirst : append separator [] piece = piece := rfl
      rw [List.foldl_cons, hfirst]
      exact foldl_append_of_ne_nil (hpieces piece List.mem_cons_self) separator pieces

end Ned.Editor.Refactoring
