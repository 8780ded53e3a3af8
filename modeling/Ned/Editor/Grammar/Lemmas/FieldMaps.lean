import Ned.Editor.Grammar.Assembler

/-!
# What the field maps hold

The names stand in their order, each once, and a production's slice is where its map is.
-/

namespace Ned.Editor.Grammar.ParseTable

open Library
open Parse (LanguageData MapSlice FieldMapEntry languageFieldMap)

variable {table : ParseTable} {externalTokens : List (Option Symbol)} {name : String}
  {names : List String} {info : ProductionInfo} {p : Nat}

/-! ## Names -/

theorem mem_insertName {n : String} : n ∈ insertName name names ↔ n = name ∨ n ∈ names := by
  induction names with
  | nil => simp [insertName]
  | cons first names ih =>
      unfold insertName
      split
      · rw [List.mem_cons, ih, List.mem_cons]
        exact or_left_comm
      · split
        · rename_i heq
          subst heq
          simp
        · exact List.mem_cons

theorem insertName_sorted (h : names.Pairwise (· < ·)) :
    (insertName name names).Pairwise (· < ·) := by
  induction names with
  | nil => exact List.pairwise_singleton _ _
  | cons first names ih =>
      obtain ⟨hfirst, htail⟩ := List.pairwise_cons.1 h
      unfold insertName
      split
      · rename_i hlt
        refine List.pairwise_cons.2 ⟨fun n hn => ?_, ih htail⟩
        rcases mem_insertName.1 hn with rfl | hn
        · exact hlt
        · exact hfirst n hn
      · split
        · exact h
        · rename_i hnot hne
          have hlt : name < first := by
            by_contra hle
            exact hne (String.le_antisymm hle hnot)
          refine List.pairwise_cons.2 ⟨fun n hn => ?_, h⟩
          rcases List.mem_cons.1 hn with rfl | hn
          · exact hlt
          · exact String.lt_trans hlt (hfirst n hn)

theorem insertNames_sorted (added : List String) (h : names.Pairwise (· < ·)) :
    (added.foldl (fun names name => insertName name names) names).Pairwise (· < ·) := by
  induction added generalizing names with
  | nil => exact h
  | cons name added ih => exact ih (insertName_sorted h)

theorem mem_insertNames {added : List String} :
    name ∈ added.foldl (fun names name => insertName name names) names ↔
      name ∈ added ∨ name ∈ names := by
  induction added generalizing names with
  | nil => simp
  | cons first added ih =>
      rw [List.foldl_cons, ih, mem_insertName, List.mem_cons]
      exact or_left_comm.trans or_assoc.symm

theorem fieldNames_sorted (table : ParseTable) : table.fieldNames.Pairwise (· < ·) :=
  insertNames_sorted _ List.Pairwise.nil

theorem fieldNames_nodup (table : ParseTable) : table.fieldNames.Nodup := by
  refine List.Pairwise.imp ?_ table.fieldNames_sorted
  rintro a b hlt rfl
  exact String.lt_irrefl _ hlt

theorem mem_fieldNames :
    name ∈ table.fieldNames ↔
      ∃ info ∈ table.productionInfos, ∃ field ∈ info.fieldMap, field.1 = name := by
  rw [fieldNames, mem_insertNames]
  simp only [List.mem_flatMap, List.mem_map, List.not_mem_nil, or_false]

theorem getElem?_takeWhile_lt (h : names.Pairwise (· < ·)) (hname : name ∈ names) :
    names[(names.takeWhile (· < name)).length]? = some name := by
  induction names with
  | nil => cases hname
  | cons first names ih =>
      obtain ⟨hfirst, htail⟩ := List.pairwise_cons.1 h
      rw [List.takeWhile_cons]
      rcases List.mem_cons.1 hname with rfl | hname
      · simp
      · rw [if_pos (decide_eq_true (hfirst name hname)), List.length_cons, List.getElem?_cons_succ]
        exact ih htail hname

theorem getElem?_fieldNumber (hname : name ∈ table.fieldNames) :
    (table.language externalTokens).fieldNames[table.fieldNumber name]? = some (some name) := by
  have hget := getElem?_takeWhile_lt table.fieldNames_sorted hname
  simp only [language, fieldNumber, List.getElem?_cons_succ, List.getElem?_map, hget,
    Option.map_some]

theorem getD_fieldId_iff (hname : name ∈ table.fieldNames) :
    (table.language externalTokens).fieldNames.getD (table.fieldId name) none = some name ↔
      table.fieldNumber name < 2 ^ 16 := by
  have hget : (table.language externalTokens).fieldNames[table.fieldNumber name]? =
      some (some name) := getElem?_fieldNumber hname
  have hnodup : (table.language externalTokens).fieldNames.Nodup :=
    List.nodup_cons.2 ⟨by simp, table.fieldNames_nodup.map fun _ _ => Option.some.inj⟩
  rw [List.getD_eq_getElem?_getD]
  constructor
  · intro hcell
    have hfound : (table.language externalTokens).fieldNames[table.fieldId name]? =
        some (some name) := by
      cases hcase : (table.language externalTokens).fieldNames[table.fieldId name]? with
      | none =>
          rw [hcase] at hcell
          cases hcell
      | some found =>
          rw [hcase] at hcell
          exact congrArg some hcell
    have hlt := (List.getElem?_eq_some_iff.1 hfound).1
    have heq := (List.getElem?_inj hlt hnodup).1 (hfound.trans hget.symm)
    exact heq ▸ uint16_lt _
  · intro hfits
    rw [fieldId, uint16_of_lt hfits, hget]
    rfl

theorem fieldNumbers_lt_iff :
    (∀ name ∈ table.fieldNames, table.fieldNumber name < 2 ^ 16) ↔
      table.fieldNames.length < 2 ^ 16 := by
  constructor
  · intro h
    rcases Nat.eq_zero_or_pos table.fieldNames.length with hzero | hpos
    · omega
    · have hlast := List.getElem_mem (l := table.fieldNames) (Nat.sub_lt hpos Nat.one_pos)
      have hnumber := h _ hlast
      have hget := getElem?_takeWhile_lt table.fieldNames_sorted hlast
      obtain ⟨hlt, heq⟩ := List.getElem?_eq_some_iff.1 hget
      have hindex := (table.fieldNames_nodup.getElem_inj_iff).1 heq
      unfold fieldNumber at hnumber
      omega
  · intro h name hname
    have hget := getElem?_takeWhile_lt table.fieldNames_sorted hname
    exact Nat.lt_of_le_of_lt (List.getElem?_eq_some_iff.1 hget).1 h

/-! ## Slices -/

theorem flatMap_of_isEmpty (h : info.fieldMap.isEmpty = true) : flatMap info = [] := by
  rw [flatMap, List.isEmpty_iff.1 h]
  rfl

theorem mem_namedFieldMaps (hinfo : info ∈ table.productionInfos) :
    flatMap info ∈ table.namedFieldMaps := by
  cases hempty : info.fieldMap.isEmpty with
  | true =>
      rw [flatMap_of_isEmpty hempty]
      exact List.mem_cons_self
  | false =>
      refine List.mem_cons_of_mem _ (List.mem_map.2 ⟨info, List.mem_filter.2 ⟨hinfo, ?_⟩, rfl⟩)
      rw [hempty]
      rfl

theorem sizeBefore_nil (table : ParseTable) :
    Pool.sizeBefore List.length table.namedFieldMaps [] = 0 := by
  have hmem : ([] : FlatMap) ∈ table.namedFieldMaps := List.mem_cons_self
  rw [← Pool.place_internAll hmem]
  exact Pool.place_first _ _

theorem fieldMapSlice_eq (hinfo : info ∈ table.productionInfos) :
    table.fieldMapSlice info =
      { index := uint16 (Pool.sizeBefore List.length table.namedFieldMaps (flatMap info))
        length := uint16 (flatMap info).length } := by
  unfold fieldMapSlice
  split
  · rename_i hempty
    rw [flatMap_of_isEmpty hempty, sizeBefore_nil]
    rfl
  · rw [← Pool.place_internAll (mem_namedFieldMaps hinfo)]
    rfl

theorem renderFieldMap_length (table : ParseTable) (map : FlatMap) :
    (table.renderFieldMap map).length = map.length := List.length_map _

theorem languageFieldMap_eq (hp : table.productionInfos[p]? = some info)
    (hindex : Pool.sizeBefore List.length table.namedFieldMaps (flatMap info) < 2 ^ 16)
    (hlength : (flatMap info).length < 2 ^ 16)
    (hcount : uint32 table.fieldNames.length = 0 → flatMap info = []) :
    languageFieldMap (table.language externalTokens) p =
      some (table.renderFieldMap (flatMap info)) := by
  have hinfo : info ∈ table.productionInfos := List.mem_of_getElem? hp
  have hnamed := mem_namedFieldMaps hinfo
  have hmem : flatMap info ∈ table.fieldMaps.items.map (·.1) := Pool.internAll_mem hnamed
  obtain ⟨rest, hrest⟩ := Pool.drop_cells table.renderFieldMap_length hmem
  unfold fieldMaps at hrest
  rw [Pool.place_internAll hnamed] at hrest
  unfold languageFieldMap
  simp only [language, List.getElem?_map, hp, Option.map_some, fieldMapSlice_eq hinfo,
    uint16_of_lt hindex, uint16_of_lt hlength, Option.bind_eq_bind, Option.bind_some]
  split
  · rename_i hzero
    rw [hcount hzero]
    rfl
  · refine (if_pos ?_).trans ?_
    · cases hempty : flatMap info with
      | nil => simp [sizeBefore_nil]
      | cons field fields =>
          have hcells := congrArg List.length hrest
          rw [List.length_drop, List.length_append, renderFieldMap_length, hempty,
            List.length_cons] at hcells
          unfold fieldMaps
          rw [List.length_cons]
          omega
    · rw [fieldMaps, hrest, ← renderFieldMap_length table, List.take_left]

/-! ## Fields -/

theorem mem_fieldNames_of_mem (hinfo : info ∈ table.productionInfos)
    {field : String × FieldLocation} (hfield : field ∈ flatMap info) :
    field.1 ∈ table.fieldNames := by
  obtain ⟨named, hnamed, hlocation⟩ := List.mem_flatMap.1 hfield
  obtain ⟨location, -, rfl⟩ := List.mem_map.1 hlocation
  exact mem_fieldNames.2 ⟨info, hinfo, named, hnamed, rfl⟩

theorem exists_field (hfields : ∀ info ∈ table.productionInfos, ∀ p ∈ info.fieldMap, p.2 ≠ [])
    (hname : name ∈ table.fieldNames) :
    ∃ info ∈ table.productionInfos, ∃ field ∈ flatMap info, field.1 = name := by
  obtain ⟨info, hinfo, named, hnamed, rfl⟩ := mem_fieldNames.1 hname
  obtain ⟨location, hlocation⟩ := List.exists_mem_of_ne_nil _ (hfields info hinfo named hnamed)
  refine ⟨info, hinfo, (named.1, location), List.mem_flatMap.2 ⟨named, hnamed, ?_⟩, rfl⟩
  exact List.mem_map.2 ⟨location, hlocation, rfl⟩

/-- A cell of a field map, with the name that its number stands for. -/
def named (language : LanguageData) (entry : FieldMapEntry) : Option String × Nat × Bool :=
  (language.fieldNames.getD entry.fieldId none, entry.childIndex, entry.inherited)

/-- The cells hold the fields of a production, from where its map is to start. -/
structure SaysFields (table : ParseTable) (language : LanguageData) (p : Nat)
    (info : ProductionInfo) : Prop where
  slice : language.fieldMapSlices[p]? = some
    { index := Pool.sizeBefore List.length table.namedFieldMaps (flatMap info)
      length := (flatMap info).length }
  fields : (languageFieldMap language p).map (List.map (named language)) =
    some ((flatMap info).map fun field => (some field.1, field.2.index, field.2.inherited))

structure FieldsFit (table : ParseTable) : Prop where
  names : table.fieldNames.length < 2 ^ 16
  slices : ∀ info ∈ table.productionInfos,
    Pool.sizeBefore List.length table.namedFieldMaps (flatMap info) < 2 ^ 16 ∧
      (flatMap info).length < 2 ^ 16
  indices : ∀ info ∈ table.productionInfos, ∀ field ∈ flatMap info, field.2.index < 2 ^ 8

theorem fieldMapSlices_eq_iff (hp : table.productionInfos[p]? = some info) :
    (table.language externalTokens).fieldMapSlices[p]? = some
        { index := Pool.sizeBefore List.length table.namedFieldMaps (flatMap info)
          length := (flatMap info).length } ↔
      Pool.sizeBefore List.length table.namedFieldMaps (flatMap info) < 2 ^ 16 ∧
        (flatMap info).length < 2 ^ 16 := by
  simp only [language, List.getElem?_map, hp, Option.map_some,
    fieldMapSlice_eq (List.mem_of_getElem? hp), Option.some.injEq, MapSlice.mk.injEq, uint16_eq_iff]

theorem named_renderFieldMap_iff (hinfo : info ∈ table.productionInfos) :
    (table.renderFieldMap (flatMap info)).map (named (table.language externalTokens)) =
        (flatMap info).map (fun field => (some field.1, field.2.index, field.2.inherited)) ↔
      ∀ field ∈ flatMap info, table.fieldNumber field.1 < 2 ^ 16 ∧ field.2.index < 2 ^ 8 := by
  rw [renderFieldMap, List.map_map, List.map_inj_left]
  refine forall₂_congr fun field hfield => ?_
  have hname := mem_fieldNames_of_mem hinfo hfield
  simp only [Function.comp_apply, named, Prod.mk.injEq, and_true, getD_fieldId_iff hname,
    uint8_eq_iff]

theorem saysFields_iff (hfields : ∀ info ∈ table.productionInfos, ∀ p ∈ info.fieldMap, p.2 ≠ []) :
    (∀ p info, table.productionInfos[p]? = some info →
      table.SaysFields (table.language externalTokens) p info) ↔ table.FieldsFit := by
  constructor
  · intro hsaid
    have hread : ∀ info ∈ table.productionInfos, ∀ field ∈ flatMap info,
        table.fieldNumber field.1 < 2 ^ 16 ∧ field.2.index < 2 ^ 8 := by
      intro info hinfo
      obtain ⟨p, hp⟩ := List.mem_iff_getElem?.1 hinfo
      have hmap := (hsaid p info hp).fields
      obtain ⟨hindex, hlength⟩ := (fieldMapSlices_eq_iff hp).1 (hsaid p info hp).slice
      have hcount : uint32 table.fieldNames.length = 0 → flatMap info = [] := by
        intro hzero
        have hcountCell : (table.language externalTokens).fieldCount = 0 := hzero
        rw [languageFieldMap, if_pos hcountCell] at hmap
        exact List.map_eq_nil_iff.1 (Option.some.inj hmap).symm
      rw [languageFieldMap_eq hp hindex hlength hcount] at hmap
      exact (named_renderFieldMap_iff hinfo).1 (Option.some.inj hmap)
    refine ⟨fieldNumbers_lt_iff.1 fun name hname => ?_, fun info hinfo => ?_,
      fun info hinfo field hfield => (hread info hinfo field hfield).2⟩
    · obtain ⟨info, hinfo, field, hfield, rfl⟩ := exists_field hfields hname
      exact (hread info hinfo field hfield).1
    · obtain ⟨p, hp⟩ := List.mem_iff_getElem?.1 hinfo
      exact (fieldMapSlices_eq_iff hp).1 (hsaid p info hp).slice
  · intro hfit p info hp
    have hinfo := List.mem_of_getElem? hp
    obtain ⟨hindex, hlength⟩ := hfit.slices info hinfo
    have hnames := hfit.names
    refine ⟨(fieldMapSlices_eq_iff hp).2 ⟨hindex, hlength⟩, ?_⟩
    have hcount : uint32 table.fieldNames.length = 0 → flatMap info = [] := by
      intro hzero
      unfold uint32 at hzero
      refine List.eq_nil_iff_forall_not_mem.2 fun field hfield => ?_
      have hpos := List.length_pos_of_mem (mem_fieldNames_of_mem hinfo hfield)
      omega
    rw [languageFieldMap_eq hp hindex hlength hcount]
    refine congrArg some ((named_renderFieldMap_iff hinfo).2 fun field hfield => ?_)
    exact ⟨fieldNumbers_lt_iff.2 hnames _ (mem_fieldNames_of_mem hinfo hfield),
      hfit.indices info hinfo field hfield⟩

end Ned.Editor.Grammar.ParseTable
