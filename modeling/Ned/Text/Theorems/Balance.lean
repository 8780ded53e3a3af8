import Ned.Library.Lemmas.MeasuredTree
import Ned.Text.Theorems.Storage

/-!
# Balance of the storages

Edits keep the trees of both storages balanced as long as every text they build is cut into a number
of leaves that pairing level by level can balance.
-/

namespace Ned.Text

open Ned.Library MeasuredTree

/-- The chunk loop cuts the text into a number of leaves that pair up evenly. -/
def EvenlyCut (chunkSize : Nat) (text : Bytes) : Prop :=
  ∀ ranges, chunkRanges (fun i => text[i]?) text.length chunkSize (text.length + 1) 0 = some ranges →
    NoAdjacentZeros (ranges.length - 1)

/-! ## Chunks are not empty -/

section Chunks

variable {byteAt byteAt' : Nat → Option UInt8} {length chunkSize : Nat}

theorem backUp_congr (h : ∀ i < length, byteAt i = byteAt' i) (k : Nat) :
    backUp byteAt length k = backUp byteAt' length k := by
  induction k with
  | zero =>
      unfold backUp
      split
      · rename_i hlt
        rw [h 0 hlt]
      · rfl
  | succ k ih =>
      unfold backUp
      split
      · rename_i hlt
        rw [h (k + 1) hlt, ih]
      · rfl

/-- The loop reads nothing past the length it is given. -/
theorem chunkRanges_congr (h : ∀ i < length, byteAt i = byteAt' i) (fuel offset : Nat) :
    chunkRanges byteAt length chunkSize fuel offset =
      chunkRanges byteAt' length chunkSize fuel offset := by
  induction fuel generalizing offset with
  | zero => rfl
  | succ fuel ih => simp only [chunkRanges, backUp_congr h, ih]

theorem chunkRanges_of_stuck {offset : Nat} (hlt : offset < length)
    (h : backUp byteAt length (min (offset + chunkSize) length) = some offset) (fuel : Nat) :
    chunkRanges byteAt length chunkSize fuel offset = none := by
  induction fuel with
  | zero => rfl
  | succ fuel ih =>
      rw [chunkRanges, if_pos hlt, h]
      simp only [Option.bind_eq_bind, Option.bind_some, ih, Option.bind_none]

variable {text : Bytes}

theorem chunkRanges_nonempty (hbyte : ∀ i < text.length, byteAt i = text[i]?) (hpos : 0 < chunkSize)
    (hlen : text.length ≤ stringMax) {fuel offset : Nat} {ranges : List (Nat × Nat)}
    (hoffset : offset = 0 ∨ continuationAt text offset = false)
    (h : chunkRanges byteAt text.length chunkSize fuel offset = some ranges) :
    ∀ range ∈ ranges, range.1 < text.length ∧ 0 < range.2 := by
  induction fuel generalizing offset ranges with
  | zero => cases h
  | succ fuel ih =>
      have hall := h
      rw [chunkRanges] at h
      split at h
      · rename_i hlt
        obtain ⟨e, he, h⟩ := Option.bind_eq_some_iff.1 h
        obtain ⟨rest, hrest, h⟩ := Option.bind_eq_some_iff.1 h
        cases h
        intro range hrange
        rcases chunkEnd_cases hbyte hpos hlt hoffset with
          ⟨e', hoe, -, -, hec, -, he'⟩ | ⟨-, he'⟩ | ⟨-, -, he'⟩
        · obtain rfl := Option.some.inj (he.symm.trans he')
          rcases List.mem_cons.1 hrange with rfl | hrange
          · exact ⟨hlt, Nat.sub_pos_of_lt hoe⟩
          · exact ih (Or.inr hec) hrest range hrange
        · rw [chunkRanges_of_stuck hlt he'] at hall
          cases hall
        · obtain rfl := Option.some.inj (he.symm.trans he')
          have hmax : text.length < sizeMax := by
            unfold sizeMax
            unfold stringMax at hlen
            omega
          have hnil : rest = [] := by
            cases fuel with
            | zero => cases hrest
            | succ fuel =>
                rw [chunkRanges, if_neg (Nat.not_lt.2 (Nat.le_of_lt hmax))] at hrest
                exact (Option.some.inj hrest).symm
          rw [hnil] at hrange
          obtain rfl := List.mem_singleton.1 hrange
          exact ⟨hlt, Nat.sub_pos_of_lt (Nat.lt_trans hlt hmax)⟩
      · cases h
        intro range hrange
        cases hrange

end Chunks

/-! ## Ropes -/

namespace Rope

/-- Every node of the rope is balanced. -/
def Balanced (rope : Rope) : Prop := BalancedOpt rope.root

theorem balancedOpt_makeLeaf (text : Bytes) : BalancedOpt (makeLeaf text) := by
  unfold makeLeaf
  split
  · exact balancedOpt_none
  · exact balancedOpt_some (balanced_leaf _ _)

theorem split_balanced {node left right : Option RopeNode} (offset : Nat) (h : BalancedOpt node)
    (hsplit : split node offset = (left, right)) : BalancedOpt left ∧ BalancedOpt right := by
  cases node with
  | none =>
      cases hsplit
      exact ⟨balancedOpt_none, balancedOpt_none⟩
  | some node =>
      refine MeasuredTree.Balanced.split .id ?_ (h node rfl) hsplit
      intro ms text o l r hleaf
      cases hleaf
      exact ⟨balancedOpt_makeLeaf _, balancedOpt_makeLeaf _⟩

/-- A rope is built balanced exactly where its text is cut evenly. -/
theorem buildBalanced_balanced_iff {text : Bytes} {node : Option RopeNode}
    (hlen : text.length ≤ stringMax) (h : buildBalanced text = some node) :
    BalancedOpt node ↔ EvenlyCut kChunkSize text := by
  unfold buildBalanced buildBalancedWithin at h
  split at h
  · rename_i hempty
    cases h
    obtain rfl := List.isEmpty_iff.1 hempty
    refine ⟨fun _ ranges hranges => ?_, fun _ => balancedOpt_none⟩
    cases hranges
    exact noAdjacentZeros_zero
  · obtain ⟨ranges, hranges, h⟩ := Option.bind_eq_some_iff.1 h
    cases h
    have hnonempty := chunkRanges_nonempty (fun _ _ => rfl) (by decide) hlen (Or.inl rfl) hranges
    rw [balanced_buildBalanced_iff, List.length_map]
    · refine ⟨fun hadj ranges' hranges' => ?_, fun hcut => hcut ranges hranges⟩
      obtain rfl := Option.some.inj (hranges.symm.trans hranges')
      exact hadj
    · intro t ht
      obtain ⟨range, hrange, rfl⟩ := List.mem_map.1 ht
      obtain ⟨hlt, hpos⟩ := hnonempty range hrange
      have hne : (substr text range.1 range.2).isEmpty = false := by
        rw [List.isEmpty_eq_false_iff, ← List.length_pos_iff, substr, List.length_take,
          List.length_drop]
        omega
      exact ⟨_, _, by rw [makeLeaf, hne]; rfl⟩

theorem Balanced.inserted {rope rope' : Rope} {o : Nat} {text : Bytes} (h : rope.Balanced)
    (hlen : text.length ≤ stringMax) (hcut : EvenlyCut kChunkSize text)
    (hins : rope.inserted o text = some rope') : rope'.Balanced := by
  unfold Rope.inserted at hins
  split at hins
  · cases hins
    exact h
  · cases hsplit : split rope.root (min o rope.byteLength) with
    | mk left right =>
        simp only [hsplit] at hins
        obtain ⟨middle, hmiddle, hins⟩ := Option.bind_eq_some_iff.1 hins
        cases hins
        obtain ⟨hleft, hright⟩ := split_balanced _ h hsplit
        have hbuilt := (buildBalanced_balanced_iff hlen hmiddle).2 hcut
        exact (hleft.concat hbuilt).concat hright

theorem Balanced.erased {rope : Rope} (h : rope.Balanced) (o n : Nat) :
    (rope.erased o n).Balanced := by
  simp only [Rope.erased]
  split
  · exact h
  · have hfirst := split_balanced (min o rope.byteLength) h rfl
    exact hfirst.1.concat (split_balanced _ hfirst.2 rfl).2

end Rope

/-! ## Piece tables -/

namespace PieceTable

/-- Every node of the piece table is balanced. -/
def Balanced (table : PieceTable) : Prop := BalancedOpt table.root

variable {heap heap' : Heap} {backing : Backing}

theorem makeLeaf_cases {source : SpanSource} {start length : Nat} {node : Option PieceNode}
    (h : makeLeaf heap backing source start length = some node) :
    (length = 0 ∧ node = none) ∨ ∃ ms span, node = some (.leaf ms span) := by
  unfold makeLeaf at h
  split at h
  · rename_i hzero
    cases h
    exact Or.inl ⟨hzero, rfl⟩
  · obtain ⟨text, -, h⟩ := Option.bind_eq_some_iff.1 h
    cases h
    exact Or.inr ⟨_, _, rfl⟩

theorem balancedOpt_makeLeaf {source : SpanSource} {start length : Nat} {node : Option PieceNode}
    (h : makeLeaf heap backing source start length = some node) : BalancedOpt node := by
  rcases makeLeaf_cases h with ⟨-, rfl⟩ | ⟨ms, span, rfl⟩
  · exact balancedOpt_none
  · exact balancedOpt_some (balanced_leaf ms span)

theorem split_balanced {node left right : Option PieceNode} {offset : Nat} (h : BalancedOpt node)
    (hsplit : split heap backing node offset = some (left, right)) :
    BalancedOpt left ∧ BalancedOpt right := by
  cases node with
  | none =>
      cases hsplit
      exact ⟨balancedOpt_none, balancedOpt_none⟩
  | some node =>
      refine MeasuredTree.Balanced.split .option ?_ (h node rfl) hsplit
      intro ms span o l r hleaf
      obtain ⟨l', hl, hleaf⟩ := Option.bind_eq_some_iff.1 hleaf
      obtain ⟨r', hr, hleaf⟩ := Option.bind_eq_some_iff.1 hleaf
      cases hleaf
      exact ⟨balancedOpt_makeLeaf hl, balancedOpt_makeLeaf hr⟩

theorem mapM_makeLeaf {source : SpanSource} {start : Nat} {ranges : List (Nat × Nat)}
    {leaves : List (Option PieceNode)} (hpos : ∀ range ∈ ranges, 0 < range.2)
    (h : ranges.mapM (fun range => makeLeaf heap backing source (start + range.1) range.2) =
      some leaves) :
    leaves.length = ranges.length ∧ ∀ t ∈ leaves, ∃ ms span, t = some (.leaf ms span) := by
  induction ranges generalizing leaves with
  | nil =>
      cases h
      exact ⟨rfl, fun t ht => absurd ht List.not_mem_nil⟩
  | cons range ranges ih =>
      rw [List.mapM_cons] at h
      obtain ⟨leaf, hleaf, h⟩ := Option.bind_eq_some_iff.1 h
      obtain ⟨rest, hrest, h⟩ := Option.bind_eq_some_iff.1 h
      cases h
      obtain ⟨hlength, hall⟩ := ih (fun r hr => hpos r (List.mem_cons_of_mem _ hr)) hrest
      refine ⟨by simp only [List.length_cons, hlength], fun t ht => ?_⟩
      rcases List.mem_cons.1 ht with rfl | ht
      · rcases makeLeaf_cases hleaf with ⟨hzero, -⟩ | hleaf
        · exact absurd hzero (Nat.ne_of_gt (hpos range List.mem_cons_self))
        · exact hleaf
      · exact hall t ht

/-- A span is built balanced exactly where its text is cut evenly. -/
theorem buildBalancedSpan_balanced_iff {source : SpanSource} {base : Bytes}
    {start length chunkSize : Nat} {node : Option PieceNode}
    (hbase : backing.base heap source = some base) (hfit : start + length ≤ base.length)
    (hlen : length ≤ stringMax) (hpos : 0 < chunkSize)
    (h : buildBalancedSpan heap backing source start length chunkSize = some node) :
    BalancedOpt node ↔ EvenlyCut chunkSize (substr base start length) := by
  have hlength := length_substr hfit
  have hread : ∀ i < length, base[start + i]? = (substr base start length)[i]? :=
    fun i hi => getElem?_substr hi
  unfold buildBalancedSpan buildBalancedSpanWithin at h
  split at h
  · rename_i hzero
    cases h
    refine ⟨fun _ ranges hranges => ?_, fun _ => balancedOpt_none⟩
    rw [hlength, hzero] at hranges
    cases hranges
    exact noAdjacentZeros_zero
  · obtain ⟨base', hbase', h⟩ := Option.bind_eq_some_iff.1 h
    obtain rfl := Option.some.inj (hbase.symm.trans hbase')
    obtain ⟨ranges, hranges, h⟩ := Option.bind_eq_some_iff.1 h
    obtain ⟨leaves, hleaves, h⟩ := Option.bind_eq_some_iff.1 h
    cases h
    have hranges : chunkRanges (fun i => (substr base start length)[i]?)
        (substr base start length).length chunkSize ((substr base start length).length + 1) 0 =
          some ranges := by
      rw [hlength, ← chunkRanges_congr hread]
      exact hranges
    have hnonempty := chunkRanges_nonempty (fun _ _ => rfl) hpos (hlength.symm ▸ hlen)
      (Or.inl rfl) hranges
    obtain ⟨hcount, hall⟩ := mapM_makeLeaf (fun r hr => (hnonempty r hr).2) hleaves
    rw [balanced_buildBalanced_iff hall, hcount]
    refine ⟨fun hadj ranges' hranges' => ?_, fun hcut => hcut ranges hranges⟩
    obtain rfl := Option.some.inj (hranges.symm.trans hranges')
    exact hadj

/-- A table over a file is balanced exactly where the file is cut evenly. -/
theorem fromFile_balanced_iff {file : Bytes} {table : PieceTable} (hlen : file.length ≤ stringMax)
    (h : fromFile heap file = some (heap', table)) :
    table.Balanced ↔ EvenlyCut kOriginalChunkSize file := by
  obtain ⟨root, hroot, h⟩ := Option.bind_eq_some_iff.1 h
  cases h
  let backing : Backing := { mappedFile := some file, added := some heap.length }
  have hbase : backing.base (heap ++ [[]]) .kOriginal = some file := rfl
  have hbuilt := buildBalancedSpan_balanced_iff hbase (by simp) hlen (by decide) hroot
  rw [substr, List.drop_zero, List.take_length] at hbuilt
  exact hbuilt

theorem ensureAdded_added (heap : Heap) (backing : Backing) :
    (backing.ensureAdded heap).2.1.added = some (backing.ensureAdded heap).2.2 := by
  unfold Backing.ensureAdded
  split
  · rfl
  · rename_i hadded
    exact hadded

theorem Balanced.inserted {table table' : PieceTable} {o : Nat} {text : Bytes}
    (h : table.Balanced) (hlen : text.length ≤ stringMax) (hcut : EvenlyCut kAddedChunkSize text)
    (hins : table.inserted heap o text = some (heap', table')) : table'.Balanced := by
  unfold PieceTable.inserted at hins
  split at hins
  · cases hins
    exact h
  · have hadded := ensureAdded_added heap table.backing
    simp only at hins
    generalize table.backing.ensureAdded heap = ensured at hins hadded
    obtain ⟨added, hget, hins⟩ := Option.bind_eq_some_iff.1 hins
    obtain ⟨⟨left, right⟩, hsplit, hins⟩ := Option.bind_eq_some_iff.1 hins
    obtain ⟨middle, hmiddle, hins⟩ := Option.bind_eq_some_iff.1 hins
    cases hins
    obtain ⟨hleft, hright⟩ := split_balanced h hsplit
    have hbase : ensured.2.1.base (ensured.1.set ensured.2.2 (added ++ text)) .kAdded =
        some (added ++ text) := by
      refine Option.bind_eq_some_iff.2 ⟨ensured.2.2, hadded, ?_⟩
      exact List.getElem?_set_self (List.getElem?_eq_some_iff.1 hget).1
    have hbuilt := buildBalancedSpan_balanced_iff hbase (by simp) hlen (by decide) hmiddle
    rw [substr, List.drop_left, List.take_length] at hbuilt
    exact (hleft.concat (hbuilt.2 hcut)).concat hright

theorem Balanced.erased {table table' : PieceTable} {o n : Nat} (h : table.Balanced)
    (herased : table.erased heap o n = some table') : table'.Balanced := by
  simp only [PieceTable.erased] at herased
  split at herased
  · cases herased
    exact h
  · obtain ⟨⟨left, rest⟩, hfirst, herased⟩ := Option.bind_eq_some_iff.1 herased
    obtain ⟨⟨removed, right⟩, hsecond, herased⟩ := Option.bind_eq_some_iff.1 herased
    cases herased
    obtain ⟨hleft, hrest⟩ := split_balanced h hfirst
    exact hleft.concat (split_balanced hrest hsecond).2

end PieceTable

/-! ## Runs -/

/-- A text that is inserted fits a string, and is cut evenly. -/
def StorageEdit.CutEvenly (chunkSize : Nat) : StorageEdit → Prop
  | .inserted _ _ text => text.length ≤ stringMax ∧ EvenlyCut chunkSize text
  | .erased .. => True

theorem ropeStep_balanced {ropes ropes' : List Rope} {edit : StorageEdit}
    (h : ∀ rope ∈ ropes, rope.Balanced) (hcut : edit.CutEvenly Rope.kChunkSize)
    (hstep : ropeStep ropes edit = some ropes') : ∀ rope ∈ ropes', rope.Balanced := by
  cases edit with
  | inserted version byteOffset text =>
      obtain ⟨old, hold, hstep⟩ := Option.bind_eq_some_iff.1 hstep
      obtain ⟨new, hnew, hstep⟩ := Option.bind_eq_some_iff.1 hstep
      cases hstep
      have hbal := (h old (List.mem_of_getElem? hold)).inserted hcut.1 hcut.2 hnew
      exact List.forall_mem_append.2 ⟨h, List.forall_mem_singleton.2 hbal⟩
  | erased version byteOffset byteLength =>
      obtain ⟨old, hold, hstep⟩ := Option.bind_eq_some_iff.1 hstep
      cases hstep
      have hbal := (h old (List.mem_of_getElem? hold)).erased byteOffset byteLength
      exact List.forall_mem_append.2 ⟨h, List.forall_mem_singleton.2 hbal⟩

theorem tableStep_balanced {state state' : Heap × List PieceTable} {edit : StorageEdit}
    (h : ∀ table ∈ state.2, table.Balanced) (hcut : edit.CutEvenly PieceTable.kAddedChunkSize)
    (hstep : tableStep state edit = some state') : ∀ table ∈ state'.2, table.Balanced := by
  cases edit with
  | inserted version byteOffset text =>
      obtain ⟨old, hold, hstep⟩ := Option.bind_eq_some_iff.1 hstep
      obtain ⟨⟨heap, new⟩, hnew, hstep⟩ := Option.bind_eq_some_iff.1 hstep
      cases hstep
      have hbal := (h old (List.mem_of_getElem? hold)).inserted hcut.1 hcut.2 hnew
      exact List.forall_mem_append.2 ⟨h, List.forall_mem_singleton.2 hbal⟩
  | erased version byteOffset byteLength =>
      obtain ⟨old, hold, hstep⟩ := Option.bind_eq_some_iff.1 hstep
      obtain ⟨new, hnew, hstep⟩ := Option.bind_eq_some_iff.1 hstep
      cases hstep
      have hbal := (h old (List.mem_of_getElem? hold)).erased hnew
      exact List.forall_mem_append.2 ⟨h, List.forall_mem_singleton.2 hbal⟩

/-- What is built from a text is balanced exactly where the text is cut evenly, and where that and
every text inserted later are, so is every version of every run. -/
theorem versions_balanced {text : Bytes} (hlen : text.length ≤ stringMax)
    (script : List StorageEdit) :
    (∀ rope ropes, Rope.ofText text = some rope → run ropeStep [rope] script = some ropes →
      (rope.Balanced ↔ EvenlyCut Rope.kChunkSize text) ∧
        (EvenlyCut Rope.kChunkSize text → (∀ edit ∈ script, edit.CutEvenly Rope.kChunkSize) →
          ∀ version ∈ ropes, version.Balanced)) ∧
      ∀ heap heap₀ heap' table tables, PieceTable.fromFile heap text = some (heap₀, table) →
        run tableStep (heap₀, [table]) script = some (heap', tables) →
        (table.Balanced ↔ EvenlyCut PieceTable.kOriginalChunkSize text) ∧
          (EvenlyCut PieceTable.kOriginalChunkSize text →
            (∀ edit ∈ script, edit.CutEvenly PieceTable.kAddedChunkSize) →
            ∀ version ∈ tables, version.Balanced) := by
  refine ⟨fun rope ropes hrope hrun => ?_, fun heap heap₀ heap' table tables htable hrun => ?_⟩
  · have hiff : rope.Balanced ↔ EvenlyCut Rope.kChunkSize text := by
      obtain ⟨node, hnode, hrope⟩ := Option.bind_eq_some_iff.1 hrope
      cases hrope
      exact Rope.buildBalanced_balanced_iff hlen hnode
    refine ⟨hiff, fun hcut hscript => ?_⟩
    exact run_invariant_of_admissible (fun ropes => ∀ rope ∈ ropes, rope.Balanced)
      (fun _ _ _ => ropeStep_balanced) (List.forall_mem_singleton.2 (hiff.2 hcut))
      (admissible_of_forall hscript) hrun
  · have hiff := PieceTable.fromFile_balanced_iff hlen htable
    refine ⟨hiff, fun hcut hscript => ?_⟩
    have hstep : ∀ state edit state', (∀ table ∈ state.2, PieceTable.Balanced table) →
        edit.CutEvenly PieceTable.kAddedChunkSize → tableStep state edit = some state' →
        ∀ table ∈ state'.2, PieceTable.Balanced table := fun _ _ _ => tableStep_balanced
    exact run_invariant_of_admissible (fun state => ∀ table ∈ state.2, table.Balanced) hstep
      (List.forall_mem_singleton.2 (hiff.2 hcut)) (admissible_of_forall hscript) hrun

/-- The sample script inserts one leaf. -/
theorem versions_balanced_sample :
    ∃ rope ropes, Rope.ofText [0xC3, 0xA9, 10] = some rope ∧
      run ropeStep [rope] [.inserted 0 2 [120], .erased 1 0 2] = some ropes ∧
        ∀ version ∈ ropes, version.Balanced := by
  obtain ⟨rope, hrope, hden⟩ := Rope.ofText_denotes sampleText_wellFormed
  obtain ⟨versions, hversions⟩ := sampleScript_wellFormed.exists_run
  have hstart : RopesDenote [rope] [[0xC3, 0xA9, 10]] := .cons hden .nil
  obtain ⟨ropes, hropes, -⟩ := hstart.run sampleScript_wellFormed hversions
  have hcut : EvenlyCut Rope.kChunkSize [0xC3, 0xA9, 10] := by
    intro ranges hranges
    cases hranges
    exact noAdjacentZeros_zero
  refine ⟨rope, ropes, hrope, hropes, ?_⟩
  refine ((versions_balanced (by decide) _).1 rope ropes hrope hropes).2 hcut fun edit hedit => ?_
  rcases List.mem_cons.1 hedit with rfl | hedit
  · refine ⟨by decide, fun ranges hranges => ?_⟩
    cases hranges
    exact noAdjacentZeros_zero
  · obtain rfl := List.mem_singleton.1 hedit
    trivial

/-- The fifth leaf of 2049 letters is carried up twice, and paired with a tree of four. -/
theorem not_versions_balanced :
    ¬ ∀ (text : Bytes) (rope : Rope), Rope.ofText text = some rope → rope.Balanced := by
  intro h
  have hcount : (chunkRanges (fun i => (List.replicate 2049 97)[i]?) 2049 Rope.kChunkSize 2050 0).map
      List.length = some 5 := by decide +kernel
  obtain ⟨ranges, hranges, hfive⟩ := Option.map_eq_some_iff.1 hcount
  have hlength : (List.replicate 2049 (97 : UInt8)).length = 2049 := List.length_replicate
  have hbuild : ∃ node, Rope.buildBalanced (List.replicate 2049 97) = some node := by
    simp only [Rope.buildBalanced, Rope.buildBalancedWithin, hlength, hranges]
    exact ⟨_, rfl⟩
  obtain ⟨node, hnode⟩ := hbuild
  have hrope : Rope.ofText (List.replicate 2049 97) = some { root := node } := by
    rw [Rope.ofText, hnode]
    rfl
  have hcut := (Rope.buildBalanced_balanced_iff (by rw [hlength]; decide) hnode).1 (h _ _ hrope)
  have hadj := hcut ranges (by rw [hlength]; exact hranges) 0
  rw [hfive] at hadj
  exact hadj (by decide) rfl

end Ned.Text
