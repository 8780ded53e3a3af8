import Ned.Text.Lemmas.Bytes
import Ned.Text.Lemmas.Chunks
import Ned.Text.PieceTable

/-!
# Lemmas on piece tables

What each operation of `PieceTable` does to the text it denotes. A table keeps its text while the
heap grows: a span names bytes that an append never moves.
-/

namespace Ned.Text

open Ned.Library MeasuredTree

/-! ## Growing heaps -/

/-- Every buffer of `heap` is still there, possibly with bytes appended. -/
def Heap.Grows (heap heap' : Heap) : Prop :=
  ∀ (address : Nat) (buffer : Bytes), heap[address]? = some buffer →
    ∃ added, heap'[address]? = some (buffer ++ added)

theorem Heap.Grows.refl (heap : Heap) : heap.Grows heap :=
  fun _ _ h => ⟨[], by rw [h, List.append_nil]⟩

theorem Heap.Grows.trans {heap₁ heap₂ heap₃ : Heap} (h : Heap.Grows heap₁ heap₂)
    (h' : Heap.Grows heap₂ heap₃) : Heap.Grows heap₁ heap₃ := by
  intro address buffer hget
  obtain ⟨added, hget⟩ := h address buffer hget
  obtain ⟨added', hget⟩ := h' address _ hget
  exact ⟨added ++ added', by rw [hget, List.append_assoc]⟩

theorem Heap.grows_alloc (heap : Heap) (buffer : Bytes) : heap.Grows (heap ++ [buffer]) := by
  intro address b hget
  have hlt := (List.getElem?_eq_some_iff.1 hget).1
  exact ⟨[], by rw [List.getElem?_append_left hlt, hget, List.append_nil]⟩

theorem Heap.grows_set {heap : Heap} {address : Nat} {buffer : Bytes} (added : Bytes)
    (h : heap[address]? = some buffer) : heap.Grows (heap.set address (buffer ++ added)) := by
  intro address' b hget
  by_cases heq : address = address'
  · subst heq
    obtain rfl : buffer = b := Option.some.inj (h.symm.trans hget)
    exact ⟨added, List.getElem?_set_self (List.getElem?_eq_some_iff.1 h).1⟩
  · exact ⟨[], by rw [List.getElem?_set_ne heq, hget, List.append_nil]⟩

/-- The backing resolves at least what it resolved before, with the same bytes in front. -/
def Backing.Grows (heap : Heap) (backing : Backing) (heap' : Heap) (backing' : Backing) : Prop :=
  ∀ source base, backing.base heap source = some base →
    ∃ added, backing'.base heap' source = some (base ++ added)

theorem Heap.Grows.backing {heap heap' : Heap} (h : heap.Grows heap') (backing : Backing) :
    backing.Grows heap heap' backing := by
  intro source base hbase
  cases source with
  | kOriginal => exact ⟨[], by rw [List.append_nil]; exact hbase⟩
  | kAdded =>
      obtain ⟨address, haddr, hget⟩ := Option.bind_eq_some_iff.1 hbase
      obtain ⟨added, hget⟩ := h address base hget
      exact ⟨added, Option.bind_eq_some_iff.2 ⟨address, haddr, hget⟩⟩

namespace PieceTable

variable {start : UInt8 → Bool} {heap heap' : Heap} {backing backing' : Backing}

/-! ## Spans -/

theorem spanView_eq_some {ms : Counts} {leaf : Span} {text : Bytes} :
    spanView heap backing ms leaf = some text ↔ ∃ base, backing.base heap leaf.source = some base ∧
      leaf.start + ms.byteLength ≤ base.length ∧ substr base leaf.start ms.byteLength = text := by
  constructor
  · intro h
    obtain ⟨base, hbase, h⟩ := Option.bind_eq_some_iff.1 h
    split at h
    · rename_i hle
      exact ⟨base, hbase, hle, Option.some.inj h⟩
    · cases h
  · rintro ⟨base, hbase, hle, rfl⟩
    exact Option.bind_eq_some_iff.2 ⟨base, hbase, if_pos hle⟩

theorem spanView_length {ms : Counts} {leaf : Span} {text : Bytes}
    (h : spanView heap backing ms leaf = some text) : text.length = ms.byteLength := by
  obtain ⟨base, _, hle, rfl⟩ := spanView_eq_some.1 h
  rw [substr, List.length_take, List.length_drop]
  omega

theorem spanView_grows (h : backing.Grows heap heap' backing') {ms : Counts} {leaf : Span}
    {text : Bytes} (hview : spanView heap backing ms leaf = some text) :
    spanView heap' backing' ms leaf = some text := by
  obtain ⟨base, hbase, hle, rfl⟩ := spanView_eq_some.1 hview
  obtain ⟨added, hbase'⟩ := h _ _ hbase
  refine spanView_eq_some.2 ⟨base ++ added, hbase', ?_, ?_⟩
  · rw [List.length_append]
    omega
  · rw [substr, List.drop_append_of_le_length (by omega),
      List.take_append_of_le_length (by rw [List.length_drop]; omega), substr]

/-- The node, null or not, stands for `text`. -/
abbrev NodeDenotes (start : UInt8 → Bool) (heap : Heap) (backing : Backing)
    (node : Option PieceNode) (text : Bytes) : Prop :=
  DenotesOpt textMeasure (spanView heap backing) start node text

def Denotes (heap : Heap) (table : PieceTable) (text : Bytes) : Prop :=
  NodeDenotes isStartByte heap table.backing table.root text

theorem NodeDenotes.grows {node : Option PieceNode} {text : Bytes}
    (h : NodeDenotes start heap backing node text) (hgrows : backing.Grows heap heap' backing') :
    NodeDenotes start heap' backing' node text :=
  h.mono (fun _ _ _ hview => spanView_grows hgrows hview) (fun _ hc => hc)

theorem Denotes.grows {table : PieceTable} {text : Bytes} (h : Denotes heap table text)
    (hgrows : heap.Grows heap') : Denotes heap' table text :=
  NodeDenotes.grows h (hgrows.backing table.backing)

/-! ## Leaves -/

theorem makeLeaf_denotes (start : UInt8 → Bool) {source : SpanSource} (o n : Nat) {base : Bytes}
    (hbase : backing.base heap source = some base) (hle : o + n ≤ base.length)
    (hstart : n = 0 ∨ Starts start (substr base o n)) :
    ∃ node, makeLeaf heap backing source o n = some node ∧
      NodeDenotes start heap backing node (substr base o n) := by
  rw [makeLeaf]
  by_cases hn : n = 0
  · rw [if_pos hn]
    exact ⟨none, rfl, by simp [DenotesOpt, substr, hn]⟩
  · rw [if_neg hn]
    have hview : ∀ ms : Counts, ms.byteLength = n →
        spanView heap backing ms ⟨source, o⟩ = some (substr base o n) := by
      intro ms hms
      exact spanView_eq_some.2 ⟨base, hbase, by rw [hms]; exact hle, by rw [hms]⟩
    simp only [hview ⟨n, 0, 0⟩ rfl, Option.bind_eq_bind, Option.bind_some]
    have hlen := spanView_length (hview ⟨n, 0, 0⟩ rfl)
    refine ⟨_, rfl, MeasuredTree.Denotes.leaf (hview _ rfl) ?_ (hstart.resolve_left hn)⟩
    show Counts.mk _ _ _ = Counts.of _
    rw [Counts.of, hlen]

theorem splitsLeaves : SplitsLeaves textMeasure (spanView heap backing) start
    (splitLeaf heap backing) := by
  intro ms leaf u o hview hms hu hcut ho hlt
  obtain ⟨base, hbase, hle, rfl⟩ := spanView_eq_some.1 hview
  have hlen := spanView_length hview
  have hl : substr base leaf.start o = (substr base leaf.start ms.byteLength).take o := by
    rw [substr, substr, List.take_take, Nat.min_eq_left (by omega)]
  have hr : substr base (leaf.start + o) (ms.byteLength - o) =
      (substr base leaf.start ms.byteLength).drop o := by
    rw [substr, substr, List.drop_take, List.drop_drop]
  obtain ⟨l, hmkl, hdl⟩ := makeLeaf_denotes start leaf.start o hbase (by omega)
    (Or.inr (hl ▸ hu.take ho))
  obtain ⟨r, hmkr, hdr⟩ := makeLeaf_denotes start (leaf.start + o) (ms.byteLength - o) hbase
    (by omega) (Or.inr (hr ▸ hcut.drop_starts hlt))
  refine ⟨l, r, ?_, hl ▸ hdl, hr ▸ hdr⟩
  simp only [splitLeaf, hmkl, hmkr, Option.bind_eq_bind, Option.bind_some, Option.pure_def]

theorem split_denotes {node : Option PieceNode} {text : Bytes} {o : Nat}
    (h : NodeDenotes start heap backing node text) (ho : Cut start text o) :
    ∃ l r, split heap backing node o = some (l, r) ∧
      NodeDenotes start heap backing l (text.take o) ∧
        NodeDenotes start heap backing r (text.drop o) := by
  cases node with
  | none =>
      cases h
      exact ⟨none, none, rfl, List.take_nil, List.drop_nil⟩
  | some node => exact MeasuredTree.Denotes.split splitsLeaves h ho

theorem makeLeaf_tiles {source : SpanSource} {base : Bytes} {o n : Nat}
    (hbase : backing.base heap source = some base) (hle : o + n ≤ base.length) :
    ∀ {ranges : List (Nat × Nat)} {offset : Nat}, Tiles start (substr base o n) offset ranges →
      ∃ leaves pieces,
        ranges.mapM (fun range => makeLeaf heap backing source (o + range.1) range.2) = some leaves ∧
          DenotesAll textMeasure (spanView heap backing) start leaves pieces ∧
            pieces.flatten = (substr base o n).drop offset
  | [], _, h => ⟨[], [], rfl, .nil, by rw [Tiles] at h; simp [h]⟩
  | (p, k) :: rest, offset, ⟨hp, hk, hpk, hcut, hrest⟩ => by
      obtain ⟨leaves, pieces, hmap, hall, hflat⟩ := makeLeaf_tiles hbase hle hrest
      subst hp
      have hlen : (substr base o n).length = n := by
        rw [substr, List.length_take, List.length_drop]
        omega
      have hsub : substr base (o + p) k = ((substr base o n).drop p).take k := by
        rw [substr, substr, List.drop_take, List.take_take, List.drop_drop,
          Nat.min_eq_left (by omega)]
      obtain ⟨leaf, hleaf, hden⟩ := makeLeaf_denotes start (o + p) k hbase
        (by omega) (Or.inr (hsub ▸ (hcut.drop_starts (by omega)).take hk))
      refine ⟨leaf :: leaves, substr base (o + p) k :: pieces, ?_, .cons hden hall, ?_⟩
      · simp only [List.mapM_cons, hleaf, hmap, Option.bind_eq_bind, Option.bind_some,
          Option.pure_def]
      · rw [List.flatten_cons, hflat, ← List.drop_drop, hsub, List.take_append_drop]

theorem buildBalancedSpanWithin_denotes {source : SpanSource} {base : Bytes}
    {o n chunkSize fuel : Nat} {ranges : List (Nat × Nat)}
    (hbase : backing.base heap source = some base) (hle : o + n ≤ base.length)
    (hranges : chunkRanges (fun i => base[o + i]?) n chunkSize fuel 0 = some ranges)
    (htiles : Tiles start (substr base o n) 0 ranges) :
    ∃ node, buildBalancedSpanWithin heap backing fuel source o n chunkSize = some node ∧
      NodeDenotes start heap backing node (substr base o n) := by
  rw [buildBalancedSpanWithin]
  by_cases hn : n = 0
  · rw [if_pos hn]
    exact ⟨none, rfl, by simp [DenotesOpt, substr, hn]⟩
  · obtain ⟨leaves, pieces, hmap, hall, hflat⟩ := makeLeaf_tiles hbase hle htiles
    simp only [if_neg hn, hbase, hranges, hmap, Option.bind_eq_bind, Option.bind_some]
    refine ⟨_, rfl, ?_⟩
    have := hall.buildBalanced
    rwa [hflat] at this

theorem getElem?_substr {base : Bytes} {o n i : Nat} (hi : i < n) :
    base[o + i]? = (substr base o n)[i]? := by
  rw [substr, List.getElem?_take, if_pos hi, List.getElem?_drop]

theorem nodeLeaves_eq {node : Option PieceNode} {text : Bytes}
    (h : NodeDenotes start heap backing node text) :
    ∃ leaves, nodeLeaves heap backing node = some leaves ∧ (∀ leaf ∈ leaves, leaf ≠ []) ∧
      leaves.flatten = text := by
  cases node with
  | none =>
      cases h
      exact ⟨[], rfl, by simp, rfl⟩
  | some node =>
      obtain ⟨leaves, hmap, hflat, hne⟩ := MeasuredTree.Denotes.leaves_eq h
      exact ⟨leaves, hmap, fun leaf hleaf => (hne leaf hleaf).ne_nil, hflat⟩

theorem length_substr {base : Bytes} {o n : Nat} (h : o + n ≤ base.length) :
    (substr base o n).length = n := by
  rw [substr, List.length_take, List.length_drop]
  omega

/-! ## Which spans can be built -/

section Builds

variable {source : SpanSource} {base : Bytes} {o n chunkSize : Nat}

theorem builds_of_not_stalls (hbase : backing.base heap source = some base)
    (hle : o + n ≤ base.length) (hpos : 0 < chunkSize)
    (hunder : ¬Underflows chunkSize (substr base o n))
    (hstall : ∀ p, ¬StallsAt chunkSize (substr base o n) p) :
    Builds heap backing source o n chunkSize (substr base o n) := by
  have hlen := length_substr hle
  have hbyte : ∀ i < (substr base o n).length, base[o + i]? = (substr base o n)[i]? :=
    fun i hi => getElem?_substr (by omega)
  obtain ⟨ranges, hranges, htiles⟩ := chunkRanges_tiles (fun _ => true) (fun _ _ => rfl) hbyte
    hpos hunder hstall (n + 1) 0 (by omega) (Nat.zero_le _) (Or.inl rfl) (fun _ _ => rfl)
  rw [hlen] at hranges
  obtain ⟨node, hnode, hden⟩ := buildBalancedSpanWithin_denotes hbase hle hranges htiles
  obtain ⟨leaves, hleaves, hne, hflat⟩ := nodeLeaves_eq hden
  exact ⟨_, node, leaves, hnode, hleaves, hne, hflat⟩

theorem not_builds_of_underflows (hbase : backing.base heap source = some base)
    (hle : o + n ≤ base.length) (hmax : base.length ≤ stringMax) (hpos : 0 < chunkSize)
    (hunder : Underflows chunkSize (substr base o n)) :
    ¬Builds heap backing source o n chunkSize (substr base o n) := by
  rintro ⟨fuel, node, _, hnode, _⟩
  have hlen := length_substr hle
  have hlt := continuationAt_lt (hunder 0 (Nat.zero_le _))
  simp only [buildBalancedSpanWithin, if_neg (show ¬n = 0 by omega), hbase, Option.bind_eq_bind,
    Option.bind_some] at hnode
  obtain ⟨ranges, hranges, hnode⟩ := Option.bind_eq_some_iff.1 hnode
  obtain ⟨leaves, hleaves, _⟩ := Option.bind_eq_some_iff.1 hnode
  rw [← hlen] at hranges
  have hranges := eq_of_chunkRanges_underflow (fun i hi => getElem?_substr (by omega)) hpos
    (by omega) hunder hranges
  subst hranges
  have hview : spanView heap backing { byteLength := sizeMax, codepointLength := 0, lineCount := 0 }
      { source := source, start := o + 0 } = none := by
    rw [Option.eq_none_iff_forall_ne_some]
    intro text htext
    obtain ⟨base', hbase', hfit, _⟩ := spanView_eq_some.1 htext
    obtain rfl : base = base' := Option.some.inj (hbase.symm.trans hbase')
    have hsize : stringMax < sizeMax := by decide
    dsimp only at hfit
    omega
  simp only [List.mapM_cons, makeLeaf, hview, if_neg (show ¬sizeMax = 0 by decide),
    Option.bind_eq_bind, Option.bind_none] at hleaves
  cases hleaves

theorem not_builds_of_stallsAt (hle : o + n ≤ base.length)
    (hbase : backing.base heap source = some base) (hpos : 0 < chunkSize)
    (hunder : ¬Underflows chunkSize (substr base o n)) {p : Nat}
    (hstall : StallsAt chunkSize (substr base o n) p) :
    ¬Builds heap backing source o n chunkSize (substr base o n) := by
  rintro ⟨fuel, node, _, hnode, _⟩
  have hlen := length_substr hle
  have hlt := hstall.1
  simp only [buildBalancedSpanWithin, if_neg (show ¬n = 0 by omega), hbase, Option.bind_eq_bind,
    Option.bind_some] at hnode
  obtain ⟨ranges, hranges, _⟩ := Option.bind_eq_some_iff.1 hnode
  have hbyte : ∀ i < (substr base o n).length, base[o + i]? = (substr base o n)[i]? :=
    fun i hi => getElem?_substr (by omega)
  rw [← hlen, chunkRanges_stall hbyte hpos hunder hstall (Nat.zero_le p) (Or.inl rfl)] at hranges
  cases hranges

theorem builds_iff_not_stalls (hbase : backing.base heap source = some base)
    (hle : o + n ≤ base.length) (hmax : base.length ≤ stringMax) (hpos : 0 < chunkSize) :
    Builds heap backing source o n chunkSize (substr base o n) ↔
      ¬Underflows chunkSize (substr base o n) ∧
        ∀ p, ¬StallsAt chunkSize (substr base o n) p := by
  constructor
  · intro h
    have hunder : ¬Underflows chunkSize (substr base o n) :=
      fun hunder => not_builds_of_underflows hbase hle hmax hpos hunder h
    exact ⟨hunder, fun p hstall => not_builds_of_stallsAt hle hbase hpos hunder hstall h⟩
  · rintro ⟨hunder, hstall⟩
    exact builds_of_not_stalls hbase hle hpos hunder hstall

end Builds

/-! ## Well-formed spans can be built -/

theorem buildBalancedSpan_denotes {source : SpanSource} {base : Bytes} (o n chunkSize : Nat)
    (hbase : backing.base heap source = some base) (hle : o + n ≤ base.length)
    (htext : WellFormedUtf8 (substr base o n)) (hsize : 4 ≤ chunkSize) :
    ∃ node, buildBalancedSpan heap backing source o n chunkSize = some node ∧
      NodeDenotes isStartByte heap backing node (substr base o n) := by
  have hlen : (substr base o n).length = n := by
    rw [substr, List.length_take, List.length_drop]
    omega
  have hbyte : ∀ i < (substr base o n).length, base[o + i]? = (substr base o n)[i]? :=
    fun i hi => getElem?_substr (by omega)
  have hpos : 0 < chunkSize := by omega
  obtain ⟨ranges, hranges, htiles⟩ := chunkRanges_tiles isStartByte (fun _ h => h) hbyte hpos
    htext.not_underflows (htext.not_stallsAt hsize) (n + 1) 0 (by omega) (Nat.zero_le _)
    (Or.inl rfl) htext.cut_zero
  rw [hlen] at hranges
  exact buildBalancedSpanWithin_denotes hbase hle hranges htiles

/-! ## Sizes -/

variable {table : PieceTable} {text : Bytes}

theorem Denotes.byteLength (h : Denotes heap table text) : table.byteLength = text.length := by
  obtain ⟨root, backing⟩ := table
  cases root with
  | none =>
      cases h
      rfl
  | some node => exact MeasuredTree.Denotes.size_eq h

theorem Denotes.codepointLength (h : Denotes heap table text) :
    table.codepointLength = countCodepoints text := by
  obtain ⟨root, backing⟩ := table
  cases root with
  | none =>
      cases h
      rfl
  | some node => exact MeasuredTree.Denotes.count_eq codepointCounter h

theorem Denotes.lineCount (h : Denotes heap table text) :
    table.lineCount = countNewlines text + 1 := by
  obtain ⟨root, backing⟩ := table
  cases root with
  | none =>
      cases h
      rfl
  | some node => exact congrArg (· + 1) (MeasuredTree.Denotes.count_eq newlineCounter h)

/-! ## Construction and edits -/

/-- A table that has an append buffer names one that exists. -/
def HasBuffer (heap : Heap) (table : PieceTable) : Prop :=
  ∀ address, table.backing.added = some address → address < heap.length

theorem HasBuffer.exists_buffer (h : HasBuffer heap table) {address : Nat}
    (haddr : table.backing.added = some address) : ∃ buffer, heap[address]? = some buffer :=
  ⟨_, List.getElem?_eq_getElem (h address haddr)⟩

theorem HasBuffer.grows (h : HasBuffer heap table) (hgrows : heap.Grows heap') :
    HasBuffer heap' table := by
  intro address haddr
  obtain ⟨buffer, hbuffer⟩ := h.exists_buffer haddr
  obtain ⟨added, hget⟩ := hgrows address buffer hbuffer
  exact (List.getElem?_eq_some_iff.1 hget).1

theorem fromFile_denotes (heap : Heap) {file : Bytes} (h : WellFormedUtf8 file) :
    ∃ heap' table, fromFile heap file = some (heap', table) ∧ heap.Grows heap' ∧
      HasBuffer heap' table ∧ Denotes heap' table file := by
  have hsub : substr file 0 file.length = file := by simp [substr]
  let backing : Backing := { mappedFile := some file, added := some heap.length }
  have hbase : backing.base (heap ++ [[]]) .kOriginal = some file := rfl
  obtain ⟨node, hnode, hden⟩ := buildBalancedSpan_denotes 0 file.length kOriginalChunkSize hbase
    (by omega) (hsub.symm ▸ h) (by decide)
  rw [hsub] at hden
  refine ⟨heap ++ [[]], { root := node, backing := backing }, ?_, Heap.grows_alloc heap [], ?_, hden⟩
  · simp only [fromFile, fromFileRange, backing, hnode, Option.bind_eq_bind, Option.bind_some]
  · intro address haddr
    obtain rfl : heap.length = address := Option.some.inj haddr
    rw [List.length_append]
    exact Nat.lt_succ_self _

theorem ensureAdded_spec (h : HasBuffer heap table) :
    ∃ heap₁ backing₁ address buffer,
      table.backing.ensureAdded heap = (heap₁, backing₁, address) ∧ heap.Grows heap₁ ∧
        heap₁[address]? = some buffer ∧ backing₁.added = some address ∧
          backing₁.mappedFile = table.backing.mappedFile ∧
            ∀ a, table.backing.added = some a → a = address := by
  cases hadded : table.backing.added with
  | none =>
      refine ⟨heap ++ [[]], { table.backing with added := some heap.length }, heap.length, [],
        ?_, Heap.grows_alloc heap [], ?_, rfl, rfl, fun a ha => by cases ha⟩
      · simp only [Backing.ensureAdded, hadded]
      · rw [List.getElem?_append_right (Nat.le_refl _), Nat.sub_self]
        rfl
  | some address =>
      obtain ⟨buffer, hget⟩ := h.exists_buffer hadded
      refine ⟨heap, table.backing, address, buffer, ?_, Heap.Grows.refl heap, hget, hadded, rfl,
        fun a ha => ?_⟩
      · simp only [Backing.ensureAdded, hadded]
      · exact (Option.some.inj ha).symm

theorem Denotes.inserted {added : Bytes} {o : Nat} (h : Denotes heap table text)
    (hbuf : HasBuffer heap table) (ho : Cut isStartByte text o) (hadded : WellFormedUtf8 added) :
    ∃ heap' table', inserted heap table o added = some (heap', table') ∧ heap.Grows heap' ∧
      HasBuffer heap' table' ∧ Denotes heap' table' (insertAt text o added) := by
  unfold PieceTable.inserted
  split
  · rename_i hempty
    obtain rfl := List.isEmpty_iff.1 hempty
    exact ⟨heap, table, rfl, Heap.Grows.refl heap, hbuf, by simpa [insertAt] using h⟩
  · obtain ⟨heap₁, backing₁, address, buffer, hensure, hgrows₁, hget, haddr, hmapped, hsame⟩ :=
      ensureAdded_spec hbuf
    have hlt := (List.getElem?_eq_some_iff.1 hget).1
    have hgrows₂ := Heap.grows_set added hget
    have hgrows := hgrows₁.trans hgrows₂
    -- the old backing reads through the new one
    have hbacking : table.backing.Grows (heap₁.set address (buffer ++ added))
        (heap₁.set address (buffer ++ added)) backing₁ := by
      intro source base hbase
      refine ⟨[], ?_⟩
      rw [List.append_nil]
      cases source with
      | kOriginal => rw [← hbase]; exact hmapped
      | kAdded =>
          obtain ⟨a, ha, hget'⟩ := Option.bind_eq_some_iff.1 hbase
          obtain rfl := hsame a ha
          exact Option.bind_eq_some_iff.2 ⟨a, haddr, hget'⟩
    have hbase : backing₁.base (heap₁.set address (buffer ++ added)) .kAdded =
        some (buffer ++ added) :=
      Option.bind_eq_some_iff.2 ⟨address, haddr, List.getElem?_set_self hlt⟩
    have hsub : substr (buffer ++ added) buffer.length added.length = added := by
      rw [substr, List.drop_left, List.take_length]
    have h₂ : Denotes (heap₁.set address (buffer ++ added)) table text := h.grows hgrows
    obtain ⟨l, r, hsplit, hl, hr⟩ := split_denotes h₂ (cut_min ho)
    obtain ⟨middle, hmiddle, hden⟩ := buildBalancedSpan_denotes buffer.length added.length
      kAddedChunkSize hbase (by simp) (hsub.symm ▸ hadded) (by decide)
    rw [hsub] at hden
    rw [take_min_length] at hl
    rw [drop_min_length] at hr
    refine ⟨heap₁.set address (buffer ++ added),
      { root := concat (concat l middle) r, backing := backing₁ }, ?_, hgrows, ?_, ?_⟩
    · simp only [hensure, hget, h.byteLength, hsplit, hmiddle, Option.bind_eq_bind,
        Option.bind_some]
    · intro a ha
      obtain rfl : address = a := Option.some.inj (haddr.symm.trans ha)
      rw [List.length_set]
      exact hlt
    · exact ((hl.grows hbacking).concat hden).concat (hr.grows hbacking)

theorem Denotes.erased {o n : Nat} (h : Denotes heap table text) (hbuf : HasBuffer heap table)
    (ho : Cut isStartByte text o) (hn : Cut isStartByte text (o + n)) :
    ∃ table', erased heap table o n = some table' ∧ HasBuffer heap table' ∧
      Denotes heap table' (eraseAt text o n) := by
  simp only [PieceTable.erased, h.byteLength]
  split
  · rename_i hzero
    refine ⟨table, rfl, hbuf, ?_⟩
    rw [eraseAt, ← drop_drop_min, hzero, List.drop_zero, drop_min_length, List.take_append_drop]
    exact h
  · obtain ⟨l, rest, hsplit, hl, hrest⟩ := split_denotes h (cut_min ho)
    have hcut : Cut isStartByte (text.drop (min o text.length))
        (min n (text.length - min o text.length)) := by
      intro c hc
      rw [← List.head?_drop, drop_drop_min, List.head?_drop] at hc
      exact hn c hc
    obtain ⟨mid, r, hsplit', _, hr⟩ := split_denotes hrest hcut
    rw [take_min_length] at hl
    rw [drop_drop_min] at hr
    refine ⟨{ root := concat l r, backing := table.backing }, ?_, hbuf, hl.concat hr⟩
    simp only [hsplit, hsplit', Option.bind_eq_bind, Option.bind_some]

/-! ## Queries -/

theorem NodeDenotes.anywhere {node : Option PieceNode}
    (h : NodeDenotes start heap backing node text) :
    NodeDenotes (fun _ => true) heap backing node text :=
  h.mono (fun _ _ _ h => h) (fun _ _ => rfl)

theorem nodeToString_denotes {node : Option PieceNode}
    (h : NodeDenotes start heap backing node text) :
    nodeToString heap backing node = some text := by
  cases node with
  | none => exact congrArg some h.symm
  | some node => exact MeasuredTree.Denotes.toList h

theorem Denotes.toString (h : Denotes heap table text) : toString heap table = some text :=
  nodeToString_denotes h

theorem Denotes.substring (h : Denotes heap table text) (o n : Nat) :
    substring heap table o n = some (substr text o n) := by
  obtain ⟨_, rest, hsplit, _, hrest⟩ := split_denotes h.anywhere
    (o := min o text.length) (fun _ _ => rfl)
  obtain ⟨middle, _, hsplit', hmiddle, _⟩ := split_denotes hrest
    (o := min n (text.length - min o text.length)) (fun _ _ => rfl)
  simp only [PieceTable.substring, h.byteLength, hsplit, hsplit', Option.bind_eq_bind,
    Option.bind_some]
  rw [nodeToString_denotes hmiddle, take_drop_min]

theorem Denotes.byteOffsetToLine (h : Denotes heap table text) (o : Nat) :
    byteOffsetToLine heap table o = some (countNewlines (text.take o)) := by
  have hlen := h.byteLength
  obtain ⟨root, backing⟩ := table
  cases root with
  | none =>
      cases h
      simp [PieceTable.byteOffsetToLine]
  | some node =>
      simp only [PieceTable.byteOffsetToLine, hlen]
      rw [← take_min_length]
      exact MeasuredTree.Denotes.countBefore newlineCounter h _

theorem Denotes.byteOffsetToCodepointOffset (h : Denotes heap table text) (o : Nat) :
    byteOffsetToCodepointOffset heap table o = some (countCodepoints (text.take o)) := by
  have hlen := h.byteLength
  obtain ⟨root, backing⟩ := table
  cases root with
  | none =>
      cases h
      simp [PieceTable.byteOffsetToCodepointOffset]
  | some node =>
      simp only [PieceTable.byteOffsetToCodepointOffset, hlen]
      rw [← take_min_length]
      exact MeasuredTree.Denotes.countBefore codepointCounter h _

theorem Denotes.lineToByteOffset (h : Denotes heap table text) (line : Nat) :
    lineToByteOffset heap table line = some (lineStart text line) := by
  obtain ⟨root, backing⟩ := table
  cases root with
  | none =>
      cases h
      cases line <;> rfl
  | some node =>
      have hsize := MeasuredTree.Denotes.size_eq h
      have hcount : node.measure.lineCount = countNewlines text :=
        MeasuredTree.Denotes.count_eq newlineCounter h
      simp only [PieceTable.lineToByteOffset]
      split
      · rename_i hzero
        subst hzero
        cases text <;> rfl
      · rename_i hpos
        split
        · rename_i hgt
          rw [lineStart_of_lt (by omega)]
          exact congrArg some hsize
        · rw [← scanTo_line text (by omega)]
          exact MeasuredTree.Denotes.find newlineCounter (scanSplits_line _) h (by omega)

theorem Denotes.codepointOffsetToByteOffset (h : Denotes heap table text) (k : Nat) :
    codepointOffsetToByteOffset heap table k = some (codepointStart text k) := by
  obtain ⟨root, backing⟩ := table
  cases root with
  | none =>
      cases h
      rfl
  | some node =>
      have hsize := MeasuredTree.Denotes.size_eq h
      have hcount : node.measure.codepointLength = countCodepoints text :=
        MeasuredTree.Denotes.count_eq codepointCounter h
      simp only [PieceTable.codepointOffsetToByteOffset]
      split
      · rename_i hzero
        subst hzero
        exact congrArg some (codepointStart_zero (MeasuredTree.Denotes.starts h)).symm
      · rename_i hpos
        split
        · rename_i hge
          rw [codepointStart_of_le (by omega)]
          exact congrArg some hsize
        · rw [← scanTo_codepoint text]
          exact MeasuredTree.Denotes.find codepointCounter scanSplits_codepoint h (by omega)

theorem Denotes.byteAt (h : Denotes heap table text) {o : Nat} (ho : o < text.length) :
    byteAt heap table o = text[o]? := by
  obtain ⟨root, backing⟩ := table
  cases root with
  | none =>
      cases h
      simp at ho
  | some node => exact MeasuredTree.Denotes.itemAt (fun _ _ _ => rfl) h ho

theorem Denotes.codepointAt (h : Denotes heap table text) (o : Nat) :
    codepointAt heap table o = Text.codepointAt (fun i => text[i]?) text.length o := by
  rw [PieceTable.codepointAt, h.byteLength, codepointAt_congr fun i hi => h.byteAt hi]

theorem Denotes.previousCodepointBoundary (h : Denotes heap table text) {o : Nat}
    (ho : o ≤ text.length) : previousCodepointBoundary heap table o =
      Text.previousCodepointBoundary (fun i => text[i]?) text.length o := by
  rw [PieceTable.previousCodepointBoundary, h.byteLength,
    previousCodepointBoundary_congr (fun i hi => h.byteAt hi) ho]

theorem Denotes.nextCodepointBoundary (h : Denotes heap table text) (o : Nat) :
    nextCodepointBoundary heap table o =
      Text.nextCodepointBoundary (fun i => text[i]?) text.length o := by
  rw [PieceTable.nextCodepointBoundary, h.byteLength,
    nextCodepointBoundary_congr fun i hi => h.byteAt hi]

end PieceTable

end Ned.Text
