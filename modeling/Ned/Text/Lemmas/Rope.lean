import Ned.Text.Lemmas.Bytes
import Ned.Text.Lemmas.Chunks
import Ned.Text.Storage

/-!
# Lemmas on ropes

What each operation of `Rope` does to the text it denotes.
-/

namespace Ned.Text

open Ned.Library MeasuredTree

namespace Rope

variable {start : UInt8 → Bool}

abbrev NodeDenotes (start : UInt8 → Bool) (node : Option RopeNode) (text : Bytes) : Prop :=
  DenotesOpt textMeasure view start node text

def Denotes (rope : Rope) (text : Bytes) : Prop := NodeDenotes isStartByte rope.root text

/-- The rope stands for `text`, cut into leaves anywhere. -/
def Holds (rope : Rope) (text : Bytes) : Prop := NodeDenotes (fun _ => true) rope.root text

theorem NodeDenotes.anywhere {node : Option RopeNode} {text : Bytes} (h : NodeDenotes start node text) :
    NodeDenotes (fun _ => true) node text :=
  h.mono (fun _ _ _ h => h) (fun _ _ => rfl)

theorem Denotes.holds {rope : Rope} {text : Bytes} (h : rope.Denotes text) : rope.Holds text :=
  NodeDenotes.anywhere h

/-! ## Leaves -/

theorem makeLeaf_denotes {text : Bytes} (h : text = [] ∨ Starts start text) :
    NodeDenotes start (makeLeaf text) text := by
  rcases h with rfl | h
  · rfl
  · have hne : text.isEmpty = false := by simpa using h.ne_nil
    rw [makeLeaf, hne]
    exact .leaf rfl rfl h

theorem splitsLeaves : SplitsLeaves textMeasure view start splitLeaf := by
  intro ms text u o hview _ hu hcut ho hlt
  have hview : text = u := hview
  subst hview
  refine ⟨_, _, rfl, ?_, ?_⟩
  · exact makeLeaf_denotes (Or.inr (hu.take ho))
  · exact makeLeaf_denotes (Or.inr (hcut.drop_starts hlt))

theorem split_denotes {node : Option RopeNode} {text : Bytes} {o : Nat}
    (h : NodeDenotes start node text) (ho : Cut start text o) :
    NodeDenotes start (split node o).1 (text.take o) ∧
      NodeDenotes start (split node o).2 (text.drop o) := by
  cases node with
  | none =>
      cases h
      exact ⟨List.take_nil, List.drop_nil⟩
  | some node =>
      obtain ⟨l, r, heq, hl, hr⟩ := MeasuredTree.Denotes.split splitsLeaves h ho
      have heq : MeasuredTree.split Counts.byteLength splitLeaf node o = (l, r) := heq
      simp only [split, Id.run, heq]
      exact ⟨hl, hr⟩

theorem makeLeaf_tiles {text : Bytes} : ∀ {ranges : List (Nat × Nat)} {offset : Nat},
    Tiles start text offset ranges → ∃ pieces,
      DenotesAll textMeasure view start
        (ranges.map fun range => makeLeaf (substr text range.1 range.2)) pieces ∧
        pieces.flatten = text.drop offset
  | [], _, h => ⟨[], .nil, by rw [Tiles] at h; simp [h]⟩
  | (p, n) :: rest, offset, ⟨hp, hn, hle, hcut, hrest⟩ => by
      obtain ⟨pieces, hall, hflat⟩ := makeLeaf_tiles hrest
      subst hp
      refine ⟨substr text p n :: pieces, .cons (makeLeaf_denotes (Or.inr ?_)) hall, ?_⟩
      · exact (hcut.drop_starts (by omega)).take hn
      · rw [List.flatten_cons, hflat, ← List.drop_drop, substr, List.take_append_drop]

theorem buildBalancedWithin_denotes {text : Bytes} {fuel : Nat} {ranges : List (Nat × Nat)}
    (hranges : chunkRanges (fun i => text[i]?) text.length kChunkSize fuel 0 = some ranges)
    (htiles : Tiles start text 0 ranges) :
    ∃ node, buildBalancedWithin fuel text = some node ∧ NodeDenotes start node text := by
  unfold buildBalancedWithin
  split
  · rename_i hempty
    exact ⟨none, rfl, List.isEmpty_iff.1 hempty⟩
  · obtain ⟨pieces, hall, hflat⟩ := makeLeaf_tiles htiles
    simp only [hranges, Option.bind_eq_bind, Option.bind_some]
    refine ⟨_, rfl, ?_⟩
    have := hall.buildBalanced
    rwa [hflat] at this

theorem nodeLeaves_eq {node : Option RopeNode} {text : Bytes} (h : NodeDenotes start node text) :
    (∀ leaf ∈ nodeLeaves node, leaf ≠ []) ∧ (nodeLeaves node).flatten = text := by
  cases node with
  | none =>
      cases h
      exact ⟨by simp [nodeLeaves], rfl⟩
  | some node =>
      obtain ⟨pieces, hmap, hflat, hne⟩ := MeasuredTree.Denotes.leaves_eq h
      have hmap : node.leaves.map Prod.snd = pieces :=
        (List.mapM_pure (m := Id) (f := Prod.snd)).symm.trans hmap
      rw [nodeLeaves, hmap]
      exact ⟨fun leaf hleaf => (hne leaf hleaf).ne_nil, hflat⟩

/-! ## Which texts can be built -/

theorem builds_of_not_stalls {text : Bytes} (hunder : ¬Underflows kChunkSize text)
    (hstall : ∀ p, ¬StallsAt kChunkSize text p) : Builds text := by
  have hbyte : ∀ i < text.length, text[i]? = text[i]? := fun _ _ => rfl
  obtain ⟨ranges, hranges, htiles⟩ := chunkRanges_tiles (fun _ => true) (fun _ _ => rfl) hbyte
    (by decide) hunder hstall (text.length + 1) 0 (by omega) (Nat.zero_le _) (Or.inl rfl)
    (fun _ _ => rfl)
  obtain ⟨node, hnode, hden⟩ := buildBalancedWithin_denotes hranges htiles
  exact ⟨_, node, hnode, nodeLeaves_eq hden⟩

theorem starts_of_underflows {text : Bytes} (hunder : Underflows kChunkSize text) :
    Starts (fun _ => true) text := by
  have hlt := continuationAt_lt (hunder 0 (Nat.zero_le _))
  cases text with
  | nil => cases hlt
  | cons c text => exact ⟨c, text, rfl, rfl⟩

theorem buildBalancedWithin_of_underflows {text : Bytes} (hlen : text.length ≤ stringMax)
    (hunder : Underflows kChunkSize text) (fuel : Nat) :
    buildBalancedWithin (fuel + 2) text = some (some (.leaf (Counts.of text) text)) := by
  have hempty : text.isEmpty = false := by simpa using (starts_of_underflows hunder).ne_nil
  have hmax : substr text 0 sizeMax = text := by
    rw [substr, List.drop_zero, List.take_of_length_le]
    unfold sizeMax
    unfold stringMax at hlen
    omega
  have hbyte : ∀ i < text.length, text[i]? = text[i]? := fun _ _ => rfl
  have hranges := chunkRanges_underflow hbyte (by decide) hlen hunder fuel
  simp only [buildBalancedWithin, hempty, hranges, Option.bind_eq_bind, Option.bind_some,
    List.map_cons, List.map_nil, hmax, makeLeaf, Bool.false_eq_true, if_false]
  rw [MeasuredTree.buildBalanced, if_neg (by simp)]
  rfl

theorem builds_of_underflows {text : Bytes} (hlen : text.length ≤ stringMax)
    (hunder : Underflows kChunkSize text) : Builds text := by
  refine ⟨2, _, buildBalancedWithin_of_underflows hlen hunder 0, ?_, List.flatten_singleton⟩
  intro leaf hleaf
  obtain rfl := List.mem_singleton.1 hleaf
  exact (starts_of_underflows hunder).ne_nil

theorem buildBalancedWithin_of_stallsAt {text : Bytes} {fuel : Nat}
    (hunder : ¬Underflows kChunkSize text) {p : Nat} (hstall : StallsAt kChunkSize text p) :
    buildBalancedWithin fuel text = none := by
  have hempty : text.isEmpty = false := by
    have := hstall.1
    cases text with
    | nil => simp at this
    | cons c text => rfl
  simp only [buildBalancedWithin, hempty, Bool.false_eq_true, if_false]
  rw [chunkRanges_stall (fun _ _ => rfl) (by decide) hunder hstall (Nat.zero_le p) (Or.inl rfl)]
  rfl

theorem not_builds_of_stallsAt {text : Bytes} (hunder : ¬Underflows kChunkSize text) {p : Nat}
    (hstall : StallsAt kChunkSize text p) : ¬Builds text := by
  rintro ⟨fuel, node, hnode, _⟩
  rw [buildBalancedWithin_of_stallsAt hunder hstall] at hnode
  cases hnode

theorem builds_iff_not_stalls {text : Bytes} (hlen : text.length ≤ stringMax) :
    Builds text ↔ Underflows kChunkSize text ∨ ∀ p, ¬StallsAt kChunkSize text p := by
  constructor
  · intro h
    by_cases hunder : Underflows kChunkSize text
    · exact Or.inl hunder
    · exact Or.inr fun p hstall => not_builds_of_stallsAt hunder hstall h
  · intro h
    by_cases hunder : Underflows kChunkSize text
    · exact builds_of_underflows hlen hunder
    · exact builds_of_not_stalls hunder (h.resolve_left hunder)

/-! ## Well-formed text can be built -/

theorem buildBalanced_denotes {text : Bytes} (h : WellFormedUtf8 text) :
    ∃ node, buildBalanced text = some node ∧ NodeDenotes isStartByte node text := by
  have hbyte : ∀ i < text.length, text[i]? = text[i]? := fun _ _ => rfl
  have hsize : 4 ≤ kChunkSize := by decide
  obtain ⟨ranges, hranges, htiles⟩ := chunkRanges_tiles isStartByte (fun _ h => h) hbyte
    (by decide) h.not_underflows (h.not_stallsAt hsize) (text.length + 1) 0 (by omega)
    (Nat.zero_le _) (Or.inl rfl) h.cut_zero
  exact buildBalancedWithin_denotes hranges htiles

/-! ## Sizes -/

theorem Holds.byteLength {rope : Rope} {text : Bytes} (h : rope.Holds text) :
    rope.byteLength = text.length := by
  obtain ⟨root⟩ := rope
  cases root with
  | none =>
      cases h
      rfl
  | some node => exact MeasuredTree.Denotes.size_eq h

theorem Denotes.byteLength {rope : Rope} {text : Bytes} (h : rope.Denotes text) :
    rope.byteLength = text.length := h.holds.byteLength

theorem Denotes.codepointLength {rope : Rope} {text : Bytes} (h : rope.Denotes text) :
    rope.codepointLength = countCodepoints text := by
  obtain ⟨root⟩ := rope
  cases root with
  | none =>
      cases h
      rfl
  | some node => exact MeasuredTree.Denotes.count_eq codepointCounter h

theorem Denotes.lineCount {rope : Rope} {text : Bytes} (h : rope.Denotes text) :
    rope.lineCount = countNewlines text + 1 := by
  obtain ⟨root⟩ := rope
  cases root with
  | none =>
      cases h
      rfl
  | some node => exact congrArg (· + 1) (MeasuredTree.Denotes.count_eq newlineCounter h)

/-! ## Construction and edits -/

theorem Denotes.empty : empty.Denotes [] := rfl

theorem ofText_denotes {text : Bytes} (h : WellFormedUtf8 text) :
    ∃ rope, ofText text = some rope ∧ rope.Denotes text := by
  obtain ⟨node, hnode, hden⟩ := buildBalanced_denotes h
  exact ⟨{ root := node }, by simp [ofText, hnode], hden⟩

theorem Denotes.inserted {rope : Rope} {text added : Bytes} {o : Nat} (h : rope.Denotes text)
    (ho : Cut isStartByte text o) (hadded : WellFormedUtf8 added) :
    ∃ rope', rope.inserted o added = some rope' ∧ rope'.Denotes (insertAt text o added) := by
  unfold Rope.inserted
  split
  · rename_i hempty
    obtain rfl := List.isEmpty_iff.1 hempty
    exact ⟨rope, rfl, by simpa [insertAt] using h⟩
  · obtain ⟨middle, hmiddle, hden⟩ := buildBalanced_denotes hadded
    rw [h.byteLength]
    obtain ⟨hl, hr⟩ := split_denotes h (cut_min ho)
    rw [take_min_length] at hl
    rw [drop_min_length] at hr
    refine ⟨_, by simp only [hmiddle, Option.bind_eq_bind, Option.bind_some]; rfl, ?_⟩
    exact (hl.concat hden).concat hr

theorem Denotes.erased {rope : Rope} {text : Bytes} {o n : Nat} (h : rope.Denotes text)
    (ho : Cut isStartByte text o) (hn : Cut isStartByte text (o + n)) :
    (rope.erased o n).Denotes (eraseAt text o n) := by
  simp only [Rope.erased, h.byteLength]
  split
  · rename_i hzero
    rw [eraseAt, ← drop_drop_min, hzero, List.drop_zero, drop_min_length, List.take_append_drop]
    exact h
  · obtain ⟨hl, hrest⟩ := split_denotes h (cut_min ho)
    have hcut : Cut isStartByte (text.drop (min o text.length))
        (min n (text.length - min o text.length)) := by
      intro c hc
      rw [← List.head?_drop, drop_drop_min, List.head?_drop] at hc
      exact hn c hc
    obtain ⟨_, hr⟩ := split_denotes hrest hcut
    rw [take_min_length] at hl
    rw [drop_drop_min] at hr
    exact hl.concat hr

/-! ## Queries -/

theorem nodeToString_denotes {node : Option RopeNode} {text : Bytes}
    (h : NodeDenotes start node text) : nodeToString node = text := by
  cases node with
  | none => exact h.symm
  | some node => exact MeasuredTree.Denotes.toList h

theorem Holds.toString {rope : Rope} {text : Bytes} (h : rope.Holds text) :
    rope.toString = text :=
  nodeToString_denotes h

theorem Denotes.toString {rope : Rope} {text : Bytes} (h : rope.Denotes text) :
    rope.toString = text :=
  nodeToString_denotes h

theorem Denotes.substring {rope : Rope} {text : Bytes} (h : rope.Denotes text) (o n : Nat) :
    rope.substring o n = substr text o n := by
  simp only [Rope.substring, h.byteLength]
  obtain ⟨_, hrest⟩ := split_denotes h.anywhere
    (o := min o text.length) (fun _ _ => rfl)
  obtain ⟨hmiddle, _⟩ := split_denotes hrest
    (o := min n (text.length - min o text.length)) (fun _ _ => rfl)
  rw [nodeToString_denotes hmiddle, take_drop_min]

theorem Denotes.byteOffsetToLine {rope : Rope} {text : Bytes} (h : rope.Denotes text) (o : Nat) :
    rope.byteOffsetToLine o = countNewlines (text.take o) := by
  have hlen := h.byteLength
  obtain ⟨root⟩ := rope
  cases root with
  | none =>
      cases h
      simp [Rope.byteOffsetToLine]
  | some node =>
      simp only [Rope.byteOffsetToLine, hlen]
      rw [← take_min_length]
      exact MeasuredTree.Denotes.countBefore newlineCounter h _

theorem Holds.byteOffsetToCodepointOffset {rope : Rope} {text : Bytes} (h : rope.Holds text)
    (o : Nat) : rope.byteOffsetToCodepointOffset o = countCodepoints (text.take o) := by
  have hlen := h.byteLength
  obtain ⟨root⟩ := rope
  cases root with
  | none =>
      cases h
      simp [Rope.byteOffsetToCodepointOffset]
  | some node =>
      simp only [Rope.byteOffsetToCodepointOffset, hlen]
      rw [← take_min_length]
      exact MeasuredTree.Denotes.countBefore codepointCounter h _

theorem Denotes.byteOffsetToCodepointOffset {rope : Rope} {text : Bytes} (h : rope.Denotes text)
    (o : Nat) : rope.byteOffsetToCodepointOffset o = countCodepoints (text.take o) :=
  h.holds.byteOffsetToCodepointOffset o

theorem Denotes.lineToByteOffset {rope : Rope} {text : Bytes} (h : rope.Denotes text)
    (line : Nat) : rope.lineToByteOffset line = lineStart text line := by
  obtain ⟨root⟩ := rope
  cases root with
  | none =>
      cases h
      cases line <;> rfl
  | some node =>
      have hsize := MeasuredTree.Denotes.size_eq h
      have hcount : node.measure.lineCount = countNewlines text :=
        MeasuredTree.Denotes.count_eq newlineCounter h
      simp only [Rope.lineToByteOffset]
      split
      · rename_i hzero
        subst hzero
        cases text <;> rfl
      · rename_i hpos
        split
        · rename_i hgt
          rw [lineStart_of_lt (by omega)]
          exact hsize
        · rw [← scanTo_line text (by omega)]
          exact MeasuredTree.Denotes.find newlineCounter (scanSplits_line _) h (by omega)

theorem Denotes.codepointOffsetToByteOffset {rope : Rope} {text : Bytes} (h : rope.Denotes text)
    (k : Nat) : rope.codepointOffsetToByteOffset k = codepointStart text k := by
  obtain ⟨root⟩ := rope
  cases root with
  | none =>
      cases h
      rfl
  | some node =>
      have hsize := MeasuredTree.Denotes.size_eq h
      have hcount : node.measure.codepointLength = countCodepoints text :=
        MeasuredTree.Denotes.count_eq codepointCounter h
      simp only [Rope.codepointOffsetToByteOffset]
      split
      · rename_i hzero
        subst hzero
        exact (codepointStart_zero (MeasuredTree.Denotes.starts h)).symm
      · rename_i hpos
        split
        · rename_i hge
          rw [codepointStart_of_le (by omega)]
          exact hsize
        · rw [← scanTo_codepoint text]
          exact MeasuredTree.Denotes.find codepointCounter scanSplits_codepoint h (by omega)

theorem Holds.byteAt {rope : Rope} {text : Bytes} (h : rope.Holds text) {o : Nat}
    (ho : o < text.length) : rope.byteAt o = text[o]? := by
  obtain ⟨root⟩ := rope
  cases root with
  | none =>
      cases h
      simp at ho
  | some node =>
      have hview : MeasuredTree.Denotes textMeasure (fun _ text => some text) (fun _ => true)
          node text :=
        MeasuredTree.Denotes.mono h (fun _ _ _ hv => congrArg some hv) (fun _ hc => hc)
      exact MeasuredTree.Denotes.itemAt (fun s o ho => List.getElem?_append_left ho) hview ho

theorem Holds.codepointAt {rope : Rope} {text : Bytes} (h : rope.Holds text) (o : Nat) :
    rope.codepointAt o = Text.codepointAt (fun i => text[i]?) text.length o := by
  rw [Rope.codepointAt, h.byteLength, codepointAt_congr fun i hi => h.byteAt hi]

theorem Denotes.codepointAt {rope : Rope} {text : Bytes} (h : rope.Denotes text) (o : Nat) :
    rope.codepointAt o = Text.codepointAt (fun i => text[i]?) text.length o :=
  h.holds.codepointAt o

theorem Holds.previousCodepointBoundary {rope : Rope} {text : Bytes} (h : rope.Holds text)
    {o : Nat} (ho : o ≤ text.length) : rope.previousCodepointBoundary o =
      Text.previousCodepointBoundary (fun i => text[i]?) text.length o := by
  rw [Rope.previousCodepointBoundary, h.byteLength,
    previousCodepointBoundary_congr (fun i hi => h.byteAt hi) ho]

theorem Denotes.previousCodepointBoundary {rope : Rope} {text : Bytes} (h : rope.Denotes text)
    {o : Nat} (ho : o ≤ text.length) : rope.previousCodepointBoundary o =
      Text.previousCodepointBoundary (fun i => text[i]?) text.length o :=
  h.holds.previousCodepointBoundary ho

theorem Holds.nextCodepointBoundary {rope : Rope} {text : Bytes} (h : rope.Holds text)
    (o : Nat) : rope.nextCodepointBoundary o =
      Text.nextCodepointBoundary (fun i => text[i]?) text.length o := by
  rw [Rope.nextCodepointBoundary, h.byteLength,
    nextCodepointBoundary_congr fun i hi => h.byteAt hi]

theorem Denotes.nextCodepointBoundary {rope : Rope} {text : Bytes} (h : rope.Denotes text)
    (o : Nat) : rope.nextCodepointBoundary o =
      Text.nextCodepointBoundary (fun i => text[i]?) text.length o :=
  h.holds.nextCodepointBoundary o

/-! ## What can be built -/

theorem buildBalanced_holds {text : Bytes} {node : Option RopeNode} (hlen : text.length ≤ stringMax)
    (h : buildBalanced text = some node) : NodeDenotes (fun _ => true) node text := by
  have hbyte : ∀ i < text.length, text[i]? = text[i]? := fun _ _ => rfl
  by_cases hunder : Underflows kChunkSize text
  · obtain ⟨fuel, hfuel⟩ : ∃ fuel, text.length + 1 = fuel + 2 := by
      have hlt := continuationAt_lt (hunder 0 (Nat.zero_le _))
      exact ⟨text.length - 1, by omega⟩
    rw [buildBalanced, hfuel, buildBalancedWithin_of_underflows hlen hunder] at h
    cases h
    exact .leaf rfl rfl (starts_of_underflows hunder)
  · have hstall : ∀ p, ¬StallsAt kChunkSize text p := by
      intro p hstall
      rw [buildBalanced, buildBalancedWithin_of_stallsAt hunder hstall] at h
      cases h
    obtain ⟨ranges, hranges, htiles⟩ := chunkRanges_tiles (fun _ => true) (fun _ _ => rfl) hbyte
      (by decide) hunder hstall (text.length + 1) 0 (by omega) (Nat.zero_le _) (Or.inl rfl)
      (fun _ _ => rfl)
    obtain ⟨node', hnode', hden⟩ := buildBalancedWithin_denotes hranges htiles
    obtain rfl := Option.some.inj (h.symm.trans hnode')
    exact hden

/-- The ropes that edits make, out of texts that a string can hold. -/
inductive Built : Rope → Prop
  | empty : Built .empty
  | ofText {text : Bytes} {rope : Rope} (hlen : text.length ≤ stringMax)
      (h : Rope.ofText text = some rope) : Built rope
  | inserted {rope rope' : Rope} {byteOffset : Nat} {text : Bytes} (hrope : Built rope)
      (hlen : text.length ≤ stringMax) (h : rope.inserted byteOffset text = some rope') : Built rope'
  | erased {rope : Rope} (byteOffset byteLength : Nat) (hrope : Built rope) :
      Built (rope.erased byteOffset byteLength)

theorem Built.exists_holds {rope : Rope} (h : Built rope) : ∃ text, rope.Holds text := by
  induction h with
  | empty => exact ⟨[], rfl⟩
  | ofText hlen h =>
      obtain ⟨node, hnode, h⟩ := Option.bind_eq_some_iff.1 h
      cases h
      exact ⟨_, buildBalanced_holds hlen hnode⟩
  | @inserted rope rope' byteOffset text _ hlen h ih =>
      obtain ⟨content, hcontent⟩ := ih
      simp only [Rope.inserted] at h
      split at h
      · cases h
        exact ⟨content, hcontent⟩
      · obtain ⟨middle, hmiddle, h⟩ := Option.bind_eq_some_iff.1 h
        cases h
        obtain ⟨hleft, hright⟩ := split_denotes hcontent
          (o := min byteOffset rope.byteLength) (fun _ _ => rfl)
        exact ⟨_, (hleft.concat (buildBalanced_holds hlen hmiddle)).concat hright⟩
  | @erased rope byteOffset byteLength _ ih =>
      obtain ⟨content, hcontent⟩ := ih
      simp only [Rope.erased]
      split
      · exact ⟨content, hcontent⟩
      · obtain ⟨hleft, hrest⟩ := split_denotes hcontent
          (o := min byteOffset rope.byteLength) (fun _ _ => rfl)
        obtain ⟨-, hright⟩ := split_denotes hrest
          (o := min byteLength (rope.byteLength - min byteOffset rope.byteLength)) (fun _ _ => rfl)
        exact ⟨_, hleft.concat hright⟩

end Rope

end Ned.Text
