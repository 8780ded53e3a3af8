import Ned.Text.Positions
import Ned.Text.Theorems.Storage

/-!
# Composite texts

Every text with separated ranges is a composite one, and an edit inside an editable body only rewords
it, the ranges following as the buffer moves them.
-/

namespace Ned.Text

/-! ## Edits of one part of a text -/

section Parts

variable {xs ys inserted : Bytes} {k n : Nat}

theorem insertAt_append_right : insertAt (xs ++ ys) (xs.length + k) inserted =
    xs ++ insertAt ys k inserted := by
  simp [insertAt, List.take_append, List.drop_append, List.take_of_length_le]

theorem insertAt_append_left (h : k ≤ xs.length) :
    insertAt (xs ++ ys) k inserted = insertAt xs k inserted ++ ys := by
  simp [insertAt, List.take_append_of_le_length h, List.drop_append_of_le_length h]

theorem eraseAt_append_right : eraseAt (xs ++ ys) (xs.length + k) n = xs ++ eraseAt ys k n := by
  simp [eraseAt, List.take_append, List.drop_append, List.take_of_length_le, Nat.add_assoc]

theorem eraseAt_append_left (h : k + n ≤ xs.length) :
    eraseAt (xs ++ ys) k n = eraseAt xs k n ++ ys := by
  simp [eraseAt, List.take_append_of_le_length (Nat.le_of_add_right_le h),
    List.drop_append_of_le_length h]

end Parts

namespace Excerpt

open ExcerptRange (Separated outsideFrom outside gapsFrom gaps covers)

variable {excerpt : Excerpt} {excerpts excerpts' : List Excerpt} {closing : Bytes} {offset : Nat}

theorem Apart.tail (h : Apart (excerpt :: excerpts)) : Apart excerpts :=
  fun e he => h e (List.mem_of_mem_tail he)

/-! ## Where the bodies lie -/

theorem rangesFrom_bounds (closing : Bytes) {range : ExcerptRange}
    (h : range ∈ rangesFrom offset excerpts) :
    offset ≤ range.start ∧ range.start ≤ range.stop ∧
      range.stop ≤ offset + (compose excerpts closing).length := by
  induction excerpts generalizing offset with
  | nil => cases h
  | cons excerpt excerpts ih =>
      simp only [compose, List.length_append]
      rcases List.mem_cons.1 h with rfl | h
      · simp only
        omega
      · obtain ⟨hstart, hle, hstop⟩ := ih h
        omega

theorem rangesFrom_start_lt (h : ∀ excerpt ∈ excerpts, excerpt.chrome ≠ []) {range : ExcerptRange}
    (hrange : range ∈ rangesFrom offset excerpts) : offset < range.start := by
  cases excerpts with
  | nil => cases hrange
  | cons excerpt excerpts =>
      have hpos := List.length_pos_iff.2 (h excerpt (List.mem_cons_self ..))
      rcases List.mem_cons.1 hrange with rfl | hrange
      · simp only
        omega
      · obtain ⟨hstart, -, -⟩ := rangesFrom_bounds [] hrange
        omega

theorem separated_rangesFrom (offset : Nat) (closing : Bytes) (h : Apart excerpts) :
    Separated (offset + (compose excerpts closing).length) (rangesFrom offset excerpts) := by
  refine ⟨fun range hrange => (rangesFrom_bounds closing hrange).2.1, ?_,
    fun range hrange => (rangesFrom_bounds closing hrange).2.2⟩
  induction excerpts generalizing offset with
  | nil => exact .nil
  | cons excerpt excerpts ih =>
      refine .cons (fun range hrange => ?_) (ih _ h.tail)
      exact rangesFrom_start_lt h hrange

theorem rangesFrom_editable :
    (rangesFrom offset excerpts).map (·.editable) = excerpts.map (·.editable) := by
  induction excerpts generalizing offset with
  | nil => rfl
  | cons excerpt excerpts ih => exact congrArg (excerpt.editable :: ·) ih

theorem rangesFrom_add (n : Nat) :
    rangesFrom (offset + n) excerpts =
      (rangesFrom offset excerpts).map fun range =>
        { range with start := range.start + n, stop := range.stop + n } := by
  induction excerpts generalizing offset with
  | nil => rfl
  | cons excerpt excerpts ih =>
      simp only [rangesFrom, List.map_cons, ← ih]
      rw [Nat.add_right_comm offset n, Nat.add_right_comm _ n]

/-! ## Splitting a text at its ranges -/

theorem drop_eq_substr_append_drop {text : Bytes} {i j : Nat} (h : i ≤ j) :
    text.drop i = substr text i (j - i) ++ text.drop j := by
  have hsplit := List.take_append_drop (j - i) (text.drop i)
  rw [List.drop_drop, Nat.add_sub_cancel' h] at hsplit
  exact hsplit.symm

theorem exists_compose {text : Bytes} {ranges : List ExcerptRange}
    (h : Separated text.length ranges) (hlow : ∀ range ∈ ranges, offset ≤ range.start) :
    ∃ excerpts closing, text.drop offset = compose excerpts closing ∧
      ranges = rangesFrom offset excerpts ∧ Apart excerpts ∧
      ((∀ range ∈ ranges, offset < range.start) → ∀ excerpt ∈ excerpts, excerpt.chrome ≠ []) := by
  induction ranges generalizing offset with
  | nil => exact ⟨[], text.drop offset, rfl, rfl, (fun _ he => by cases he), fun _ _ he => by cases he⟩
  | cons range ranges ih =>
      obtain ⟨hafter, hrest⟩ := List.pairwise_cons.1 h.apart
      have hordered := h.ordered range (List.mem_cons_self ..)
      have hwithin := h.within range (List.mem_cons_self ..)
      have hstart := hlow range (List.mem_cons_self ..)
      have hseparated : Separated text.length ranges :=
        ⟨fun r hr => h.ordered r (List.mem_cons_of_mem _ hr), hrest,
          fun r hr => h.within r (List.mem_cons_of_mem _ hr)⟩
      obtain ⟨excerpts, closing, htext, hranges, -, hchrome⟩ :=
        @ih range.stop hseparated fun r hr => Nat.le_of_lt (hafter r hr)
      have hlength : ∀ {i j : Nat}, i ≤ j → j ≤ text.length → (substr text i (j - i)).length = j - i :=
        fun hij hj => substr_length (by omega)
      refine ⟨{ chrome := substr text offset (range.start - offset),
                body := substr text range.start (range.stop - range.start),
                editable := range.editable } :: excerpts, closing, ?_, ?_, hchrome hafter, ?_⟩
      · rw [compose, ← htext, ← drop_eq_substr_append_drop hordered, ← drop_eq_substr_append_drop hstart]
      · simp only [rangesFrom, hlength hstart (Nat.le_trans hordered hwithin),
          hlength hordered hwithin, Nat.add_sub_cancel' hstart, Nat.add_sub_cancel' hordered]
        rw [hranges]
      · intro hlt e he
        rcases List.mem_cons.1 he with rfl | he
        · have hpos := hlt range (List.mem_cons_self ..)
          rw [← List.length_pos_iff, hlength hstart (Nat.le_trans hordered hwithin)]
          exact Nat.sub_pos_of_lt hpos
        · exact hchrome hafter e he

theorem gapsFrom_rangesFrom {text : Bytes} (closing : Bytes)
    (h : text.drop offset = compose excerpts closing)
    (hle : offset ≤ text.length) :
    gapsFrom text offset (rangesFrom offset excerpts) = excerpts.map (·.chrome) ++ [closing] := by
  induction excerpts generalizing offset with
  | nil => exact congrArg (fun rest => [rest]) h
  | cons excerpt excerpts ih =>
      have hlength := congrArg List.length h
      simp only [compose, List.length_append, List.length_drop] at hlength
      have hrest : text.drop (offset + excerpt.chrome.length + excerpt.body.length) =
          compose excerpts closing := by
        rw [Nat.add_assoc, ← List.drop_drop, h, compose, ← List.append_assoc,
          ← List.length_append, List.drop_left]
      simp only [rangesFrom, gapsFrom, List.map_cons, List.cons_append, Nat.add_sub_cancel_left]
      rw [ih hrest (by omega), substr, h, compose, List.take_left]

/-! ## What lies outside -/

theorem outsideFrom_append (ranges : List ExcerptRange) (xs ys : Bytes) :
    outsideFrom ranges offset (xs ++ ys) =
      outsideFrom ranges offset xs ++ outsideFrom ranges (offset + xs.length) ys := by
  induction xs generalizing offset with
  | nil => rfl
  | cons x xs ih =>
      simp only [List.cons_append, outsideFrom, List.length_cons, ih]
      rw [show offset + 1 + xs.length = offset + (xs.length + 1) by omega]
      split <;> rfl

theorem outsideFrom_eq_self {ranges : List ExcerptRange} {xs : Bytes}
    (h : ∀ i, offset ≤ i → i < offset + xs.length → covers ranges i = false) :
    outsideFrom ranges offset xs = xs := by
  induction xs generalizing offset with
  | nil => rfl
  | cons x xs ih =>
      rw [List.length_cons] at h
      rw [outsideFrom, h offset (Nat.le_refl _) (by omega), ih fun i hi hlt => h i (by omega) (by omega)]
      rfl

theorem outsideFrom_eq_nil {ranges : List ExcerptRange} {xs : Bytes}
    (h : ∀ i, offset ≤ i → i < offset + xs.length → covers ranges i = true) :
    outsideFrom ranges offset xs = [] := by
  induction xs generalizing offset with
  | nil => rfl
  | cons x xs ih =>
      rw [List.length_cons] at h
      rw [outsideFrom, h offset (Nat.le_refl _) (by omega), ih fun i hi hlt => h i (by omega) (by omega)]
      rfl

theorem covers_eq_false {ranges : List ExcerptRange} {i : Nat}
    (h : ∀ range ∈ ranges, range.editable = true → i < range.start ∨ range.stop ≤ i) :
    covers ranges i = false := by
  rw [covers, List.any_eq_false]
  intro range hrange hcovers
  simp only [Bool.and_eq_true, decide_eq_true_eq] at hcovers
  rcases h range hrange hcovers.1.1 with hi | hi
  · exact absurd hcovers.1.2 (Nat.not_le_of_gt hi)
  · exact absurd hcovers.2 (Nat.not_lt_of_le hi)

theorem outsideFrom_rangesFrom {before : List ExcerptRange} (h : ∀ range ∈ before, range.stop ≤ offset) :
    outsideFrom (before ++ rangesFrom offset excerpts) offset (compose excerpts closing) =
      kept excerpts closing := by
  induction excerpts generalizing offset before with
  | nil =>
      refine outsideFrom_eq_self fun i hi _ => covers_eq_false fun range hrange _ => Or.inr ?_
      rw [rangesFrom, List.append_nil] at hrange
      exact Nat.le_trans (h range hrange) hi
  | cons excerpt excerpts ih =>
      have hlater : ∀ range ∈ rangesFrom (offset + excerpt.chrome.length + excerpt.body.length) excerpts,
          offset + excerpt.chrome.length + excerpt.body.length ≤ range.start :=
        fun range hrange => (rangesFrom_bounds closing hrange).1
      have hchrome : outsideFrom (before ++ rangesFrom offset (excerpt :: excerpts)) offset
          excerpt.chrome = excerpt.chrome := by
        refine outsideFrom_eq_self fun i hi hlt => covers_eq_false fun range hrange _ => ?_
        rcases List.mem_append.1 hrange with hrange | hrange
        · exact Or.inr (Nat.le_trans (h range hrange) hi)
        · rcases List.mem_cons.1 hrange with rfl | hrange
          · exact Or.inl hlt
          · have hle := hlater range hrange
            exact Or.inl (by omega)
      have hbody : outsideFrom (before ++ rangesFrom offset (excerpt :: excerpts))
          (offset + excerpt.chrome.length) excerpt.body =
            if excerpt.editable then [] else excerpt.body := by
        split
        · rename_i heditable
          refine outsideFrom_eq_nil fun i hi hlt => ?_
          rw [covers, List.any_append, Bool.or_eq_true]
          refine Or.inr (List.any_eq_true.2 ⟨_, List.mem_cons_self .., ?_⟩)
          simp [heditable, hi, hlt]
        · rename_i heditable
          refine outsideFrom_eq_self fun i hi hlt => covers_eq_false fun range hrange hopen => ?_
          rcases List.mem_append.1 hrange with hrange | hrange
          · exact Or.inr (Nat.le_trans (h range hrange) (by omega))
          · rcases List.mem_cons.1 hrange with rfl | hrange
            · exact absurd hopen heditable
            · have hle := hlater range hrange
              exact Or.inl (by omega)
      have hbefore : ∀ range ∈ before ++
          [{ start := offset + excerpt.chrome.length, editable := excerpt.editable,
             stop := offset + excerpt.chrome.length + excerpt.body.length }],
          range.stop ≤ offset + excerpt.chrome.length + excerpt.body.length := by
        intro range hrange
        rcases List.mem_append.1 hrange with hrange | hrange
        · exact Nat.le_trans (h range hrange) (by omega)
        · obtain rfl := List.mem_singleton.1 hrange
          exact Nat.le_refl _
      have hrest := ih hbefore
      rw [List.append_assoc, List.singleton_append] at hrest
      rw [compose, outsideFrom_append, outsideFrom_append, hchrome, hbody, kept]
      exact congrArg (fun rest => excerpt.chrome ++ ((if excerpt.editable then [] else excerpt.body) ++
        rest)) hrest

theorem outside_rangesFrom :
    outside (rangesFrom 0 excerpts) (compose excerpts closing) = kept excerpts closing := by
  have hbefore : ∀ range ∈ ([] : List ExcerptRange), range.stop ≤ 0 := fun _ h => by cases h
  exact outsideFrom_rangesFrom hbefore

/-! ## Rewording -/

section Frames

variable {excerpt' : Excerpt}

theorem frame_eq_iff : excerpt'.frame = excerpt.frame ↔ excerpt'.chrome = excerpt.chrome ∧
    excerpt'.editable = excerpt.editable ∧
      (excerpt.editable = false → excerpt'.body = excerpt.body) := by
  simp only [frame, Prod.mk.injEq]
  cases heditable : excerpt.editable with
  | false =>
      constructor
      · rintro ⟨hchrome, hfixed, hbody⟩
        rw [hfixed] at hbody
        exact ⟨hchrome, hfixed, fun _ => hbody⟩
      · rintro ⟨hchrome, hfixed, hbody⟩
        rw [hfixed]
        exact ⟨hchrome, rfl, hbody rfl⟩
  | true =>
      constructor
      · rintro ⟨hchrome, hopen, -⟩
        exact ⟨hchrome, hopen, fun h => by cases h⟩
      · rintro ⟨hchrome, hopen, -⟩
        rw [hopen]
        exact ⟨hchrome, rfl, rfl⟩

theorem chromes_of_frames (h : excerpts'.map frame = excerpts.map frame) :
    excerpts'.map (·.chrome) = excerpts.map (·.chrome) := by
  have hfst := congrArg (List.map Prod.fst) h
  rwa [List.map_map, List.map_map] at hfst

theorem editables_of_frames (h : excerpts'.map frame = excerpts.map frame) :
    excerpts'.map (·.editable) = excerpts.map (·.editable) := by
  have hsnd := congrArg (List.map fun f : Bytes × Bool × Bytes => f.2.1) h
  rwa [List.map_map, List.map_map] at hsnd

theorem Apart.of_frames (h : Apart excerpts) (hframes : excerpts'.map frame = excerpts.map frame) :
    Apart excerpts' := by
  have htails := congrArg List.tail (chromes_of_frames hframes)
  rw [← List.map_tail, ← List.map_tail] at htails
  intro e he
  have hmem := List.mem_map_of_mem (f := (·.chrome)) he
  rw [htails] at hmem
  obtain ⟨e', he', heq⟩ := List.mem_map.1 hmem
  rw [← heq]
  exact h e' he'

theorem kept_of_frames (h : excerpts'.map frame = excerpts.map frame) :
    kept excerpts' closing = kept excerpts closing := by
  induction excerpts generalizing excerpts' with
  | nil =>
      obtain rfl := List.map_eq_nil_iff.1 h
      rfl
  | cons excerpt excerpts ih =>
      cases excerpts' with
      | nil => cases h
      | cons excerpt' excerpts' =>
          obtain ⟨hhead, htail⟩ := List.cons.inj h
          simp only [frame, Prod.mk.injEq] at hhead
          rw [kept, kept, ih htail, hhead.1, hhead.2.2]

end Frames

/-! ## Edits inside an editable body -/

section Edits

variable {byteOffset length : Nat} {inserted : Bytes} {range : ExcerptRange}

theorem relocateForInsert_before (hle : range.start ≤ range.stop) (h : range.stop < byteOffset) :
    range.relocateForInsert byteOffset length = range := by
  have hstart : ¬ byteOffset < range.start := by omega
  have hstop : ¬ byteOffset ≤ range.stop := by omega
  simp only [ExcerptRange.relocateForInsert, if_neg hstart, if_neg hstop, Nat.max_eq_right hle]

theorem relocateForInsert_inside (hstart : range.start ≤ byteOffset)
    (hstop : byteOffset ≤ range.stop) :
    range.relocateForInsert byteOffset length = { range with stop := range.stop + length } := by
  have hnot : ¬ byteOffset < range.start := by omega
  have hle : range.start ≤ range.stop + length := by omega
  simp only [ExcerptRange.relocateForInsert, if_neg hnot, if_pos hstop, Nat.max_eq_right hle]

theorem relocateForInsert_after (hle : range.start ≤ range.stop) (h : byteOffset < range.start) :
    range.relocateForInsert byteOffset length =
      { range with start := range.start + length, stop := range.stop + length } := by
  have hstop : byteOffset ≤ range.stop := by omega
  have hmax : range.start + length ≤ range.stop + length := Nat.add_le_add_right hle length
  simp only [ExcerptRange.relocateForInsert, if_pos h, if_pos hstop, Nat.max_eq_right hmax]

theorem exists_insert (closing : Bytes) (hapart : Apart excerpts)
    (hmem : range ∈ rangesFrom offset excerpts) (heditable : range.editable = true) (hstart : range.start ≤ byteOffset)
    (hstop : byteOffset ≤ range.stop) (inserted : Bytes) :
    ∃ excerpts', excerpts'.map frame = excerpts.map frame ∧
      rangesFrom offset excerpts' = (rangesFrom offset excerpts).map
        (ExcerptRange.relocateForInsert byteOffset inserted.length) ∧
      insertAt (compose excerpts closing) (byteOffset - offset) inserted =
        compose excerpts' closing := by
  induction excerpts generalizing offset with
  | nil => cases hmem
  | cons excerpt excerpts ih =>
      rcases List.mem_cons.1 hmem with rfl | hlater
      · simp only at heditable hstart hstop
        obtain ⟨k, rfl⟩ := Nat.exists_eq_add_of_le hstart
        have hk : k ≤ excerpt.body.length := by omega
        refine ⟨{ excerpt with body := insertAt excerpt.body k inserted } :: excerpts, ?_, ?_, ?_⟩
        · rw [List.map_cons, List.map_cons]
          exact congrArg (· :: _) (frame_eq_iff.2 ⟨rfl, rfl, fun hfixed => by simp [hfixed] at heditable⟩)
        · simp only [rangesFrom, List.map_cons]
          rw [relocateForInsert_inside (by simp only; omega) hstop, insertAt_length hk,
            ← Nat.add_assoc, rangesFrom_add]
          refine congrArg (_ :: ·) (List.map_congr_left fun later hlater => ?_)
          have hlt := rangesFrom_start_lt hapart hlater
          have hle := (rangesFrom_bounds [] hlater).2.1
          exact (relocateForInsert_after hle (by omega)).symm
        · rw [show offset + excerpt.chrome.length + k - offset = excerpt.chrome.length + k by omega,
            compose, insertAt_append_right, insertAt_append_left hk, compose]
      · obtain ⟨excerpts', hframes, hranges, htext⟩ := ih hapart.tail hlater
        have hlt := rangesFrom_start_lt hapart hlater
        refine ⟨excerpt :: excerpts', ?_, ?_, ?_⟩
        · rw [List.map_cons, List.map_cons, hframes]
        · simp only [rangesFrom, List.map_cons, hranges]
          rw [relocateForInsert_before (by simp only; omega) (by simp only; omega)]
        · have hoffset : byteOffset - offset = excerpt.chrome.length + (excerpt.body.length +
              (byteOffset - (offset + excerpt.chrome.length + excerpt.body.length))) := by omega
          rw [hoffset, compose, insertAt_append_right, insertAt_append_right, htext, compose]

theorem relocateForDelete_before {rangeStart rangeEnd : Nat} (hle : range.start ≤ range.stop)
    (h : range.stop < rangeStart) (hdel : rangeStart ≤ rangeEnd) :
    range.relocateForDelete rangeStart rangeEnd = range := by
  have hmove : ∀ offset, offset < rangeStart → relocateForDelete offset rangeStart rangeEnd = offset := by
    intro offset hoffset
    rw [relocateForDelete, if_neg (by omega), if_neg (by omega)]
  simp only [ExcerptRange.relocateForDelete, hmove range.stop h, hmove range.start (by omega)]

theorem relocateForDelete_inside {rangeStart rangeEnd : Nat} (hstart : range.start ≤ rangeStart)
    (hdel : rangeStart ≤ rangeEnd) (hstop : rangeEnd ≤ range.stop) :
    range.relocateForDelete rangeStart rangeEnd =
      { range with stop := range.stop - (rangeEnd - rangeStart) } := by
  have hkeep : relocateForDelete range.start rangeStart rangeEnd = range.start := by
    unfold relocateForDelete
    split
    · omega
    · rw [if_neg (by omega)]
  have hmove : relocateForDelete range.stop rangeStart rangeEnd =
      range.stop - (rangeEnd - rangeStart) := if_pos hstop
  simp only [ExcerptRange.relocateForDelete, hkeep, hmove]

theorem relocateForDelete_after {rangeStart rangeEnd : Nat} (hle : range.start ≤ range.stop)
    (h : rangeEnd ≤ range.start) :
    range.relocateForDelete rangeStart rangeEnd =
      { range with start := range.start - (rangeEnd - rangeStart),
                   stop := range.stop - (rangeEnd - rangeStart) } := by
  have hmove : ∀ offset, rangeEnd ≤ offset →
      relocateForDelete offset rangeStart rangeEnd = offset - (rangeEnd - rangeStart) :=
    fun offset hoffset => if_pos hoffset
  simp only [ExcerptRange.relocateForDelete, hmove range.start h, hmove range.stop (Nat.le_trans h hle)]

theorem exists_erase (closing : Bytes) {rangeStart rangeEnd : Nat} (hapart : Apart excerpts)
    (hmem : range ∈ rangesFrom offset excerpts) (heditable : range.editable = true)
    (hstart : range.start ≤ rangeStart) (hdel : rangeStart ≤ rangeEnd) (hstop : rangeEnd ≤ range.stop) :
    ∃ excerpts', excerpts'.map frame = excerpts.map frame ∧
      rangesFrom offset excerpts' = (rangesFrom offset excerpts).map
        (ExcerptRange.relocateForDelete rangeStart rangeEnd) ∧
      eraseAt (compose excerpts closing) (rangeStart - offset) (rangeEnd - rangeStart) =
        compose excerpts' closing := by
  induction excerpts generalizing offset with
  | nil => cases hmem
  | cons excerpt excerpts ih =>
      rcases List.mem_cons.1 hmem with rfl | hlater
      · simp only at heditable hstart hstop
        obtain ⟨k, rfl⟩ := Nat.exists_eq_add_of_le hstart
        obtain ⟨n, rfl⟩ := Nat.exists_eq_add_of_le hdel
        have hk : k + n ≤ excerpt.body.length := by omega
        rw [Nat.add_sub_cancel_left]
        refine ⟨{ excerpt with body := eraseAt excerpt.body k n } :: excerpts, ?_, ?_, ?_⟩
        · rw [List.map_cons, List.map_cons]
          exact congrArg (· :: _) (frame_eq_iff.2 ⟨rfl, rfl, fun hfixed => by simp [hfixed] at heditable⟩)
        · have hbase : offset + excerpt.chrome.length + excerpt.body.length =
              offset + excerpt.chrome.length + (excerpt.body.length - n) + n := by omega
          have hlater : rangesFrom (offset + excerpt.chrome.length + (excerpt.body.length - n)) excerpts =
              (rangesFrom (offset + excerpt.chrome.length + excerpt.body.length) excerpts).map
                (ExcerptRange.relocateForDelete (offset + excerpt.chrome.length + k)
                  (offset + excerpt.chrome.length + k + n)) := by
            rw [hbase, rangesFrom_add n, List.map_map]
            refine (List.map_id _).symm.trans (List.map_congr_left fun later hlater => ?_)
            obtain ⟨hlow, hle, -⟩ := rangesFrom_bounds [] hlater
            rw [Function.comp_apply, relocateForDelete_after (by simp only; omega)
              (by simp only; omega)]
            simp
          simp only [rangesFrom, List.map_cons]
          rw [relocateForDelete_inside (by simp only; omega) hdel hstop, eraseAt_length hk,
            ← hlater, Nat.add_sub_cancel_left, Nat.add_sub_assoc (by omega)]
        · rw [show offset + excerpt.chrome.length + k - offset = excerpt.chrome.length + k by omega,
            compose, eraseAt_append_right, eraseAt_append_left hk, compose]
      · obtain ⟨excerpts', hframes, hranges, htext⟩ := ih hapart.tail hlater
        have hlt := rangesFrom_start_lt hapart hlater
        refine ⟨excerpt :: excerpts', ?_, ?_, ?_⟩
        · rw [List.map_cons, List.map_cons, hframes]
        · simp only [rangesFrom, List.map_cons, hranges]
          rw [relocateForDelete_before (by simp only; omega) (by simp only; omega) hdel]
        · have hoffset : rangeStart - offset = excerpt.chrome.length + (excerpt.body.length +
              (rangeStart - (offset + excerpt.chrome.length + excerpt.body.length))) := by omega
          rw [hoffset, compose, eraseAt_append_right, eraseAt_append_right, htext, compose]

end Edits

end Excerpt

end Ned.Text
