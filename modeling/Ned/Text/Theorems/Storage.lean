import Ned.Text.Lemmas.PieceTable
import Ned.Text.Lemmas.Rope
import Ned.Text.Lemmas.Versions
import Ned.Text.Storage

/-!
# Lemmas on text storage

The flat storage stands for the trees behind it, and the changed region is empty exactly when two
versions hold the same bytes.
-/

namespace Ned.Text

/-! ## Edits of well-formed text -/

namespace Storage

@[simp] theorem byteLength_mk (bytes : Bytes) (huge : Bool) :
    byteLength { bytes := bytes, huge := huge } = bytes.length := rfl

theorem inserted_eq_some {storage storage' : Storage} {o : Nat} {text : Bytes}
    (h : storage.inserted o text = some storage') :
    storage' = { storage with bytes := insertAt storage.bytes o text } := by
  unfold inserted at h
  split at h
  · rename_i hempty
    obtain rfl := List.isEmpty_iff.1 hempty
    cases h
    simp [insertAt]
  · split at h
    · exact (Option.some.inj h).symm
    · cases h

end Storage

/-! ## Common lengths -/

theorem commonLength_le_left (a b : Bytes) : commonLength a b ≤ a.length := by
  induction a generalizing b with
  | nil => simp
  | cons x a ih =>
      cases b with
      | nil => simp
      | cons y b =>
          have := ih b
          simp only [commonLength_cons, List.length_cons]
          split <;> omega

theorem commonLength_le_right (a b : Bytes) : commonLength a b ≤ b.length := by
  induction a generalizing b with
  | nil => simp
  | cons x a ih =>
      cases b with
      | nil => simp
      | cons y b =>
          have := ih b
          simp only [commonLength_cons, List.length_cons]
          split <;> omega

theorem take_commonLength (a b : Bytes) :
    a.take (commonLength a b) = b.take (commonLength a b) := by
  induction a generalizing b with
  | nil => simp
  | cons x a ih =>
      cases b with
      | nil => simp
      | cons y b =>
          simp only [commonLength_cons]
          split
          · rename_i hxy
            rw [List.take_succ_cons, List.take_succ_cons, eq_of_beq hxy, ih b]
          · rfl

theorem commonLength_self (a : Bytes) : commonLength a a = a.length := by
  induction a with
  | nil => rfl
  | cons x a ih => simp [commonLength_cons, ih]

theorem getElem?_commonLength_ne {a b : Bytes} (ha : commonLength a b < a.length)
    (hb : commonLength a b < b.length) : a[commonLength a b]? ≠ b[commonLength a b]? := by
  induction a generalizing b with
  | nil => cases ha
  | cons x a ih =>
      cases b with
      | nil => cases hb
      | cons y b =>
          simp only [commonLength_cons, List.length_cons] at ha hb ⊢
          split
          · rename_i hxy
            rw [if_pos hxy] at ha hb
            exact ih (Nat.lt_of_succ_lt_succ ha) (Nat.lt_of_succ_lt_succ hb)
          · rename_i hxy
            simpa using hxy

theorem commonLength_eq_zero_iff {a b : Bytes} (ha : a ≠ []) (hb : b ≠ []) :
    commonLength a b = 0 ↔ a.head? ≠ b.head? := by
  cases a with
  | nil => exact absurd rfl ha
  | cons x a =>
      cases b with
      | nil => exact absurd rfl hb
      | cons y b => simp [commonLength_cons]

theorem le_commonLength {a b : Bytes} {k : Nat} (ha : k ≤ a.length) (hb : k ≤ b.length)
    (h : a.take k = b.take k) : k ≤ commonLength a b := by
  induction k generalizing a b with
  | zero => exact Nat.zero_le _
  | succ k ih =>
      cases a with
      | nil => cases ha
      | cons x a =>
          cases b with
          | nil => cases hb
          | cons y b =>
              rw [List.take_succ_cons, List.take_succ_cons, List.cons.injEq] at h
              rw [commonLength_cons, if_pos (beq_iff_eq.2 h.1)]
              exact Nat.succ_le_succ
                (ih (Nat.le_of_succ_le_succ ha) (Nat.le_of_succ_le_succ hb) h.2)

theorem commonLength_append {s s' t t' : Bytes} (h : s.length = t.length) :
    commonLength (s ++ s') (t ++ t') =
      if commonLength s t < s.length then commonLength s t else s.length + commonLength s' t' := by
  induction s generalizing t with
  | nil =>
      obtain rfl := List.length_eq_zero_iff.1 h.symm
      simp
  | cons x s ih =>
      cases t with
      | nil => cases h
      | cons y t =>
          simp only [List.cons_append, commonLength_cons, List.length_cons]
          split
          · rw [ih (Nat.succ.inj h)]
            simp only [Nat.add_lt_add_iff_right]
            split <;> omega
          · rw [if_pos (Nat.succ_pos _)]

theorem commonLength_take (a b : Bytes) (n : Nat) :
    commonLength (a.take n) (b.take n) = min n (commonLength a b) := by
  induction n generalizing a b with
  | zero => simp
  | succ n ih =>
      cases a with
      | nil => simp
      | cons x a =>
          cases b with
          | nil => simp
          | cons y b =>
              simp only [List.take_succ_cons, commonLength_cons, ih]
              split <;> omega

theorem substr_length {text : Bytes} {o n : Nat} (h : o + n ≤ text.length) :
    (substr text o n).length = n := by
  rw [substr, List.length_take, List.length_drop]
  omega

theorem take_add_substr (text : Bytes) (o n : Nat) :
    text.take (o + n) = text.take o ++ substr text o n :=
  List.take_add

theorem getElem?_substr {text : Bytes} {o n i : Nat} (h : i < n) :
    (substr text o n)[i]? = text[o + i]? := by
  rw [substr, List.getElem?_take_of_lt h, List.getElem?_drop]

theorem substr_append_substr (text : Bytes) (o m n : Nat) :
    substr text o m ++ substr text (o + m) n = substr text o (m + n) := by
  rw [substr, substr, substr, List.take_add, List.drop_drop]

theorem reverse_substr {text : Bytes} {o n : Nat} (h : o + n ≤ text.length) :
    (substr text (text.length - o - n) n).reverse = substr text.reverse o n := by
  have hlen : (text.take (text.length - o)).length = text.length - o := by
    rw [List.length_take]
    omega
  have hn : text.length - o - (text.length - o - n) = n := by omega
  rw [substr, substr, List.drop_reverse, List.take_reverse, hlen, List.drop_take, hn]

theorem commonPrefixFrom_eq {a b : Bytes} {maxLen checked blockSize : Nat} (ha : maxLen ≤ a.length)
    (hb : maxLen ≤ b.length) (hc : checked ≤ maxLen) (hsize : 0 < blockSize) :
    commonPrefixFrom a b maxLen checked blockSize =
      checked + commonLength (substr a checked (maxLen - checked))
        (substr b checked (maxLen - checked)) := by
  induction checked, blockSize using commonPrefixFrom.induct a b maxLen with
  | case3 checked blockSize h =>
      have hchecked : maxLen - checked = 0 := by omega
      rw [commonPrefixFrom, dif_neg h, hchecked]
      simp only [substr, List.take_zero, commonLength_nil_left]
      omega
  | case1 checked blockSize h len common hlt =>
      have hla : (substr a checked len).length = len := substr_length (by omega)
      have hlb : (substr b checked len).length = len := substr_length (by omega)
      have hsplit : maxLen - checked = len + (maxLen - checked - len) := by omega
      have hcommon : commonLength (substr a checked (maxLen - checked))
          (substr b checked (maxLen - checked)) = common := by
        rw [hsplit, ← substr_append_substr, ← substr_append_substr,
          commonLength_append (hla.trans hlb.symm), hla]
        exact if_pos hlt
      rw [commonPrefixFrom, dif_pos h, hcommon]
      exact if_pos hlt
  | case2 checked blockSize h len common hge ih =>
      have hla : (substr a checked len).length = len := substr_length (by omega)
      have hlb : (substr b checked len).length = len := substr_length (by omega)
      have hsplit : maxLen - checked = len + (maxLen - (checked + len)) := by omega
      have hcommon : commonLength (substr a checked (maxLen - checked))
          (substr b checked (maxLen - checked)) =
            len + commonLength (substr a (checked + len) (maxLen - (checked + len)))
              (substr b (checked + len) (maxLen - (checked + len))) := by
        rw [hsplit, ← substr_append_substr, ← substr_append_substr,
          commonLength_append (hla.trans hlb.symm), hla]
        exact if_neg hge
      rw [commonPrefixFrom, dif_pos h, hcommon, ← Nat.add_assoc, ← ih (by omega) (by omega)]
      exact if_neg hge

/-- Walking backward is walking forward in the texts turned round. -/
theorem commonSuffixFrom_eq {a b : Bytes} {maxLen checked blockSize : Nat} (ha : maxLen ≤ a.length)
    (hb : maxLen ≤ b.length) :
    commonSuffixFrom a b maxLen checked blockSize =
      commonPrefixFrom a.reverse b.reverse maxLen checked blockSize := by
  induction checked, blockSize using commonPrefixFrom.induct a.reverse b.reverse maxLen with
  | case1 checked blockSize h len common hlt =>
      rw [commonSuffixFrom, commonPrefixFrom, dif_pos h, dif_pos h]
      dsimp only
      rw [reverse_substr (by omega), reverse_substr (by omega)]
      exact (if_pos hlt).trans (if_pos hlt).symm
  | case2 checked blockSize h len common hge ih =>
      rw [commonSuffixFrom, commonPrefixFrom, dif_pos h, dif_pos h]
      dsimp only
      rw [reverse_substr (by omega), reverse_substr (by omega)]
      exact (if_neg hge).trans (ih.trans (if_neg hge).symm)
  | case3 checked blockSize h => rw [commonSuffixFrom, commonPrefixFrom, dif_neg h, dif_neg h]

theorem commonPrefixLength_eq_commonLength (a b : Storage) :
    commonPrefixLength a b = commonLength a.bytes b.bytes := by
  have hleft := commonLength_le_left a.bytes b.bytes
  have hright := commonLength_le_right a.bytes b.bytes
  simp only [commonPrefixLength, Storage.byteLength]
  rw [commonPrefixFrom_eq (Nat.min_le_left _ _) (Nat.min_le_right _ _) (Nat.zero_le _) (by decide),
    substr, substr, List.drop_zero, List.drop_zero, commonLength_take]
  omega

theorem commonSuffixLength_eq_commonLength {a b : Storage} {maxLen : Nat}
    (ha : maxLen ≤ a.byteLength) (hb : maxLen ≤ b.byteLength) :
    commonSuffixLength a b maxLen = min maxLen (commonLength a.bytes.reverse b.bytes.reverse) := by
  rw [commonSuffixLength, commonSuffixFrom_eq ha hb, commonPrefixFrom_eq
    (List.length_reverse.symm ▸ ha) (List.length_reverse.symm ▸ hb) (Nat.zero_le _) (by decide),
    substr, substr, List.drop_zero, List.drop_zero, commonLength_take, Nat.zero_add, Nat.sub_zero]

theorem drop_eq_iff_take_reverse_eq {a b : Bytes} {k : Nat} :
    a.drop (a.length - k) = b.drop (b.length - k) ↔ a.reverse.take k = b.reverse.take k := by
  rw [List.take_reverse, List.take_reverse, List.reverse_inj]

/-! ## Equality and the changed region -/

theorem commonPrefixLength_le (a b : Storage) :
    commonPrefixLength a b ≤ min a.byteLength b.byteLength := by
  rw [commonPrefixLength_eq_commonLength]
  exact Nat.le_min.2 ⟨commonLength_le_left _ _, commonLength_le_right _ _⟩

theorem take_commonPrefixLength (a b : Storage) :
    a.bytes.take (commonPrefixLength a b) = b.bytes.take (commonPrefixLength a b) := by
  rw [commonPrefixLength_eq_commonLength]
  exact take_commonLength _ _

theorem commonPrefixLength_eq {a b : Storage} (h : a.bytes = b.bytes) :
    commonPrefixLength a b = a.byteLength := by
  rw [commonPrefixLength_eq_commonLength, ← h]
  exact commonLength_self _

/-- The first bytes after the common prefix differ, where one of them is there. -/
theorem getElem?_commonPrefixLength_ne {a b : Storage} (h : a.bytes ≠ b.bytes) :
    a.bytes[commonPrefixLength a b]? ≠ b.bytes[commonPrefixLength a b]? := by
  intro heq
  have htake := take_commonPrefixLength a b
  rw [commonPrefixLength_eq_commonLength] at heq htake
  have hleft := commonLength_le_left a.bytes b.bytes
  have hright := commonLength_le_right a.bytes b.bytes
  by_cases ha : commonLength a.bytes b.bytes < a.bytes.length
  · have hb : commonLength a.bytes b.bytes < b.bytes.length := by
      rw [List.getElem?_eq_getElem ha] at heq
      exact (List.getElem?_eq_some_iff.1 heq.symm).1
    exact getElem?_commonLength_ne ha hb heq
  · have hb : b.bytes.length ≤ commonLength a.bytes b.bytes := by
      rw [List.getElem?_eq_none (Nat.le_of_not_lt ha)] at heq
      exact List.getElem?_eq_none_iff.1 heq.symm
    rw [List.take_of_length_le (Nat.le_of_not_lt ha), List.take_of_length_le hb] at htake
    exact h htake

theorem eq_of_commonPrefixLength {a b : Storage} (ha : commonPrefixLength a b = a.byteLength)
    (hb : commonPrefixLength a b = b.byteLength) : a.bytes = b.bytes := by
  have htake := take_commonPrefixLength a b
  rw [List.take_of_length_le (Nat.le_of_eq ha.symm),
    List.take_of_length_le (Nat.le_of_eq hb.symm)] at htake
  exact htake

theorem storageContentEquals_iff (a b : Storage) :
    storageContentEquals a b = true ↔ a.bytes = b.bytes := by
  simp only [storageContentEquals, Bool.and_eq_true, beq_iff_eq]
  constructor
  · rintro ⟨hlen, hcommon⟩
    exact eq_of_commonPrefixLength hcommon (hcommon.trans hlen)
  · intro heq
    exact ⟨congrArg List.length heq, commonPrefixLength_eq heq⟩

theorem changedByteRange_eq_none_iff (a b : Storage) :
    changedByteRange a b = none ↔ a.bytes = b.bytes := by
  simp only [changedByteRange]
  split
  · rename_i h
    simp only [true_iff]
    exact eq_of_commonPrefixLength h.1 h.2
  · rename_i h
    simp only [reduceCtorEq, false_iff]
    intro heq
    have hlen : a.byteLength = b.byteLength := congrArg List.length heq
    have hcommon := commonPrefixLength_eq heq
    exact h ⟨hcommon, hcommon.trans hlen⟩

theorem changedByteRange_eq_some {a b : Storage} {span : ChangedSpan}
    (h : changedByteRange a b = some span) :
    ∃ suffix, suffix = min (min a.byteLength b.byteLength - commonPrefixLength a b)
        (commonLength a.bytes.reverse b.bytes.reverse) ∧
      suffix ≤ min a.byteLength b.byteLength - commonPrefixLength a b ∧
        span = { oldStart := commonPrefixLength a b, oldEnd := a.byteLength - suffix,
                 newStart := commonPrefixLength a b, newEnd := b.byteLength - suffix } := by
  simp only [changedByteRange] at h
  split at h
  · cases h
  · rw [commonSuffixLength_eq_commonLength (by omega) (by omega)] at h
    exact ⟨_, rfl, Nat.min_le_left _ _, (Option.some.inj h).symm⟩

theorem bytes_ne_of_changedByteRange {a b : Storage} {span : ChangedSpan}
    (h : changedByteRange a b = some span) : a.bytes ≠ b.bytes := by
  intro heq
  rw [(changedByteRange_eq_none_iff a b).2 heq] at h
  cases h

/-- A changed region starts at one place in both versions and stays inside them. -/
theorem changedByteRange_bounds {a b : Storage} {span : ChangedSpan}
    (h : changedByteRange a b = some span) :
    span.oldStart = span.newStart ∧ span.oldStart ≤ span.oldEnd ∧ span.newStart ≤ span.newEnd ∧
      span.oldEnd ≤ a.byteLength ∧ span.newEnd ≤ b.byteLength := by
  obtain ⟨suffix, _, hsuffix, rfl⟩ := changedByteRange_eq_some h
  have hp := commonPrefixLength_le a b
  refine ⟨rfl, ?_, ?_, Nat.sub_le _ _, Nat.sub_le _ _⟩
  · show commonPrefixLength a b ≤ a.byteLength - suffix
    omega
  · show commonPrefixLength a b ≤ b.byteLength - suffix
    omega

theorem drop_changedByteRange {a b : Storage} {span : ChangedSpan}
    (h : changedByteRange a b = some span) :
    a.bytes.drop span.oldEnd = b.bytes.drop span.newEnd := by
  obtain ⟨suffix, hsuffix, hle, rfl⟩ := changedByteRange_eq_some h
  have hcommon : suffix ≤ commonLength a.bytes.reverse b.bytes.reverse :=
    hsuffix ▸ Nat.min_le_right _ _
  have htake := congrArg (List.take suffix) (take_commonLength a.bytes.reverse b.bytes.reverse)
  rw [List.take_take, List.take_take, Nat.min_eq_left hcommon] at htake
  exact drop_eq_iff_take_reverse_eq.2 htake

/-- A changed region takes bytes out of the old version or puts bytes into the new one. -/
theorem changedByteRange_nonempty {a b : Storage} {span : ChangedSpan}
    (h : changedByteRange a b = some span) :
    span.oldStart < span.oldEnd ∨ span.newStart < span.newEnd := by
  have hne := bytes_ne_of_changedByteRange h
  have hdrop := drop_changedByteRange h
  obtain ⟨hstart, hold, hnew, -, -⟩ := changedByteRange_bounds h
  by_contra hempty
  have hold : span.oldEnd = commonPrefixLength a b := by
    obtain ⟨suffix, -, -, rfl⟩ := changedByteRange_eq_some h
    simp only at hempty hold ⊢
    omega
  have hnew : span.newEnd = commonPrefixLength a b := by
    obtain ⟨suffix, -, -, rfl⟩ := changedByteRange_eq_some h
    simp only at hempty hnew ⊢
    omega
  -- the common prefix and suffix make up both versions
  rw [hold, hnew] at hdrop
  apply hne
  rw [← List.take_append_drop (commonPrefixLength a b) a.bytes,
    ← List.take_append_drop (commonPrefixLength a b) b.bytes, take_commonPrefixLength, hdrop]

/-- Neither text is a beginning of the other, and they end in different bytes. -/
def EndsApart (a b : Bytes) : Prop := ¬ a <+: b ∧ ¬ b <+: a ∧ a.getLast? ≠ b.getLast?

theorem isPrefix_of_take_eq {a b : Bytes} {n : Nat} (h : a.take n = b.take n) (hn : a.length ≤ n) :
    a <+: b := by
  rw [List.take_of_length_le hn] at h
  rw [h]
  exact List.take_prefix n b

theorem not_isPrefix_of_getElem?_ne {a b : Bytes} {i : Nat} (hi : i < a.length) (h : a[i]? ≠ b[i]?) :
    ¬ a <+: b := by
  rintro ⟨rest, rfl⟩
  exact h (List.getElem?_append_left hi).symm

/-- The changed region replaces the end of the old version exactly when the ends are apart. -/
theorem changedByteRange_replacesEnd_iff {a b : Storage} {span : ChangedSpan}
    (h : changedByteRange a b = some span) :
    (span.oldStart < span.oldEnd ∧ span.newStart < span.newEnd ∧ span.oldEnd = a.byteLength) ↔
      EndsApart a.bytes b.bytes := by
  have hne := getElem?_commonPrefixLength_ne (bytes_ne_of_changedByteRange h)
  obtain ⟨suffix, hsuffix, hle, rfl⟩ := changedByteRange_eq_some h
  have hp := commonPrefixLength_le a b
  have htake := take_commonPrefixLength a b
  have hlast : 0 < min a.byteLength b.byteLength - commonPrefixLength a b →
      (suffix = 0 ↔ a.bytes.getLast? ≠ b.bytes.getLast?) := by
    intro hpos
    have ha : a.bytes.reverse ≠ [] := by
      rw [ne_eq, List.reverse_eq_nil_iff, ← List.length_eq_zero_iff]
      simp only [Storage.byteLength] at hpos
      omega
    have hb : b.bytes.reverse ≠ [] := by
      rw [ne_eq, List.reverse_eq_nil_iff, ← List.length_eq_zero_iff]
      simp only [Storage.byteLength] at hpos
      omega
    rw [← List.head?_reverse, ← List.head?_reverse, ← commonLength_eq_zero_iff ha hb, hsuffix]
    omega
  constructor
  · rintro ⟨hold, hnew, hend⟩
    simp only at hold hnew hend
    have hlt : commonPrefixLength a b < min a.byteLength b.byteLength := by omega
    refine ⟨?_, ?_, (hlast (Nat.sub_pos_of_lt hlt)).1 (by omega)⟩
    · exact not_isPrefix_of_getElem?_ne (Nat.lt_of_lt_of_le hlt (Nat.min_le_left _ _)) hne
    · exact not_isPrefix_of_getElem?_ne (Nat.lt_of_lt_of_le hlt (Nat.min_le_right _ _)) hne.symm
  · rintro ⟨hab, hba, hdiff⟩
    have hlta : commonPrefixLength a b < a.byteLength := by
      by_contra hge
      exact hab (isPrefix_of_take_eq htake (Nat.le_of_not_lt hge))
    have hltb : commonPrefixLength a b < b.byteLength := by
      by_contra hge
      exact hba (isPrefix_of_take_eq htake.symm (Nat.le_of_not_lt hge))
    have hzero := (hlast (by omega)).2 hdiff
    simp only [hzero, Nat.sub_zero]
    exact ⟨hlta, hltb, trivial⟩

/-!
## Theorems on the storages

A rope refines the flat text, a piece table and a rope are interchangeable, and the texts a storage
can be built from are exactly those on which the chunk loop neither stalls nor underflows.
-/

open Ned.Library MeasuredTree

/-! ## A sample script -/

theorem sampleText_wellFormed : WellFormedUtf8 [0xC3, 0xA9, 10] :=
  wellFormedUtf8_of_codepoints [0xE9, 10] rfl rfl

theorem sampleScript_wellFormed :
    WellFormedScript [[0xC3, 0xA9, 10]] [.inserted 0 2 [120], .erased 1 0 2] := by
  refine ⟨⟨_, rfl, ⟨wellFormedUtf8_of_codepoints [0xE9] rfl rfl,
    wellFormedUtf8_of_codepoints [10] rfl rfl⟩, wellFormedUtf8_of_codepoints [120] rfl rfl⟩,
    fun versions h => ?_⟩
  cases h
  exact ⟨⟨_, rfl, ⟨wellFormedUtf8_of_codepoints [] rfl rfl,
      wellFormedUtf8_of_codepoints [0xE9, 120, 10] rfl rfl⟩,
    wellFormedUtf8_of_codepoints [0xE9] rfl rfl, wellFormedUtf8_of_codepoints [120, 10] rfl rfl⟩,
    fun _ _ => trivial⟩

/-! ## A rope refines the flat text -/

/-- Every version of a rope answers as the flat text does, and later edits leave it alone. -/
theorem rope_refines_text {text : Bytes} (htext : WellFormedUtf8 text) {script : List StorageEdit}
    (hscript : WellFormedScript [text] script) :
    ∃ rope ropes versions, Rope.ofText text = some rope ∧
      run ropeStep [rope] script = some ropes ∧ run textStep [text] script = some versions ∧
        List.Forall₂ Rope.Answers ropes versions ∧
          ∀ first later, script = first ++ later → ∃ ropes₁ versions₁,
            run ropeStep [rope] first = some ropes₁ ∧ run textStep [text] first = some versions₁ ∧
              List.Forall₂ Rope.Answers ropes₁ versions₁ ∧ ropes₁ <+: ropes ∧
                versions₁ <+: versions := by
  obtain ⟨rope, hrope, hden⟩ := Rope.ofText_denotes htext
  obtain ⟨versions, hversions⟩ := hscript.exists_run
  have hstart : RopesDenote [rope] [text] := .cons hden .nil
  obtain ⟨ropes, hropes, hdens⟩ := hstart.run hscript hversions
  refine ⟨rope, ropes, versions, hrope, hropes, hversions, hdens.imp fun _ _ h => h.answers, ?_⟩
  rintro first later rfl
  rw [run_append] at hversions hropes
  obtain ⟨versions₁, hversions₁, hversions⟩ := Option.bind_eq_some_iff.1 hversions
  obtain ⟨ropes₁, hropes₁, hropes⟩ := Option.bind_eq_some_iff.1 hropes
  obtain ⟨hfirst, hlater⟩ := Admissible.append hscript hversions₁
  obtain ⟨ropes₁', hropes₁', hdens₁⟩ := hstart.run hfirst hversions₁
  obtain rfl : ropes₁' = ropes₁ := Option.some.inj (hropes₁'.symm.trans hropes₁)
  exact ⟨ropes₁', versions₁, hropes₁, hversions₁, hdens₁.imp fun _ _ h => h.answers,
    ropeRun_extends hropes, textRun_extends hversions⟩

/-- Opening `"é\n"`, inserting `"x"` after the letter and erasing the letter. -/
theorem rope_refines_text_sample :
    ∃ rope ropes versions, Rope.ofText [0xC3, 0xA9, 10] = some rope ∧
      run ropeStep [rope] [.inserted 0 2 [120], .erased 1 0 2] = some ropes ∧
        run textStep [[0xC3, 0xA9, 10]] [.inserted 0 2 [120], .erased 1 0 2] = some versions ∧
          List.Forall₂ Rope.Answers ropes versions := by
  have hscript : WellFormedScript [[0xC3, 0xA9, 10]] [.inserted 0 2 [120], .erased 1 0 2] :=
    sampleScript_wellFormed
  obtain ⟨rope, ropes, versions, hrope, hropes, hversions, hanswers, _⟩ :=
    rope_refines_text sampleText_wellFormed hscript
  exact ⟨rope, ropes, versions, hrope, hropes, hversions, hanswers⟩

/-! ## A piece table and a rope are interchangeable -/

/-- Run in parallel, every version of a piece table over a mapped file agrees with that of the rope,
and what later edits append to the shared buffer changes no version. -/
theorem pieceTable_agrees_with_rope (heap : Heap) {file : Bytes} (hfile : WellFormedUtf8 file)
    {script : List StorageEdit} (hscript : WellFormedScript [file] script) :
    ∃ heap₀ table rope heap' tables ropes,
      PieceTable.fromFile heap file = some (heap₀, table) ∧ Rope.ofText file = some rope ∧
        run tableStep (heap₀, [table]) script = some (heap', tables) ∧
          run ropeStep [rope] script = some ropes ∧
            List.Forall₂ (PieceTable.Agrees heap') tables ropes ∧
              ∀ first later, script = first ++ later → ∃ heap₁ tables₁,
                run tableStep (heap₀, [table]) first = some (heap₁, tables₁) ∧
                  tables₁ <+: tables ∧
                    ∀ version ∈ tables₁, PieceTable.ReadsAlike heap₁ heap' version := by
  obtain ⟨heap₀, table, htable, _, hbuf, htableden⟩ := PieceTable.fromFile_denotes heap hfile
  obtain ⟨rope, hrope, hropeden⟩ := Rope.ofText_denotes hfile
  obtain ⟨versions, hversions⟩ := hscript.exists_run
  have hropeStart : RopesDenote [rope] [file] := .cons hropeden .nil
  have htableStart : TablesDenote (heap₀, [table]) [file] := .cons ⟨hbuf, htableden⟩ .nil
  obtain ⟨ropes, hropes, hropesden⟩ := hropeStart.run hscript hversions
  obtain ⟨⟨heap', tables⟩, htables, _, htablesden⟩ := htableStart.run hscript hversions
  refine ⟨heap₀, table, rope, heap', tables, ropes, htable, hrope, htables, hropes,
    htablesden.agrees hropesden, ?_⟩
  rintro first later rfl
  rw [run_append] at hversions htables
  obtain ⟨versions₁, hversions₁, hversions⟩ := Option.bind_eq_some_iff.1 hversions
  obtain ⟨hfirst, hlater⟩ := Admissible.append hscript hversions₁
  obtain ⟨⟨heap₁, tables₁⟩, htables₁, _, htablesden₁⟩ := htableStart.run hfirst hversions₁
  obtain ⟨state, hstate, hext, _⟩ := htablesden₁.run hlater hversions
  rw [htables₁, Option.bind_some, hstate] at htables
  obtain rfl : state = (heap', tables) := Option.some.inj htables
  exact ⟨heap₁, tables₁, htables₁, hext.2, htablesden₁.readsAlike hext.1⟩

/-- The same two edits on a mapped file. -/
theorem pieceTable_agrees_with_rope_sample :
    ∃ heap₀ table rope heap' tables ropes,
      PieceTable.fromFile [] [0xC3, 0xA9, 10] = some (heap₀, table) ∧
        Rope.ofText [0xC3, 0xA9, 10] = some rope ∧
          run tableStep (heap₀, [table]) [.inserted 0 2 [120], .erased 1 0 2] =
            some (heap', tables) ∧
            run ropeStep [rope] [.inserted 0 2 [120], .erased 1 0 2] = some ropes ∧
              List.Forall₂ (PieceTable.Agrees heap') tables ropes := by
  obtain ⟨heap₀, table, rope, heap', tables, ropes, htable, hrope, htables, hropes, hagrees, _⟩ :=
    pieceTable_agrees_with_rope [] sampleText_wellFormed sampleScript_wellFormed
  exact ⟨heap₀, table, rope, heap', tables, ropes, htable, hrope, htables, hropes, hagrees⟩

/-! ## Building a storage -/

/-- A letter and 512 continuation bytes: the chunk end backs up to the letter. -/
theorem not_builds_letter_and_continuations :
    ¬Rope.Builds (0x61 :: List.replicate 512 0x80) := by
  refine Rope.not_builds_of_stallsAt (p := 0) ?_ ⟨?_, rfl, ?_⟩
  · intro h
    have := h 0 (Nat.zero_le _)
    cases this
  · rw [List.length_cons, List.length_replicate]
    decide
  · intro i hi hle
    have hk : Rope.kChunkSize = 512 := rfl
    obtain ⟨i, rfl⟩ : ∃ j, i = j + 1 := ⟨i - 1, by omega⟩
    rw [continuationAt, List.getElem?_cons_succ, List.getElem?_replicate, if_pos (by omega)]
    rfl

/-- A storage can be built from a text exactly when no byte that is no continuation byte is followed
by a chunk of continuation bytes; a chunk of them at the start spares the rope and breaks the piece
table. -/
theorem builds_iff {heap : Heap} {backing : Backing} {source : SpanSource} {base : Bytes}
    (start length chunkSize : Nat) (hbase : backing.base heap source = some base)
    (hfit : start + length ≤ base.length) (hmax : base.length ≤ stringMax)
    (hpos : 0 < chunkSize) :
    (Rope.Builds (substr base start length) ↔
      Underflows Rope.kChunkSize (substr base start length) ∨
        ∀ p, ¬StallsAt Rope.kChunkSize (substr base start length) p) ∧
      (PieceTable.Builds heap backing source start length chunkSize (substr base start length) ↔
        ¬Underflows chunkSize (substr base start length) ∧
          ∀ p, ¬StallsAt chunkSize (substr base start length) p) := by
  refine ⟨Rope.builds_iff_not_stalls ?_,
    PieceTable.builds_iff_not_stalls hbase hfit hmax hpos⟩
  rw [PieceTable.length_substr hfit]
  omega

/-- `"ab"` in a mapped file, cut into chunks of one byte. -/
theorem builds_iff_ab :
    (Rope.Builds [97, 98] ↔
      Underflows Rope.kChunkSize [97, 98] ∨ ∀ p, ¬StallsAt Rope.kChunkSize [97, 98] p) ∧
      (PieceTable.Builds [] { mappedFile := some [97, 98], added := none } .kOriginal 0 2 1 [97, 98] ↔
        ¬Underflows 1 [97, 98] ∧ ∀ p, ¬StallsAt 1 [97, 98] p) :=
  have hbase : Backing.base { mappedFile := some [97, 98], added := none } [] .kOriginal =
    some [97, 98] := rfl
  builds_iff 0 2 1 hbase (by decide) (by decide) (by decide)

end Ned.Text
