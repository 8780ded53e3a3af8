import Ned.Editor.Format.FormatEdit
import Ned.Editor.Lsp.Theorems.EditApply

/-!
# The two appliers of format edits

They agree, and replace every range once, exactly when the sort puts no range before an insertion that
starts with it. The applier that copies has lengths that underflow there, and copies too much.
-/

namespace Ned.Editor.Format

open Text Library Replacement
open Lsp (Editable)

variable {p : Platform} {b : Buffer} {edit : FormatTextEdit} {edits sorted : List FormatTextEdit}
  {text result : Bytes} {copied : Nat}

def FormatTextEdit.replacement (edit : FormatTextEdit) : Replacement UInt8 :=
  { start := edit.start, stop := edit.stop, text := edit.text }

abbrev replacements (edits : List FormatTextEdit) : List (Replacement UInt8) :=
  edits.map FormatTextEdit.replacement

theorem replacements_nil : replacements [] = [] := rfl

theorem replacements_cons : replacements (edit :: edits) = edit.replacement :: replacements edits := rfl

/-- Every range is replaced by its text, and everything else is kept once. An insertion goes before or
behind the text of a range that starts with it. -/
def Replaced (edits : List FormatTextEdit) (text replaced : Bytes) : Prop :=
  ∃ arranged : List (Replacement UInt8), arranged.Perm (replacements edits) ∧
    arranged.Pairwise Before ∧ replaced = replaceAll text 0 arranged

/-- Edits of ranges of the text that do not overlap. -/
structure Acceptable (edits : List FormatTextEdit) (length : Nat) : Prop where
  apart : Apart (replacements edits)
  within : ∀ edit ∈ edits, edit.stop ≤ length

/-- No range comes before an insertion that starts with it. -/
def InsertsFirst (sorted : List FormatTextEdit) : Prop :=
  sorted.Pairwise fun e f => e.start = f.start → e.start = e.stop

theorem sizeSub_of_le {x y : Nat} (hle : y ≤ x) (hx : x ≤ sizeMax) : sizeSub x y = x - y := by
  rw [sizeSub, Nat.sub_add_comm hle, Nat.add_mod_right, Nat.mod_eq_of_lt]
  exact Nat.lt_succ_of_le (Nat.le_trans (Nat.sub_le _ _) hx)

theorem lt_sizeSub_of_lt {x y : Nat} (hlt : x < y) (hy : y ≤ sizeMax) : sizeMax - y < sizeSub x y := by
  rw [sizeSub, Nat.mod_eq_of_lt (by omega)]
  omega

/-! ## The buffer -/

namespace FormatTextEdit

variable (p) in
theorem apply_eq (h : b.Grouped) (hwithin : edit.replacement.Within b.storage.byteLength)
    (hsize : edit.stop ≤ sizeMax) (hbuilds : (b.storage.inserted 0 edit.text).isSome) :
    ∃ b', edit.apply p b = some (.ok b') ∧
      b.Rewritten b' (edit.replacement.splice b.storage.bytes) :=
  @Lsp.ResolvedEdit.apply_eq p b ⟨edit.start, edit.stop, edit.text⟩ h hwithin hsize hbuilds

theorem apply_eq_none (h : b.Grouped) (hwithin : edit.replacement.Within b.storage.byteLength)
    (hsize : edit.stop ≤ sizeMax) (hbuilds : b.storage.inserted 0 edit.text = none) :
    edit.apply p b = none := by
  obtain ⟨hordered, hend⟩ : edit.start ≤ edit.stop ∧ edit.stop ≤ b.storage.byteLength := hwithin
  have hstop : edit.start + sizeSub edit.stop edit.start = edit.stop := by
    rw [sizeSub_of_le hordered hsize, Nat.add_sub_of_le hordered]
  obtain ⟨b₁, deleted, hdelete, hdeleted⟩ := h.deleteRange p (hstop.symm ▸ hend)
  have hbuilds₁ : b₁.storage.inserted 0 edit.text = none := by
    apply Option.not_isSome_iff_eq_none.1
    intro hsome
    have hback := Buffer.inserted_of_isSome hsome b.storage.bytes 0
    rw [hdeleted.storage] at hback
    rw [show ({ b.storage with bytes := b.storage.bytes } : Storage) = b.storage from rfl] at hback
    rw [hbuilds] at hback
    cases hback
  rw [apply, hdelete]
  have hoffset : edit.start ≤ b₁.storage.byteLength := by
    rw [hdeleted.storage, Storage.byteLength, eraseAt, List.length_append,
      List.length_take_of_le (Nat.le_trans hordered hend)]
    exact Nat.le_add_right _ _
  exact Buffer.insertAt_eq_none hdeleted.writable hoffset (.inl hdeleted.whole) hbuilds₁

end FormatTextEdit

theorem Descends.rest {b₁ : Buffer} (hdescends : Descends (replacements (edit :: sorted)))
    (hwithin : ∀ r ∈ replacements (edit :: sorted), r.Within b.storage.byteLength)
    (hrewritten : b.Rewritten b₁ (edit.replacement.splice b.storage.bytes)) :
    ∀ r ∈ replacements sorted, r.Within b₁.storage.byteLength := by
  rw [hrewritten.storage]
  exact hdescends.within hwithin

theorem isSome_of_rewritten {b₁ : Buffer} {bytes : Bytes} (h : b.Rewritten b₁ bytes) :
    (b₁.storage.inserted 0 text).isSome = (b.storage.inserted 0 text).isSome := by
  have hforth : ∀ storage : Storage, ∀ bytes, (storage.inserted 0 text).isSome = true →
      (Storage.inserted { storage with bytes := bytes } 0 text).isSome = true := by
    intro storage bytes hsome
    rw [Buffer.inserted_of_isSome hsome]
    rfl
  rw [h.storage, Bool.eq_iff_iff]
  exact ⟨hforth { b.storage with bytes := bytes } b.storage.bytes, hforth b.storage bytes⟩

variable (p) in
/-- One by one, in an order in which that can be done: as long as the storage takes every text. -/
theorem applyEach_eq (h : b.Grouped) (hdescends : Descends (replacements sorted))
    (hwithin : ∀ r ∈ replacements sorted, r.Within b.storage.byteLength)
    (hsize : ∀ edit ∈ sorted, edit.stop ≤ sizeMax) :
    if ∀ edit ∈ sorted, (b.storage.inserted 0 edit.text).isSome then
      ∃ b', applyEach p sorted b = some (.ok b') ∧
        b.Rewritten b' ((replacements sorted).foldl splice b.storage.bytes)
    else applyEach p sorted b = none := by
  induction sorted generalizing b with
  | nil =>
      rw [if_pos (by simp)]
      exact ⟨b, rfl, h.same⟩
  | cons edit sorted ih =>
      have hedit := hwithin edit.replacement List.mem_cons_self
      have hstop := hsize edit List.mem_cons_self
      simp only [List.forall_mem_cons]
      cases hbuilds : b.storage.inserted 0 edit.text with
      | none =>
          simp only [Option.isSome_none, Bool.false_eq_true, false_and, if_false]
          rw [applyEach, FormatTextEdit.apply_eq_none h hedit hstop hbuilds]
          rfl
      | some storage =>
          obtain ⟨b₁, happly, hedited⟩ :=
            FormatTextEdit.apply_eq p h hedit hstop (by rw [hbuilds]; rfl)
          have hrest := ih hedited.toGrouped (List.pairwise_cons.1 hdescends).2
            (Descends.rest hdescends hwithin hedited) fun e he => hsize e (List.mem_cons_of_mem _ he)
          simp only [isSome_of_rewritten hedited] at hrest
          simp only [Option.isSome_some, true_and]
          split
          · rename_i hall
            rw [if_pos hall] at hrest
            obtain ⟨b', hb', hrewritten⟩ := hrest
            refine ⟨b', ?_, ?_⟩
            · rw [applyEach, happly]
              exact hb'
            · have htrans := hedited.trans hrewritten
              rw [hedited.storage] at htrans
              exact htrans
          · rename_i hnot
            rw [if_neg hnot] at hrest
            rw [applyEach, happly]
            exact hrest

/-! ## The copied text -/

theorem append_eq {pos count : Nat} (hpos : pos ≤ text.length) :
    append result text pos count = some (result ++ (text.drop pos).take count) := by
  rw [append, if_neg (Nat.not_lt.2 hpos)]

theorem copyEach_nil (hle : copied ≤ text.length) (hsize : text.length ≤ sizeMax) :
    copyEach text [] result copied = some (result ++ text.drop copied) := by
  have hlength : (text.drop copied).length ≤ sizeMax := by
    rw [List.length_drop]
    exact Nat.le_trans (Nat.sub_le _ _) hsize
  rw [copyEach, append_eq hle, List.take_of_length_le hlength]

/-- In order, the gaps are copied and the texts put between them. -/
theorem copyEach_eq (hordered : edits.Pairwise fun e f => e.stop ≤ f.start)
    (hcopied : ∀ edit ∈ edits, copied ≤ edit.start)
    (hwithin : ∀ edit ∈ edits, edit.replacement.Within text.length) (hle : copied ≤ text.length)
    (hsize : text.length ≤ sizeMax) :
    copyEach text edits result copied = some (result ++ replaceAll text copied (replacements edits)) := by
  induction edits generalizing result copied with
  | nil =>
      rw [copyEach_nil hle hsize, replacements_nil, replaceAll_nil]
  | cons edit edits ih =>
      obtain ⟨hnext, hrest⟩ := List.pairwise_cons.1 hordered
      obtain ⟨hedit, hend⟩ : edit.start ≤ edit.stop ∧ edit.stop ≤ text.length :=
        hwithin edit List.mem_cons_self
      have hstart := hcopied edit List.mem_cons_self
      have hih := @ih (result ++ (text.drop copied).take (edit.start - copied) ++ edit.text) edit.stop
        hrest hnext (fun e he => hwithin e (List.mem_cons_of_mem _ he)) hend
      rw [copyEach, append_eq hle, sizeSub_of_le hstart (Nat.le_trans hedit (Nat.le_trans hend hsize))]
      apply hih.trans
      rw [replacements_cons, replaceAll_cons, FormatTextEdit.replacement]
      simp only
      rw [Nat.max_eq_right (Nat.le_trans hstart hedit)]
      simp only [List.append_assoc]

theorem length_copyEach (hsorted : edits.Pairwise fun e f => e.start ≤ f.start)
    (hwithin : ∀ edit ∈ edits, edit.replacement.Within text.length) (hle : copied ≤ text.length)
    (hsize : text.length ≤ sizeMax) :
    ∃ copy, copyEach text edits result copied = some copy ∧
      result.length + (text.length - copied) + added (replacements edits) ≤
        copy.length + removed (replacements edits) ∧
      (copy.length + removed (replacements edits) ≤
          result.length + (text.length - copied) + added (replacements edits) →
        (∀ edit ∈ edits, copied ≤ edit.start) ∧ edits.Pairwise fun e f => e.stop ≤ f.start) := by
  induction edits generalizing result copied with
  | nil =>
      refine ⟨_, copyEach_nil hle hsize, ?_, fun _ => ⟨by simp, .nil⟩⟩
      rw [List.length_append, List.length_drop]
      simp [added, removed]
  | cons edit edits ih =>
      obtain ⟨hstarts, hrest⟩ := List.pairwise_cons.1 hsorted
      obtain ⟨hedit, hend⟩ : edit.start ≤ edit.stop ∧ edit.stop ≤ text.length :=
        hwithin edit List.mem_cons_self
      have hgap : ∀ gap, ((text.drop copied).take gap).length = min gap (text.length - copied) := by
        intro gap
        rw [List.length_take, List.length_drop]
      obtain ⟨copy, hcopy, hlength, hexact⟩ :=
        @ih (result ++ (text.drop copied).take (sizeSub edit.start copied) ++ edit.text) edit.stop
          hrest (fun e he => hwithin e (List.mem_cons_of_mem _ he)) hend
      rw [List.length_append, List.length_append, hgap] at hlength hexact
      refine ⟨copy, ?_, ?_⟩
      · rw [copyEach, append_eq hle]
        exact hcopy
      simp only [replacements_cons, removed_cons, added_cons, FormatTextEdit.replacement]
      rcases Nat.lt_or_ge edit.start copied with hback | hon
      · -- the gap underflows, and the rest of the text is copied
        have hcount := lt_sizeSub_of_lt hback (Nat.le_trans hle hsize)
        have hall : text.length - copied ≤ sizeSub edit.start copied :=
          Nat.le_trans (Nat.sub_le_sub_right hsize copied) (Nat.le_of_lt hcount)
        rw [Nat.min_eq_right hall] at hlength hexact
        clear hall hcount hsize
        exact ⟨by omega, fun hle => absurd hle (by omega)⟩
      · rw [sizeSub_of_le hon (Nat.le_trans hedit (Nat.le_trans hend hsize)),
          Nat.min_eq_left (Nat.sub_le_sub_right (Nat.le_trans hedit hend) copied)] at hlength hexact
        clear hsize
        refine ⟨by omega, fun hle => ?_⟩
        obtain ⟨hnext, hpairwise⟩ := hexact (by omega)
        refine ⟨?_, List.pairwise_cons.2 ⟨hnext, hpairwise⟩⟩
        intro e he
        rcases List.mem_cons.1 he with rfl | he
        · exact hon
        · exact Nat.le_trans hon (hstarts e he)

/-! ## The two appliers -/

/-- Both appliers return, with the same content, which is the one with every range replaced. -/
def Agree (p : Platform) (b : Buffer) (edits : List FormatTextEdit) : Prop :=
  ∃ b', applyFormatTextEdits p b edits = some (.ok b') ∧
    applyFormatTextEditsToText p b.storage.bytes edits = some b'.storage.bytes ∧
    Replaced edits b.storage.bytes b'.storage.bytes

theorem sortEdits_perm : (sortEdits p edits).Perm edits := p.keySort.perm _ _

theorem mem_sortEdits : edit ∈ sortEdits p edits ↔ edit ∈ edits := sortEdits_perm.mem_iff

theorem sortEdits_sorted : (sortEdits p edits).Pairwise fun e f => e.start ≤ f.start :=
  p.keySort.sorted _ _

namespace Acceptable

variable {length : Nat}

theorem replacement_within (h : Acceptable edits length) (hmem : edit ∈ edits) :
    edit.replacement.Within length :=
  ⟨h.apart.ordered _ (List.mem_map_of_mem hmem), h.within edit hmem⟩

/-- Where no range comes before an insertion that starts with it, each edit ends before the next. -/
theorem insertsFirst_iff (h : Acceptable edits length) : InsertsFirst (sortEdits p edits) ↔
    (sortEdits p edits).Pairwise fun e f => e.stop ≤ f.start := by
  have hapart : (sortEdits p edits).Pairwise fun e f => e.stop ≤ f.start ∨ f.stop ≤ e.start :=
    (sortEdits_perm.pairwise_iff Or.symm).2 (List.pairwise_map.1 h.apart.apart)
  have hordered : ∀ e ∈ sortEdits p edits, e.start ≤ e.stop := fun e he =>
    (h.replacement_within (mem_sortEdits.1 he)).1
  constructor
  · intro hinserts
    apply ((sortEdits_sorted.and hapart).and hinserts).imp_of_mem
    rintro e f he hf ⟨⟨hle, happart⟩, hempty⟩
    rcases happart with hstop | hstop
    · exact hstop
    · have hsame : e.start = f.start := Nat.le_antisymm hle (Nat.le_trans (hordered f hf) hstop)
      exact (hempty hsame) ▸ hle
  · intro hstops
    apply hstops.imp_of_mem
    intro e f he hf hstop hsame
    exact Nat.le_antisymm (hordered e he) (hsame ▸ hstop)

theorem length_of_replaced {text replaced : Bytes} (h : Acceptable edits text.length)
    (hreplaced : Replaced edits text replaced) :
    replaced.length + removed (replacements edits) = text.length + added (replacements edits) := by
  obtain ⟨arranged, hperm, hbefore, rfl⟩ := hreplaced
  have hwithin : ∀ r ∈ arranged, r.Within text.length := by
    intro r hr
    obtain ⟨edit, hedit, rfl⟩ := List.mem_map.1 (hperm.mem_iff.1 hr)
    exact h.replacement_within hedit
  have hlength := length_replaceAll hbefore hwithin (fun r _ => .inl (Nat.zero_le _)) (Nat.zero_le _)
  rw [Nat.sub_zero, removed_perm hperm, added_perm hperm] at hlength
  exact hlength

end Acceptable

/-- In an order with insertions first, both appliers replace every range. -/
theorem Acceptable.agree_of_insertsFirst (hb : Editable b) (hsize : b.storage.byteLength ≤ sizeMax)
    (h : Acceptable edits b.storage.byteLength) (hfirst : InsertsFirst (sortEdits p edits)) :
    Agree p b edits ↔ ∀ edit ∈ edits, (b.storage.inserted 0 edit.text).isSome := by
  have hstops := h.insertsFirst_iff.1 hfirst
  have hwithin : ∀ edit ∈ sortEdits p edits, edit.replacement.Within b.storage.byteLength :=
    fun edit hedit => h.replacement_within (mem_sortEdits.1 hedit)
  have hreplaced : Replaced edits b.storage.bytes
      (replaceAll b.storage.bytes 0 (replacements (sortEdits p edits))) :=
    ⟨_, sortEdits_perm.map _, List.pairwise_map.2 (hstops.imp .inl), rfl⟩
  have hcopy : applyFormatTextEditsToText p b.storage.bytes edits =
      some (replaceAll b.storage.bytes 0 (replacements (sortEdits p edits))) :=
    copyEach_eq hstops (fun _ _ => Nat.zero_le _) hwithin (Nat.zero_le _) hsize
  have hgrouped : b.beginUndoGroup.Grouped := ⟨hb.writable, hb.whole, Nat.succ_pos _⟩
  have hback : replacements (sortEdits p edits).reverse = (replacements (sortEdits p edits)).reverse :=
    List.map_reverse
  have hdescends : Descends (replacements (sortEdits p edits).reverse) := by
    rw [hback]
    apply List.pairwise_reverse.2 (List.pairwise_map.2 (hstops.imp_of_mem _))
    intro e f he _ hstop
    exact .inr ⟨Nat.le_trans (hwithin e he).1 hstop, hstop⟩
  have hloop := applyEach_eq p hgrouped hdescends
    (fun r hr => by
      obtain ⟨edit, hedit, rfl⟩ := List.mem_map.1 hr
      exact hwithin edit (List.mem_reverse.1 hedit))
    (fun edit hedit => Nat.le_trans (hwithin edit (List.mem_reverse.1 hedit)).2 hsize)
  have hstorage : b.beginUndoGroup.storage = b.storage := rfl
  simp only [List.mem_reverse, mem_sortEdits, hstorage] at hloop
  cases hempty : edits.isEmpty with
  | true =>
      obtain rfl := List.isEmpty_iff.1 hempty
      have hsorted : sortEdits p [] = [] := sortEdits_perm.eq_nil
      rw [hsorted, replacements_nil, replaceAll_nil, List.drop_zero] at hcopy hreplaced
      exact iff_of_true ⟨b, rfl, hcopy, hreplaced⟩ (by simp)
  | false =>
      constructor
      · rintro ⟨b', hb', -⟩
        by_contra hnot
        rw [if_neg hnot] at hloop
        rw [applyFormatTextEdits, hempty, if_neg (by simp), hloop] at hb'
        cases hb'
      · intro hbuilds
        rw [if_pos hbuilds] at hloop
        obtain ⟨b₁, happly, hrewritten⟩ := hloop
        obtain ⟨node, hnode⟩ := Option.isSome_iff_exists.1 hb.recorded
        have hnode₁ : b₁.toUndoRecording.undoTree.currentNode = some node := by
          rw [show b₁.toUndoRecording.undoTree = b.undoTree from hrewritten.tree, hnode]
        obtain ⟨recording, hrecording, -⟩ := Buffer.endUndoGroup_spec b₁.storage hnode₁
        have hoffsets : b₁.excerptOffsets = [] := by
          rw [Buffer.excerptOffsets, hrewritten.whole, List.map_nil]
        have hend : b₁.endUndoGroup = some { b₁ with toUndoRecording := recording } :=
          Option.bind_eq_some_iff.2 ⟨recording, hoffsets ▸ hrecording, rfl⟩
        have hcontent : b₁.storage.bytes =
            replaceAll b.storage.bytes 0 (replacements (sortEdits p edits)) := by
          have hfold := foldl_splice hdescends fun r hr => by
            obtain ⟨edit, hedit, rfl⟩ := List.mem_map.1 hr
            exact hwithin edit (List.mem_reverse.1 hedit)
          rw [hback, List.reverse_reverse] at hfold
          rw [hrewritten.storage, ← hfold, hback]
        refine ⟨{ b₁ with toUndoRecording := recording }, ?_, ?_, ?_⟩
        · simp only [applyFormatTextEdits, hempty, Bool.false_eq_true, if_false, happly, hend,
            Option.bind_eq_bind, Option.bind_some]
        · exact hcopy.trans (congrArg some hcontent.symm)
        · exact (hcontent ▸ hreplaced :)

/-- The appliers agree on the content with every range replaced, if and only if the storage takes every
new text and the sort puts no range before an insertion that starts with it. -/
theorem agree_iff (p : Platform) (b : Buffer) (edits : List FormatTextEdit) (hb : Editable b)
    (hsize : b.storage.byteLength ≤ sizeMax) (h : Acceptable edits b.storage.byteLength) :
    Agree p b edits ↔
      (∀ edit ∈ edits, (b.storage.inserted 0 edit.text).isSome) ∧ InsertsFirst (sortEdits p edits) := by
  have hwithin : ∀ edit ∈ sortEdits p edits, edit.replacement.Within b.storage.byteLength :=
    fun edit hedit => h.replacement_within (mem_sortEdits.1 hedit)
  constructor
  · intro hagree
    obtain ⟨b', -, hcopy, hreplaced⟩ := id hagree
    obtain ⟨copy, hcopied, -, hexact⟩ :=
      @length_copyEach _ b.storage.bytes [] 0 sortEdits_sorted hwithin (Nat.zero_le _) hsize
    obtain rfl : copy = b'.storage.bytes := Option.some.inj (hcopied.symm.trans hcopy)
    have hlength := h.length_of_replaced hreplaced
    have hperm : (replacements (sortEdits p edits)).Perm (replacements edits) := sortEdits_perm.map _
    rw [removed_perm hperm, added_perm hperm, List.length_nil, Nat.sub_zero, Nat.zero_add] at hexact
    have hfirst := h.insertsFirst_iff.2 (hexact (Nat.le_of_eq hlength)).2
    exact ⟨(h.agree_of_insertsFirst hb hsize hfirst).1 hagree, hfirst⟩
  · rintro ⟨hbuilds, hfirst⟩
    exact (h.agree_of_insertsFirst hb hsize hfirst).2 hbuilds

/-- A replacement that comes with an insertion in front of it, in this order. -/
theorem agree_iff_two :
    let p : Platform := { graphemeBreak := fun s _ _ => (true, s), keySort := .insertion }
    let b : Buffer := .ofStorage "scratch" { bytes := [97, 98], huge := false }
    Agree p b [⟨0, 0, [121]⟩, ⟨0, 1, [120]⟩] := by
  intro p b
  have h : Acceptable [⟨0, 0, [121]⟩, ⟨0, 1, [120]⟩] b.storage.byteLength :=
    ⟨⟨by decide, by decide⟩, by decide⟩
  exact (agree_iff p b _ ⟨rfl, rfl, rfl⟩ (by decide) h).2
    ⟨by decide +kernel, List.pairwise_pair.2 fun _ => rfl⟩

/-- In the other order the copied text is too long. -/
theorem not_agree :
    let p : Platform := { graphemeBreak := fun s _ _ => (true, s), keySort := .insertion }
    let b : Buffer := .ofStorage "scratch" { bytes := [97, 98], huge := false }
    Acceptable [⟨0, 1, [120]⟩, ⟨0, 0, [121]⟩] b.storage.byteLength ∧
      ¬Agree p b [⟨0, 1, [120]⟩, ⟨0, 0, [121]⟩] := by
  intro p b
  have h : Acceptable [⟨0, 1, [120]⟩, ⟨0, 0, [121]⟩] b.storage.byteLength :=
    ⟨⟨by decide, by decide⟩, by decide⟩
  refine ⟨h, ?_⟩
  rintro ⟨b', hb', hcopy, hreplaced⟩
  have hlength := h.length_of_replaced hreplaced
  have hcopied : applyFormatTextEditsToText p b.storage.bytes [⟨0, 1, [120]⟩, ⟨0, 0, [121]⟩] =
      some [120, 98, 121, 97, 98] := by decide +kernel
  rw [hcopied] at hcopy
  rw [← Option.some.inj hcopy] at hlength
  exact absurd hlength (by decide)

end Ned.Editor.Format
