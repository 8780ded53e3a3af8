import Mathlib.Data.List.Induction
import Ned.Editor.Acp.Lemmas.UndoOrder

/-!
# Undoing single hunks in any order

Hunks that are taken back one after the other commute as long as each is nearest at its own place. What
a hunk is found by may stand elsewhere too, and once it is undone it may still stand somewhere.
-/

namespace Ned.Editor.Acp

open Library Text

def fileState : Option Bytes → FileState
  | none => {}
  | some text => { exists' := true, text := text }

/-- A file after the turn with some of its hunks undone. -/
def partlyUndone (before after : Option Bytes) (hunks : List ReviewHunk) (undone : Nat → Bool) :
    FileState :=
  match before, after with
  | some _, some text =>
      { exists' := true, text := join (withUndone (splitLines text) undone 0 0 hunks) }
  | _, _ => if undone 0 then fileState before else fileState after

def revertEach (hunks : List ReviewHunk) (order : List Nat) (current : FileState) : Option FileState :=
  order.foldlM (fun state index => do revertHunk state (← hunks[index]?)) current

/-- Hunks undone in some order: each revert takes back the lines of that hunk where they are, one that is
undone shows so, and only which ones are undone matters. -/
structure Commutes (before after : Option Bytes) (hunks : List ReviewHunk) (order : List Nat) : Prop where
  content : ∀ done, done <+: order →
    revertEach hunks done (fileState after) = some (partlyUndone before after hunks done.contains)
  own : ∀ done index hunk state, done ++ [index] <+: order → hunks[index]? = some hunk →
    revertEach hunks done (fileState after) = some state →
    locateHunk state hunk = some (ownPlace done.contains 0 0 hunks index)
  undone : ∀ done index hunk state, done <+: order → index ∈ done → hunks[index]? = some hunk →
    revertEach hunks done (fileState after) = some state →
    stateOf state hunk = .undone ∧ revertHunk state hunk = none
  all : (∀ index < hunks.length, index ∈ order) →
    revertEach hunks order (fileState after) = some (fileState before)

/-- In a file that was there before the turn and after it, no hunk is nearer to where the turn left it at
another place than its own when its turn comes, and one that is undone stands nowhere. -/
structure Unambiguous (before after : Option Bytes) (hunks : List ReviewHunk) (order : List Nat) :
    Prop where
  nearest : ∀ text, before.isSome → after = some text → ∀ done index hunk, done ++ [index] <+: order →
    hunks[index]? = some hunk →
    Nearest (withUndone (splitLines text) done.contains 0 0 hunks)
      (hunk.contextBefore ++ hunk.newLines ++ hunk.contextAfter) hunk.contextBefore.length hunk.newStart
      (ownPlace done.contains 0 0 hunks index - hunk.contextBefore.length)
  gone : ∀ text, before.isSome → after = some text → ∀ done index hunk, done <+: order → index ∈ done →
    hunks[index]? = some hunk → ∀ start, ¬OccursAt (withUndone (splitLines text) done.contains 0 0 hunks)
      (hunk.contextBefore ++ hunk.newLines ++ hunk.contextAfter) start

section

variable {hunks : List ReviewHunk} {order done : List Nat} {current state : FileState} {index : Nat}
  {hunk : ReviewHunk} {before after : Option Bytes}

theorem revertEach_concat (hstate : revertEach hunks done current = some state)
    (hhunk : hunks[index]? = some hunk) :
    revertEach hunks (done ++ [index]) current = revertHunk state hunk := by
  rw [revertEach] at hstate
  rw [revertEach, List.foldlM_append, hstate]
  simp only [Option.bind_eq_bind, Option.bind_some, List.foldlM_cons, List.foldlM_nil, hhunk,
    Option.pure_def, Option.bind_fun_some]

theorem eq_of_getElem?_singleton {other : ReviewHunk} (h : [hunk][index]? = some other) :
    index = 0 ∧ other = hunk := by
  cases index with
  | zero => exact ⟨rfl, (Option.some.inj h).symm⟩
  | succ index => cases h

theorem prefix_singleton {first : Nat} : done <+: [first] ↔ done = [] ∨ done = [first] := by
  rw [List.prefix_cons_iff]
  simp only [List.prefix_nil, exists_eq_right]

theorem eq_nil_of_prefix_singleton {first : Nat} (h : done ++ [index] <+: [first]) : done = [] := by
  rcases prefix_singleton.1 h with hnil | hcons
  · simp at hnil
  · simpa using congrArg List.length hcons

/-- A file that the turn made or deleted has one hunk, which is all of it. -/
theorem commutes_whole (hone : order = [] ∨ order = [0]) (hnot : ¬(before.isSome ∧ after.isSome))
    (hstart : hunk.newStart = 0) (hlocate : locateHunk (fileState after) hunk = some 0)
    (hrevert : revertHunk (fileState after) hunk = some (fileState before))
    (hundone : stateOf (fileState before) hunk = .undone)
    (hagain : revertHunk (fileState before) hunk = none) : Commutes before after [hunk] order := by
  have hpartly : ∀ undone, partlyUndone before after [hunk] undone =
      if undone 0 then fileState before else fileState after := by
    intro undone
    cases before with
    | none => rfl
    | some text =>
        cases after with
        | none => rfl
        | some text' => exact absurd ⟨rfl, rfl⟩ hnot
  have hbegins : ∀ done, done <+: order → done = [] ∨ done = [0] := by
    intro done hdone
    rcases hone with rfl | rfl
    · exact .inl (List.prefix_nil.1 hdone)
    · exact prefix_singleton.1 hdone
  have hrun : revertEach [hunk] [0] (fileState after) = some (fileState before) := by
    rw [← hrevert]
    exact @revertEach_concat [hunk] [] _ _ 0 hunk rfl rfl
  refine ⟨?_, ?_, ?_, ?_⟩
  · intro done hdone
    rw [hpartly]
    rcases hbegins done hdone with rfl | rfl
    · rfl
    · exact hrun
  · intro done index other state hdone hother hstate
    obtain ⟨rfl, rfl⟩ := eq_of_getElem?_singleton hother
    obtain rfl : done = [] := by
      rcases hone with rfl | rfl
      · exact absurd (List.prefix_nil.1 hdone) (by simp)
      · exact eq_nil_of_prefix_singleton hdone
    obtain rfl := Option.some.inj hstate
    rw [hlocate, ownPlace, hstart]
  · intro done index other state hdone hmem hother hstate
    obtain ⟨rfl, rfl⟩ := eq_of_getElem?_singleton hother
    rcases hbegins done hdone with rfl | rfl
    · exact absurd hmem List.not_mem_nil
    · rw [hrun] at hstate
      obtain rfl := Option.some.inj hstate
      exact ⟨hundone, hagain⟩
  · intro hall
    rcases hone with rfl | rfl
    · exact absurd (hall 0 (Nat.succ_pos 0)) List.not_mem_nil
    · exact hrun

end

section

variable {before after : Bytes} {coarse : List (Segment Line)} {tail : List Line} {fileIndex : Nat}
  {hunks : List ReviewHunk} {order done : List Nat} {index : Nat} {hunk : ReviewHunk}
  {undone : Nat → Bool} (hhunks : hunks = reviewAt fileIndex tail 0 0 coarse) (hfar : Far coarse)
  (ha : splitLines before = Segment.before coarse tail)
  (hb : splitLines after = Segment.after coarse tail)

include hhunks hb in
theorem withUndone_eq : withUndone (splitLines after) undone 0 0 hunks = mixed tail undone 0 coarse := by
  rw [hhunks]
  exact @withUndone_reviewAt (splitLines after) [] tail 0 0 fileIndex coarse undone hb

include hhunks hb in
theorem partlyUndone_eq : partlyUndone (some before) (some after) hunks undone =
    { exists' := true, text := join (mixed tail undone 0 coarse) } := by
  rw [partlyUndone, withUndone_eq hhunks hb]

include hfar ha hb in
theorem lined_partlyUndone : Lined (mixed tail undone 0 coarse) :=
  lined_mixed hfar (ha ▸ lined_splitLines before) (hb ▸ lined_splitLines after)

theorem contains_concat {m : Nat} (hm : m ≠ index) :
    (done ++ [index]).contains m = done.contains m := by
  simp [hm]

include hhunks hfar ha hb

/-- The next hunk is found at its own place exactly if that is the nearest, and taken back there. -/
theorem locateHunk_partlyUndone (hnot : index ∉ done) (hhunk : hunks[index]? = some hunk) :
    locateHunk (partlyUndone (some before) (some after) hunks done.contains) hunk =
        some (ownPlace done.contains 0 0 hunks index) ↔
      Nearest (withUndone (splitLines after) done.contains 0 0 hunks)
        (hunk.contextBefore ++ hunk.newLines ++ hunk.contextAfter) hunk.contextBefore.length hunk.newStart
        (ownPlace done.contains 0 0 hunks index - hunk.contextBefore.length) := by
  rw [partlyUndone_eq hhunks hb, withUndone_eq hhunks hb]
  rw [hhunks] at hhunk ⊢
  obtain ⟨hcreated, hdeleted⟩ := reviewAt_not_created (List.mem_of_getElem? hhunk)
  obtain ⟨P, kept, rest, hstands⟩ := @reviewAt_stands tail 0 0 index 0 fileIndex coarse done.contains hunk
    hfar hhunk
  obtain ⟨hplace, hoccurs⟩ := hstands.occursAt hfar
  have hclear : done.contains (0 + index) = false := by simpa using hnot
  rw [standing, hclear, if_neg (by decide)] at hoccurs
  rw [locateHunk_text hcreated hdeleted (lined_partlyUndone hfar ha hb), ← find_eq_some_iff hoccurs, hplace]

theorem revertHunk_partlyUndone (hnot : index ∉ done) (hhunk : hunks[index]? = some hunk)
    (hlocate : locateHunk (partlyUndone (some before) (some after) hunks done.contains) hunk =
      some (ownPlace done.contains 0 0 hunks index)) :
    revertHunk (partlyUndone (some before) (some after) hunks done.contains) hunk =
      some (partlyUndone (some before) (some after) hunks (done ++ [index]).contains) := by
  rw [partlyUndone_eq hhunks hb] at hlocate ⊢
  rw [partlyUndone_eq hhunks hb]
  rw [hhunks] at hhunk hlocate
  obtain ⟨hcreated, hdeleted⟩ := reviewAt_not_created (List.mem_of_getElem? hhunk)
  obtain ⟨P, kept, rest, hstands⟩ := @reviewAt_stands tail 0 0 index 0 fileIndex coarse done.contains hunk
    hfar hhunk
  have hclear : done.contains (0 + index) = false := by simpa using hnot
  have hset : (done ++ [index]).contains (0 + index) = true := by simp
  rw [hstands.revertHunk hcreated hdeleted (lined_partlyUndone hfar ha hb) hclear hlocate,
    hstands.lines (done ++ [index]).contains fun m hm => contains_concat (by simpa using hm), standing, hset]
  rfl

theorem undone_partlyUndone (hmem : index ∈ done) (hhunk : hunks[index]? = some hunk) :
    (stateOf (partlyUndone (some before) (some after) hunks done.contains) hunk = .undone ∧
      revertHunk (partlyUndone (some before) (some after) hunks done.contains) hunk = none) ↔
    ∀ start, ¬OccursAt (withUndone (splitLines after) done.contains 0 0 hunks)
      (hunk.contextBefore ++ hunk.newLines ++ hunk.contextAfter) start := by
  rw [partlyUndone_eq hhunks hb, withUndone_eq hhunks hb]
  rw [hhunks] at hhunk
  obtain ⟨hcreated, hdeleted⟩ := reviewAt_not_created (List.mem_of_getElem? hhunk)
  obtain ⟨P, kept, rest, hstands⟩ := @reviewAt_stands tail 0 0 index 0 fileIndex coarse done.contains hunk
    hfar hhunk
  have hset : done.contains (0 + index) = true := by simpa using hmem
  exact hstands.undone_iff hfar hcreated hdeleted (lined_partlyUndone hfar ha hb) hset

/-- As long as every hunk is found at its own place, the lines are those with these hunks taken back. -/
theorem revertEach_eq (hnodup : order.Nodup) (hrange : ∀ index ∈ order, index < hunks.length)
    (hnearest : ∀ done index hunk, done ++ [index] <+: order → hunks[index]? = some hunk →
      Nearest (withUndone (splitLines after) done.contains 0 0 hunks)
        (hunk.contextBefore ++ hunk.newLines ++ hunk.contextAfter) hunk.contextBefore.length hunk.newStart
        (ownPlace done.contains 0 0 hunks index - hunk.contextBefore.length))
    (hdone : done <+: order) : revertEach hunks done (fileState (some after)) =
      some (partlyUndone (some before) (some after) hunks done.contains) := by
  induction done using List.reverseRecOn with
  | nil =>
      have hclear : ∀ m, ([] : List Nat).contains m = false := fun _ => rfl
      rw [partlyUndone_eq hhunks hb, mixed_none hclear, ← hb, join, flatten_splitLines]
      rfl
  | append_singleton done index ih =>
      have hbefore : done <+: order := (List.prefix_append done [index]).trans hdone
      have hnot : index ∉ done := fun hmem =>
        List.disjoint_of_nodup_append (hnodup.sublist hdone.sublist) hmem List.mem_cons_self
      have hlt := hrange index (hdone.subset (List.mem_append_right _ List.mem_cons_self))
      have hhunk := List.getElem?_eq_getElem hlt
      have hlocate := (locateHunk_partlyUndone hhunks hfar ha hb hnot hhunk).2
        (hnearest done index _ hdone hhunk)
      rw [revertEach_concat (ih hbefore) hhunk]
      exact revertHunk_partlyUndone hhunks hfar ha hb hnot hhunk hlocate

theorem commutes_text_iff (hnodup : order.Nodup) (hrange : ∀ index ∈ order, index < hunks.length) :
    Commutes (some before) (some after) hunks order ↔ Unambiguous (some before) (some after) hunks order := by
  have hnot : ∀ done index, done ++ [index] <+: order → index ∉ done := fun done index hdone hmem =>
    List.disjoint_of_nodup_append (hnodup.sublist hdone.sublist) hmem List.mem_cons_self
  constructor
  · intro h
    refine ⟨?_, ?_⟩
    · intro text _ heq done index hunk hdone hhunk
      obtain rfl := Option.some.inj heq
      have hbefore : done <+: order := (List.prefix_append done [index]).trans hdone
      exact (locateHunk_partlyUndone hhunks hfar ha hb (hnot done index hdone) hhunk).1
        (h.own done index hunk _ hdone hhunk (h.content done hbefore))
    · intro text _ heq done index hunk hdone hmem hhunk
      obtain rfl := Option.some.inj heq
      exact (undone_partlyUndone hhunks hfar ha hb hmem hhunk).1
        (h.undone done index hunk _ hdone hmem hhunk (h.content done hdone))
  · intro h
    have hcontent : ∀ done, done <+: order → revertEach hunks done (fileState (some after)) =
        some (partlyUndone (some before) (some after) hunks done.contains) := fun done hdone =>
      revertEach_eq hhunks hfar ha hb hnodup hrange (h.nearest after rfl rfl) hdone
    refine ⟨hcontent, ?_, ?_, ?_⟩
    · intro done index hunk state hdone hhunk hstate
      rw [hcontent done ((List.prefix_append done [index]).trans hdone)] at hstate
      obtain rfl := Option.some.inj hstate
      exact (locateHunk_partlyUndone hhunks hfar ha hb (hnot done index hdone) hhunk).2
        (h.nearest after rfl rfl done index hunk hdone hhunk)
    · intro done index hunk state hdone hmem hhunk hstate
      rw [hcontent done hdone] at hstate
      obtain rfl := Option.some.inj hstate
      exact (undone_partlyUndone hhunks hfar ha hb hmem hhunk).2
        (h.gone after rfl rfl done index hunk hdone hmem hhunk)
    · intro hall
      have hset : ∀ m < coarse.length, order.contains (0 + m) = true := by
        intro m hm
        have hmem := hall m (by rw [hhunks, length_reviewAt]; exact hm)
        simpa using hmem
      rw [hcontent order List.prefix_rfl, partlyUndone_eq hhunks hb, mixed_all hset, ← ha, join,
        flatten_splitLines]
      rfl

end

/-- Undoing single hunks in some order commutes exactly if each is unambiguous when its turn comes and
stands nowhere once it is undone. -/
theorem commutes_iff (name : String) (before after : Option Bytes) (fileIndex : Nat) :
    ∃ hunks, turnHunks { name := name, before := fileState before, after := some (fileState after) }
        fileIndex = some hunks ∧
      ∀ order : List Nat, order.Nodup → (∀ index ∈ order, index < hunks.length) →
        (Commutes before after hunks order ↔ Unambiguous before after hunks order) := by
  have hwhole : ∀ order : List Nat, order.Nodup → (∀ index ∈ order, index < 1) → order = [] ∨ order = [0] := by
    intro order hnodup hrange
    cases order with
    | nil => exact .inl rfl
    | cons first rest =>
        obtain rfl : first = 0 := Nat.lt_one_iff.1 (hrange first List.mem_cons_self)
        obtain rfl : rest = [] := by
          apply List.eq_nil_iff_forall_not_mem.2
          intro index hmem
          obtain rfl : index = 0 := Nat.lt_one_iff.1 (hrange index (List.mem_cons_of_mem _ hmem))
          exact (List.nodup_cons.1 hnodup).1 hmem
        exact .inr rfl
  have hvacuous : ∀ hunks order, ¬(before.isSome ∧ after.isSome) → Unambiguous before after hunks order := by
    intro hunks order hnot
    refine ⟨?_, ?_⟩
    · intro text hbefore hafter
      exact absurd ⟨hbefore, hafter ▸ rfl⟩ hnot
    · intro text hbefore hafter
      exact absurd ⟨hbefore, hafter ▸ rfl⟩ hnot
  cases before with
  | none =>
      cases after with
      | none =>
          refine ⟨[], rfl, fun order _ hrange => iff_of_true ?_ (hvacuous _ _ (by simp))⟩
          obtain rfl : order = [] :=
            List.eq_nil_iff_forall_not_mem.2 fun index hmem => Nat.not_lt_zero _ (hrange index hmem)
          refine ⟨?_, ?_, ?_, fun _ => rfl⟩
          · intro done hdone
            rw [List.prefix_nil.1 hdone]
            rfl
          · intro done index hunk state hdone
            exact absurd (List.prefix_nil.1 hdone) (by simp)
          · intro done index hunk state hdone hmem
            rw [List.prefix_nil.1 hdone] at hmem
            exact absurd hmem List.not_mem_nil
      | some text =>
          refine ⟨_, rfl, fun order hnodup hrange => iff_of_true ?_ (hvacuous _ _ (by simp))⟩
          have hjoin : join (splitLines text) = text := flatten_splitLines text
          apply commutes_whole (hwhole order hnodup hrange) (by simp) rfl
          · simp [locateHunk, fileState, hjoin]
          · simp [revertHunk, locateHunk, fileState, hjoin]
          · simp [stateOf, locateHunk, fileState]
          · simp [revertHunk, locateHunk, fileState]
  | some text =>
      cases after with
      | none =>
          refine ⟨_, rfl, fun order hnodup hrange => iff_of_true ?_ (hvacuous _ _ (by simp))⟩
          have hjoin : join (splitLines text) = text := flatten_splitLines text
          apply commutes_whole (hwhole order hnodup hrange) (by simp) rfl
          · simp [locateHunk, fileState]
          · simp [revertHunk, locateHunk, fileState, hjoin]
          · simp [stateOf, locateHunk, fileState, hjoin]
          · simp [revertHunk, locateHunk, fileState]
      | some text' =>
          obtain ⟨raw, coarse, tail, -, hhunks, ha, hb, hfar, -⟩ :=
            turnHunks_coarse name text text' fileIndex
          exact ⟨_, hhunks, fun order hnodup hrange => commutes_text_iff rfl hfar ha hb hnodup hrange⟩

def changedHunk : ReviewHunk := { oldLines := [[97, 10]], newLines := [[98, 10]] }

/-- The only line of a file changed. -/
theorem commutes_changed : Commutes (some [97, 10]) (some [98, 10]) [changedHunk] [0] := by
  obtain ⟨hunks, hhunks, hiff⟩ := commutes_iff "f" (some [97, 10]) (some [98, 10]) 0
  have hrun : turnHunks { name := "f", before := fileState (some [97, 10]),
                          after := some (fileState (some [98, 10])) } 0 = some [changedHunk] := by decide
  obtain rfl := Option.some.inj (hhunks.symm.trans hrun)
  apply (hiff [0] (by decide) (by decide)).2
  refine ⟨?_, ?_⟩
  · intro text _ heq done index hunk hdone hhunk other hother hne
    obtain rfl := Option.some.inj heq
    obtain ⟨rfl, rfl⟩ := eq_of_getElem?_singleton hhunk
    obtain rfl : done = [] := eq_nil_of_prefix_singleton hdone
    have hle : other + 1 ≤ 1 := hother.1
    exact absurd (Nat.le_zero.1 (Nat.le_of_succ_le_succ hle)) hne
  · intro text _ heq done index hunk hdone hmem hhunk start hstart
    obtain rfl := Option.some.inj heq
    obtain ⟨rfl, rfl⟩ := eq_of_getElem?_singleton hhunk
    rcases prefix_singleton.1 hdone with rfl | rfl
    · exact absurd hmem List.not_mem_nil
    · have hle : start + 1 ≤ 1 := hstart.1
      obtain rfl : start = 0 := Nat.le_zero.1 (Nat.le_of_succ_le_succ hle)
      exact absurd hstart.2.1 (by decide)

def deletedLast : ReviewHunk :=
  { oldStart := 1, newStart := 1, contextBefore := [[97, 10]], oldLines := [[98, 10]] }

/-- A last line that the turn deleted is taken back again and again. -/
theorem not_commutes_deleted :
    turnHunks { name := "f", before := fileState (some [97, 10, 98, 10]),
                after := some (fileState (some [97, 10])) } 0 = some [deletedLast] ∧
      ¬Commutes (some [97, 10, 98, 10]) (some [97, 10]) [deletedLast] [0] := by
  refine ⟨by decide, fun h => ?_⟩
  have hrun : revertEach [deletedLast] [0] (fileState (some [97, 10])) =
      some (fileState (some [97, 10, 98, 10])) := by decide
  have hagain : revertHunk (fileState (some [97, 10, 98, 10])) deletedLast =
      some (fileState (some [97, 10, 98, 10, 98, 10])) := by decide
  have hnone := (h.undone [0] 0 deletedLast _ List.prefix_rfl List.mem_cons_self rfl hrun).2
  rw [hagain] at hnone
  cases hnone

end Ned.Editor.Acp
