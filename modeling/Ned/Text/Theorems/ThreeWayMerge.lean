import Mathlib.Data.List.Permutation
import Ned.Library.Replacements
import Ned.Text.Lemmas.Lines
import Ned.Text.Theorems.LineDiff
import Ned.Text.ThreeWayMerge

/-!
# A merge of sides that do not meet

Where the hunks of the two sides are apart, or are the same, the merged text is the base with the
replacements of both sides.
-/

namespace Ned.Text

open Ned.Library

/-! ## The diff of a text with itself -/

theorem MyersDiff.same_self {a : List Line} {x : Nat} (hx : x < a.length) :
    MyersDiff.same a a x x = some true := by
  have hget : MyersDiff.get a x = some a[x] := by
    rw [MyersDiff.get, if_pos (Int.natCast_nonneg x), Int.toNat_natCast, List.getElem?_eq_getElem hx]
  simp only [MyersDiff.same, hget, Option.bind_eq_bind, Option.bind_some, beq_self_eq_true]

theorem MyersDiff.slide_self {a : List Line} {fuel x : Nat} (hx : x ≤ a.length)
    (hfuel : a.length - x < fuel) :
    MyersDiff.slide (MyersDiff.same a a) a.length a.length fuel x x =
      some ((a.length : Int), (a.length : Int)) := by
  induction fuel generalizing x with
  | zero => exact absurd hfuel (Nat.not_lt_zero _)
  | succ fuel ih =>
      rw [MyersDiff.slide]
      by_cases hlt : x < a.length
      · have hnext := @ih (x + 1) hlt (by omega)
        rw [if_pos ⟨Int.ofNat_lt.2 hlt, Int.ofNat_lt.2 hlt⟩, MyersDiff.same_self hlt]
        simpa using hnext
      · obtain rfl : x = a.length := Nat.le_antisymm hx (Nat.le_of_not_lt hlt)
        rw [if_neg (by omega)]

theorem diffLines_self (a : List Line) : diffLines a a = some [] := by
  have hstart : MyersDiff.trimStart a a 0 a.length 0 a.length =
      some ((a.length : Int), (a.length : Int)) := by
    have hslide := @MyersDiff.slide_self a (((a.length : Int) - 0).toNat + ((a.length : Int) - 0).toNat + 1)
      0 (Nat.zero_le _) (by omega)
    exact hslide
  have hend : MyersDiff.trimEnd a a a.length a.length a.length a.length =
      some ((a.length : Int), (a.length : Int)) := by
    simp [MyersDiff.trimEnd, MyersDiff.slide]
  simp [diffLines, MyersDiff.compare, hstart, hend, MyersDiff.emit]

/-! ## Hunks as replacements -/

/-- A hunk as the replacement of its base lines by those of the side. -/
def LineDiffHunk.replacement (side : List Line) (hunk : LineDiffHunk) : Replacement Line :=
  { start := hunk.aStart, stop := hunk.aEnd, text := (side.take hunk.bEnd).drop hunk.bStart }

open Replacement in
theorem replaceHunks_eq {a b : List Line} {i : Nat} {hunks : List LineDiffHunk}
    (hcursor : ∀ hunk ∈ hunks, i ≤ hunk.aStart)
    (h : hunks.Pairwise fun hunk next => hunk.aEnd < next.aStart) :
    replaceHunks a b i hunks = replaceAll a i (hunks.map (LineDiffHunk.replacement b)) := by
  induction hunks generalizing i with
  | nil => rfl
  | cons hunk hunks ih =>
      obtain ⟨hfirst, hrest⟩ := List.pairwise_cons.1 h
      have hle : i ≤ hunk.aEnd :=
        Nat.le_trans (hcursor hunk List.mem_cons_self) (Nat.le_add_right _ _)
      rw [replaceHunks, List.map_cons, replaceAll_cons, LineDiffHunk.replacement, Nat.max_eq_right hle,
        List.append_assoc, List.drop_take,
        ih (fun next hnext => Nat.le_of_lt (hfirst next hnext)) hrest]

namespace ThreeWayMerge

/-! ## Writing -/

section

variable {lines base ours theirs side : List Line} {pos stop count cursor : Nat} {result : MergeResult}
  {groups : List Group} {group : Group} {r : Replacement Line} {rs : List (Replacement Line)}
  {hunk : LineDiffHunk}

theorem linesFrom_eq (h : pos + count ≤ lines.length) :
    linesFrom lines pos count = some ((lines.drop pos).take count) := by
  induction count generalizing pos with
  | zero => rfl
  | succ count ih =>
      have hlt : pos < lines.length := by omega
      rw [linesFrom, List.getElem?_eq_getElem hlt, ih (by omega), List.drop_eq_getElem_cons hlt,
        List.take_succ_cons]
      rfl

theorem linesBetween_eq (hpos : pos ≤ stop) (hstop : stop ≤ lines.length) :
    linesBetween lines pos stop = some ((lines.drop pos).take (stop - pos)) :=
  linesFrom_eq (by omega)

/-- A group that is no conflict puts `r.text` in place of the base lines `[r.start, r.stop)`. -/
structure Writes (base ours theirs : List Line) (group : Group) (r : Replacement Line) : Prop where
  start : r.start = group.start
  stop : r.stop = group.stop
  written : writeGroup base ours theirs group = some (joinLines r.text, false)

/-- Groups that are no conflicts make the base with their replacements. -/
theorem writeGroups_eq (h : List.Forall₂ (Writes base ours theirs) groups rs)
    (hcursor : ∀ r ∈ rs, cursor ≤ r.start) (hle : cursor ≤ base.length)
    (hordered : rs.Pairwise fun r s => r.stop ≤ s.start) (hwithin : ∀ r ∈ rs, r.Within base.length) :
    writeGroups base ours theirs cursor result groups = some
      { result with
        mergedText := result.mergedText ++ joinLines (Replacement.replaceAll base cursor rs) } := by
  induction h generalizing cursor result with
  | nil =>
      rw [writeGroups, linesBetween_eq hle (Nat.le_refl _), Replacement.replaceAll_nil,
        List.take_of_length_le (by rw [List.length_drop])]
      rfl
  | @cons group r groups rs hwrites _ ih =>
      obtain ⟨hfirst, hrest⟩ := List.pairwise_cons.1 hordered
      obtain ⟨hstart, hstop⟩ := hwithin r List.mem_cons_self
      have hbehind := hcursor r List.mem_cons_self
      have hnext : writeGroups base ours theirs r.stop
          { result with
            mergedText := result.mergedText ++
              joinLines ((base.drop cursor).take (r.start - cursor)) ++ joinLines r.text } groups = some
          { result with
            mergedText := result.mergedText ++
              joinLines ((base.drop cursor).take (r.start - cursor)) ++ joinLines r.text ++
              joinLines (Replacement.replaceAll base r.stop rs) } :=
        ih hfirst hstop hrest fun s hs => hwithin s (List.mem_cons_of_mem _ hs)
      rw [writeGroups, ← hwrites.start, linesBetween_eq hbehind (Nat.le_trans hstart hstop)]
      simp only [Option.bind_eq_bind, Option.bind_some, hwrites.written, ← hwrites.stop,
        Bool.false_eq_true, Bool.false_and, if_false, hnext]
      rw [Replacement.replaceAll_cons, Nat.max_eq_right (Nat.le_trans hbehind hstart)]
      simp only [joinLines, List.flatten_append, List.append_assoc]

theorem effectiveContent_single (hb : hunk.bEnd ≤ side.length) :
    effectiveContent base side hunk.aEnd hunk.aStart [hunk] = some (hunk.replacement side).text := by
  have hkept : linesBetween base hunk.aStart hunk.aStart = some [] := by
    rw [linesBetween, Nat.sub_self, linesFrom]
  have hrest : linesBetween base (hunk.aStart + hunk.aCount) hunk.aEnd = some [] := by
    rw [linesBetween, LineDiffHunk.aEnd, Nat.sub_self, linesFrom]
  have hreplaced : linesFrom side hunk.bStart hunk.bCount = some (hunk.replacement side).text := by
    rw [linesFrom_eq hb, LineDiffHunk.replacement, List.drop_take, LineDiffHunk.bEnd,
      Nat.add_sub_cancel_left]
  rw [effectiveContent, effectiveContent, hkept, hreplaced]
  simp only [Option.bind_eq_bind, Option.bind_some, hrest, List.nil_append, List.append_nil]

end

/-! ## Grouping -/

def sideLines (ours theirs : List Line) : Side → List Line
  | .ours => ours
  | .theirs => theirs

/-- A hunk of both sides. -/
def both (hunk : LineDiffHunk) : Group :=
  { start := hunk.aStart, stop := hunk.aEnd, ours := [hunk], theirs := [hunk] }

section

variable {base ours theirs x : List Line} {group : Group} {t u : TaggedHunk} {ts : List TaggedHunk}
  {hunk : LineDiffHunk} {hunks : List LineDiffHunk} {key : TaggedHunk → Nat} {m : Nat}

theorem ofHunk_writes (hb : t.hunk.bEnd ≤ (sideLines ours theirs t.side).length) :
    Writes base ours theirs (.ofHunk t) (t.hunk.replacement (sideLines ours theirs t.side)) := by
  obtain ⟨hunk, side⟩ := t
  have hcontent := @effectiveContent_single base _ hunk hb
  cases side with
  | ours =>
      have hwrite : writeGroup base ours theirs (.ofHunk ⟨hunk, .ours⟩) =
          (effectiveContent base ours hunk.aEnd hunk.aStart [hunk]).bind fun lines =>
            some (joinLines lines, false) := rfl
      exact ⟨rfl, rfl, hwrite.trans (congrArg (Option.bind · _) hcontent)⟩
  | theirs =>
      have hwrite : writeGroup base ours theirs (.ofHunk ⟨hunk, .theirs⟩) =
          (effectiveContent base theirs hunk.aEnd hunk.aStart [hunk]).bind fun lines =>
            some (joinLines lines, false) := rfl
      exact ⟨rfl, rfl, hwrite.trans (congrArg (Option.bind · _) hcontent)⟩

theorem both_writes (hb : hunk.bEnd ≤ x.length) :
    Writes base x x (both hunk) (hunk.replacement x) := by
  have hcontent := @effectiveContent_single base _ hunk hb
  refine ⟨rfl, rfl, ?_⟩
  simp only [writeGroup, both, List.isEmpty_cons, Bool.false_eq_true, if_false, hcontent,
    Option.bind_eq_bind, Option.bind_some, if_true]

theorem overlaps_ahead (h : group.stop < t.hStart) : group.overlaps t = false := by
  have hlt : ¬t.hStart < group.stop := Nat.lt_asymm h
  have hne : (t.hStart == group.stop) = false := beq_eq_false_iff_ne.2 (Nat.ne_of_gt h)
  rw [Group.overlaps, Group.collidingInsertion, hne, Bool.and_false, Bool.or_false,
    decide_eq_false hlt]

theorem groupsFrom_ahead (h : ∀ t ∈ ts.head?, group.stop < t.hStart) :
    groupsFrom group ts = group :: groupHunks ts := by
  cases ts with
  | nil => rfl
  | cons t ts =>
      rw [groupsFrom, overlaps_ahead (h t rfl), if_neg (by decide), groupHunks]

theorem groupHunks_apart (h : ts.Pairwise fun t u => t.hEnd < u.hStart) :
    groupHunks ts = ts.map .ofHunk := by
  induction ts with
  | nil => rfl
  | cons t ts ih =>
      obtain ⟨hfirst, hrest⟩ := List.pairwise_cons.1 h
      have hahead : ∀ u ∈ ts.head?, (Group.ofHunk t).stop < u.hStart := by
        intro u hu
        have hstop : (Group.ofHunk t).stop = t.hEnd := by
          obtain ⟨hunk, side⟩ := t
          cases side <;> rfl
        rw [hstop]
        exact hfirst u (List.mem_of_head? hu)
      rw [groupHunks, groupsFrom_ahead hahead, ih hrest, List.map_cons]

/-- Of two sides with the same hunk one joins the other, whichever comes first. -/
theorem groupsFrom_same {first second : Side} (hne : first ≠ second) :
    groupsFrom (.ofHunk ⟨hunk, first⟩) (⟨hunk, second⟩ :: ts) = groupsFrom (both hunk) ts := by
  have hjoin : (Group.ofHunk ⟨hunk, first⟩).join ⟨hunk, second⟩ = both hunk := by
    cases first <;> cases second
    · exact absurd rfl hne
    · simp [Group.join, Group.ofHunk, Group.push, both, TaggedHunk.hStart, TaggedHunk.hEnd,
        LineDiffHunk.aEnd]
    · simp [Group.join, Group.ofHunk, Group.push, both, TaggedHunk.hStart, TaggedHunk.hEnd,
        LineDiffHunk.aEnd]
    · exact absurd rfl hne
  have hoverlaps : (Group.ofHunk ⟨hunk, first⟩).overlaps ⟨hunk, second⟩ = true := by
    have hgroup : (Group.ofHunk ⟨hunk, first⟩).start = hunk.aStart ∧
        (Group.ofHunk ⟨hunk, first⟩).stop = hunk.aStart + hunk.aCount := by
      cases first <;> exact ⟨rfl, rfl⟩
    rw [Group.overlaps, Group.collidingInsertion, hgroup.1, hgroup.2]
    cases hcount : hunk.aCount with
    | zero => simp [TaggedHunk.hStart, TaggedHunk.hEnd, hcount]
    | succ count => simp [TaggedHunk.hStart]
  rw [groupsFrom, hoverlaps, if_pos rfl, hjoin]

/-- A sorted list begins with all that have the least key. -/
theorem sorted_split (hsorted : ts.Pairwise fun t u => key t ≤ key u) (hleast : ∀ t ∈ ts, m ≤ key t) :
    ts = ts.filter (key · == m) ++ ts.filter (key · != m) := by
  induction ts with
  | nil => rfl
  | cons t ts ih =>
      obtain ⟨hfirst, hrest⟩ := List.pairwise_cons.1 hsorted
      have hts := ih hrest fun u hu => hleast u (List.mem_cons_of_mem _ hu)
      by_cases hkey : key t = m
      · rw [List.filter_cons_of_pos (by simp [hkey]), List.filter_cons_of_neg (by simp [hkey]),
          List.cons_append, ← hts]
      · have hlt : ∀ u ∈ t :: ts, key u ≠ m := by
          intro u hu heq
          have hle := hleast t List.mem_cons_self
          rcases List.mem_cons.1 hu with rfl | hu
          · exact hkey heq
          · have := hfirst u hu
            omega
        rw [List.filter_eq_nil_iff.2 fun u hu => by simp [hlt u hu],
          List.filter_eq_self.2 fun u hu => by simp [hlt u hu], List.nil_append]

/-- Two sides with the same hunks, in whichever order the sort leaves them. -/
theorem groupHunks_same
    (hperm : ts.Perm (hunks.map ({ hunk := ·, side := .ours }) ++
      hunks.map ({ hunk := ·, side := .theirs })))
    (hsorted : ts.Pairwise fun t u => t.hStart ≤ u.hStart)
    (hapart : hunks.Pairwise fun hunk next => hunk.aEnd < next.aStart) :
    groupHunks ts = hunks.map both := by
  induction hunks generalizing ts with
  | nil =>
      rw [hperm.eq_nil]
      rfl
  | cons hunk hunks ih =>
      obtain ⟨hfirst, hrest⟩ := List.pairwise_cons.1 hapart
      have hbehind : ∀ next ∈ hunks, hunk.aStart < next.aStart := fun next hnext =>
        Nat.lt_of_le_of_lt (Nat.le_add_right _ _) (hfirst next hnext)
      have hmem : ∀ t ∈ ts, t.hunk = hunk ∨ t.hunk ∈ hunks := by
        intro t ht
        have ht := hperm.mem_iff.1 ht
        simp only [List.map_cons, List.mem_append, List.mem_cons, List.mem_map] at ht
        rcases ht with (rfl | ⟨next, hnext, rfl⟩) | rfl | ⟨next, hnext, rfl⟩
        · exact .inl rfl
        · exact .inr hnext
        · exact .inl rfl
        · exact .inr hnext
      have hleast : ∀ t ∈ ts, hunk.aStart ≤ t.hStart := by
        intro t ht
        rcases hmem t ht with heq | hnext
        · rw [TaggedHunk.hStart, heq]
        · exact Nat.le_of_lt (hbehind _ hnext)
      have hsplit := sorted_split hsorted hleast
      have hfirsts : ∀ side, (hunks.map ({ hunk := ·, side := side })).filter
          (fun t : TaggedHunk => t.hStart == hunk.aStart) = [] := by
        intro side
        apply List.filter_eq_nil_iff.2
        intro t ht
        obtain ⟨next, hnext, rfl⟩ := List.mem_map.1 ht
        exact fun heq => absurd (beq_iff_eq.1 heq) (Nat.ne_of_gt (hbehind next hnext))
      have hrests : ∀ side, (hunks.map ({ hunk := ·, side := side })).filter
          (fun t : TaggedHunk => t.hStart != hunk.aStart) = hunks.map ({ hunk := ·, side := side }) := by
        intro side
        apply List.filter_eq_self.2
        intro t ht
        obtain ⟨next, hnext, rfl⟩ := List.mem_map.1 ht
        exact bne_iff_ne.2 (Nat.ne_of_gt (hbehind next hnext))
      have hhere : (ts.filter (·.hStart == hunk.aStart)).Perm [⟨hunk, .ours⟩, ⟨hunk, .theirs⟩] := by
        have h := hperm.filter fun t => t.hStart == hunk.aStart
        have hself : ∀ side, ((⟨hunk, side⟩ : TaggedHunk).hStart == hunk.aStart) = true :=
          fun _ => beq_self_eq_true _
        simp only [List.map_cons, List.filter_append, List.filter_cons, hself, if_true, hfirsts] at h
        exact h
      have hthere : (ts.filter (·.hStart != hunk.aStart)).Perm
          (hunks.map ({ hunk := ·, side := .ours }) ++ hunks.map ({ hunk := ·, side := .theirs })) := by
        have h := hperm.filter fun t => t.hStart != hunk.aStart
        have hself : ∀ side, ((⟨hunk, side⟩ : TaggedHunk).hStart != hunk.aStart) = false :=
          fun _ => bne_self_eq_false _
        simpa only [List.map_cons, List.filter_append, List.filter_cons, hself, Bool.false_eq_true, if_false,
          hrests] using h
      have hgroups := ih hthere (hsorted.filter _) hrest
      have hahead : ∀ t ∈ (ts.filter (·.hStart != hunk.aStart)).head?, (both hunk).stop < t.hStart := by
        intro t ht
        have ht := hthere.mem_iff.1 (List.mem_of_head? ht)
        rcases List.mem_append.1 ht with ht | ht
        · obtain ⟨next, hnext, rfl⟩ := List.mem_map.1 ht
          exact hfirst next hnext
        · obtain ⟨next, hnext, rfl⟩ := List.mem_map.1 ht
          exact hfirst next hnext
      rw [hsplit, List.map_cons, ← hgroups, ← groupsFrom_ahead hahead]
      rcases List.perm_pair.1 hhere with heq | heq
      · rw [heq]
        exact groupsFrom_same (by decide)
      · rw [heq]
        exact groupsFrom_same (by decide)

end

end ThreeWayMerge

open ThreeWayMerge

/-! ## The merge -/

/-- Every hunk of the one side has a base line between itself and each of the other. -/
def SidesApart (hunksOurs hunksTheirs : List LineDiffHunk) : Prop :=
  ∀ hunk ∈ hunksOurs, ∀ other ∈ hunksTheirs, hunk.aEnd < other.aStart ∨ other.aEnd < hunk.aStart

/-- The base with the replacements of both sides in its order, and no conflict. -/
def MergesBoth (base ours theirs : List Line) (hunksOurs hunksTheirs : List LineDiffHunk)
    (result : MergeResult) : Prop :=
  ∃ rs : List (Replacement Line),
    rs.Perm (hunksOurs.map (LineDiffHunk.replacement ours) ++
      hunksTheirs.map (LineDiffHunk.replacement theirs)) ∧
    rs.Pairwise (fun r s => r.stop < s.start) ∧
    result = { mergedText := joinLines (Replacement.replaceAll base 0 rs)
               conflictCount := 0
               firstConflictOffset := none }

section

variable {base ours theirs x : Bytes} {hunksOurs hunksTheirs hunks : List LineDiffHunk}

theorem threeWayMerge_eq (s : KeySort) (hours : diffLines (splitLines base) (splitLines ours) = some hunksOurs)
    (htheirs : diffLines (splitLines base) (splitLines theirs) = some hunksTheirs) :
    threeWayMerge s base ours theirs = writeGroups (splitLines base) (splitLines ours) (splitLines theirs) 0
      { mergedText := [], conflictCount := 0, firstConflictOffset := none }
      (groupHunks (sortedHunks s hunksOurs hunksTheirs)) := by
  simp only [threeWayMerge, hours, htheirs, Option.bind_eq_bind, Option.bind_some]

theorem mem_tagged {t : TaggedHunk} (h : t ∈ hunksOurs.map ({ hunk := ·, side := .ours }) ++
    hunksTheirs.map ({ hunk := ·, side := .theirs })) :
    t.side = .ours ∧ t.hunk ∈ hunksOurs ∨ t.side = .theirs ∧ t.hunk ∈ hunksTheirs := by
  rcases List.mem_append.1 h with h | h
  · obtain ⟨hunk, hmem, rfl⟩ := List.mem_map.1 h
    exact .inl ⟨rfl, hmem⟩
  · obtain ⟨hunk, hmem, rfl⟩ := List.mem_map.1 h
    exact .inr ⟨rfl, hmem⟩

theorem sortedHunks_pairwise (s : KeySort) (hapart : SidesApart hunksOurs hunksTheirs)
    (hours : hunksOurs.Pairwise fun hunk next => hunk.aEnd < next.aStart)
    (htheirs : hunksTheirs.Pairwise fun hunk next => hunk.aEnd < next.aStart) :
    (sortedHunks s hunksOurs hunksTheirs).Pairwise fun t u => t.hEnd < u.hStart := by
  have htagged : (hunksOurs.map (fun hunk => (⟨hunk, .ours⟩ : TaggedHunk)) ++
      hunksTheirs.map (fun hunk => (⟨hunk, .theirs⟩ : TaggedHunk))).Pairwise
        fun t u => t.hEnd < u.hStart ∨ u.hEnd < t.hStart := by
    refine List.pairwise_append.2 ⟨?_, ?_, ?_⟩
    · exact List.pairwise_map.2 (hours.imp .inl)
    · exact List.pairwise_map.2 (htheirs.imp .inl)
    · intro t ht u hu
      obtain ⟨hunk, hmem, rfl⟩ := List.mem_map.1 ht
      obtain ⟨other, hmem', rfl⟩ := List.mem_map.1 hu
      exact hapart hunk hmem other hmem'
  have hsorted := ((s.perm TaggedHunk.hStart _).pairwise_iff fun h => Or.symm h).2 htagged
  refine ((s.sorted TaggedHunk.hStart _).and hsorted).imp fun {t u} h => ?_
  rcases h with ⟨hle, hlt | hlt⟩
  · exact hlt
  · have hend : u.hStart ≤ u.hEnd := Nat.le_add_right _ _
    omega

/-- Where the sides are apart, each hunk is written alone. -/
theorem merge_apart (s : KeySort) (hours : diffLines (splitLines base) (splitLines ours) = some hunksOurs)
    (htheirs : diffLines (splitLines base) (splitLines theirs) = some hunksTheirs)
    (hscript : IsScript (splitLines base) (splitLines ours) hunksOurs)
    (hscript' : IsScript (splitLines base) (splitLines theirs) hunksTheirs)
    (hapart : SidesApart hunksOurs hunksTheirs) :
    ∃ result, threeWayMerge s base ours theirs = some result ∧
      MergesBoth (splitLines base) (splitLines ours) (splitLines theirs) hunksOurs hunksTheirs result := by
  have hperm := s.perm TaggedHunk.hStart (hunksOurs.map ({ hunk := ·, side := .ours }) ++
    hunksTheirs.map ({ hunk := ·, side := .theirs }))
  have hpairwise := sortedHunks_pairwise s hapart (hscript.increasing.imp And.left)
    (hscript'.increasing.imp And.left)
  have hbounds : ∀ t ∈ sortedHunks s hunksOurs hunksTheirs, t.hunk.aEnd ≤ (splitLines base).length ∧
      t.hunk.bEnd ≤ (sideLines (splitLines ours) (splitLines theirs) t.side).length := by
    intro t ht
    rcases mem_tagged (hperm.mem_iff.1 ht) with ⟨hside, hmem⟩ | ⟨hside, hmem⟩
    · rw [hside]
      exact hscript.inBounds _ hmem
    · rw [hside]
      exact hscript'.inBounds _ hmem
  have hwrites : List.Forall₂ (Writes (splitLines base) (splitLines ours) (splitLines theirs))
      ((sortedHunks s hunksOurs hunksTheirs).map .ofHunk)
      ((sortedHunks s hunksOurs hunksTheirs).map fun t =>
        t.hunk.replacement (sideLines (splitLines ours) (splitLines theirs) t.side)) := by
    rw [List.forall₂_map_left_iff, List.forall₂_map_right_iff, List.forall₂_same]
    exact fun t ht => ofHunk_writes (hbounds t ht).2
  have hordered : ((sortedHunks s hunksOurs hunksTheirs).map fun t =>
      t.hunk.replacement (sideLines (splitLines ours) (splitLines theirs) t.side)).Pairwise
        fun r s => r.stop < s.start := List.pairwise_map.2 hpairwise
  have hwithin : ∀ r ∈ (sortedHunks s hunksOurs hunksTheirs).map fun t =>
      t.hunk.replacement (sideLines (splitLines ours) (splitLines theirs) t.side),
        r.Within (splitLines base).length := by
    intro r hr
    obtain ⟨t, ht, rfl⟩ := List.mem_map.1 hr
    exact ⟨Nat.le_add_right _ _, (hbounds t ht).1⟩
  rw [threeWayMerge_eq s hours htheirs, groupHunks_apart hpairwise,
    writeGroups_eq hwrites (fun r _ => Nat.zero_le _) (Nat.zero_le _) (hordered.imp Nat.le_of_lt) hwithin]
  refine ⟨_, rfl, _, ?_, hordered, rfl⟩
  have hmap := hperm.map fun t : TaggedHunk =>
    t.hunk.replacement (sideLines (splitLines ours) (splitLines theirs) t.side)
  rw [List.map_append, List.map_map, List.map_map] at hmap
  exact hmap

/-- One side's hunks alone make its text. -/
theorem replaceAll_hunks (hscript : IsScript (splitLines base) (splitLines x) hunks) :
    joinLines (Replacement.replaceAll (splitLines base) 0
      (hunks.map (LineDiffHunk.replacement (splitLines x)))) = x := by
  rw [← replaceHunks_eq (fun _ _ => Nat.zero_le _) (hscript.increasing.imp And.left), hscript.replaces,
    joinLines, flatten_splitLines]

theorem MergesBoth.result_eq {result : MergeResult}
    (h : MergesBoth (splitLines base) (splitLines ours) (splitLines theirs) hunksOurs hunksTheirs result)
    (hall : hunksOurs.map (LineDiffHunk.replacement (splitLines ours)) ++
      hunksTheirs.map (LineDiffHunk.replacement (splitLines theirs)) =
        hunks.map (LineDiffHunk.replacement (splitLines x)))
    (hscript : IsScript (splitLines base) (splitLines x) hunks) :
    result = { mergedText := x, conflictCount := 0, firstConflictOffset := none } := by
  obtain ⟨rs, hperm, hordered, rfl⟩ := h
  rw [hall] at hperm
  have hincreasing : (hunks.map (LineDiffHunk.replacement (splitLines x))).Pairwise
      fun r s => r.start < s.start := by
    refine List.pairwise_map.2 (hscript.increasing.imp fun {hunk next} h => ?_)
    exact Nat.lt_of_le_of_lt (Nat.le_add_right _ _) h.1
  have hle : ∀ r ∈ rs, r.start ≤ r.stop := by
    intro r hr
    obtain ⟨hunk, -, rfl⟩ := List.mem_map.1 (hperm.mem_iff.1 hr)
    exact Nat.le_add_right _ _
  have hsorted : rs.Pairwise fun r s => r.start ≤ s.start :=
    hordered.imp_of_mem fun hr _ hlt => Nat.le_trans (hle _ hr) (Nat.le_of_lt hlt)
  rw [KeySort.eq_of_perm Replacement.start hperm hsorted hincreasing, replaceAll_hunks hscript]

/-- Where both sides made the same changes, each is made once. -/
theorem merge_same (s : KeySort) (h : diffLines (splitLines base) (splitLines x) = some hunks)
    (hscript : IsScript (splitLines base) (splitLines x) hunks) : threeWayMerge s base x x = some
      { mergedText := x, conflictCount := 0, firstConflictOffset := none } := by
  have hincreasing := hscript.increasing.imp And.left
  have hwrites : List.Forall₂ (Writes (splitLines base) (splitLines x) (splitLines x))
      (hunks.map both) (hunks.map (LineDiffHunk.replacement (splitLines x))) := by
    rw [List.forall₂_map_left_iff, List.forall₂_map_right_iff, List.forall₂_same]
    exact fun hunk hmem => both_writes (hscript.inBounds hunk hmem).2
  have hordered : (hunks.map (LineDiffHunk.replacement (splitLines x))).Pairwise
      fun r s => r.stop ≤ s.start := List.pairwise_map.2 (hincreasing.imp Nat.le_of_lt)
  have hwithin : ∀ r ∈ hunks.map (LineDiffHunk.replacement (splitLines x)),
      r.Within (splitLines base).length := by
    intro r hr
    obtain ⟨hunk, hmem, rfl⟩ := List.mem_map.1 hr
    exact ⟨Nat.le_add_right _ _, (hscript.inBounds hunk hmem).1⟩
  rw [threeWayMerge_eq s h h, sortedHunks,
    groupHunks_same (s.perm TaggedHunk.hStart _) (s.sorted TaggedHunk.hStart _) hincreasing,
    writeGroups_eq hwrites (fun r _ => Nat.zero_le _) (Nat.zero_le _) hordered hwithin,
    replaceAll_hunks hscript]
  rfl

end

/-- A merge is exact where only one side changed, or both alike, and makes every change of sides that are
apart. -/
theorem threeWayMerge_exact (s : KeySort) :
    (∀ base x : Bytes,
      let whole : MergeResult := { mergedText := x, conflictCount := 0, firstConflictOffset := none }
      threeWayMerge s base base x = some whole ∧ threeWayMerge s base x base = some whole ∧
        threeWayMerge s base x x = some whole) ∧
    ∀ base ours theirs : Bytes, ∃ hunksOurs hunksTheirs,
      diffLines (splitLines base) (splitLines ours) = some hunksOurs ∧
      diffLines (splitLines base) (splitLines theirs) = some hunksTheirs ∧
      (SidesApart hunksOurs hunksTheirs → ∃ result, threeWayMerge s base ours theirs = some result ∧
        MergesBoth (splitLines base) (splitLines ours) (splitLines theirs) hunksOurs hunksTheirs result) := by
  refine ⟨fun base x => ?_, fun base ours theirs => ?_⟩
  · obtain ⟨hunks, hdiff, hscripted⟩ := diffLines_scripted (splitLines base) (splitLines x)
    obtain ⟨none, hself, hscripted'⟩ := diffLines_scripted (splitLines base) (splitLines base)
    obtain rfl := Option.some.inj ((diffLines_self _).symm.trans hself)
    have hscript := hscripted.isScript
    refine ⟨?_, ?_, merge_same s hdiff hscript⟩
    · obtain ⟨result, hmerge, hboth⟩ := merge_apart s hself hdiff hscripted'.isScript hscript
        fun hunk hmem => absurd hmem List.not_mem_nil
      rw [hmerge, hboth.result_eq (List.nil_append _) hscript]
    · obtain ⟨result, hmerge, hboth⟩ := merge_apart s hdiff hself hscript hscripted'.isScript
        fun hunk _ other hmem => absurd hmem List.not_mem_nil
      rw [hmerge, hboth.result_eq (List.append_nil _) hscript]
  · obtain ⟨hunksOurs, hdiff, hscripted⟩ := diffLines_scripted (splitLines base) (splitLines ours)
    obtain ⟨hunksTheirs, hdiff', hscripted'⟩ := diffLines_scripted (splitLines base) (splitLines theirs)
    exact ⟨hunksOurs, hunksTheirs, hdiff, hdiff',
      merge_apart s hdiff hdiff' hscripted.isScript hscripted'.isScript⟩

theorem threeWayMerge_exact_ends :
    ∃ result, threeWayMerge .insertion [97, 10, 98, 10] [99, 10, 97, 10, 98, 10] [97, 10, 98, 10, 100, 10] =
        some result ∧
      MergesBoth [[97, 10], [98, 10]] [[99, 10], [97, 10], [98, 10]] [[97, 10], [98, 10], [100, 10]]
        [⟨0, 0, 0, 1⟩] [⟨2, 0, 2, 1⟩] result := by
  obtain ⟨hunksOurs, hunksTheirs, hours, htheirs, hmerges⟩ := (threeWayMerge_exact .insertion).2
    [97, 10, 98, 10] [99, 10, 97, 10, 98, 10] [97, 10, 98, 10, 100, 10]
  have hdiff : diffLines (splitLines [97, 10, 98, 10]) (splitLines [99, 10, 97, 10, 98, 10]) =
      some [⟨0, 0, 0, 1⟩] := by decide
  have hdiff' : diffLines (splitLines [97, 10, 98, 10]) (splitLines [97, 10, 98, 10, 100, 10]) =
      some [⟨2, 0, 2, 1⟩] := by decide
  obtain rfl := Option.some.inj (hours.symm.trans hdiff)
  obtain rfl := Option.some.inj (htheirs.symm.trans hdiff')
  exact hmerges (by simp [SidesApart, LineDiffHunk.aEnd])

end Ned.Text
