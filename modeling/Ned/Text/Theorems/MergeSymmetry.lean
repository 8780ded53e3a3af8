import Mathlib.Data.List.Pairwise
import Ned.Text.Theorems.ThreeWayMerge

/-!
# The two sides of a merge

A merge treats its sides alike, and does not depend on how the sort leaves hunks that start together,
unless one of them is an insertion and the other is not: the insertion joins the other one's group only
when it comes second.
-/

namespace Ned.Text

open Ned.Library

def Side.flip : Side → Side
  | .ours => .theirs
  | .theirs => .ours

def TaggedHunk.flip (t : TaggedHunk) : TaggedHunk := { t with side := t.side.flip }

namespace ThreeWayMerge

/-! ## One hunk after the other -/

/-- The group a hunk closes, if any, and the one that is open then. -/
def place : Option Group → TaggedHunk → List Group × Group
  | none, t => ([], .ofHunk t)
  | some group, t =>
      if group.overlaps t then ([], group.join t) else ([group], .ofHunk t)

def groupsWith : Option Group → List TaggedHunk → List Group
  | group, [] => group.toList
  | group, t :: ts => (place group t).1 ++ groupsWith (some (place group t).2) ts

section

variable {group : Group} {opened : Option Group} {t u : TaggedHunk} {ts ts' : List TaggedHunk}

theorem groupsWith_some (group : Group) (ts : List TaggedHunk) :
    groupsWith (some group) ts = groupsFrom group ts := by
  induction ts generalizing group with
  | nil => rfl
  | cons t ts ih =>
      rw [groupsWith, groupsFrom, place]
      by_cases h : group.overlaps t = true
      · rw [if_pos h, if_pos h, List.nil_append, ih]
      · rw [if_neg h, if_neg h, List.singleton_append, ih]

theorem groupsWith_none (ts : List TaggedHunk) : groupsWith none ts = groupHunks ts := by
  cases ts with
  | nil => rfl
  | cons t ts => exact groupsWith_some _ ts

theorem overlaps_iff : group.overlaps t = true ↔
    t.hStart < group.stop ∨ t.hunk.aCount = 0 ∧ group.start = group.stop ∧ t.hStart = group.stop := by
  have hcount : t.hStart = t.hEnd ↔ t.hunk.aCount = 0 := by
    simp [TaggedHunk.hStart, TaggedHunk.hEnd]
  simp only [Group.overlaps, Group.collidingInsertion, Bool.or_eq_true, Bool.and_eq_true, beq_iff_eq,
    decide_eq_true_eq, hcount, and_assoc]

@[simp] theorem join_stop : (group.join t).stop = max group.stop t.hEnd := by
  obtain ⟨hunk, side⟩ := t
  cases side <;> rfl

@[simp] theorem join_start : (group.join t).start = group.start := by
  obtain ⟨hunk, side⟩ := t
  cases side <;> rfl

@[simp] theorem ofHunk_start : (Group.ofHunk t).start = t.hStart := by
  obtain ⟨hunk, side⟩ := t
  cases side <;> rfl

@[simp] theorem ofHunk_stop : (Group.ofHunk t).stop = t.hEnd := by
  obtain ⟨hunk, side⟩ := t
  cases side <;> rfl

theorem join_comm (h : t.side ≠ u.side) : (group.join t).join u = (group.join u).join t := by
  obtain ⟨hunk, side⟩ := t
  obtain ⟨other, side'⟩ := u
  cases side <;> cases side'
  · exact absurd rfl h
  · simpa [Group.join, Group.push] using Nat.max_right_comm _ _ _
  · simpa [Group.join, Group.push] using Nat.max_right_comm _ _ _
  · exact absurd rfl h

theorem ofHunk_join_comm (h : t.side ≠ u.side) (hstart : t.hStart = u.hStart) :
    (Group.ofHunk t).join u = (Group.ofHunk u).join t := by
  obtain ⟨hunk, side⟩ := t
  obtain ⟨other, side'⟩ := u
  cases side <;> cases side'
  · exact absurd rfl h
  · simp [Group.ofHunk, Group.join, Group.push, hstart, Nat.max_comm]
  · simp [Group.ofHunk, Group.join, Group.push, hstart, Nat.max_comm]
  · exact absurd rfl h

theorem place_of_overlaps (h : group.overlaps t = true) : place (some group) t = ([], group.join t) :=
  if_pos h

theorem place_of_not_overlaps (h : ¬group.overlaps t = true) :
    place (some group) t = ([group], .ofHunk t) :=
  if_neg h

theorem ofHunk_overlaps (hstart : t.hStart = u.hStart) (hkind : t.hunk.aCount = 0 ↔ u.hunk.aCount = 0) :
    (Group.ofHunk t).overlaps u = true := by
  rw [overlaps_iff, ofHunk_start, ofHunk_stop, ← hstart]
  by_cases hcount : t.hunk.aCount = 0
  · have hend : t.hStart = t.hEnd := by simp [TaggedHunk.hStart, TaggedHunk.hEnd, hcount]
    exact .inr ⟨hkind.1 hcount, hend, hend⟩
  · exact .inl (Nat.lt_add_of_pos_right (Nat.pos_of_ne_zero hcount))

theorem join_overlaps_of_lt (hstart : t.hStart = u.hStart) (h : t.hStart < group.stop) :
    (group.join t).overlaps u = true := by
  rw [overlaps_iff, join_stop, ← hstart]
  exact .inl (Nat.lt_of_lt_of_le h (Nat.le_max_left _ _))

theorem join_overlaps (hstart : t.hStart = u.hStart) (hkind : t.hunk.aCount = 0 ↔ u.hunk.aCount = 0)
    (h : group.overlaps t = true) : (group.join t).overlaps u = true := by
  rcases overlaps_iff.1 h with hlt | ⟨hcount, hempty, hstop⟩
  · exact join_overlaps_of_lt hstart hlt
  · have hend : t.hEnd = group.stop := by
      rw [← hstop]
      simp [TaggedHunk.hStart, TaggedHunk.hEnd, hcount]
    rw [overlaps_iff, join_stop, join_start, hend, Nat.max_self, ← hstart]
    exact .inr ⟨hkind.1 hcount, hempty, hstop⟩

theorem overlaps_congr (hstart : t.hStart = u.hStart) (hkind : t.hunk.aCount = 0 ↔ u.hunk.aCount = 0) :
    group.overlaps t = true ↔ group.overlaps u = true := by
  rw [overlaps_iff, overlaps_iff, hstart, hkind]

/-- What closes and what is open behind two hunks. -/
def placeTwo (opened : Option Group) (t u : TaggedHunk) : List Group × Group :=
  ((place opened t).1 ++ (place (some (place opened t).2) u).1, (place (some (place opened t).2) u).2)

/-- Two hunks of different sides that start together may come in either order. -/
theorem placeTwo_comm (hside : t.side ≠ u.side) (hstart : t.hStart = u.hStart)
    (h : (t.hunk.aCount = 0 ↔ u.hunk.aCount = 0) ∨ ∃ group ∈ opened, t.hStart < group.stop) :
    placeTwo opened t u = placeTwo opened u t := by
  cases opened with
  | none =>
      have hkind := h.resolve_right (by simp)
      rw [placeTwo, placeTwo, place, place, place_of_overlaps (ofHunk_overlaps hstart hkind),
        place_of_overlaps (ofHunk_overlaps hstart.symm hkind.symm), ofHunk_join_comm hside hstart]
  | some group =>
      by_cases hlt : t.hStart < group.stop
      · have ht : group.overlaps t = true := overlaps_iff.2 (.inl hlt)
        have hu : group.overlaps u = true := overlaps_iff.2 (.inl (hstart ▸ hlt))
        rw [placeTwo, placeTwo, place_of_overlaps ht, place_of_overlaps hu,
          place_of_overlaps (join_overlaps_of_lt hstart hlt),
          place_of_overlaps (join_overlaps_of_lt hstart.symm (hstart ▸ hlt)), join_comm hside]
      · have hkind : t.hunk.aCount = 0 ↔ u.hunk.aCount = 0 := by
          rcases h with hkind | ⟨other, hother, hcovers⟩
          · exact hkind
          · cases hother
            exact absurd hcovers hlt
        by_cases ht : group.overlaps t = true
        · have hu := (overlaps_congr hstart hkind).1 ht
          rw [placeTwo, placeTwo, place_of_overlaps ht, place_of_overlaps hu,
            place_of_overlaps (join_overlaps hstart hkind ht),
            place_of_overlaps (join_overlaps hstart.symm hkind.symm hu), join_comm hside]
        · have hu := mt (overlaps_congr hstart hkind).2 ht
          rw [placeTwo, placeTwo, place_of_not_overlaps ht, place_of_not_overlaps hu,
            place_of_overlaps (ofHunk_overlaps hstart hkind),
            place_of_overlaps (ofHunk_overlaps hstart.symm hkind.symm), ofHunk_join_comm hside hstart]

theorem groupsWith_two : groupsWith opened (t :: u :: ts) =
    (placeTwo opened t u).1 ++ groupsWith (some (placeTwo opened t u).2) ts := by
  rw [groupsWith, groupsWith, placeTwo, List.append_assoc]

/-! ## Ties -/

/-- Each side has one hunk at most that starts at a base line. -/
def OneEach (ts : List TaggedHunk) : Prop :=
  ts.Pairwise fun t u => t.side = u.side → t.hStart ≠ u.hStart

/-- Where an insertion and another hunk start together, an earlier hunk or the open group reaches beyond
that base line. -/
def TiesWithin (opened : Option Group) (ts : List TaggedHunk) : Prop :=
  ∀ t ∈ ts, ∀ u ∈ ts, t.hStart = u.hStart → t.hunk.aCount = 0 → u.hunk.aCount ≠ 0 →
    (∃ cover ∈ ts, cover.hStart < t.hStart ∧ t.hStart < cover.hEnd) ∨ ∃ group ∈ opened, t.hStart < group.stop

theorem le_place_stop : t.hEnd ≤ (place opened t).2.stop := by
  cases opened with
  | none => exact Nat.le_of_eq ofHunk_stop.symm
  | some group =>
      by_cases h : group.overlaps t = true
      · rw [place_of_overlaps h, join_stop]
        exact Nat.le_max_right _ _
      · rw [place_of_not_overlaps h, ofHunk_stop]

theorem stop_le_place_stop (h : t.hStart < group.stop) : group.stop ≤ (place (some group) t).2.stop := by
  rw [place_of_overlaps (overlaps_iff.2 (.inl h)), join_stop]
  exact Nat.le_max_left _ _

theorem TiesWithin.next (h : TiesWithin opened (t :: ts)) (hleast : ∀ u ∈ ts, t.hStart ≤ u.hStart) :
    TiesWithin (some (place opened t).2) ts := by
  intro u hu v hv hstart hcount hcount'
  rcases h u (List.mem_cons_of_mem _ hu) v (List.mem_cons_of_mem _ hv) hstart hcount hcount' with
    ⟨cover, hcover, hlt, hcovers⟩ | ⟨group, hgroup, hcovers⟩
  · rcases List.mem_cons.1 hcover with rfl | hcover
    · exact .inr ⟨_, rfl, Nat.lt_of_lt_of_le hcovers le_place_stop⟩
    · exact .inl ⟨cover, hcover, hlt, hcovers⟩
  · cases hgroup
    have hlt : t.hStart < group.stop := Nat.lt_of_le_of_lt (hleast u hu) hcovers
    exact .inr ⟨_, rfl, Nat.lt_of_lt_of_le hcovers (stop_le_place_stop hlt)⟩

theorem OneEach.cons_of_ne {first : TaggedHunk} {rest : List TaggedHunk} (hone : OneEach (t :: ts))
    (hsorted : (t :: ts).Pairwise fun t u => t.hStart ≤ u.hStart)
    (hperm : (t :: ts).Perm (first :: rest)) (hleast : ∀ u ∈ t :: ts, first.hStart ≤ u.hStart)
    (hne : t ≠ first) : ∃ others, ts = first :: others := by
  obtain ⟨hfirst, hrest⟩ := List.pairwise_cons.1 hsorted
  obtain ⟨hones, hone'⟩ := List.pairwise_cons.1 hone
  have hmem : first ∈ ts :=
    (List.mem_cons.1 (hperm.mem_iff.2 List.mem_cons_self)).resolve_left fun heq => hne heq.symm
  have hstart : t.hStart = first.hStart :=
    Nat.le_antisymm (hfirst first hmem) (hleast t List.mem_cons_self)
  cases ts with
  | nil => cases hmem
  | cons next others =>
      rcases List.mem_cons.1 hmem with rfl | hbehind
      · exact ⟨others, rfl⟩
      · have hnext : next.hStart = first.hStart :=
          Nat.le_antisymm ((List.pairwise_cons.1 hrest).1 first hbehind)
            (hleast next (List.mem_cons_of_mem _ List.mem_cons_self))
        have hside : next.side = first.side := by
          have hne₁ : t.side ≠ next.side := fun h =>
            hones next List.mem_cons_self h (hstart.trans hnext.symm)
          have hne₂ : t.side ≠ first.side := fun h => hones first hmem h hstart
          revert hne₁ hne₂
          cases t.side <;> cases next.side <;> cases first.side <;> simp
        exact absurd hnext ((List.pairwise_cons.1 hone').1 first hbehind hside)

theorem OneEach.of_cons (h : OneEach (t :: ts)) : OneEach ts := (List.pairwise_cons.1 h).2

/-- Two hunks that start first are of one kind, or behind the start of the open group's end. -/
theorem TiesWithin.alike_or_covered (h : TiesWithin opened (t :: ts)) (hu : u ∈ ts)
    (hstart : t.hStart = u.hStart) (hleast : ∀ v ∈ ts, t.hStart ≤ v.hStart) :
    (t.hunk.aCount = 0 ↔ u.hunk.aCount = 0) ∨ ∃ group ∈ opened, t.hStart < group.stop := by
  have hnone : ∀ cover ∈ t :: ts, ¬cover.hStart < t.hStart := by
    intro cover hcover
    rcases List.mem_cons.1 hcover with rfl | hcover
    · exact Nat.lt_irrefl _
    · exact Nat.not_lt.2 (hleast cover hcover)
  by_cases ht : t.hunk.aCount = 0
  · by_cases hu' : u.hunk.aCount = 0
    · exact .inl (iff_of_true ht hu')
    · rcases h t List.mem_cons_self u (List.mem_cons_of_mem _ hu) hstart ht hu' with
        ⟨cover, hcover, hlt, -⟩ | hgroup
      · exact absurd hlt (hnone cover hcover)
      · exact .inr hgroup
  · by_cases hu' : u.hunk.aCount = 0
    · rcases h u (List.mem_cons_of_mem _ hu) t List.mem_cons_self hstart.symm hu' ht with
        ⟨cover, hcover, hlt, -⟩ | hgroup
      · exact absurd (hstart ▸ hlt) (hnone cover hcover)
      · exact .inr (hstart ▸ hgroup)
    · exact .inl (iff_of_false ht hu')

/-- The order of hunks that start together does not matter. -/
theorem groupsWith_perm {n : Nat} (hn : ts.length ≤ n) (hperm : ts.Perm ts')
    (hsorted : ts.Pairwise fun t u => t.hStart ≤ u.hStart)
    (hsorted' : ts'.Pairwise fun t u => t.hStart ≤ u.hStart) (hone : OneEach ts)
    (hties : TiesWithin opened ts) : groupsWith opened ts = groupsWith opened ts' := by
  induction n using Nat.strong_induction_on generalizing opened ts ts' with
  | _ n ih =>
      cases ts with
      | nil => rw [hperm.nil_eq]
      | cons t ts =>
          cases ts' with
          | nil => exact absurd hperm.eq_nil (List.cons_ne_nil _ _)
          | cons u ts' =>
              obtain ⟨hfirst, hrest⟩ := List.pairwise_cons.1 hsorted
              obtain ⟨hfirst', hrest'⟩ := List.pairwise_cons.1 hsorted'
              have hleast : ∀ v ∈ t :: ts, u.hStart ≤ v.hStart := by
                intro v hv
                rcases List.mem_cons.1 (hperm.mem_iff.1 hv) with rfl | hv
                · exact Nat.le_refl _
                · exact hfirst' v hv
              have hleast' : ∀ v ∈ u :: ts', t.hStart ≤ v.hStart := by
                intro v hv
                rcases List.mem_cons.1 (hperm.mem_iff.2 hv) with rfl | hv
                · exact Nat.le_refl _
                · exact hfirst v hv
              rw [List.length_cons] at hn
              by_cases heq : t = u
              · subst heq
                rw [groupsWith, groupsWith, ih ts.length (by omega) (Nat.le_refl _) hperm.cons_inv hrest
                  hrest' hone.of_cons (hties.next hfirst)]
              · have hone' : OneEach (u :: ts') :=
                  (hperm.pairwise_iff fun h hside heq => h hside.symm heq.symm).1 hone
                obtain ⟨others, rfl⟩ := hone.cons_of_ne hsorted hperm hleast heq
                obtain ⟨others', rfl⟩ := hone'.cons_of_ne hsorted' hperm.symm hleast' (Ne.symm heq)
                have hstart : t.hStart = u.hStart :=
                  Nat.le_antisymm (hfirst u List.mem_cons_self) (hleast t List.mem_cons_self)
                have hside : t.side ≠ u.side := fun h =>
                  (List.pairwise_cons.1 hone).1 u List.mem_cons_self h hstart
                have hswap : others.Perm others' :=
                  ((hperm.trans (List.Perm.swap t u others')).cons_inv).cons_inv
                have hkind : (t.hunk.aCount = 0 ↔ u.hunk.aCount = 0) ∨
                    ∃ group ∈ opened, t.hStart < group.stop :=
                  hties.alike_or_covered List.mem_cons_self hstart hfirst
                have hnext : TiesWithin (some (placeTwo opened t u).2) others :=
                  (hties.next hfirst).next (List.pairwise_cons.1 hrest).1
                rw [List.length_cons] at hn
                rw [groupsWith_two, groupsWith_two, ← placeTwo_comm hside hstart hkind,
                  ih others.length (by omega) (Nat.le_refl _) hswap hrest.of_cons hrest'.of_cons
                    hone.of_cons.of_cons hnext]

/-! ## The sides exchanged -/

end

def Group.flip (group : Group) : Group := { group with ours := group.theirs, theirs := group.ours }

section

variable {group : Group} {opened : Option Group} {t : TaggedHunk} {ts : List TaggedHunk}

theorem ofHunk_flip : Group.ofHunk t.flip = (Group.ofHunk t).flip := by
  obtain ⟨hunk, side⟩ := t
  cases side <;> rfl

theorem join_flip : group.flip.join t.flip = (group.join t).flip := by
  obtain ⟨hunk, side⟩ := t
  cases side <;> rfl

theorem place_flip : place (opened.map Group.flip) t.flip =
    ((place opened t).1.map Group.flip, (place opened t).2.flip) := by
  cases opened with
  | none => exact congrArg (([] : List Group), ·) ofHunk_flip
  | some group =>
      have hoverlaps : group.flip.overlaps t.flip = group.overlaps t := rfl
      rw [Option.map_some, place, place, hoverlaps, join_flip, ofHunk_flip]
      by_cases h : group.overlaps t = true
      · rw [if_pos h, if_pos h]
        rfl
      · rw [if_neg h, if_neg h]
        rfl

theorem groupsWith_flip : groupsWith (opened.map Group.flip) (ts.map TaggedHunk.flip) =
    (groupsWith opened ts).map Group.flip := by
  induction ts generalizing opened with
  | nil => cases opened <;> rfl
  | cons t ts ih =>
      have hnext := @ih (some (place opened t).2)
      rw [Option.map_some] at hnext
      rw [List.map_cons, groupsWith, groupsWith, place_flip, List.map_append, hnext]

end

/-! ## Writing either way -/

section

variable {lines base ours theirs side : List Line} {pos stop count cursor : Nat} {result result' : MergeResult}
  {groups : List Group} {group : Group} {hunks : List LineDiffHunk} {opened : Option Group}
  {t : TaggedHunk} {ts : List TaggedHunk}

/-- The lines of a hunk exist. -/
def Fits (base side : List Line) (hunk : LineDiffHunk) : Prop :=
  hunk.aEnd ≤ base.length ∧ hunk.bEnd ≤ side.length

/-- The lines of a group exist. -/
structure Group.Fits (base ours theirs : List Line) (group : Group) : Prop where
  start : group.start ≤ base.length
  stop : group.stop ≤ base.length
  ours : ∀ hunk ∈ group.ours, ThreeWayMerge.Fits base ours hunk
  theirs : ∀ hunk ∈ group.theirs, ThreeWayMerge.Fits base theirs hunk

theorem linesFrom_total (h : count = 0 ∨ pos + count ≤ lines.length) :
    ∃ found, linesFrom lines pos count = some found := by
  rcases h with rfl | h
  · exact ⟨[], rfl⟩
  · exact ⟨_, linesFrom_eq h⟩

theorem linesBetween_total (pos : Nat) (h : stop ≤ lines.length) :
    ∃ found, linesBetween lines pos stop = some found := by
  apply linesFrom_total
  omega

theorem effectiveContent_total (pos : Nat) (hstop : stop ≤ base.length)
    (h : ∀ hunk ∈ hunks, Fits base side hunk) :
    ∃ found, effectiveContent base side stop pos hunks = some found := by
  induction hunks generalizing pos with
  | nil => exact linesBetween_total pos hstop
  | cons hunk hunks ih =>
      obtain ⟨ha, hb⟩ := h hunk List.mem_cons_self
      obtain ⟨kept, hkept⟩ := linesBetween_total pos (Nat.le_trans (Nat.le_add_right _ _) ha)
      obtain ⟨replaced, hreplaced⟩ := linesFrom_total (.inr hb)
      obtain ⟨rest, hrest⟩ := ih (hunk.aStart + hunk.aCount) fun other hother =>
        h other (List.mem_cons_of_mem _ hother)
      refine ⟨kept ++ replaced ++ rest, ?_⟩
      rw [effectiveContent, hkept, hreplaced]
      simp only [Option.bind_eq_bind, Option.bind_some, hrest]

/-- A group is a conflict from either side, or writes the same from both. -/
theorem writeGroup_flip (h : group.Fits base ours theirs) : ∃ text text' conflict,
    writeGroup base ours theirs group = some (text, conflict) ∧
      writeGroup base theirs ours group.flip = some (text', conflict) ∧
      (conflict = false → text = text') := by
  obtain ⟨mine, hmine⟩ := effectiveContent_total group.start h.stop h.ours
  obtain ⟨yours, hyours⟩ := effectiveContent_total group.start h.stop h.theirs
  by_cases htheirs : group.theirs.isEmpty = true
  · by_cases hours : group.ours.isEmpty = true
    · have heq : mine = yours := by
        rw [List.isEmpty_iff.1 hours] at hmine
        rw [List.isEmpty_iff.1 htheirs] at hyours
        exact Option.some.inj (hmine.symm.trans hyours)
      refine ⟨joinLines mine, joinLines yours, false, ?_, ?_, fun _ => by rw [heq]⟩
      · simp only [writeGroup, htheirs, if_true, hmine, Option.bind_eq_bind, Option.bind_some]
      · simp only [writeGroup, Group.flip, hours, if_true, hyours, Option.bind_eq_bind, Option.bind_some]
    · refine ⟨joinLines mine, joinLines mine, false, ?_, ?_, fun _ => rfl⟩
      · simp only [writeGroup, htheirs, if_true, hmine, Option.bind_eq_bind, Option.bind_some]
      · simp only [writeGroup, Group.flip, hours, htheirs, Bool.false_eq_true, if_false, if_true, hmine,
          Option.bind_eq_bind, Option.bind_some]
  · by_cases hours : group.ours.isEmpty = true
    · refine ⟨joinLines yours, joinLines yours, false, ?_, ?_, fun _ => rfl⟩
      · simp only [writeGroup, hours, htheirs, Bool.false_eq_true, if_false, if_true, hyours,
          Option.bind_eq_bind, Option.bind_some]
      · simp only [writeGroup, Group.flip, hours, if_true, hyours, Option.bind_eq_bind, Option.bind_some]
    · by_cases heq : mine = yours
      · refine ⟨joinLines mine, joinLines yours, false, ?_, ?_, fun _ => by rw [heq]⟩
        · simp only [writeGroup, hours, htheirs, Bool.false_eq_true, if_false, hmine, hyours,
            Option.bind_eq_bind, Option.bind_some, heq, if_true]
        · simp only [writeGroup, Group.flip, hours, htheirs, Bool.false_eq_true, if_false, hmine, hyours,
            Option.bind_eq_bind, Option.bind_some, heq, if_true]
      · refine ⟨oursMarker ++ joinLines mine ++ separatorMarker ++ joinLines yours ++ theirsMarker,
          oursMarker ++ joinLines yours ++ separatorMarker ++ joinLines mine ++ theirsMarker, true, ?_, ?_,
          fun h => absurd h (by decide)⟩
        · simp only [writeGroup, hours, htheirs, Bool.false_eq_true, if_false, hmine, hyours,
            Option.bind_eq_bind, Option.bind_some, heq]
        · simp only [writeGroup, Group.flip, hours, htheirs, Bool.false_eq_true, if_false, hmine, hyours,
            Option.bind_eq_bind, Option.bind_some, Ne.symm heq]

/-- What two runs have written. -/
def Agree (result result' : MergeResult) : Prop :=
  result.conflictCount = result'.conflictCount ∧
    (result.conflictCount = 0 → result.mergedText = result'.mergedText)

theorem writeGroups_flip (h : ∀ group ∈ groups, group.Fits base ours theirs) (cursor : Nat)
    (hagree : Agree result result') :
    ∃ merged merged', writeGroups base ours theirs cursor result groups = some merged ∧
      writeGroups base theirs ours cursor result' (groups.map Group.flip) = some merged' ∧
      Agree merged merged' := by
  induction groups generalizing cursor result result' with
  | nil =>
      obtain ⟨kept, hkept⟩ := linesBetween_total cursor (Nat.le_refl base.length)
      refine ⟨{ result with mergedText := result.mergedText ++ joinLines kept },
        { result' with mergedText := result'.mergedText ++ joinLines kept }, ?_, ?_, hagree.1,
        fun hzero => ?_⟩
      · simp only [writeGroups, hkept, Option.bind_eq_bind, Option.bind_some]
      · simp only [List.map_nil, writeGroups, hkept, Option.bind_eq_bind, Option.bind_some]
      exact congrArg (· ++ joinLines kept) (hagree.2 hzero)
  | cons group groups ih =>
      have hgroup := h group List.mem_cons_self
      obtain ⟨kept, hkept⟩ := linesBetween_total cursor hgroup.start
      obtain ⟨text, text', conflict, hwrite, hwrite', htext⟩ := writeGroup_flip hgroup
      have hnext := fun next next' => @ih next next' (fun other hother =>
        h other (List.mem_cons_of_mem _ hother)) group.stop
      have hstart : group.flip.start = group.start := rfl
      have hstop : group.flip.stop = group.stop := rfl
      simp only [List.map_cons, writeGroups, hstart, hstop, hkept, hwrite, hwrite', Option.bind_eq_bind,
        Option.bind_some]
      apply hnext
      obtain ⟨hcount, hmerged⟩ := hagree
      cases conflict with
      | true => exact ⟨congrArg (· + 1) hcount, fun hzero => absurd hzero (Nat.succ_ne_zero _)⟩
      | false =>
          refine ⟨hcount, fun hzero => ?_⟩
          simp only [hmerged hzero, htext rfl]

/-! ## The groups of a merge -/

theorem Group.Fits.join (h : group.Fits base ours theirs) (hend : t.hEnd ≤ base.length)
    (hfits : ThreeWayMerge.Fits base (sideLines ours theirs t.side) t.hunk) :
    (group.join t).Fits base ours theirs := by
  obtain ⟨hunk, side⟩ := t
  have hstop : max group.stop (TaggedHunk.hEnd ⟨hunk, side⟩) ≤ base.length := Nat.max_le.2 ⟨h.stop, hend⟩
  cases side with
  | ours =>
      refine ⟨h.start, hstop, fun other hother => ?_, h.theirs⟩
      rcases List.mem_append.1 hother with hother | hother
      · exact h.ours other hother
      · obtain rfl := List.mem_singleton.1 hother
        exact hfits
  | theirs =>
      refine ⟨h.start, hstop, h.ours, fun other hother => ?_⟩
      rcases List.mem_append.1 hother with hother | hother
      · exact h.theirs other hother
      · obtain rfl := List.mem_singleton.1 hother
        exact hfits

theorem ofHunk_fits (hfits : ThreeWayMerge.Fits base (sideLines ours theirs t.side) t.hunk) :
    (Group.ofHunk t).Fits base ours theirs := by
  obtain ⟨hunk, side⟩ := t
  have hstart : hunk.aStart ≤ base.length := Nat.le_trans (Nat.le_add_right _ _) hfits.1
  cases side with
  | ours =>
      refine ⟨hstart, hfits.1, fun other hother => ?_, fun other hother => absurd hother List.not_mem_nil⟩
      obtain rfl := List.mem_singleton.1 hother
      exact hfits
  | theirs =>
      refine ⟨hstart, hfits.1, fun other hother => absurd hother List.not_mem_nil, fun other hother => ?_⟩
      obtain rfl := List.mem_singleton.1 hother
      exact hfits

theorem groupsWith_fits (hopened : ∀ group ∈ opened, group.Fits base ours theirs)
    (h : ∀ t ∈ ts, ThreeWayMerge.Fits base (sideLines ours theirs t.side) t.hunk) :
    ∀ group ∈ groupsWith opened ts, group.Fits base ours theirs := by
  induction ts generalizing opened with
  | nil =>
      intro group hgroup
      exact hopened group (Option.mem_toList.1 hgroup)
  | cons t ts ih =>
      have ht := h t List.mem_cons_self
      have hplaced : (∀ group ∈ (place opened t).1, group.Fits base ours theirs) ∧
          (place opened t).2.Fits base ours theirs := by
        cases opened with
        | none => exact ⟨fun group hgroup => absurd hgroup List.not_mem_nil, ofHunk_fits ht⟩
        | some group =>
            by_cases hoverlaps : group.overlaps t = true
            · rw [place_of_overlaps hoverlaps]
              exact ⟨fun group hgroup => absurd hgroup List.not_mem_nil, (hopened group rfl).join ht.1 ht⟩
            · rw [place_of_not_overlaps hoverlaps]
              refine ⟨fun other hother => ?_, ofHunk_fits ht⟩
              rw [List.mem_singleton.1 hother]
              exact hopened group rfl
      intro group hgroup
      rcases List.mem_append.1 hgroup with hgroup | hgroup
      · exact hplaced.1 group hgroup
      · refine ih (fun other hother => ?_) (fun u hu => h u (List.mem_cons_of_mem _ hu)) group hgroup
        cases hother
        exact hplaced.2

end

end ThreeWayMerge

open ThreeWayMerge

/-! ## The merge -/

/-- Where one side inserts and the other one's hunk begins, an earlier hunk reaches beyond that line. -/
def TiesCovered (hunksOurs hunksTheirs : List LineDiffHunk) : Prop :=
  ∀ hunk other, (hunk ∈ hunksOurs ∧ other ∈ hunksTheirs ∨ hunk ∈ hunksTheirs ∧ other ∈ hunksOurs) →
    hunk.aStart = other.aStart → hunk.aCount = 0 → other.aCount ≠ 0 →
      ∃ cover ∈ hunksOurs ++ hunksTheirs, cover.aStart < hunk.aStart ∧ hunk.aStart < cover.aEnd

/-- No base line has an insertion of either side. -/
def InsertionsApart (hunksOurs hunksTheirs : List LineDiffHunk) : Prop :=
  ∀ hunk ∈ hunksOurs, ∀ other ∈ hunksTheirs, hunk.aCount = 0 → other.aCount = 0 → hunk.aStart ≠ other.aStart

/-- With the sides exchanged there are as many conflicts, and without any the text is the same; and how the
sort leaves ties does not matter. -/
structure Alike (base a b : Bytes) (hunks hunks' : List LineDiffHunk) : Prop where
  swapped : ∀ s s' : KeySort, ∃ result result', threeWayMerge s base a b = some result ∧
    threeWayMerge s' base b a = some result' ∧ result.conflictCount = result'.conflictCount ∧
    (result.conflictCount = 0 → InsertionsApart hunks hunks' → result.mergedText = result'.mergedText)
  sorted : ∀ s s' : KeySort, threeWayMerge s base a b = threeWayMerge s' base a b

section

variable {base a b : Bytes} {hunks hunks' : List LineDiffHunk} {ts : List TaggedHunk}

theorem flip_flip (ts : List TaggedHunk) : (ts.map TaggedHunk.flip).map TaggedHunk.flip = ts := by
  have hself : ∀ t : TaggedHunk, t.flip.flip = t := by
    intro t
    obtain ⟨hunk, side⟩ := t
    cases side <;> rfl
  rw [List.map_map]
  exact List.map_id'' hself ts

/-- The hunks of two scripts, in an order of their starts. -/
structure Tagged (hunks hunks' : List LineDiffHunk) (ts : List TaggedHunk) : Prop where
  perm : ts.Perm (hunks.map ({ hunk := ·, side := .ours }) ++ hunks'.map ({ hunk := ·, side := .theirs }))
  sorted : ts.Pairwise fun t u => t.hStart ≤ u.hStart

theorem tagged_sortedHunks (s : KeySort) (hunks hunks' : List LineDiffHunk) :
    Tagged hunks hunks' (sortedHunks s hunks hunks') :=
  ⟨s.perm TaggedHunk.hStart _, s.sorted TaggedHunk.hStart _⟩

theorem Tagged.flip (h : Tagged hunks hunks' ts) : Tagged hunks' hunks (ts.map TaggedHunk.flip) := by
  refine ⟨?_, List.pairwise_map.2 h.sorted⟩
  have hmap := h.perm.map TaggedHunk.flip
  rw [List.map_append, List.map_map, List.map_map] at hmap
  exact hmap.trans List.perm_append_comm

theorem Tagged.oneEach (h : Tagged hunks hunks' ts)
    (hours : hunks.Pairwise fun hunk next => hunk.aEnd < next.aStart)
    (htheirs : hunks'.Pairwise fun hunk next => hunk.aEnd < next.aStart) : OneEach ts := by
  have hlt : ∀ {hunk next : LineDiffHunk}, hunk.aEnd < next.aStart → hunk.aStart ≠ next.aStart :=
    fun hend => Nat.ne_of_lt (Nat.lt_of_le_of_lt (Nat.le_add_right _ _) hend)
  refine (h.perm.pairwise_iff fun h hside heq => h hside.symm heq.symm).2 ?_
  refine List.pairwise_append.2 ⟨?_, ?_, ?_⟩
  · refine List.pairwise_map.2 (hours.imp ?_)
    intro hunk next hend _
    exact hlt hend
  · refine List.pairwise_map.2 (htheirs.imp ?_)
    intro hunk next hend _
    exact hlt hend
  · intro t ht u hu hside
    obtain ⟨hunk, -, rfl⟩ := List.mem_map.1 ht
    obtain ⟨other, -, rfl⟩ := List.mem_map.1 hu
    cases hside

theorem Tagged.tiesWithin (h : Tagged hunks hunks' ts) (hone : OneEach ts)
    (hcovered : TiesCovered hunks hunks') : TiesWithin none ts := by
  intro t ht u hu hstart hcount hcount'
  have hne : t ≠ u := fun heq => hcount' (heq ▸ hcount)
  have : Std.Symm fun t u : TaggedHunk => t.side = u.side → t.hStart ≠ u.hStart :=
    ⟨fun _ _ h hside heq => h hside.symm heq.symm⟩
  have hside : t.side ≠ u.side := fun hside =>
    List.Pairwise.forall hone ht hu hne hside hstart
  have hmem : t.hunk ∈ hunks ∧ u.hunk ∈ hunks' ∨ t.hunk ∈ hunks' ∧ u.hunk ∈ hunks := by
    rcases mem_tagged (h.perm.mem_iff.1 ht) with ⟨ht, htmem⟩ | ⟨ht, htmem⟩
    · rcases mem_tagged (h.perm.mem_iff.1 hu) with ⟨hu, humem⟩ | ⟨hu, humem⟩
      · exact absurd (ht.trans hu.symm) hside
      · exact .inl ⟨htmem, humem⟩
    · rcases mem_tagged (h.perm.mem_iff.1 hu) with ⟨hu, humem⟩ | ⟨hu, humem⟩
      · exact .inr ⟨htmem, humem⟩
      · exact absurd (ht.trans hu.symm) hside
  obtain ⟨cover, hcover, hlt, hcovers⟩ := hcovered t.hunk u.hunk hmem hstart hcount hcount'
  left
  rcases List.mem_append.1 hcover with hcover | hcover
  · refine ⟨⟨cover, .ours⟩, h.perm.mem_iff.2 (List.mem_append_left _ ?_), hlt, hcovers⟩
    exact List.mem_map.2 ⟨cover, hcover, rfl⟩
  · refine ⟨⟨cover, .theirs⟩, h.perm.mem_iff.2 (List.mem_append_right _ ?_), hlt, hcovers⟩
    exact List.mem_map.2 ⟨cover, hcover, rfl⟩

/-- The groups are the same in whichever order ties are left. -/
theorem Tagged.groupHunks_eq {ts' : List TaggedHunk} (h : Tagged hunks hunks' ts)
    (h' : Tagged hunks hunks' ts') (hone : OneEach ts) (hcovered : TiesCovered hunks hunks') :
    groupHunks ts' = groupHunks ts := by
  rw [← groupsWith_none, ← groupsWith_none]
  exact (groupsWith_perm (Nat.le_refl _) (h.perm.trans h'.perm.symm) h.sorted h'.sorted hone
    (h.tiesWithin hone hcovered)).symm

/-- A merge treats its sides alike where the start of every hunk at which the other side inserts is
covered. -/
theorem alike_of_tiesCovered (base a b : Bytes) :
    ∃ hunks hunks', diffLines (splitLines base) (splitLines a) = some hunks ∧
      diffLines (splitLines base) (splitLines b) = some hunks' ∧
      (TiesCovered hunks hunks' → Alike base a b hunks hunks') := by
  obtain ⟨hunks, hdiff, hscripted⟩ := diffLines_scripted (splitLines base) (splitLines a)
  obtain ⟨hunks', hdiff', hscripted'⟩ := diffLines_scripted (splitLines base) (splitLines b)
  refine ⟨hunks, hunks', hdiff, hdiff', fun hcovered => ?_⟩
  have hscript := hscripted.isScript
  have hscript' := hscripted'.isScript
  have hone : ∀ s, OneEach (sortedHunks s hunks hunks') := fun s =>
    (tagged_sortedHunks s hunks hunks').oneEach (hscript.increasing.imp And.left)
      (hscript'.increasing.imp And.left)
  refine ⟨fun s s' => ?_, fun s s' => ?_⟩
  · have hgroups : groupHunks (sortedHunks s' hunks' hunks) =
        (groupHunks (sortedHunks s hunks hunks')).map Group.flip := by
      rw [← (tagged_sortedHunks s hunks hunks').groupHunks_eq (tagged_sortedHunks s' hunks' hunks).flip
        (hone s) hcovered, ← groupsWith_none, ← groupsWith_none]
      have hflip := @groupsWith_flip none ((sortedHunks s' hunks' hunks).map TaggedHunk.flip)
      rw [flip_flip] at hflip
      exact hflip
    have hfits : ∀ group ∈ groupHunks (sortedHunks s hunks hunks'),
        group.Fits (splitLines base) (splitLines a) (splitLines b) := by
      rw [← groupsWith_none]
      refine groupsWith_fits (fun group hgroup => by cases hgroup) fun t ht => ?_
      rcases mem_tagged ((tagged_sortedHunks s hunks hunks').perm.mem_iff.1 ht) with
        ⟨hside, hmem⟩ | ⟨hside, hmem⟩
      · rw [hside]
        exact hscript.inBounds _ hmem
      · rw [hside]
        exact hscript'.inBounds _ hmem
    have hagree : Agree { mergedText := [], conflictCount := 0, firstConflictOffset := none }
        { mergedText := [], conflictCount := 0, firstConflictOffset := none } := ⟨rfl, fun _ => rfl⟩
    obtain ⟨result, result', hrun, hrun', hcount, htext⟩ := writeGroups_flip hfits 0 hagree
    rw [← hgroups] at hrun'
    exact ⟨result, result', (threeWayMerge_eq s hdiff hdiff').trans hrun,
      (threeWayMerge_eq s' hdiff' hdiff).trans hrun', hcount, fun hzero _ => htext hzero⟩
  · rw [threeWayMerge_eq s hdiff hdiff', threeWayMerge_eq s' hdiff hdiff',
      (tagged_sortedHunks s hunks hunks').groupHunks_eq (tagged_sortedHunks s' hunks hunks') (hone s) hcovered]

end

/-- Two sides that insert at one line. -/
theorem alike_insertions : Alike [97, 10] [98, 10, 97, 10] [99, 10, 97, 10] [⟨0, 0, 0, 1⟩] [⟨0, 0, 0, 1⟩] := by
  obtain ⟨hunks, hunks', hdiff, hdiff', halike⟩ :=
    alike_of_tiesCovered [97, 10] [98, 10, 97, 10] [99, 10, 97, 10]
  have hours : diffLines (splitLines [97, 10]) (splitLines [98, 10, 97, 10]) = some [⟨0, 0, 0, 1⟩] := by decide
  have htheirs : diffLines (splitLines [97, 10]) (splitLines [99, 10, 97, 10]) = some [⟨0, 0, 0, 1⟩] := by decide
  obtain rfl := Option.some.inj (hdiff.symm.trans hours)
  obtain rfl := Option.some.inj (hdiff'.symm.trans htheirs)
  apply halike
  intro hunk other hmem hstart hcount hcount'
  rcases hmem with ⟨-, hother⟩ | ⟨-, hother⟩
  · rw [List.mem_singleton.1 hother] at hcount'
    exact absurd rfl hcount'
  · rw [List.mem_singleton.1 hother] at hcount'
    exact absurd rfl hcount'

/-- One side inserts before the first line, the other replaces it. -/
theorem not_alike_replaced :
    diffLines (splitLines [97, 10]) (splitLines [98, 10, 97, 10]) = some [⟨0, 0, 0, 1⟩] ∧
    diffLines (splitLines [97, 10]) (splitLines [99, 10]) = some [⟨0, 1, 0, 1⟩] ∧
    ¬Alike [97, 10] [98, 10, 97, 10] [99, 10] [⟨0, 0, 0, 1⟩] [⟨0, 1, 0, 1⟩] := by
  refine ⟨by decide, by decide, fun h => ?_⟩
  obtain ⟨result, result', hrun, hrun', hcount, -⟩ := h.swapped .insertion .insertion
  have hfirst : (threeWayMerge .insertion [97, 10] [98, 10, 97, 10] [99, 10]).map
      MergeResult.conflictCount = some 0 := by decide
  have hsecond : (threeWayMerge .insertion [97, 10] [99, 10] [98, 10, 97, 10]).map
      MergeResult.conflictCount = some 1 := by decide
  rw [hrun] at hfirst
  rw [hrun'] at hsecond
  have hzero : result.conflictCount = 0 := Option.some.inj hfirst
  have hone : result'.conflictCount = 1 := Option.some.inj hsecond
  rw [hzero, hone] at hcount
  cases hcount

end Ned.Text
