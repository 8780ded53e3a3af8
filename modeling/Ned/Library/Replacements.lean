import Mathlib.Algebra.Order.BigOperators.Group.List
import Mathlib.Algebra.Ring.Nat
import Mathlib.Data.List.Basic

/-!
# Replacements

Ranges of a sequence that are replaced by other sequences: all at once, and one by one from the back.
-/

namespace Ned.Library

/-- `[start, stop)` becomes `text`. -/
structure Replacement (α : Type) where
  start : Nat
  stop : Nat
  text : List α
  deriving DecidableEq

namespace Replacement

variable {α : Type}

/-- Nothing goes and nothing comes. -/
def Idle (r : Replacement α) : Prop := r.start = r.stop ∧ r.text = []

def Within (length : Nat) (r : Replacement α) : Prop := r.start ≤ r.stop ∧ r.stop ≤ length

/-- `r` alone. -/
def splice (xs : List α) (r : Replacement α) : List α :=
  xs.take r.start ++ r.text ++ xs.drop r.stop

/-- All of them at once, in order; what lies before `cursor` is out already. -/
def replaceAll (xs : List α) : Nat → List (Replacement α) → List α
  | cursor, [] => xs.drop cursor
  | cursor, r :: rs =>
      (xs.drop cursor).take (r.start - cursor) ++ r.text ++ replaceAll xs (max cursor r.stop) rs

variable {xs : List α} {cursor : Nat} {r : Replacement α} {rs : List (Replacement α)}

theorem replaceAll_nil : replaceAll xs cursor [] = xs.drop cursor := rfl

theorem replaceAll_cons : replaceAll xs cursor (r :: rs) =
    (xs.drop cursor).take (r.start - cursor) ++ r.text ++ replaceAll xs (max cursor r.stop) rs := rfl

theorem Idle.splice_eq (h : r.Idle) : r.splice xs = xs := by
  rw [splice, h.1, h.2, List.append_nil, List.take_append_drop]

/-- What lies before a range does not change with it. -/
theorem splice_before {start : Nat} (hcursor : cursor ≤ r.start) (hstart : start ≤ r.start)
    (hwithin : r.Within xs.length) :
    ((r.splice xs).drop cursor).take (start - cursor) = (xs.drop cursor).take (start - cursor) := by
  have hlength : (xs.take r.start).length = r.start :=
    List.length_take_of_le (Nat.le_trans hwithin.1 hwithin.2)
  rw [splice, List.append_assoc, List.drop_append_of_le_length (hlength.symm ▸ hcursor),
    List.take_append_of_le_length, List.drop_take, List.take_take,
    Nat.min_eq_left (Nat.sub_le_sub_right hstart cursor)]
  rw [List.length_drop, hlength]
  exact Nat.sub_le_sub_right hstart cursor

/-- The last one may go first. -/
theorem replaceAll_concat (hcursor : cursor ≤ r.start) (hwithin : r.Within xs.length)
    (hbefore : ∀ s ∈ rs, s.start ≤ r.start ∧ s.stop ≤ r.start) :
    replaceAll xs cursor (rs ++ [r]) = replaceAll (r.splice xs) cursor rs := by
  induction rs generalizing cursor with
  | nil =>
      have hlength : (xs.take r.start).length = r.start :=
        List.length_take_of_le (Nat.le_trans hwithin.1 hwithin.2)
      rw [List.nil_append, replaceAll_cons, replaceAll_nil, replaceAll_nil, splice, List.append_assoc,
        List.append_assoc, List.drop_append_of_le_length (hlength.symm ▸ hcursor), List.drop_take,
        Nat.max_eq_right (Nat.le_trans hcursor hwithin.1)]
  | cons s rs ih =>
      obtain ⟨hstart, hstop⟩ := hbefore s List.mem_cons_self
      have hrest := ih (Nat.max_le.2 ⟨hcursor, hstop⟩) fun t ht => hbefore t (List.mem_cons_of_mem _ ht)
      rw [List.cons_append, replaceAll_cons, replaceAll_cons, hrest, splice_before hcursor hstart hwithin]

/-- Something idle that is replaced last changes nothing. -/
theorem replaceAll_idle (hidle : r.Idle) :
    replaceAll xs cursor (rs ++ [r]) = replaceAll xs cursor rs := by
  induction rs generalizing cursor with
  | nil =>
      rw [List.nil_append, replaceAll_cons, replaceAll_nil, replaceAll_nil, ← hidle.1, hidle.2,
        List.append_nil]
      rcases Nat.le_total cursor r.start with hle | hle
      · rw [Nat.max_eq_right hle]
        conv_rhs => rw [← List.take_append_drop (r.start - cursor) (xs.drop cursor)]
        rw [List.drop_drop, Nat.add_sub_of_le hle]
      · rw [Nat.max_eq_left hle, Nat.sub_eq_zero_of_le hle, List.take_zero, List.nil_append]
  | cons s rs ih => rw [List.cons_append, replaceAll_cons, replaceAll_cons, ih]

/-! ## One by one -/

/-- The order in which ranges may be replaced one by one: what is replaced later lies before. -/
def Descends (rs : List (Replacement α)) : Prop :=
  rs.Pairwise fun r s => r.Idle ∨ s.start ≤ r.start ∧ s.stop ≤ r.start

theorem length_splice (h : r.Within xs.length) :
    (r.splice xs).length + (r.stop - r.start) = xs.length + r.text.length := by
  have hstart := Nat.le_trans h.1 h.2
  rw [splice, List.length_append, List.length_append, List.length_take_of_le hstart, List.length_drop]
  have := h.1
  have := h.2
  omega

/-- What lies before a range lies within what it leaves. -/
theorem Within.splice {s : Replacement α} (hs : s.start ≤ s.stop) (hr : r.Within xs.length)
    (hbefore : s.stop ≤ r.start) : s.Within (r.splice xs).length := by
  refine ⟨hs, Nat.le_trans hbefore ?_⟩
  rw [Replacement.splice, List.append_assoc, List.length_append,
    List.length_take_of_le (Nat.le_trans hr.1 hr.2)]
  exact Nat.le_add_right _ _

/-- What is left to replace lies within what the first one leaves. -/
theorem Descends.within (h : Descends (r :: rs)) (hwithin : ∀ s ∈ r :: rs, s.Within xs.length) :
    ∀ s ∈ rs, s.Within (r.splice xs).length := by
  intro s hs
  have hr := hwithin r List.mem_cons_self
  have hs' := hwithin s (List.mem_cons_of_mem _ hs)
  rcases (List.pairwise_cons.1 h).1 s hs with hidle | hbefore
  · rw [hidle.splice_eq]
    exact hs'
  · exact .splice hs'.1 hr hbefore.2

theorem length_splice_le (h : r.Within xs.length) :
    (r.splice xs).length ≤ xs.length + r.text.length :=
  Nat.le_trans (Nat.le_add_right _ _) (Nat.le_of_eq (length_splice h))

/-- One by one from the back comes to the same as all at once. -/
theorem foldl_splice (hdescends : Descends rs) (hwithin : ∀ r ∈ rs, r.Within xs.length) :
    rs.foldl splice xs = replaceAll xs 0 rs.reverse := by
  induction rs generalizing xs with
  | nil => exact List.drop_zero.symm
  | cons r rs ih =>
      obtain ⟨hfirst, hrest⟩ := List.pairwise_cons.1 hdescends
      have hr := hwithin r List.mem_cons_self
      have hnext := ih hrest (hdescends.within hwithin)
      rw [List.foldl_cons, hnext, List.reverse_cons]
      by_cases hidle : r.Idle
      · rw [hidle.splice_eq, replaceAll_idle hidle]
      · exact (replaceAll_concat (Nat.zero_le _) hr fun s hs =>
          (hfirst s (List.mem_reverse.1 hs)).resolve_left hidle).symm

/-! ## All at once -/

/-- No two ranges overlap. -/
structure Apart (rs : List (Replacement α)) : Prop where
  ordered : ∀ r ∈ rs, r.start ≤ r.stop
  apart : rs.Pairwise fun r s => r.stop ≤ s.start ∨ s.stop ≤ r.start

/-- No two that do something start together. -/
def Untied (rs : List (Replacement α)) : Prop :=
  rs.Pairwise fun r s => r.start = s.start → r.Idle ∨ s.Idle

/-- `s` ends up behind `r`: it starts behind it, or goes in where `r` starts. -/
def Before (r s : Replacement α) : Prop :=
  r.stop ≤ s.start ∨ s.start = s.stop ∧ r.start = s.start

def insertsAt (place : Nat) (r : Replacement α) : Bool :=
  r.start == place && r.stop == place && !r.text.isEmpty

/-- All ranges replaced at once. What goes in at one place does so in the order of the list, before or
behind what replaces a range from there. -/
def AtOnce (rs : List (Replacement α)) (xs ys : List α) : Prop :=
  ∃ arranged : List (Replacement α), arranged.Perm rs ∧ arranged.Pairwise Before ∧
    (∀ place, arranged.filter (insertsAt place) = rs.filter (insertsAt place)) ∧
    ys = replaceAll xs 0 arranged

section

variable {sorted : List (Replacement α)} (hperm : sorted.Perm rs)
  (hsorted : sorted.Pairwise fun r s => s.start ≤ r.start) (hapart : Apart rs)

include hperm hsorted hapart

/-- Sorted from the back, what comes later lies before, or starts at the same place. -/
theorem Apart.pairwise : sorted.Pairwise fun r s =>
    s.start ≤ r.start ∧ s.stop ≤ r.start ∨ r.start = r.stop ∧ s.start = r.start := by
  have happarts := (hperm.pairwise_iff fun h => Or.symm h).2 hapart.apart
  refine (hsorted.and happarts).imp_of_mem fun {r s} hr _ h => ?_
  rcases h with ⟨hle, hstart | hstop⟩
  · have := hapart.ordered r (hperm.mem_iff.1 hr)
    exact .inr ⟨by omega, by omega⟩
  · exact .inl ⟨hle, hstop⟩

theorem Apart.reverse_before : sorted.reverse.Pairwise Before := by
  refine List.pairwise_reverse.2 ((hapart.pairwise hperm hsorted).imp fun h => ?_)
  rcases h with ⟨-, hstop⟩ | ⟨hempty, hstart⟩
  · exact .inl hstop
  · exact .inr ⟨hempty, hstart⟩

theorem Apart.descends (huntied : Untied rs) : Descends sorted := by
  have hties : Untied sorted := (hperm.pairwise_iff fun h heq => (h heq.symm).symm).2 huntied
  refine ((hapart.pairwise hperm hsorted).and hties).imp fun h => ?_
  rcases h with ⟨hbefore | ⟨-, hstart⟩, htie⟩
  · exact .inr hbefore
  · rcases htie hstart.symm with hidle | hidle
    · exact .inl hidle
    · exact .inr ⟨Nat.le_of_eq hstart, Nat.le_of_eq (hidle.1.symm.trans hstart)⟩

end

/-- At each place there is at most one insertion. -/
theorem Untied.filter_length (h : Untied rs) (place : Nat) :
    (rs.filter (insertsAt place)).length ≤ 1 := by
  have hnone : (rs.filter (insertsAt place)).Pairwise fun _ _ => False := by
    refine (h.sublist List.filter_sublist).imp_of_mem fun {r s} hr hs htie => ?_
    have hr := (List.mem_filter.1 hr).2
    have hs := (List.mem_filter.1 hs).2
    simp only [insertsAt, Bool.and_eq_true, beq_iff_eq, Bool.not_eq_true', List.isEmpty_eq_false_iff]
      at hr hs
    rcases htie (hr.1.1.trans hs.1.1.symm) with hidle | hidle
    · exact hr.2 hidle.2
    · exact hs.2 hidle.2
  cases hfilter : rs.filter (insertsAt place) with
  | nil => exact Nat.zero_le _
  | cons r rest =>
      cases rest with
      | nil => exact Nat.le_refl _
      | cons s rest =>
          rw [hfilter] at hnone
          exact absurd ((List.pairwise_cons.1 hnone).1 s List.mem_cons_self) id

theorem Untied.filter_eq {arranged : List (Replacement α)} (h : Untied rs)
    (hperm : arranged.Perm rs) (place : Nat) :
    arranged.filter (insertsAt place) = rs.filter (insertsAt place) := by
  have hfilter := hperm.filter (insertsAt place)
  have hlength := h.filter_length place
  cases hrs : rs.filter (insertsAt place) with
  | nil =>
      rw [hrs] at hfilter
      exact hfilter.eq_nil
  | cons r rest =>
      rw [hrs] at hfilter hlength
      obtain rfl : rest = [] := List.length_eq_zero_iff.1 (Nat.le_zero.1 (Nat.le_of_succ_le_succ hlength))
      exact List.perm_singleton.1 hfilter

/-- One by one from the back is all at once, when no two that do something start together. -/
theorem Apart.atOnce {sorted : List (Replacement α)} (hapart : Apart rs) (huntied : Untied rs)
    (hperm : sorted.Perm rs) (hsorted : sorted.Pairwise fun r s => s.start ≤ r.start)
    (hwithin : ∀ r ∈ rs, r.Within xs.length) : AtOnce rs xs (sorted.foldl splice xs) := by
  have hreverse : sorted.reverse.Perm rs := (List.reverse_perm sorted).trans hperm
  refine ⟨sorted.reverse, hreverse, hapart.reverse_before hperm hsorted, huntied.filter_eq hreverse, ?_⟩
  exact foldl_splice (hapart.descends hperm hsorted huntied) fun r hr => hwithin r (hperm.mem_iff.1 hr)

/-- What goes and what comes, in all. -/
def removed (rs : List (Replacement α)) : Nat := (rs.map fun r => r.stop - r.start).sum

def added (rs : List (Replacement α)) : Nat := (rs.map fun r => r.text.length).sum

@[simp] theorem removed_cons : removed (r :: rs) = r.stop - r.start + removed rs := rfl

@[simp] theorem added_cons : added (r :: rs) = r.text.length + added rs := rfl

theorem removed_perm {rs' : List (Replacement α)} (h : rs.Perm rs') : removed rs = removed rs' :=
  (h.map _).sum_eq

theorem added_perm {rs' : List (Replacement α)} (h : rs.Perm rs') : added rs = added rs' :=
  (h.map _).sum_eq

theorem Before.of_le {s : Replacement α} (h : Before r s) (hcursor : cursor ≤ r.stop) :
    cursor ≤ s.start ∨ s.start = s.stop := by
  rcases h with hstop | ⟨hempty, -⟩
  · exact .inl (Nat.le_trans hcursor hstop)
  · exact .inr hempty

/-- How long the sequence is with every range replaced. -/
theorem length_replaceAll (hbefore : rs.Pairwise Before) (hwithin : ∀ r ∈ rs, r.Within xs.length)
    (hcursor : ∀ r ∈ rs, cursor ≤ r.start ∨ r.start = r.stop) (hle : cursor ≤ xs.length) :
    (replaceAll xs cursor rs).length + removed rs = xs.length - cursor + added rs := by
  induction rs generalizing cursor with
  | nil => simp [replaceAll, removed, added]
  | cons r rs ih =>
      obtain ⟨hfirst, hrest⟩ := List.pairwise_cons.1 hbefore
      obtain ⟨hordered, hend⟩ := hwithin r List.mem_cons_self
      have hnext : ∀ s ∈ rs, max cursor r.stop ≤ s.start ∨ s.start = s.stop := by
        intro s hs
        rcases hcursor s (List.mem_cons_of_mem _ hs) with hstart | hempty
        · rcases (hfirst s hs).of_le (Nat.le_refl _) with hstop | hempty
          · exact .inl (Nat.max_le.2 ⟨hstart, hstop⟩)
          · exact .inr hempty
        · exact .inr hempty
      have hih := ih hrest (fun s hs => hwithin s (List.mem_cons_of_mem _ hs)) hnext
        (Nat.max_le.2 ⟨hle, hend⟩)
      rw [replaceAll_cons, removed_cons, added_cons, List.length_append, List.length_append,
        List.length_take, List.length_drop]
      rcases hcursor r List.mem_cons_self with hstart | hempty <;> omega

/-! ## A place that moves along -/

/-- What one replacement does to a place: it goes along with what ends before it, and falls back to the
start of what it lies inside. -/
def relocate (place : Nat) (r : Replacement α) : Nat :=
  if r.stop ≤ place then place - (r.stop - r.start) + r.text.length
  else if r.start < place then r.start
  else place

/-- Up to where the sequence before a place stays, which is not inside a range. -/
def Origin (rs : List (Replacement α)) (place origin : Nat) : Prop :=
  (∃ r ∈ rs, r.start < place ∧ place < r.stop ∧ origin = r.start) ∨
    (∀ r ∈ rs, place ≤ r.start ∨ r.stop ≤ place) ∧ origin = place

/-- The lengths of what goes before a place, and of what comes. -/
def removedBefore (rs : List (Replacement α)) (place : Nat) : Nat :=
  ((rs.filter (·.stop ≤ place)).map fun r => r.stop - r.start).sum

def addedBefore (rs : List (Replacement α)) (place : Nat) : Nat :=
  ((rs.filter (·.stop ≤ place)).map fun r => r.text.length).sum

/-- Where a place is once all are replaced. -/
def Lands (rs : List (Replacement α)) (place landing : Nat) : Prop :=
  ∃ origin, Origin rs place origin ∧
    landing + removedBefore rs origin = origin + addedBefore rs origin

variable {place origin landing : Nat}

theorem removedBefore_cons : removedBefore (r :: rs) place =
    (if r.stop ≤ place then r.stop - r.start else 0) + removedBefore rs place := by
  rw [removedBefore, List.filter_cons]
  split
  · rename_i hle
    rw [if_pos (of_decide_eq_true hle)]
    rfl
  · rename_i hle
    rw [if_neg fun h => hle (decide_eq_true h), Nat.zero_add]
    rfl

theorem addedBefore_cons : addedBefore (r :: rs) place =
    (if r.stop ≤ place then r.text.length else 0) + addedBefore rs place := by
  rw [addedBefore, List.filter_cons]
  split
  · rename_i hle
    rw [if_pos (of_decide_eq_true hle)]
    rfl
  · rename_i hle
    rw [if_neg fun h => hle (decide_eq_true h), Nat.zero_add]
    rfl

/-- Where everything ends before both, two places have the same before them. -/
theorem before_congr {other : Nat} (h : ∀ r ∈ rs, r.stop ≤ place ∧ r.stop ≤ other) :
    removedBefore rs place = removedBefore rs other ∧ addedBefore rs place = addedBefore rs other := by
  have hplace : rs.filter (·.stop ≤ place) = rs :=
    List.filter_eq_self.2 fun r hr => decide_eq_true (h r hr).1
  have hother : rs.filter (·.stop ≤ other) = rs :=
    List.filter_eq_self.2 fun r hr => decide_eq_true (h r hr).2
  simp only [removedBefore, addedBefore, hplace, hother, and_self]

theorem Lands.perm {rs' : List (Replacement α)} (h : Lands rs place landing) (hperm : rs.Perm rs') :
    Lands rs' place landing := by
  obtain ⟨origin, horigin, hsum⟩ := h
  refine ⟨origin, ?_, ?_⟩
  · simpa only [Origin, hperm.mem_iff] using horigin
  · have hremoved : removedBefore rs origin = removedBefore rs' origin :=
      ((hperm.filter _).map _).sum_eq
    have hadded : addedBefore rs origin = addedBefore rs' origin := ((hperm.filter _).map _).sum_eq
    rw [← hremoved, ← hadded]
    exact hsum

theorem Origin.le (h : Origin rs place origin) : origin ≤ place := by
  rcases h with ⟨r, -, hlt, -, rfl⟩ | ⟨-, rfl⟩
  · exact Nat.le_of_lt hlt
  · exact Nat.le_refl _

/-- A place that everything ends before moves by what all of it adds and removes. -/
theorem Lands.sum_eq (h : Lands rs place landing) (hbefore : ∀ s ∈ rs, s.stop ≤ place) :
    landing + removedBefore rs place = place + addedBefore rs place := by
  obtain ⟨origin, ⟨s, hs, -, hlt, -⟩ | ⟨-, rfl⟩, hsum⟩ := h
  · exact absurd (hbefore s hs) (Nat.not_le.2 hlt)
  · exact hsum

theorem Lands.cons_idle (h : Lands rs place landing) (hidle : r.Idle) :
    Lands (r :: rs) place landing := by
  obtain ⟨origin, horigin, hsum⟩ := h
  refine ⟨origin, ?_, ?_⟩
  · rcases horigin with ⟨s, hs, hin⟩ | ⟨hout, heq⟩
    · exact .inl ⟨s, List.mem_cons_of_mem _ hs, hin⟩
    · refine .inr ⟨fun s hs => ?_, heq⟩
      rcases List.mem_cons.1 hs with rfl | hs
      · rw [hidle.1]
        exact Nat.le_total _ _
      · exact hout s hs
  · rw [removedBefore_cons, addedBefore_cons, hidle.1, hidle.2, Nat.sub_self, List.length_nil,
      ite_self, Nat.zero_add, Nat.zero_add]
    exact hsum

/-- A place behind the range moves with it. -/
theorem Lands.cons_before
    (h : Lands rs (place - (r.stop - r.start) + r.text.length) landing) (hle : r.stop ≤ place)
    (hr : r.start ≤ r.stop)
    (hbefore : ∀ s ∈ rs, s.stop ≤ r.start) : Lands (r :: rs) place landing := by
  have hmoved : r.start ≤ place - (r.stop - r.start) + r.text.length := by omega
  have hrest : ∀ s ∈ rs, s.stop ≤ place := fun s hs =>
    Nat.le_trans (hbefore s hs) (Nat.le_trans hr hle)
  have hthere : ∀ s ∈ rs, s.stop ≤ place - (r.stop - r.start) + r.text.length := fun s hs =>
    Nat.le_trans (hbefore s hs) hmoved
  have hsum := h.sum_eq hthere
  obtain ⟨hremoved, hadded⟩ := before_congr fun s hs => ⟨hthere s hs, hrest s hs⟩
  refine ⟨place, .inr ⟨fun s hs => .inr ?_, rfl⟩, ?_⟩
  · rcases List.mem_cons.1 hs with rfl | hs
    · exact hle
    · exact hrest s hs
  · rw [hremoved, hadded] at hsum
    rw [removedBefore_cons, addedBefore_cons, if_pos hle, if_pos hle]
    omega

/-- A place inside the range falls back to its start. -/
theorem Lands.cons_inside (h : Lands rs r.start landing) (hstart : r.start < place)
    (hstop : place < r.stop) (hbefore : ∀ s ∈ rs, s.stop ≤ r.start) :
    Lands (r :: rs) place landing := by
  have hsum := h.sum_eq hbefore
  have hnot : ¬r.stop ≤ r.start := Nat.not_le.2 (Nat.lt_trans hstart hstop)
  refine ⟨r.start, .inl ⟨r, List.mem_cons_self, hstart, hstop, rfl⟩, ?_⟩
  rw [removedBefore_cons, addedBefore_cons, if_neg hnot, if_neg hnot, Nat.zero_add, Nat.zero_add]
  exact hsum

/-- A place before the range stays. -/
theorem Lands.cons_behind (h : Lands rs place landing) (hstart : place ≤ r.start)
    (hstop : place < r.stop) : Lands (r :: rs) place landing := by
  obtain ⟨origin, horigin, hsum⟩ := h
  have hnot : ¬r.stop ≤ origin := Nat.not_le.2 (Nat.lt_of_le_of_lt horigin.le hstop)
  refine ⟨origin, ?_, ?_⟩
  · rcases horigin with ⟨s, hs, hin⟩ | ⟨hout, heq⟩
    · exact .inl ⟨s, List.mem_cons_of_mem _ hs, hin⟩
    · refine .inr ⟨fun s hs => ?_, heq⟩
      rcases List.mem_cons.1 hs with rfl | hs
      · exact .inl hstart
      · exact hout s hs
  · rw [removedBefore_cons, addedBefore_cons, if_neg hnot, if_neg hnot, Nat.zero_add, Nat.zero_add]
    exact hsum

theorem relocate_idle (hidle : r.Idle) : relocate place r = place := by
  rw [relocate, hidle.1, hidle.2, Nat.sub_self]
  split
  · rfl
  · rename_i hlt
    rw [if_neg (mt Nat.le_of_lt hlt)]

theorem relocate_le : relocate place r ≤ place + r.text.length := by
  unfold relocate
  split
  · exact Nat.add_le_add_right (Nat.sub_le _ _) _
  · split
    · rename_i hlt
      exact Nat.le_trans (Nat.le_of_lt hlt) (Nat.le_add_right _ _)
    · exact Nat.le_add_right _ _

variable (place) in
/-- One by one from the back, a place lands where it does all at once. -/
theorem foldl_relocate (hdescends : Descends rs) (hordered : ∀ r ∈ rs, r.start ≤ r.stop) :
    Lands rs place (rs.foldl relocate place) := by
  induction rs generalizing place with
  | nil => exact ⟨place, .inr ⟨fun r hr => absurd hr List.not_mem_nil, rfl⟩, rfl⟩
  | cons r rs ih =>
      obtain ⟨hfirst, hrest⟩ := List.pairwise_cons.1 hdescends
      have hr := hordered r List.mem_cons_self
      have hlands : Lands rs (relocate place r) (rs.foldl relocate (relocate place r)) :=
        ih _ hrest fun s hs => hordered s (List.mem_cons_of_mem _ hs)
      rw [List.foldl_cons]
      generalize rs.foldl relocate (relocate place r) = landing at hlands
      by_cases hidle : r.Idle
      · exact (relocate_idle hidle ▸ hlands).cons_idle hidle
      · have hbefore : ∀ s ∈ rs, s.stop ≤ r.start := fun s hs => ((hfirst s hs).resolve_left hidle).2
        unfold relocate at hlands
        split at hlands
        · rename_i hle
          exact hlands.cons_before hle hr hbefore
        · rename_i hgt
          split at hlands
          · rename_i hlt
            exact hlands.cons_inside hlt (Nat.lt_of_not_le hgt) hbefore
          · rename_i hge
            exact hlands.cons_behind (Nat.le_of_not_lt hge) (Nat.lt_of_not_le hgt)

end Replacement

end Ned.Library
