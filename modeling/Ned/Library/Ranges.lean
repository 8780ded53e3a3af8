import Mathlib.Order.Lattice
import Mathlib.Order.Monotone.Basic
import Mathlib.Order.MinMax
import Mathlib.Data.List.TakeWhile

/-!
# Ranges

Sets held as lists of half-open ranges. In an ordered list no range is empty, and each ends before
the next one starts or where it does.
-/

namespace Ned.Library

variable {α : Type}

structure Range (α : Type) where
  start : α
  stop : α
  deriving DecidableEq

variable [LinearOrder α]

def Covers (ranges : List (Range α)) (x : α) : Prop := ∃ r ∈ ranges, r.start ≤ x ∧ x < r.stop

structure Ordered (ranges : List (Range α)) : Prop where
  nonempty : ∀ r ∈ ranges, r.start < r.stop
  apart : ranges.Pairwise fun a b => a.stop ≤ b.start

/-- No range starts below a point. -/
def StartsFrom (low : α) (ranges : List (Range α)) : Prop := ∀ r ∈ ranges, low ≤ r.start

/-- No range ends above a point. -/
def StopsBy (high : α) (ranges : List (Range α)) : Prop := ∀ r ∈ ranges, r.stop ≤ high

variable {ranges left right : List (Range α)} {r : Range α} {x low high : α}

@[simp] theorem covers_nil (x : α) : ¬Covers [] x := by
  rintro ⟨r, hr, -⟩
  cases hr

@[simp] theorem covers_cons (r : Range α) (ranges : List (Range α)) (x : α) :
    Covers (r :: ranges) x ↔ r.start ≤ x ∧ x < r.stop ∨ Covers ranges x := by
  simp [Covers]

theorem covers_append (left right : List (Range α)) (x : α) :
    Covers (left ++ right) x ↔ Covers left x ∨ Covers right x := by
  simp only [Covers, List.mem_append, or_and_right, exists_or]

theorem Covers.of_mem (h : r ∈ ranges) (hlow : r.start ≤ x) (hhigh : x < r.stop) :
    Covers ranges x := ⟨r, h, hlow, hhigh⟩

/-! ## Bounds -/

@[simp] theorem startsFrom_nil (low : α) : StartsFrom low [] := by
  simp [StartsFrom]

@[simp] theorem startsFrom_cons :
    StartsFrom low (r :: ranges) ↔ low ≤ r.start ∧ StartsFrom low ranges := by
  simp [StartsFrom]

theorem StartsFrom.mono (h : StartsFrom high ranges) (hle : low ≤ high) : StartsFrom low ranges :=
  fun r hr => le_trans hle (h r hr)

theorem StartsFrom.not_covers (h : StartsFrom low ranges) (hx : x < low) : ¬Covers ranges x := by
  rintro ⟨r, hr, hstart, -⟩
  exact absurd (lt_of_lt_of_le hx (h r hr)) (not_lt_of_ge hstart)

@[simp] theorem stopsBy_nil (high : α) : StopsBy high [] := by
  simp [StopsBy]

@[simp] theorem stopsBy_cons :
    StopsBy high (r :: ranges) ↔ r.stop ≤ high ∧ StopsBy high ranges := by
  simp [StopsBy]

theorem StopsBy.lt_of_covers (h : StopsBy high ranges) (hx : Covers ranges x) : x < high := by
  obtain ⟨r, hr, -, hstop⟩ := hx
  exact lt_of_lt_of_le hstop (h r hr)

/-! ## Order -/

namespace Ordered

@[simp] theorem nil : Ordered ([] : List (Range α)) := ⟨by simp, .nil⟩

theorem cons_iff :
    Ordered (r :: ranges) ↔ r.start < r.stop ∧ StartsFrom r.stop ranges ∧ Ordered ranges := by
  constructor
  · rintro ⟨hnonempty, hapart⟩
    obtain ⟨hhead, htail⟩ := List.pairwise_cons.1 hapart
    exact ⟨hnonempty r List.mem_cons_self, hhead,
      fun a ha => hnonempty a (List.mem_cons_of_mem _ ha), htail⟩
  · rintro ⟨hhead, hstarts, hnonempty, hapart⟩
    exact ⟨List.forall_mem_cons.2 ⟨hhead, hnonempty⟩, .cons hstarts hapart⟩

theorem tail (h : Ordered (r :: ranges)) : Ordered ranges := (cons_iff.1 h).2.2

theorem head_lt (h : Ordered (r :: ranges)) : r.start < r.stop := (cons_iff.1 h).1

theorem startsFrom (h : Ordered (r :: ranges)) : StartsFrom r.stop ranges := (cons_iff.1 h).2.1

theorem startsFrom_start (h : Ordered (r :: ranges)) : StartsFrom r.start (r :: ranges) :=
  startsFrom_cons.2 ⟨le_refl _, h.startsFrom.mono (le_of_lt h.head_lt)⟩

/-- What comes later lies above. -/
theorem le_of_covers (h : Ordered (r :: ranges)) (hx : Covers ranges x) : r.stop ≤ x :=
  le_of_not_gt fun hlt => h.startsFrom.not_covers hlt hx

/-- The first range may be cut short. -/
theorem cut_stop (h : Ordered (r :: ranges)) (hlow : r.start < x) (hhigh : x ≤ r.stop) :
    Ordered (⟨r.start, x⟩ :: ranges) :=
  cons_iff.2 ⟨hlow, h.startsFrom.mono hhigh, h.tail⟩

theorem cut_start (h : Ordered (r :: ranges)) (hhigh : x < r.stop) :
    Ordered (⟨x, r.stop⟩ :: ranges) :=
  cons_iff.2 ⟨hhigh, h.startsFrom, h.tail⟩

/-- A subset starts no earlier. -/
theorem startsFrom_of_covers (h : Ordered left) (hsub : ∀ x, Covers left x → Covers right x)
    (hlow : StartsFrom low right) : StartsFrom low left := by
  intro r hr
  by_contra hlt
  have hcovers : Covers left r.start := .of_mem hr (le_refl _) (h.nonempty r hr)
  exact hlow.not_covers (lt_of_not_ge hlt) (hsub _ hcovers)

end Ordered

/-! ## Gaps -/

/-- All ranges start above a point. -/
def StartsAfter (low : α) (ranges : List (Range α)) : Prop := ∀ r ∈ ranges, low < r.start

@[simp] theorem startsAfter_nil (low : α) : StartsAfter low [] := by
  simp [StartsAfter]

@[simp] theorem startsAfter_cons :
    StartsAfter low (r :: ranges) ↔ low < r.start ∧ StartsAfter low ranges := by
  simp [StartsAfter]

theorem StartsAfter.mono (h : StartsAfter high ranges) (hle : low ≤ high) :
    StartsAfter low ranges := fun r hr => lt_of_le_of_lt hle (h r hr)

theorem StartsAfter.not_covers (h : StartsAfter low ranges) (hx : x ≤ low) : ¬Covers ranges x := by
  rintro ⟨r, hr, hstart, -⟩
  exact absurd (lt_of_le_of_lt hx (h r hr)) (not_lt_of_ge hstart)

theorem StartsFrom.startsAfter (h : StartsFrom high ranges) (hlt : low < high) :
    StartsAfter low ranges := fun r hr => lt_of_lt_of_le hlt (h r hr)

/-- Ordered ranges no two of which touch. -/
structure Separated (ranges : List (Range α)) : Prop where
  nonempty : ∀ r ∈ ranges, r.start < r.stop
  gaps : ranges.Pairwise fun a b => a.stop < b.start

namespace Separated

@[simp] theorem nil : Separated ([] : List (Range α)) := ⟨by simp, .nil⟩

theorem ordered (h : Separated ranges) : Ordered ranges := ⟨h.nonempty, h.gaps.imp le_of_lt⟩

theorem cons_iff :
    Separated (r :: ranges) ↔ r.start < r.stop ∧ StartsAfter r.stop ranges ∧ Separated ranges := by
  constructor
  · rintro ⟨hnonempty, hgaps⟩
    obtain ⟨hhead, htail⟩ := List.pairwise_cons.1 hgaps
    exact ⟨hnonempty r List.mem_cons_self, hhead,
      fun a ha => hnonempty a (List.mem_cons_of_mem _ ha), htail⟩
  · rintro ⟨hhead, hstarts, hnonempty, hgaps⟩
    exact ⟨List.forall_mem_cons.2 ⟨hhead, hnonempty⟩, .cons hstarts hgaps⟩

theorem tail (h : Separated (r :: ranges)) : Separated ranges := (cons_iff.1 h).2.2

theorem head_lt (h : Separated (r :: ranges)) : r.start < r.stop := (cons_iff.1 h).1

theorem startsAfter (h : Separated (r :: ranges)) : StartsAfter r.stop ranges := (cons_iff.1 h).2.1

theorem cut_stop (h : Separated (r :: ranges)) (hlow : r.start < x) (hhigh : x ≤ r.stop) :
    Separated (⟨r.start, x⟩ :: ranges) :=
  cons_iff.2 ⟨hlow, h.startsAfter.mono hhigh, h.tail⟩

theorem cut_start (h : Separated (r :: ranges)) (hhigh : x < r.stop) :
    Separated (⟨x, r.stop⟩ :: ranges) :=
  cons_iff.2 ⟨hhigh, h.startsAfter, h.tail⟩

/-- A subset starts no earlier. -/
theorem startsAfter_of_covers (h : Separated left) (hsub : ∀ x, Covers left x → Covers right x)
    (hlow : StartsAfter low right) : StartsAfter low left := by
  intro r hr
  by_contra hle
  have hcovers : Covers left r.start := .of_mem hr (le_refl _) (h.nonempty r hr)
  exact hlow.not_covers (le_of_not_gt hle) (hsub _ hcovers)

theorem append (hleft : Separated left) (hright : Separated right)
    (hgap : ∀ r ∈ left, StartsAfter r.stop right) : Separated (left ++ right) where
  nonempty r hr := (List.mem_append.1 hr).elim (hleft.nonempty r) (hright.nonempty r)
  gaps := List.pairwise_append.2 ⟨hleft.gaps, hright.gaps, hgap⟩

end Separated

end Ned.Library

/-!
## Sets of intervals

Half-open intervals held as a list in their order: none is empty, no two overlap, and all of them
end by a bound.
-/

namespace Ned.Library

variable {α : Type} [LinearOrder α]

structure Intervals (bound : α) (ranges : List (α × α)) : Prop where
  nonempty : ∀ r ∈ ranges, r.1 < r.2
  disjoint : ranges.Pairwise fun a b => a.2 ≤ b.1
  within : ∀ r ∈ ranges, r.2 ≤ bound

namespace Intervals

variable {bound bound' : α} {ranges : List (α × α)} {r : α × α}

theorem nil : Intervals bound ([] : List (α × α)) := by
  refine ⟨?_, .nil, ?_⟩
  · intro r hr
    cases hr
  · intro r hr
    cases hr

theorem cons (h : Intervals bound ranges) (hne : r.1 < r.2) (hle : r.2 ≤ bound)
    (hlow : ∀ a ∈ ranges, r.2 ≤ a.1) : Intervals bound (r :: ranges) := by
  refine ⟨?_, .cons hlow h.disjoint, ?_⟩
  · intro a ha
    rcases List.mem_cons.1 ha with rfl | ha
    · exact hne
    · exact h.nonempty a ha
  · intro a ha
    rcases List.mem_cons.1 ha with rfl | ha
    · exact hle
    · exact h.within a ha

theorem tail (h : Intervals bound (r :: ranges)) : Intervals bound ranges :=
  ⟨fun a ha => h.nonempty a (List.mem_cons_of_mem _ ha), (List.pairwise_cons.1 h.disjoint).2,
    fun a ha => h.within a (List.mem_cons_of_mem _ ha)⟩

theorem head_nonempty (h : Intervals bound (r :: ranges)) : r.1 < r.2 :=
  h.nonempty r (List.mem_cons_self ..)

theorem head_within (h : Intervals bound (r :: ranges)) : r.2 ≤ bound :=
  h.within r (List.mem_cons_self ..)

theorem head_le (h : Intervals bound (r :: ranges)) : ∀ a ∈ ranges, r.2 ≤ a.1 :=
  (List.pairwise_cons.1 h.disjoint).1

theorem mono (h : Intervals bound ranges) (hle : ∀ r ∈ ranges, r.2 ≤ bound') :
    Intervals bound' ranges := ⟨h.nonempty, h.disjoint, hle⟩

/-- The starts strictly increase. -/
theorem sorted (h : Intervals bound ranges) : ranges.Pairwise fun a b => a.1 < b.1 := by
  induction ranges with
  | nil => exact .nil
  | cons r ranges ih =>
      exact .cons (fun a ha => lt_of_lt_of_le h.head_nonempty (h.head_le a ha)) (ih h.tail)

variable {move : α → α}

/-- A strictly increasing map keeps the intervals apart and nonempty. -/
theorem map (h : Intervals bound ranges) (hmove : StrictMono move)
    (hle : ∀ r ∈ ranges, move r.2 ≤ bound') :
    Intervals bound' (ranges.map fun r => (move r.1, move r.2)) := by
  refine ⟨?_, ?_, ?_⟩
  · intro a ha
    obtain ⟨r, hr, rfl⟩ := List.mem_map.1 ha
    exact hmove (h.nonempty r hr)
  · rw [List.pairwise_map]
    exact h.disjoint.imp fun hle => hmove.monotone hle
  · intro a ha
    obtain ⟨r, hr, rfl⟩ := List.mem_map.1 ha
    exact hle r hr

/-- An increasing map may close intervals up, and those are dropped. -/
theorem map_filter [DecidableRel ((· < ·) : α → α → Prop)] (h : Intervals bound ranges)
    (hmove : Monotone move) (hle : ∀ r ∈ ranges, move r.2 ≤ bound') :
    Intervals bound'
      ((ranges.map fun r => (move r.1, move r.2)).filter fun r => decide (r.1 < r.2)) := by
  refine ⟨?_, ?_, ?_⟩
  · intro a ha
    exact of_decide_eq_true (List.mem_filter.1 ha).2
  · apply List.Pairwise.filter
    rw [List.pairwise_map]
    exact h.disjoint.imp fun hle => hmove hle
  · intro a ha
    obtain ⟨r, hr, rfl⟩ := List.mem_map.1 (List.mem_filter.1 ha).1
    exact hle r hr

end Intervals

end Ned.Library
/-!
## Merging

Ranges in the order of their starts are merged where they touch. A range may be empty or reversed.
-/

namespace Ned.Library

variable {α : Type} [LinearOrder α]

def mergeFrom (back : α × α) : List (α × α) → List (α × α)
  | [] => [back]
  | range :: ranges =>
      if range.1 ≤ back.2 then mergeFrom (back.1, max back.2 range.2) ranges
      else back :: mergeFrom range ranges

def mergeTouching : List (α × α) → List (α × α)
  | [] => []
  | range :: ranges => mergeFrom range ranges

/-- A point lies in one of the ranges. -/
def Within (ranges : List (α × α)) (x : α) : Prop := ∃ r ∈ ranges, r.1 ≤ x ∧ x < r.2

/-- The ranges stand in order, with a gap between any two. -/
def Apart (ranges : List (α × α)) : Prop := ranges.Pairwise fun a b => a.1 ≤ b.1 ∧ a.2 < b.1

variable {ranges : List (α × α)} {back r : α × α} {x : α}

theorem within_cons : Within (r :: ranges) x ↔ r.1 ≤ x ∧ x < r.2 ∨ Within ranges x := by
  simp [Within]

theorem within_mergeFrom (hsorted : (back :: ranges).Pairwise fun a b => a.1 ≤ b.1) :
    Within (mergeFrom back ranges) x ↔ Within (back :: ranges) x := by
  induction ranges generalizing back with
  | nil => rfl
  | cons range ranges ih =>
      obtain ⟨hback, htail⟩ := List.pairwise_cons.1 hsorted
      obtain ⟨hrange, hrest⟩ := List.pairwise_cons.1 htail
      have hle : back.1 ≤ range.1 := hback range List.mem_cons_self
      rw [mergeFrom]
      split
      next htouch =>
        have hmerged : ((back.1, max back.2 range.2) :: ranges).Pairwise fun a b => a.1 ≤ b.1 :=
          .cons (fun a ha => hback a (List.mem_cons_of_mem _ ha)) hrest
        rw [ih hmerged, within_cons, within_cons, within_cons, ← or_assoc]
        apply or_congr_left
        -- what lies behind the first range lies in the second, which starts inside the first
        constructor
        · rintro ⟨hlow, hhigh⟩
          rcases lt_max_iff.1 hhigh with hhigh | hhigh
          · exact .inl ⟨hlow, hhigh⟩
          · rcases lt_or_ge x back.2 with hin | hout
            · exact .inl ⟨hlow, hin⟩
            · exact .inr ⟨le_trans htouch hout, hhigh⟩
        · rintro (⟨hlow, hhigh⟩ | ⟨hlow, hhigh⟩)
          · exact ⟨hlow, lt_max_of_lt_left hhigh⟩
          · exact ⟨le_trans hle hlow, lt_max_of_lt_right hhigh⟩
      next => rw [within_cons, ih htail, within_cons, within_cons, within_cons]

theorem mergeFrom_apart (hsorted : (back :: ranges).Pairwise fun a b => a.1 ≤ b.1) :
    Apart (mergeFrom back ranges) ∧ ∀ r ∈ mergeFrom back ranges, back.1 ≤ r.1 := by
  induction ranges generalizing back with
  | nil =>
      refine ⟨List.pairwise_singleton _ _, ?_⟩
      intro r hr
      rw [List.mem_singleton.1 hr]
  | cons range ranges ih =>
      obtain ⟨hback, htail⟩ := List.pairwise_cons.1 hsorted
      obtain ⟨hrange, hrest⟩ := List.pairwise_cons.1 htail
      have hle : back.1 ≤ range.1 := hback range List.mem_cons_self
      rw [mergeFrom]
      split
      next =>
        have hmerged : ((back.1, max back.2 range.2) :: ranges).Pairwise fun a b => a.1 ≤ b.1 :=
          .cons (fun a ha => hback a (List.mem_cons_of_mem _ ha)) hrest
        exact ih hmerged
      next hgap =>
        obtain ⟨hapart, hfrom⟩ := ih htail
        constructor
        · refine List.pairwise_cons.2 ⟨?_, hapart⟩
          intro r hr
          exact ⟨le_trans hle (hfrom r hr), lt_of_lt_of_le (lt_of_not_ge hgap) (hfrom r hr)⟩
        · intro r hr
          rcases List.mem_cons.1 hr with rfl | hr
          · exact le_rfl
          · exact le_trans hle (hfrom r hr)

/-- Merging keeps the points and separates the ranges. -/
theorem mergeTouching_spec (hsorted : ranges.Pairwise fun a b => a.1 ≤ b.1) :
    Apart (mergeTouching ranges) ∧ ∀ x, Within (mergeTouching ranges) x ↔ Within ranges x := by
  cases ranges with
  | nil => exact ⟨.nil, fun x => Iff.rfl⟩
  | cons range ranges => exact ⟨(mergeFrom_apart hsorted).1, fun x => within_mergeFrom hsorted⟩

/-- In separated ranges the last one that starts by a point is the only one that can hold it. -/
theorem Apart.within_iff (h : Apart ranges) : Within ranges x ↔
    ∃ r ∈ (ranges.takeWhile fun r => decide (r.1 ≤ x)).getLast?, r.1 ≤ x ∧ x < r.2 := by
  induction ranges with
  | nil => simp [Within]
  | cons range ranges ih =>
      obtain ⟨hrange, hrest⟩ := List.pairwise_cons.1 h
      have hnone (hgt : x < range.1) : ¬ Within ranges x := by
        rintro ⟨r, hr, hlow, -⟩
        exact absurd (le_trans (hrange r hr).1 hlow) (not_le_of_gt hgt)
      rw [within_cons]
      by_cases hle : range.1 ≤ x
      · have htake : (range :: ranges).takeWhile (fun r => decide (r.1 ≤ x)) =
            range :: ranges.takeWhile fun r => decide (r.1 ≤ x) :=
          List.takeWhile_cons_of_pos (decide_eq_true hle)
        rw [htake, List.getLast?_cons, ih hrest]
        cases hlast : (ranges.takeWhile fun r => decide (r.1 ≤ x)).getLast? with
        | none => simp [hle]
        | some last =>
            -- a later range starts by the point, so this one ends before it
            have hmem := List.mem_of_getLast? hlast
            have hstarts : last.1 ≤ x := by
              simpa using List.mem_takeWhile_imp (p := fun r : α × α => decide (r.1 ≤ x)) hmem
            have hgap : range.2 < last.1 := (hrange last (List.takeWhile_subset _ hmem)).2
            have hnot : ¬ x < range.2 := not_lt_of_ge (le_trans (le_of_lt hgap) hstarts)
            simp [hnot]
      · have htake : (range :: ranges).takeWhile (fun r => decide (r.1 ≤ x)) = [] :=
          List.takeWhile_cons_of_neg (by simpa using hle)
        rw [htake]
        simp [hle, hnone (lt_of_not_ge hle)]

end Ned.Library
