/-!
# Strides

A cursor that is moved over an input by the length of what stands under it, and a second measure of
what it has passed. Loops of this shape differ in when they stop.
-/

namespace Ned.Library

/-- What stands under a cursor: how long it is, and what it measures. -/
structure Stride where
  length : Nat
  width : Nat
  deriving DecidableEq

/-- Where a cursor is, and what it has passed. -/
structure Mark where
  offset : Nat
  measure : Nat
  deriving DecidableEq

def Mark.next (mark : Mark) (stride : Stride) : Mark :=
  { offset := mark.offset + stride.length, measure := mark.measure + stride.width }

/-- The loop, which is `none` when its fuel runs out. -/
def walk (stride : Nat → Option Stride) (more : Mark → Bool) : Nat → Mark → Option Mark
  | 0, _ => none
  | fuel + 1, mark =>
      if more mark then (stride mark.offset).bind fun s => walk stride more fuel (mark.next s)
      else some mark

variable {stride other : Nat → Option Stride} {more : Mark → Bool} {start mid stop : Mark}
  {fuel : Nat} {s : Stride}

/-- The cursor gets from one mark to another, by strides that measure something. -/
inductive Passes (stride : Nat → Option Stride) : Mark → Mark → Prop
  | here (mark : Mark) : Passes stride mark mark
  | step {mark stop : Mark} {s : Stride} (under : stride mark.offset = some s)
      (length_pos : 0 < s.length) (width_pos : 0 < s.width)
      (rest : Passes stride (mark.next s) stop) : Passes stride mark stop

namespace Passes

theorem offset_le (h : Passes stride start stop) : start.offset ≤ stop.offset := by
  induction h with
  | here => exact Nat.le_refl _
  | step _ _ _ _ ih => exact Nat.le_trans (Nat.le_add_right _ _) ih

theorem measure_le (h : Passes stride start stop) : start.measure ≤ stop.measure := by
  induction h with
  | here => exact Nat.le_refl _
  | step _ _ _ _ ih => exact Nat.le_trans (Nat.le_add_right _ _) ih

/-- Either nothing was passed, or both measures have grown. -/
theorem eq_or_lt (h : Passes stride start stop) :
    start = stop ∨ start.offset < stop.offset ∧ start.measure < stop.measure := by
  cases h with
  | here => exact .inl rfl
  | step _ hlength hwidth rest =>
      exact .inr ⟨Nat.lt_of_lt_of_le (Nat.lt_add_of_pos_right hlength) rest.offset_le,
        Nat.lt_of_lt_of_le (Nat.lt_add_of_pos_right hwidth) rest.measure_le⟩

theorem measure_lt (h : Passes stride start stop) (hlt : start.offset < stop.offset) :
    start.measure < stop.measure := by
  rcases h.eq_or_lt with rfl | h
  · exact absurd hlt (Nat.lt_irrefl _)
  · exact h.2

theorem trans (h : Passes stride start mid) (h' : Passes stride mid stop) :
    Passes stride start stop := by
  induction h with
  | here => exact h'
  | step hunder hlength hwidth _ ih => exact .step hunder hlength hwidth (ih h')

theorem snoc (h : Passes stride start stop) (hunder : stride stop.offset = some s)
    (hlength : 0 < s.length) (hwidth : 0 < s.width) : Passes stride start (stop.next s) :=
  h.trans (.step hunder hlength hwidth (.here _))

/-- On the way past `goal` there is a first mark that has it. -/
theorem exists_first (h : Passes stride start stop) {goal : Nat} (hgoal : goal ≤ stop.measure) :
    ∃ mid, Passes stride start mid ∧ Passes stride mid stop ∧ goal ≤ mid.measure ∧
      ∀ before, Passes stride start before → Passes stride before mid →
        before.offset < mid.offset → before.measure < goal := by
  induction h with
  | here mark =>
      refine ⟨mark, .here _, .here _, hgoal, fun before hbefore _ hlt => ?_⟩
      exact absurd hbefore.offset_le (Nat.not_le.2 hlt)
  | step hunder hlength hwidth rest ih =>
      rename_i mark stop s
      by_cases hdone : goal ≤ mark.measure
      · refine ⟨mark, .here _, .step hunder hlength hwidth rest, hdone, fun before hbefore _ hlt => ?_⟩
        exact absurd hbefore.offset_le (Nat.not_le.2 hlt)
      · obtain ⟨mid, hmid, hrest, hle, hfirst⟩ := ih hgoal
        refine ⟨mid, .step hunder hlength hwidth hmid, hrest, hle, fun before hbefore hto hlt => ?_⟩
        cases hbefore with
        | here => exact Nat.lt_of_not_le hdone
        | step hunder' _ _ hbefore =>
            obtain rfl := Option.some.inj (hunder.symm.trans hunder')
            exact hfirst before hbefore hto hlt

end Passes

variable (other more fuel) in
/-- A loop that wants more until the end of a way, and goes that way, stops there. -/
theorem walk_eq_of_agree (h : Passes stride start stop)
    (hagree : ∀ mid, Passes stride start mid → mid.offset < stop.offset →
      other mid.offset = stride mid.offset)
    (hmore : ∀ mid, Passes stride start mid → Passes stride mid stop → mid.offset < stop.offset →
      more mid = true) (hstop : more stop = false) (hfuel : stop.offset - start.offset < fuel) :
    walk other more fuel start = some stop := by
  induction h generalizing fuel with
  | here mark =>
      cases fuel with
      | zero => cases hfuel
      | succ fuel => simp [walk, hstop]
  | step hunder hlength hwidth rest ih =>
      rename_i mark stop s
      have hle : mark.offset + s.length ≤ stop.offset := rest.offset_le
      have hlt : mark.offset < stop.offset := by omega
      cases fuel with
      | zero => cases hfuel
      | succ fuel =>
          have hmark := hmore mark (.here _) (.step hunder hlength hwidth rest) hlt
          have hother := (hagree mark (.here _) hlt).trans hunder
          have hrest := ih fuel
            (fun mid hmid => hagree mid (.step hunder hlength hwidth hmid))
            (fun mid hmid => hmore mid (.step hunder hlength hwidth hmid)) hstop
            (by simp only [Mark.next]; omega)
          simp [walk, hmark, hother, hrest]

variable (more fuel) in
theorem walk_eq (h : Passes stride start stop)
    (hmore : ∀ mid, Passes stride start mid → Passes stride mid stop → mid.offset < stop.offset →
      more mid = true) (hstop : more stop = false) (hfuel : stop.offset - start.offset < fuel) :
    walk stride more fuel start = some stop :=
  walk_eq_of_agree stride more fuel h (fun _ _ _ => rfl) hmore hstop hfuel

variable (stride more start fuel) in
/-- A loop that is always over something inside a bound ends, and within it. -/
theorem walk_total (bound : Nat) (hinside : ∀ mark, more mark = true → ∃ s,
      stride mark.offset = some s ∧ 0 < s.length ∧ mark.offset + s.length ≤ bound)
    (hstart : start.offset ≤ bound) (hfuel : bound - start.offset < fuel) :
    ∃ stop, walk stride more fuel start = some stop ∧ stop.offset ≤ bound := by
  induction fuel generalizing start with
  | zero => cases hfuel
  | succ fuel ih =>
      rw [walk]
      cases hmore : more start with
      | false => exact ⟨start, rfl, hstart⟩
      | true =>
          obtain ⟨s, hs, hpos, hle⟩ := hinside start hmore
          have hless : bound - (start.next s).offset < fuel := by
            simp only [Mark.next]
            omega
          obtain ⟨stop, hwalk, hstop⟩ := ih (start.next s) hle hless
          rw [hs]
          exact ⟨stop, hwalk, hstop⟩

end Ned.Library
