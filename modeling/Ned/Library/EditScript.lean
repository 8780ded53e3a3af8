import Mathlib.Data.Int.Order.Basic
import Mathlib.Data.List.Basic
import Mathlib.Logic.Function.Basic

/-!
# Edit scripts

A script cuts two lists into the runs they share and the changes between those.
-/

namespace Ned.Library

/-- A shared run, and what stands behind it in either list. -/
structure Segment (α : Type) where
  kept : List α
  removed : List α
  added : List α

namespace Segment

variable {α : Type}

/-- The list from which the script leads, with the run behind its last change. -/
def before : List (Segment α) → List α → List α
  | [], tail => tail
  | segment :: segments, tail => segment.kept ++ (segment.removed ++ before segments tail)

/-- The list to which it leads. -/
def after : List (Segment α) → List α → List α
  | [], tail => tail
  | segment :: segments, tail => segment.kept ++ (segment.added ++ after segments tail)

@[simp] theorem before_cons (segment : Segment α) (segments : List (Segment α)) (tail : List α) :
    before (segment :: segments) tail =
      segment.kept ++ (segment.removed ++ before segments tail) := rfl

@[simp] theorem after_cons (segment : Segment α) (segments : List (Segment α)) (tail : List α) :
    after (segment :: segments) tail =
      segment.kept ++ (segment.added ++ after segments tail) := rfl

/-- Two changes as one, with the run between them in both of its sides. -/
def join (segment next : Segment α) : Segment α :=
  { kept := segment.kept
    removed := segment.removed ++ (next.kept ++ next.removed)
    added := segment.added ++ (next.kept ++ next.added) }

/-- Every change changes something, and a run stands between it and the one before. -/
structure Separated (segments : List (Segment α)) : Prop where
  changed : ∀ segment ∈ segments, segment.removed ≠ [] ∨ segment.added ≠ []
  apart : ∀ segment ∈ segments.tail, segment.kept ≠ []

section

variable {segments : List (Segment α)} {segment : Segment α} {tail run : List α}

theorem before_run : before segments (tail ++ run) = before segments tail ++ run := by
  induction segments with
  | nil => rfl
  | cons segment segments ih => simp only [before_cons, ih, List.append_assoc]

theorem after_run : after segments (tail ++ run) = after segments tail ++ run := by
  induction segments with
  | nil => rfl
  | cons segment segments ih => simp only [after_cons, ih, List.append_assoc]

theorem before_snoc : before (segments ++ [segment]) tail =
    before segments segment.kept ++ (segment.removed ++ tail) := by
  induction segments with
  | nil => rfl
  | cons head segments ih => simp only [List.cons_append, before_cons, ih, List.append_assoc]

theorem after_snoc : after (segments ++ [segment]) tail =
    after segments segment.kept ++ (segment.added ++ tail) := by
  induction segments with
  | nil => rfl
  | cons head segments ih => simp only [List.cons_append, after_cons, ih, List.append_assoc]

theorem before_join {next : Segment α} :
    before (segment.join next :: segments) tail = before (segment :: next :: segments) tail := by
  simp only [before_cons, join, List.append_assoc]

theorem after_join {next : Segment α} :
    after (segment.join next :: segments) tail = after (segment :: next :: segments) tail := by
  simp only [after_cons, join, List.append_assoc]

theorem Separated.nil : Separated ([] : List (Segment α)) where
  changed := fun _ h => absurd h List.not_mem_nil
  apart := fun _ h => absurd h List.not_mem_nil

theorem Separated.of_cons (h : Separated (segment :: segments)) : Separated segments where
  changed := fun _ hmem => h.changed _ (List.mem_cons_of_mem _ hmem)
  apart := fun _ hmem => h.apart _ (List.mem_of_mem_tail hmem)

theorem Separated.snoc (h : Separated segments)
    (hchanged : segment.removed ≠ [] ∨ segment.added ≠ [])
    (hapart : segments ≠ [] → segment.kept ≠ []) : Separated (segments ++ [segment]) := by
  constructor
  · intro other hmem
    rcases List.mem_append.1 hmem with hmem | hmem
    · exact h.changed other hmem
    · rwa [List.mem_singleton.1 hmem]
  · intro other hmem
    cases segments with
    | nil => exact absurd hmem List.not_mem_nil
    | cons head segments =>
        rw [List.cons_append, List.tail_cons] at hmem
        rcases List.mem_append.1 hmem with hmem | hmem
        · exact h.apart other hmem
        · rw [List.mem_singleton.1 hmem]
          exact hapart (List.cons_ne_nil _ _)

/-- What is left of a separated script without its last change. -/
theorem Separated.init (h : Separated (segments ++ [segment])) :
    Separated segments ∧ (segments ≠ [] → segment.kept ≠ []) := by
  refine ⟨⟨fun other hmem => h.changed other (List.mem_append_left _ hmem), ?_⟩, ?_⟩
  · intro other hmem
    apply h.apart other
    cases segments with
    | nil => exact absurd hmem List.not_mem_nil
    | cons head segments => exact List.mem_append_left _ hmem
  · intro hne
    apply h.apart
    cases segments with
    | nil => exact absurd rfl hne
    | cons head segments => exact List.mem_append_right _ List.mem_cons_self

end

end Segment

end Ned.Library

/-!
## Wavefronts

A search through a box of `n` columns and `m` rows, by diagonals. Diagonal `k` holds the points
whose column is `k` more than their row, and a wave knows the furthest column it has reached on
each. A sweep pushes it on along every other diagonal of a range.
-/

namespace Ned.Library

/-- How far each diagonal has been reached, and the range of the next sweep. -/
structure Wave where
  reach : Int → Int
  lo : Int
  up : Int

namespace Wave

/-- Where a diagonal is entered from the two beside it. -/
def entry (w : Wave) (k : Int) : Int := max (w.reach (k - 1) + 1) (w.reach (k + 1))

/-- Every other diagonal of a range. -/
def Passed (low high j : Int) : Prop := low ≤ j ∧ j ≤ high ∧ (j - low) % 2 = 0

/-- The range of the next sweep is one wider at either end. -/
def widen (w : Wave) : Wave := { w with lo := w.lo - 1, up := w.up + 1 }

/-- The same wave with rows for columns. -/
def flip (w : Wave) : Wave :=
  { reach := fun j => w.reach (-j) + j, lo := -w.up, up := -w.lo }

/-- Diagonal `k` reached as far as `x`. One that leaves the box shortens the range. -/
def push (n m : Int) (w : Wave) (k x : Int) : Wave :=
  { reach := Function.update w.reach k x
    lo := if x ≤ n ∧ m < x - k then w.lo + 2 else w.lo
    up := if n < x then w.up - 2 else w.up }

@[simp] theorem widen_reach (w : Wave) : w.widen.reach = w.reach := rfl

@[simp] theorem widen_lo (w : Wave) : w.widen.lo = w.lo - 1 := rfl

@[simp] theorem widen_up (w : Wave) : w.widen.up = w.up + 1 := rfl

theorem push_self (n m : Int) (w : Wave) (k x : Int) : (w.push n m k x).reach k = x :=
  Function.update_self _ _ _

theorem push_of_ne {n m k x j : Int} (w : Wave) (h : j ≠ k) :
    (w.push n m k x).reach j = w.reach j :=
  Function.update_of_ne h _ _

@[simp] theorem flip_reach (w : Wave) (j : Int) : w.flip.reach j = w.reach (-j) + j := rfl

@[simp] theorem flip_lo (w : Wave) : w.flip.lo = -w.up := rfl

@[simp] theorem flip_up (w : Wave) : w.flip.up = -w.lo := rfl

theorem flip_entry (w : Wave) (j : Int) : w.flip.entry j = w.entry (-j) + j := by
  have hbelow : -(j - 1) = -j + 1 := by omega
  have habove : -(j + 1) = -j - 1 := by omega
  simp only [entry, flip_reach, hbelow, habove]
  omega

/-! ## Sweeps -/

section

variable {n m high k x j : Int} {seen : Int → Prop} {w w' : Wave}

theorem not_passed_empty (h : high < k) : ¬ Passed k high j := by
  intro hj
  have hle := hj.1
  have hge := hj.2.1
  omega

theorem passed_next (heven : (high - k) % 2 = 0) (hle : k ≤ high + 2) :
    Passed k (high + 2) j ↔ Passed k high j ∨ j = high + 2 := by
  simp only [Passed]
  omega

/-- What is known of a wave `w'` once a sweep from `w` has passed the diagonals up to `high`. -/
structure Sweep (n m : Int) (seen : Int → Prop) (w : Wave) (high : Int) (w' : Wave) : Prop where
  high_even : (high - w.lo) % 2 = 0
  lo_even : (w'.lo - w.lo) % 2 = 0
  up_even : (w'.up - w.up) % 2 = 0
  kept : ∀ j, ¬ Passed w.lo high j → w'.reach j = w.reach j
  reached : ∀ j, Passed w.lo high j → w.entry j ≤ w'.reach j
  entered : ∀ j, Passed w.lo high j → n < w'.reach j ∨ m < w'.reach j - j →
    seen (j - 1) ∧ w'.reach j = w.reach (j - 1) + 1 ∨ seen (j + 1) ∧ w'.reach j = w.reach (j + 1)
  lo_le : w.lo ≤ w'.lo
  lo_le_next : w'.lo ≤ high + 2
  up_le : w'.up ≤ w.up
  high_le : w.lo ≤ high → high ≤ w.up ∧ high ≤ w'.up + 2
  lowered : w'.lo = w.lo ∨ ∃ j, Passed w.lo high j ∧ m < w'.reach j - j ∧ w'.lo ≤ j + 2
  raised : w'.up = w.up ∨ ∃ j, Passed w.lo high j ∧ n < w'.reach j ∧ j - 2 ≤ w'.up

theorem Sweep.start : Sweep n m seen w (w.lo - 2) w where
  high_even := by omega
  lo_even := by omega
  up_even := by omega
  kept := fun _ _ => rfl
  reached := fun _ h => absurd h (not_passed_empty (by omega))
  entered := fun _ h => absurd h (not_passed_empty (by omega))
  lo_le := Int.le_refl _
  lo_le_next := by omega
  up_le := Int.le_refl _
  high_le := by omega
  lowered := .inl rfl
  raised := .inl rfl

theorem Sweep.next_le (h : Sweep n m seen w high w') : w.lo ≤ high + 2 :=
  Int.le_trans h.lo_le h.lo_le_next

theorem push_passed (hj : Passed k high j) :
    (w.push n m (high + 2) x).reach j = w.reach j := by
  apply w.push_of_ne
  have hle := hj.2.1
  omega

/-- A diagonal that was entered where its neighbours said, and left the box only at once. -/
theorem Sweep.push (h : Sweep n m seen w high w') (hle : high + 2 ≤ w'.up)
    (hreached : w.entry (high + 2) ≤ x)
    (hentered : n < x ∨ m < x - (high + 2) →
      seen (high + 1) ∧ x = w.reach (high + 1) + 1 ∨ seen (high + 3) ∧ x = w.reach (high + 3)) :
    Sweep n m seen w (high + 2) (w'.push n m (high + 2) x) := by
  have hself : (w'.push n m (high + 2) x).reach (high + 2) = x := push_self n m w' _ x
  have hold : ∀ {j}, Passed w.lo high j →
      (w'.push n m (high + 2) x).reach j = w'.reach j := push_passed
  have hnext : ∀ {j}, Passed w.lo (high + 2) j ↔ Passed w.lo high j ∨ j = high + 2 :=
    passed_next h.high_even h.next_le
  have hlast : Passed w.lo (high + 2) (high + 2) := hnext.2 (.inr rfl)
  have heven := h.high_even
  have hlo := h.lo_le_next
  have hlo' := h.lo_le
  have hup := h.up_le
  have hloEven := h.lo_even
  have hupEven := h.up_even
  constructor
  case high_even => omega
  case lo_even => simp only [Wave.push]; split <;> omega
  case up_even => simp only [Wave.push]; split <;> omega
  case kept =>
    intro j hj
    have hne : j ≠ high + 2 := fun heq => hj (hnext.2 (.inr heq))
    rw [← h.kept j fun hold => hj (hnext.2 (.inl hold))]
    exact w'.push_of_ne hne
  case reached =>
    intro j hj
    rcases hnext.1 hj with hj | rfl
    · rw [hold hj]
      exact h.reached j hj
    · rwa [hself]
  case entered =>
    intro j hj
    rcases hnext.1 hj with hj | rfl
    · rw [hold hj]
      exact h.entered j hj
    · have hbelow : high + 2 - 1 = high + 1 := by omega
      have habove : high + 2 + 1 = high + 3 := by omega
      rw [hself, hbelow, habove]
      exact hentered
  case lo_le => simp only [Wave.push]; split <;> omega
  case lo_le_next => simp only [Wave.push]; split <;> omega
  case up_le => simp only [Wave.push]; split <;> omega
  case high_le => intro _; simp only [Wave.push]; split <;> omega
  case lowered =>
    by_cases hout : x ≤ n ∧ m < x - (high + 2)
    · right
      refine ⟨high + 2, hlast, by rw [hself]; exact hout.2, ?_⟩
      simp only [Wave.push, if_pos hout]
      omega
    · have hsame : (w'.push n m (high + 2) x).lo = w'.lo := if_neg hout
      rw [hsame]
      apply h.lowered.imp_right
      rintro ⟨j, hj, hrow, hbound⟩
      exact ⟨j, hnext.2 (.inl hj), by rwa [hold hj], hbound⟩
  case raised =>
    by_cases hout : n < x
    · right
      refine ⟨high + 2, hlast, by rw [hself]; exact hout, ?_⟩
      simp only [Wave.push, if_pos hout]
      omega
    · have hsame : (w'.push n m (high + 2) x).up = w'.up := if_neg hout
      rw [hsame]
      apply h.raised.imp_right
      rintro ⟨j, hj, hcolumn, hbound⟩
      exact ⟨j, hnext.2 (.inl hj), by rwa [hold hj], hbound⟩

end

/-! ## The diagonals that have been reached -/

/-- Before sweep `e` the diagonals from `first` to `last` have been reached, each at a point. The
diagonal `1` may hold the column `0` that the first sweep starts from. -/
structure Reached (e first last : Int) (w : Wave) : Prop where
  pos : 1 ≤ e
  first_ge : 1 - e ≤ first
  first_le : first ≤ 0
  last_ge : 0 ≤ last
  last_le : last ≤ e - 1
  lo_even : (w.lo - e) % 2 = 0
  up_even : (w.up - e) % 2 = 0
  lo_ge : -e ≤ w.lo
  up_le : w.up ≤ e
  lo_beside : first - 1 ≤ w.lo ∧ w.lo ≤ last + 1
  up_beside : first - 1 ≤ w.up ∧ w.up ≤ last + 1
  column : ∀ j, first ≤ j → j ≤ last → 0 ≤ w.reach j
  row : ∀ j, first ≤ j → j ≤ last → j ≤ w.reach j
  unseen : ∀ j, j < first ∨ last < j → w.reach j = -1 ∨ j = 1 ∧ w.reach j = 0
  spread : first < 0 ∨ e = 1 ∧ w.lo = -1 ∧ w.up = 1

section

variable {n m e first last high k : Int} {w w' : Wave}

theorem Reached.reach_ge (h : Reached e first last w) (j : Int) : -1 ≤ w.reach j := by
  by_cases hseen : first ≤ j ∧ j ≤ last
  · exact Int.le_trans (by decide) (h.column j hseen.1 hseen.2)
  · rcases h.unseen j (by omega) with hj | hj <;> omega

theorem Reached.entry_nonneg (h : Reached e first last w) (k : Int) : 0 ≤ w.entry k := by
  have hbelow := h.reach_ge (k - 1)
  simp only [entry]
  omega

theorem Reached.entry_ge (h : Reached e first last w) (hk : k ≤ w.up) : k ≤ w.entry k := by
  rcases Int.lt_or_le 0 k with hpos | hneg
  · have hfirst := h.first_le
    have hlast := h.up_beside.2
    have hrow := h.row (k - 1) (by omega) (by omega)
    simp only [entry]
    omega
  · exact Int.le_trans hneg (h.entry_nonneg k)

/-- The lowest diagonal of all is only entered from above. -/
theorem Reached.entry_lowest (h : Reached e first last w) (hlo : w.lo ≤ -e) :
    w.entry (-e) = w.reach (-e + 1) := by
  have hfirst := h.lo_beside.1
  have hle := h.first_le
  have hpos := h.pos
  have hlast := h.last_ge
  have hcolumn := h.column (-e + 1) (by omega) (by omega)
  have hunseen := h.unseen (-e - 1) (.inl (by have hge := h.first_ge; omega))
  simp only [entry]
  omega

/-- The highest is only entered from below. -/
theorem Reached.entry_highest (h : Reached e first last w) :
    w.entry e = w.reach (e - 1) + 1 := by
  have hpos := h.pos
  have hbelow := h.reach_ge (e - 1)
  have hunseen := h.unseen (e + 1) (.inr (by have hle := h.last_le; omega))
  simp only [entry]
  omega

/-- A diagonal of the next sweep is entered from one that has been reached. -/
theorem Reached.entry_source (h : Reached e first last w) (hlo : w.lo ≤ k) (hup : k ≤ w.up)
    (heven : (k - e) % 2 = 0) :
    (first ≤ k - 1 ∧ k - 1 ≤ last) ∧ w.entry k = w.reach (k - 1) + 1 ∨
      (first ≤ k + 1 ∧ k + 1 ≤ last) ∧ w.entry k = w.reach (k + 1) := by
  have hlo' := h.lo_beside
  have hup' := h.up_beside
  have hfirst := h.first_le
  have hlast := h.last_ge
  have hspread := h.spread
  have hentry : w.entry k = max (w.reach (k - 1) + 1) (w.reach (k + 1)) := rfl
  by_cases hbelow : first ≤ k - 1 ∧ k - 1 ≤ last <;>
    by_cases habove : first ≤ k + 1 ∧ k + 1 ≤ last
  · omega
  · have hcolumn := h.column (k - 1) hbelow.1 hbelow.2
    have hunseen := h.unseen (k + 1) (by omega)
    omega
  · have hcolumn := h.column (k + 1) habove.1 habove.2
    have hunseen := h.unseen (k - 1) (by omega)
    omega
  · have hle := h.last_le
    have hge := h.first_ge
    omega

/-- What a sweep adds to the reached diagonals still makes a range. -/
theorem Reached.sweep (h : Reached e first last w)
    (hs : Sweep n m (fun j => first ≤ j ∧ j ≤ last) w high w') (hover : w'.up < high + 2)
    (hrow : ∀ j, Passed w.lo high j → j ≤ w'.reach j) :
    ∃ first' last', Reached (e + 1) first' last' w'.widen ∧
      ∀ j, first' ≤ j ∧ j ≤ last' ↔ (first ≤ j ∧ j ≤ last) ∨ Passed w.lo high j := by
  have hpos := h.pos
  have hfirst := h.first_le
  have hfirst' := h.first_ge
  have hlast := h.last_ge
  have hlast' := h.last_le
  have hlo := h.lo_beside
  have hup := h.up_beside
  have hlo' := hs.lo_le
  have hnext := hs.lo_le_next
  have hup' := hs.up_le
  have hspread := h.spread
  have hparity := hs.high_even
  have hloParity := hs.lo_even
  have hupParity := hs.up_even
  have hloEven := h.lo_even
  have hupEven := h.up_even
  have hloGe := h.lo_ge
  have hupLe := h.up_le
  have hcolumn : ∀ j, Passed w.lo high j → 0 ≤ w'.reach j := fun j hj =>
    Int.le_trans (h.entry_nonneg j) (hs.reached j hj)
  have hlower : w'.widen.lo = w'.lo - 1 := rfl
  have hupper : w'.widen.up = w'.up + 1 := rfl
  by_cases hsome : w.lo ≤ high
  · have hhigh := hs.high_le hsome
    have hseen : ∀ j, min first w.lo ≤ j ∧ j ≤ max last high ↔
        (first ≤ j ∧ j ≤ last) ∨ Passed w.lo high j := by
      intro j
      simp only [Passed]
      omega
    refine ⟨min first w.lo, max last high, ?_, hseen⟩
    constructor
    case column =>
      intro j hj hj'
      by_cases hpassed : Passed w.lo high j
      · exact hcolumn j hpassed
      · have hold := ((hseen j).1 ⟨hj, hj'⟩).resolve_right hpassed
        rw [widen_reach, hs.kept j hpassed]
        exact h.column j hold.1 hold.2
    case row =>
      intro j hj hj'
      by_cases hpassed : Passed w.lo high j
      · exact hrow j hpassed
      · have hold := ((hseen j).1 ⟨hj, hj'⟩).resolve_right hpassed
        rw [widen_reach, hs.kept j hpassed]
        exact h.row j hold.1 hold.2
    case unseen =>
      intro j hj
      have hnot : ¬ ((first ≤ j ∧ j ≤ last) ∨ Passed w.lo high j) := by
        rw [← hseen]
        omega
      rw [widen_reach, hs.kept j fun hpassed => hnot (.inr hpassed)]
      exact h.unseen j (by omega)
    all_goals omega
  · have hnone : ∀ j, ¬ Passed w.lo high j := fun j => not_passed_empty (by omega)
    have hsame : ∀ j, w'.reach j = w.reach j := fun j => hs.kept j (hnone j)
    have hraised : w'.up = w.up := by
      apply hs.raised.resolve_right
      rintro ⟨j, hj, _⟩
      exact hnone j hj
    refine ⟨first, last, ?_, fun j => ⟨.inl, fun hj => hj.resolve_right (hnone j)⟩⟩
    constructor
    case column => simpa only [widen_reach, hsame] using h.column
    case row => simpa only [widen_reach, hsame] using h.row
    case unseen => simpa only [widen_reach, hsame] using h.unseen
    all_goals omega

end

/-! ## The far sides -/

/-- A sweep that is over, from `low` to `high`. -/
structure Swept (n m : Int) (seen : Int → Prop) (w : Wave) (low high : Int) (w' : Wave) : Prop where
  even : (w.up - w.lo) % 2 = 0
  inside : ∀ j, Passed low high j → w.lo ≤ j ∧ j ≤ w.up
  high_even : (high - low) % 2 = 0
  low_even : (low - w.lo) % 2 = 0
  lo_even : (w'.lo - w.lo) % 2 = 0
  up_even : (w'.up - w.up) % 2 = 0
  kept : ∀ j, ¬ Passed low high j → w'.reach j = w.reach j
  reached : ∀ j, Passed low high j → w.entry j ≤ w'.reach j
  entered : ∀ j, Passed low high j → n < w'.reach j ∨ m < w'.reach j - j →
    seen (j - 1) ∧ w'.reach j = w.reach (j - 1) + 1 ∨ seen (j + 1) ∧ w'.reach j = w.reach (j + 1)
  low_le : low ≤ w'.lo
  le_high : w'.up ≤ high
  lowered : w'.lo ≤ w.lo ∧ low ≤ w.lo ∨
    ∃ j, Passed low high j ∧ m < w'.reach j - j ∧ w'.lo ≤ j + 2
  raised : w.up ≤ w'.up ∧ w.up ≤ high ∨
    ∃ j, Passed low high j ∧ n < w'.reach j ∧ j - 2 ≤ w'.up

/-- Before sweep `e` a wave that has not met the one from the opposite corner is near the far
sides of the box only beyond the diagonals that one has come to. Its last sweep went from `low` to
`high`. -/
structure Confined (n m e : Int) (seen : Int → Prop) (low high : Int) (w : Wave) : Prop where
  pos : 1 ≤ e
  even : (n - m) % 2 = 0
  within : ∀ j, seen j → 1 - e ≤ j ∧ j ≤ e - 1
  lo_even : (w.lo - e) % 2 = 0
  up_even : (w.up - e) % 2 = 0
  low_even : (low - e) % 2 = 1
  touchRight : ∀ j, seen j → n ≤ w.reach j → n - m + e ≤ j
  touchBottom : ∀ j, seen j → m ≤ w.reach j - j → j ≤ n - m - e
  pastRight : ∀ j, seen j → n < w.reach j → seen (j - 1) ∧ w.reach j ≤ w.reach (j - 1) + 1
  pastBottom : ∀ j, seen j → m < w.reach j - j → seen (j + 1) ∧ w.reach j ≤ w.reach (j + 1)
  fresh : ∀ j, Passed low high j → seen j ∧ w.entry j ≤ w.reach j
  high_even : (high - low) % 2 = 0
  low_le : low ≤ w.lo + 1
  le_high : w.up ≤ high + 1
  low_far : low ≤ 1 - e ∨ low ≤ n - m - e + 2
  high_far : e - 1 ≤ high ∨ n - m + e - 2 ≤ high
  lo_far : w.lo ≤ -e ∨ w.lo ≤ n - m - e + 1
  up_far : e ≤ w.up ∨ n - m + e - 1 ≤ w.up

/-- Where both waves have come by sweep `e`, this one is short of the far sides. -/
def Clear (n m e : Int) (w : Wave) : Prop :=
  ∀ j, -e ≤ j → j ≤ e → n - m - e ≤ j → j ≤ n - m + e → (j - e) % 2 = 0 →
    w.reach j < n ∧ w.reach j - j < m

section

variable {n m e low high low' high' j : Int} {seen : Int → Prop} {w w' : Wave}

theorem Sweep.swept (h : Sweep n m seen w high w') (heven : (w.up - w.lo) % 2 = 0)
    (hover : w'.up < high + 2) : Swept n m seen w w.lo high w' := by
  have hhigh := h.high_even
  have hup := h.up_even
  have hle : w'.up ≤ high := by omega
  exact
    { even := heven
      inside := fun j hj =>
        ⟨hj.1, Int.le_trans hj.2.1 (h.high_le (Int.le_trans hj.1 hj.2.1)).1⟩
      high_even := hhigh
      low_even := by omega
      lo_even := h.lo_even
      up_even := hup
      kept := h.kept
      reached := h.reached
      entered := h.entered
      low_le := h.lo_le
      le_high := hle
      lowered := h.lowered.imp_left fun heq => ⟨Int.le_of_eq heq, Int.le_refl _⟩
      raised := h.raised.imp_left fun heq => ⟨Int.le_of_eq heq.symm, by omega⟩ }

theorem passed_flip (h : (high - low) % 2 = 0) :
    Passed (-high) (-low) j ↔ Passed low high (-j) := by
  simp only [Passed]
  omega

theorem Swept.flip (h : Swept n m seen w low high w') :
    Swept m n (fun j => seen (-j)) w.flip (-high) (-low) w'.flip := by
  have hpassed : ∀ {j}, Passed (-high) (-low) j ↔ Passed low high (-j) := passed_flip h.high_even
  have hhigh := h.high_even
  have hlow := h.low_even
  have hlo := h.lo_even
  have hup := h.up_even
  have hlowLe := h.low_le
  have hleHigh := h.le_high
  have heven := h.even
  constructor
  case inside =>
    intro j hj
    have hrange := h.inside (-j) (hpassed.1 hj)
    simp only [flip_lo, flip_up]
    omega
  case kept =>
    intro j hj
    rw [flip_reach, flip_reach, h.kept (-j) (mt hpassed.2 hj)]
  case reached =>
    intro j hj
    have hle := h.reached (-j) (hpassed.1 hj)
    rw [flip_entry, flip_reach]
    omega
  case entered =>
    intro j hj hout
    have hbelow : -(j - 1) = -j + 1 := by omega
    have habove : -(j + 1) = -j - 1 := by omega
    simp only [flip_reach, hbelow, habove] at hout ⊢
    rcases h.entered (-j) (hpassed.1 hj) (by omega) with hsource | hsource
    · right
      exact ⟨hsource.1, by omega⟩
    · left
      exact ⟨hsource.1, by omega⟩
  case lowered =>
    rcases h.raised with hsame | ⟨j, hj, hout, hbound⟩
    · left
      simp only [flip_lo]
      omega
    · right
      refine ⟨-j, hpassed.2 (by rwa [Int.neg_neg]), ?_, ?_⟩
      · rw [flip_reach, Int.neg_neg]
        omega
      · rw [flip_lo]
        omega
  case raised =>
    rcases h.lowered with hsame | ⟨j, hj, hout, hbound⟩
    · left
      simp only [flip_up]
      omega
    · right
      refine ⟨-j, hpassed.2 (by rwa [Int.neg_neg]), ?_, ?_⟩
      · rw [flip_reach, Int.neg_neg]
        omega
      · rw [flip_up]
        omega
  all_goals first | omega | (simp only [flip_lo, flip_up]; omega)

theorem Confined.flip (h : Confined n m e seen low high w) :
    Confined m n e (fun j => seen (-j)) (-high) (-low) w.flip := by
  have hpos := h.pos
  have heven := h.even
  have hloEven := h.lo_even
  have hupEven := h.up_even
  have hlowEven := h.low_even
  have hhighEven := h.high_even
  have hlowLe := h.low_le
  have hleHigh := h.le_high
  have hlowFar := h.low_far
  have hhighFar := h.high_far
  have hloFar := h.lo_far
  have hupFar := h.up_far
  have hbelow : ∀ j : Int, -(j - 1) = -j + 1 := by omega
  have habove : ∀ j : Int, -(j + 1) = -j - 1 := by omega
  constructor
  case within =>
    intro j hj
    have hrange := h.within (-j) hj
    omega
  case touchRight =>
    intro j hj hout
    rw [flip_reach] at hout
    have hfar := h.touchBottom (-j) hj (by omega)
    omega
  case touchBottom =>
    intro j hj hout
    rw [flip_reach] at hout
    have hfar := h.touchRight (-j) hj (by omega)
    omega
  case pastRight =>
    intro j hj hout
    simp only [flip_reach, hbelow] at hout ⊢
    have hpast := h.pastBottom (-j) hj (by omega)
    exact ⟨hpast.1, by omega⟩
  case pastBottom =>
    intro j hj hout
    simp only [flip_reach, habove] at hout ⊢
    have hpast := h.pastRight (-j) hj (by omega)
    exact ⟨hpast.1, by omega⟩
  case fresh =>
    intro j hj
    have hfresh := h.fresh (-j) ((passed_flip hhighEven).1 hj)
    rw [flip_entry, flip_reach]
    exact ⟨hfresh.1, by omega⟩
  all_goals first | omega | (simp only [flip_lo, flip_up]; omega)

/-- A diagonal that leaves the box on the right does so beyond the other wave. -/
theorem Confined.right_of_swept (h : Confined n m e seen low' high' w)
    (hs : Swept n m seen w low high w') (hj : Passed low high j) (hout : n < w'.reach j) :
    n - m + e + 1 ≤ j ∧ seen (j - 1) ∧ w'.reach j ≤ w.reach (j - 1) + 1 := by
  rcases hs.entered j hj (.inl hout) with ⟨hseen, hreach⟩ | ⟨hseen, hreach⟩
  · have htouch := h.touchRight (j - 1) hseen (by omega)
    exact ⟨by omega, hseen, by omega⟩
  · -- entered from above, from a diagonal past the side: the last sweep came to the one below as
    -- well, and left it so far on that it gives the same column
    have heq : j + 1 - 1 = j := by omega
    have hpast := h.pastRight (j + 1) hseen (by omega)
    rw [heq] at hpast
    have htouch := h.touchRight j hpast.1 (by omega)
    have hwithin := h.within j hpast.1
    have hlast : Passed low' high' (j - 1) := by
      have hlow := h.low_far
      have hlowEven := h.low_even
      have hhigh := h.le_high
      have hloEven := h.lo_even
      have hloEven' := hs.low_even
      have hhighEven := h.high_even
      have hle := (hs.inside j hj).2
      have hparity := hj.2.2
      have hpos := h.pos
      simp only [Passed]
      omega
    obtain ⟨hseen', hfresh⟩ := h.fresh (j - 1) hlast
    have hle : w.reach j ≤ w.reach (j - 1) := by
      apply Int.le_trans _ hfresh
      simp only [entry, Int.sub_add_cancel]
      omega
    have htouch' := h.touchRight (j - 1) hseen' (by omega)
    exact ⟨by omega, hseen', by omega⟩

theorem Confined.bottom_of_swept (h : Confined n m e seen low' high' w)
    (hs : Swept n m seen w low high w') (hj : Passed low high j) (hout : m < w'.reach j - j) :
    j ≤ n - m - e - 1 ∧ seen (j + 1) ∧ w'.reach j ≤ w.reach (j + 1) := by
  have hj' : Passed (-high) (-low) (-j) := (passed_flip hs.high_even).2 (by rwa [Int.neg_neg])
  have hneg : -(-j - 1) = j + 1 := by omega
  obtain ⟨hfar, hseen, hle⟩ :=
    h.flip.right_of_swept hs.flip hj' (by rw [flip_reach, Int.neg_neg]; omega)
  rw [hneg] at hseen
  simp only [flip_reach, hneg, Int.neg_neg] at hle
  exact ⟨by omega, hseen, by omega⟩

theorem Clear.flip (h : Clear n m e w) : Clear m n e w.flip := by
  intro j hge hle hge' hle' heven
  obtain ⟨hcolumn, hrow⟩ := h (-j) (by omega) (by omega) (by omega) (by omega) (by omega)
  rw [flip_reach]
  omega

theorem Swept.even_of_passed (hs : Swept n m seen w low high w')
    (h : Confined n m e seen low' high' w) (hj : Passed low high j) : (j - e) % 2 = 0 := by
  have hlow := hs.low_even
  have hlo := h.lo_even
  have hparity := hj.2.2
  omega

/-- The diagonals beside one that was passed stay as they were. -/
theorem Swept.kept_beside (h : Swept n m seen w low high w') (hj : Passed low high j) :
    w'.reach (j - 1) = w.reach (j - 1) ∧ w'.reach (j + 1) = w.reach (j + 1) := by
  have hparity := hj.2.2
  have hnot : ∀ k, (k - low) % 2 = 1 → ¬ Passed low high k := by
    intro k hodd hk
    have heven := hk.2.2
    omega
  exact ⟨h.kept _ (hnot _ (by omega)), h.kept _ (hnot _ (by omega))⟩

theorem Confined.sweep_touchRight (h : Confined n m e seen low' high' w)
    (hs : Swept n m seen w low high w') (hwithin : ∀ j, Passed low high j → -e ≤ j ∧ j ≤ e)
    (hclear : Clear n m e w') (hj : seen j ∨ Passed low high j) (htouch : n ≤ w'.reach j) :
    n - m + (e + 1) ≤ j := by
  have hpos := h.pos
  by_cases hpassed : Passed low high j
  · have heven := hs.even_of_passed h hpassed
    have hrange := hwithin j hpassed
    rcases Int.lt_or_eq_of_le htouch with hout | heq
    · have hright := (h.right_of_swept hs hpassed hout).1
      omega
    · rcases Int.lt_or_le j (n - m - e) with hlow | hge
      · -- past the bottom as well, which leaves nothing to the right
        obtain ⟨_, hseen, hle⟩ := h.bottom_of_swept hs hpassed (by omega)
        have hright := h.touchRight (j + 1) hseen (by omega)
        omega
      · by_contra hlt
        have hinside := (hclear j hrange.1 hrange.2 hge (by omega) heven).1
        omega
  · have hseen := hj.resolve_right hpassed
    rw [hs.kept j hpassed] at htouch
    have hright := h.touchRight j hseen htouch
    have hrange := h.within j hseen
    have heven := h.even
    by_contra hlt
    have hinside := (hclear j (by omega) (by omega) (by omega) (by omega) (by omega)).1
    rw [hs.kept j hpassed] at hinside
    omega

theorem Confined.sweep_pastRight (h : Confined n m e seen low' high' w)
    (hs : Swept n m seen w low high w') (hj : seen j ∨ Passed low high j)
    (hout : n < w'.reach j) :
    (seen (j - 1) ∨ Passed low high (j - 1)) ∧ w'.reach j ≤ w'.reach (j - 1) + 1 := by
  by_cases hpassed : Passed low high j
  · obtain ⟨_, hseen, hle⟩ := h.right_of_swept hs hpassed hout
    rw [(hs.kept_beside hpassed).1]
    exact ⟨.inl hseen, hle⟩
  · have hseen := hj.resolve_right hpassed
    rw [hs.kept j hpassed] at hout ⊢
    obtain ⟨hseen', hle⟩ := h.pastRight j hseen hout
    refine ⟨.inl hseen', ?_⟩
    by_cases hbelow : Passed low high (j - 1)
    · have hreached := hs.reached (j - 1) hbelow
      simp only [entry, Int.sub_add_cancel] at hreached
      omega
    · rwa [hs.kept (j - 1) hbelow]

theorem Confined.lower_of_swept (h : Confined n m e seen low' high' w)
    (hs : Swept n m seen w low high w') :
    low ≤ w.lo ∧ w'.lo ≤ w.lo ∨ low ≤ n - m - e - 1 ∧ w'.lo ≤ n - m - e + 1 := by
  rcases hs.lowered with hsame | ⟨j, hj, hout, hbound⟩
  · exact .inl hsame.symm
  · have hfar := (h.bottom_of_swept hs hj hout).1
    exact .inr ⟨Int.le_trans hj.1 hfar, by omega⟩

theorem Confined.upper_of_swept (h : Confined n m e seen low' high' w)
    (hs : Swept n m seen w low high w') :
    w.up ≤ high ∧ w.up ≤ w'.up ∨ n - m + e + 1 ≤ high ∧ n - m + e - 1 ≤ w'.up := by
  rcases hs.raised with hsame | ⟨j, hj, hout, hbound⟩
  · exact .inl hsame.symm
  · have hfar := (h.right_of_swept hs hj hout).1
    exact .inr ⟨Int.le_trans hfar hj.2.1, by omega⟩

/-- A sweep passes all the diagonals on which the two waves can meet, and stays in the box there. -/
theorem Confined.swept_lens (h : Confined n m e seen low' high' w)
    (hs : Swept n m seen w low high w') (hge : -e ≤ j) (hle : j ≤ e) (hge' : n - m - e ≤ j)
    (hle' : j ≤ n - m + e) (heven : (j - e) % 2 = 0) :
    Passed low high j ∧ w'.reach j ≤ n ∧ w'.reach j - j ≤ m := by
  have hdelta := h.even
  have hloEven := h.lo_even
  have hupEven := h.up_even
  have hlowEven := hs.low_even
  have hloFar := h.lo_far
  have hupFar := h.up_far
  have hlower := h.lower_of_swept hs
  have hupper := h.upper_of_swept hs
  have hpassed : Passed low high j := ⟨by omega, by omega, by omega⟩
  refine ⟨hpassed, ?_, ?_⟩
  · by_contra hout
    have hright := (h.right_of_swept hs hpassed (by omega)).1
    omega
  · by_contra hout
    have hbottom := (h.bottom_of_swept hs hpassed (by omega)).1
    omega

/-- A sweep that does not meet the other wave keeps the wave confined. -/
theorem Confined.sweep (h : Confined n m e seen low' high' w)
    (hs : Swept n m seen w low high w') (hwithin : ∀ j, Passed low high j → -e ≤ j ∧ j ≤ e)
    (hclear : Clear n m e w') :
    Confined n m (e + 1) (fun j => seen j ∨ Passed low high j) low high w'.widen := by
  have hpos := h.pos
  have heven := h.even
  have hloEven := h.lo_even
  have hupEven := h.up_even
  have hlowEven := hs.low_even
  have hlo := hs.lo_even
  have hup := hs.up_even
  have hhigh := hs.high_even
  have hlowLe := hs.low_le
  have hleHigh := hs.le_high
  have hloFar := h.lo_far
  have hupFar := h.up_far
  have hpassed : ∀ {j}, Passed (-high) (-low) j ↔ Passed low high (-j) := passed_flip hhigh
  have hwithin' : ∀ j, Passed (-high) (-low) j → -e ≤ j ∧ j ≤ e := by
    intro j hj
    have hrange := hwithin (-j) (hpassed.1 hj)
    omega
  have hlower := h.lower_of_swept hs
  have hupper := h.upper_of_swept hs
  constructor
  case within =>
    intro j hj
    rcases hj with hj | hj
    · have hrange := h.within j hj
      omega
    · have hrange := hwithin j hj
      omega
  case touchRight => exact fun j hj htouch => h.sweep_touchRight hs hwithin hclear hj htouch
  case touchBottom =>
    intro j hj htouch
    have hj' : seen (- -j) ∨ Passed (-high) (-low) (-j) := by rwa [hpassed, Int.neg_neg]
    have hfar := h.flip.sweep_touchRight hs.flip hwithin' hclear.flip hj'
      (by rw [flip_reach, Int.neg_neg]; exact htouch)
    omega
  case pastRight =>
    intro j hj hout
    rw [widen_reach] at hout ⊢
    exact h.sweep_pastRight hs hj hout
  case pastBottom =>
    intro j hj hout
    have hneg : -(-j - 1) = j + 1 := by omega
    have hj' : seen (- -j) ∨ Passed (-high) (-low) (-j) := by rwa [hpassed, Int.neg_neg]
    have hpast := h.flip.sweep_pastRight hs.flip hj' (by rw [flip_reach, Int.neg_neg]; exact hout)
    rw [hpassed, hneg, flip_reach, flip_reach, hneg, Int.neg_neg] at hpast
    exact ⟨hpast.1, by rw [widen_reach]; omega⟩
  case fresh =>
    intro j hj
    obtain ⟨hbelow, habove⟩ := hs.kept_beside hj
    refine ⟨.inr hj, ?_⟩
    have hreached := hs.reached j hj
    rwa [entry, ← hbelow, ← habove] at hreached
  all_goals first | omega | (simp only [widen_lo, widen_up]; omega)

/-- Two waves that have not met where both have come are short of each other's corner. -/
theorem Clear.of_apart {v : Wave}
    (h : ∀ j, -e ≤ j → j ≤ e → n - m - e ≤ j → j ≤ n - m + e → (j - e) % 2 = 0 →
      (0 ≤ v.reach (n - m - j) ∧ n - m - j ≤ v.reach (n - m - j)) ∧
        w.reach j + v.reach (n - m - j) < n) : Clear n m e w := by
  intro j hge hle hge' hle' heven
  obtain ⟨hpoint, hapart⟩ := h j hge hle hge' hle' heven
  omega

/-! ## The first sweep -/

theorem Reached.first (hlo : w.lo = -1) (hup : w.up = 1) (hzero : 0 ≤ w.reach 0)
    (hone : w.reach 1 = 0) (hunseen : ∀ j, j ≠ 0 → j ≠ 1 → w.reach j = -1) :
    Reached 1 0 0 w := by
  constructor
  case column =>
    intro j hge hle
    rwa [Int.le_antisymm hle hge]
  case row =>
    intro j hge hle
    rwa [Int.le_antisymm hle hge]
  case unseen =>
    intro j hj
    by_cases hj' : j = 1
    · exact .inr ⟨hj', hj' ▸ hone⟩
    · exact .inl (hunseen j (by omega) hj')
  all_goals omega

theorem Confined.first (heven : (n - m) % 2 = 0) (hlo : w.lo = -1) (hup : w.up = 1)
    (hzero : 0 ≤ w.reach 0) (hbelow : w.reach (-1) = -1) (habove : w.reach 1 = 0)
    (hcolumn : w.reach 0 ≤ n) (hrow : w.reach 0 ≤ m) (hapart : n = m → w.reach 0 < n) :
    Confined n m 1 (fun j => 0 ≤ j ∧ j ≤ 0) 0 0 w := by
  have hj : ∀ j : Int, 0 ≤ j ∧ j ≤ 0 → j = 0 := fun j h => Int.le_antisymm h.2 h.1
  constructor
  case touchRight => rintro j hseen htouch; rw [hj j hseen] at htouch ⊢; omega
  case touchBottom => rintro j hseen htouch; rw [hj j hseen] at htouch ⊢; omega
  case pastRight => rintro j hseen hout; rw [hj j hseen] at hout; omega
  case pastBottom => rintro j hseen hout; rw [hj j hseen] at hout; omega
  case fresh =>
    intro j hpassed
    have hseen : 0 ≤ j ∧ j ≤ 0 := ⟨hpassed.1, hpassed.2.1⟩
    refine ⟨hseen, ?_⟩
    rw [hj j hseen, entry, Int.zero_sub, Int.zero_add, hbelow, habove]
    omega
  all_goals omega

end

end Wave

end Ned.Library
