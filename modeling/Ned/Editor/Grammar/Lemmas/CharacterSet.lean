import Ned.Editor.Grammar.CharacterSet
import Mathlib.Order.MinMax

/-!
# What the operations on character sets keep
-/

namespace Ned.Editor.Grammar

open Library

namespace CharacterSet

/-- A sorted list of disjoint ranges of codepoints. -/
structure Proper (set : CharacterSet) : Prop where
  ordered : Ordered set.ranges
  stopsBy : StopsBy kCodepointEnd set.ranges

instance : Membership Nat CharacterSet where
  mem set c := Covers set.ranges c

variable {set other ruledOut : CharacterSet} {ranges left right : List CodepointRange}
  {r : CodepointRange} {c i start stop : Nat}

theorem mem_def : c ∈ set ↔ Covers set.ranges c := Iff.rfl

theorem ranges_ne_nil (h : c ∈ set) : set.ranges ≠ [] := by
  intro hnil
  rw [mem_def, hnil] at h
  exact covers_nil c h

/-! ## Membership -/

theorem mem_of_containsRange (h : set.containsRange start stop = true) (hlow : start ≤ c)
    (hhigh : c < stop) : c ∈ set := by
  unfold containsRange at h
  split at h
  · cases h
  · rename_i r ranges hdrop
    simp only [Bool.and_eq_true, decide_eq_true_eq] at h
    have hmem : r ∈ set.ranges :=
      (List.dropWhile_sublist _).subset (hdrop ▸ List.mem_cons_self)
    exact .of_mem hmem (Nat.le_trans h.1 hlow) (Nat.lt_of_lt_of_le hhigh h.2)

theorem contains_iff (h : Ordered set.ranges) : set.contains c = true ↔ c ∈ set := by
  refine ⟨fun hc => mem_of_containsRange hc (Nat.le_refl c) (Nat.lt_succ_self c), fun hc => ?_⟩
  obtain ⟨ranges⟩ := set
  rw [mem_def] at hc
  unfold contains containsRange
  simp only at h hc ⊢
  induction ranges with
  | nil => exact absurd hc (covers_nil c)
  | cons r ranges ih =>
      rw [covers_cons] at hc
      by_cases hstop : r.stop ≤ c
      · simp only [List.dropWhile_cons, hstop, decide_true, if_true]
        refine ih h.tail (hc.resolve_left fun hr => ?_)
        exact absurd hr.2 (Nat.not_lt_of_le hstop)
      · have hr := hc.resolve_right (h.startsFrom.not_covers (Nat.lt_of_not_le hstop))
        simp only [List.dropWhile_cons, hstop, decide_false, Bool.false_eq_true, if_false,
          Bool.and_eq_true, decide_eq_true_eq]
        exact hr

/-! ## Union -/

theorem covers_absorb (h : Covers (absorb r ranges) c) : Covers (r :: ranges) c := by
  induction ranges generalizing r with
  | nil => exact h
  | cons next ranges ih =>
      unfold absorb at h
      split at h
      · rename_i hmeets
        have hmore := ih h
        rw [covers_cons] at hmore
        rw [covers_cons, covers_cons]
        rcases hmore with ⟨hlow, hhigh⟩ | hmore
        · by_cases hc : c < r.stop
          · exact Or.inl ⟨hlow, hc⟩
          · refine Or.inr (Or.inl ⟨Nat.le_trans hmeets (Nat.le_of_not_lt hc), ?_⟩)
            exact (lt_max_iff.1 hhigh).resolve_left hc
        · exact Or.inr (Or.inr hmore)
      · exact h

theorem covers_insertRange (h : Covers (insertRange start stop ranges).1 c) :
    start ≤ c ∧ c < stop ∨ Covers ranges c := by
  induction ranges with
  | nil => simpa [insertRange] using h
  | cons r ranges ih =>
      unfold insertRange at h
      split at h
      · simpa using h
      · split at h
        · have habsorb := covers_absorb h
          rw [covers_cons] at habsorb
          rw [covers_cons]
          rcases habsorb with ⟨hlow, hhigh⟩ | hmore
          · simp only at hlow hhigh
            omega
          · exact Or.inr (Or.inr hmore)
        · simp only [covers_cons] at h ⊢
          rcases h with h | h
          · exact Or.inr (Or.inl h)
          · exact (ih h).imp_right Or.inr

theorem mem_addIntRange (h : c ∈ (set.addIntRange i start stop).1) :
    start ≤ c ∧ c < stop ∨ c ∈ set := by
  simp only [addIntRange, mem_def, covers_append] at h
  rw [mem_def, ← List.take_append_drop i set.ranges, covers_append]
  rcases h with h | h
  · exact Or.inr (Or.inl h)
  · exact (covers_insertRange h).imp_right Or.inr

theorem mem_add (h : c ∈ set.add other) : c ∈ set ∨ c ∈ other := by
  have hfrom : ∀ (ranges : List CodepointRange) (set : CharacterSet) (i : Nat),
      c ∈ set.addFrom i ranges → c ∈ set ∨ Covers ranges c := by
    intro ranges
    induction ranges with
    | nil => exact fun set i h => Or.inl h
    | cons r ranges ih =>
        intro set i h
        rw [covers_cons]
        rcases ih _ _ h with h | h
        · exact (mem_addIntRange h).symm.imp_right Or.inl
        · exact Or.inr (Or.inr h)
  exact hfrom other.ranges set 0 h

/-! ## Complement -/

theorem covers_negateFrom {previousEnd : Nat} (h : Ordered ranges)
    (hlow : StartsFrom previousEnd ranges) (hc : c < kCodepointEnd) :
    Covers (negateFrom previousEnd ranges) c ↔ previousEnd ≤ c ∧ ¬Covers ranges c := by
  induction ranges generalizing previousEnd with
  | nil =>
      unfold negateFrom
      split <;> simp <;> omega
  | cons r ranges ih =>
      have hr := h.head_lt
      have hstarts := (startsFrom_cons.1 hlow).1
      have htail := ih h.tail h.startsFrom
      have hnew : ∀ {p : Prop}, r.stop ≤ c → (p ↔ previousEnd ≤ c ∧ p) := fun hc =>
        ⟨fun hp => ⟨by omega, hp⟩, fun hp => hp.2⟩
      unfold negateFrom
      rw [covers_cons]
      split
      · rw [covers_cons, htail]
        simp only
        by_cases hbelow : c < r.stop
        · have hnone := h.startsFrom.not_covers hbelow
          simp only [hnone, or_false, not_false_eq_true, and_true]
          omega
        · have hout : ¬(r.start ≤ c ∧ c < r.stop) := fun hin => hbelow hin.2
          have hc : r.stop ≤ c := Nat.le_of_not_lt hbelow
          have hgap : ¬(previousEnd ≤ c ∧ c < r.start) := fun hin => by omega
          simp only [hout, hgap, false_or, hc, true_and]
          exact hnew hc
      · rw [htail]
        by_cases hbelow : c < r.stop
        · have hnone := h.startsFrom.not_covers hbelow
          simp only [hnone, or_false, not_false_eq_true, and_true]
          omega
        · have hout : ¬(r.start ≤ c ∧ c < r.stop) := fun hin => hbelow hin.2
          have hc : r.stop ≤ c := Nat.le_of_not_lt hbelow
          simp only [hout, false_or, hc, true_and]
          exact hnew hc

theorem mem_negate (h : set.Proper) (hc : c < kCodepointEnd) : c ∈ set.negate ↔ c ∉ set := by
  rw [mem_def, negate, covers_negateFrom h.ordered (fun _ _ => Nat.zero_le _) hc]
  simp [mem_def]

theorem negateFrom_ordered {previousEnd : Nat} (h : Ordered ranges)
    (hlow : StartsFrom previousEnd ranges) :
    Ordered (negateFrom previousEnd ranges) ∧ StartsFrom previousEnd (negateFrom previousEnd ranges) := by
  induction ranges generalizing previousEnd with
  | nil =>
      unfold negateFrom
      split
      · rename_i hlt
        exact ⟨Ordered.cons_iff.2 ⟨hlt, startsFrom_nil _, .nil⟩, by simp⟩
      · exact ⟨.nil, startsFrom_nil _⟩
  | cons r ranges ih =>
      have hr := h.head_lt
      have hstarts := (startsFrom_cons.1 hlow).1
      obtain ⟨hordered, hfrom⟩ := ih h.tail h.startsFrom
      unfold negateFrom
      split
      · rename_i hlt
        exact ⟨Ordered.cons_iff.2 ⟨hlt, hfrom.mono (Nat.le_of_lt hr), hordered⟩,
          startsFrom_cons.2 ⟨Nat.le_refl _, hfrom.mono (by omega)⟩⟩
      · exact ⟨hordered, hfrom.mono (by omega)⟩

/-! ## One more character -/

theorem covers_absorb_iff (h : Ordered ranges) (hr : StartsFrom r.start ranges) :
    Covers (absorb r ranges) c ↔ Covers (r :: ranges) c := by
  refine ⟨covers_absorb, fun hc => ?_⟩
  induction ranges generalizing r with
  | nil => exact hc
  | cons next ranges ih =>
      unfold absorb
      split
      · have hlow := startsFrom_cons.1 hr
        refine ih h.tail hlow.2 ?_
        simp only [covers_cons] at hc ⊢
        rcases hc with hc | hc | hc
        · exact Or.inl ⟨hc.1, lt_max_of_lt_left hc.2⟩
        · exact Or.inl ⟨Nat.le_trans hlow.1 hc.1, lt_max_of_lt_right hc.2⟩
        · exact Or.inr hc
      · exact hc

theorem absorb_ordered (h : Ordered ranges) (hlt : r.start < r.stop)
    (hr : StartsFrom r.start ranges) : Ordered (absorb r ranges) := by
  induction ranges generalizing r with
  | nil => exact Ordered.cons_iff.2 ⟨hlt, startsFrom_nil _, .nil⟩
  | cons next ranges ih =>
      unfold absorb
      split
      · exact ih h.tail (lt_max_of_lt_left hlt) (startsFrom_cons.1 hr).2
      · rename_i hapart
        refine Ordered.cons_iff.2 ⟨hlt, ?_, h⟩
        exact startsFrom_cons.2 ⟨Nat.le_of_not_le hapart,
          h.startsFrom.mono (Nat.le_trans (Nat.le_of_not_le hapart) (Nat.le_of_lt h.head_lt))⟩

theorem insertRange_spec (h : Ordered ranges) (hlt : start < stop) :
    Ordered (insertRange start stop ranges).1 ∧
      ∀ c, Covers (insertRange start stop ranges).1 c ↔ start ≤ c ∧ c < stop ∨ Covers ranges c := by
  induction ranges with
  | nil => exact ⟨Ordered.cons_iff.2 ⟨hlt, startsFrom_nil _, .nil⟩, fun c => by simp [insertRange]⟩
  | cons r ranges ih =>
      unfold insertRange
      split
      · rename_i habove
        refine ⟨Ordered.cons_iff.2 ⟨hlt, ?_, h⟩, fun c => by simp⟩
        exact (h.startsFrom_start).mono (Nat.le_of_lt habove)
      · rename_i hmeets
        split
        · rename_i hmeets'
          have hr := h.head_lt
          have hfrom : StartsFrom (min r.start start) ranges :=
            h.startsFrom.mono (Nat.le_trans (Nat.min_le_left _ _) (Nat.le_of_lt hr))
          refine ⟨absorb_ordered h.tail ?_ hfrom, fun c => ?_⟩
          · simp only
            omega
          · rw [covers_absorb_iff h.tail hfrom, covers_cons, covers_cons]
            simp only
            by_cases hc : Covers ranges c
            · simp [hc]
            · simp only [hc, or_false]
              omega
        · rename_i hbelow
          obtain ⟨hordered, hcovers⟩ := ih h.tail
          refine ⟨Ordered.cons_iff.2 ⟨h.head_lt, ?_, hordered⟩, fun c => ?_⟩
          · have hsub : ∀ c, Covers (insertRange start stop ranges).1 c →
                Covers (⟨start, stop⟩ :: ranges) c := fun c hc => (covers_cons ..).2 ((hcovers c).1 hc)
            refine hordered.startsFrom_of_covers hsub (startsFrom_cons.2 ⟨?_, h.startsFrom⟩)
            exact Nat.le_of_not_le hbelow
          · rw [covers_cons, covers_cons, hcovers]
            exact or_left_comm

theorem mem_addChar (h : Ordered set.ranges) (n : Nat) :
    c ∈ set.addChar n ↔ c = n ∨ c ∈ set := by
  have hcovers := (insertRange_spec h (Nat.lt_succ_self n)).2 c
  simp only [addChar, addIntRange, mem_def, List.drop_zero, List.take_zero, List.nil_append]
  rw [hcovers]
  exact or_congr_left (by omega)

theorem addChar_ordered (h : Ordered set.ranges) (n : Nat) : Ordered (set.addChar n).ranges := by
  simp only [addChar, addIntRange, List.drop_zero, List.take_zero, List.nil_append]
  exact (insertRange_spec h (Nat.lt_succ_self n)).1

/-! ## Difference -/

/-- What is left of two sorted lists. -/
structure Splits (left right : List CodepointRange) (s : Split) : Prop where
  leftOrdered : Ordered s.left
  rightOrdered : Ordered s.right
  mem_left : ∀ c, Covers s.left c ↔ Covers left c ∧ ¬Covers right c
  mem_right : ∀ c, Covers s.right c ↔ Covers right c ∧ ¬Covers left c

namespace Splits

variable {left' right' intersection : List CodepointRange} {s : Split}

theorem cut (h : Splits left' right' s)
    (hleft : ∀ c, Covers left c ∧ ¬Covers right c ↔ Covers left' c ∧ ¬Covers right' c)
    (hright : ∀ c, Covers right c ∧ ¬Covers left c ↔ Covers right' c ∧ ¬Covers left' c) :
    Splits left right { s with intersection := intersection } where
  leftOrdered := h.leftOrdered
  rightOrdered := h.rightOrdered
  mem_left c := (h.mem_left c).trans (hleft c).symm
  mem_right c := (h.mem_right c).trans (hright c).symm

theorem keepLeft (h : Splits left' right' s) (hr : r.start < r.stop) (hlow : StartsFrom r.stop left')
    (hleft : ∀ c, Covers left c ∧ ¬Covers right c ↔
      (r.start ≤ c ∧ c < r.stop) ∨ Covers left' c ∧ ¬Covers right' c)
    (hright : ∀ c, Covers right c ∧ ¬Covers left c ↔ Covers right' c ∧ ¬Covers left' c) :
    Splits left right { s with intersection := intersection, left := r :: s.left } where
  leftOrdered := Ordered.cons_iff.2
    ⟨hr, h.leftOrdered.startsFrom_of_covers (fun c hc => ((h.mem_left c).1 hc).1) hlow,
      h.leftOrdered⟩
  rightOrdered := h.rightOrdered
  mem_left c := by rw [covers_cons, h.mem_left, hleft]
  mem_right c := (h.mem_right c).trans (hright c).symm

theorem keepRight (h : Splits left' right' s) (hr : r.start < r.stop)
    (hlow : StartsFrom r.stop right')
    (hleft : ∀ c, Covers left c ∧ ¬Covers right c ↔ Covers left' c ∧ ¬Covers right' c)
    (hright : ∀ c, Covers right c ∧ ¬Covers left c ↔
      (r.start ≤ c ∧ c < r.stop) ∨ Covers right' c ∧ ¬Covers left' c) :
    Splits left right { s with intersection := intersection, right := r :: s.right } where
  leftOrdered := h.leftOrdered
  rightOrdered := Ordered.cons_iff.2
    ⟨hr, h.rightOrdered.startsFrom_of_covers (fun c hc => ((h.mem_right c).1 hc).1) hlow,
      h.rightOrdered⟩
  mem_left c := (h.mem_left c).trans (hleft c).symm
  mem_right c := by rw [covers_cons, h.mem_right, hright]

end Splits

theorem heads_below {l : CodepointRange} {ls rs : List CodepointRange} (hl : Ordered (l :: ls))
    (hr : Ordered (r :: rs)) (c : Nat) :
    (l.start < l.stop ∧ r.start < r.stop) ∧
      (Covers ls c → l.stop ≤ c) ∧ (Covers rs c → r.stop ≤ c) :=
  ⟨⟨hl.head_lt, hr.head_lt⟩, hl.le_of_covers, hr.le_of_covers⟩

theorem splitRanges_splits (hl : Ordered left) (hr : Ordered right) :
    Splits left right (splitRanges left right) := by
  induction left, right using splitRanges.induct with
  | case1 right =>
      rw [splitRanges]
      exact ⟨.nil, hr, fun c => by simp, fun c => by simp⟩
  | case2 l ls =>
      rw [splitRanges]
      exact ⟨hl, .nil, fun c => by simp, fun c => by simp⟩
  | case3 l ls r rs hlt hle ih =>
      rw [splitRanges, if_pos hlt, if_pos hle]
      refine (ih hl.tail hr).keepLeft hl.head_lt hl.startsFrom (fun c => ?_) fun c => ?_
      · have hbelow := heads_below hl hr c
        simp only [covers_cons]
        grind
      · have hbelow := heads_below hl hr c
        simp only [covers_cons]
        grind
  | case4 l ls r rs hlt hgt hlt' ih =>
      rw [splitRanges, if_pos hlt, if_neg hgt, if_pos hlt']
      have hfrom := hl.startsFrom.mono (Nat.le_of_not_le hgt)
      refine (ih hl.tail (hr.cut_start hlt')).keepLeft hlt hfrom (fun c => ?_) fun c => ?_
      · have hbelow := heads_below hl hr c
        simp only [covers_cons]
        grind
      · have hbelow := heads_below hl hr c
        simp only [covers_cons]
        grind
  | case5 l ls r rs hlt hgt hge heq ih =>
      rw [splitRanges, if_pos hlt, if_neg hgt, if_neg hge, if_pos heq]
      have hcut := hl.cut_stop hlt (Nat.le_of_not_le hgt)
      refine (ih hcut hr.tail).cut (fun c => ?_) fun c => ?_
      · have hbelow := heads_below hl hr c
        simp only [covers_cons]
        grind
      · have hbelow := heads_below hl hr c
        simp only [covers_cons]
        grind
  | case6 l ls r rs hlt hgt hge hne ih =>
      rw [splitRanges, if_pos hlt, if_neg hgt, if_neg hge, if_neg hne]
      have hcut := hl.cut_start (Nat.lt_of_le_of_ne (Nat.le_of_not_lt hge) (Ne.symm hne))
      have hfrom := hcut.startsFrom_start.mono (Nat.le_of_lt hr.head_lt)
      refine (ih hcut hr.tail).keepLeft hlt hfrom (fun c => ?_) fun c => ?_
      · have hbelow := heads_below hl hr c
        simp only [covers_cons]
        grind
      · have hbelow := heads_below hl hr c
        simp only [covers_cons]
        grind
  | case7 l ls r rs hge heq hlt ih =>
      rw [splitRanges, if_neg hge, if_pos heq, if_pos hlt]
      refine (ih hl.tail (hr.cut_start hlt)).cut (fun c => ?_) fun c => ?_
      · have hbelow := heads_below hl hr c
        simp only [covers_cons]
        grind
      · have hbelow := heads_below hl hr c
        simp only [covers_cons]
        grind
  | case8 l ls r rs hge heq hge' heq' ih =>
      rw [splitRanges, if_neg hge, if_pos heq, if_neg hge', if_pos heq']
      refine (ih hl.tail hr.tail).cut (fun c => ?_) fun c => ?_
      · have hbelow := heads_below hl hr c
        simp only [covers_cons]
        grind
      · have hbelow := heads_below hl hr c
        simp only [covers_cons]
        grind
  | case9 l ls r rs hge heq hge' hne ih =>
      rw [splitRanges, if_neg hge, if_pos heq, if_neg hge', if_neg hne]
      have hcut := hl.cut_start (Nat.lt_of_le_of_ne (Nat.le_of_not_lt hge') (Ne.symm hne))
      refine (ih hcut hr.tail).cut (fun c => ?_) fun c => ?_
      · have hbelow := heads_below hl hr c
        simp only [covers_cons]
        grind
      · have hbelow := heads_below hl hr c
        simp only [covers_cons]
        grind
  | case10 l ls r rs hge hne hout ih =>
      rw [splitRanges, if_neg hge, if_neg hne, if_pos hout]
      refine (ih hl hr.tail).keepRight hr.head_lt hr.startsFrom (fun c => ?_) fun c => ?_
      · have hbelow := heads_below hl hr c
        simp only [covers_cons]
        grind
      · have hbelow := heads_below hl hr c
        simp only [covers_cons]
        grind
  | case11 l ls r rs hge hne hin hlt ih =>
      rw [splitRanges, if_neg hge, if_neg hne, if_neg hin, if_pos hlt]
      have hfirst := Nat.lt_of_le_of_ne (Nat.le_of_not_lt hge) (Ne.symm hne)
      have hcut := hr.cut_start hlt
      have hfrom := hcut.startsFrom_start.mono (Nat.le_of_lt hl.head_lt)
      refine (ih hl.tail hcut).keepRight hfirst hfrom (fun c => ?_) fun c => ?_
      · have hbelow := heads_below hl hr c
        simp only [covers_cons]
        grind
      · have hbelow := heads_below hl hr c
        simp only [covers_cons]
        grind
  | case12 l ls r rs hge hne hin hge' heq ih =>
      rw [splitRanges, if_neg hge, if_neg hne, if_neg hin, if_neg hge', if_pos heq]
      have hfirst := Nat.lt_of_le_of_ne (Nat.le_of_not_lt hge) (Ne.symm hne)
      have hcut := hr.cut_stop hfirst (Nat.le_of_not_le hin)
      refine (ih hl.tail hcut).cut (fun c => ?_) fun c => ?_
      · have hbelow := heads_below hl hr c
        simp only [covers_cons]
        grind
      · have hbelow := heads_below hl hr c
        simp only [covers_cons]
        grind
  | case13 l ls r rs hge hne hin hge' hne' ih =>
      rw [splitRanges, if_neg hge, if_neg hne, if_neg hin, if_neg hge', if_neg hne']
      have hfirst := Nat.lt_of_le_of_ne (Nat.le_of_not_lt hge) (Ne.symm hne)
      have hcut := hl.cut_start (Nat.lt_of_le_of_ne (Nat.le_of_not_lt hge') (Ne.symm hne'))
      have hfrom := hr.startsFrom.mono (Nat.le_of_lt (Nat.lt_of_not_le hin))
      refine (ih hcut hr.tail).keepRight hfirst hfrom (fun c => ?_) fun c => ?_
      · have hbelow := heads_below hl hr c
        simp only [covers_cons]
        grind
      · have hbelow := heads_below hl hr c
        simp only [covers_cons]
        grind

/-! ## Simplification -/

/-- The ranges `SimplifyIgnoring` has yet to write or read. -/
def pending (prev : Option CodepointRange) (ranges : List CodepointRange) : List CodepointRange :=
  prev.toList ++ ranges

/-- What a simplified list says, and where its ranges come from. -/
structure Simplified (ruledOut : CharacterSet) (ranges simplified : List CodepointRange) : Prop where
  ordered : Ordered simplified
  covers : ∀ c, c ∉ ruledOut → (Covers simplified c ↔ Covers ranges c)
  starts : ∀ r ∈ simplified, ∃ r' ∈ ranges, r'.start = r.start
  stops : ∀ r ∈ simplified, ∃ r' ∈ ranges, r'.stop = r.stop

namespace Simplified

variable {simplified : List CodepointRange} {prev : CodepointRange}

theorem skip (left : List CodepointRange) (h : Simplified ruledOut (left ++ ranges) simplified)
    (hr : ruledOut.containsRange r.start r.stop = true) :
    Simplified ruledOut (left ++ r :: ranges) simplified where
  ordered := h.ordered
  covers c hc := by
    have hout : ¬(r.start ≤ c ∧ c < r.stop) := fun hin => hc (mem_of_containsRange hr hin.1 hin.2)
    rw [h.covers c hc, covers_append, covers_append, covers_cons]
    simp only [hout, false_or]
  starts r' hr' := by
    obtain ⟨r₀, hr₀, heq⟩ := h.starts r' hr'
    exact ⟨r₀, List.Sublist.mem hr₀ (.append_left (List.sublist_cons_self _ _) _), heq⟩
  stops r' hr' := by
    obtain ⟨r₀, hr₀, heq⟩ := h.stops r' hr'
    exact ⟨r₀, List.Sublist.mem hr₀ (.append_left (List.sublist_cons_self _ _) _), heq⟩

theorem join (h : Simplified ruledOut (⟨prev.start, r.stop⟩ :: ranges) simplified)
    (hapart : prev.stop ≤ r.start) (hprev : prev.start ≤ prev.stop) (hr : r.start ≤ r.stop)
    (hgap : ruledOut.containsRange prev.stop r.start = true) :
    Simplified ruledOut (prev :: r :: ranges) simplified where
  ordered := h.ordered
  covers c hc := by
    have hout : ¬(prev.stop ≤ c ∧ c < r.start) :=
      fun hin => hc (mem_of_containsRange hgap hin.1 hin.2)
    rw [h.covers c hc, covers_cons, covers_cons, covers_cons, ← or_assoc]
    exact or_congr_left (by simp only; omega)
  starts r' hr' := by
    obtain ⟨r₀, hr₀, heq⟩ := h.starts r' hr'
    rcases List.mem_cons.1 hr₀ with rfl | hr₀
    · exact ⟨prev, List.mem_cons_self, heq⟩
    · exact ⟨r₀, List.mem_cons_of_mem _ (List.mem_cons_of_mem _ hr₀), heq⟩
  stops r' hr' := by
    obtain ⟨r₀, hr₀, heq⟩ := h.stops r' hr'
    rcases List.mem_cons.1 hr₀ with rfl | hr₀
    · exact ⟨r, List.mem_cons_of_mem _ List.mem_cons_self, heq⟩
    · exact ⟨r₀, List.mem_cons_of_mem _ (List.mem_cons_of_mem _ hr₀), heq⟩

theorem write (h : Simplified ruledOut ranges simplified) (hordered : Ordered (prev :: ranges)) :
    Simplified ruledOut (prev :: ranges) (prev :: simplified) where
  ordered := by
    refine Ordered.cons_iff.2 ⟨hordered.head_lt, fun r hr => ?_, h.ordered⟩
    obtain ⟨r', hr', heq⟩ := h.starts r hr
    exact heq ▸ hordered.startsFrom r' hr'
  covers c hc := by rw [covers_cons, covers_cons, h.covers c hc]
  starts r hr := by
    rcases List.mem_cons.1 hr with rfl | hr
    · exact ⟨r, List.mem_cons_self, rfl⟩
    · obtain ⟨r', hr', heq⟩ := h.starts r hr
      exact ⟨r', List.mem_cons_of_mem _ hr', heq⟩
  stops r hr := by
    rcases List.mem_cons.1 hr with rfl | hr
    · exact ⟨r, List.mem_cons_self, rfl⟩
    · obtain ⟨r', hr', heq⟩ := h.stops r hr
      exact ⟨r', List.mem_cons_of_mem _ hr', heq⟩

end Simplified

theorem simplifyFrom_simplified {prev : Option CodepointRange} (h : Ordered (pending prev ranges)) :
    Simplified ruledOut (pending prev ranges) (simplifyFrom ruledOut prev ranges) := by
  induction prev, ranges using simplifyFrom.induct ruledOut with
  | case1 prev =>
      rw [simplifyFrom, pending, List.append_nil]
      rw [pending, List.append_nil] at h
      exact ⟨h, fun c _ => Iff.rfl, fun r hr => ⟨r, hr, rfl⟩, fun r hr => ⟨r, hr, rfl⟩⟩
  | case2 r ranges hr ih =>
      rw [simplifyFrom, if_pos hr]
      exact Simplified.skip [] (ih h.tail) hr
  | case3 r ranges hr ih =>
      rw [simplifyFrom, if_neg hr]
      exact ih h
  | case4 prev r ranges hr ih =>
      rw [simplifyFrom, if_pos hr]
      have hprev := h.startsFrom
      refine Simplified.skip [prev] (ih ?_) hr
      exact Ordered.cons_iff.2 ⟨h.head_lt, (startsFrom_cons.1 hprev).2, h.tail.tail⟩
  | case5 prev r ranges hr hgap ih =>
      rw [simplifyFrom, if_neg hr, if_pos hgap]
      have hprev := h.head_lt
      have hapart := (startsFrom_cons.1 h.startsFrom).1
      have hstop := h.tail.head_lt
      refine (ih ?_).join hapart (Nat.le_of_lt hprev) (Nat.le_of_lt hstop) hgap
      refine Ordered.cons_iff.2 ⟨?_, h.tail.startsFrom, h.tail.tail⟩
      simp only
      omega
  | case6 prev r ranges hr hgap ih =>
      rw [simplifyFrom, if_neg hr, if_neg hgap]
      exact (ih h.tail).write h

theorem simplifyIgnoring_simplified (h : Ordered set.ranges) :
    Simplified ruledOut set.ranges (set.simplifyIgnoring ruledOut).ranges := by
  have hpending : Ordered (pending none set.ranges) := h
  exact simplifyFrom_simplified hpending

namespace Simplified

variable {simplified : List CodepointRange}

theorem covers_zero (h : Simplified ruledOut ranges simplified) (hranges : Ordered ranges)
    (hzero : Covers simplified 0) : Covers ranges 0 := by
  obtain ⟨r, hr, hlow, -⟩ := hzero
  obtain ⟨r', hr', heq⟩ := h.starts r hr
  have hstart : r'.start ≤ 0 := heq ▸ hlow
  exact .of_mem hr' hstart (Nat.lt_of_le_of_lt (Nat.zero_le _) (hranges.nonempty r' hr'))

theorem covers_last (h : Simplified ruledOut ranges simplified) (hranges : Ordered ranges)
    (hstops : StopsBy kCodepointEnd ranges) (hlast : Covers simplified (kCodepointEnd - 1)) :
    Covers ranges (kCodepointEnd - 1) := by
  obtain ⟨r, hr, -, hhigh⟩ := hlast
  obtain ⟨r', hr', heq⟩ := h.stops r hr
  have hstop : kCodepointEnd - 1 < r'.stop := heq ▸ hhigh
  have hstart := hranges.nonempty r' hr'
  have hmost := hstops r' hr'
  exact .of_mem hr' (by omega) hstop

theorem stopsBy (h : Simplified ruledOut ranges simplified)
    (hstops : StopsBy kCodepointEnd ranges) : StopsBy kCodepointEnd simplified := by
  intro r hr
  obtain ⟨r', hr', heq⟩ := h.stops r hr
  exact heq ▸ hstops r' hr'

end Simplified

theorem Proper.of_mem (h : Ordered set.ranges) (hset : ∀ c, c ∈ set → c < kCodepointEnd) :
    set.Proper := by
  refine ⟨h, fun r hr => ?_⟩
  have hlt := h.nonempty r hr
  have hlast := hset (r.stop - 1) (.of_mem hr (by omega) (by omega))
  omega

theorem Proper.lt_of_mem (h : set.Proper) (hc : c ∈ set) : c < kCodepointEnd :=
  h.stopsBy.lt_of_covers hc

/-! ## Sets whose ranges do not touch -/

/-- Sorted ranges of codepoints with a gap between any two. -/
structure Canonical (set : CharacterSet) : Prop where
  separated : Separated set.ranges
  stopsBy : StopsBy kCodepointEnd set.ranges

theorem Canonical.proper (h : set.Canonical) : set.Proper := ⟨h.separated.ordered, h.stopsBy⟩

theorem Canonical.lt_of_mem (h : set.Canonical) (hc : c ∈ set) : c < kCodepointEnd :=
  h.proper.lt_of_mem hc

theorem Canonical.of_mem (h : Separated set.ranges) (hset : ∀ c, c ∈ set → c < kCodepointEnd) :
    set.Canonical := ⟨h, (Proper.of_mem h.ordered hset).stopsBy⟩

theorem Canonical.of_subset (h : Separated set.ranges) (hother : other.Canonical)
    (hsub : ∀ c, c ∈ set → c ∈ other) : set.Canonical :=
  .of_mem h fun c hc => hother.lt_of_mem (hsub c hc)

theorem exists_mem_of_isEmpty (h : Ordered set.ranges) (hempty : set.isEmpty = false) :
    ∃ c, c ∈ set := by
  obtain ⟨ranges⟩ := set
  cases ranges with
  | nil => cases hempty
  | cons r ranges => exact ⟨r.start, .of_mem List.mem_cons_self (Nat.le_refl _) h.head_lt⟩

theorem isEmpty_of_mem (h : c ∈ set) : set.isEmpty = false := by
  simpa [isEmpty] using ranges_ne_nil h

theorem not_mem_of_isEmpty (hempty : set.isEmpty = true) : c ∉ set := by
  have hnil : set.ranges = [] := List.isEmpty_iff.1 hempty
  rw [mem_def, hnil]
  exact covers_nil c

theorem containsRange_iff (h : Separated set.ranges) :
    set.containsRange start stop = true ↔ start ∈ set ∧ ∀ c, start ≤ c → c < stop → c ∈ set := by
  obtain ⟨ranges⟩ := set
  simp only [mem_def, containsRange] at h ⊢
  induction ranges with
  | nil => simp
  | cons r ranges ih =>
      by_cases hstop : r.stop ≤ start
      · -- the range ends before what is looked for, and holds none of it
        have hout : ∀ c, start ≤ c → (Covers (r :: ranges) c ↔ Covers ranges c) := by
          intro c hc
          rw [covers_cons]
          refine or_iff_right fun hr => ?_
          exact absurd (Nat.lt_of_lt_of_le hr.2 hstop) (Nat.not_lt_of_ge hc)
        simp only [List.dropWhile_cons, hstop, decide_true, if_true, ih h.tail]
        rw [hout start (Nat.le_refl _)]
        refine and_congr_right fun _ => forall_congr' fun c => ?_
        exact forall_congr' fun hc => by rw [hout c hc]
      · simp only [List.dropWhile_cons, hstop, decide_false, Bool.false_eq_true, if_false,
          Bool.and_eq_true, decide_eq_true_eq]
        have hin := Nat.lt_of_not_le hstop
        constructor
        · rintro ⟨hlow, hhigh⟩
          refine ⟨.of_mem List.mem_cons_self hlow hin, fun c hc hc' => ?_⟩
          exact .of_mem List.mem_cons_self (Nat.le_trans hlow hc) (Nat.lt_of_lt_of_le hc' hhigh)
        · rintro ⟨hfirst, hall⟩
          have hnot : ∀ c, c ≤ r.stop → ¬Covers ranges c := fun c hc =>
            h.startsAfter.not_covers hc
          have hr := ((covers_cons r ranges start).1 hfirst).resolve_right
            (hnot start (Nat.le_of_lt hin))
          refine ⟨hr.1, Nat.le_of_not_lt fun hlt => ?_⟩
          -- the gap behind the range would be in the set
          have hgap := hall r.stop (Nat.le_of_lt hin) hlt
          rcases (covers_cons ..).1 hgap with hgap | hgap
          · exact Nat.lt_irrefl _ hgap.2
          · exact hnot r.stop (Nat.le_refl _) hgap

theorem fromRange_separated (first last : Nat) : Separated (fromRange first last).ranges := by
  unfold fromRange
  split
  · rename_i hgt
    exact Separated.cons_iff.2 ⟨Nat.lt_succ_of_lt hgt, startsAfter_nil _, .nil⟩
  · rename_i hle
    exact Separated.cons_iff.2 ⟨Nat.lt_succ_of_le (Nat.le_of_not_lt hle), startsAfter_nil _, .nil⟩

theorem mem_fromRange (first last : Nat) :
    c ∈ fromRange first last ↔ min first last ≤ c ∧ c ≤ max first last := by
  unfold fromRange
  split <;> simp only [mem_def, covers_cons, covers_nil, or_false] <;> omega

theorem fromChar_separated (n : Nat) : Separated (fromChar n).ranges :=
  Separated.cons_iff.2 ⟨Nat.lt_succ_self n, startsAfter_nil _, .nil⟩

theorem mem_fromChar (n : Nat) : c ∈ fromChar n ↔ c = n := by
  simp only [fromChar, mem_def, covers_cons, covers_nil, or_false]
  omega

/-! ### Union -/

theorem absorb_separated (h : Separated ranges) (hlt : r.start < r.stop) :
    Separated (absorb r ranges) := by
  induction ranges generalizing r with
  | nil => exact Separated.cons_iff.2 ⟨hlt, startsAfter_nil _, .nil⟩
  | cons next ranges ih =>
      unfold absorb
      split
      · exact ih h.tail (lt_max_of_lt_left hlt)
      · rename_i hapart
        have hgap := Nat.lt_of_not_le hapart
        refine Separated.cons_iff.2 ⟨hlt, startsAfter_cons.2 ⟨hgap, ?_⟩, h⟩
        exact h.startsAfter.mono (Nat.le_of_lt (Nat.lt_trans hgap h.head_lt))

theorem insertRange_separated (h : Separated ranges) (hlt : start < stop) :
    Separated (insertRange start stop ranges).1 := by
  induction ranges with
  | nil => exact Separated.cons_iff.2 ⟨hlt, startsAfter_nil _, .nil⟩
  | cons r ranges ih =>
      have hcovers := (insertRange_spec h.tail.ordered hlt).2
      unfold insertRange
      split
      · rename_i habove
        refine Separated.cons_iff.2 ⟨hlt, startsAfter_cons.2 ⟨habove, ?_⟩, h⟩
        exact h.startsAfter.mono (Nat.le_of_lt (Nat.lt_trans habove h.head_lt))
      · split
        · refine absorb_separated h.tail ?_
          have hr := h.head_lt
          simp only
          omega
        · rename_i hbelow
          refine Separated.cons_iff.2 ⟨h.head_lt, ?_, ih h.tail⟩
          have hsub : ∀ c, Covers (insertRange start stop ranges).1 c →
              Covers (⟨start, stop⟩ :: ranges) c := fun c hc => (covers_cons ..).2 ((hcovers c).1 hc)
          refine (ih h.tail).startsAfter_of_covers hsub (startsAfter_cons.2 ⟨?_, h.startsAfter⟩)
          exact Nat.lt_of_not_le hbelow

theorem lt_start_of_insertRange {start stop : Nat} :
    ∀ r ∈ (insertRange start stop ranges).1.take (insertRange start stop ranges).2,
      r.stop < start := by
  induction ranges with
  | nil => simp [insertRange]
  | cons r ranges ih =>
      unfold insertRange
      split
      · simp
      · split
        · simp
        · rename_i hbelow
          simp only [List.take_succ_cons, List.mem_cons]
          rintro a (rfl | ha)
          · exact Nat.lt_of_not_le hbelow
          · exact ih a ha

theorem insertRange_index_le :
    (insertRange start stop ranges).2 ≤ (insertRange start stop ranges).1.length := by
  induction ranges with
  | nil => exact Nat.zero_le _
  | cons r ranges ih =>
      unfold insertRange
      split
      · exact Nat.zero_le _
      · split
        · exact Nat.zero_le _
        · exact Nat.succ_le_succ ih

theorem addIntRange_spec (h : Separated set.ranges) (hlt : start < stop)
    (hbefore : ∀ r ∈ set.ranges.take i, r.stop < start) :
    Separated (set.addIntRange i start stop).1.ranges ∧
      ∀ c, c ∈ (set.addIntRange i start stop).1 ↔ (start ≤ c ∧ c < stop) ∨ c ∈ set := by
  have happend : Separated (set.ranges.take i ++ set.ranges.drop i) := by
    rw [List.take_append_drop]
    exact h
  have htake : Separated (set.ranges.take i) :=
    ⟨fun r hr => happend.nonempty r (List.mem_append_left _ hr),
      (List.pairwise_append.1 happend.gaps).1⟩
  have hdrop : Separated (set.ranges.drop i) :=
    ⟨fun r hr => happend.nonempty r (List.mem_append_right _ hr),
      (List.pairwise_append.1 happend.gaps).2.1⟩
  have hcovers := (insertRange_spec hdrop.ordered hlt).2
  have hinsert := insertRange_separated hdrop hlt
  simp only [addIntRange]
  refine ⟨htake.append hinsert fun r hr => ?_, fun c => ?_⟩
  · have hsub : ∀ c, Covers (insertRange start stop (set.ranges.drop i)).1 c →
        Covers (⟨start, stop⟩ :: set.ranges.drop i) c := fun c hc =>
      (covers_cons ..).2 ((hcovers c).1 hc)
    refine hinsert.startsAfter_of_covers hsub (startsAfter_cons.2 ⟨hbefore r hr, ?_⟩)
    exact (List.pairwise_append.1 happend.gaps).2.2 r hr
  · have hset : c ∈ set ↔ Covers (set.ranges.take i) c ∨ Covers (set.ranges.drop i) c := by
      rw [← covers_append, List.take_append_drop, mem_def]
    rw [mem_def, covers_append, hcovers, hset]
    exact or_left_comm

theorem addIntRange_index_le (hi : i ≤ set.ranges.length) :
    (set.addIntRange i start stop).2 ≤ (set.addIntRange i start stop).1.ranges.length := by
  simp only [addIntRange, List.length_append, List.length_take, Nat.min_eq_left hi]
  exact Nat.add_le_add_left insertRange_index_le i

theorem lt_start_of_addIntRange (hi : i ≤ set.ranges.length)
    (hbefore : ∀ r ∈ set.ranges.take i, r.stop < start) :
    ∀ r ∈ (set.addIntRange i start stop).1.ranges.take (set.addIntRange i start stop).2,
      r.stop < start := by
  intro r hr
  simp only [addIntRange, List.take_append, List.length_take, Nat.min_eq_left hi,
    Nat.add_sub_cancel_left] at hr
  rcases List.mem_append.1 hr with hr | hr
  · exact hbefore r (List.mem_of_mem_take hr)
  · exact lt_start_of_insertRange r hr

theorem addFrom_spec (h : Separated set.ranges) (hranges : Separated ranges)
    (hi : i ≤ set.ranges.length) (hbefore : ∀ r ∈ set.ranges.take i, StartsAfter r.stop ranges) :
    Separated (set.addFrom i ranges).ranges ∧
      ∀ c, c ∈ set.addFrom i ranges ↔ c ∈ set ∨ Covers ranges c := by
  induction ranges generalizing set i with
  | nil => exact ⟨h, fun c => by simp [addFrom]⟩
  | cons r ranges ih =>
      have hfirst : ∀ a ∈ set.ranges.take i, a.stop < r.start := fun a ha =>
        (startsAfter_cons.1 (hbefore a ha)).1
      have hpassed : ∀ a ∈ (set.addIntRange i r.start r.stop).1.ranges.take
          (set.addIntRange i r.start r.stop).2, a.stop < r.start := lt_start_of_addIntRange hi hfirst
      obtain ⟨hadded, hmem⟩ := addIntRange_spec h hranges.head_lt hfirst
      have hnext : ∀ a ∈ (set.addIntRange i r.start r.stop).1.ranges.take
          (set.addIntRange i r.start r.stop).2, StartsAfter a.stop ranges := fun a ha =>
        hranges.startsAfter.mono
          (Nat.le_of_lt (Nat.lt_trans (hpassed a ha) hranges.head_lt))
      obtain ⟨hseparated, hcovers⟩ := ih hadded hranges.tail (addIntRange_index_le hi) hnext
      refine ⟨hseparated, fun c => ?_⟩
      rw [addFrom, hcovers, hmem, covers_cons]
      rw [or_comm (b := c ∈ set), or_assoc]

theorem add_separated (h : Separated set.ranges) (hother : Separated other.ranges) :
    Separated (set.add other).ranges :=
  (addFrom_spec h hother (Nat.zero_le _) (by simp)).1

theorem mem_add_iff (h : Separated set.ranges) (hother : Separated other.ranges) :
    c ∈ set.add other ↔ c ∈ set ∨ c ∈ other :=
  (addFrom_spec h hother (Nat.zero_le _) (by simp)).2 c

theorem addRange_separated (h : Separated set.ranges) {first last : Nat} (hle : first ≤ last) :
    Separated (set.addRange first last).ranges :=
  (addIntRange_spec h (Nat.lt_succ_of_le hle) (by simp)).1

theorem mem_addRange (h : Separated set.ranges) {first last : Nat} (hle : first ≤ last) :
    c ∈ set.addRange first last ↔ (first ≤ c ∧ c ≤ last) ∨ c ∈ set := by
  rw [addRange, (addIntRange_spec h (Nat.lt_succ_of_le hle) (by simp)).2]
  exact or_congr_left (and_congr_right fun _ => Nat.lt_succ_iff)

theorem addChar_separated (h : Separated set.ranges) (n : Nat) :
    Separated (set.addChar n).ranges :=
  addRange_separated h (Nat.le_refl n)

/-! ### Complement -/

theorem negateFrom_separated {previousEnd : Nat} (h : Separated ranges) :
    Separated (negateFrom previousEnd ranges) := by
  induction ranges generalizing previousEnd with
  | nil =>
      unfold negateFrom
      split
      · rename_i hlt
        exact Separated.cons_iff.2 ⟨hlt, startsAfter_nil _, .nil⟩
      · exact .nil
  | cons r ranges ih =>
      have hfrom := (negateFrom_ordered h.tail.ordered h.ordered.startsFrom).2
      unfold negateFrom
      split
      · rename_i hlt
        exact Separated.cons_iff.2 ⟨hlt, hfrom.startsAfter h.head_lt, ih h.tail⟩
      · exact ih h.tail

theorem covers_negateFrom_lt {previousEnd : Nat} (h : Covers (negateFrom previousEnd ranges) c)
    (hstops : StopsBy kCodepointEnd ranges) (hordered : Ordered ranges) : c < kCodepointEnd := by
  induction ranges generalizing previousEnd with
  | nil =>
      unfold negateFrom at h
      split at h
      · simp only [covers_cons, covers_nil, or_false] at h
        exact h.2
      · exact absurd h (covers_nil c)
  | cons r ranges ih =>
      obtain ⟨hr, hrest⟩ := stopsBy_cons.1 hstops
      unfold negateFrom at h
      split at h
      · rcases (covers_cons ..).1 h with h | h
        · exact Nat.lt_of_lt_of_le (Nat.lt_trans h.2 hordered.head_lt) hr
        · exact ih h hrest hordered.tail
      · exact ih h hrest hordered.tail

theorem mem_negate_iff (h : set.Canonical) : c ∈ set.negate ↔ c < kCodepointEnd ∧ c ∉ set := by
  constructor
  · intro hc
    have hlt : c < kCodepointEnd := covers_negateFrom_lt hc h.stopsBy h.separated.ordered
    exact ⟨hlt, (mem_negate h.proper hlt).1 hc⟩
  · rintro ⟨hlt, hc⟩
    exact (mem_negate h.proper hlt).2 hc

/-! ### Intersection and difference -/

structure Common (left right intersection : List CodepointRange) : Prop where
  separated : Separated intersection
  covers : ∀ c, Covers intersection c ↔ Covers left c ∧ Covers right c

namespace Common

variable {left' right' intersection : List CodepointRange}

theorem congr (h : Common left' right' intersection)
    (hboth : ∀ c, Covers left c ∧ Covers right c ↔ Covers left' c ∧ Covers right' c) :
    Common left right intersection := ⟨h.separated, fun c => (h.covers c).trans (hboth c).symm⟩

theorem cons (h : Common left' right' intersection) (hr : r.start < r.stop)
    (hlow : StartsAfter r.stop left' ∨ StartsAfter r.stop right')
    (hboth : ∀ c, Covers left c ∧ Covers right c ↔
      (r.start ≤ c ∧ c < r.stop) ∨ Covers left' c ∧ Covers right' c) :
    Common left right (r :: intersection) where
  separated := by
    refine Separated.cons_iff.2 ⟨hr, ?_, h.separated⟩
    rcases hlow with hlow | hlow
    · exact h.separated.startsAfter_of_covers (fun c hc => ((h.covers c).1 hc).1) hlow
    · exact h.separated.startsAfter_of_covers (fun c hc => ((h.covers c).1 hc).2) hlow
  covers c := by rw [covers_cons, h.covers, hboth]

end Common

theorem splitRanges_common (hl : Separated left) (hr : Separated right) :
    Common left right (splitRanges left right).intersection := by
  fun_induction splitRanges left right with
  | case1 right => exact ⟨.nil, fun c => by simp⟩
  | case2 l ls => exact ⟨.nil, fun c => by simp⟩
  | case3 l ls r rs hlt hle s ih =>
      refine (ih hl.tail hr).congr fun c => ?_
      have hbelow := heads_below hl.ordered hr.ordered c
      simp only [covers_cons]
      grind
  | case4 l ls r rs hlt hgt hlt' s ih =>
      refine (ih hl.tail (hr.cut_start hlt')).cons (Nat.lt_of_not_le hgt) (.inl hl.startsAfter)
        fun c => ?_
      have hbelow := heads_below hl.ordered hr.ordered c
      simp only [covers_cons]
      grind
  | case5 l ls r rs hlt hgt hge heq s ih =>
      have hcut := hl.cut_stop hlt (Nat.le_of_not_le hgt)
      refine (ih hcut hr.tail).cons hr.head_lt (.inr hr.startsAfter) fun c => ?_
      have hbelow := heads_below hl.ordered hr.ordered c
      simp only [covers_cons]
      grind
  | case6 l ls r rs hlt hgt hge hne s ih =>
      have hcut := hl.cut_start (Nat.lt_of_le_of_ne (Nat.le_of_not_lt hge) (Ne.symm hne))
      refine (ih hcut hr.tail).cons hr.head_lt (.inr hr.startsAfter) fun c => ?_
      have hbelow := heads_below hl.ordered hr.ordered c
      simp only [covers_cons]
      grind
  | case7 l ls r rs hge heq hlt s ih =>
      refine (ih hl.tail (hr.cut_start hlt)).cons hl.head_lt (.inl hl.startsAfter) fun c => ?_
      have hbelow := heads_below hl.ordered hr.ordered c
      simp only [covers_cons]
      grind
  | case8 l ls r rs hge heq hge' heq' s ih =>
      refine (ih hl.tail hr.tail).cons hl.head_lt (.inl hl.startsAfter) fun c => ?_
      have hbelow := heads_below hl.ordered hr.ordered c
      simp only [covers_cons]
      grind
  | case9 l ls r rs hge heq hge' hne s ih =>
      have hcut := hl.cut_start (Nat.lt_of_le_of_ne (Nat.le_of_not_lt hge') (Ne.symm hne))
      refine (ih hcut hr.tail).cons hr.head_lt (.inr hr.startsAfter) fun c => ?_
      have hbelow := heads_below hl.ordered hr.ordered c
      simp only [covers_cons]
      grind
  | case10 l ls r rs hge hne hout s ih =>
      refine (ih hl hr.tail).congr fun c => ?_
      have hbelow := heads_below hl.ordered hr.ordered c
      simp only [covers_cons]
      grind
  | case11 l ls r rs hge hne hin hlt s ih =>
      refine (ih hl.tail (hr.cut_start hlt)).cons hl.head_lt (.inl hl.startsAfter) fun c => ?_
      have hbelow := heads_below hl.ordered hr.ordered c
      simp only [covers_cons]
      grind
  | case12 l ls r rs hge hne hin hge' heq s ih =>
      have hfirst := Nat.lt_of_le_of_ne (Nat.le_of_not_lt hge) (Ne.symm hne)
      have hcut := hr.cut_stop hfirst (Nat.le_of_not_le hin)
      refine (ih hl.tail hcut).cons hl.head_lt (.inl hl.startsAfter) fun c => ?_
      have hbelow := heads_below hl.ordered hr.ordered c
      simp only [covers_cons]
      grind
  | case13 l ls r rs hge hne hin hge' hne' s ih =>
      have hcut := hl.cut_start (Nat.lt_of_le_of_ne (Nat.le_of_not_lt hge') (Ne.symm hne'))
      refine (ih hcut hr.tail).cons (Nat.lt_of_not_le hin) (.inr hr.startsAfter) fun c => ?_
      have hbelow := heads_below hl.ordered hr.ordered c
      simp only [covers_cons]
      grind

theorem Splits.cons_left {s : Split} (h : Splits left right s) (hleft : Separated s.left)
    (hr : r.start < r.stop) (hlow : StartsAfter r.stop left) : Separated (r :: s.left) :=
  Separated.cons_iff.2
    ⟨hr, hleft.startsAfter_of_covers (fun c hc => ((h.mem_left c).1 hc).1) hlow, hleft⟩

theorem Splits.cons_right {s : Split} (h : Splits left right s) (hright : Separated s.right)
    (hr : r.start < r.stop) (hlow : StartsAfter r.stop right) : Separated (r :: s.right) :=
  Separated.cons_iff.2
    ⟨hr, hright.startsAfter_of_covers (fun c hc => ((h.mem_right c).1 hc).1) hlow, hright⟩

theorem splitRanges_separated (hl : Separated left) (hr : Separated right) :
    Separated (splitRanges left right).left ∧ Separated (splitRanges left right).right := by
  fun_induction splitRanges left right with
  | case1 right => exact ⟨.nil, hr⟩
  | case2 l ls => exact ⟨hl, .nil⟩
  | case3 l ls r rs hlt hle s ih =>
      have hsplit := splitRanges_splits hl.tail.ordered hr.ordered
      obtain ⟨hleft, hright⟩ := ih hl.tail hr
      exact ⟨hsplit.cons_left hleft hl.head_lt hl.startsAfter, hright⟩
  | case4 l ls r rs hlt hgt hlt' s ih =>
      have hcut := hr.cut_start hlt'
      have hsplit := splitRanges_splits hl.tail.ordered hcut.ordered
      obtain ⟨hleft, hright⟩ := ih hl.tail hcut
      exact ⟨hsplit.cons_left hleft hlt (hl.startsAfter.mono (Nat.le_of_not_le hgt)), hright⟩
  | case5 l ls r rs hlt hgt hge heq s ih =>
      exact ih (hl.cut_stop hlt (Nat.le_of_not_le hgt)) hr.tail
  | case6 l ls r rs hlt hgt hge hne s ih =>
      have hcut := hl.cut_start (Nat.lt_of_le_of_ne (Nat.le_of_not_lt hge) (Ne.symm hne))
      have hsplit := splitRanges_splits hcut.ordered hr.tail.ordered
      obtain ⟨hleft, hright⟩ := ih hcut hr.tail
      have hlow := hcut.ordered.startsFrom_start.startsAfter hr.head_lt
      exact ⟨hsplit.cons_left hleft hlt hlow, hright⟩
  | case7 l ls r rs hge heq hlt s ih => exact ih hl.tail (hr.cut_start hlt)
  | case8 l ls r rs hge heq hge' heq' s ih => exact ih hl.tail hr.tail
  | case9 l ls r rs hge heq hge' hne s ih =>
      exact ih (hl.cut_start (Nat.lt_of_le_of_ne (Nat.le_of_not_lt hge') (Ne.symm hne))) hr.tail
  | case10 l ls r rs hge hne hout s ih =>
      have hsplit := splitRanges_splits hl.ordered hr.tail.ordered
      obtain ⟨hleft, hright⟩ := ih hl hr.tail
      exact ⟨hleft, hsplit.cons_right hright hr.head_lt hr.startsAfter⟩
  | case11 l ls r rs hge hne hin hlt s ih =>
      have hfirst := Nat.lt_of_le_of_ne (Nat.le_of_not_lt hge) (Ne.symm hne)
      have hcut := hr.cut_start hlt
      have hsplit := splitRanges_splits hl.tail.ordered hcut.ordered
      obtain ⟨hleft, hright⟩ := ih hl.tail hcut
      have hlow := hcut.ordered.startsFrom_start.startsAfter hl.head_lt
      exact ⟨hleft, hsplit.cons_right hright hfirst hlow⟩
  | case12 l ls r rs hge hne hin hge' heq s ih =>
      have hfirst := Nat.lt_of_le_of_ne (Nat.le_of_not_lt hge) (Ne.symm hne)
      exact ih hl.tail (hr.cut_stop hfirst (Nat.le_of_not_le hin))
  | case13 l ls r rs hge hne hin hge' hne' s ih =>
      have hfirst := Nat.lt_of_le_of_ne (Nat.le_of_not_lt hge) (Ne.symm hne)
      have hcut := hl.cut_start (Nat.lt_of_le_of_ne (Nat.le_of_not_lt hge') (Ne.symm hne'))
      have hsplit := splitRanges_splits hcut.ordered hr.tail.ordered
      obtain ⟨hleft, hright⟩ := ih hcut hr.tail
      have hlow := hr.startsAfter.mono (Nat.le_of_lt (Nat.lt_of_not_le hin))
      exact ⟨hleft, hsplit.cons_right hright hfirst hlow⟩

theorem rangesMeet_iff (hl : Separated left) (hr : Separated right) :
    rangesMeet left right = true ↔ ∃ c, Covers left c ∧ Covers right c := by
  fun_induction rangesMeet left right with
  | case1 right => simp
  | case2 l ls => simp
  | case3 l ls r rs hle ih =>
      refine (ih hl.tail hr).trans (exists_congr fun c => ?_)
      have hbelow := heads_below hl.ordered hr.ordered c
      simp only [covers_cons]
      grind
  | case4 l ls r rs hgt hge ih =>
      refine (ih hl hr.tail).trans (exists_congr fun c => ?_)
      have hbelow := heads_below hl.ordered hr.ordered c
      simp only [covers_cons]
      grind
  | case5 l ls r rs hgt hlt =>
      -- the later of the two starts lies in both
      refine iff_of_true rfl ⟨max l.start r.start, ?_, ?_⟩
      · have hhead := hl.head_lt
        refine .of_mem List.mem_cons_self (le_max_left _ _) (max_lt hhead (Nat.lt_of_not_le hgt))
      · have hhead := hr.head_lt
        refine .of_mem List.mem_cons_self (le_max_right _ _) (max_lt (Nat.lt_of_not_le hlt) hhead)

/-- The characters in both sets, and both sets without them. -/
structure Removes (set other : CharacterSet) (parts : CharacterSet × CharacterSet × CharacterSet) :
    Prop where
  canonical : parts.1.Canonical
  leftCanonical : parts.2.1.Canonical
  rightCanonical : parts.2.2.Canonical
  mem_iff : ∀ c, c ∈ parts.1 ↔ c ∈ set ∧ c ∈ other
  mem_left : ∀ c, c ∈ parts.2.1 ↔ c ∈ set ∧ c ∉ other
  mem_right : ∀ c, c ∈ parts.2.2 ↔ c ∈ other ∧ c ∉ set

theorem removeIntersection_removes (h : set.Canonical) (hother : other.Canonical) :
    Removes set other (set.removeIntersection other) := by
  have hcommon := splitRanges_common h.separated hother.separated
  have hsplit := splitRanges_splits h.separated.ordered hother.separated.ordered
  obtain ⟨hleft, hright⟩ := splitRanges_separated h.separated hother.separated
  exact
    { canonical := .of_subset hcommon.separated h fun c hc => ((hcommon.covers c).1 hc).1
      leftCanonical := .of_subset hleft h fun c hc => ((hsplit.mem_left c).1 hc).1
      rightCanonical := .of_subset hright hother fun c hc => ((hsplit.mem_right c).1 hc).1
      mem_iff := hcommon.covers
      mem_left := hsplit.mem_left
      mem_right := hsplit.mem_right }

/-! ### Ordering -/

end CharacterSet

end Ned.Editor.Grammar
