import Ned.Editor.Search.IncrementalSearch
import Ned.Text.Lemmas.Grapheme

/-!
# What the two searches find

In memory a backward search bounds where a match may start. In a huge content it bounds where a match
may end. Each finds the last match within its bound, and a forward search the first one.
-/

namespace Ned.Editor.Search

open Library Text

/-! ## Strings without a scope -/

section Strings

variable {haystack needle : Bytes}

theorem inScope_nil (start stop : Nat) : inScope [] start stop = true := rfl

theorem findForward_isFirst (hne : needle ≠ []) (start : Nat) :
    IsFirst (OccursAt needle haystack) start (findForward [] haystack needle start) := by
  have hfind := find_isFirst haystack needle start hne
  rw [findForward]
  split
  · rename_i hnone
    rwa [hnone] at hfind
  · rename_i pos hpos
    rwa [if_pos (inScope_nil _ _), ← hpos]

theorem findBackward_isLast (hne : needle ≠ []) (before : Nat) :
    IsLast (OccursAt needle haystack) before (findBackward [] haystack needle before) := by
  cases before with
  | zero =>
      rw [findBackward]
      exact fun j hj => absurd hj (Nat.not_lt_zero j)
  | succ last =>
      have hfind := rfind_isLast haystack needle last hne
      rw [findBackward]
      split
      · rename_i hnone
        rwa [hnone] at hfind
      · rename_i pos hpos
        rwa [if_pos (inScope_nil _ _), ← hpos]

theorem asciiLower_part (text : Bytes) (start length : Nat) :
    (substr text start length).map asciiLower = substr (toAsciiLower text) start length := by
  rw [substr, substr, toAsciiLower, List.map_take, List.map_drop]

end Strings

namespace IncrementalSearch

variable {s : IncrementalSearch} {start stop : Nat} {w : Window}

/-- The text of the buffer, lowered unless the query has an upper-case letter. -/
def folded (s : IncrementalSearch) : Bytes :=
  if s.caseSensitive then s.buffer.storage.bytes else toAsciiLower s.buffer.storage.bytes

/-- The query matches at an offset. -/
def MatchAt (s : IncrementalSearch) (i : Nat) : Prop := OccursAt s.needle s.folded i

theorem needle_length (s : IncrementalSearch) : s.needle.length = s.query.length := by
  rw [needle]
  split
  · rfl
  · exact List.length_map _

theorem needle_ne_nil (hquery : s.query ≠ []) : s.needle ≠ [] := by
  apply List.ne_nil_of_length_pos
  rw [needle_length]
  exact List.length_pos_of_ne_nil hquery

theorem folded_length (s : IncrementalSearch) : s.folded.length = s.buffer.storage.byteLength := by
  rw [folded]
  split
  · rfl
  · exact List.length_map _

theorem haystack_eq (hsmall : s.huge = false) : s.haystack = s.folded := by
  rw [haystack, folded, s.contentLower_eq, s.content_eq, hsmall]
  rfl

theorem readLower_eq (s : IncrementalSearch) (start length : Nat) :
    s.readLower start length = (s.folded.drop start).take length := by
  simp only [readLower, folded, Storage.substring]
  split
  · rfl
  · exact asciiLower_part _ _ _

theorem MatchAt.end_le {i : Nat} (h : s.MatchAt i) (hquery : s.query ≠ []) :
    i + s.query.length ≤ s.buffer.storage.byteLength := by
  have hend := OccursAt.end_le h (needle_ne_nil hquery)
  rwa [needle_length, folded_length] at hend

/-- A match in a window is a match of the content that lies in the window. -/
theorem occursAt_window_iff (hquery : s.query ≠ []) (start length i : Nat) :
    OccursAt s.needle (s.readLower start length) i ↔
      s.MatchAt (start + i) ∧ i + s.query.length ≤ length := by
  rw [readLower_eq, OccursAt.part_iff (needle_ne_nil hquery), needle_length]
  rfl

/-! ## Windows -/

/-- No match starts between two windows that follow one another. -/
theorem scanForwardFrom_isFirst (hquery : s.query ≠ []) (w : Window) (offset : Nat) :
    IsFirst s.MatchAt offset (s.scanForwardFrom w offset) := by
  have hpos := List.length_pos_of_ne_nil hquery
  induction offset using scanForwardFrom.induct s w with
  | case1 offset hlt windowLen pos hfound =>
      have hfind := find_isFirst (s.readLower offset windowLen) s.needle 0 (needle_ne_nil hquery)
      rw [hfound] at hfind
      obtain ⟨-, hocc, hnone⟩ := hfind
      rw [occursAt_window_iff hquery] at hocc
      rw [scanForwardFrom, if_pos hlt]
      simp only [windowLen] at hfound
      simp only [hfound]
      refine ⟨Nat.le_add_right _ _, hocc.1, fun j hj hlt hmatch => ?_⟩
      obtain ⟨k, rfl⟩ := Nat.exists_eq_add_of_le hj
      apply hnone k (Nat.zero_le _) (Nat.lt_of_add_lt_add_left hlt)
      rw [occursAt_window_iff hquery]
      exact ⟨hmatch, by omega⟩
  | case2 offset hlt windowLen hnone ih =>
      have hfind := find_isFirst (s.readLower offset windowLen) s.needle 0 (needle_ne_nil hquery)
      rw [hnone] at hfind
      rw [scanForwardFrom, if_pos hlt]
      simp only [windowLen] at hnone
      simp only [hnone]
      apply ih.later (Nat.le_add_right _ _)
      intro j hj hlt hmatch
      obtain ⟨k, rfl⟩ := Nat.exists_eq_add_of_le hj
      apply hfind k (Nat.zero_le _)
      rw [occursAt_window_iff hquery]
      have hend := hmatch.end_le hquery
      refine ⟨hmatch, ?_⟩
      rw [Nat.le_min, needle_length]
      omega
  | case3 offset hge =>
      rw [scanForwardFrom, if_neg hge]
      intro j hj hmatch
      have hend := hmatch.end_le hquery
      omega

theorem readLower_length {length : Nat} (hle : start + length ≤ s.buffer.storage.byteLength) :
    (s.readLower start length).length = length := by
  rw [readLower_eq, List.length_take, List.length_drop, folded_length]
  exact Nat.min_eq_left (Nat.le_sub_of_add_le (Nat.add_comm start length ▸ hle))

/-- The last match that lies in a window up to `stop`, with every match before it left out. -/
theorem rfind_window_isLast (hquery : s.query ≠ []) {length : Nat}
    (hle : start + length ≤ s.buffer.storage.byteLength) :
    IsLast (fun i => s.MatchAt (start + i) ∧ i + s.query.length ≤ length) (length + 1)
      (rfind (s.readLower start length) s.needle (s.readLower start length).length) := by
  have hfind := rfind_isLast (s.readLower start length) s.needle (s.readLower start length).length
    (needle_ne_nil hquery)
  rw [readLower_length hle] at hfind ⊢
  rwa [show OccursAt s.needle (s.readLower start length) = fun i =>
    s.MatchAt (start + i) ∧ i + s.query.length ≤ length from
      funext fun i => propext (occursAt_window_iff hquery start length i)] at hfind

/-- What is searched backwards up to `stop` is a match that ends there or before. -/
theorem scanBackwardFrom_isLast (hquery : s.query ≠ []) (w : Window)
    (hstop : stop ≤ s.buffer.storage.byteLength) :
    IsLast s.MatchAt (stop + 1 - s.query.length) (s.scanBackwardFrom w stop) := by
  have hpos := List.length_pos_of_ne_nil hquery
  have hsize := w.size_pos
  have hneedle := s.needle_length
  induction stop using scanBackwardFrom.induct s w with
  | case1 stop hgt windowLen start window pos hfound =>
      have hfind := rfind_window_isLast hquery (show start + windowLen ≤ _ by omega)
      rw [hfound] at hfind
      obtain ⟨-, ⟨hmatch, hend⟩, hnone⟩ := hfind
      rw [scanBackwardFrom, if_pos hgt]
      simp only [window, start, windowLen] at hfound
      simp only [hfound]
      refine ⟨by omega, hmatch, fun j hj hlt hother => ?_⟩
      obtain ⟨k, rfl⟩ := Nat.exists_eq_add_of_le
        (Nat.le_of_lt (Nat.lt_of_le_of_lt (Nat.le_add_right _ pos) hj))
      have hin : k + s.query.length ≤ windowLen := by omega
      exact hnone k (Nat.lt_of_add_lt_add_left hj) (by omega) ⟨hother, hin⟩
  | case2 stop hgt windowLen start window hnone hstart =>
      have hfind := rfind_window_isLast hquery (show start + windowLen ≤ _ by omega)
      rw [hnone] at hfind
      rw [scanBackwardFrom, if_pos hgt]
      simp only [window, start, windowLen] at hnone hstart
      simp only [hnone]
      rw [if_pos hstart]
      intro j hj hmatch
      have hin : j + s.query.length ≤ windowLen := by omega
      apply hfind j (by omega)
      rw [show start + j = j by omega]
      exact ⟨hmatch, hin⟩
  | case3 stop hgt windowLen start window hnone hstart ih =>
      have hfind := rfind_window_isLast hquery (show start + windowLen ≤ _ by omega)
      rw [hnone] at hfind
      rw [scanBackwardFrom, if_pos hgt]
      have hnext := ih (by omega)
      simp only [window, start, windowLen] at hnone hstart hnext
      simp only [hnone, hstart, if_false]
      apply hnext.earlier (by omega)
      intro j hj hlt hmatch
      obtain ⟨k, rfl⟩ := Nat.exists_eq_add_of_le (show start ≤ j by omega)
      exact hfind k (by omega) ⟨hmatch, by omega⟩
  | case4 stop hzero =>
      rw [scanBackwardFrom, if_neg hzero]
      intro j hj
      omega

end IncrementalSearch

/-!
## Searching in memory and through windows

Forwards the two searches agree. Backwards they disagree about a match that spans the offset they start
from, which only the search in memory can find before it wraps around.
-/

namespace IncrementalSearch

variable {p : Platform} {s t : IncrementalSearch} {start : Nat} {w : Window}

/-- The same session over the same text, held by a piece table. -/
def overHuge (s : IncrementalSearch) : IncrementalSearch :=
  { s with
    buffer := { s.buffer with storage := .ofPieceTable s.buffer.storage.bytes }
    huge := true
    content := []
    contentLower := []
    huge_eq := rfl
    content_eq := rfl
    contentLower_eq := rfl }

/-- What a search leaves: whether it found a match, and where point is. -/
def outcome (s : IncrementalSearch) : Bool × Nat := (s.found, s.buffer.point)

/-- A match that starts before an offset and ends after it. -/
def Spans (s : IncrementalSearch) (start i : Nat) : Prop := i < start ∧ start < i + s.query.length

/-- The last of the matches with a property. -/
def LastMatch (s : IncrementalSearch) (Q : Nat → Prop) (i : Nat) : Prop :=
  s.MatchAt i ∧ Q i ∧ ∀ j, s.MatchAt j → Q j → j ≤ i

/-- The last match before an offset that ends there or before, or the last of all where none does. -/
def LastEnding (s : IncrementalSearch) (start i : Nat) : Prop :=
  s.LastMatch (fun i => i + s.query.length ≤ start) i ∨
    (∀ j, s.MatchAt j → start < j + s.query.length) ∧ s.LastMatch (fun _ => True) i

/-- Where the two searches back from an offset come to the same point: no match spans the offset, or the
last match that starts before it and the last one that ends by it lie in one grapheme. -/
def AgreesBehind (p : Platform) (s : IncrementalSearch) (start : Nat) : Prop :=
  (∀ i, s.MatchAt i → ¬ s.Spans start i) ∨
    ∃ i j, s.LastMatch (· < start) i ∧ s.LastEnding start j ∧ s.buffer.snap p i = s.buffer.snap p j

/-! ## The last match within a bound -/

section Last

variable {stop i : Nat} {a b : Option Nat}

theorem isLast_iff : IsLast s.MatchAt stop (some i) ↔ s.LastMatch (· < stop) i := by
  constructor
  · intro h
    exact ⟨h.2.1, h.1, fun j hj hlt => h.le_of hlt hj⟩
  · rintro ⟨hi, hlt, hle⟩
    exact ⟨hlt, hi, fun j hij hj hmatch => absurd (hle j hmatch hj) (Nat.not_le.2 hij)⟩

theorem lt_sub_iff (hquery : s.query ≠ []) : i < stop + 1 - s.query.length ↔ i + s.query.length ≤ stop := by
  have hpos := List.length_pos_of_ne_nil hquery
  omega

theorem isLast_ending_iff (hquery : s.query ≠ []) :
    IsLast s.MatchAt (stop + 1 - s.query.length) (some i) ↔
      s.LastMatch (fun i => i + s.query.length ≤ stop) i := by
  rw [isLast_iff, LastMatch, LastMatch, lt_sub_iff hquery]
  simp only [lt_sub_iff hquery]

theorem isLast_all_iff (hquery : s.query ≠ []) :
    IsLast s.MatchAt s.buffer.storage.byteLength (some i) ↔ s.LastMatch (fun _ => True) i := by
  have hlt : ∀ j, s.MatchAt j → j < s.buffer.storage.byteLength := fun j hj =>
    Nat.lt_of_lt_of_le (Nat.lt_add_of_pos_right (List.length_pos_of_ne_nil hquery)) (hj.end_le hquery)
  rw [isLast_iff]
  constructor
  · rintro ⟨hi, -, hle⟩
    exact ⟨hi, trivial, fun j hj _ => hle j hj (hlt j hj)⟩
  · rintro ⟨hi, -, hle⟩
    exact ⟨hi, hlt i hi, fun j hj _ => hle j hj trivial⟩

/-- Every match ends within the content. -/
theorem isLast_whole (hquery : s.query ≠ [])
    (h : IsLast s.MatchAt (s.buffer.storage.byteLength + 1 - s.query.length) a) :
    IsLast s.MatchAt s.buffer.storage.byteLength a := by
  have hpos := List.length_pos_of_ne_nil hquery
  apply h.earlier (by omega)
  intro j hj _ hmatch
  have hend := hmatch.end_le hquery
  omega

theorem lastEnding_iff (hquery : s.query ≠ [])
    (ha : IsLast s.MatchAt (stop + 1 - s.query.length) a)
    (hb : IsLast s.MatchAt s.buffer.storage.byteLength b) :
    a.or b = some i ↔ s.LastEnding stop i := by
  have hending : a = some i ↔ s.LastMatch (fun i => i + s.query.length ≤ stop) i := by
    rw [← isLast_ending_iff hquery]
    constructor
    · rintro rfl
      exact ha
    · exact ha.unique
  have hall : b = some i ↔ s.LastMatch (fun _ => True) i := by
    rw [← isLast_all_iff hquery]
    constructor
    · rintro rfl
      exact hb
    · exact hb.unique
  have hnone : a = none ↔ ∀ j, s.MatchAt j → stop < j + s.query.length := by
    constructor
    · rintro rfl j hj
      exact Nat.lt_of_not_le fun hle => ha j ((lt_sub_iff hquery).2 hle) hj
    · intro h
      apply ha.unique
      intro j hj hmatch
      exact absurd ((lt_sub_iff hquery).1 hj) (Nat.not_le.2 (h j hmatch))
  rw [Option.or_eq_some_iff, hending, hnone, hall]
  rfl

end Last

/-! ## Where a search lands -/

/-- What a search leaves that has located a match, or none. -/
def landing (p : Platform) (s : IncrementalSearch) : Option Nat → Option (Bool × Nat)
  | some pos => (s.buffer.snap p (s.pointAt pos)).map fun point => (true, point)
  | none => some (false, s.buffer.point)

theorem setPoint_outcome (p : Platform) (s : IncrementalSearch) (byteOffset : Nat) :
    (s.setPoint p byteOffset).map outcome =
      (s.buffer.snap p byteOffset).map fun point => (s.found, point) := by
  rw [setPoint]
  split
  · rename_i hnone
    cases hsnap : s.buffer.snap p byteOffset with
    | none => rfl
    | some point =>
        rw [Buffer.setPoint, hsnap] at hnone
        cases hnone
  · rename_i b hb
    obtain ⟨point, hsnap, hbuffer⟩ := Option.bind_eq_some_iff.1 hb
    cases hbuffer
    rw [hsnap]
    rfl

theorem search_outcome (hsmall : s.huge = false) (hquery : s.query ≠ []) :
    (s.search p w start).map outcome = s.landing p (s.locate start) := by
  have hmemory : ¬ s.huge = true := by simp [hsmall]
  rw [search, if_neg (mt List.isEmpty_iff.1 hquery), if_neg hmemory]
  cases s.locate start with
  | none => rfl
  | some pos => exact setPoint_outcome p _ _

theorem overHuge_snap (s : IncrementalSearch) (byteOffset : Nat) :
    s.overHuge.buffer.snap p byteOffset = s.buffer.snap p byteOffset :=
  snapToGraphemeBoundary_huge p.graphemeBreak s.buffer.storage.bytes true s.buffer.storage.huge byteOffset

theorem overHuge_search_outcome (hquery : s.query ≠ []) :
    (s.overHuge.search p w start).map outcome = s.landing p (s.overHuge.locateHuge w start) := by
  rw [search, if_neg (mt List.isEmpty_iff.1 (show s.overHuge.query ≠ [] from hquery)),
    if_pos (show s.overHuge.huge = true from rfl), searchHuge]
  cases s.overHuge.locateHuge w start with
  | none => rfl
  | some pos =>
      have houtcome := setPoint_outcome p
        { s.overHuge with found := true, matchedPrefixLength := s.query.length } (s.pointAt pos)
      exact houtcome.trans (congrArg _ (s.overHuge_snap _))

theorem landing_some_eq_iff (hbackward : s.direction = .backward) {i j : Nat} :
    s.landing p (some i) = s.landing p (some j) ↔ s.buffer.snap p i = s.buffer.snap p j := by
  have hinj : Function.Injective fun point : Nat => (true, point) := fun _ _ h => (Prod.mk.inj h).2
  simp only [landing, pointAt, hbackward]
  exact (Option.map_injective hinj).eq_iff

/-! ## The two searches -/

theorem locate_forward (hsmall : s.huge = false) (hscope : s.scope = []) (hquery : s.query ≠ [])
    (hforward : s.direction = .forward) : s.locate start = s.overHuge.locateHuge w start := by
  have hsame : ∀ offset, findForward s.scope s.haystack s.needle offset =
      s.overHuge.scanForwardFrom w offset := by
    intro offset
    rw [hscope, haystack_eq hsmall]
    apply (findForward_isFirst (needle_ne_nil hquery) offset).unique
    exact scanForwardFrom_isFirst (s := s.overHuge) hquery w offset
  rw [locate, locateHuge, hforward, show s.overHuge.direction = .forward from hforward]
  simp only [hsame]

/-- Backwards, the two searches differ in the bound that they start with. -/
theorem locate_backward (hsmall : s.huge = false) (hscope : s.scope = []) (hquery : s.query ≠ [])
    (hbackward : s.direction = .backward) (hstart : start ≤ s.buffer.storage.byteLength) :
    ∃ a a' b, s.locate start = a.or b ∧ s.overHuge.locateHuge w start = a'.or b ∧
      IsLast s.MatchAt start a ∧ IsLast s.MatchAt (start + 1 - s.query.length) a' ∧
      IsLast s.MatchAt s.buffer.storage.byteLength b := by
  have hmemory : ∀ before, IsLast (OccursAt s.needle s.haystack) before
      (findBackward [] s.haystack s.needle before) := findBackward_isLast (needle_ne_nil hquery)
  rw [haystack_eq hsmall] at hmemory
  have hwrapped := hmemory s.folded.length
  rw [folded_length] at hwrapped
  have hhuge := scanBackwardFrom_isLast (s := s.overHuge) hquery w hstart
  have hwhole := isLast_whole (s := s.overHuge) hquery
    (scanBackwardFrom_isLast (s := s.overHuge) hquery w (Nat.le_refl _))
  refine ⟨_, _, _, ?_, ?_, hmemory start, hhuge, hwrapped⟩
  · rw [locate, hbackward, hscope, haystack_eq hsmall, folded_length]
  · rw [locateHuge, show s.overHuge.direction = .backward from hbackward]
    exact congrArg (Option.or _) (hwhole.unique hwrapped)

/-- Whatever a search is bounded by, it finds something where the content has a match. -/
theorem or_eq_none_iff {stop : Nat} {a b : Option Nat} (hquery : s.query ≠ [])
    (hb : IsLast s.MatchAt s.buffer.storage.byteLength b) (ha : IsLast s.MatchAt stop a) :
    a.or b = none ↔ ∀ i, ¬ s.MatchAt i := by
  have hlt : ∀ j, s.MatchAt j → j < s.buffer.storage.byteLength := fun j hj =>
    Nat.lt_of_lt_of_le (Nat.lt_add_of_pos_right (List.length_pos_of_ne_nil hquery)) (hj.end_le hquery)
  rw [Option.or_eq_none_iff]
  constructor
  · rintro ⟨-, rfl⟩ i hi
    exact hb i (hlt i hi) hi
  · intro h
    exact ⟨ha.unique fun j _ => h j, hb.unique fun j _ => h j⟩

/-- A search leaves the same found flag and the same point in memory and through windows of any size, just
when it goes forwards or the matches behind the offset agree. -/
theorem overHuge_agrees_iff (hsmall : s.huge = false) (hscope : s.scope = []) (hquery : s.query ≠ [])
    (hstart : start ≤ s.buffer.storage.byteLength) :
    (s.search p kWindow start).map outcome = (s.overHuge.search p w start).map outcome ↔
      s.direction = .forward ∨ s.AgreesBehind p start := by
  rw [search_outcome hsmall hquery, overHuge_search_outcome hquery]
  cases hdirection : s.direction with
  | forward =>
      rw [locate_forward (w := w) hsmall hscope hquery hdirection]
      exact iff_of_true rfl (.inl rfl)
  | backward =>
      obtain ⟨a, a', b, hmemory, hhuge, ha, ha', hb⟩ :=
        locate_backward hsmall hscope hquery hdirection hstart
      rw [hmemory, hhuge]
      constructor
      · intro hsame
        apply Or.inr
        by_cases hspan : ∃ i, s.MatchAt i ∧ s.Spans start i
        · obtain ⟨k, hk, hlt, -⟩ := hspan
          -- the match that spans the offset starts before it, and there is a last one of all
          cases a with
          | none => exact absurd hk (ha k hlt)
          | some i =>
              cases hj : a'.or b with
              | none => exact absurd hk ((or_eq_none_iff hquery hb ha').1 hj k)
              | some j =>
                  rw [hj, Option.some_or, landing_some_eq_iff hdirection] at hsame
                  exact .inr ⟨i, j, isLast_iff.1 ha, (lastEnding_iff hquery ha' hb).1 hj, hsame⟩
        · exact .inl fun i hi hspans => hspan ⟨i, hi, hspans⟩
      · rintro (hforward | hspan | ⟨i, j, hi, hj, hsnap⟩)
        · cases hforward
        · have hle : start + 1 - s.query.length ≤ start := by
            have hpos := List.length_pos_of_ne_nil hquery
            omega
          have heq : a' = a := by
            apply (ha'.earlier hle _).unique ha
            intro k hk hlt hmatch
            exact hspan k hmatch ⟨hlt, Nat.lt_of_not_le fun hle => absurd hk
              (Nat.not_le.2 ((lt_sub_iff hquery).2 hle))⟩
          rw [heq]
        · rw [ha.unique (isLast_iff.2 hi), (lastEnding_iff hquery ha' hb).2 hj, Option.some_or,
            landing_some_eq_iff hdirection]
          exact hsnap

/-! ## A match around the offset -/

/-- Breaks between any two codepoints. -/
def plainPlatform : Platform := { graphemeBreak := fun state _ _ => (true, state), keySort := .insertion }

/-- A search back for "ab" in "abab". -/
def around : IncrementalSearch :=
  { new (.ofStorage "" ⟨[97, 98, 97, 98], false⟩) .backward with query := [97, 98] }

/-- From the end no match is spanned, and windows of one byte find what memory does. -/
theorem overHuge_agrees_iff_around : (around.search plainPlatform kWindow 4).map outcome =
    (around.overHuge.search plainPlatform { size := 1, size_pos := Nat.one_pos } 4).map outcome := by
  apply (overHuge_agrees_iff rfl rfl (by decide) (by decide)).2
  apply Or.inr
  apply Or.inl
  rintro i hi ⟨-, hspan⟩
  exact absurd (hi.end_le (by decide)) (Nat.not_le.2 hspan)

/-- From inside the second match, memory finds that match and the windows find the first one. -/
theorem not_overHuge_agrees :
    (around.search plainPlatform kWindow 3).map outcome = some (true, 2) ∧
      (around.overHuge.search plainPlatform kWindow 3).map outcome = some (true, 0) := by
  have hquery : around.query ≠ [] := by decide
  obtain ⟨h0, h1, h2⟩ : OccursAt around.needle around.folded 0 ∧
      ¬ OccursAt around.needle around.folded 1 ∧ OccursAt around.needle around.folded 2 := by decide
  obtain ⟨a, a', b, hmemory, hhuge, ha, ha', -⟩ :=
    locate_backward (s := around) (w := kWindow) rfl rfl hquery rfl
      (show 3 ≤ around.buffer.storage.byteLength by decide)
  have hlast : a = some 2 := ha.unique ⟨by decide, h2, fun j hj hlt => by omega⟩
  have hlast' : a' = some 0 := by
    apply ha'.unique
    refine ⟨by decide, h0, fun j hj hlt => ?_⟩
    obtain rfl : j = 1 := Nat.le_antisymm (Nat.le_of_lt_succ hlt) hj
    exact h1
  rw [search_outcome rfl hquery, overHuge_search_outcome hquery, hmemory, hhuge, hlast, hlast']
  show landing plainPlatform around (some 2) = _ ∧ landing plainPlatform around (some 0) = _
  decide

end IncrementalSearch

end Ned.Editor.Search
