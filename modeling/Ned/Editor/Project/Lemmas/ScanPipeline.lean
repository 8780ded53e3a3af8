import Ned.Editor.Project.ScanPipeline
import Mathlib.Data.List.Basic
import Mathlib.Data.List.Flatten

/-!
# What every schedule keeps

Which thread holds which item, who is to emit what is done, and that what has been emitted, with what is
being sent, is the matches of the first items in order.
-/

namespace Ned.Editor.Project.ScanPipeline

variable {n : Nat} {α μ : Type} {scan : α → List μ} {s s' : ScanPipeline n α μ} {t u : Thread n}
  {pc : Pc μ} {i j : Nat}

/-! ## Items -/

def clear (item : Item α μ) : Item α μ := { item with found := [] }

theorem collectDone_spec (items : List (Item α μ)) :
    ∃ count, count ≤ items.length ∧
      collectDone items = ((items.take count).flatMap (·.found),
        (items.take count).map clear ++ items.drop count, count) ∧
      (∀ item ∈ items.take count, item.done = true) ∧
      ∀ item, items[count]? = some item → item.done = false := by
  induction items with
  | nil => exact ⟨0, Nat.le_refl _, rfl, fun item h => absurd h List.not_mem_nil, fun item h => by cases h⟩
  | cons item items ih =>
      cases hdone : item.done with
      | false =>
          refine ⟨0, Nat.zero_le _, ?_, fun item h => absurd h List.not_mem_nil, ?_⟩
          · simp [collectDone, hdone]
          · rintro item' h
            cases h
            exact hdone
      | true =>
          obtain ⟨count, hle, hcollect, hall, hnext⟩ := ih
          refine ⟨count + 1, Nat.succ_le_succ hle, ?_, ?_, hnext⟩
          · simp [collectDone, hdone, hcollect, clear]
          · rw [List.take_succ_cons, List.forall_mem_cons]
            exact ⟨hdone, hall⟩

def sources (s : ScanPipeline n α μ) : List α := s.items.map (·.source)

def DoneAt (s : ScanPipeline n α μ) (i : Nat) : Prop := ∃ item, s.items[i]? = some item ∧ item.done = true

theorem sources_length (s : ScanPipeline n α μ) : s.sources.length = s.items.length := List.length_map _

theorem DoneAt.lt_length (h : s.DoneAt i) : i < s.items.length := by
  obtain ⟨item, hitem, -⟩ := h
  exact (List.getElem?_eq_some_iff.1 hitem).1

@[simp] theorem goTo_pc : (s.goTo t pc).pc = Function.update s.pc t pc := rfl

theorem push_sources (source : α) : (s.push source).sources = s.sources ++ [source] := List.map_append

theorem push_doneAt_iff (source : α) : (s.push source).DoneAt i ↔ s.DoneAt i := by
  constructor
  · rintro ⟨item, hitem, hdone⟩
    rw [push, List.getElem?_append] at hitem
    split at hitem
    · exact ⟨item, hitem, hdone⟩
    · rw [List.getElem?_singleton] at hitem
      split at hitem
      · cases hitem
        cases hdone
      · cases hitem
  · rintro ⟨item, hitem, hdone⟩
    refine ⟨item, ?_, hdone⟩
    rw [push, List.getElem?_append_left (List.getElem?_eq_some_iff.1 hitem).1, hitem]

theorem mark_getElem? (j : Nat) : (s.mark scan t i).items[j]? =
    if i = j then (s.items[j]?).map (finishItem scan) else s.items[j]? := by
  rw [mark, List.getElem?_modify]
  cases s.items[j]? with
  | none => simp
  | some item =>
      by_cases h : i = j
      · simp [h]
      · simp [h]

theorem mark_sources : (s.mark scan t i).sources = s.sources := by
  apply List.ext_getElem?
  intro j
  rw [sources, sources, List.getElem?_map, List.getElem?_map, mark_getElem?]
  by_cases h : i = j
  · rw [if_pos h, Option.map_map]
    rfl
  · rw [if_neg h]

theorem mark_doneAt_iff : (s.mark scan t i).DoneAt j ↔ s.DoneAt j ∨ i = j ∧ j < s.items.length := by
  rw [DoneAt, mark_getElem?]
  by_cases h : i = j
  · rw [if_pos h]
    constructor
    · rintro ⟨item, hitem, -⟩
      obtain ⟨item', hitem', -⟩ := Option.map_eq_some_iff.1 hitem
      exact .inr ⟨h, (List.getElem?_eq_some_iff.1 hitem').1⟩
    · intro hdone
      have hlt : j < s.items.length := by
        rcases hdone with hdone | ⟨-, hlt⟩
        · exact hdone.lt_length
        · exact hlt
      exact ⟨finishItem scan s.items[j], by rw [List.getElem?_eq_getElem hlt]; rfl, rfl⟩
  · rw [if_neg h]
    constructor
    · exact .inl
    · rintro (hdone | ⟨heq, -⟩)
      · exact hdone
      · exact absurd heq h

/-- What collecting does: the matches of the items that are done come out, up to one that is not. -/
structure Collected (s : ScanPipeline n α μ) (t : Thread n) (count : Nat) : Prop where
  le : s.emitted + count ≤ s.items.length
  pc_eq : (s.collect t).pc =
    Function.update s.pc t (.sending (((s.items.drop s.emitted).take count).flatMap (·.found)))
  emitted_eq : (s.collect t).emitted = s.emitted + count
  getElem? : ∀ j, (s.collect t).items[j]? =
    if s.emitted ≤ j ∧ j < s.emitted + count then (s.items[j]?).map clear else s.items[j]?
  done : ∀ j, s.emitted ≤ j → j < s.emitted + count → s.DoneAt j
  next : ¬ s.DoneAt (s.emitted + count)

theorem exists_collected (hle : s.emitted ≤ s.items.length) : ∃ count, Collected s t count := by
  obtain ⟨count, hcount, hcollect, hdone, hnext⟩ := collectDone_spec (s.items.drop s.emitted)
  have hlength : count ≤ s.items.length - s.emitted := by rwa [List.length_drop] at hcount
  have heq : s.collect t =
      { s.goTo t (.sending (((s.items.drop s.emitted).take count).flatMap (·.found))) with
        items := s.items.take s.emitted ++
          (((s.items.drop s.emitted).take count).map clear ++ (s.items.drop s.emitted).drop count)
        emitted := s.emitted + count } := by
    rw [collect, hcollect]
  refine ⟨count, by omega, congrArg ScanPipeline.pc heq, congrArg ScanPipeline.emitted heq, fun j => ?_,
    fun j hj hlt => ?_, ?_⟩
  · have htake : (s.items.take s.emitted).length = s.emitted := by rw [List.length_take]; omega
    rw [congrArg ScanPipeline.items heq]
    dsimp only
    rcases Nat.lt_or_ge j s.emitted with hj | hj
    · rw [if_neg (by omega), List.getElem?_append_left (by omega), List.getElem?_take_of_lt hj]
    · rw [List.getElem?_append_right (by omega), htake]
      rcases Nat.lt_or_ge j (s.emitted + count) with hlt | hge
      · rw [if_pos ⟨hj, hlt⟩, List.getElem?_append_left (by simp; omega), List.getElem?_map,
          List.getElem?_take_of_lt (by omega), List.getElem?_drop, Nat.add_sub_cancel' hj]
      · rw [if_neg (by omega), List.getElem?_append_right (by simp; omega), List.getElem?_drop,
          List.getElem?_drop]
        congr 1
        simp
        omega
  · have hin : j < s.items.length := by omega
    refine ⟨s.items[j], List.getElem?_eq_getElem hin, hdone _ ?_⟩
    apply List.mem_of_getElem? (i := j - s.emitted)
    rw [List.getElem?_take_of_lt (by omega), List.getElem?_drop, Nat.add_sub_cancel' hj,
      List.getElem?_eq_getElem hin]
  · rintro ⟨item, hitem, htrue⟩
    rw [← List.getElem?_drop] at hitem
    rw [hnext item hitem] at htrue
    cases htrue

namespace Collected

variable {count : Nat}

theorem length_eq (h : Collected s t count) : (s.collect t).items.length = s.items.length := by
  apply Nat.le_antisymm
  · apply List.getElem?_eq_none_iff.1
    rw [h.getElem?, List.getElem?_eq_none_iff.2 (Nat.le_refl _)]
    simp
  · rw [← List.getElem?_eq_none_iff]
    have hlast := h.getElem? (s.collect t).items.length
    rw [List.getElem?_eq_none_iff.2 (Nat.le_refl _)] at hlast
    split at hlast
    · exact Option.map_eq_none_iff.1 hlast.symm
    · exact hlast.symm

theorem sources_eq (h : Collected s t count) : (s.collect t).sources = s.sources := by
  apply List.ext_getElem?
  intro j
  rw [sources, sources, List.getElem?_map, List.getElem?_map, h.getElem?]
  split
  · rw [Option.map_map]
    rfl
  · rfl

theorem doneAt_iff (h : Collected s t count) : (s.collect t).DoneAt j ↔ s.DoneAt j := by
  rw [DoneAt, DoneAt, h.getElem?]
  split
  · constructor
    · rintro ⟨item, hitem, hdone⟩
      obtain ⟨item', hitem', rfl⟩ := Option.map_eq_some_iff.1 hitem
      exact ⟨item', hitem', hdone⟩
    · rintro ⟨item, hitem, hdone⟩
      exact ⟨clear item, by rw [hitem]; rfl, hdone⟩
  · rfl

end Collected

/-! ## Phases -/

def Phase.early : Phase → Bool
  | .pushing | .pushed | .closing => true
  | .working | .returned => false

/-- What the phase of the calling thread says of every thread. -/
structure Phased (s : ScanPipeline n α μ) : Prop where
  closed_iff : s.closed = true ↔ s.phase ≠ .pushing ∧ s.phase ≠ .pushed
  outside_iff : ∀ t, s.pc t = .outside ↔ t = none ∧ Phase.early s.phase = true
  awake : Phase.early s.phase = false → ∀ t, s.pc t ≠ .waiting
  ended : ∀ t, s.pc t = .exited → s.closed = true ∧ s.next = s.items.length
  returned : s.phase = .returned → ∀ t, s.pc t = .exited

theorem Phased.goTo (h : Phased s) (hinside : s.pc t ≠ .outside) (hrunning : s.pc t ≠ .exited)
    (hnew : pc ≠ .outside) (hwaiting : pc = .waiting → s.closed = false)
    (hended : pc = .exited → s.closed = true ∧ s.next = s.items.length) : Phased (s.goTo t pc) where
  closed_iff := h.closed_iff
  outside_iff u := by
    show Function.update s.pc t pc u = .outside ↔ u = none ∧ Phase.early s.phase = true
    by_cases hu : u = t
    · subst hu
      rw [Function.update_self]
      exact iff_of_false hnew fun hearly => hinside ((h.outside_iff u).2 hearly)
    · rw [Function.update_of_ne hu]
      exact h.outside_iff u
  awake hlate u := by
    show Function.update s.pc t pc u ≠ .waiting
    by_cases hu : u = t
    · subst hu
      rw [Function.update_self]
      intro hwaits
      have hopen := hwaiting hwaits
      rw [← Bool.not_eq_true, h.closed_iff] at hopen
      apply hopen
      constructor
      · intro hphase
        rw [ScanPipeline.goTo, hphase] at hlate
        cases hlate
      · intro hphase
        rw [ScanPipeline.goTo, hphase] at hlate
        cases hlate
    · rw [Function.update_of_ne hu]
      exact h.awake hlate u
  ended u hu' := by
    have hu' : Function.update s.pc t pc u = .exited := hu'
    by_cases hu : u = t
    · subst hu
      rw [Function.update_self] at hu'
      exact hended hu'
    · rw [Function.update_of_ne hu] at hu'
      exact h.ended u hu'
  returned hreturned := absurd (h.returned hreturned t) hrunning

theorem Phased.congr (h : Phased s) (hphase : s'.phase = s.phase) (hclosed : s'.closed = s.closed)
    (hpc : s'.pc = s.pc)
    (hended : ∀ t, s.pc t = .exited → s'.next = s.next ∧ s'.items.length = s.items.length) :
    Phased s' where
  closed_iff := by rw [hphase, hclosed, h.closed_iff]
  outside_iff t := by rw [hphase, hpc, h.outside_iff t]
  awake hlate t := by
    rw [hphase] at hlate
    rw [hpc]
    exact h.awake hlate t
  ended t ht := by
    rw [hpc] at ht
    rw [(hended t ht).1, (hended t ht).2, hclosed]
    exact h.ended t ht
  returned hreturned := by
    rw [hphase] at hreturned
    rw [hpc]
    exact h.returned hreturned

theorem Phased.moved {pc' : Pc μ} (h : Phased s) (hpc : s.pc t = pc) (hold : pc ≠ .outside ∧ pc ≠ .exited)
    (hnew : pc' ≠ .outside ∧ pc' ≠ .waiting ∧ pc' ≠ .exited) (hpc' : s'.pc = Function.update s.pc t pc')
    (hphase : s'.phase = s.phase) (hclosed : s'.closed = s.closed)
    (hended : ∀ u, s.pc u = .exited → s'.next = s.next ∧ s'.items.length = s.items.length) : Phased s' := by
  subst hpc
  have hmoved : Phased (s.goTo t pc') := by
    apply h.goTo hold.1 hold.2 hnew.1
    · exact fun heq => absurd heq hnew.2.1
    · exact fun heq => absurd heq hnew.2.2
  refine hmoved.congr hphase hclosed hpc' ?_
  intro u hu
  have hu : Function.update s.pc t pc' u = .exited := hu
  by_cases heq : u = t
  · rw [heq, Function.update_self] at hu
    exact absurd hu hnew.2.2
  · rw [Function.update_of_ne heq] at hu
    exact hended u hu

theorem Phased.not_exited_of_early (h : Phased s) (hphase : s.phase = .pushing ∨ s.phase = .pushed)
    (t : Thread n) : s.pc t ≠ .exited := by
  intro hexited
  obtain ⟨hpushing, hpushed⟩ := h.closed_iff.1 (h.ended t hexited).1
  rcases hphase with hphase | hphase
  · exact hpushing hphase
  · exact hpushed hphase

theorem Phased.moves (h : Phased s) {phase : Phase} {closed : Bool} (hearly : Phase.early s.phase = true)
    (hphase : Phase.early phase = true) (hpushing : s.phase = .pushing ∨ s.phase = .pushed)
    (hclosed : closed = true ↔ phase ≠ .pushing ∧ phase ≠ .pushed) :
    Phased { s with phase := phase, closed := closed } where
  closed_iff := hclosed
  outside_iff t := by
    rw [h.outside_iff t, hearly]
    simp [hphase]
  awake hlate := by
    rw [hphase] at hlate
    cases hlate
  ended t ht := absurd ht (h.not_exited_of_early hpushing t)
  returned hreturned := by
    have hreturned : phase = .returned := hreturned
    rw [hreturned] at hphase
    cases hphase

theorem Phased.notifyAll (h : Phased s) (hphase : s.phase = .closing) : Phased s.notifyAll where
  closed_iff := by
    have hclosed : s.closed = true := h.closed_iff.2 (by simp [hphase])
    simp [ScanPipeline.notifyAll, hclosed]
  outside_iff t := by
    have hnot := h.outside_iff t
    cases t with
    | none => simp [ScanPipeline.notifyAll, Phase.early]
    | some i =>
        have hinside : s.pc (some i) ≠ .outside := fun h => by simpa using hnot.1 h
        simp only [ScanPipeline.notifyAll, Phase.early]
        cases hpc : s.pc (some i) with
        | outside => exact absurd hpc hinside
        | _ => simp
  awake _ t := by
    cases t with
    | none => simp [ScanPipeline.notifyAll]
    | some i =>
        simp only [ScanPipeline.notifyAll]
        cases s.pc (some i) with
        | _ => simp
  ended t ht := by
    cases t with
    | none => cases ht
    | some i =>
        have hexited : s.pc (some i) = .exited := by
          simp only [ScanPipeline.notifyAll] at ht
          cases hpc : s.pc (some i) with
          | exited => rfl
          | _ =>
              rw [hpc] at ht
              cases ht
        exact h.ended (some i) hexited
  returned hreturned := by cases hreturned

theorem Phased.join (h : Phased s) (hphase : s.phase = .working) (hall : ∀ t, s.pc t = .exited) :
    Phased { s with phase := .returned } where
  closed_iff := by
    have hclosed : s.closed = true := h.closed_iff.2 (by simp [hphase])
    simp [hclosed]
  outside_iff t := by simp [hall t, Phase.early]
  awake _ t := by simp [hall t]
  ended := h.ended
  returned _ := hall

theorem Phased.start : Phased (ScanPipeline.start : ScanPipeline n α μ) where
  closed_iff := by simp [ScanPipeline.start]
  outside_iff t := by
    cases t with
    | none => simp [ScanPipeline.start, Phase.early]
    | some i => simp [ScanPipeline.start]
  awake hlate := by cases hlate
  ended t ht := by
    cases t with
    | none => cases ht
    | some i => cases ht
  returned hreturned := by cases hreturned

/-! ## Tasks -/

/-- Every item that was taken is done or is being scanned, by one thread. -/
structure Tasked (s : ScanPipeline n α μ) : Prop where
  next_le : s.next ≤ s.items.length
  scanning : ∀ t i, s.pc t = .scanning i → i < s.next ∧ ¬ s.DoneAt i
  taken : ∀ i, i < s.next → s.DoneAt i ∨ ∃ t, s.pc t = .scanning i
  done : ∀ i, s.DoneAt i → i < s.next
  alone : ∀ t u i, s.pc t = .scanning i → s.pc u = .scanning i → t = u
  scanned : s.scanned = List.range s.next

theorem Tasked.congr (h : Tasked s) (hnext : s'.next = s.next) (hlength : s.items.length ≤ s'.items.length)
    (hdone : ∀ i, s'.DoneAt i ↔ s.DoneAt i) (hscanning : ∀ t i, s'.pc t = .scanning i ↔ s.pc t = .scanning i)
    (hscanned : s'.scanned = s.scanned) : Tasked s' where
  next_le := by
    rw [hnext]
    exact Nat.le_trans h.next_le hlength
  scanning t i ht := by
    rw [hnext, hdone]
    exact h.scanning t i ((hscanning t i).1 ht)
  taken i hi := by
    rw [hnext] at hi
    rcases h.taken i hi with hdoneAt | ⟨t, ht⟩
    · exact .inl ((hdone i).2 hdoneAt)
    · exact .inr ⟨t, (hscanning t i).2 ht⟩
  done i hi := by
    rw [hnext]
    exact h.done i ((hdone i).1 hi)
  alone t u i ht hu := h.alone t u i ((hscanning t i).1 ht) ((hscanning u i).1 hu)
  scanned := by rw [hscanned, hnext, h.scanned]

theorem scanning_update_iff (hold : ∀ i, s.pc t ≠ .scanning i) (hnew : ∀ i, pc ≠ .scanning i) (u : Thread n)
    (i : Nat) : Function.update s.pc t pc u = .scanning i ↔ s.pc u = .scanning i := by
  by_cases hu : u = t
  · subst hu
    rw [Function.update_self]
    exact iff_of_false (hnew i) (hold i)
  · rw [Function.update_of_ne hu]

theorem Tasked.goTo (h : Tasked s) (hold : ∀ i, s.pc t ≠ .scanning i) (hnew : ∀ i, pc ≠ .scanning i) :
    Tasked (s.goTo t pc) := by
  refine h.congr rfl (Nat.le_refl _) (fun i => Iff.rfl) ?_ rfl
  exact scanning_update_iff hold hnew

theorem Tasked.moved {pc' : Pc μ} (h : Tasked s) (hpc : s.pc t = pc) (hold : ∀ i, pc ≠ .scanning i)
    (hnew : ∀ i, pc' ≠ .scanning i) (hpc' : s'.pc = Function.update s.pc t pc') (hitems : s'.items = s.items)
    (hnext : s'.next = s.next) (hscanned : s'.scanned = s.scanned) : Tasked s' := by
  subst hpc
  apply h.congr hnext (Nat.le_of_eq (congrArg List.length hitems).symm) ?_ ?_ hscanned
  · intro i
    rw [DoneAt, DoneAt, hitems]
  · rw [hpc']
    exact scanning_update_iff hold hnew

theorem Tasked.take (h : Tasked s) (hchecking : s.pc t = .checking) (hlt : s.next < s.items.length) :
    Tasked (s.take t) where
  next_le := hlt
  scanning u i hu := by
    have hu : Function.update s.pc t (.scanning s.next) u = .scanning i := hu
    show i < s.next + 1 ∧ ¬ s.DoneAt i
    by_cases heq : u = t
    · subst heq
      rw [Function.update_self] at hu
      cases hu
      exact ⟨Nat.lt_succ_self _, fun hdone => Nat.lt_irrefl _ (h.done s.next hdone)⟩
    · rw [Function.update_of_ne heq] at hu
      obtain ⟨hi, hnot⟩ := h.scanning u i hu
      exact ⟨Nat.lt_succ_of_lt hi, hnot⟩
  taken i hi := by
    show s.DoneAt i ∨ ∃ u, Function.update s.pc t (.scanning s.next) u = .scanning i
    rcases Nat.lt_succ_iff_lt_or_eq.1 hi with hi | rfl
    · rcases h.taken i hi with hdone | ⟨u, hu⟩
      · exact .inl hdone
      · refine .inr ⟨u, ?_⟩
        have hne : u ≠ t := by
          rintro rfl
          rw [hu] at hchecking
          cases hchecking
        rw [Function.update_of_ne hne, hu]
    · exact .inr ⟨t, Function.update_self ..⟩
  done i hi := Nat.lt_succ_of_lt (h.done i hi)
  alone u v i hu hv := by
    have hu : Function.update s.pc t (.scanning s.next) u = .scanning i := hu
    have hv : Function.update s.pc t (.scanning s.next) v = .scanning i := hv
    by_cases hut : u = t
    · by_cases hvt : v = t
      · rw [hut, hvt]
      · subst hut
        rw [Function.update_self] at hu
        cases hu
        rw [Function.update_of_ne hvt] at hv
        exact absurd (h.scanning v s.next hv).1 (Nat.lt_irrefl _)
    · rw [Function.update_of_ne hut] at hu
      by_cases hvt : v = t
      · rw [hvt, Function.update_self] at hv
        cases hv
        exact absurd (h.scanning u s.next hu).1 (Nat.lt_irrefl _)
      · rw [Function.update_of_ne hvt] at hv
        exact h.alone u v i hu hv
  scanned := by
    show s.scanned ++ [s.next] = List.range (s.next + 1)
    rw [h.scanned, List.range_succ]

theorem mark_length : (s.mark scan t i).items.length = s.items.length := List.length_modify ..

theorem Tasked.mark (h : Tasked s) (hscanning : s.pc t = .scanning i) : Tasked (s.mark scan t i) where
  next_le := by
    rw [mark_length]
    exact h.next_le
  scanning u j hu := by
    have hu : Function.update s.pc t .completing u = .scanning j := hu
    have hne : u ≠ t := by
      rintro rfl
      rw [Function.update_self] at hu
      cases hu
    rw [Function.update_of_ne hne] at hu
    obtain ⟨hj, hnot⟩ := h.scanning u j hu
    refine ⟨hj, ?_⟩
    rw [mark_doneAt_iff]
    rintro (hdone | ⟨rfl, -⟩)
    · exact hnot hdone
    · exact hne (h.alone u t i hu hscanning)
  taken j hj := by
    show (s.mark scan t i).DoneAt j ∨ ∃ u, Function.update s.pc t .completing u = .scanning j
    rw [mark_doneAt_iff]
    rcases h.taken j hj with hdone | ⟨u, hu⟩
    · exact .inl (.inl hdone)
    · by_cases hut : u = t
      · subst hut
        rw [hu] at hscanning
        cases hscanning
        exact .inl (.inr ⟨rfl, Nat.lt_of_lt_of_le hj h.next_le⟩)
      · exact .inr ⟨u, by rw [Function.update_of_ne hut, hu]⟩
  done j hj := by
    rcases mark_doneAt_iff.1 hj with hdone | ⟨rfl, -⟩
    · exact h.done j hdone
    · exact (h.scanning t i hscanning).1
  alone u v j hu hv := by
    have hinside (w : Thread n) (hw : Function.update s.pc t .completing w = .scanning j) :
        s.pc w = .scanning j := by
      by_cases hwt : w = t
      · subst hwt
        rw [Function.update_self] at hw
        cases hw
      · rwa [Function.update_of_ne hwt] at hw
    exact h.alone u v j (hinside u hu) (hinside v hv)
  scanned := h.scanned

theorem push_length (source : α) : (s.push source).items.length = s.items.length + 1 := List.length_append

theorem Tasked.push (h : Tasked s) (source : α) : Tasked (s.push source) := by
  refine h.congr rfl ?_ (fun i => push_doneAt_iff source) (fun t i => Iff.rfl) rfl
  rw [push_length]
  exact Nat.le_succ _

theorem Tasked.collect {count : Nat} (h : Tasked s) (hcollected : Collected s t count)
    (hcollecting : s.pc t = .collecting) : Tasked (s.collect t) := by
  refine h.congr rfl (Nat.le_of_eq hcollected.length_eq.symm) (fun i => hcollected.doneAt_iff) ?_ rfl
  rw [hcollected.pc_eq]
  apply scanning_update_iff
  · intro i hi
    rw [hcollecting] at hi
    cases hi
  · intro i hi
    cases hi

theorem Tasked.notifyAll (h : Tasked s) (hcaller : s.pc none = .outside) : Tasked s.notifyAll := by
  refine h.congr rfl (Nat.le_refl _) (fun i => Iff.rfl) ?_ rfl
  intro t i
  cases t with
  | none => simp [ScanPipeline.notifyAll, hcaller]
  | some k =>
      simp only [ScanPipeline.notifyAll]
      cases s.pc (some k) with
      | _ => simp

theorem Tasked.start : Tasked (ScanPipeline.start : ScanPipeline n α μ) where
  next_le := Nat.le_refl _
  scanning t i ht := by
    cases t with
    | none => cases ht
    | some k => cases ht
  taken i hi := absurd hi (Nat.not_lt_zero i)
  done i hi := hi.lt_length
  alone t u i ht := by
    cases t with
    | none => cases ht
    | some k => cases ht
  scanned := rfl

/-! ## Emission -/

def Pc.run : Pc μ → List μ
  | .sending run => run
  | _ => []

def Pc.emits : Pc μ → Bool
  | .collecting | .sending _ => true
  | _ => false

/-- What was collected and is still to be sent. -/
def pending (s : ScanPipeline n α μ) : List μ := s.emitMutex.elim [] fun t => Pc.run (s.pc t)

/-- What has been sent and what is being sent are the matches of the items that were collected. -/
structure Emitted (scan : α → List μ) (s : ScanPipeline n α μ) : Prop where
  emitted_le : s.emitted ≤ s.items.length
  found : ∀ i item, s.items[i]? = some item → s.emitted ≤ i → item.done = true → item.found = scan item.source
  holder : ∀ t, Pc.emits (s.pc t) = true ↔ s.emitMutex = some t
  output : s.output.flatten ++ s.pending = (s.sources.take s.emitted).flatMap scan
  owed : s.DoneAt s.emitted → ∃ t, s.pc t = .completing ∨ s.pc t = .collecting

theorem Emitted.free_of (h : Emitted scan s) (hemits : Pc.emits (s.pc t) = false) : s.emitMutex ≠ some t := by
  intro hheld
  rw [(h.holder t).2 hheld] at hemits
  cases hemits

theorem pending_update (h : Emitted scan s) (hemits : Pc.emits (s.pc t) = false) (pc : Pc μ) :
    (s.emitMutex.elim [] fun u => Pc.run (Function.update s.pc t pc u)) = s.pending := by
  rw [pending]
  cases hmutex : s.emitMutex with
  | none => rfl
  | some u =>
      have hne : u ≠ t := by
        rintro rfl
        exact h.free_of hemits hmutex
      rw [Option.elim_some, Option.elim_some, Function.update_of_ne hne]

theorem holder_update (h : Emitted scan s) (hold : Pc.emits (s.pc t) = false) (hnew : Pc.emits pc = false)
    (u : Thread n) : Pc.emits (Function.update s.pc t pc u) = true ↔ s.emitMutex = some u := by
  by_cases hu : u = t
  · subst hu
    rw [Function.update_self, hnew]
    exact iff_of_false Bool.false_ne_true (h.free_of hold)
  · rw [Function.update_of_ne hu]
    exact h.holder u

theorem owed_update (hold : s.pc t ≠ .completing ∧ s.pc t ≠ .collecting)
    (h : ∃ u, s.pc u = .completing ∨ s.pc u = .collecting) (pc : Pc μ) :
    ∃ u, Function.update s.pc t pc u = .completing ∨ Function.update s.pc t pc u = .collecting := by
  obtain ⟨u, hu⟩ := h
  have hne : u ≠ t := by
    rintro rfl
    rcases hu with hu | hu
    · exact hold.1 hu
    · exact hold.2 hu
  exact ⟨u, by rwa [Function.update_of_ne hne]⟩

theorem Emitted.goTo (h : Emitted scan s) (hold : Pc.emits (s.pc t) = false) (hcompleting : s.pc t ≠ .completing)
    (hnew : Pc.emits pc = false) : Emitted scan (s.goTo t pc) where
  emitted_le := h.emitted_le
  found := h.found
  holder := holder_update h hold hnew
  output := (congrArg (s.output.flatten ++ ·) (pending_update h hold pc)).trans h.output
  owed hdone := by
    apply owed_update ⟨hcompleting, ?_⟩ (h.owed hdone)
    intro hcollecting
    rw [hcollecting] at hold
    cases hold

theorem Emitted.take (h : Emitted scan s) (hchecking : s.pc t = .checking) : Emitted scan (s.take t) := by
  have hmoved : Emitted scan (s.goTo t (.scanning s.next)) := by
    apply h.goTo
    · rw [hchecking]
      rfl
    · rw [hchecking]
      intro heq
      cases heq
    · rfl
  exact ⟨hmoved.emitted_le, hmoved.found, hmoved.holder, hmoved.output, hmoved.owed⟩

theorem Emitted.push (h : Emitted scan s) (source : α) : Emitted scan (s.push source) where
  emitted_le := by
    rw [push_length]
    exact Nat.le_succ_of_le h.emitted_le
  found i item hitem hle hdone := by
    rw [ScanPipeline.push, List.getElem?_append] at hitem
    split at hitem
    · exact h.found i item hitem hle hdone
    · rw [List.getElem?_singleton] at hitem
      split at hitem
      · cases hitem
        cases hdone
      · cases hitem
  holder := h.holder
  output := by
    have hle : s.emitted ≤ s.sources.length := by
      rw [sources_length]
      exact h.emitted_le
    rw [push_sources]
    show s.output.flatten ++ s.pending = ((s.sources ++ [source]).take s.emitted).flatMap scan
    rw [List.take_append_of_le_length hle, h.output]
  owed hdone := h.owed ((push_doneAt_iff source).1 hdone)

theorem Emitted.mark (h : Emitted scan s) (hscanning : s.pc t = .scanning i) : Emitted scan (s.mark scan t i) where
  emitted_le := by
    rw [mark_length]
    exact h.emitted_le
  found j item hitem hle hdone := by
    rw [mark_getElem?] at hitem
    split at hitem
    · obtain ⟨item', -, rfl⟩ := Option.map_eq_some_iff.1 hitem
      rfl
    · exact h.found j item hitem hle hdone
  holder := by
    apply holder_update h
    · rw [hscanning]
      rfl
    · rfl
  output := by
    have hpending : (s.mark scan t i).pending = s.pending := by
      apply pending_update h
      rw [hscanning]
      rfl
    rw [hpending, mark_sources]
    exact h.output
  owed _ := ⟨t, .inl (Function.update_self ..)⟩

theorem Emitted.lockEmit (h : Emitted scan s) (hcompleting : s.pc t = .completing) (hfree : s.emitMutex = none) :
    Emitted scan (s.lockEmit t) where
  emitted_le := h.emitted_le
  found := h.found
  holder u := by
    show Pc.emits (Function.update s.pc t .collecting u) = true ↔ some t = some u
    by_cases hu : u = t
    · subst hu
      rw [Function.update_self]
      exact iff_of_true rfl rfl
    · rw [Function.update_of_ne hu, h.holder u, hfree]
      apply iff_of_false
      · intro heq
        cases heq
      · intro heq
        cases heq
        exact hu rfl
  output := by
    have hbefore : s.pending = [] := by rw [pending, hfree]; rfl
    have hafter : (s.lockEmit t).pending = [] := by
      show Pc.run (Function.update s.pc t .collecting t) = []
      rw [Function.update_self]
      rfl
    rw [hafter, ← hbefore]
    exact h.output
  owed hdone := ⟨t, .inr (Function.update_self ..)⟩

theorem Emitted.run_eq (h : Emitted scan s) {count : Nat} (hcollected : Collected s t count) :
    ((s.items.drop s.emitted).take count).flatMap (·.found) =
      ((s.sources.drop s.emitted).take count).flatMap scan := by
  rw [sources, ← List.map_drop, ← List.map_take, List.flatMap_map]
  apply List.flatMap_congr
  intro item hitem
  obtain ⟨k, hk⟩ := List.getElem?_of_mem hitem
  rw [List.getElem?_take] at hk
  split at hk
  next hlt =>
    rw [List.getElem?_drop] at hk
    apply h.found _ item hk (Nat.le_add_right _ _)
    obtain ⟨item', hitem', hdone⟩ := hcollected.done _ (Nat.le_add_right _ k) (by omega)
    rw [hk] at hitem'
    cases hitem'
    exact hdone
  next => cases hk

theorem Emitted.collect (h : Emitted scan s) {count : Nat} (hcollected : Collected s t count)
    (hcollecting : s.pc t = .collecting) : Emitted scan (s.collect t) := by
  have hmutex : s.emitMutex = some t := (h.holder t).1 (by rw [hcollecting]; rfl)
  constructor
  case emitted_le =>
    rw [hcollected.emitted_eq, hcollected.length_eq]
    exact hcollected.le
  case found =>
    intro i item hitem hle hdone
    rw [hcollected.emitted_eq] at hle
    rw [hcollected.getElem?, if_neg (by omega)] at hitem
    exact h.found i item hitem (by omega) hdone
  case holder =>
    intro u
    rw [hcollected.pc_eq]
    show _ ↔ s.emitMutex = some u
    by_cases hu : u = t
    · subst hu
      rw [Function.update_self]
      exact iff_of_true rfl hmutex
    · rw [Function.update_of_ne hu]
      exact h.holder u
  case output =>
    have hbefore : s.pending = [] := by rw [pending, hmutex, Option.elim_some, hcollecting]; rfl
    have hafter : (s.collect t).pending = ((s.sources.drop s.emitted).take count).flatMap scan := by
      rw [pending, hcollected.pc_eq]
      show s.emitMutex.elim _ _ = _
      rw [hmutex, Option.elim_some, Function.update_self, ← h.run_eq hcollected]
      rfl
    have houtput := h.output
    rw [hbefore, List.append_nil] at houtput
    show s.output.flatten ++ _ = _
    rw [hafter, hcollected.emitted_eq, hcollected.sources_eq, houtput, List.take_add, List.flatMap_append]
  case owed =>
    intro hdone
    rw [hcollected.doneAt_iff, hcollected.emitted_eq] at hdone
    exact absurd hdone hcollected.next

theorem Emitted.send (h : Emitted scan s) {run : List μ} (hsending : s.pc t = .sending run) :
    Emitted scan (s.send t run) where
  emitted_le := h.emitted_le
  found := h.found
  holder u := by
    show Pc.emits (Function.update s.pc t .checking u) = true ↔ none = some u
    have hmutex : s.emitMutex = some t := (h.holder t).1 (by rw [hsending]; rfl)
    apply iff_of_false
    · by_cases hu : u = t
      · subst hu
        rw [Function.update_self]
        exact Bool.false_ne_true
      · rw [Function.update_of_ne hu, h.holder u, hmutex]
        intro heq
        cases heq
        exact hu rfl
    · intro heq
      cases heq
  output := by
    have hmutex : s.emitMutex = some t := (h.holder t).1 (by rw [hsending]; rfl)
    have hpending : s.pending = run := by rw [pending, hmutex, Option.elim_some, hsending]; rfl
    have hsent : (s.send t run).output.flatten = s.output.flatten ++ run := by
      show (if run.isEmpty then s.output else s.output ++ [run]).flatten = _
      split
      next hempty =>
        rw [List.isEmpty_iff.1 hempty, List.append_nil]
      next => simp
    have hafter : (s.send t run).pending = [] := rfl
    rw [hsent, hafter, List.append_nil, ← hpending]
    exact h.output
  owed hdone := by
    apply owed_update ?_ (h.owed hdone)
    rw [hsending]
    constructor
    · intro heq
      cases heq
    · intro heq
      cases heq

theorem Emitted.notifyAll (h : Emitted scan s) (hcaller : s.pc none = .outside) : Emitted scan s.notifyAll := by
  have hpc (t : Thread n) : Pc.emits (s.notifyAll.pc t) = Pc.emits (s.pc t) ∧
      Pc.run (s.notifyAll.pc t) = Pc.run (s.pc t) ∧ (s.pc t = .completing → s.notifyAll.pc t = .completing) ∧
        (s.pc t = .collecting → s.notifyAll.pc t = .collecting) := by
    cases t with
    | none => simp [ScanPipeline.notifyAll, hcaller, Pc.emits, Pc.run]
    | some k =>
        simp only [ScanPipeline.notifyAll]
        cases s.pc (some k) with
        | _ => simp [Pc.emits, Pc.run]
  constructor
  case emitted_le => exact h.emitted_le
  case found => exact h.found
  case holder =>
    intro t
    rw [(hpc t).1]
    exact h.holder t
  case output =>
    have hpending : s.notifyAll.pending = s.pending := by
      show (s.emitMutex.elim [] fun t => Pc.run (s.notifyAll.pc t)) = s.pending
      rw [pending]
      cases s.emitMutex with
      | none => rfl
      | some t => exact (hpc t).2.1
    rw [hpending]
    exact h.output
  case owed =>
    intro hdone
    obtain ⟨t, ht | ht⟩ := h.owed hdone
    · exact ⟨t, .inl ((hpc t).2.2.1 ht)⟩
    · exact ⟨t, .inr ((hpc t).2.2.2 ht)⟩

theorem Emitted.start : Emitted scan (ScanPipeline.start : ScanPipeline n α μ) where
  emitted_le := Nat.le_refl _
  found i item hitem := by cases hitem
  holder t := by
    cases t with
    | none => exact iff_of_false Bool.false_ne_true fun h => by cases h
    | some k => exact iff_of_false Bool.false_ne_true fun h => by cases h
  output := rfl
  owed hdone := absurd hdone.lt_length (Nat.not_lt_zero _)

end Ned.Editor.Project.ScanPipeline
