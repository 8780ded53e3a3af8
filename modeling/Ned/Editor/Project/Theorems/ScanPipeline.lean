import Ned.Editor.Project.Lemmas.ScanPipeline
import Mathlib.Algebra.BigOperators.Group.Finset.Basic
import Mathlib.Algebra.Order.BigOperators.Group.Finset
import Mathlib.Data.Fintype.Option
import Mathlib.Data.Fintype.BigOperators
import Mathlib.Logic.Relation

/-!
# Order and end of a parallel search

A step lemma for what the schedules keep, a measure that every step after `Finish` has closed the input makes
smaller, and what follows for whole runs.
-/

namespace Ned.Editor.Project.ScanPipeline

variable {n : Nat} {α μ : Type} {scan : α → List μ} {s s' : ScanPipeline n α μ} {t : Thread n}

structure Invariant (scan : α → List μ) (s : ScanPipeline n α μ) : Prop where
  phased : Phased s
  tasked : Tasked s
  emitted : Emitted scan s

theorem Invariant.start : Invariant scan (ScanPipeline.start : ScanPipeline n α μ) :=
  ⟨Phased.start, Tasked.start, Emitted.start⟩

theorem Invariant.goTo {pc pc' : Pc μ} (h : Invariant scan s) (hpc : s.pc t = pc)
    (hold : pc = .checking ∨ pc = .waiting) (hnew : pc' = .checking ∨ pc' = .waiting ∨ pc' = .exited)
    (hwaiting : pc' = .waiting → s.closed = false)
    (hended : pc' = .exited → s.closed = true ∧ s.next = s.items.length) : Invariant scan (s.goTo t pc') := by
  subst hpc
  constructor
  case phased =>
    apply h.phased.goTo ?_ ?_ ?_ hwaiting hended
    · rcases hold with hold | hold <;> simp [hold]
    · rcases hold with hold | hold <;> simp [hold]
    · rcases hnew with rfl | rfl | rfl <;> simp
  case tasked =>
    apply h.tasked.goTo
    · rcases hold with hold | hold <;> simp [hold]
    · rcases hnew with rfl | rfl | rfl <;> simp
  case emitted =>
    apply h.emitted.goTo
    · rcases hold with hold | hold <;> simp [hold, Pc.emits]
    · rcases hold with hold | hold <;> simp [hold]
    · rcases hnew with rfl | rfl | rfl <;> simp [Pc.emits]

theorem Invariant.setPhase (h : Invariant scan s) {phase : Phase} {closed : Bool}
    (hphased : Phased { s with phase := phase, closed := closed }) :
    Invariant scan { s with phase := phase, closed := closed } where
  phased := hphased
  tasked := h.tasked.congr rfl (Nat.le_refl _) (fun _ => Iff.rfl) (fun _ _ => Iff.rfl) rfl
  emitted := ⟨h.emitted.emitted_le, h.emitted.found, h.emitted.holder, h.emitted.output, h.emitted.owed⟩

theorem Invariant.step (h : Invariant scan s) (hstep : Step scan s s') : Invariant scan s' := by
  cases hstep with
  | push source phase =>
      have hmoved : Phased { s with phase := .pushed, closed := s.closed } := by
        apply h.phased.moves
        · rw [phase]
          rfl
        · rfl
        · exact .inl phase
        · rw [h.phased.closed_iff, phase]
          simp
      constructor
      case phased =>
        refine hmoved.congr rfl rfl rfl ?_
        intro t hexited
        exact absurd hexited (h.phased.not_exited_of_early (.inl phase) t)
      case tasked => exact h.tasked.push source
      case emitted => exact h.emitted.push source
  | notifyOne t phase waits =>
      have hwoken : Invariant scan (s.goTo t .checking) := by
        apply h.goTo waits (.inr rfl) (.inl rfl)
        · intro heq
          cases heq
        · intro heq
          cases heq
      have hphase : (s.goTo t .checking).phase = .pushed := phase
      apply hwoken.setPhase
      apply hwoken.phased.moves
      · rw [hphase]
        rfl
      · rfl
      · exact .inr hphase
      · rw [hwoken.phased.closed_iff, hphase]
        simp
  | notifyNone phase awake =>
      apply h.setPhase
      apply h.phased.moves
      · rw [phase]
        rfl
      · rfl
      · exact .inr phase
      · rw [h.phased.closed_iff, phase]
        simp
  | close phase =>
      apply h.setPhase
      apply h.phased.moves
      · rw [phase]
        rfl
      · rfl
      · exact .inl phase
      · simp
  | notifyAll phase =>
      have hcaller : s.pc none = .outside := (h.phased.outside_iff none).2 ⟨rfl, by rw [phase]; rfl⟩
      exact ⟨h.phased.notifyAll phase, h.tasked.notifyAll hcaller, h.emitted.notifyAll hcaller⟩
  | take t at_ lt =>
      constructor
      case phased =>
        refine h.phased.moved at_ (by simp) (by simp) rfl rfl rfl ?_
        intro u hexited
        exact absurd (h.phased.ended u hexited).2 (Nat.ne_of_lt lt)
      case tasked => exact h.tasked.take at_ lt
      case emitted => exact h.emitted.take at_
  | exit t at_ closed ended =>
      apply h.goTo at_ (.inl rfl) (.inr (.inr rfl))
      · intro heq
        cases heq
      · exact fun _ => ⟨closed, ended⟩
  | wait t at_ unready =>
      apply h.goTo at_ (.inl rfl) (.inr (.inl rfl))
      · exact fun _ => (Bool.or_eq_false_iff.1 unready).2
      · intro heq
        cases heq
  | wake t at_ =>
      apply h.goTo at_ (.inr rfl) (.inl rfl)
      · intro heq
        cases heq
      · intro heq
        cases heq
  | mark t i at_ =>
      constructor
      case phased => exact h.phased.moved at_ (by simp) (by simp) rfl rfl rfl fun _ _ => ⟨rfl, mark_length⟩
      case tasked => exact h.tasked.mark at_
      case emitted => exact h.emitted.mark at_
  | lockEmit t at_ free =>
      constructor
      case phased => exact h.phased.moved at_ (by simp) (by simp) rfl rfl rfl fun _ _ => ⟨rfl, rfl⟩
      case tasked => exact h.tasked.moved at_ (by simp) (by simp) rfl rfl rfl rfl
      case emitted => exact h.emitted.lockEmit at_ free
  | collect t at_ =>
      obtain ⟨count, hcollected⟩ := exists_collected (t := t) h.emitted.emitted_le
      constructor
      case phased =>
        apply h.phased.moved at_ (by simp) ?_ hcollected.pc_eq rfl rfl
        · exact fun _ _ => ⟨rfl, hcollected.length_eq⟩
        · simp
      case tasked => exact h.tasked.collect hcollected at_
      case emitted => exact h.emitted.collect hcollected at_
  | send t run at_ =>
      constructor
      case phased => exact h.phased.moved at_ (by simp) (by simp) rfl rfl rfl fun _ _ => ⟨rfl, rfl⟩
      case tasked => exact h.tasked.moved at_ (by simp) (by simp) rfl rfl rfl rfl
      case emitted => exact h.emitted.send at_
  | join phase all => exact h.setPhase (h.phased.join phase all)

/-- What is reached from the start. -/
def Reachable (scan : α → List μ) (s : ScanPipeline n α μ) : Prop :=
  Relation.ReflTransGen (Step scan) start s

theorem Reachable.invariant (h : Reachable scan s) : Invariant scan s := by
  induction h with
  | refl => exact .start
  | tail _ hstep ih => exact ih.step hstep

/-! ## Progress -/

/-- Once the input is closed some thread can go on, until `Finish` returns. -/
theorem Invariant.progress (h : Invariant scan s) (hclosed : s.closed = true) (hphase : s.phase ≠ .returned) :
    ∃ s', Step scan s s' := by
  obtain ⟨hpushing, hpushed⟩ := h.phased.closed_iff.1 hclosed
  cases hnow : s.phase with
  | pushing => exact absurd hnow hpushing
  | pushed => exact absurd hnow hpushed
  | returned => exact absurd hnow hphase
  | closing => exact ⟨_, .notifyAll hnow⟩
  | working =>
      by_cases hall : ∀ t, s.pc t = .exited
      · exact ⟨_, .join hnow hall⟩
      · obtain ⟨t, ht⟩ := not_forall.1 hall
        cases hpc : s.pc t with
        | outside =>
            have hearly := ((h.phased.outside_iff t).1 hpc).2
            rw [hnow] at hearly
            cases hearly
        | checking =>
            rcases Nat.lt_or_eq_of_le h.tasked.next_le with hlt | hended
            · exact ⟨_, .take t hpc hlt⟩
            · exact ⟨_, .exit t hpc hclosed hended⟩
        | waiting => exact absurd hpc (h.phased.awake (by rw [hnow]; rfl) t)
        | scanning i => exact ⟨_, .mark t i hpc⟩
        | completing =>
            -- whoever holds the emit lock can go on
            cases hmutex : s.emitMutex with
            | none => exact ⟨_, .lockEmit t hpc hmutex⟩
            | some u =>
                have hemits := (h.emitted.holder u).2 hmutex
                cases hholder : s.pc u with
                | collecting => exact ⟨_, .collect u hholder⟩
                | sending run => exact ⟨_, .send u run hholder⟩
                | _ =>
                    rw [hholder] at hemits
                    cases hemits
        | collecting => exact ⟨_, .collect t hpc⟩
        | sending run => exact ⟨_, .send t run hpc⟩
        | exited => exact absurd hpc ht

/-- How many steps a thread is away from asking for the next item, and one more. -/
def Pc.weight : Pc μ → Nat
  | .outside | .exited => 0
  | .checking => 1
  | .waiting | .sending _ => 2
  | .collecting => 3
  | .completing => 4
  | .scanning _ => 5

def Phase.weight : Phase → Nat
  | .pushing | .pushed | .closing => 3
  | .working => 1
  | .returned => 0

def remaining (s : ScanPipeline n α μ) : Nat :=
  (s.items.length - s.next) * 6 + ∑ t, Pc.weight (s.pc t) + Phase.weight s.phase

theorem weight_update (pc : Pc μ) : ∑ u, Pc.weight (Function.update s.pc t pc u) + Pc.weight (s.pc t) =
    ∑ u, Pc.weight (s.pc u) + Pc.weight pc := by
  have hrest : ∑ u ∈ Finset.univ.erase t, Pc.weight (Function.update s.pc t pc u) =
      ∑ u ∈ Finset.univ.erase t, Pc.weight (s.pc u) := by
    apply Finset.sum_congr rfl
    intro u hu
    rw [Function.update_of_ne (Finset.ne_of_mem_erase hu)]
  rw [← Finset.add_sum_erase _ _ (Finset.mem_univ t), hrest, Function.update_self,
    ← Finset.add_sum_erase _ (fun u => Pc.weight (s.pc u)) (Finset.mem_univ t)]
  omega

/-- A thread gets closer, and nothing else changes that is counted. -/
theorem remaining_lt {pc pc' : Pc μ} (hpc : s.pc t = pc) (hlt : Pc.weight pc' < Pc.weight pc)
    (hnew : s'.pc = Function.update s.pc t pc') (hlength : s'.items.length = s.items.length)
    (hnext : s'.next = s.next) (hphase : s'.phase = s.phase) : s'.remaining < s.remaining := by
  have hweight := weight_update (s := s) (t := t) pc'
  rw [hpc] at hweight
  rw [remaining, remaining, hnew, hlength, hnext, hphase]
  omega

theorem Invariant.remaining_lt (h : Invariant scan s) (hclosed : s.closed = true) (hstep : Step scan s s') :
    s'.remaining < s.remaining ∧ s'.closed = true := by
  obtain ⟨hpushing, hpushed⟩ := h.phased.closed_iff.1 hclosed
  cases hstep with
  | push source phase => exact absurd phase hpushing
  | notifyOne t phase waits => exact absurd phase hpushed
  | notifyNone phase awake => exact absurd phase hpushed
  | close phase => exact absurd phase hpushing
  | notifyAll phase =>
      refine ⟨?_, hclosed⟩
      have hcaller : s.pc none = .outside := (h.phased.outside_iff none).2 ⟨rfl, by rw [phase]; rfl⟩
      have hworkers : ∑ k : Fin n, Pc.weight (s.notifyAll.pc (some k)) ≤ ∑ k : Fin n, Pc.weight (s.pc (some k)) := by
        apply Finset.sum_le_sum
        intro k _
        simp only [ScanPipeline.notifyAll]
        cases s.pc (some k) with
        | _ => simp [Pc.weight]
      rw [remaining, remaining, phase, Fintype.sum_option, Fintype.sum_option, hcaller]
      simp only [Pc.weight, Phase.weight, ScanPipeline.notifyAll] at hworkers ⊢
      omega
  | take t at_ lt =>
      refine ⟨?_, hclosed⟩
      have hweight := weight_update (s := s) (t := t) (.scanning s.next)
      rw [at_] at hweight
      change _ + 1 = _ + 5 at hweight
      show (s.items.length - (s.next + 1)) * 6 +
        ∑ u, Pc.weight (Function.update s.pc t (.scanning s.next) u) + Phase.weight s.phase < s.remaining
      rw [remaining]
      omega
  | exit t at_ closed ended =>
      exact ⟨ScanPipeline.remaining_lt at_ (by simp [Pc.weight]) rfl rfl rfl rfl, hclosed⟩
  | wait t at_ unready =>
      rw [ready, hclosed, Bool.or_true] at unready
      cases unready
  | wake t at_ => exact ⟨ScanPipeline.remaining_lt at_ (by simp [Pc.weight]) rfl rfl rfl rfl, hclosed⟩
  | mark t i at_ => exact ⟨ScanPipeline.remaining_lt at_ (by simp [Pc.weight]) rfl mark_length rfl rfl, hclosed⟩
  | lockEmit t at_ free => exact ⟨ScanPipeline.remaining_lt at_ (by simp [Pc.weight]) rfl rfl rfl rfl, hclosed⟩
  | collect t at_ =>
      obtain ⟨count, hcollected⟩ := exists_collected (t := t) h.emitted.emitted_le
      exact ⟨ScanPipeline.remaining_lt at_ (by simp [Pc.weight]) hcollected.pc_eq hcollected.length_eq rfl rfl, hclosed⟩
  | send t run at_ => exact ⟨ScanPipeline.remaining_lt at_ (by simp [Pc.weight]) rfl rfl rfl rfl, hclosed⟩
  | join phase all =>
      refine ⟨?_, hclosed⟩
      rw [remaining, remaining, phase]
      simp [Phase.weight]

/-! ## Runs -/

theorem Invariant.output_prefix (h : Invariant scan s) :
    s.output.flatten <+: (s.sources.map scan).flatten := by
  rw [← List.flatMap_def]
  have hsources : (s.sources.take s.emitted).flatMap scan <+: s.sources.flatMap scan := by
    apply List.IsPrefix.flatMap
    exact List.take_prefix _ _
  rw [← h.emitted.output] at hsources
  exact (List.prefix_append _ _).trans hsources

/-- When the calling thread returns every thread is at its end, and nothing is left to be sent. -/
theorem Invariant.output_eq (h : Invariant scan s) (hreturned : s.phase = .returned) :
    s.output.flatten = (s.sources.map scan).flatten := by
  have hexited := h.phased.returned hreturned
  have hnext : s.next = s.items.length := (h.phased.ended none (hexited none)).2
  have hfree : s.emitMutex = none := by
    cases hmutex : s.emitMutex with
    | none => rfl
    | some t =>
        have hemits := (h.emitted.holder t).2 hmutex
        rw [hexited t] at hemits
        cases hemits
  have hall : s.emitted = s.items.length := by
    apply Nat.le_antisymm h.emitted.emitted_le
    apply Nat.le_of_not_lt
    intro hlt
    have hdone : s.DoneAt s.emitted := by
      rcases h.tasked.taken s.emitted (hnext ▸ hlt) with hdone | ⟨t, ht⟩
      · exact hdone
      · rw [hexited t] at ht
        cases ht
    obtain ⟨t, ht | ht⟩ := h.emitted.owed hdone
    · rw [hexited t] at ht
      cases ht
    · rw [hexited t] at ht
      cases ht
  have houtput := h.emitted.output
  rw [pending, hfree, Option.elim_none, List.append_nil, hall, ← sources_length, List.take_length] at houtput
  rw [← List.flatMap_def, houtput]

/-- From a closed pipeline there is no run for ever. -/
theorem Invariant.not_forever (h : Invariant scan s) (hclosed : s.closed = true) :
    ¬ ∃ run : Nat → ScanPipeline n α μ, run 0 = s ∧ ∀ k, Step scan (run k) (run (k + 1)) := by
  rintro ⟨run, rfl, hsteps⟩
  have hbound (k : Nat) : Invariant scan (run k) ∧ (run k).closed = true ∧
      (run k).remaining + k ≤ (run 0).remaining := by
    induction k with
    | zero => exact ⟨h, hclosed, Nat.le_refl _⟩
    | succ k ih =>
        obtain ⟨hinvariant, hclosed, hle⟩ := ih
        obtain ⟨hlt, hstays⟩ := hinvariant.remaining_lt hclosed (hsteps k)
        exact ⟨hinvariant.step (hsteps k), hstays, by omega⟩
  have hlast := (hbound ((run 0).remaining + 1)).2.2
  omega

/-- In every reachable state the runs that were sent are a prefix of the matches of the files in push order, and
all of them once `Finish` has returned. No item is scanned twice. Once the input is closed some thread can go on
until `Finish` returns, no run goes on for ever, and when `Finish` is past its notification no thread waits. -/
theorem search_in_order (h : Reachable scan s) :
    s.output.flatten <+: (s.sources.map scan).flatten ∧
      (s.phase = .returned → s.output.flatten = (s.sources.map scan).flatten) ∧
      s.scanned.Nodup ∧
      (s.closed = true → s.phase ≠ .returned → ∃ s', Step scan s s') ∧
      (s.closed = true →
        ¬ ∃ run : Nat → ScanPipeline n α μ, run 0 = s ∧ ∀ k, Step scan (run k) (run (k + 1))) ∧
      (s.phase = .working → ∀ t, s.pc t ≠ .waiting) ∧
      (s.phase = .returned → ∀ t, s.pc t = .exited) := by
  have hinvariant := h.invariant
  refine ⟨hinvariant.output_prefix, hinvariant.output_eq, ?_, hinvariant.progress, hinvariant.not_forever, ?_,
    hinvariant.phased.returned⟩
  · rw [hinvariant.tasked.scanned]
    exact List.nodup_range
  · intro hphase
    apply hinvariant.phased.awake
    rw [hphase]
    rfl

/-- A whole search of one file, which the calling thread scans beside a worker. -/
theorem exists_returned : ∃ s : ScanPipeline 1 Nat Nat,
    Reachable (fun k => [k, k]) s ∧ s.phase = .returned ∧ s.sources = [7] := by
  have hstart : Reachable (fun k : Nat => [k, k]) (start : ScanPipeline 1 Nat Nat) := .refl
  have hpush := hstart.tail (.push 7 rfl)
  have hnotify := hpush.tail (.notifyNone rfl (by decide))
  have hclose := hnotify.tail (.close rfl)
  have hall := hclose.tail (.notifyAll rfl)
  have htake := hall.tail (.take none rfl (by decide))
  have hmark := htake.tail (.mark none 0 rfl)
  have hlock := hmark.tail (.lockEmit none rfl rfl)
  have hcollect := hlock.tail (.collect none rfl)
  have hsend := hcollect.tail (.send none [7, 7] rfl)
  have hcaller := hsend.tail (.exit none rfl rfl rfl)
  have hworker := hcaller.tail (.exit (some 0) rfl rfl rfl)
  exact ⟨_, hworker.tail (.join rfl (by decide)), rfl, rfl⟩

theorem search_in_order_returned : ∃ s : ScanPipeline 1 Nat Nat,
    s.phase = .returned ∧ s.output.flatten = [7, 7] := by
  obtain ⟨s, hreachable, hphase, hsources⟩ := exists_returned
  refine ⟨s, hphase, ?_⟩
  rw [(search_in_order hreachable).2.1 hphase, hsources]
  rfl

end Ned.Editor.Project.ScanPipeline
