import Mathlib.Algebra.Ring.Nat

/-!
# Runs

Finite runs of a partial step function, and the induction principles for them.
-/

namespace Ned.Library

variable {σ τ ι : Type}

/-- Takes the steps named by a script, `none` as soon as one of them is not possible. -/
def run (step : σ → ι → Option σ) : σ → List ι → Option σ
  | s, [] => some s
  | s, i :: is => do
      let s' ← step s i
      run step s' is

/-- Every step of the script starts in a state that allows it. -/
def Admissible (step : σ → ι → Option σ) (allowed : σ → ι → Prop) : σ → List ι → Prop
  | _, [] => True
  | s, i :: is => allowed s i ∧ ∀ s', step s i = some s' → Admissible step allowed s' is

variable {step : σ → ι → Option σ} {allowed : σ → ι → Prop}

instance Admissible.decidable [∀ s i, Decidable (allowed s i)] :
    ∀ (s : σ) (is : List ι), Decidable (Admissible step allowed s is)
  | _, [] => .isTrue trivial
  | s, i :: is =>
      let _ := fun s' => Admissible.decidable s' is
      inferInstanceAs (Decidable (allowed s i ∧ ∀ s' ∈ step s i, Admissible step allowed s' is))

@[simp] theorem run_nil (s : σ) : run step s [] = some s := rfl

theorem run_cons (s : σ) (i : ι) (is : List ι) :
    run step s (i :: is) = (step s i).bind fun s' => run step s' is := rfl

theorem run_cons_eq_some {s s'' : σ} {i : ι} {is : List ι} :
    run step s (i :: is) = some s'' ↔ ∃ s', step s i = some s' ∧ run step s' is = some s'' := by
  rw [run_cons, Option.bind_eq_some_iff]

theorem run_append (s : σ) (is js : List ι) :
    run step s (is ++ js) = (run step s is).bind fun s' => run step s' js := by
  induction is generalizing s with
  | nil => rfl
  | cons i is ih =>
      rw [List.cons_append, run_cons, run_cons]
      cases step s i with
      | none => rfl
      | some s' => exact ih s'

/-- What every step preserves holds at the end of a run. -/
theorem run_invariant (Inv : σ → Prop)
    (hstep : ∀ s i s', Inv s → step s i = some s' → Inv s') {s s' : σ} {is : List ι}
    (hs : Inv s) (hrun : run step s is = some s') : Inv s' := by
  induction is generalizing s with
  | nil =>
      cases hrun
      exact hs
  | cons i is ih =>
      obtain ⟨t, hi, hrun⟩ := run_cons_eq_some.1 hrun
      exact ih (hstep s i t hs hi) hrun

/-- `run_invariant` for runs whose steps are all allowed. -/
theorem run_invariant_of_admissible (Inv : σ → Prop)
    (hstep : ∀ s i s', Inv s → allowed s i → step s i = some s' → Inv s') {s s' : σ}
    {is : List ι} (hs : Inv s) (hadm : Admissible step allowed s is)
    (hrun : run step s is = some s') : Inv s' := by
  induction is generalizing s with
  | nil =>
      cases hrun
      exact hs
  | cons i is ih =>
      obtain ⟨t, hi, hrun⟩ := run_cons_eq_some.1 hrun
      exact ih (hstep s i t hs hadm.1 hi) (hadm.2 t hi) hrun

/-- `run_invariant_of_admissible` for an invariant about what the script has said so far. -/
theorem run_invariant_told (Inv : τ → σ → Prop) (told : τ → ι → τ)
    (hstep : ∀ t s i s', Inv t s → allowed s i → step s i = some s' → Inv (told t i) s') {t : τ}
    {s s' : σ} {is : List ι} (hs : Inv t s) (hadm : Admissible step allowed s is)
    (hrun : run step s is = some s') : Inv (is.foldl told t) s' := by
  induction is generalizing t s with
  | nil =>
      cases hrun
      exact hs
  | cons i is ih =>
      obtain ⟨u, hi, hrun⟩ := run_cons_eq_some.1 hrun
      exact ih (hstep t s i u hs hadm.1 hi) (hadm.2 u hi) hrun

/-- Where every step is possible and keeps an invariant, every script runs and keeps it. -/
theorem run_total (Inv : σ → Prop) (hstep : ∀ s i, Inv s → ∃ s', step s i = some s' ∧ Inv s')
    {s : σ} (is : List ι) (hs : Inv s) : ∃ s', run step s is = some s' ∧ Inv s' := by
  induction is generalizing s with
  | nil => exact ⟨s, rfl, hs⟩
  | cons i is ih =>
      obtain ⟨t, ht, hinv⟩ := hstep s i hs
      obtain ⟨s', hrun, hinv'⟩ := ih hinv
      exact ⟨s', run_cons_eq_some.2 ⟨t, ht, hrun⟩, hinv'⟩

/-- Where an invariant gives a property, is kept by every allowed step, and a step that keeps the
property is allowed, the property holds throughout a run exactly when all its steps are allowed. -/
theorem run_holds_iff (Inv Holds : σ → Prop) (hholds : ∀ s, Inv s → Holds s)
    (hkeep : ∀ s i s', Inv s → allowed s i → step s i = some s' → Inv s')
    (honly : ∀ s i s', Inv s → step s i = some s' → Holds s' → allowed s i) {s last : σ}
    {is : List ι} (hs : Inv s) (hrun : run step s is = some last) :
    (∀ first s', first <+: is → run step s first = some s' → Holds s') ↔
      Admissible step allowed s is := by
  induction is generalizing s with
  | nil =>
      refine ⟨fun _ => trivial, fun _ first s' hfirst hrun => ?_⟩
      obtain rfl := List.prefix_nil.1 hfirst
      cases hrun
      exact hholds s hs
  | cons i is ih =>
      obtain ⟨t, ht, hrest⟩ := run_cons_eq_some.1 hrun
      constructor
      · intro h
        have hone : run step s [i] = some t := run_cons_eq_some.2 ⟨t, ht, rfl⟩
        have hi := honly s i t hs ht (h [i] t ((List.prefix_cons_inj i).2 List.nil_prefix) hone)
        refine ⟨hi, fun t' ht' => ?_⟩
        obtain rfl := Option.some.inj (ht.symm.trans ht')
        exact (ih (hkeep s i t hs hi ht) hrest).1 fun first s' hfirst hrun =>
          h (i :: first) s' ((List.prefix_cons_inj i).2 hfirst) (run_cons_eq_some.2 ⟨t, ht, hrun⟩)
      · rintro ⟨hi, hallowed⟩ first s' hfirst hrunfirst
        cases first with
        | nil =>
            cases hrunfirst
            exact hholds s hs
        | cons j first =>
            obtain ⟨rfl, hrestfirst⟩ := List.cons_prefix_cons.1 hfirst
            obtain ⟨t', ht', hrunfirst⟩ := run_cons_eq_some.1 hrunfirst
            obtain rfl := Option.some.inj (ht.symm.trans ht')
            exact (ih (hkeep s j t hs hi ht) hrest).2 (hallowed t ht) first s' hrestfirst hrunfirst

/-- `run_holds_iff` for a property that is its own invariant, where every step is possible. -/
theorem run_invariant_iff (Inv : σ → Prop) (htotal : ∀ s i, ∃ s', step s i = some s')
    (hstep : ∀ s i s', Inv s → step s i = some s' → (Inv s' ↔ allowed s i)) {s : σ} {is : List ι}
    (hs : Inv s) :
    (∀ first s', first <+: is → run step s first = some s' → Inv s') ↔
      Admissible step allowed s is := by
  obtain ⟨last, hrun, -⟩ := run_total (fun _ => True)
    (fun s i _ => (htotal s i).imp fun _ hi => ⟨hi, trivial⟩) is (trivial : True)
  exact run_holds_iff Inv Inv (fun _ h => h) (fun s i s' h hi ht => (hstep s i s' h ht).2 hi)
    (fun s i s' h ht => (hstep s i s' h ht).1) hs hrun

/-- `run_invariant` for an invariant that counts what the steps have used up. -/
theorem run_invariant_counted (Inv : Nat → σ → Prop) (cost : ι → Nat) (bound : Nat) (ok : ι → Prop)
    (hstep : ∀ n s i s', Inv n s → ok i → n + cost i < bound → step s i = some s' →
      Inv (n + cost i) s') {n : Nat} {s s' : σ} {is : List ι} (hs : Inv n s) (hok : ∀ i ∈ is, ok i)
    (hbound : n + (is.map cost).sum < bound) (hrun : run step s is = some s') :
    Inv (n + (is.map cost).sum) s' := by
  induction is generalizing n s with
  | nil =>
      cases hrun
      exact hs
  | cons i is ih =>
      obtain ⟨t, hi, hrun⟩ := run_cons_eq_some.1 hrun
      rw [List.map_cons, List.sum_cons, ← Nat.add_assoc] at hbound ⊢
      have hlt : n + cost i < bound := Nat.lt_of_le_of_lt (Nat.le_add_right _ _) hbound
      exact ih (hstep n s i t hs (hok i (List.mem_cons_self ..)) hlt hi)
        (fun j hj => hok j (List.mem_cons_of_mem _ hj)) hbound hrun

theorem admissible_of_forall {ok : ι → Prop} {s : σ} {is : List ι} (h : ∀ i ∈ is, ok i) :
    Admissible step (fun _ i => ok i) s is := by
  induction is generalizing s with
  | nil => trivial
  | cons i is ih =>
      exact ⟨h i (List.mem_cons_self ..), fun _ _ => ih fun j hj => h j (List.mem_cons_of_mem _ hj)⟩

theorem Admissible.append {s s' : σ} {is js : List ι}
    (h : Admissible step allowed s (is ++ js)) (hrun : run step s is = some s') :
    Admissible step allowed s is ∧ Admissible step allowed s' js := by
  induction is generalizing s with
  | nil =>
      cases hrun
      exact ⟨trivial, h⟩
  | cons i is ih =>
      obtain ⟨t, hi, hrun⟩ := run_cons_eq_some.1 hrun
      refine ⟨⟨h.1, fun t' ht' => ?_⟩, (ih (h.2 t hi) hrun).2⟩
      obtain rfl : t = t' := Option.some.inj (hi.symm.trans ht')
      exact (ih (h.2 t hi) hrun).1

/-- Forward simulation: an allowed run of the specification is a run of the implementation. -/
theorem run_simulates {spec : τ → ι → Option τ} {allowed : τ → ι → Prop} {R : σ → τ → Prop}
    (hstep : ∀ s t i t', R s t → allowed t i → spec t i = some t' →
      ∃ s', step s i = some s' ∧ R s' t') {s : σ} {t t' : τ} {is : List ι}
    (hst : R s t) (hadm : Admissible spec allowed t is) (hrun : run spec t is = some t') :
    ∃ s', run step s is = some s' ∧ R s' t' := by
  induction is generalizing s t with
  | nil =>
      cases hrun
      exact ⟨s, rfl, hst⟩
  | cons i is ih =>
      obtain ⟨u, hi, hrun⟩ := run_cons_eq_some.1 hrun
      obtain ⟨s₁, hs₁, hR⟩ := hstep s t i u hst hadm.1 hi
      obtain ⟨s', hs', hR'⟩ := ih hR (hadm.2 u hi) hrun
      exact ⟨s', run_cons_eq_some.2 ⟨s₁, hs₁, hs'⟩, hR'⟩

/-- A script whose steps are possible where they are allowed has a run. -/
theorem Admissible.exists_run (hpossible : ∀ s i, allowed s i → ∃ s', step s i = some s')
    {s : σ} {is : List ι} (h : Admissible step allowed s is) : ∃ s', run step s is = some s' := by
  induction is generalizing s with
  | nil => exact ⟨s, rfl⟩
  | cons i is ih =>
      obtain ⟨t, ht⟩ := hpossible s i h.1
      obtain ⟨s', hs'⟩ := ih (h.2 t ht)
      exact ⟨s', run_cons_eq_some.2 ⟨t, ht, hs'⟩⟩

end Ned.Library
