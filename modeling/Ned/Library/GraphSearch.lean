import Mathlib.Logic.Relation
import Mathlib.Data.Set.Insert
import Mathlib.Data.List.Chain

/-!
# Searching graphs

What a depth-first search relies on: a path to a goal never has to come back to where it started, and
what is finished in an order in which successors come first has no cycle.
-/

namespace Ned.Library

open Relation

variable {α : Type}

/-! ## Paths -/

/-- A step of a relation that does not lead into a set. -/
def Avoids (r : α → α → Prop) (S : Set α) (a b : α) : Prop := r a b ∧ b ∉ S

/-- A path to a goal ends in `a`, or leads on from a successor of `a` without coming back, or never comes
to `a`. -/
theorem avoids_or {r : α → α → Prop} {S : Set α} {goal : α} (a : α) {b : α}
    (h : ReflTransGen (Avoids r S) b goal) : goal = a ∨
      (∃ c, Avoids r (insert a S) a c ∧ ReflTransGen (Avoids r (insert a S)) c goal) ∨
        (b ≠ a ∧ ReflTransGen (Avoids r (insert a S)) b goal) := by
  induction h using ReflTransGen.head_induction_on with
  | refl =>
      by_cases hgoal : goal = a
      · exact .inl hgoal
      · exact .inr (.inr ⟨hgoal, .refl⟩)
  | head hstep _ ih =>
      rename_i b c _
      rcases ih with ih | ih | ⟨hc, ih⟩
      · exact .inl ih
      · exact .inr (.inl ih)
      · have havoids : Avoids r (insert a S) b c := by
          refine ⟨hstep.1, fun hmem => ?_⟩
          rcases Set.mem_insert_iff.1 hmem with hmem | hmem
          · exact hc hmem
          · exact hstep.2 hmem
        by_cases hb : b = a
        · subst hb
          exact .inr (.inl ⟨c, havoids, ih⟩)
        · exact .inr (.inr ⟨hb, ih.head havoids⟩)

/-- From where it starts a path to a goal need not come back. -/
theorem avoids_start {r : α → α → Prop} {S : Set α} {a goal : α}
    (h : ReflTransGen (Avoids r S) a goal) : goal = a ∨
      ∃ c, Avoids r (insert a S) a c ∧ ReflTransGen (Avoids r (insert a S)) c goal := by
  rcases avoids_or a h with h | h | h
  · exact .inl h
  · exact .inr h
  · exact absurd rfl h.1

/-! ## Cycles -/

/-- The way round a cycle, with where it starts at both ends. -/
def IsCycle (r : α → α → Prop) (cycle : List α) : Prop :=
  ∃ a inner, cycle = a :: (inner ++ [a]) ∧ cycle.IsChain r

theorem IsCycle.transGen {r : α → α → Prop} {cycle : List α} (h : IsCycle r cycle) :
    ∃ a, TransGen r a a := by
  obtain ⟨a, inner, rfl, hchain⟩ := h
  refine ⟨a, ?_⟩
  have hreach : ∀ (b : α) (rest : List α), (b :: (rest ++ [a])).IsChain r → TransGen r b a := by
    intro b rest
    induction rest generalizing b with
    | nil => exact fun hb => .single (List.isChain_cons_cons.1 hb).1
    | cons c rest ih =>
        intro hb
        obtain ⟨hbc, hrest⟩ := List.isChain_cons_cons.1 hb
        exact .head hbc (ih c hrest)
  exact hreach a inner hchain

/-- An order in which everything comes before what was finished before it, its successors among
that. -/
inductive Finished (next : α → List α) : List α → Prop
  | nil : Finished next []
  | cons {a : α} {done : List α} (h : Finished next done) (hnext : ∀ b ∈ next a, b ∈ done) (ha : a ∉ done) :
      Finished next (a :: done)

variable {next : α → List α} {done : List α}

/-- Steps from what is finished stay there. -/
theorem Finished.step_mem (h : Finished next done) {a b : α} (ha : a ∈ done) (hstep : b ∈ next a) :
    b ∈ done := by
  induction h with
  | nil => cases ha
  | cons _ hnext _ ih =>
      rcases List.mem_cons.1 ha with rfl | ha
      · exact List.mem_cons_of_mem _ (hnext b hstep)
      · exact List.mem_cons_of_mem _ (ih ha)

theorem Finished.reach_mem (h : Finished next done) {a b : α} (ha : a ∈ done)
    (hreach : TransGen (fun a b => b ∈ next a) a b) : b ∈ done := by
  induction hreach with
  | single hstep => exact h.step_mem ha hstep
  | tail _ hstep ih => exact h.step_mem ih hstep

/-- What is finished is on no cycle. -/
theorem Finished.acyclic (h : Finished next done) {a : α} (ha : a ∈ done) :
    ¬ TransGen (fun a b => b ∈ next a) a a := by
  induction h with
  | nil => cases ha
  | cons hdone hnext hfresh ih =>
      rcases List.mem_cons.1 ha with rfl | ha
      · intro hcycle
        obtain ⟨b, hstep, hreach⟩ := TransGen.head'_iff.1 hcycle
        rcases reflTransGen_iff_eq_or_transGen.1 hreach with rfl | hreach
        · exact hfresh (hnext _ hstep)
        · exact hfresh (hdone.reach_mem (hnext b hstep) hreach)
      · exact ih ha

/-- What a search has visited: what is finished, and the path to where it is. -/
structure Visits (next : α → List α) (path done visited : List α) : Prop where
  finished : Finished next done
  mem_iff : ∀ a, a ∈ visited ↔ a ∈ done ∨ a ∈ path
  apart : ∀ a ∈ done, a ∉ path

/-- What a search has found: a cycle, or it has visited more and finished all that was asked for. -/
structure Searches (next : α → List α) (path done wanted : List α) (result : Except (List α) (List α)) :
    Prop where
  cycle : ∀ cycle, result = .error cycle → IsCycle (fun a b => b ∈ next a) cycle
  finished : ∀ visited, result = .ok visited →
    ∃ done', Visits next path done' visited ∧ done ⊆ done' ∧ wanted ⊆ done'

variable {path visited : List α}

theorem Searches.of_done (h : Visits next path done visited) {wanted : List α} (hwanted : wanted ⊆ done) :
    Searches next path done wanted (.ok visited) where
  cycle := by
    intro cycle h
    cases h
  finished := by
    intro visited' heq
    cases heq
    exact ⟨done, h, List.Subset.refl _, hwanted⟩

theorem Searches.of_cycle {wanted cycle : List α} (h : IsCycle (fun a b => b ∈ next a) cycle) :
    Searches next path done wanted (.error cycle) where
  cycle := by
    intro cycle heq
    cases heq
    exact h
  finished := by
    intro visited heq
    cases heq

/-- A search for each of several. -/
theorem searches_all {search : List α → α → Except (List α) (List α)} {wanted : List α}
    (hsearch : ∀ a ∈ wanted, ∀ visited done, Visits next path done visited →
      Searches next path done [a] (search visited a)) (h : Visits next path done visited) :
    Searches next path done wanted (wanted.foldlM search visited) := by
  induction wanted generalizing visited done with
  | nil => exact .of_done h (List.nil_subset _)
  | cons a wanted ih =>
      rw [List.foldlM_cons]
      have hfirst := hsearch a List.mem_cons_self visited done h
      cases hresult : search visited a with
      | error cycle => exact .of_cycle (hfirst.cycle cycle hresult)
      | ok visited' =>
          obtain ⟨done', hvisits, hmore, ha⟩ := hfirst.finished visited' hresult
          have hrest := ih (fun b hb => hsearch b (List.mem_cons_of_mem _ hb)) hvisits
          refine ⟨hrest.cycle, fun last hlast => ?_⟩
          obtain ⟨done'', hvisits', hmore', hwanted⟩ := hrest.finished last hlast
          refine ⟨done'', hvisits', List.Subset.trans hmore hmore', ?_⟩
          exact List.cons_subset.2 ⟨hmore' (List.cons_subset.1 ha).1, hwanted⟩

/-- Where a search comes back to its path there is a cycle. -/
theorem isCycle_of_mem [DecidableEq α] {r : α → α → Prop} {a : α} (ha : a ∈ path)
    (hchain : (path ++ [a]).IsChain r) : IsCycle r ((path.dropWhile fun b => b != a) ++ [a]) := by
  induction path with
  | nil => cases ha
  | cons b path ih =>
      rw [List.dropWhile_cons]
      by_cases hb : b = a
      · subst hb
        rw [bne_self_eq_false, if_neg Bool.false_ne_true]
        exact ⟨b, path, rfl, hchain⟩
      · rw [if_pos (bne_iff_ne.2 hb)]
        refine ih ((List.mem_cons.1 ha).resolve_left (Ne.symm hb)) ?_
        exact List.IsChain.tail hchain

/-- Once all that a step leads to is finished, so is where it started. -/
theorem Visits.finish {a : α} (h : Visits next (path ++ [a]) done visited) (hnext : next a ⊆ done)
    (ha : a ∉ path) : Visits next path (a :: done) visited where
  finished := h.finished.cons hnext fun hmem => h.apart a hmem (by simp)
  mem_iff := by
    intro b
    rw [h.mem_iff, List.mem_append, List.mem_singleton, List.mem_cons]
    constructor
    · rintro (hb | hb | hb)
      · exact .inl (.inr hb)
      · exact .inr hb
      · exact .inl (.inl hb)
    · rintro ((hb | hb) | hb)
      · exact .inr (.inr hb)
      · exact .inl hb
      · exact .inr (.inl hb)
  apart := by
    intro b hb
    rcases List.mem_cons.1 hb with rfl | hb
    · exact ha
    · exact fun hmem => h.apart b hb (List.mem_append_left _ hmem)

theorem Visits.enter {a : α} (h : Visits next path done visited) (ha : a ∉ visited) :
    Visits next (path ++ [a]) done (a :: visited) where
  finished := h.finished
  mem_iff := by
    intro b
    rw [List.mem_cons, h.mem_iff, List.mem_append, List.mem_singleton]
    constructor
    · rintro (hb | hb | hb)
      · exact .inr (.inr hb)
      · exact .inl hb
      · exact .inr (.inl hb)
    · rintro (hb | hb | hb)
      · exact .inr (.inl hb)
      · exact .inr (.inr hb)
      · exact .inl hb
  apart := by
    intro b hb hmem
    rcases List.mem_append.1 hmem with hmem | hmem
    · exact h.apart b hb hmem
    · rw [List.mem_singleton] at hmem
      exact ha ((h.mem_iff a).2 (.inl (hmem ▸ hb)))

end Ned.Library
