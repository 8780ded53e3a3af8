import Mathlib.Algebra.Order.Monoid.Defs
import Mathlib.Algebra.Order.Monoid.Unbundled.Basic

/-!
# Cheapest derivations

Context-free grammars whose terminals and expansions cost something, and the costs that are settled
one nonterminal after the other, cheapest first. A derivation is no cheaper than any part of it, so
what is settled stays right.
-/

namespace Ned.Library

/-- What a production is made of. -/
inductive Part (T N : Type)
  | terminal (t : T)
  | nonterminal (n : N)
  deriving DecidableEq

structure WeightedGrammar (T N K : Type) where
  productions : N → List (List (Part T N))
  terminalCost : T → K
  nodeCost : K

namespace WeightedGrammar

variable {T N K : Type} [AddCommMonoid K]

/-- A sequence of parts derives a string of terminals, at a cost. -/
inductive Derives (G : WeightedGrammar T N K) : List (Part T N) → List T → K → Prop
  | nil : Derives G [] [] 0
  | terminal {t : T} {rest : List (Part T N)} {ts : List T} {k : K} (hrest : Derives G rest ts k) :
      Derives G (.terminal t :: rest) (t :: ts) (G.terminalCost t + k)
  | nonterminal {n : N} {production rest : List (Part T N)} {ts us : List T} {k l : K}
      (hmem : production ∈ G.productions n) (hexpanded : Derives G production ts k)
      (hrest : Derives G rest us l) :
      Derives G (.nonterminal n :: rest) (ts ++ us) (G.nodeCost + k + l)

/-- The cost of a sequence, from the costs settled. -/
def settledCost (G : WeightedGrammar T N K) (settled : N → Option K) : List (Part T N) → Option K
  | [] => some 0
  | .terminal t :: rest => (G.settledCost settled rest).map (G.terminalCost t + ·)
  | .nonterminal n :: rest =>
      (settled n).bind fun cost => (G.settledCost settled rest).map (cost + ·)

variable {G : WeightedGrammar T N K} {settled : N → Option K} {n : N} {t : T} {k l c s : K}
  {parts rest production : List (Part T N)} {ts : List T}

theorem settledCost_nil : G.settledCost settled [] = some 0 := rfl

theorem settledCost_terminal : G.settledCost settled (.terminal t :: rest) =
    (G.settledCost settled rest).map (G.terminalCost t + ·) := rfl

theorem settledCost_nonterminal : G.settledCost settled (.nonterminal n :: rest) =
    (settled n).bind fun cost => (G.settledCost settled rest).map (cost + ·) := rfl

theorem Derives.single (hmem : production ∈ G.productions n) (h : G.Derives production ts k) :
    G.Derives [.nonterminal n] ts (G.nodeCost + k) := by
  have hone : G.Derives [.nonterminal n] (ts ++ []) (G.nodeCost + k + 0) := .nonterminal hmem h .nil
  rwa [List.append_nil, add_zero] at hone

/-- A derivation starts with one of the first part. -/
theorem Derives.nonterminal_cases (h : G.Derives (.nonterminal n :: rest) ts c) :
    ∃ us vs k l, G.Derives [.nonterminal n] us k ∧ G.Derives rest vs l ∧ ts = us ++ vs ∧
      c = k + l := by
  cases h with
  | nonterminal hmem hexpanded hrest =>
      exact ⟨_, _, _, _, .single hmem hexpanded, hrest, rfl, rfl⟩

theorem Derives.single_cases (h : G.Derives [.nonterminal n] ts c) :
    ∃ production ∈ G.productions n, ∃ k, G.Derives production ts k ∧ c = G.nodeCost + k := by
  cases h with
  | nonterminal hmem hexpanded hrest =>
      cases hrest
      exact ⟨_, hmem, _, by rwa [List.append_nil], add_zero _⟩

/-- The costs settled are those of derivations. -/
def Derived (G : WeightedGrammar T N K) (settled : N → Option K) : Prop :=
  ∀ n c, settled n = some c → ∃ ts, G.Derives [.nonterminal n] ts c

theorem Derives.append {us : List T} (h : G.Derives [.nonterminal n] ts k)
    (hrest : G.Derives rest us l) : G.Derives (.nonterminal n :: rest) (ts ++ us) (k + l) := by
  obtain ⟨production, hmem, k, hproduction, rfl⟩ := h.single_cases
  exact .nonterminal hmem hproduction hrest

theorem Derived.settledCost (h : G.Derived settled) (hcost : G.settledCost settled parts = some c) :
    ∃ ts, G.Derives parts ts c := by
  induction parts generalizing c with
  | nil =>
      cases hcost
      exact ⟨[], .nil⟩
  | cons part rest ih =>
      cases part with
      | terminal t =>
          obtain ⟨l, hl, rfl⟩ := Option.map_eq_some_iff.1 hcost
          obtain ⟨ts, hts⟩ := ih hl
          exact ⟨t :: ts, .terminal hts⟩
      | nonterminal n =>
          obtain ⟨k, hk, hcost⟩ := Option.bind_eq_some_iff.1 hcost
          obtain ⟨l, hl, rfl⟩ := Option.map_eq_some_iff.1 hcost
          obtain ⟨us, hus⟩ := h n k hk
          obtain ⟨vs, hvs⟩ := ih hl
          exact ⟨us ++ vs, hus.append hvs⟩

/-! ## The cheapest first -/

variable [LinearOrder K] [IsOrderedAddMonoid K]

/-- The costs settled are the least ones. -/
structure Cheapest (G : WeightedGrammar T N K) (settled : N → Option K) : Prop where
  derived : G.Derived settled
  least : ∀ n c ts k, settled n = some c → G.Derives [.nonterminal n] ts k → c ≤ k

omit [IsOrderedAddMonoid K] in
theorem cheapest_of_none (h : ∀ n, settled n = none) : G.Cheapest settled :=
  ⟨fun n c hc => absurd (hc.symm.trans (h n)) (Option.some_ne_none c),
    fun n c _ _ hc => absurd (hc.symm.trans (h n)) (Option.some_ne_none c)⟩

section

variable (hnonneg : ∀ k : K, 0 ≤ k)

include hnonneg

/-- Where every way to settle one more is `far`, and so is whatever costs more than that, a derivation
is far, or made of what is settled and no cheaper. -/
theorem Cheapest.settled_or_far (h : G.Cheapest settled) (far : K → Prop)
    (hup : ∀ k l, far k → k ≤ l → far l)
    (hfar : ∀ n, settled n = none → ∀ production ∈ G.productions n, ∀ s,
      G.settledCost settled production = some s → far (G.nodeCost + s))
    (hderives : G.Derives parts ts k) :
    (∃ s, G.settledCost settled parts = some s ∧ s ≤ k) ∨ far k := by
  induction hderives with
  | nil => exact .inl ⟨0, rfl, le_refl 0⟩
  | @terminal t rest ts k _ ih =>
      rcases ih with ⟨s, hs, hle⟩ | hk
      · exact .inl ⟨G.terminalCost t + s, by rw [settledCost_terminal, hs, Option.map_some],
          add_le_add_right hle _⟩
      · exact .inr (hup _ _ hk (le_add_of_nonneg_left (hnonneg _)))
  | @nonterminal n production rest ts us k l hmem hexpanded _ ih ih' =>
      have hfirst : (∃ c, settled n = some c ∧ c ≤ G.nodeCost + k) ∨ far (G.nodeCost + k) := by
        cases hn : settled n with
        | some c => exact .inl ⟨c, rfl, h.least n c ts _ hn (.single hmem hexpanded)⟩
        | none =>
            right
            rcases ih with ⟨s, hs, hle⟩ | hk
            · exact hup _ _ (hfar n hn production hmem s hs) (add_le_add_right hle _)
            · exact hup _ _ hk (le_add_of_nonneg_left (hnonneg _))
      rcases hfirst with ⟨c, hc, hle⟩ | hk
      · rcases ih' with ⟨s, hs, hle'⟩ | hl
        · refine .inl ⟨c + s, ?_, add_le_add hle hle'⟩
          rw [settledCost_nonterminal, hc, Option.bind_some, hs, Option.map_some]
        · exact .inr (hup _ _ hl (le_add_of_nonneg_left (hnonneg _)))
      · exact .inr (hup _ _ hk (le_add_of_nonneg_right (hnonneg _)))

/-- The cheapest way to settle one more is the cheapest there is. -/
theorem Cheapest.settle [DecidableEq N] (h : G.Cheapest settled) (hn : settled n = none)
    (hmem : production ∈ G.productions n) (hs : G.settledCost settled production = some s)
    (hleast : ∀ m, settled m = none → ∀ other ∈ G.productions m, ∀ r,
      G.settledCost settled other = some r → G.nodeCost + s ≤ G.nodeCost + r) :
    G.Cheapest fun m => if m = n then some (G.nodeCost + s) else settled m := by
  refine ⟨fun m c hc => ?_, fun m c ts k hc hderives => ?_⟩
  · split at hc
    · rename_i heq
      cases hc
      subst heq
      obtain ⟨ts, hts⟩ := h.derived.settledCost hs
      exact ⟨ts, .single hmem hts⟩
    · exact h.derived m c hc
  · split at hc
    · rename_i heq
      cases hc
      subst heq
      have hcases := h.settled_or_far hnonneg (G.nodeCost + s ≤ ·)
        (fun k l hk hl => hk.trans hl) hleast hderives
      rcases hcases with ⟨r, hr, -⟩ | hle
      · rw [settledCost_nonterminal, hn] at hr
        cases hr
      · exact hle
    · exact h.least m c ts k hc hderives

/-- Where nothing more can be settled, only what is settled derives anything. -/
theorem Cheapest.complete (h : G.Cheapest settled)
    (hdone : ∀ m, settled m = none → ∀ other ∈ G.productions m,
      G.settledCost settled other = none)
    (hderives : G.Derives parts ts k) : (G.settledCost settled parts).isSome := by
  have hcases := h.settled_or_far hnonneg (fun _ => False) (fun _ _ hk _ => hk)
    (fun m hm other hother s hs => Option.some_ne_none s (hs.symm.trans (hdone m hm other hother)))
    hderives
  rcases hcases with ⟨s, hs, -⟩ | hfalse
  · rw [hs]
    rfl
  · exact hfalse.elim

/-- The cost settled for a sequence is the least one of its derivations. -/
theorem Cheapest.settledCost_le (h : G.Cheapest settled)
    (hs : G.settledCost settled parts = some s) (hderives : G.Derives parts ts k) : s ≤ k := by
  induction parts generalizing s ts k with
  | nil =>
      cases hs
      exact hnonneg k
  | cons part rest ih =>
      cases part with
      | terminal t =>
          obtain ⟨l, hl, rfl⟩ := Option.map_eq_some_iff.1 hs
          cases hderives with
          | terminal hrest => exact add_le_add_right (ih hl hrest) _
      | nonterminal n =>
          obtain ⟨c, hc, hs⟩ := Option.bind_eq_some_iff.1 hs
          obtain ⟨l, hl, rfl⟩ := Option.map_eq_some_iff.1 hs
          obtain ⟨us, vs, k, l', hfirst, hrest, rfl, rfl⟩ := hderives.nonterminal_cases
          exact add_le_add (h.least n c us k hc hfirst) (ih hl hrest)

end

end WeightedGrammar

end Ned.Library
