import Mathlib.Algebra.Group.Defs

/-!
# Backtracking with continuations

An enumerator calls its continuation once for every answer, with the answer pushed on vectors it
shares with the continuation, and takes it off again. What else a continuation writes to is left open,
so that a caller can add a flag of its own.
-/

namespace Ned.Library

/-- A continuation over shared vectors, and whatever else it writes to. -/
abbrev Visit (V σ : Type) := V → σ → V × σ

variable {V σ ι : Type}

/-- A continuation that leaves the vectors as they were. -/
def Restoring (next : Visit V σ) : Prop := ∀ v s, (next v s).1 = v

/-- Notes that the continuation has been called. -/
def flagged (next : Visit V σ) : Visit V (σ × Bool) := fun v s =>
  let result := next v s.1
  (result.1, (result.2, true))

/-- Carries a flag along. -/
def unflagged (next : Visit V σ) : Visit V (σ × Bool) := fun v s =>
  let result := next v s.1
  (result.1, (result.2, s.2))

/-- One enumerator after the other. -/
def inTurn (first second : Visit V σ) : Visit V σ := fun v s =>
  let result := first v s
  second result.1 result.2

/-- Enumerators for a list of candidates, in turn. -/
def forEach (candidates : List ι) (run : ι → Visit V σ) : Visit V σ := fun v s =>
  candidates.foldl (fun result candidate => run candidate result.1 result.2) (v, s)

variable {next : Visit V σ}

theorem Restoring.flagged (h : Restoring next) : Restoring (flagged next) := fun v s => h v s.1

theorem Restoring.unflagged (h : Restoring next) : Restoring (unflagged next) := fun v s => h v s.1

variable [Monoid V]

/-- What is written when the answers are visited in order. -/
def visitAll (next : Visit V σ) (v : V) (answers : List V) (s : σ) : σ :=
  answers.foldl (fun s answer => (next (v * answer) s).2) s

/-- An enumerator visits these answers, in order, and restores the vectors. -/
def Enumerates (run : Visit V σ → Visit V σ) (answers : List V) : Prop :=
  ∀ next, Restoring next → ∀ v s, run next v s = (v, visitAll next v answers s)

variable {run first second : Visit V σ → Visit V σ} {answers others : List V} {a v : V} {s : σ}

@[simp] theorem visitAll_nil : visitAll next v [] s = s := rfl

@[simp] theorem visitAll_cons : visitAll next v (a :: answers) s =
    visitAll next v answers (next (v * a) s).2 := rfl

theorem visitAll_append : visitAll next v (answers ++ others) s =
    visitAll next v others (visitAll next v answers s) :=
  List.foldl_append

theorem visitAll_map : visitAll next v (answers.map (a * ·)) s = visitAll next (v * a) answers s := by
  induction answers generalizing s with
  | nil => rfl
  | cons b answers ih => rw [List.map_cons, visitAll_cons, visitAll_cons, ih, mul_assoc]

theorem visitAll_flagged {found : Bool} : visitAll (flagged next) v answers (s, found) =
    (visitAll next v answers s, found || !answers.isEmpty) := by
  induction answers generalizing s found with
  | nil => simp
  | cons b answers ih => rw [visitAll_cons, visitAll_cons, flagged, ih]; simp

theorem visitAll_unflagged {found : Bool} : visitAll (unflagged next) v answers (s, found) =
    (visitAll next v answers s, found) := by
  induction answers generalizing s with
  | nil => rfl
  | cons b answers ih => rw [visitAll_cons, visitAll_cons, unflagged, ih]

/-- Two enumerators, one in the continuation of the other. -/
theorem visitAll_bind (hsecond : Enumerates second others) (hnext : Restoring next) :
    visitAll (second next) v answers s =
      visitAll next v (answers.flatMap fun answer => others.map (answer * ·)) s := by
  induction answers generalizing s with
  | nil => rfl
  | cons a answers ih =>
      rw [visitAll_cons, hsecond next hnext, List.flatMap_cons, visitAll_append, visitAll_map]
      exact ih

namespace Enumerates

theorem restoring (h : Enumerates run answers) (hnext : Restoring next) : Restoring (run next) := by
  intro v s
  rw [h next hnext]

theorem none : Enumerates (fun (_ : Visit V σ) v s => (v, s)) [] := fun _ _ _ _ => rfl

theorem one : Enumerates (fun next : Visit V σ => next) [1] := by
  intro next hnext v s
  rw [visitAll_cons, visitAll_nil, mul_one]
  exact Prod.ext (hnext v s) rfl

/-- The second enumerator runs in the continuation of the first. -/
theorem andThen (hfirst : Enumerates first answers) (hsecond : Enumerates second others) :
    Enumerates (fun next => first (second next))
      (answers.flatMap fun answer => others.map (answer * ·)) := by
  intro next hnext v s
  change first (second next) v s = _
  rw [hfirst _ (hsecond.restoring hnext), visitAll_bind hsecond hnext]

/-- An enumerator says whether it has an answer. -/
theorem probe {run : Visit V Bool → Visit V Bool} (h : Enumerates run answers) :
    run (fun v _ => (v, true)) v false = (v, !answers.isEmpty) := by
  have htrue : ∀ answers : List V, visitAll (fun v _ => (v, true)) v answers true = true := by
    intro answers
    induction answers with
    | nil => rfl
    | cons b answers ih => exact ih
  rw [h _ fun _ _ => rfl]
  cases answers with
  | nil => rfl
  | cons a answers => rw [visitAll_cons, htrue]; rfl

end Enumerates

/-- An enumerator that also notes, in a flag, whether it has found something. -/
def EnumeratesFlagged (run : Visit V σ → Visit V (σ × Bool)) (answers : List V) (found : Bool) : Prop :=
  ∀ next, Restoring next → ∀ v s flag,
    run next v (s, flag) = (v, (visitAll next v answers s, flag || found))

namespace EnumeratesFlagged

theorem none : EnumeratesFlagged (fun (_ : Visit V σ) v (s : σ × Bool) => (v, s)) [] false := by
  intro next hnext v s flag
  rw [Bool.or_false]
  rfl

/-- An enumerator that leaves the flag alone. -/
theorem quiet {run : Visit V (σ × Bool) → Visit V (σ × Bool)} (h : Enumerates run answers) :
    EnumeratesFlagged (fun next : Visit V σ => run (unflagged next)) answers false := by
  intro next hnext v s flag
  change run (unflagged next) v (s, flag) = _
  rw [h _ hnext.unflagged, visitAll_unflagged, Bool.or_false]

/-- The flag is set between two enumerators. -/
theorem andThen {run : Visit V (σ × Bool) → Visit V (σ × Bool)} (hrun : Enumerates run answers)
    (hsecond : Enumerates second others) :
    EnumeratesFlagged (fun next => run (flagged (second next)))
      (answers.flatMap fun answer => others.map (answer * ·)) (!answers.isEmpty) := by
  intro next hnext v s flag
  change run (flagged (second next)) v (s, flag) = _
  rw [hrun _ (hsecond.restoring hnext).flagged, visitAll_flagged, visitAll_bind hsecond hnext]

theorem forEach {candidates : List ι} {run : ι → Visit V σ → Visit V (σ × Bool)}
    {answers : ι → List V} {found : ι → Bool}
    (h : ∀ candidate ∈ candidates, EnumeratesFlagged (run candidate) (answers candidate) (found candidate)) :
    EnumeratesFlagged (fun next => forEach candidates (run · next)) (candidates.flatMap answers)
      (candidates.any found) := by
  intro next hnext v s flag
  induction candidates generalizing s flag with
  | nil => rw [List.any_nil, Bool.or_false]; rfl
  | cons candidate rest ih =>
      have hrest := ih fun other hother => h other (List.mem_cons_of_mem candidate hother)
      change Library.forEach rest (run · next) (run candidate next v (s, flag)).1
        (run candidate next v (s, flag)).2 = _
      rw [List.flatMap_cons, visitAll_append, h candidate List.mem_cons_self next hnext, List.any_cons,
        ← Bool.or_assoc]
      exact hrest _ _

end EnumeratesFlagged

end Ned.Library
