import Mathlib.Data.List.Perm.Basic
import Ned.Editor.Query.Lemmas.Matcher

/-!
# Root dispatch

A node is tried against the patterns filed under its symbol and those that cannot be filed. No match is
lost: the other patterns have none there.
-/

namespace Ned.Editor.Query

open Library

variable {supertypeSteps : Bool} {symbol : Nat} {filter set other : SymbolSet} {captures : List Nat}
  {info : ChildInfo}

/-! ## The symbols of a root -/

namespace SymbolSet

theorem contains_iff : set.contains symbol = true ↔ symbol ∈ set.symbols := by
  simp [contains]

theorem mem_insert {new : Nat} : symbol ∈ (set.insert new).symbols ↔ symbol = new ∨ symbol ∈ set.symbols := by
  unfold insert
  split
  · rename_i h
    constructor
    · exact Or.inr
    · rintro (rfl | hmem)
      · exact h
      · exact hmem
  · exact List.mem_cons

theorem mem_foldl_insert {symbols : List Nat} :
    symbol ∈ (symbols.foldl insert set).symbols ↔ symbol ∈ symbols ∨ symbol ∈ set.symbols := by
  induction symbols generalizing set with
  | nil => simp
  | cons new symbols ih => rw [List.foldl_cons, ih, mem_insert, List.mem_cons]; tauto

theorem mem_insertAll :
    symbol ∈ (set.insertAll other).symbols ↔ symbol ∈ other.symbols ∨ symbol ∈ set.symbols :=
  mem_foldl_insert

end SymbolSet

/-- A filter keeps what it has, and rules out no symbol with an assignment. -/
def FiltersSoundly (supertypeSteps : Bool) (node : PatternNode) : Prop :=
  ∀ set filter, rootSymbolFilter node set = some filter →
    (∀ symbol ∈ set.symbols, symbol ∈ filter.symbols) ∧
      ∀ captures info, info.node.data.symbol ∉ filter.symbols →
        nodeAnswers supertypeSteps node captures info = []

def FiltersBranches (supertypeSteps : Bool) (items : List ChildItem) : Prop :=
  ∀ set filter, branchSymbolFilter items set = some filter →
    (∀ symbol ∈ set.symbols, symbol ∈ filter.symbols) ∧
      ∀ captures info, info.node.data.symbol ∉ filter.symbols →
        branchAnswers supertypeSteps items captures info = []

theorem nodeAnswers_of_not_accepts {head : PatternHead} {children : List ChildItem}
    (hkind : head.kind ≠ .alternation) (h : head.accepts info.node info.slot = false) :
    nodeAnswers supertypeSteps (.mk head children) captures info = [] := by
  rw [nodeAnswers]
  cases hhead : head.kind with
  | alternation => exact absurd hhead hkind
  | _ => simp [h]

theorem filtersSoundly_mk {head : PatternHead} {children : List ChildItem}
    (h : FiltersBranches supertypeSteps children) : FiltersSoundly supertypeSteps (.mk head children) := by
  intro set filter hfilter
  rw [rootSymbolFilter] at hfilter
  have hlisted : ∀ {listed : SymbolSet}, some (set.insertAll listed) = some filter →
      (∀ symbol ∈ set.symbols, symbol ∈ filter.symbols) ∧
        ∀ symbol, symbol ∉ filter.symbols → listed.contains symbol = false := by
    intro listed heq
    obtain rfl : set.insertAll listed = filter := Option.some.inj heq
    refine ⟨fun symbol hmem => SymbolSet.mem_insertAll.2 (Or.inr hmem), fun symbol hnot => ?_⟩
    rw [Bool.eq_false_iff]
    exact fun hmem => hnot (SymbolSet.mem_insertAll.2 (Or.inl (SymbolSet.contains_iff.1 hmem)))
  cases hkind : head.kind with
  | named | anonymous =>
      rw [hkind] at hfilter
      obtain ⟨hkeeps, hrules⟩ := hlisted hfilter
      refine ⟨hkeeps, fun captures info hnot => nodeAnswers_of_not_accepts (by simp [hkind]) ?_⟩
      simp [PatternHead.accepts, hkind, symbolMatches, hrules _ hnot]
  | supertype =>
      rw [hkind] at hfilter
      obtain ⟨hkeeps, hrules⟩ := hlisted hfilter
      refine ⟨hkeeps, fun captures info hnot => nodeAnswers_of_not_accepts (by simp [hkind]) ?_⟩
      simp [PatternHead.accepts, hkind, hrules _ hnot]
  | alternation =>
      rw [hkind] at hfilter
      obtain ⟨hkeeps, hrules⟩ := h set filter hfilter
      refine ⟨hkeeps, fun captures info hnot => ?_⟩
      rw [nodeAnswers, hkind]
      exact hrules captures info hnot
  | _ =>
      rw [hkind] at hfilter
      exact absurd hfilter (by simp)

theorem filtersBranches_cons {item : ItemHead} {node : PatternNode} {rest : List ChildItem}
    (hnode : FiltersSoundly supertypeSteps node) (hrest : FiltersBranches supertypeSteps rest) :
    FiltersBranches supertypeSteps (.mk item node :: rest) := by
  intro set filter hfilter
  rw [branchSymbolFilter] at hfilter
  obtain ⟨middle, hmiddle, hfilter⟩ := Option.bind_eq_some_iff.1 hfilter
  obtain ⟨hkeeps, hrules⟩ := hnode set middle hmiddle
  obtain ⟨hkeeps', hrules'⟩ := hrest middle filter hfilter
  refine ⟨fun symbol hmem => hkeeps' symbol (hkeeps symbol hmem), fun captures info hnot => ?_⟩
  rw [branchAnswers, hrules item.captures info fun hmem => hnot (hkeeps' _ hmem),
    hrules' captures info hnot]
  simp

theorem filters_soundly : (∀ node, FiltersSoundly supertypeSteps node) ∧
    ∀ items, FiltersBranches supertypeSteps items := by
  apply PatternNode.induct
  · exact fun head children h => filtersSoundly_mk h
  · rintro set filter hfilter
    obtain rfl : set = filter := by simpa [branchSymbolFilter] using hfilter
    exact ⟨fun _ hmem => hmem, fun _ _ _ => rfl⟩
  · exact fun item node rest hnode hrest => filtersBranches_cons hnode hrest

/-! ## The index -/

/-- A pattern is tried at a node with this symbol. -/
def filed (symbol : Nat) (root : PatternNode) : Bool :=
  if root.head.kind = .named ∨ root.head.kind = .anonymous then root.head.symbols.contains symbol
  else (rootSymbolFilter root .empty).all (·.contains symbol)

theorem nodeAnswers_of_not_filed {head : PatternHead} {children : List ChildItem}
    (h : filed info.node.data.symbol (.mk head children) = false) :
    nodeAnswers supertypeSteps (.mk head children) captures info = [] := by
  rw [filed, PatternNode.head] at h
  split at h
  · rename_i hkind
    rcases hkind with hkind | hkind
    · apply nodeAnswers_of_not_accepts (by simp [hkind])
      simp [PatternHead.accepts, hkind, symbolMatches, h]
    · apply nodeAnswers_of_not_accepts (by simp [hkind])
      simp [PatternHead.accepts, hkind, symbolMatches, h]
  · cases hfilter : rootSymbolFilter (.mk head children) .empty with
    | none => simp [hfilter] at h
    | some filter =>
        apply (filters_soundly.1 _ _ _ hfilter).2
        intro hmem
        rw [hfilter, Option.all_some, SymbolSet.contains_iff.2 hmem] at h
        exact absurd h (by decide)

theorem rootAnswers_of_not_filed {root : ChildItem} {node : RedNode} {slot : NodeSlot}
    (h : filed node.data.symbol root.node = false) : rootAnswers supertypeSteps root node slot = [] := by
  obtain ⟨item, ⟨head, children⟩⟩ := root
  rw [rootAnswers]
  split
  · rfl
  · rw [if_neg]
    · exact nodeAnswers_of_not_filed h
    · intro hkind
      have hkind : head.kind = .group := hkind
      simp [filed, PatternNode.head, ChildItem.node, hkind, rootSymbolFilter] at h

theorem fileUnder_eq {index : Nat → List Nat} {symbols : List Nat} (h : symbols.Nodup) (p : Nat) :
    fileUnder index symbols p symbol = index symbol ++ if symbol ∈ symbols then [p] else [] := by
  induction symbols generalizing index with
  | nil => simp [fileUnder]
  | cons first symbols ih =>
      obtain ⟨hfirst, hrest⟩ := List.nodup_cons.1 h
      rw [fileUnder, List.foldl_cons]
      change fileUnder _ symbols p symbol = _
      rw [ih hrest]
      by_cases heq : symbol = first
      · subst heq
        simp [hfirst]
      · simp [heq]

/-- What is looked up for a symbol. -/
def RootIndex.lookup (index : RootIndex) (symbol : Nat) : List Nat :=
  index.rootIndex symbol ++ (index.unindexedBySymbol symbol ++ index.unfilteredUnindexed)

theorem file_lookup (index : RootIndex) (p : Nat) (root : PatternNode) :
    ((index.file p root).lookup symbol).Perm
      (index.lookup symbol ++ if filed symbol root then [p] else []) := by
  unfold RootIndex.file RootIndex.lookup filed
  split
  · dsimp only
    rw [fileUnder_eq root.head.symbols.nodup]
    simp only [SymbolSet.contains_iff]
    generalize (if symbol ∈ root.head.symbols.symbols then [p] else []) = entry
    rw [List.append_assoc, List.append_assoc]
    exact List.perm_append_comm.append_left _
  · cases rootSymbolFilter root .empty with
    | some filter =>
        dsimp only
        rw [fileUnder_eq filter.nodup]
        simp only [Option.all_some, SymbolSet.contains_iff]
        generalize (if symbol ∈ filter.symbols then [p] else []) = entry
        rw [List.append_assoc, List.append_assoc, List.append_assoc]
        exact (List.perm_append_comm.append_left _).append_left _
    | none => simp

theorem rootIndex_lookup (matcher : QueryMatcher) :
    (matcher.rootIndex.lookup symbol).Perm
      (matcher.patterns.zipIdx.flatMap fun entry =>
        if filed symbol entry.1.root.node then [entry.2] else []) := by
  have hfold : ∀ (entries : List (Pattern × Nat)) (index : RootIndex),
      ((entries.foldl (fun index entry => index.file entry.2 entry.1.root.node) index).lookup symbol).Perm
        (index.lookup symbol ++ entries.flatMap fun entry =>
          if filed symbol entry.1.root.node then [entry.2] else []) := by
    intro entries
    induction entries with
    | nil => intro index; simp
    | cons entry entries ih =>
        intro index
        rw [List.foldl_cons, List.flatMap_cons, ← List.append_assoc]
        exact (ih _).trans ((file_lookup index entry.2 entry.1.root.node).append_right _)
  exact hfold matcher.patterns.zipIdx _

namespace QueryRun

variable {run : QueryRun} {walkPath : List RedNode} {node : RedNode} {slot : NodeSlot} {σ : Type}
  {sink : Nat → Trails → RedNode → σ → σ} {matchedTrail : List RedNode} {s : σ}

theorem candidates_perm : (run.candidates node).Perm
    (run.matcher.patterns.zipIdx.flatMap fun entry =>
      if filed node.data.symbol entry.1.root.node then [entry.2] else []) :=
  ((List.merge_perm_append _).append_left _).trans (rootIndex_lookup run.matcher)

/-! ## Reports -/

variable (run walkPath node slot matchedTrail) in
/-- What a pattern reports at a node: its assignments that pass its predicates. -/
def reports (p : Nat) : List Trails :=
  (run.matcher.patterns[p]?).elim [] fun pattern =>
    ((rootAnswers run.matcher.supertypeSteps pattern.root node slot).map (⟨[], matchedTrail⟩ * ·)).filter
      fun trails => run.evaluatePatternPredicates walkPath pattern trails.bindings

variable (sink node) in
/-- Reports go to the sink in order. -/
def deliver (p : Nat) (trails : List Trails) (s : σ) : σ :=
  trails.foldl (fun s trails => sink p trails node s) s

theorem tryOne_eq (p : Nat) : run.tryOne walkPath node slot sink p ⟨[], matchedTrail⟩ s =
    (⟨[], matchedTrail⟩, deliver node sink p (run.reports walkPath node slot matchedTrail p) s) := by
  rw [tryOne, reports]
  cases run.matcher.patterns[p]? with
  | none => rfl
  | some pattern =>
      dsimp only [Option.elim_some]
      rw [tryPattern_enumerates pattern.root node slot _ fun _ _ => rfl]
      congr 1
      generalize rootAnswers run.matcher.supertypeSteps pattern.root node slot = answers
      induction answers generalizing s with
      | nil => rfl
      | cons answer answers ih =>
          rw [visitAll_cons, ih, List.map_cons, List.filter_cons]
          dsimp only [report]
          split
          · rfl
          · rfl

theorem forEach_tryOne (ps : List Nat) :
    forEach ps (run.tryOne walkPath node slot sink) ⟨[], matchedTrail⟩ s =
      (⟨[], matchedTrail⟩, ps.foldl (fun s p =>
        deliver node sink p (run.reports walkPath node slot matchedTrail p) s) s) := by
  induction ps generalizing s with
  | nil => rfl
  | cons p ps ih =>
      change forEach ps _ (run.tryOne walkPath node slot sink p ⟨[], matchedTrail⟩ s).1
        (run.tryOne walkPath node slot sink p ⟨[], matchedTrail⟩ s).2 = _
      rw [tryOne_eq, ih, List.foldl_cons]

/-! ## All patterns -/

/-- Keeps what is reported. -/
def collect (p : Nat) (trails : Trails) (_ : RedNode) (reported : List (Nat × Trails)) :
    List (Nat × Trails) :=
  reported ++ [(p, trails)]

theorem foldl_collect (ps : List Nat) (reports : Nat → List Trails) (reported : List (Nat × Trails)) :
    ps.foldl (fun s p => deliver node collect p (reports p) s) reported =
      reported ++ ps.flatMap fun p => (reports p).map (p, ·) := by
  have hdeliver : ∀ p trails reported, deliver node collect p trails reported =
      reported ++ trails.map (p, ·) := by
    intro p trails
    induction trails with
    | nil => intro reported; simp [deliver]
    | cons answer trails ih =>
        intro reported
        rw [deliver, List.foldl_cons]
        change deliver node collect p trails (reported ++ [(p, answer)]) = _
        rw [ih, List.map_cons, List.append_assoc, List.singleton_append]
  induction ps generalizing reported with
  | nil => simp
  | cons p ps ih => rw [List.foldl_cons, hdeliver, ih, List.flatMap_cons, List.append_assoc]

theorem reports_of_not_filed {entry : Pattern × Nat} (hentry : entry ∈ run.matcher.patterns.zipIdx)
    (h : filed node.data.symbol entry.1.root.node = false) :
    run.reports walkPath node slot matchedTrail entry.2 = [] := by
  have hget : run.matcher.patterns[entry.2]? = some entry.1 := by
    simpa using List.mem_zipIdx_iff_getElem?.1 hentry
  rw [reports, hget, Option.elim_some, rootAnswers_of_not_filed h]
  rfl

/-- What the candidates report is what all patterns report. -/
theorem flatMap_candidates_perm (collected : Nat → List (Nat × Trails))
    (h : ∀ entry ∈ run.matcher.patterns.zipIdx, filed node.data.symbol entry.1.root.node = false →
      collected entry.2 = []) :
    ((run.candidates node).flatMap collected).Perm
      ((List.range run.matcher.patterns.length).flatMap collected) := by
  have hrange : List.range run.matcher.patterns.length = run.matcher.patterns.zipIdx.map (·.2) := by
    rw [List.zipIdx_map_snd, List.range_eq_range']
  rw [hrange, List.flatMap_map]
  refine (candidates_perm.flatMap_right collected).trans (List.Perm.of_eq ?_)
  rw [List.flatMap_assoc]
  apply List.flatMap_congr
  intro entry hentry
  cases hfiled : filed node.data.symbol entry.1.root.node with
  | true => simp
  | false => rw [h entry hentry hfiled]; simp

end QueryRun

open QueryRun

/-- No match is lost, and the vectors are as they were. -/
theorem runAtNode_complete (run : QueryRun) (walkPath : List RedNode) (node : RedNode) (slot : NodeSlot)
    (matchedTrail : List RedNode) :
    (run.runAtNode walkPath node slot collect matchedTrail []).1 = matchedTrail ∧
      (run.runAtNode walkPath node slot collect matchedTrail []).2.Perm
        ((List.range run.matcher.patterns.length).flatMap fun p =>
          (run.tryOne walkPath node slot collect p ⟨[], matchedTrail⟩ []).2) ∧
      (∀ p, (run.tryOne walkPath node slot collect p ⟨[], matchedTrail⟩ []).1 = ⟨[], matchedTrail⟩) ∧
      ∀ root σ (next : MatchFn σ) trails s, Restoring next →
        (tryPattern run.matcher.supertypeSteps root node slot σ next trails s).1 = trails := by
  refine ⟨?_, ?_, fun p => ?_, fun root σ next trails s hnext => ?_⟩
  · rw [runAtNode, forEach_tryOne]
  · have hone : ∀ p, (run.tryOne walkPath node slot collect p ⟨[], matchedTrail⟩ []).2 =
        (run.reports walkPath node slot matchedTrail p).map (p, ·) := by
      intro p
      have hfold : [p].foldl (fun s p => deliver node collect p
          (run.reports walkPath node slot matchedTrail p) s) [] = _ := foldl_collect [p] _ []
      rw [List.flatMap_singleton, List.nil_append] at hfold
      rw [tryOne_eq, ← hfold, List.foldl_cons, List.foldl_nil]
    rw [runAtNode, forEach_tryOne, foldl_collect, List.nil_append]
    simp only [hone]
    apply flatMap_candidates_perm
    intro entry hentry hfiled
    rw [reports_of_not_filed hentry hfiled, List.map_nil]
  · rw [tryOne_eq]
  · rw [tryPattern_enumerates root node slot next hnext]

end Ned.Editor.Query
