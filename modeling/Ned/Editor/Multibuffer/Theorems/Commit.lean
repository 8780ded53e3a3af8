import Ned.Editor.Multibuffer.Lemmas.Commit
import Mathlib.Algebra.Order.Ring.Nat

/-!
# Skipped files

A file that a commit skips keeps its content, and its excerpts stay to be committed. A write that fails
is the one exception: the excerpts have been recorded as committed before it is tried.
-/

namespace Ned.Editor.Multibuffer

open Library Text

/-! ## Counting by key -/

section

variable {α β : Type} [DecidableEq β] {xs : List α} {q : α → Bool} {key : α → β} {keys : List β}

theorem length_filter_range (xs : List α) (q : α → Bool) :
    ((List.range xs.length).filter fun i => (xs[i]?).any q).length = xs.countP q := by
  have hget : (List.range xs.length).map (fun i => xs[i]?) = xs.map some := by
    refine List.ext_getElem? fun i => ?_
    rw [List.getElem?_map, List.getElem?_map]
    by_cases hi : i < xs.length
    · simp [hi]
    · simp [hi]
  have hcount := congrArg (List.countP (Option.any q)) hget
  simp only [List.countP_map] at hcount
  rw [← List.countP_eq_length_filter]
  exact hcount

theorem countP_key_cons {k : β} (hk : k ∉ keys) (g : β → Bool) :
    (xs.countP fun x => q x && g (key x) && (k :: keys).contains (key x)) =
      (if g k then xs.countP fun x => q x && key x == k else 0) +
        xs.countP fun x => q x && g (key x) && keys.contains (key x) := by
  induction xs with
  | nil => simp
  | cons x xs ih =>
      simp only [List.countP_cons] at ih ⊢
      rw [ih]
      by_cases hx : key x = k
      · have hnot : keys.contains (key x) = false := by simp [hx, hk]
        cases hg : g k <;> simp [hx, hg, hk]
        omega
      · have hne : (key x == k) = false := beq_false_of_ne hx
        simp [hx, hne]
        omega

variable (xs q key) in
theorem sum_countP_key (hnodup : keys.Nodup) (g : β → Bool) :
    (keys.map fun k => if g k then xs.countP fun x => q x && key x == k else 0).sum =
      xs.countP fun x => q x && g (key x) && keys.contains (key x) := by
  induction keys with
  | nil => simp
  | cons k keys ih =>
      obtain ⟨hk, hrest⟩ := List.nodup_cons.1 hnodup
      rw [List.map_cons, List.sum_cons, ih hrest, countP_key_cons hk]

end

section

variable {Path : Type} [LinearOrder Path] {p : Platform} {host : Host Path} {target : CommitTarget}
  {c c' : Commit Path} {path other : Path} {indices : List Nat} {files : List (Path × List Nat)}

/-! ## A whole run -/

theorem losesWrite_congr (hown : c.Own path indices) (h : c'.view path = c.view path) :
    losesWrite host target c'.sources c'.composite path indices =
      losesWrite host target c.sources c.composite path indices := by
  have hfile : c'.sources.disk path = c.sources.disk path := congrArg View.file h
  have hbuffer : c'.sources.buffers path = c.sources.buffers path := congrArg View.buffer h
  have hconflicted : ∀ fileText, c'.composite.conflicted fileText indices =
      c.composite.conflicted fileText indices := by
    intro fileText
    rw [Composite.conflicted, Composite.conflicted]
    refine Bool.eq_iff_iff.2 ?_
    simp only [List.any_eq_true]
    refine exists_congr fun i => and_congr_right fun hi => ?_
    obtain ⟨range, hrange⟩ := hown i hi
    have hrange' : (c'.view path).ranges[i]? = some (some range) := by rw [h, hrange]
    rw [(Commit.rangesOf_getElem?.1 hrange).1, (Commit.rangesOf_getElem?.1 hrange').1]
  simp only [losesWrite, writesDisk, hfile, hbuffer, hconflicted]

/-- Every file's turn does to it what it would have done first. -/
theorem commitFiles_views (h : commitFiles p host target files c = some c')
    (hnodup : (files.map Prod.fst).Nodup) (hown : ∀ file ∈ files, c.Own file.1 file.2) :
    (∀ path, path ∉ files.map Prod.fst → c'.view path = c.view path) ∧
      ∀ file ∈ files, Outcome host file.1 file.2
        (losesWrite host target c.sources c.composite file.1 file.2) (c.view file.1)
        (c'.view file.1) := by
  induction files generalizing c with
  | nil =>
      obtain rfl := Option.some.inj h
      exact ⟨fun _ _ => rfl, fun file hfile => absurd hfile List.not_mem_nil⟩
  | cons file files ih =>
      obtain ⟨path, indices⟩ := file
      obtain ⟨next, hnext, h⟩ := Option.bind_eq_some_iff.1 h
      rw [List.map_cons] at hnodup ⊢
      obtain ⟨hfresh, hrest⟩ := List.nodup_cons.1 hnodup
      have hstep := commitFile_step hnext
      have hhere := hown _ List.mem_cons_self
      have hframe : ∀ {other}, other ≠ path → next.view other = c.view other := hstep.view_of_ne hhere
      have hne : ∀ file ∈ files, file.1 ≠ path := fun file hfile heq =>
        hfresh (List.mem_map.2 ⟨file, hfile, heq⟩)
      have hown' : ∀ file ∈ files, next.Own file.1 file.2 := fun file hfile =>
        (hown file (List.mem_cons_of_mem _ hfile)).of_view (hframe (hne file hfile))
      obtain ⟨hothers, houtcomes⟩ := ih h hrest hown'
      refine ⟨fun other hother => ?_, fun file hfile => ?_⟩
      · obtain ⟨hother, hlater⟩ := not_or.1 (mt List.mem_cons.2 hother)
        exact (hothers other hlater).trans (hframe hother)
      · rcases List.mem_cons.1 hfile with rfl | hfile
        · rw [hothers _ hfresh]
          exact hstep.outcome
        · have hsame := hframe (hne file hfile)
          have houtcome := houtcomes file hfile
          rw [losesWrite_congr (hown file (List.mem_cons_of_mem _ hfile)) hsame, hsame] at houtcome
          exact houtcome

/-- A file counts its excerpts unless it is skipped. -/
theorem FileStep.counted (h : FileStep host target c path indices c')
    (hkept : losesWrite host target c.sources c.composite path indices = false) :
    c'.result.committedExcerpts = c.result.committedExcerpts +
      if (c'.view path).skipped = (c.view path).skipped then indices.length else 0 := by
  have hskips : ∀ (d : Commit Path) (reason : String), d.result = c.result →
      ((d.skip path reason).view path).skipped ≠ (c.view path).skipped := by
    intro d reason hresult heq
    have hlength := congrArg List.length heq
    simp [Commit.view, Commit.skip, hresult, List.filter_append] at hlength
  cases h with
  | skipped reason _ =>
      rw [if_neg (hskips c reason rfl)]
      rfl
  | opened reason source _ _ _ =>
      rw [if_neg (hskips (c.setBuffer path source) reason rfl)]
      rfl
  | lost _ _ _ _ hlost =>
      rw [hkept] at hlost
      cases hlost
  | committed marked c' hmarks _ hcounted hskipped _ _ _ =>
      have hsame : (c'.view path).skipped = (c.view path).skipped := by
        simp [Commit.view, hskipped, hmarks.result]
      rw [if_pos hsame, hcounted, hmarks.result]

theorem commitFiles_counted (h : commitFiles p host target files c = some c')
    (hnodup : (files.map Prod.fst).Nodup) (hown : ∀ file ∈ files, c.Own file.1 file.2)
    (hkept : ∀ file ∈ files, losesWrite host target c.sources c.composite file.1 file.2 = false) :
    c'.result.committedExcerpts = c.result.committedExcerpts + (files.map fun file =>
      if (c'.view file.1).skipped = (c.view file.1).skipped then file.2.length else 0).sum := by
  induction files generalizing c with
  | nil =>
      obtain rfl := Option.some.inj h
      rfl
  | cons file files ih =>
      obtain ⟨path, indices⟩ := file
      obtain ⟨next, hnext, h⟩ := Option.bind_eq_some_iff.1 h
      rw [List.map_cons] at hnodup ⊢
      obtain ⟨hfresh, hrest⟩ := List.nodup_cons.1 hnodup
      have hstep := commitFile_step hnext
      have hhere := hown _ List.mem_cons_self
      have hsame : ∀ file ∈ files, next.view file.1 = c.view file.1 := fun file hfile =>
        hstep.view_of_ne hhere fun heq => hfresh (List.mem_map.2 ⟨file, hfile, heq⟩)
      have hown' : ∀ file ∈ files, next.Own file.1 file.2 := fun file hfile =>
        (hown file (List.mem_cons_of_mem _ hfile)).of_view (hsame file hfile)
      have hkept' : ∀ file ∈ files,
          losesWrite host target next.sources next.composite file.1 file.2 = false := by
        intro file hfile
        rw [losesWrite_congr (hown file (List.mem_cons_of_mem _ hfile)) (hsame file hfile)]
        exact hkept file (List.mem_cons_of_mem _ hfile)
      have hcounted := hstep.counted (hkept _ List.mem_cons_self)
      have hview := (commitFiles_views h hrest hown').1 path hfresh
      rw [ih h hrest hown' hkept', hcounted, hview, List.sum_cons, Nat.add_assoc]
      congr 3
      refine List.map_congr_left fun file hfile => ?_
      rw [hsame file hfile]

/-! ## What is to be committed -/

theorem nodup_changedPaths (composite : Composite Path) (onlyPath : Option Path) :
    (composite.changedPaths onlyPath).Nodup :=
  (List.perm_insertionSort _ _).nodup_iff.2 (List.nodup_dedup _)

theorem mem_changedPaths {composite : Composite Path} {onlyPath : Option Path} :
    path ∈ composite.changedPaths onlyPath ↔
      ∃ range ∈ composite.ranges, composite.changed onlyPath range = true ∧ range.sourcePath = path := by
  rw [Composite.changedPaths, (List.perm_insertionSort _ _).mem_iff, List.mem_dedup]
  simp [and_assoc]

theorem mem_changedIndices {composite : Composite Path} {onlyPath : Option Path} {i : Nat} :
    i ∈ composite.changedIndices onlyPath path ↔ ∃ range, composite.ranges[i]? = some range ∧
      composite.changed onlyPath range = true ∧ range.sourcePath = path := by
  simp only [Composite.changedIndices, List.mem_filter, List.mem_range, Option.any_eq_true,
    Bool.and_eq_true, beq_iff_eq]
  constructor
  · rintro ⟨-, h⟩
    exact h
  · rintro ⟨range, hrange, h⟩
    exact ⟨(List.getElem?_eq_some_iff.1 hrange).1, range, hrange, h⟩

theorem length_changedIndices (composite : Composite Path) (onlyPath : Option Path) (path : Path) :
    (composite.changedIndices onlyPath path).length = composite.ranges.countP fun range =>
      composite.changed onlyPath range && range.sourcePath == path :=
  length_filter_range _ _

theorem map_fst_changedByPath (composite : Composite Path) (onlyPath : Option Path) :
    (composite.changedByPath onlyPath).map Prod.fst = composite.changedPaths onlyPath := by
  rw [Composite.changedByPath, List.map_map]
  exact List.map_id _

/-! ## The theorem -/

def Commit.skips (c : Commit Path) (path : Path) : Bool := c.result.skipped.any (·.1 == path)

/-- What a commit that started from these sources and this composite owes the files it skips. -/
structure SkipsKeep (host : Host Path) (sources : Sources Path) (composite : Composite Path)
    (onlyPath : Option Path) (c' : Commit Path) : Prop where
  file : ∀ path, c'.skips path = true → c'.sources.disk path = sources.disk path
  buffer : ∀ path, c'.skips path = true →
    SameBuffer host path (sources.disk path) (sources.buffers path) (c'.sources.buffers path)
  excerpts : ∀ path, c'.skips path = true → ∀ (i : Nat) (range : SourcedRange Path),
    composite.ranges[i]? = some range → range.sourcePath = path → c'.composite.ranges[i]? = some range
  counted : c'.result.committedExcerpts = composite.ranges.countP fun range =>
    composite.changed onlyPath range && !c'.skips range.sourcePath
  later : ∀ path, c'.skips path = true → ∀ (p₂ : Platform) (host₂ : Host Path) (sources₂ : Sources Path)
    (onlyPath₂ : Option Path) (target₂ : CommitTarget) (c₂ : Commit Path),
    commitExcerptChanges p₂ host₂ sources₂ c'.composite onlyPath₂ target₂ = some c₂ →
      c₂.skips path = false → ∀ i ∈ composite.changedIndices onlyPath₂ path,
        ∃ range range', composite.ranges[i]? = some range ∧ c₂.composite.ranges[i]? = some range' ∧
          range'.originalText = composite.currentText range

/-- A file of this commit that is to be rewritten on disk cannot be. -/
def writeFails (host : Host Path) (target : CommitTarget) (sources : Sources Path)
    (composite : Composite Path) (onlyPath : Option Path) (path : Path) : Bool :=
  losesWrite host target sources composite path (composite.changedIndices onlyPath path)

section

variable {sources : Sources Path} {composite : Composite Path} {onlyPath : Option Path}

theorem own_changedIndices (path : Path) :
    ({ composite := composite, sources := sources } : Commit Path).Own path
      (composite.changedIndices onlyPath path) := by
  intro i hi
  obtain ⟨range, hrange, -, hpath⟩ := mem_changedIndices.1 hi
  exact ⟨range, Commit.rangesOf_getElem?.2 ⟨hrange, hpath⟩⟩

/-- Each path that has something to commit comes to an outcome, and the others to nothing. -/
theorem commitExcerptChanges_views
    (h : commitExcerptChanges p host sources composite onlyPath target = some c') :
    (∀ path, path ∉ composite.changedPaths onlyPath →
      c'.view path = ({ composite := composite, sources := sources } : Commit Path).view path) ∧
    ∀ path ∈ composite.changedPaths onlyPath, Outcome host path
      (composite.changedIndices onlyPath path) (writeFails host target sources composite onlyPath path)
      (({ composite := composite, sources := sources } : Commit Path).view path) (c'.view path) := by
  have hkeys := map_fst_changedByPath composite onlyPath
  have hviews := commitFiles_views h (by rw [hkeys]; exact nodup_changedPaths composite onlyPath) <| by
    intro file hfile
    obtain ⟨path, -, rfl⟩ := List.mem_map.1 hfile
    exact own_changedIndices path
  rw [hkeys] at hviews
  exact ⟨hviews.1, fun path hpath => hviews.2 _ (List.mem_map_of_mem hpath)⟩

theorem skips_iff : c'.skips path = true ↔ (c'.view path).skipped ≠ [] := by
  simp only [Commit.skips, Commit.view, List.any_eq_true, beq_iff_eq, ne_eq, List.map_eq_nil_iff,
    List.filter_eq_nil_iff, decide_eq_true_eq]
  constructor
  · rintro ⟨entry, hentry, hpath⟩ hnone
    exact hnone entry hentry hpath
  · intro hsome
    by_contra hnone
    exact hsome fun entry hentry hpath => hnone ⟨entry, hentry, hpath⟩

theorem view_start (path : Path) :
    (({ composite := composite, sources := sources } : Commit Path).view path).skipped = [] := rfl

/-- Where no write fails, a path that is skipped has its excerpts, its file and its buffer. -/
theorem kept_of_skips (h : commitExcerptChanges p host sources composite onlyPath target = some c')
    (hwrites : ∀ path ∈ composite.changedPaths onlyPath,
      writeFails host target sources composite onlyPath path = false)
    (hskips : c'.skips path = true) :
    c'.composite.text = composite.text ∧
      c'.rangesOf path = ({ composite := composite, sources := sources } : Commit Path).rangesOf path ∧
      c'.sources.disk path = sources.disk path ∧
      SameBuffer host path (sources.disk path) (sources.buffers path) (c'.sources.buffers path) := by
  obtain ⟨hothers, houtcomes⟩ := commitExcerptChanges_views h
  rw [skips_iff] at hskips
  by_cases hpath : path ∈ composite.changedPaths onlyPath
  · have houtcome := houtcomes path hpath
    cases houtcome with
    | skipped reason _ htext hranges hfile hbuffer _ => exact ⟨htext, hranges, hfile, hbuffer⟩
    | lost reason hlost _ _ _ =>
        rw [hwrites path hpath] at hlost
        cases hlost
    | committed _ _ _ hskipped => exact absurd (hskipped.trans (view_start path)) hskips
  · rw [hothers path hpath] at hskips
    exact absurd (view_start path) hskips

/-- A changed excerpt of a file that is not skipped is committed. -/
theorem committed_of_not_skips {i : Nat} {range : SourcedRange Path}
    (h : commitExcerptChanges p host sources composite onlyPath target = some c')
    (hrange : composite.ranges[i]? = some range) (hchanged : composite.changed onlyPath range = true)
    (hwritten : c'.skips range.sourcePath = false) :
    ∃ range', c'.composite.ranges[i]? = some range' ∧
      range'.originalText = composite.currentText range := by
  have hpath := mem_changedPaths.2 ⟨range, List.mem_of_getElem? hrange, hchanged, rfl⟩
  have hnot : ∀ reason, (c'.view range.sourcePath).skipped ≠ [] ++ [reason] := by
    intro reason hskipped
    have hskips : c'.skips range.sourcePath = true := by
      rw [skips_iff, hskipped]
      exact List.cons_ne_nil _ _
    rw [hwritten] at hskips
    cases hskips
  have houtcome := (commitExcerptChanges_views h).2 _ hpath
  cases houtcome with
  | skipped reason _ _ _ _ _ hskipped => exact absurd hskipped (hnot reason)
  | lost reason _ _ _ hskipped => exact absurd hskipped (hnot reason)
  | committed _ _ hmarked _ =>
      have hi := mem_changedIndices.2 ⟨range, hrange, hchanged, rfl⟩
      obtain ⟨range', hrange', htext⟩ := hmarked i hi range
        (Commit.rangesOf_getElem?.2 ⟨hrange, rfl⟩)
      exact ⟨range', (Commit.rangesOf_getElem?.1 hrange').1, htext⟩

theorem same_of_skips {i : Nat} {range : SourcedRange Path}
    (h : commitExcerptChanges p host sources composite onlyPath target = some c')
    (hwrites : ∀ path ∈ composite.changedPaths onlyPath,
      writeFails host target sources composite onlyPath path = false)
    (hskips : c'.skips path = true) (hrange : composite.ranges[i]? = some range)
    (hpath : range.sourcePath = path) : c'.composite.ranges[i]? = some range := by
  have hfound : (({ composite := composite, sources := sources } : Commit Path).rangesOf path)[i]? =
      some (some range) := Commit.rangesOf_getElem?.2 ⟨hrange, hpath⟩
  rw [← (kept_of_skips h hwrites hskips).2.1] at hfound
  exact (Commit.rangesOf_getElem?.1 hfound).1

theorem counted_of_writes (h : commitExcerptChanges p host sources composite onlyPath target = some c')
    (hwrites : ∀ path ∈ composite.changedPaths onlyPath,
      writeFails host target sources composite onlyPath path = false) :
    c'.result.committedExcerpts = composite.ranges.countP fun range =>
      composite.changed onlyPath range && !c'.skips range.sourcePath := by
  have hkeys := map_fst_changedByPath composite onlyPath
  have hnodup := nodup_changedPaths composite onlyPath
  have hcounted := commitFiles_counted h (by rw [hkeys]; exact hnodup)
    (fun file hfile => by
      obtain ⟨path, -, rfl⟩ := List.mem_map.1 hfile
      exact own_changedIndices path)
    (fun file hfile => by
      obtain ⟨path, hpath, rfl⟩ := List.mem_map.1 hfile
      exact hwrites path hpath)
  rw [hcounted, Nat.zero_add, Composite.changedByPath, List.map_map]
  calc
    _ = ((composite.changedPaths onlyPath).map fun path =>
          if !c'.skips path then composite.ranges.countP fun range =>
            composite.changed onlyPath range && range.sourcePath == path
          else 0).sum := by
      refine congrArg List.sum (List.map_congr_left fun path _ => ?_)
      simp only [Function.comp_apply, length_changedIndices, view_start]
      have hskips := @skips_iff _ _ c' path
      by_cases hnone : (c'.view path).skipped = []
      · rw [if_pos hnone, Bool.eq_false_of_not_eq_true fun hskip => hskips.1 hskip hnone]
        rfl
      · rw [if_neg hnone, hskips.2 hnone]
        rfl
    _ = composite.ranges.countP fun range => composite.changed onlyPath range &&
          !c'.skips range.sourcePath && (composite.changedPaths onlyPath).contains range.sourcePath :=
      sum_countP_key composite.ranges (composite.changed onlyPath) SourcedRange.sourcePath hnodup
        fun path => !c'.skips path
    _ = _ := by
      refine List.countP_congr fun range hmem => ?_
      simp only [Bool.and_eq_true, List.contains_iff_mem, and_iff_left_iff_imp]
      rintro ⟨hchanged, -⟩
      exact mem_changedPaths.2 ⟨range, hmem, hchanged, rfl⟩

/-- A commit keeps what it skips just when no write fails. -/
theorem skipsKeep_iff (h : commitExcerptChanges p host sources composite onlyPath target = some c') :
    SkipsKeep host sources composite onlyPath c' ↔ ∀ path ∈ composite.changedPaths onlyPath,
      writeFails host target sources composite onlyPath path = false := by
  constructor
  · intro hkeep path hpath
    by_contra hfails
    obtain ⟨range, hmem, hchanged, hsource⟩ := mem_changedPaths.1 hpath
    obtain ⟨i, hrange⟩ := List.mem_iff_getElem?.1 hmem
    have houtcome := (commitExcerptChanges_views h).2 path hpath
    cases houtcome with
    | skipped _ hlost => exact hfails hlost
    | committed hlost => exact hfails hlost
    | lost reason _ _ hmarked hskipped =>
        have hskips : c'.skips path = true := by
          rw [skips_iff, hskipped, view_start]
          exact List.cons_ne_nil _ _
        have hi := mem_changedIndices.2 ⟨range, hrange, hchanged, hsource⟩
        obtain ⟨range', hrange', htext⟩ := hmarked i hi range
          (Commit.rangesOf_getElem?.2 ⟨hrange, hsource⟩)
        have hsame := hkeep.excerpts path hskips i range hrange hsource
        rw [(Commit.rangesOf_getElem?.1 hrange').1] at hsame
        obtain rfl := Option.some.inj hsame
        have htext : range'.originalText = composite.currentText range' := htext
        simp [Composite.changed, htext] at hchanged
  · intro hwrites
    refine ⟨fun path hskips => ?_, fun path hskips => ?_, fun path hskips i range hrange hpath => ?_,
      counted_of_writes h hwrites, ?_⟩
    · exact (kept_of_skips h hwrites hskips).2.2.1
    · exact (kept_of_skips h hwrites hskips).2.2.2
    · exact same_of_skips h hwrites hskips hrange hpath
    · intro path hskips p₂ host₂ sources₂ onlyPath₂ target₂ c₂ h₂ hwritten i hi
      obtain ⟨range, hrange, hchanged, hpath⟩ := mem_changedIndices.1 hi
      have hsame := same_of_skips h hwrites hskips hrange hpath
      have htext : c'.composite.currentText range = composite.currentText range := by
        rw [Composite.currentText, Composite.currentText, (kept_of_skips h hwrites hskips).1]
      have hchanged₂ : c'.composite.changed onlyPath₂ range = true := by
        rw [Composite.changed, htext]
        exact hchanged
      obtain ⟨range', hrange', hcommitted⟩ := committed_of_not_skips h₂ hsame hchanged₂
        (by rw [hpath]; exact hwritten)
      exact ⟨range, range', hrange, hrange', hcommitted.trans htext⟩

end

end

/-! ## A file that is written, and one that is not -/

/-- Two excerpts, of which both say `b` where their files had `a`. -/
def sampleComposite : Composite Nat where
  text := [98, 10, 98]
  ranges :=
    [{ start := 0, stop := 1, editable := true, sourcePath := 0, sourceStartByte := 0, sourceEndByte := 1,
       originalText := [97], sourceOrdered := by decide },
     { start := 2, stop := 3, editable := true, sourcePath := 1, sourceStartByte := 0, sourceEndByte := 1,
       originalText := [97], sourceOrdered := by decide }]
  separated := ⟨by decide, by decide, by decide⟩

/-- Files on a disk that can be written or not; the second one has changed. -/
def sampleHost (writes : Bool) : Host Nat where
  remoteSource _ := false
  fileSize _ := some 1
  hugeFileThreshold := 100
  openFile _ _ := .error "not opened"
  externallyModified _ _ := false
  revert _ _ buffer := some buffer
  attempt _ := { inPlace := false, opens := true, writes := writes, landed := id, renames := true }

def sampleSources : Sources Nat where
  disk path := if path = 0 then some [97] else some [99]
  buffers _ := none

def sampleCommit (writes : Bool) : Option (Commit Nat) :=
  commitExcerptChanges { graphemeBreak := fun s _ _ => (true, s), keySort := .insertion } (sampleHost writes)
    sampleSources sampleComposite none .disk

theorem sampleCommit_isSome (writes : Bool) : (sampleCommit writes).isSome = true := by
  cases writes <;> rfl

theorem skipsKeep_iff_sample : SkipsKeep (sampleHost true) sampleSources sampleComposite none
    ((sampleCommit true).get (sampleCommit_isSome true)) :=
  (skipsKeep_iff (Option.some_get (sampleCommit_isSome true)).symm).2 (by decide)

theorem not_skipsKeep : ¬∀ (p : Platform) (host : Host Nat) (target : CommitTarget)
    (sources : Sources Nat) (composite : Composite Nat) (onlyPath : Option Nat) (c' : Commit Nat),
    commitExcerptChanges p host sources composite onlyPath target = some c' →
      SkipsKeep host sources composite onlyPath c' := by
  intro h
  have hkeep := h _ _ _ _ _ _ _ (Option.some_get (sampleCommit_isSome false)).symm
  exact absurd hkeep.counted (by decide)

end Ned.Editor.Multibuffer
