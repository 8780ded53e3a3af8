import Ned.Editor.Multibuffer.Commit

/-!
# One file of a commit

What a commit does to the excerpts of one file, and that it does nothing to those of any other.
-/

namespace Ned.Editor.Multibuffer

open Library Text

variable {Path : Type}

/-! ## Marking -/

theorem markExcerptRangeCommitted_eq_set {ranges : List (SourcedRange Path)} {i : Nat}
    {range : SourcedRange Path} {newOriginalText : Bytes} {newSourceStart newLength : Nat}
    (hdistinct : ranges.Pairwise fun a b => ¬(a.start = b.start ∧ a.stop = b.stop))
    (h : ranges[i]? = some range) :
    markExcerptRangeCommitted range.start range.stop newOriginalText newSourceStart newLength ranges =
      ranges.set i (range.repointed newOriginalText newSourceStart newLength) := by
  induction ranges generalizing i with
  | nil => cases h
  | cons first ranges ih =>
      obtain ⟨hfirst, hrest⟩ := List.pairwise_cons.1 hdistinct
      rw [markExcerptRangeCommitted]
      cases i with
      | zero =>
          obtain rfl := Option.some.inj h
          rw [if_pos ⟨rfl, rfl⟩, List.set_cons_zero]
      | succ i =>
          rw [List.getElem?_cons_succ] at h
          rw [if_neg (hfirst range (List.mem_of_getElem? h)), ih hrest h, List.set_cons_succ]

namespace Composite

variable {composite : Composite Path} {i j : Nat} {range : SourcedRange Path}

theorem distinct (composite : Composite Path) :
    composite.ranges.Pairwise fun a b => ¬(a.start = b.start ∧ a.stop = b.stop) := by
  have hordered := composite.separated.ordered
  have hapart := List.pairwise_map.1 composite.separated.apart
  refine hapart.imp_of_mem fun {a b} ha _ hlt heq => ?_
  have hle := hordered a.toExcerptRange (List.mem_map_of_mem ha)
  omega

/-- The range that stands for an excerpt once its text has been committed. -/
def commit (composite : Composite Path) (range : SourcedRange Path) : SourcedRange Path :=
  range.repointed (composite.currentText range) range.sourceStartByte
    (composite.currentText range).length

@[simp] theorem commit_sourcePath (composite : Composite Path) (range : SourcedRange Path) :
    (composite.commit range).sourcePath = range.sourcePath := rfl

@[simp] theorem commit_commit (composite : Composite Path) (range : SourcedRange Path) :
    composite.commit (composite.commit range) = composite.commit range := rfl

@[simp] theorem mark_text : (composite.mark range).text = composite.text := rfl

@[simp] theorem commit_mark (range' : SourcedRange Path) :
    (composite.mark range).commit range' = composite.commit range' := rfl

theorem mark_ranges (h : composite.ranges[i]? = some range) :
    (composite.mark range).ranges = composite.ranges.set i (composite.commit range) :=
  markExcerptRangeCommitted_eq_set composite.distinct h

theorem mark_getElem? (h : composite.ranges[i]? = some range) :
    (composite.mark range).ranges[j]? =
      (composite.ranges[j]?).map fun range => if j = i then composite.commit range else range := by
  rw [mark_ranges h, List.getElem?_set]
  by_cases hij : i = j
  · subst hij
    rw [if_pos rfl, if_pos (List.getElem?_eq_some_iff.1 h).1, h]
    simp
  · rw [if_neg hij]
    simp [Ne.symm hij]

end Composite

/-! ## The loops -/

section

variable {p : Platform} {c c' : Commit Path} {indices : List Nat}

/-- These excerpts have been marked, and nothing else happened. -/
structure Marks (indices : List Nat) (c c' : Commit Path) : Prop where
  text : c'.composite.text = c.composite.text
  ranges : ∀ j, c'.composite.ranges[j]? = (c.composite.ranges[j]?).map fun range =>
    if j ∈ indices then c.composite.commit range else range
  sources : c'.sources = c.sources
  records : c'.records = c.records
  result : c'.result =
    { c.result with committedExcerpts := c.result.committedExcerpts + indices.length }

theorem Marks.nil : Marks [] c c where
  text := rfl
  ranges j := by simp
  sources := rfl
  records := rfl
  result := rfl

theorem Marks.cons {i : Nat} {range : SourcedRange Path} (hrange : c.composite.ranges[i]? = some range)
    (h : Marks indices (c.mark range) c') : Marks (i :: indices) c c' where
  text := h.text
  ranges j := by
    rw [h.ranges j]
    simp only [Commit.mark]
    rw [Composite.mark_getElem? hrange, Option.map_map]
    refine Option.map_congr fun found _ => ?_
    simp only [Function.comp_apply, Composite.commit_mark, List.mem_cons]
    by_cases hi : j = i <;> by_cases hmem : j ∈ indices <;> simp [hi, hmem]
  sources := h.sources
  records := h.records
  result := by
    rw [h.result]
    simp only [Commit.mark, List.length_cons]
    rw [Nat.add_right_comm, Nat.add_assoc]

theorem commitToText_marks {fileText fileText' : Bytes}
    (h : commitToText indices c fileText = some (c', fileText')) : Marks indices c c' := by
  induction indices generalizing c fileText with
  | nil =>
      simp only [commitToText, Option.some.injEq, Prod.mk.injEq] at h
      obtain ⟨rfl, -⟩ := h
      exact .nil
  | cons i indices ih =>
      obtain ⟨range, hrange, h⟩ := Option.bind_eq_some_iff.1 h
      obtain ⟨replaced, -, h⟩ := Option.bind_eq_some_iff.1 h
      exact .cons hrange (ih h)

theorem commitToBuffer_marks {source source' : Buffer}
    (h : commitToBuffer p indices c source = some (c', source')) : Marks indices c c' := by
  induction indices generalizing c source with
  | nil =>
      simp only [commitToBuffer, Option.some.injEq, Prod.mk.injEq] at h
      obtain ⟨rfl, -⟩ := h
      exact .nil
  | cons i indices ih =>
      obtain ⟨range, hrange, h⟩ := Option.bind_eq_some_iff.1 h
      obtain ⟨edited, -, h⟩ := Option.bind_eq_some_iff.1 h
      exact .cons hrange (ih h)

theorem mem_descending (composite : Composite Path) {i : Nat} :
    i ∈ composite.descending p indices ↔ i ∈ indices := by
  rw [Composite.descending, List.mem_reverse, KeySort.mem_sort]

theorem length_descending (composite : Composite Path) :
    (composite.descending p indices).length = indices.length := by
  rw [Composite.descending, List.length_reverse]
  exact (p.keySort.perm _ _).length_eq

theorem Marks.of_descending (h : Marks (c.composite.descending p indices) c c') : Marks indices c c' where
  text := h.text
  ranges j := by
    rw [h.ranges j]
    simp only [mem_descending]
  sources := h.sources
  records := h.records
  result := by rw [h.result, length_descending]

end

/-! ## One path -/

/-- All that a commit has to do with one path. -/
structure View (Path : Type) where
  text : Bytes
  ranges : List (Option (SourcedRange Path))
  file : Option Bytes
  buffer : Option Buffer
  skipped : List String

section

variable [LinearOrder Path] {p : Platform} {host : Host Path} {target : CommitTarget}
  {c c' : Commit Path} {path other : Path} {indices : List Nat} {i j : Nat}
  {range : SourcedRange Path} {reason : String} {file : Option Bytes} {buffer : Buffer}

namespace Commit

/-- The excerpts of one path, each at its place among all. -/
def rangesOf (c : Commit Path) (path : Path) : List (Option (SourcedRange Path)) :=
  c.composite.ranges.map fun range => if range.sourcePath = path then some range else none

def view (c : Commit Path) (path : Path) : View Path where
  text := c.composite.text
  ranges := c.rangesOf path
  file := c.sources.disk path
  buffer := c.sources.buffers path
  skipped := (c.result.skipped.filter (·.1 = path)).map (·.2)

theorem rangesOf_getElem? : (c.rangesOf path)[i]? = some (some range) ↔
    c.composite.ranges[i]? = some range ∧ range.sourcePath = path := by
  simp only [rangesOf, List.getElem?_map, Option.map_eq_some_iff]
  constructor
  · rintro ⟨found, hfound, hif⟩
    split at hif
    · rename_i hpath
      obtain rfl := Option.some.inj hif
      exact ⟨hfound, hpath⟩
    · cases hif
  · rintro ⟨hfound, hpath⟩
    exact ⟨range, hfound, if_pos hpath⟩

theorem view_of_parts (htext : c'.composite.text = c.composite.text)
    (hranges : c'.rangesOf path = c.rangesOf path)
    (hfile : c'.sources.disk path = c.sources.disk path)
    (hbuffer : c'.sources.buffers path = c.sources.buffers path)
    (hskipped : c'.result.skipped.filter (·.1 = path) = c.result.skipped.filter (·.1 = path)) :
    c'.view path = c.view path := by
  simp only [view, htext, hranges, hfile, hbuffer, hskipped]

theorem view_skip_of_ne (h : other ≠ path) : (c.skip path reason).view other = c.view other := by
  refine view_of_parts rfl rfl rfl rfl ?_
  simp only [skip, List.filter_append, List.filter_cons, Ne.symm h, decide_false, List.filter_nil,
    Bool.false_eq_true, if_false, List.append_nil]

theorem view_setFile_of_ne (h : other ≠ path) : (c.setFile path file).view other = c.view other :=
  view_of_parts rfl rfl (Function.update_of_ne h _ _) rfl rfl

theorem view_setBuffer_of_ne (h : other ≠ path) :
    (c.setBuffer path buffer).view other = c.view other :=
  view_of_parts rfl rfl rfl (Function.update_of_ne h _ _) rfl

/-- The excerpts at these places are the path's. -/
def Own (c : Commit Path) (path : Path) (indices : List Nat) : Prop :=
  ∀ i ∈ indices, ∃ range, (c.view path).ranges[i]? = some (some range)

theorem Own.of_view (h : c.Own path indices) (heq : c'.view path = c.view path) :
    c'.Own path indices := by
  rw [Own, heq]
  exact h

end Commit

theorem Marks.rangesOf (h : Marks indices c c') : (c'.rangesOf path)[j]? =
    ((c.rangesOf path)[j]?).map (Option.map fun range =>
      if j ∈ indices then c.composite.commit range else range) := by
  simp only [Commit.rangesOf, List.getElem?_map, h.ranges j, Option.map_map]
  refine Option.map_congr fun range _ => ?_
  simp only [Function.comp_apply]
  by_cases hmem : j ∈ indices <;> by_cases hpath : range.sourcePath = path <;> simp [hmem, hpath]

theorem Marks.view_of_ne (h : Marks indices c c') (hown : c.Own path indices) (hne : other ≠ path) :
    c'.view other = c.view other := by
  refine Commit.view_of_parts h.text ?_ (by rw [h.sources]) (by rw [h.sources]) (by rw [h.result])
  refine List.ext_getElem? fun j => ?_
  rw [h.rangesOf]
  by_cases hmem : j ∈ indices
  · obtain ⟨range, hrange⟩ := hown j hmem
    obtain ⟨hfound, hpath⟩ := Commit.rangesOf_getElem?.1 hrange
    have hother : (c.rangesOf other)[j]? = some none := by
      simp [Commit.rangesOf, hfound, hpath, Ne.symm hne]
    rw [hother]
    rfl
  · simp [hmem]

/-! ## One file -/

def WriteAttempt.succeeds (attempt : WriteAttempt) : Bool :=
  attempt.opens && attempt.writes && (attempt.inPlace || attempt.renames)

theorem writeFileAtomically_fst (attempt : WriteAttempt) (file : Option Bytes) (content : Bytes) :
    (writeFileAtomically attempt file content).1 = attempt.succeeds := by
  unfold writeFileAtomically WriteAttempt.succeeds
  cases attempt.inPlace <;> cases attempt.opens <;> cases attempt.writes <;>
    cases attempt.renames <;> rfl

/-- A file is to be rewritten on disk, and that fails. -/
def losesWrite (host : Host Path) (target : CommitTarget) (sources : Sources Path)
    (composite : Composite Path) (path : Path) (indices : List Nat) : Bool :=
  writesDisk host target sources path &&
    (sources.disk path).any (fun fileText => !composite.conflicted fileText indices) &&
    !(host.attempt path).succeeds

inductive FileStep (host : Host Path) (target : CommitTarget) (c : Commit Path) (path : Path)
    (indices : List Nat) : Commit Path → Prop
  | skipped (reason : String)
      (hlost : losesWrite host target c.sources c.composite path indices = false) :
      FileStep host target c path indices (c.skip path reason)
  | opened (reason : String) (source : Buffer) (hclosed : c.sources.buffers path = none)
      (hopened : host.openFile path (c.sources.disk path) = .ok source)
      (hlost : losesWrite host target c.sources c.composite path indices = false) :
      FileStep host target c path indices ((c.setBuffer path source).skip path reason)
  | lost (marked : Commit Path) (file : Option Bytes) (reason : String)
      (hmarks : Marks indices c marked)
      (hlost : losesWrite host target c.sources c.composite path indices = true) :
      FileStep host target c path indices ((marked.setFile path file).skip path reason)
  | committed (marked c' : Commit Path) (hmarks : Marks indices c marked)
      (hcomposite : c'.composite = marked.composite)
      (hcounted : c'.result.committedExcerpts = marked.result.committedExcerpts)
      (hskipped : c'.result.skipped = marked.result.skipped)
      (hdisk : ∀ other, other ≠ path → c'.sources.disk other = c.sources.disk other)
      (hbuffers : ∀ other, other ≠ path → c'.sources.buffers other = c.sources.buffers other)
      (hlost : losesWrite host target c.sources c.composite path indices = false) :
      FileStep host target c path indices c'

theorem commitToDisk_step (hwrites : writesDisk host target c.sources path = true)
    (h : commitToDisk p host c path indices = some c') : FileStep host target c path indices c' := by
  unfold commitToDisk at h
  split at h
  · rename_i hnone
    obtain rfl := Option.some.inj h
    exact .skipped _ (by simp [losesWrite, hnone])
  · rename_i fileText hfile
    split at h
    · rename_i hconflict
      obtain rfl := Option.some.inj h
      exact .skipped _ (by simp [losesWrite, hfile, hconflict])
    · rename_i hclear
      obtain ⟨⟨marked, newText⟩, hloop, h⟩ := Option.bind_eq_some_iff.1 h
      have hmarks := (commitToText_marks hloop).of_descending
      have hlost : losesWrite host target c.sources c.composite path indices =
          !(host.attempt path).succeeds := by
        simp [losesWrite, hwrites, hfile, hclear]
      simp only [writeFileAtomically_fst] at h
      split at h
      · rename_i hfails
        obtain rfl := Option.some.inj h
        exact .lost marked _ _ hmarks (hlost.trans hfails)
      · rename_i hwritten
        have hlost := hlost.trans (Bool.eq_false_of_not_eq_true hwritten)
        split at h
        · obtain rfl := Option.some.inj h
          refine .committed marked _ hmarks rfl rfl rfl (fun other hne => ?_) (fun other _ => ?_) hlost
          · exact (Function.update_of_ne hne _ _).trans (by rw [hmarks.sources])
          · exact congrArg (fun sources => sources.buffers other) hmarks.sources
        · rename_i openBuffer hopen
          obtain ⟨reverted, -, h⟩ := Option.bind_eq_some_iff.1 h
          obtain rfl := Option.some.inj h
          refine .committed marked _ hmarks rfl rfl rfl (fun other hne => ?_) (fun other hne => ?_) hlost
          · exact (Function.update_of_ne hne _ _).trans (by rw [hmarks.sources])
          · exact (Function.update_of_ne hne _ _).trans
              (congrArg (fun sources => sources.buffers other) hmarks.sources)

theorem losesWrite_of_not_writesDisk (h : writesDisk host target c.sources path = false) :
    losesWrite host target c.sources c.composite path indices = false := by
  simp [losesWrite, h]

theorem commitToSource_cases {source : Buffer} (h : commitToSource p host c path indices source = some c') :
    (∃ reason, c' = c.skip path reason) ∨
      ∃ marked, Marks indices c marked ∧ c'.composite = marked.composite ∧
        c'.result.committedExcerpts = marked.result.committedExcerpts ∧
        c'.result.skipped = marked.result.skipped ∧ c'.sources.disk = c.sources.disk ∧
        ∀ other, other ≠ path → c'.sources.buffers other = c.sources.buffers other := by
  unfold commitToSource at h
  split at h
  · exact .inl ⟨_, (Option.some.inj h).symm⟩
  · split at h
    · exact .inl ⟨_, (Option.some.inj h).symm⟩
    · obtain ⟨before, -, h⟩ := Option.bind_eq_some_iff.1 h
      obtain ⟨⟨marked, edited⟩, hloop, h⟩ := Option.bind_eq_some_iff.1 h
      obtain ⟨grouped, -, h⟩ := Option.bind_eq_some_iff.1 h
      obtain ⟨after, -, h⟩ := Option.bind_eq_some_iff.1 h
      have hmarks := (commitToBuffer_marks hloop).of_descending
      obtain rfl := Option.some.inj h
      refine .inr ⟨marked, hmarks, rfl, rfl, rfl, ?_, fun other hne => ?_⟩
      · show marked.sources.disk = c.sources.disk
        rw [hmarks.sources]
      · exact (Function.update_of_ne hne _ _).trans
          (congrArg (fun sources => sources.buffers other) hmarks.sources)

theorem commitFile_step (h : commitFile p host target c path indices = some c') :
    FileStep host target c path indices c' := by
  unfold commitFile at h
  split at h
  · rename_i hwrites
    exact commitToDisk_step hwrites h
  · rename_i hkeeps
    have hlost : losesWrite host target c.sources c.composite path indices = false :=
      losesWrite_of_not_writesDisk (Bool.eq_false_of_not_eq_true hkeeps)
    split at h
    · rename_i source hopen
      rcases commitToSource_cases h with
        ⟨reason, rfl⟩ | ⟨marked, hmarks, hcomposite, hcounted, hskipped, hdisk, hbuffers⟩
      · exact .skipped reason hlost
      · exact .committed marked c' hmarks hcomposite hcounted hskipped
          (fun other _ => congrFun hdisk other) hbuffers hlost
    · rename_i hclosed
      split at h
      · obtain rfl := Option.some.inj h
        exact .skipped _ hlost
      · split at h
        · obtain rfl := Option.some.inj h
          exact .skipped _ hlost
        · rename_i source hopened
          rcases commitToSource_cases h with
            ⟨reason, rfl⟩ | ⟨marked, hmarks, hcomposite, hcounted, hskipped, hdisk, hbuffers⟩
          · exact .opened reason source hclosed hopened hlost
          · have hmarks' : Marks indices c { marked with sources := c.sources } :=
              ⟨hmarks.text, hmarks.ranges, rfl, hmarks.records, hmarks.result⟩
            refine .committed _ c' hmarks' hcomposite hcounted hskipped
              (fun other _ => congrFun hdisk other) (fun other hne => ?_) hlost
            exact (hbuffers other hne).trans (Function.update_of_ne hne _ _)

theorem FileStep.view_of_ne (h : FileStep host target c path indices c') (hown : c.Own path indices)
    (hne : other ≠ path) : c'.view other = c.view other := by
  cases h with
  | skipped reason _ => exact Commit.view_skip_of_ne hne
  | opened reason source _ _ _ =>
      exact (Commit.view_skip_of_ne hne).trans (Commit.view_setBuffer_of_ne hne)
  | lost marked file reason hmarks _ =>
      exact (Commit.view_skip_of_ne hne).trans
        ((Commit.view_setFile_of_ne hne).trans (hmarks.view_of_ne hown hne))
  | committed marked c' hmarks hcomposite _ hskipped hdisk hbuffers _ =>
      refine Eq.trans ?_ (hmarks.view_of_ne hown hne)
      refine Commit.view_of_parts (by rw [hcomposite]) ?_ ?_ ?_ (by rw [hskipped])
      · simp only [Commit.rangesOf, hcomposite]
      · rw [hdisk other hne, hmarks.sources]
      · rw [hbuffers other hne, hmarks.sources]

/-! ## What one file's turn does to it -/

def SameBuffer (host : Host Path) (path : Path) (file : Option Bytes) (before after : Option Buffer) :
    Prop :=
  after = before ∨ before = none ∧ ∃ source, host.openFile path file = .ok source ∧ after = some source

def Marked (indices : List Nat) (v v' : View Path) : Prop :=
  ∀ j ∈ indices, ∀ range, v.ranges[j]? = some (some range) →
    ∃ range', v'.ranges[j]? = some (some range') ∧
      range'.originalText = substr v.text range.start (range.stop - range.start)

/-- The path's view after its turn, which a write that failed has `lost`. -/
inductive Outcome (host : Host Path) (path : Path) (indices : List Nat) (lost : Bool)
    (v v' : View Path) : Prop
  | skipped (reason : String) (hlost : lost = false) (htext : v'.text = v.text)
      (hranges : v'.ranges = v.ranges)
      (hfile : v'.file = v.file) (hbuffer : SameBuffer host path v.file v.buffer v'.buffer)
      (hskipped : v'.skipped = v.skipped ++ [reason])
  | lost (reason : String) (hlost : lost = true) (htext : v'.text = v.text) (hmarked : Marked indices v v')
      (hskipped : v'.skipped = v.skipped ++ [reason])
  | committed (hlost : lost = false) (htext : v'.text = v.text) (hmarked : Marked indices v v')
      (hskipped : v'.skipped = v.skipped)

theorem Marks.marked (h : Marks indices c c') : Marked indices (c.view path) (c'.view path) := by
  intro j hj range hrange
  have hrange : (c.rangesOf path)[j]? = some (some range) := hrange
  have hmarked : (c'.rangesOf path)[j]? = some (some (c.composite.commit range)) := by
    rw [h.rangesOf, hrange, Option.map_some, Option.map_some, if_pos hj]
  exact ⟨c.composite.commit range, hmarked, rfl⟩

theorem FileStep.outcome (h : FileStep host target c path indices c') :
    Outcome host path indices (losesWrite host target c.sources c.composite path indices)
      (c.view path) (c'.view path) := by
  cases h with
  | skipped reason hlost =>
      refine .skipped reason hlost rfl rfl rfl (.inl rfl) ?_
      simp [Commit.view, Commit.skip, List.filter_append]
  | opened reason source hclosed hopened hlost =>
      refine .skipped reason hlost rfl rfl rfl (.inr ⟨hclosed, source, hopened, ?_⟩) ?_
      · exact Function.update_self _ _ _
      · simp [Commit.view, Commit.skip, Commit.setBuffer, List.filter_append]
  | lost marked file reason hmarks hlost =>
      refine .lost reason hlost hmarks.text hmarks.marked ?_
      simp [Commit.view, Commit.skip, Commit.setFile, List.filter_append, hmarks.result]
  | committed marked c' hmarks hcomposite _ hskipped _ _ hlost =>
      refine .committed hlost ?_ ?_ ?_
      · simp only [Commit.view, hcomposite, hmarks.text]
      · have hmarked : Marked indices (c.view path) (marked.view path) := hmarks.marked
        simpa only [Marked, Commit.view, Commit.rangesOf, hcomposite] using hmarked
      · simp [Commit.view, hskipped, hmarks.result]

end

end Ned.Editor.Multibuffer
