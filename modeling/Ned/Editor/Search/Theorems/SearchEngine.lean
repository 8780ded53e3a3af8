import Mathlib.Data.List.Basic
import Ned.Editor.Search.SearchEngine

/-!
# Live content is searched as its saved file would be

What the walk would report with a file put into the tree, what the rules for a path that the walk never visited
leave out, and exactly when the two agree.
-/

namespace Ned.Editor.Search

open Text

/-! ## Putting a file into a tree -/

/-- A file in new directories. -/
def freshEntry (name : Bytes) (rest : Listing) : Path → Listing
  | [] => .file name true false rest
  | next :: relative => .directory name false (freshEntry next .nil relative) rest

/-- The tree with a regular text file at a path, which no directory may have and no file be on the way to. -/
def put (name : Bytes) (relative : Path) : Listing → Option Listing
  | .nil => some (freshEntry name .nil relative)
  | .file other regular binary rest =>
      if other = name then
        match relative with
        | [] => some (.file name true false rest)
        | _ :: _ => none
      else (put name relative rest).map (.file other regular binary)
  | .directory other symlink entries rest =>
      if other = name then
        match relative with
        | [] => none
        | next :: relative => (put next relative entries).map fun entries => .directory other symlink entries rest
      else (put name relative rest).map (.directory other symlink entries)

theorem put_file (name other : Bytes) (relative : Path) (regular binary : Bool) (rest : Listing) :
    put name relative (.file other regular binary rest) =
      if other = name then if relative = [] then some (.file name true false rest) else none
      else (put name relative rest).map (.file other regular binary) := by
  cases relative with
  | _ => rfl

theorem put_directory_self (name : Bytes) (symlink : Bool) (entries rest : Listing) (relative : Path) :
    put name relative (.directory name symlink entries rest) =
      match relative with
      | [] => none
      | next :: relative =>
          (put next relative entries).map fun entries => .directory name symlink entries rest := by
  cases relative with
  | nil => exact if_pos rfl
  | cons next relative => exact if_pos rfl

theorem put_directory_other {name other : Bytes} (hother : other ≠ name) (symlink : Bool) (entries rest : Listing)
    (relative : Path) : put name relative (.directory other symlink entries rest) =
      (put name relative rest).map (.directory other symlink entries) := by
  cases relative with
  | _ => exact if_neg hother

section

variable (isIgnored : Path → Bool → Bool)

/-- The walk would report a file at a path if it existed. -/
def WouldReport (tree : DirectoryTree) : Path → Prop
  | [] => False
  | name :: relative => Normal (name :: relative) ∧
      ∃ listing, put name relative tree.listing = some listing ∧
        name :: relative ∈ walkSearchableFiles isIgnored [] listing

/-- The rules leave a file in: no directory on the way to it, after `pre`, starts with a dot or is ignored, and
neither is the file. -/
def Allowed (pre : Path) : Path → Prop
  | [] => False
  | [name] => isIgnored (pre ++ [name]) false = false
  | name :: next :: relative => startsWithDot name = false ∧ isIgnored (pre ++ [name]) true = false ∧
      Allowed (pre ++ [name]) (next :: relative)

end

/-- Nothing in the tree is in the way: no file and no symlink among the directories of the path, and no directory
in the place of its file. -/
def Open (name : Bytes) (relative : Path) : Listing → Prop
  | .nil => True
  | .file other _ _ rest => if other = name then relative = [] else Open name relative rest
  | .directory other symlink entries rest =>
      if other = name then
        match relative with
        | [] => False
        | next :: relative => symlink = false ∧ Open next relative entries
      else Open name relative rest

/-- `Open`, for a path of names. -/
def OpenAt (tree : DirectoryTree) : Path → Prop
  | [] => False
  | name :: relative => Normal (name :: relative) ∧ Open name relative tree.listing

theorem open_directory_nil (name : Bytes) (symlink : Bool) (entries rest : Listing) :
    Open name [] (.directory name symlink entries rest) ↔ False := iff_of_eq (if_pos rfl)

theorem open_directory_self (name next : Bytes) (relative : Path) (symlink : Bool) (entries rest : Listing) :
    Open name (next :: relative) (.directory name symlink entries rest) ↔
      symlink = false ∧ Open next relative entries := iff_of_eq (if_pos rfl)

theorem open_directory_other {name other : Bytes} (hother : other ≠ name) (relative : Path) (symlink : Bool)
    (entries rest : Listing) :
    Open name relative (.directory other symlink entries rest) ↔ Open name relative rest := by
  cases relative with
  | _ => exact iff_of_eq (if_neg hother)

/-! ## The walk -/

section

variable {isIgnored : Path → Bool → Bool} {pre relative path : Path} {name other : Bytes}
  {listing listing' : Listing}

theorem exists_name_of_mem (h : path ∈ walkSearchableFiles isIgnored pre listing) :
    ∃ name relative, path = pre ++ name :: relative ∧ name ∈ listing.names := by
  induction listing generalizing pre with
  | nil => cases h
  | file name regular binary rest ih =>
      rw [walkSearchableFiles] at h
      rcases List.mem_append.1 h with h | h
      · split at h
        · cases h
        · rw [List.mem_singleton.1 h]
          exact ⟨name, [], rfl, List.mem_cons_self⟩
      · obtain ⟨name', relative, rfl, hname⟩ := ih h
        exact ⟨name', relative, rfl, List.mem_cons_of_mem _ hname⟩
  | directory name symlink entries rest ihentries ihrest =>
      rw [walkSearchableFiles] at h
      rcases List.mem_append.1 h with h | h
      · split at h
        · obtain ⟨name', relative, rfl, -⟩ := ihentries h
          exact ⟨name, name' :: relative, by simp, List.mem_cons_self⟩
        · cases h
      · obtain ⟨name', relative, rfl, hname⟩ := ihrest h
        exact ⟨name', relative, rfl, List.mem_cons_of_mem _ hname⟩

theorem not_mem_walk (hname : name ∉ listing.names) :
    pre ++ name :: relative ∉ walkSearchableFiles isIgnored pre listing := by
  intro h
  obtain ⟨name', relative', heq, hname'⟩ := exists_name_of_mem h
  have heq := List.append_cancel_left heq
  rw [List.cons.injEq] at heq
  rw [heq.1] at hname
  exact hname hname'

theorem mem_walk_directory {symlink : Bool} {entries rest : Listing} (hrest : name ∉ rest.names) :
    pre ++ name :: relative ∈ walkSearchableFiles isIgnored pre (.directory name symlink entries rest) ↔
      symlink = false ∧ startsWithDot name = false ∧ isIgnored (pre ++ [name]) true = false ∧
        pre ++ [name] ++ relative ∈ walkSearchableFiles isIgnored (pre ++ [name]) entries := by
  have hpath : pre ++ name :: relative = pre ++ [name] ++ relative := by simp
  rw [walkSearchableFiles, List.mem_append, or_iff_left (not_mem_walk hrest), hpath]
  cases symlink with
  | true => simp
  | false =>
      cases hdot : startsWithDot name with
      | true => simp [isDotDirectory, hdot]
      | false =>
          cases hignored : isIgnored (pre ++ [name]) true with
          | true => simp [isDotDirectory, hdot]
          | false => simp [isDotDirectory, hdot]

theorem mem_walk_file {rest : Listing} (hrest : name ∉ rest.names) :
    pre ++ [name] ∈ walkSearchableFiles isIgnored pre (.file name true false rest) ↔
      isIgnored (pre ++ [name]) false = false := by
  rw [walkSearchableFiles, List.mem_append, or_iff_left (not_mem_walk hrest)]
  cases isIgnored (pre ++ [name]) false with
  | true => simp
  | false => simp

theorem mem_walk_skip_file {regular binary : Bool} {rest : Listing} (hother : other ≠ name) :
    pre ++ name :: relative ∈ walkSearchableFiles isIgnored pre (.file other regular binary rest) ↔
      pre ++ name :: relative ∈ walkSearchableFiles isIgnored pre rest := by
  rw [walkSearchableFiles, List.mem_append, or_iff_right]
  intro h
  split at h
  · cases h
  · have heq := List.append_cancel_left (List.mem_singleton.1 h)
    cases heq
    exact hother rfl

theorem mem_walk_skip_directory {symlink : Bool} {entries rest : Listing} (hother : other ≠ name) :
    pre ++ name :: relative ∈ walkSearchableFiles isIgnored pre (.directory other symlink entries rest) ↔
      pre ++ name :: relative ∈ walkSearchableFiles isIgnored pre rest := by
  rw [walkSearchableFiles, List.mem_append, or_iff_right]
  intro h
  split at h
  · obtain ⟨name', relative', heq, -⟩ := exists_name_of_mem h
    rw [List.append_assoc] at heq
    have heq := List.append_cancel_left heq
    cases heq
    exact hother rfl
  · cases h

theorem mem_walk_fresh {rest : Listing} (hrest : name ∉ rest.names) :
    pre ++ name :: relative ∈ walkSearchableFiles isIgnored pre (freshEntry name rest relative) ↔
      Allowed isIgnored pre (name :: relative) := by
  induction relative generalizing pre name rest with
  | nil => exact mem_walk_file hrest
  | cons next relative ih =>
      rw [freshEntry, mem_walk_directory hrest, ih List.not_mem_nil]
      simp [Allowed]

variable (pre) in
/-- With a file put into the tree the walk reports it by the rules, unless a symlink is on the way. -/
theorem mem_walk_put (hdistinct : listing.Distinct) (h : put name relative listing = some listing') :
    pre ++ name :: relative ∈ walkSearchableFiles isIgnored pre listing' ↔
      Allowed isIgnored pre (name :: relative) ∧ Open name relative listing := by
  induction listing generalizing pre name relative listing' with
  | nil =>
      cases h
      rw [mem_walk_fresh List.not_mem_nil, Open, and_true]
  | file other regular binary rest ih =>
      obtain ⟨hnot, hrest⟩ := hdistinct
      rw [put_file] at h
      rw [Open]
      split at h
      next heq =>
        subst heq
        split at h
        next hlast =>
          subst hlast
          cases h
          rw [mem_walk_file hnot, if_pos rfl]
          simp [Allowed]
        next => cases h
      next hother =>
        obtain ⟨rest', hput, rfl⟩ := Option.map_eq_some_iff.1 h
        rw [mem_walk_skip_file hother, if_neg hother]
        exact ih pre hrest hput
  | directory other symlink entries rest ihentries ihrest =>
      obtain ⟨hnot, hentries, hrest⟩ := hdistinct
      by_cases hother : other = name
      · subst hother
        rw [put_directory_self] at h
        cases relative with
        | nil => cases h
        | cons next relative =>
            obtain ⟨entries', hput, rfl⟩ := Option.map_eq_some_iff.1 h
            rw [mem_walk_directory hnot, ihentries (pre ++ [other]) hentries hput, open_directory_self, Allowed]
            constructor
            · rintro ⟨hreal, hdot, hignored, hallowed, hopen⟩
              exact ⟨⟨hdot, hignored, hallowed⟩, hreal, hopen⟩
            · rintro ⟨⟨hdot, hignored, hallowed⟩, hreal, hopen⟩
              exact ⟨hreal, hdot, hignored, hallowed, hopen⟩
      · rw [put_directory_other hother] at h
        obtain ⟨rest', hput, rfl⟩ := Option.map_eq_some_iff.1 h
        rw [mem_walk_skip_directory hother, open_directory_other hother]
        exact ihrest pre hrest hput

theorem exists_put (h : Open name relative listing) : ∃ listing', put name relative listing = some listing' := by
  induction listing generalizing name relative with
  | nil => exact ⟨_, rfl⟩
  | file other regular binary rest ih =>
      rw [Open] at h
      rw [put_file]
      split at h
      next heq =>
        rw [if_pos heq, if_pos h]
        exact ⟨_, rfl⟩
      next hother =>
        rw [if_neg hother]
        obtain ⟨rest', hput⟩ := ih h
        exact ⟨_, congrArg _ hput⟩
  | directory other symlink entries rest ihentries ihrest =>
      by_cases hother : other = name
      · subst hother
        rw [put_directory_self]
        cases relative with
        | nil =>
            rw [open_directory_nil] at h
            cases h
        | cons next relative =>
            rw [open_directory_self] at h
            obtain ⟨entries', hput⟩ := ihentries h.2
            dsimp only
            rw [hput]
            exact ⟨_, rfl⟩
      · rw [open_directory_other hother] at h
        rw [put_directory_other hother]
        obtain ⟨rest', hput⟩ := ihrest h
        exact ⟨_, congrArg _ hput⟩

theorem wouldReport_iff {tree : DirectoryTree} :
    WouldReport isIgnored tree path ↔ Allowed isIgnored [] path ∧ OpenAt tree path := by
  cases path with
  | nil => exact iff_of_false id fun h => h.1
  | cons name relative =>
      rw [WouldReport, OpenAt]
      constructor
      · rintro ⟨hnormal, listing, hput, hmem⟩
        obtain ⟨hallowed, hopen⟩ := (mem_walk_put [] tree.distinct hput).1 hmem
        exact ⟨hallowed, hnormal, hopen⟩
      · rintro ⟨hallowed, hnormal, hopen⟩
        obtain ⟨listing, hput⟩ := exists_put hopen
        exact ⟨hnormal, listing, hput, (mem_walk_put [] tree.distinct hput).2 ⟨hallowed, hopen⟩⟩

/-! ## Paths that the walk never visited -/

variable (pre) in
theorem hiddenOrIgnoredFrom_iff {parts : Path} (hparts : parts ≠ []) (hnames : Normal parts) :
    hiddenOrIgnoredFrom isIgnored (pre ++ parts) pre parts = false ↔
      Allowed isIgnored pre parts ∧ ∀ name ∈ parts.getLast?, startsWithDot name = false := by
  induction parts generalizing pre with
  | nil => exact absurd rfl hparts
  | cons part parts ih =>
      have hname : part.isEmpty = false := by
        rw [← Bool.not_eq_true, List.isEmpty_iff]
        exact (hnames part List.mem_cons_self).1
      rw [hiddenOrIgnoredFrom, hname, if_neg Bool.false_ne_true]
      cases parts with
      | nil =>
          have hlast : (pre ++ [part] != pre ++ [part]) = false := bne_self_eq_false _
          rw [hlast]
          cases hdot : startsWithDot part with
          | true => simp [hdot]
          | false =>
              cases hignored : isIgnored (pre ++ [part]) false with
              | true => simp [Allowed, hignored]
              | false => simp [Allowed, hignored, hdot, hiddenOrIgnoredFrom]
      | cons next parts =>
          have hmore : (pre ++ [part] != pre ++ part :: next :: parts) = true := by simp
          have hpath : pre ++ part :: next :: parts = pre ++ [part] ++ next :: parts := by simp
          have htail : Normal (next :: parts) := fun name hmem => hnames name (List.mem_cons_of_mem _ hmem)
          have ih := ih (pre ++ [part]) (List.cons_ne_nil _ _) htail
          rw [hmore, hpath, List.getLast?_cons_cons]
          cases hdot : startsWithDot part with
          | true => simp [Allowed, hdot]
          | false =>
              cases hignored : isIgnored (pre ++ [part]) true with
              | true => simp [Allowed, hignored]
              | false => simpa [Allowed, hdot, hignored] using ih

theorem isHiddenOrIgnored_iff (hrelative : relative ≠ []) (hnames : Normal relative) :
    isHiddenOrIgnored isIgnored relative = false ↔
      Allowed isIgnored [] relative ∧ ∀ name ∈ relative.getLast?, startsWithDot name = false :=
  hiddenOrIgnoredFrom_iff [] hrelative hnames

theorem isHiddenOrIgnored_dot : isHiddenOrIgnored isIgnored [dot] = true := rfl

end

/-! ## Relative paths -/

theorem lexicallyRelative_append (root path : Path) :
    lexicallyRelative (root ++ path) root = if path = [] then [dot] else path := by
  induction root with
  | nil =>
      cases path with
      | nil => rfl
      | cons part path => rfl
  | cons name root ih => rw [List.cons_append, lexicallyRelative, if_pos rfl, ih]

/-- A normal path is under what it starts with. -/
theorem exists_append_of_isUnderRoot {path root : Path} (h : isUnderRoot path root = true) :
    ∃ rest, path = root ++ rest := by
  induction root generalizing path with
  | nil => exact ⟨path, rfl⟩
  | cons name root ih =>
      cases path with
      | nil =>
          rw [isUnderRoot, lexicallyRelative, List.replicate_succ] at h
          simp at h
      | cons part path =>
          by_cases heq : part = name
          · have hrest : lexicallyRelative (part :: path) (name :: root) = lexicallyRelative path root := if_pos heq
            rw [isUnderRoot, hrest] at h
            obtain ⟨rest, rfl⟩ := ih h
            exact ⟨rest, by rw [heq, List.cons_append]⟩
          · have hup : lexicallyRelative (part :: path) (name :: root) =
                dotDot :: (List.replicate root.length dotDot ++ part :: path) := if_neg heq
            rw [isUnderRoot, hup] at h
            simp at h

/-- The root itself is a dot, and everything else under it is normal. -/
theorem relative_spec {searchRoot : SearchRoot} {content : LiveContent} {relative : Path}
    (h : searchRoot.relative content = some relative) : relative = [dot] ∨ relative ≠ [] ∧ Normal relative := by
  have hunder {path root : Path} (hnormal : Normal path) (hunder : isUnderRoot path root = true) :
      lexicallyRelative path root = [dot] ∨
        lexicallyRelative path root ≠ [] ∧ Normal (lexicallyRelative path root) := by
    obtain ⟨rest, rfl⟩ := exists_append_of_isUnderRoot hunder
    rw [lexicallyRelative_append]
    split
    next => exact .inl rfl
    next hrest => exact .inr ⟨hrest, fun name hname => hnormal name (List.mem_append_right _ hname)⟩
  rw [SearchRoot.relative] at h
  split at h
  next hplain =>
    cases h
    exact hunder content.path_normal hplain
  next =>
    split at h
    next canonical hcanonical =>
      split at h
      next hin =>
        cases h
        exact hunder (content.canonical_normal canonical hcanonical) hin
      next => cases h
    next => cases h

/-! ## Searches -/

variable {κ : Type} (isIgnored : Path → Bool → Bool) (charsets : Path → Option κ) (sort : PathSort)
  (absoluteRoot : Path) (searchRoot : SearchRoot) (tree : DirectoryTree) (live : List LiveContent)

/-- How often an entry is searched. -/
def searches (pushes : List (Push κ)) (entry : Nat) : Nat := pushes.countP fun push => push.live == some entry

/-- The files that the walk reports under a spelling of an entry. -/
def spelled (entry : Nat) : List Path :=
  (walkedFiles isIgnored tree).filter fun walked => lookupLive sort searchRoot live walked == some entry

/-- The entries under the root, counted from an index. -/
def inRootFrom (k : Nat) (live : List LiveContent) : List InRoot :=
  (live.zipIdx k).filterMap fun (content, entry) =>
    (searchRoot.relative content).map fun relative =>
      { entry := entry, content := content, relative := relative,
        reported := joinNormal searchRoot.normalized relative }

variable {isIgnored charsets sort absoluteRoot searchRoot tree live}

theorem entry_of_mem_inRootFrom {k : Nat} {item : InRoot} (h : item ∈ inRootFrom searchRoot k live) :
    k ≤ item.entry := by
  obtain ⟨⟨content, entry⟩, hmem, hitem⟩ := List.mem_filterMap.1 h
  obtain ⟨relative, -, rfl⟩ := Option.map_eq_some_iff.1 hitem
  exact (List.mem_zipIdx hmem).1

theorem countP_inRootFrom {k i : Nat} {content : LiveContent} {relative : Path} (hlive : live[i]? = some content)
    (hrelative : searchRoot.relative content = some relative) (keep : InRoot → Bool) :
    (inRootFrom searchRoot k live).countP (fun item => keep item && item.entry == k + i) =
      if keep { entry := k + i, content := content, relative := relative,
                reported := joinNormal searchRoot.normalized relative } then 1 else 0 := by
  induction live generalizing k i with
  | nil => cases hlive
  | cons head live ih =>
      have hcons : inRootFrom searchRoot k (head :: live) =
          ((searchRoot.relative head).map fun relative =>
            ({ entry := k, content := head, relative := relative,
               reported := joinNormal searchRoot.normalized relative } : InRoot)).toList ++
            inRootFrom searchRoot (k + 1) live := by
        rw [inRootFrom, List.zipIdx_cons, List.filterMap_cons]
        dsimp only
        cases searchRoot.relative head with
        | _ => rfl
      rw [hcons, List.countP_append]
      cases i with
      | zero =>
          cases hlive
          have hrest : (inRootFrom searchRoot (k + 1) live).countP
              (fun item => keep item && item.entry == k + 0) = 0 := by
            rw [List.countP_eq_zero]
            intro item hitem hkeep
            have hle := entry_of_mem_inRootFrom hitem
            rw [Bool.and_eq_true, beq_iff_eq] at hkeep
            omega
          rw [hrest, hrelative]
          simp [List.countP_cons]
      | succ i =>
          have hhead : (((searchRoot.relative head).map fun relative =>
              ({ entry := k, content := head, relative := relative,
                 reported := joinNormal searchRoot.normalized relative } : InRoot)).toList).countP
              (fun item => keep item && item.entry == k + (i + 1)) = 0 := by
            cases searchRoot.relative head with
            | _ => simp
          have hnext : k + (i + 1) = k + 1 + i := by omega
          rw [hhead, Nat.zero_add, hnext]
          exact ih hlive

theorem matched_iff {entry : Nat} :
    ((walkedFiles isIgnored tree).filterMap (lookupLive sort searchRoot live)).contains entry = true ↔
      spelled isIgnored sort searchRoot tree live entry ≠ [] := by
  rw [List.contains_iff_mem, List.mem_filterMap, ne_eq, spelled, List.filter_eq_nil_iff]
  simp

/-- The walk searches an entry for each file under its spellings, and what it never saw is searched unless it is
hidden or ignored. -/
theorem searches_eq {entry : Nat} {content : LiveContent} {relative : Path} (hlive : live[entry]? = some content)
    (hrelative : searchRoot.relative content = some relative) :
    searches (streamSearchDirectory isIgnored charsets sort absoluteRoot searchRoot tree live) entry =
      (spelled isIgnored sort searchRoot tree live entry).length +
        if spelled isIgnored sort searchRoot tree live entry = [] ∧ isHiddenOrIgnored isIgnored relative = false
        then 1 else 0 := by
  rw [searches, streamSearchDirectory]
  dsimp only
  rw [List.countP_append, List.countP_map, List.countP_map, List.countP_filter]
  have hwalked : (walkedFiles isIgnored tree).countP
      ((fun push : Push κ => push.live == some entry) ∘ fun relative =>
        { path := absoluteRoot ++ relative,
          stated := if (lookupLive sort searchRoot live relative).isSome then none
            else charsets (absoluteRoot ++ relative),
          live := lookupLive sort searchRoot live relative }) =
      (spelled isIgnored sort searchRoot tree live entry).length := List.countP_eq_length_filter
  have hrest := @countP_inRootFrom searchRoot live 0 entry content relative hlive hrelative fun item =>
    !((walkedFiles isIgnored tree).filterMap (lookupLive sort searchRoot live)).contains item.entry &&
      !isHiddenOrIgnored isIgnored item.relative
  rw [Nat.zero_add] at hrest
  have hsorted : (sortedInRoot sort searchRoot live).Perm (inRootFrom searchRoot 0 live) := sort.perm _ _
  rw [← hsorted.countP_eq] at hrest
  rw [hwalked]
  congr 1
  refine Eq.trans (List.countP_congr ?_) (hrest.trans ?_)
  · intro item _
    simp only [Function.comp_apply, Bool.and_eq_true, beq_iff_eq, Option.some.injEq]
    exact and_comm
  · have hmatched := @matched_iff isIgnored sort searchRoot tree live entry
    by_cases hspelled : spelled isIgnored sort searchRoot tree live entry = []
    · have hnot : ((walkedFiles isIgnored tree).filterMap (lookupLive sort searchRoot live)).contains entry =
          false := by
        rw [← Bool.not_eq_true, hmatched]
        exact fun hne => hne hspelled
      rw [hnot]
      simp [hspelled]
    · rw [hmatched.2 hspelled]
      simp [hspelled]

/-! ## As the saved file -/

/-- The condition under which an entry is searched just when a saved file would be. Where the walk reports no file
under its spellings, a dot at the start of its own name, which hides it, must come together with something in the
way in the tree, unless the rules leave it out anyhow. Otherwise there is one such file, and a file at the entry's
relative path would be reported too. -/
def AsSaved (isIgnored : Path → Bool → Bool) (tree : DirectoryTree) (relative : Path) (spelled : List Path) : Prop :=
  (spelled = [] ∧ (Allowed isIgnored [] relative →
    ((∃ name ∈ relative.getLast?, startsWithDot name = true) ↔ ¬ OpenAt tree relative))) ∨
  (spelled.length = 1 ∧ Allowed isIgnored [] relative ∧ OpenAt tree relative)

theorem searched_as_saved_iff {κ : Type} (isIgnored : Path → Bool → Bool) (charsets : Path → Option κ)
    (sort : PathSort) (absoluteRoot : Path) (searchRoot : SearchRoot) (tree : DirectoryTree)
    (live : List LiveContent) {entry : Nat} {content : LiveContent} {relative : Path}
    (hlive : live[entry]? = some content) (hrelative : searchRoot.relative content = some relative) :
    ((WouldReport isIgnored tree relative → searches
        (streamSearchDirectory isIgnored charsets sort absoluteRoot searchRoot tree live) entry = 1) ∧
      (¬ WouldReport isIgnored tree relative → searches
        (streamSearchDirectory isIgnored charsets sort absoluteRoot searchRoot tree live) entry = 0)) ↔
      AsSaved isIgnored tree relative (spelled isIgnored sort searchRoot tree live entry) := by
  rw [searches_eq hlive hrelative, AsSaved]
  have hreport : WouldReport isIgnored tree relative ↔ Allowed isIgnored [] relative ∧ OpenAt tree relative :=
    wouldReport_iff
  have hhidden : isHiddenOrIgnored isIgnored relative = false ↔
      Allowed isIgnored [] relative ∧ ¬ ∃ name ∈ relative.getLast?, startsWithDot name = true := by
    rcases relative_spec hrelative with rfl | ⟨hne, hnormal⟩
    · rw [isHiddenOrIgnored_dot]
      refine iff_of_false (by decide) ?_
      rintro ⟨-, hdot⟩
      exact hdot ⟨dot, rfl, rfl⟩
    · rw [isHiddenOrIgnored_iff hne hnormal]
      simp
  rw [hreport]
  generalize Allowed isIgnored [] relative = allowed at hhidden ⊢
  generalize OpenAt tree relative = nothing
  generalize (∃ name ∈ relative.getLast?, startsWithDot name = true) = dotted at hhidden ⊢
  generalize spelled isIgnored sort searchRoot tree live entry = files
  cases files with
  | nil =>
      cases hvalue : isHiddenOrIgnored isIgnored relative with
      | false =>
          -- it is searched, so a saved file has to be reported
          obtain ⟨hallowed, hdotted⟩ := hhidden.1 hvalue
          simp [hallowed, hdotted]
      | true =>
          have hleft : allowed → dotted := by
            intro hallowed
            apply Classical.byContradiction
            intro hdotted
            rw [hhidden.2 ⟨hallowed, hdotted⟩] at hvalue
            cases hvalue
          by_cases hallowed : allowed
          · simp [hallowed, hleft hallowed]
          · simp [hallowed]
  | cons file files =>
      have hcount : (file :: files).length + (if file :: files = [] ∧ isHiddenOrIgnored isIgnored relative = false
          then 1 else 0) = files.length + 1 := by simp
      rw [hcount]
      by_cases hreported : allowed ∧ nothing
      · simp [hreported]
      · simp [hreported]

/-- An entry that the walk does not report, and one that nothing hides. -/
def unsavedEntry (name : Bytes) (h : Normal [name]) : LiveContent :=
  { path := [name], canonicalPath := some [name], path_normal := h,
    canonical_normal := fun _ hcanonical => Option.some.inj hcanonical ▸ h }

def rootDirectory : SearchRoot :=
  { normalized := [], canonical := [], normalized_normal := List.forall_mem_nil _,
    canonical_normal := List.forall_mem_nil _ }

def emptyTree : DirectoryTree := { listing := .nil, distinct := trivial }

theorem normal_letter : Normal [[101]] := by
  intro name hname
  rw [List.mem_singleton.1 hname]
  decide

theorem normal_dotted : Normal [[46, 101]] := by
  intro name hname
  rw [List.mem_singleton.1 hname]
  decide

theorem searched_as_saved_iff_letter : AsSaved (fun _ _ => false) emptyTree [[101]] [] ∧
    searches (streamSearchDirectory (fun _ _ => false) (fun _ => (none : Option Nat)) .insertion [] rootDirectory
      emptyTree [unsavedEntry [101] normal_letter]) 0 = 1 := by
  have hsaved : AsSaved (fun _ _ => false) emptyTree [[101]] [] := by
    refine .inl ⟨rfl, fun _ => iff_of_false ?_ fun hnot => hnot ⟨normal_letter, trivial⟩⟩
    rintro ⟨name, hname, hdot⟩
    cases hname
    cases hdot
  have hreport : WouldReport (fun _ _ => false) emptyTree [[101]] := wouldReport_iff.2 ⟨rfl, normal_letter, trivial⟩
  refine ⟨hsaved, ?_⟩
  exact ((searched_as_saved_iff (fun _ _ => false) (fun _ => (none : Option Nat)) .insertion [] rootDirectory
    emptyTree [unsavedEntry [101] normal_letter] rfl rfl).2 hsaved).1 hreport

/-- An unsaved file whose name starts with a dot is left out, and a saved one would be reported. -/
theorem not_searched_as_saved : WouldReport (fun _ _ => false) emptyTree [[46, 101]] ∧
    searches (streamSearchDirectory (fun _ _ => false) (fun _ => (none : Option Nat)) .insertion [] rootDirectory
      emptyTree [unsavedEntry [46, 101] normal_dotted]) 0 = 0 := by
  refine ⟨wouldReport_iff.2 ⟨rfl, normal_dotted, trivial⟩, ?_⟩
  rfl

end Ned.Editor.Search
