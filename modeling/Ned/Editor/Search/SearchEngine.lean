import Mathlib.Data.List.Sort
import Ned.Text.Bytes

/-!
# Searching a directory

Which files a search goes through, and which of them it reads from live content. Paths are lists of components.
An absolute path is lexically normal and has no trailing slash.
-/

namespace Ned.Editor.Search

open Text

abbrev Path := List Bytes

def dot : Bytes := [46]

def dotDot : Bytes := [46, 46]

/-- What an entry of a directory can be called. -/
def IsName (name : Bytes) : Prop := name ≠ [] ∧ name ≠ dot ∧ name ≠ dotDot

instance (name : Bytes) : Decidable (IsName name) := inferInstanceAs (Decidable (_ ∧ _))

/-- The components of an absolute, lexically normal path. -/
def Normal (path : Path) : Prop := ∀ name ∈ path, IsName name

/-- `path.lexically_relative(base)`, for normal paths. -/
def lexicallyRelative : Path → Path → Path
  | [], [] => [dot]
  | part :: path, [] => part :: path
  | [], _ :: base => List.replicate (base.length + 1) dotDot
  | part :: path, name :: base =>
      if part = name then lexicallyRelative path base
      else List.replicate (base.length + 1) dotDot ++ part :: path

/-- `(root / relative).lexically_normal()`, for what is under a normal root. -/
def joinNormal (root relative : Path) : Path := root ++ relative.filter (· != dot)

/-! ## The walk -/

/-- The entries of a directory, in the order in which the walk takes them. What a symlink leads to counts, but the
walk does not follow one to a directory. -/
inductive Listing where
  | nil
  | file (name : Bytes) (regular binary : Bool) (rest : Listing)
  | directory (name : Bytes) (symlink : Bool) (entries rest : Listing)
  deriving DecidableEq

namespace Listing

def names : Listing → List Bytes
  | .nil => []
  | .file name _ _ rest => name :: names rest
  | .directory name _ _ rest => name :: names rest

/-- No directory has two entries of one name. -/
def Distinct : Listing → Prop
  | .nil => True
  | .file name _ _ rest => name ∉ names rest ∧ Distinct rest
  | .directory name _ entries rest => name ∉ names rest ∧ Distinct entries ∧ Distinct rest

end Listing

structure DirectoryTree where
  listing : Listing
  distinct : listing.Distinct

def startsWithDot (name : Bytes) : Bool := name.head? == some 46

def isDotDirectory (name : Bytes) : Bool := startsWithDot name

section

variable (isIgnored : Path → Bool → Bool)

/-- `relative` is the path of the directory from the root. -/
def walkSearchableFiles (relative : Path) : Listing → List Path
  | .nil => []
  | .file name regular binary rest =>
      (if !regular || isIgnored (relative ++ [name]) false || binary then [] else [relative ++ [name]]) ++
        walkSearchableFiles relative rest
  | .directory name symlink entries rest =>
      (if !symlink && !isDotDirectory name && !isIgnored (relative ++ [name]) true then
        walkSearchableFiles (relative ++ [name]) entries
      else []) ++ walkSearchableFiles relative rest

/-! ## Live content -/

def isUnderRoot (path root : Path) : Bool :=
  match lexicallyRelative path root with
  | [] => false
  | first :: _ => first != dotDot

/-- The loop over the components, with those before in `pre`. -/
def hiddenOrIgnoredFrom (relative pre : Path) : Path → Bool
  | [] => false
  | part :: parts =>
      if part.isEmpty then
        hiddenOrIgnoredFrom relative pre parts
      else if startsWithDot part then
        true
      else if isIgnored (pre ++ [part]) (pre ++ [part] != relative) then
        true
      else
        hiddenOrIgnoredFrom relative (pre ++ [part]) parts

def isHiddenOrIgnored (relative : Path) : Bool := hiddenOrIgnoredFrom isIgnored relative [] relative

end

/-- The spellings of an open buffer's path, the second of which may be empty. -/
structure LiveContent where
  path : Path
  canonicalPath : Option Path
  path_normal : Normal path
  canonical_normal : ∀ canonical ∈ canonicalPath, Normal canonical

structure SearchRoot where
  normalized : Path
  canonical : Path
  normalized_normal : Normal normalized
  canonical_normal : Normal canonical

def SearchRoot.relative (searchRoot : SearchRoot) (content : LiveContent) : Option Path :=
  if isUnderRoot content.path searchRoot.normalized then
    some (lexicallyRelative content.path searchRoot.normalized)
  else
    match content.canonicalPath with
    | some canonical =>
        if isUnderRoot canonical searchRoot.canonical then
          some (lexicallyRelative canonical searchRoot.canonical)
        else none
    | none => none

/-- An entry, which its index stands for, under the root. -/
structure InRoot where
  entry : Nat
  content : LiveContent
  relative : Path
  reported : Path

def inRoot (searchRoot : SearchRoot) (live : List LiveContent) : List InRoot :=
  live.zipIdx.filterMap fun (content, entry) =>
    (searchRoot.relative content).map fun relative =>
      { entry := entry, content := content, relative := relative,
        reported := joinNormal searchRoot.normalized relative }

/-- Both spellings of each entry. A key keeps the first entry it was put in for, the one a lookup finds. -/
def liveByKey (entries : List InRoot) : List (Path × Nat) :=
  entries.flatMap fun item =>
    (item.content.path, item.entry) :: item.content.canonicalPath.toList.map fun key => (key, item.entry)

def findLive (searchRoot : SearchRoot) (byKey : List (Path × Nat)) (walked : Path) : Option Nat :=
  match byKey.lookup (searchRoot.normalized ++ walked) with
  | some entry => some entry
  | none =>
      if searchRoot.canonical = searchRoot.normalized then none
      else byKey.lookup (searchRoot.canonical ++ walked)

/-- A sort by paths, which may leave equal ones in any order. -/
structure PathSort where
  sort : {α : Type} → (α → Path) → List α → List α
  perm : ∀ {α : Type} (key : α → Path) (items : List α), (sort key items).Perm items
  sorted : ∀ {α : Type} (key : α → Path) (items : List α),
    (sort key items).Pairwise fun a b => key a ≤ key b

/-- Insertion sort, which keeps the order of equal paths. -/
def PathSort.insertion : PathSort where
  sort key items := items.insertionSort fun a b => key a ≤ key b
  perm _ items := List.perm_insertionSort _ items
  sorted key items :=
    haveI : Std.Total fun a b => key a ≤ key b := ⟨fun a b => List.le_total (key a) (key b)⟩
    haveI : IsTrans _ fun a b => key a ≤ key b := ⟨fun _ _ _ => List.le_trans⟩
    List.pairwise_insertionSort _ items

/-- One call of `ScanPipeline::Push`. -/
structure Push (κ : Type) where
  path : Path
  stated : Option κ
  live : Option Nat
  deriving DecidableEq

variable {κ : Type} (isIgnored : Path → Bool → Bool) (charsets : Path → Option κ) (sort : PathSort)
  (absoluteRoot : Path) (searchRoot : SearchRoot) (tree : DirectoryTree) (live : List LiveContent)

def sortedInRoot : List InRoot := sort.sort InRoot.reported (inRoot searchRoot live)

def lookupLive (walked : Path) : Option Nat :=
  findLive searchRoot (liveByKey (sortedInRoot sort searchRoot live)) walked

def walkedFiles : List Path := walkSearchableFiles isIgnored [] tree.listing

/-- What the walk pushes, and the live content that it never saw. -/
def streamSearchDirectory : List (Push κ) :=
  let walked := walkedFiles isIgnored tree
  let matchedByWalk := walked.filterMap (lookupLive sort searchRoot live)
  (walked.map fun relative =>
    let file := absoluteRoot ++ relative
    let entry := lookupLive sort searchRoot live relative
    { path := file, stated := if entry.isSome then none else charsets file, live := entry }) ++
  ((sortedInRoot sort searchRoot live).filter fun item =>
    !matchedByWalk.contains item.entry && !isHiddenOrIgnored isIgnored item.relative).map fun item =>
      { path := item.reported, stated := none, live := some item.entry }

end Ned.Editor.Search
