import Ned.Library.Wildcards
import Ned.Text.Bytes

/-!
# ssh configs

Host patterns, and a config as the flat list of entries that its files come to. An include stands between
an entry that enters it and one that leaves it; a destination is resolved by replaying the entries.
-/

namespace Ned.Editor.Remote

open Library Text

/-! ## Words of a config -/

/-- The bytes of an ASCII text. -/
def bytes (text : String) : Bytes := text.toList.map fun c => UInt8.ofNat c.toNat

def toLower (c : UInt8) : UInt8 := if 65 ≤ c && c ≤ 90 then c + 32 else c

def lower (text : Bytes) : Bytes := text.map toLower

/-- A space, a tab or a carriage return. -/
def isBlank (c : UInt8) : Bool := c == 32 || c == 9 || c == 13

/-- `std::isspace`. -/
def isSpace (c : UInt8) : Bool := c == 32 || (9 ≤ c && c ≤ 13)

def trim (text : Bytes) : Bytes :=
  ((text.dropWhile isBlank).reverse.dropWhile isBlank).reverse

def lines (text : Bytes) : List Bytes :=
  if text.isEmpty then []
  else
    let line := text.takeWhile (· != newline)
    line :: lines (text.drop (line.length + 1))
  termination_by text.length
  decreasing_by
    rename_i hne
    have hpos := List.length_pos_iff.2 (mt List.isEmpty_iff.2 hne)
    rw [List.length_drop]
    omega

/-- What stands in quotes or between spaces, up to a comment. -/
def words (text : Bytes) : List Bytes :=
  match text with
  | [] => []
  | c :: rest =>
      if isSpace c then words rest
      else if c == 35 then []
      else if c == 34 then
        let word := rest.takeWhile (· != 34)
        word :: words (rest.drop (word.length + 1))
      else
        let word := rest.takeWhile fun c => !isSpace c
        (c :: word) :: words (rest.drop word.length)
  termination_by text.length
  decreasing_by
    · exact Nat.lt_succ_self _
    · rw [List.length_drop]
      exact Nat.lt_succ_of_le (Nat.sub_le _ _)
    · rw [List.length_drop]
      exact Nat.lt_succ_of_le (Nat.sub_le _ _)

/-- A line's keyword, in lower case, and its arguments. There is none on a blank line or a comment. -/
def splitLine (line : Bytes) : Option (Bytes × List Bytes) :=
  let line := trim line
  if line.isEmpty || line.head? == some 35 then none
  else
    let keyword := line.takeWhile fun c => !(c == 32 || c == 9 || c == 61)
    let rest := trim (line.drop keyword.length)
    let rest := if rest.head? == some 61 then trim (rest.drop 1) else rest
    some (lower keyword, words rest)

/-! ## Patterns -/

/-- Where the matcher is in the pattern and in the text, and where it goes back to. -/
structure GlobState where
  p : Nat
  t : Nat
  star : Option Nat
  resume : Nat
  resume_le : resume ≤ t

/-- One byte of the pattern against one of the text. -/
def fitsByte (c d : UInt8) : Bool := c == 63 || toLower c == toLower d

/-- The byte that the pattern is at and the one that the text is at. -/
def fitsAt (pattern text : Bytes) (p t : Nat) : Bool :=
  match pattern[p]?, text[t]? with
  | some c, some d => fitsByte c d
  | _, _ => false

def globLoop (pattern text : Bytes) (s : GlobState) : Bool :=
  if s.t < text.length then
    if fitsAt pattern text s.p s.t then
      globLoop pattern text
        { s with p := s.p + 1, t := s.t + 1, resume_le := Nat.le_succ_of_le s.resume_le }
    else if s.p < pattern.length ∧ pattern[s.p]? = some 42 then
      globLoop pattern text
        { s with p := s.p + 1, star := some s.p, resume := s.t, resume_le := Nat.le_refl _ }
    else
      match _h : s.star with
      | some star =>
          globLoop pattern text
            { s with p := star + 1, t := s.resume + 1, resume := s.resume + 1, resume_le := Nat.le_refl _ }
      | none => false
  else
    ((pattern.drop s.p).dropWhile (· == 42)).isEmpty
  termination_by (if s.star.isSome then text.length - s.resume else text.length + 1,
    (pattern.length - s.p) + (text.length - s.t))
  decreasing_by
    · apply Prod.Lex.right
      omega
    · rename_i hlt _ hstar
      cases hsome : s.star.isSome with
      | false =>
          apply Prod.Lex.left
          simp only [Option.isSome_some, if_true, Bool.false_eq_true, if_false]
          omega
      | true =>
          rcases Nat.lt_or_eq_of_le s.resume_le with hresume | hresume
          · apply Prod.Lex.left
            simp only [Option.isSome_some, if_true]
            omega
          · simp only [Option.isSome_some, if_true, hresume]
            apply Prod.Lex.right
            omega
    · have hresume := s.resume_le
      apply Prod.Lex.left
      simp only [_h, Option.isSome_some, if_true]
      omega

def globMatches (pattern text : Bytes) : Bool :=
  globLoop pattern text { p := 0, t := 0, star := none, resume := 0, resume_le := Nat.le_refl _ }

section Blocks

variable (host : Bytes)

/-- What a pattern matches, apart from the mark that negates it. -/
def patternMatches (pattern : Bytes) : Bool :=
  globMatches (if pattern.head? == some 33 then pattern.drop 1 else pattern) host

/-- The loop of `PatternsMatch`. -/
def patternsMatchFrom (matched : Bool) : List Bytes → Bool
  | [] => matched
  | pattern :: patterns =>
      if patternMatches host pattern then
        if pattern.head? == some 33 then false else patternsMatchFrom true patterns
      else patternsMatchFrom matched patterns

def patternsMatch (patterns : List Bytes) : Bool := patternsMatchFrom host false patterns

def commaList (list : Bytes) : List Bytes :=
  if list.isEmpty then []
  else
    let item := list.takeWhile (· != 44)
    item :: commaList (list.drop (item.length + 1))
  termination_by list.length
  decreasing_by
    rename_i hne
    have hpos := List.length_pos_iff.2 (mt List.isEmpty_iff.2 hne)
    rw [List.length_drop]
    omega

/-- Whether a criterion is negated, and its name. -/
def splitCriterion (argument : Bytes) : Bool × Bytes :=
  let criterion := lower argument
  if criterion.head? == some 33 then (true, criterion.drop 1) else (false, criterion)

/-- The loop of `MatchLineMatches`. -/
def criteriaHold : List Bytes → Bool
  | [] => true
  | argument :: arguments =>
      if (splitCriterion argument).2 == bytes "all" then
        if (splitCriterion argument).1 then false else criteriaHold arguments
      else if (splitCriterion argument).2 == bytes "host" ||
          (splitCriterion argument).2 == bytes "originalhost" then
        match arguments with
        | [] => false
        | list :: arguments =>
            if patternsMatch host (commaList list) == (splitCriterion argument).1 then false
            else criteriaHold arguments
      else false

def matchLineMatches (arguments : List Bytes) : Bool :=
  if arguments.isEmpty then false else criteriaHold host arguments

end Blocks

/-! ## Destinations -/

structure Destination where
  user : Option Bytes := none
  host : Bytes := []
  port : Option Bytes := none
  deriving DecidableEq

def kSshScheme : Bytes := bytes "ssh://"

/-- The user before the last at sign, and what follows it. -/
def splitUser (destination : Bytes) : Option Bytes × Bytes :=
  match destination.reverse.findIdx? (· == 64) with
  | some fromEnd =>
      let length := destination.length - 1 - fromEnd
      (some (destination.take length), destination.drop (length + 1))
  | none => (none, destination)

def splitDestination (destination : Bytes) : Destination :=
  let uri := kSshScheme.isPrefixOf destination
  let destination :=
    if uri then ((destination.drop kSshScheme.length).reverse.dropWhile (· == 47)).reverse else destination
  let (user, destination) := splitUser destination
  if destination.head? == some 91 then
    match destination.findIdx? (· == 93) with
    | none => { user := user, host := destination.drop 1 }
    | some close =>
        let rest := destination.drop (close + 1)
        { user := user
          host := (destination.take close).drop 1
          port := if uri && rest.head? == some 58 then some (rest.drop 1) else none }
  else
    match if uri then destination.findIdx? (· == 58) else none with
    | none => { user := user, host := destination }
    | some colon =>
        { user := user, host := destination.take colon, port := some (destination.drop (colon + 1)) }

/-! ## Reading files -/

/-- The files that an include can name, and what they hold. -/
structure Files where
  readFile : Bytes → Option Bytes
  glob : Bytes → List Bytes

/-- The tokens of `ExpandPath`; any other than these two is refused. -/
def expandTokens (home : Bytes) : Bytes → Option Bytes
  | [] => some []
  | c :: rest =>
      if c != 37 then (expandTokens home rest).map (c :: ·)
      else
        match rest with
        | [] => none
        | c :: rest =>
            if c == 37 then (expandTokens home rest).map (37 :: ·)
            else if c == 100 then (expandTokens home rest).map (home ++ ·)
            else none

def expandPath (word home : Bytes) : Option Bytes :=
  if word == bytes "~" || (bytes "~/").isPrefixOf word then
    (expandTokens home (word.drop 1)).map (home ++ ·)
  else expandTokens home word

/-- `base / path` for two paths. -/
def joinPath (base path : Bytes) : Bytes :=
  if path.head? == some 47 || base.isEmpty then path
  else if base.getLast? == some 47 then base ++ path
  else base ++ 47 :: path

inductive Kind where
  | host
  | matches
  | setting
  | enter
  | leave
  deriving DecidableEq

structure Entry where
  kind : Kind
  keyword : Bytes := []
  arguments : List Bytes := []
  deriving DecidableEq

/-- ssh gives up past this depth too. -/
def kMaxIncludeDepth : Nat := 16

section Append

variable (files : Files) (home includeBase : Bytes)

/-- The texts that an argument of an include stands for, in the order they are read. -/
def includedTexts (argument : Bytes) : List Bytes :=
  match expandPath argument home with
  | none => []
  | some expanded => (files.glob (joinPath includeBase expanded)).filterMap files.readFile

/-- What a line of a config comes to; `included` are the entries of an include. -/
def lineEntries (included : List Bytes → List Entry) (line : Bytes) : List Entry :=
  match splitLine line with
  | none => []
  | some (keyword, arguments) =>
      if keyword == bytes "include" then included arguments
      else
        let kind := if keyword == bytes "host" then .host
          else if keyword == bytes "match" then .matches else .setting
        [{ kind := kind, keyword := keyword, arguments := arguments }]

/-- The entries that `Append` adds, with how many includes deep it may still go. -/
def append : Nat → Bytes → List Entry
  | 0, text => (lines text).flatMap (lineEntries fun _ => [])
  | depth + 1, text => (lines text).flatMap (lineEntries fun arguments =>
      (arguments.flatMap (includedTexts files home includeBase)).flatMap fun body =>
        { kind := .enter } :: append depth body ++ [{ kind := .leave }])

end Append

structure HostSources where
  home : Bytes
  userConfig : Bytes
  systemConfig : Bytes

/-- `parent_path` of a path. -/
def parentPath (path : Bytes) : Bytes :=
  let directory := (path.reverse.dropWhile (· != 47)).reverse
  let parent := (directory.reverse.dropWhile (· == 47)).reverse
  if parent.isEmpty then directory.take 1 else parent

/-- The texts that `Load` reads, each with the base of its includes. -/
def HostSources.texts (sources : HostSources) (files : Files) : List (Bytes × Bytes) :=
  [(sources.userConfig, joinPath sources.home (bytes ".ssh")),
    (sources.systemConfig, parentPath sources.systemConfig)].filterMap fun (file, base) =>
      if file.isEmpty then none else (files.readFile file).map fun text => (text, base)

/-- A config, as its entries. -/
structure SshConfig where
  entries : List Entry
  deriving DecidableEq

namespace SshConfig

/-- Several texts appended one after the other. -/
def ofTexts (files : Files) (home : Bytes) (texts : List (Bytes × Bytes)) : SshConfig where
  entries := texts.flatMap fun (text, base) => append files home base kMaxIncludeDepth text

def load (files : Files) (sources : HostSources) : SshConfig :=
  ofTexts files sources.home (sources.texts files)

def parse (files : Files) (text home includeBase : Bytes) : SshConfig :=
  ofTexts files home [(text, includeBase)]

end SshConfig

/-! ## Resolving -/

structure Scope where
  active : Bool := true
  never : Bool := false
  deriving DecidableEq

structure Values where
  hostName : Option Bytes := none
  user : Option Bytes := none
  port : Option Bytes := none
  proxyJump : Option Bytes := none
  identityFiles : List Bytes := []
  deriving DecidableEq

/-- A slot keeps the first value that it is given. -/
def first (slot : Option Bytes) (arguments : List Bytes) : Option Bytes := slot.or arguments.head?

def Values.take (v : Values) (keyword : Bytes) (arguments : List Bytes) : Values :=
  if keyword == bytes "hostname" then { v with hostName := first v.hostName arguments }
  else if keyword == bytes "user" then { v with user := first v.user arguments }
  else if keyword == bytes "port" then { v with port := first v.port arguments }
  else if keyword == bytes "proxyjump" then { v with proxyJump := first v.proxyJump arguments }
  else if keyword == bytes "identityfile" then
    { v with identityFiles := v.identityFiles ++ arguments.head?.toList }
  else v

/-- One entry of the replay, with the scopes from the inner one out. -/
def replay (host : Bytes) (s : List Scope × Values) (entry : Entry) : List Scope × Values :=
  match s.1 with
  | [] => s
  | scope :: outer =>
      match entry.kind with
      | .enter => ({ active := scope.active, never := !scope.active } :: scope :: outer, s.2)
      | .leave => (outer, s.2)
      | .host =>
          ({ scope with active := !scope.never && patternsMatch host entry.arguments } :: outer,
            s.2)
      | .matches =>
          ({ scope with active := !scope.never && matchLineMatches host entry.arguments } :: outer,
            s.2)
      | .setting => (s.1, if scope.active then s.2.take entry.keyword entry.arguments else s.2)

structure SshTarget where
  hostName : Bytes
  user : Option Bytes
  port : Bytes
  identityFiles : List Bytes
  proxyJump : Option Bytes
  deriving DecidableEq

/-- HostName's `%h` is the host as given. -/
def expandHost (host : Bytes) : Bytes → Bytes
  | [] => []
  | c :: rest =>
      if c == 37 then
        match rest with
        | [] => [c]
        | d :: rest =>
            if d == 104 then host ++ expandHost host rest
            else if d == 37 then 37 :: expandHost host rest
            else c :: expandHost host (d :: rest)
      else c :: expandHost host rest
  termination_by named => named.length
  decreasing_by
    · simp only [List.length_cons]
      omega
    · simp only [List.length_cons]
      omega
    · simp only [List.length_cons]
      omega
    · simp only [List.length_cons]
      omega

/-- Where the values of a config lead a destination, whose own user and port win. -/
def Destination.target (given : Destination) (v : Values) : SshTarget where
  hostName := expandHost given.host (v.hostName.getD given.host)
  user := given.user.or v.user
  port := given.port.getD (v.port.getD (bytes "22"))
  identityFiles := v.identityFiles
  proxyJump := v.proxyJump.filter fun jump => lower jump != bytes "none"

def SshConfig.resolve (config : SshConfig) (destination : Bytes) : SshTarget :=
  let given := splitDestination destination
  given.target (config.entries.foldl (replay given.host) ([{}], {})).2

/-! ## What a config says

The settings with the blocks around each, includes expanded in place. A setting counts for a host where
every block around it applies.
-/

/-- The text comes from the pattern: any run for a star, any byte for a question mark, and otherwise the
same byte but for the case of letters. -/
def Matches (pattern text : Bytes) : Prop := Expands 42 (fun c d => fitsByte c d = true) pattern text

/-- The line that opens a block, up to the next such line of its file. -/
inductive Block where
  | host (patterns : List Bytes)
  | matches (criteria : List Bytes)
  deriving DecidableEq

/-- Some pattern matches the host and no negated one does. -/
def PatternsApply (host : Bytes) (patterns : List Bytes) : Prop :=
  (∃ pattern ∈ patterns, pattern.head? ≠ some 33 ∧ Matches pattern host) ∧
    ∀ pattern ∈ patterns, pattern.head? = some 33 → ¬ Matches (pattern.drop 1) host

/-- The criteria that can be told here, each of which holds; a negated one where it would not. -/
inductive CriteriaApply (host : Bytes) : List Bytes → Prop
  | nil : CriteriaApply host []
  | all {argument : Bytes} {rest : List Bytes} (criterion : splitCriterion argument = (false, bytes "all"))
      (holds : CriteriaApply host rest) : CriteriaApply host (argument :: rest)
  | host {negated : Bool} {argument list : Bytes} {rest : List Bytes}
      (criterion : splitCriterion argument = (negated, bytes "host") ∨
        splitCriterion argument = (negated, bytes "originalhost"))
      (apply : PatternsApply host (commaList list) ↔ negated = false)
      (holds : CriteriaApply host rest) : CriteriaApply host (argument :: list :: rest)

def Block.Applies (host : Bytes) : Block → Prop
  | .host patterns => PatternsApply host patterns
  | .matches criteria => criteria ≠ [] ∧ CriteriaApply host criteria

/-- A setting, with the block it stands in and the blocks around the includes of its file. -/
structure Occurrence where
  blocks : List Block
  keyword : Bytes
  arguments : List Bytes
  deriving DecidableEq

section Occurrences

variable (files : Files) (home includeBase : Bytes)

/-- The settings of some lines, in the block that is open before them. -/
def linesOccurrences (included : List Block → List Bytes → List Occurrence) (around : List Block) :
    Option Block → List Bytes → List Occurrence
  | _, [] => []
  | block, line :: lines =>
      match splitLine line with
      | none => linesOccurrences included around block lines
      | some (keyword, arguments) =>
          if keyword == bytes "include" then
            included (block.toList ++ around) arguments ++ linesOccurrences included around block lines
          else if keyword == bytes "host" then
            linesOccurrences included around (some (.host arguments)) lines
          else if keyword == bytes "match" then
            linesOccurrences included around (some (.matches arguments)) lines
          else
            ⟨block.toList ++ around, keyword, arguments⟩ :: linesOccurrences included around block lines

/-- The settings of a file and of what it includes, up to a depth, inside the blocks around it. -/
def occurrences : Nat → List Block → Bytes → List Occurrence
  | 0, around, text => linesOccurrences (fun _ _ => []) around none (lines text)
  | depth + 1, around, text => linesOccurrences (fun blocks arguments =>
      (arguments.flatMap (includedTexts files home includeBase)).flatMap (occurrences depth blocks))
        around none (lines text)

end Occurrences

/-- A setting counts for a host. -/
def Occurrence.Counts (host : Bytes) (setting : Occurrence) : Prop :=
  ∀ block ∈ setting.blocks, block.Applies host

noncomputable def counting (host : Bytes) (settings : List Occurrence) : List Occurrence :=
  settings.filter fun setting => @decide (setting.Counts host) (Classical.dec _)

/-- The settings that count for a host, file after file. -/
noncomputable def applied (files : Files) (home host : Bytes) (texts : List (Bytes × Bytes)) :
    List Occurrence :=
  texts.flatMap fun (text, base) => counting host (occurrences files home base kMaxIncludeDepth [] text)

/-- The first value that a keyword is given. -/
def firstValue (keyword : String) (settings : List Occurrence) : Option Bytes :=
  (settings.filter (·.keyword == bytes keyword)).findSome? (·.arguments.head?)

/-- Every value that a keyword is given. -/
def everyValue (keyword : String) (settings : List Occurrence) : List Bytes :=
  (settings.filter (·.keyword == bytes keyword)).filterMap (·.arguments.head?)

/-- The first value of each setting, and every identity file. -/
def valuesOf (settings : List Occurrence) : Values where
  hostName := firstValue "hostname" settings
  user := firstValue "user" settings
  port := firstValue "port" settings
  proxyJump := firstValue "proxyjump" settings
  identityFiles := everyValue "identityfile" settings

/-- Where ssh takes a destination. -/
noncomputable def expected (files : Files) (home : Bytes) (texts : List (Bytes × Bytes))
    (destination : Bytes) : SshTarget :=
  let given := splitDestination destination
  given.target (valuesOf (applied files home given.host texts))

end Ned.Editor.Remote
