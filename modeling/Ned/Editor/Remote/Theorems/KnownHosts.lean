import Ned.Editor.Remote.Lemmas.SshConfig

/-!
# Where ssh would go

A config is read as ssh reads it on a host without a star, as long as no file starts inside the last block
of the one before it.
-/

namespace Ned.Editor.Remote

open Library Text

variable {files : Files} {home base destination host : Bytes}

/-! ## Small configs -/

section Small

theorem lines_line {line rest : Bytes} (hline : newline ∉ line) :
    lines (line ++ newline :: rest) = line :: lines rest := by
  have htake : (line ++ newline :: rest).takeWhile (· != newline) = line := by
    rw [List.takeWhile_append_of_pos]
    · simp
    · intro c hc
      rw [bne_iff_ne]
      rintro rfl
      exact hline hc
  have hdrop : (line ++ newline :: rest).drop (line.length + 1) = rest := by
    rw [List.drop_append, List.drop_eq_nil_of_le (Nat.le_succ _), Nat.add_sub_cancel_left]
    rfl
  rw [lines, if_neg (by simp), htake]
  dsimp only
  rw [hdrop]

theorem lines_nil : lines [] = [] := by
  rw [lines]
  rfl

/-- A word of bytes that mean nothing on a line. -/
def Plain (word : Bytes) : Prop := word ≠ [] ∧ ∀ c ∈ word, c = 63 ∨ c = 42 ∨ c = 97 ∨ c = 98

theorem plain_singleton {c : UInt8} (h : c = 63 ∨ c = 42 ∨ c = 97 ∨ c = 98) : Plain [c] := by
  refine ⟨List.cons_ne_nil _ _, ?_⟩
  intro d hd
  rwa [List.mem_singleton.1 hd]

theorem Plain.of_mem {word : Bytes} (h : Plain word) {c : UInt8} (hc : c ∈ word) :
    isSpace c = false ∧ isBlank c = false ∧ c ≠ 35 ∧ c ≠ 34 ∧ c ≠ 61 ∧ c ≠ 33 ∧ c ≠ newline := by
  rcases h.2 c hc with rfl | rfl | rfl | rfl
  · decide
  · decide
  · decide
  · decide

theorem words_plain {word : Bytes} (h : Plain word) : words word = [word] := by
  cases word with
  | nil => exact absurd rfl h.1
  | cons c rest =>
      obtain ⟨hspace, -, hcomment, hquote, -⟩ := h.of_mem List.mem_cons_self
      have htake : rest.takeWhile (fun c => !isSpace c) = rest := by
        rw [List.takeWhile_eq_self_iff]
        intro d hd
        rw [(h.of_mem (List.mem_cons_of_mem _ hd)).1]
        rfl
      rw [words]
      simp only [hspace, beq_eq_false_iff_ne.2 hcomment, beq_eq_false_iff_ne.2 hquote, Bool.false_eq_true,
        if_false, htake, List.drop_length]
      rw [words]

theorem dropWhile_of_head {p : UInt8 → Bool} {text : Bytes} (h : ∀ c ∈ text.head?, p c = false) :
    text.dropWhile p = text := by
  cases text with
  | nil => rfl
  | cons c rest => exact List.dropWhile_cons_of_neg (by simp [h c rfl])

theorem trim_of_ends {text : Bytes} (hfirst : ∀ c ∈ text.head?, isBlank c = false)
    (hlast : ∀ c ∈ text.getLast?, isBlank c = false) : trim text = text := by
  rw [← List.head?_reverse] at hlast
  rw [trim, dropWhile_of_head hfirst, dropWhile_of_head hlast, List.reverse_reverse]

theorem trim_space (text : Bytes) : trim (32 :: text) = trim text := by
  rw [trim, List.dropWhile_cons_of_pos (by decide)]
  rfl

theorem splitLine_word {name word : Bytes} (hname : name ≠ [])
    (hall : (name.all fun c => !isBlank c && c != 61 && c != 35) = true) (hword : Plain word) :
    splitLine (name ++ 32 :: word) = some (lower name, [word]) := by
  have hplain (c : UInt8) (hc : c ∈ name) : isBlank c = false ∧ c ≠ 61 ∧ c ≠ 35 := by
    simpa [and_assoc] using List.all_eq_true.1 hall c hc
  have hlast : ∀ c ∈ word.getLast?, isBlank c = false := fun c hc =>
    (hword.of_mem (List.mem_of_getLast? hc)).2.1
  have hfirst : ∀ c ∈ word.head?, isBlank c = false := fun c hc =>
    (hword.of_mem (List.mem_of_head? hc)).2.1
  have hline : trim (name ++ 32 :: word) = name ++ 32 :: word := by
    apply trim_of_ends
    · intro c hc
      rw [List.head?_append_of_ne_nil _ hname] at hc
      exact (hplain c (List.mem_of_head? hc)).1
    · intro c hc
      rw [List.getLast?_append_of_ne_nil _ (List.cons_ne_nil _ _),
        List.getLast?_cons_of_ne_nil hword.1] at hc
      exact hlast c hc
  have hkeyword : (name ++ 32 :: word).takeWhile (fun c => !(c == 32 || c == 9 || c == 61)) = name := by
    rw [List.takeWhile_append_of_pos]
    · simp
    · intro c hc
      obtain ⟨hblank, hequals, -⟩ := hplain c hc
      simp only [isBlank, Bool.or_eq_false_iff] at hblank
      simp [hblank, hequals]
  have hcomment : (name ++ 32 :: word).head? ≠ some 35 := by
    rw [List.head?_append_of_ne_nil _ hname]
    exact fun h => (hplain 35 (List.mem_of_head? h)).2.2 rfl
  have hequals : word.head? ≠ some 61 := fun h => (hword.of_mem (List.mem_of_head? h)).2.2.2.2.1 rfl
  have hstarts : ((name ++ 32 :: word).isEmpty || (name ++ 32 :: word).head? == some 35) = false := by
    rw [Bool.or_eq_false_iff, beq_eq_false_iff_ne]
    exact ⟨by simp, hcomment⟩
  rw [splitLine]
  simp only [hline, hstarts, Bool.false_eq_true, if_false, hkeyword, List.drop_left, trim_space,
    trim_of_ends hfirst hlast, beq_eq_false_iff_ne.2 hequals, words_plain hword]

/-- A setting on a line of its own. -/
def settingText (value : Bytes) : Bytes := bytes "IdentityFile" ++ 32 :: value ++ [newline]

/-- A setting in a block. -/
def blockText (pattern value : Bytes) : Bytes :=
  bytes "Host" ++ 32 :: pattern ++ newline :: settingText value

theorem newline_not_mem_word {keyword value : Bytes} (hkeyword : newline ∉ keyword) (hvalue : Plain value) :
    newline ∉ keyword ++ 32 :: value := by
  intro hmem
  rcases List.mem_append.1 hmem with hmem | hmem
  · exact hkeyword hmem
  · rcases List.mem_cons.1 hmem with hmem | hmem
    · cases hmem
    · exact (hvalue.of_mem hmem).2.2.2.2.2.2 rfl

theorem lines_settingText {value : Bytes} (h : Plain value) :
    ∃ line, lines (settingText value) = [line] ∧ splitLine line = some (bytes "identityfile", [value]) := by
  have hline : newline ∉ bytes "IdentityFile" ++ 32 :: value := newline_not_mem_word (by decide) h
  have hlines : lines (bytes "IdentityFile" ++ 32 :: value ++ [newline]) = [bytes "IdentityFile" ++ 32 :: value] := by
    rw [lines_line hline, lines_nil]
  exact ⟨bytes "IdentityFile" ++ 32 :: value, hlines, splitLine_word (by decide) (by decide) h⟩

theorem lines_blockText {pattern value : Bytes} (hpattern : Plain pattern) (hvalue : Plain value) :
    ∃ opening line, lines (blockText pattern value) = [opening, line] ∧
      splitLine opening = some (bytes "host", [pattern]) ∧
      splitLine line = some (bytes "identityfile", [value]) := by
  obtain ⟨line, hsetting, hsplit⟩ := lines_settingText hvalue
  have hline : newline ∉ bytes "Host" ++ 32 :: pattern := newline_not_mem_word (by decide) hpattern
  have hlines : lines (bytes "Host" ++ 32 :: pattern ++ newline :: settingText value) =
      [bytes "Host" ++ 32 :: pattern, line] := by
    rw [lines_line hline, hsetting]
  exact ⟨bytes "Host" ++ 32 :: pattern, line, hlines, splitLine_word (by decide) (by decide) hpattern, hsplit⟩

def settingEntry (value : Bytes) : Entry :=
  { kind := .setting, keyword := bytes "identityfile", arguments := [value] }

theorem append_settingText {value : Bytes} (h : Plain value) :
    append files home base kMaxIncludeDepth (settingText value) = [settingEntry value] := by
  obtain ⟨line, hlines, hsplit⟩ := lines_settingText h
  rw [kMaxIncludeDepth, append, hlines]
  simp only [List.flatMap_singleton, lineEntries, hsplit]
  rfl

theorem occurrences_settingText {value : Bytes} (h : Plain value) :
    occurrences files home base kMaxIncludeDepth [] (settingText value) =
      [⟨[], bytes "identityfile", [value]⟩] := by
  obtain ⟨line, hlines, hsplit⟩ := lines_settingText h
  rw [kMaxIncludeDepth, occurrences, hlines]
  simp only [linesOccurrences, hsplit]
  rfl

theorem append_blockText {pattern value : Bytes} (hpattern : Plain pattern) (hvalue : Plain value) :
    append files home base kMaxIncludeDepth (blockText pattern value) =
      [{ kind := .host, keyword := bytes "host", arguments := [pattern] }, settingEntry value] := by
  obtain ⟨opening, line, hlines, hopening, hline⟩ := lines_blockText hpattern hvalue
  rw [kMaxIncludeDepth, append, hlines]
  simp only [List.flatMap_cons, List.flatMap_nil, lineEntries, hopening, hline]
  rfl

theorem occurrences_blockText {pattern value : Bytes} (hpattern : Plain pattern) (hvalue : Plain value) :
    occurrences files home base kMaxIncludeDepth [] (blockText pattern value) =
      [⟨[.host [pattern]], bytes "identityfile", [value]⟩] := by
  obtain ⟨opening, line, hlines, hopening, hline⟩ := lines_blockText hpattern hvalue
  rw [kMaxIncludeDepth, occurrences, hlines]
  simp only [linesOccurrences, hopening, hline]
  rfl

end Small

/-! ## Reading files -/

theorem takeAll_empty (settings : List Occurrence) : ({} : Values).takeAll settings = valuesOf settings := by
  rw [takeAll_eq]
  rfl

theorem within_nil {scope : Scope} (hactive : scope.active = true) (hnever : scope.never = false) :
    Within host [] none scope where
  active_iff := iff_of_true hactive fun _ hb => absurd hb List.not_mem_nil
  never_iff := iff_of_false (by simp [hnever]) (not_not.2 fun _ hb => absurd hb List.not_mem_nil)

/-- A scope that is back in no block around can be active only by the block that is open. -/
theorem Within.never_eq {block : Option Block} {scope : Scope} (h : Within host [] block scope) :
    scope.never = false := by
  rw [← Bool.not_eq_true, h.never_iff, not_not]
  exact fun _ hb => absurd hb List.not_mem_nil

variable (files home base) in
/-- A file that is read in no block. -/
theorem replay_file (hhost : 42 ∉ host) (text : Bytes) (scope : Scope) (hactive : scope.active = true)
    (hnever : scope.never = false) (v : Values) :
    ∃ scope', Within host [] (blockAfter none (lines text)) scope' ∧
      (append files home base kMaxIncludeDepth text).foldl (replay host) ([scope], v) =
        ([scope'], v.takeAll (counting host (occurrences files home base kMaxIncludeDepth [] text))) :=
  replay_append hhost files home base kMaxIncludeDepth text (within_nil hactive hnever)

/-- On a host without a star, one file is read as ssh reads it. -/
theorem parse_resolve (hhost : 42 ∉ (splitDestination destination).host) (files : Files)
    (text home base : Bytes) :
    (SshConfig.parse files text home base).resolve destination =
      expected files home [(text, base)] destination := by
  obtain ⟨scope', -, hfold⟩ := replay_file files home base hhost text {} rfl rfl {}
  rw [takeAll_empty] at hfold
  simp only [SshConfig.resolve, SshConfig.parse, SshConfig.ofTexts, expected, applied,
    List.flatMap_singleton, hfold]

/-- A second file is read as ssh reads it where the block that is open in front of it applies. -/
theorem ofTexts_resolve (hhost : 42 ∉ (splitDestination destination).host) (files : Files)
    (home : Bytes) (user system : Bytes × Bytes)
    (happlies : ∀ block ∈ blockAfter none (lines user.1),
      block.Applies (splitDestination destination).host) :
    (SshConfig.ofTexts files home [user, system]).resolve destination =
      expected files home [user, system] destination := by
  obtain ⟨scope, hwithin, huser⟩ := replay_file files home user.2 hhost user.1 {} rfl rfl {}
  have hactive : scope.active = true := by
    rw [hwithin.active_iff]
    intro block hblock
    rw [List.append_nil, Option.mem_toList] at hblock
    exact happlies block hblock
  obtain ⟨scope', -, hsystem⟩ := replay_file files home system.2 hhost system.1 scope hactive
    hwithin.never_eq
    (({} : Values).takeAll
      (counting (splitDestination destination).host
        (occurrences files home user.2 kMaxIncludeDepth [] user.1)))
  rw [← takeAll_append] at hsystem
  simp only [SshConfig.resolve, SshConfig.ofTexts, expected, applied, List.flatMap_cons,
    List.flatMap_nil, List.append_nil, List.foldl_append, huser]
  rw [hsystem, takeAll_empty]

/-! ## What is skipped -/

theorem plain_facing (before after : Bytes) : Plain (facing before after) := by
  refine ⟨by simp [facing], fun c hc => ?_⟩
  rcases List.mem_append.1 hc with hc | hc
  · exact .inl (List.eq_of_mem_replicate hc)
  · rcases List.mem_cons.1 hc with rfl | hc
    · exact .inr (.inl rfl)
    · exact .inl (List.eq_of_mem_replicate hc)

theorem head?_facing (before after : Bytes) : (facing before after).head? ≠ some 33 :=
  fun h => ((plain_facing before after).of_mem (List.mem_of_head? h)).2.2.2.2.2.1 rfl

/-- The block is skipped, whatever is open. -/
theorem replay_blockText {pattern value : Bytes} (hmatch : patternsMatch host [pattern] = false)
    (state : List Scope × Values) :
    ([{ kind := .host, keyword := bytes "host", arguments := [pattern] }, settingEntry value].foldl
      (replay host) state).2 = state.2 := by
  obtain ⟨scopes, v⟩ := state
  cases scopes with
  | nil => rfl
  | cons scope outer => simp [replay, settingEntry, hmatch]

theorem not_patternsMatch_facing (before after : Bytes) :
    patternsMatch (before ++ 42 :: after) [facing before after] = false := by
  simp [patternsMatch, patternsMatchFrom, patternMatches, head?_facing, not_globMatches_facing]

theorem applies_facing (before after : Bytes) :
    (Block.host [facing before after]).Applies (before ++ 42 :: after) :=
  ⟨⟨_, List.mem_singleton_self _, head?_facing before after, matches_facing before after⟩,
    fun pattern hpattern hnegated => by
      rw [List.mem_singleton.1 hpattern] at hnegated
      exact absurd hnegated (head?_facing before after)⟩

theorem counting_singleton {setting : Occurrence} (h : setting.Counts host) :
    counting host [setting] = [setting] := by
  simp [counting, h]

/-- On a host with a star, a block whose pattern has a star in the same place is skipped by mistake. -/
theorem exists_skipped (hhost : 42 ∈ host) : ∃ pattern, Plain pattern ∧
    patternsMatch host [pattern] = false ∧ (Block.host [pattern]).Applies host := by
  obtain ⟨before, after, rfl⟩ := List.append_of_mem hhost
  exact ⟨_, plain_facing before after, not_patternsMatch_facing before after, applies_facing before after⟩

theorem expected_snoc {texts : List (Bytes × Bytes)} {text value : Bytes} {blocks : List Block}
    (hsettings : occurrences files home base kMaxIncludeDepth [] text =
      [⟨blocks, bytes "identityfile", [value]⟩])
    (hcounts : ∀ block ∈ blocks, block.Applies (splitDestination destination).host) :
    (expected files home (texts ++ [(text, base)]) destination).identityFiles =
      (expected files home texts destination).identityFiles ++ [value] := by
  have hsetting : Occurrence.Counts (splitDestination destination).host
      ⟨blocks, bytes "identityfile", [value]⟩ := hcounts
  simp only [expected, Destination.target, valuesOf, applied, List.flatMap_append, List.flatMap_singleton,
    hsettings, counting_singleton hsetting]
  simp [everyValue]

theorem resolve_snoc (texts : List (Bytes × Bytes)) (text : Bytes) :
    (SshConfig.ofTexts files home (texts ++ [(text, base)])).resolve destination =
      (splitDestination destination).target ((append files home base kMaxIncludeDepth text).foldl
        (replay (splitDestination destination).host)
        ((SshConfig.ofTexts files home texts).entries.foldl
          (replay (splitDestination destination).host) ([{}], {}))).2 := by
  simp only [SshConfig.resolve, SshConfig.ofTexts, List.flatMap_append, List.flatMap_singleton,
    List.foldl_append]

/-- On a host with a star, a config can always go on in a way that is misread. -/
theorem exists_misread (hhost : 42 ∈ (splitDestination destination).host) (files : Files)
    (home base : Bytes) (texts : List (Bytes × Bytes)) :
    ∃ text, (SshConfig.ofTexts files home (texts ++ [(text, base)])).resolve destination ≠
      expected files home (texts ++ [(text, base)]) destination := by
  obtain ⟨pattern, hplain, hskipped, happlies⟩ := exists_skipped hhost
  have hsame : ∀ value, Plain value →
      (SshConfig.ofTexts files home (texts ++ [(blockText pattern value, base)])).resolve destination =
        expected files home (texts ++ [(blockText pattern value, base)]) destination →
      ((SshConfig.ofTexts files home texts).resolve destination).identityFiles =
        (expected files home texts destination).identityFiles ++ [value] := by
    intro value hvalue hread
    have hcounts : ∀ block ∈ [Block.host [pattern]],
        block.Applies (splitDestination destination).host := by
      intro block hblock
      rwa [List.mem_singleton.1 hblock]
    rw [← expected_snoc (occurrences_blockText hplain hvalue) hcounts, ← hread, resolve_snoc,
      append_blockText hplain hvalue, replay_blockText hskipped]
    rfl
  have ha : Plain [97] := plain_singleton (by decide)
  have hb : Plain [98] := plain_singleton (by decide)
  by_cases hread : (SshConfig.ofTexts files home (texts ++ [(blockText pattern [97], base)])).resolve
      destination = expected files home (texts ++ [(blockText pattern [97], base)]) destination
  · refine ⟨blockText pattern [98], fun hread' => ?_⟩
    have hlists := (hsame _ ha hread).symm.trans (hsame _ hb hread')
    exact absurd (List.append_cancel_left hlists) (by decide)
  · exact ⟨_, hread⟩

/-- A file whose last block does not apply hides the settings at the start of the next one. -/
theorem exists_hidden (hhost : 42 ∉ (splitDestination destination).host) (files : Files)
    (home : Bytes) (user : Bytes × Bytes) {block : Block} (hblock : block ∈ blockAfter none (lines user.1))
    (happlies : ¬ block.Applies (splitDestination destination).host) :
    ∃ system, (SshConfig.ofTexts files home [user, system]).resolve destination ≠
      expected files home [user, system] destination := by
  refine ⟨(settingText [97], []), fun hread => ?_⟩
  obtain ⟨scope, hwithin, huser⟩ := replay_file files home user.2 hhost user.1 {} rfl rfl {}
  have hactive : scope.active = false := by
    rw [← Bool.not_eq_true, hwithin.active_iff]
    intro hall
    exact happlies (hall block (List.mem_append_left _ (Option.mem_toList.2 hblock)))
  have hplain : Plain [97] := plain_singleton (by decide)
  have hskip : (SshConfig.ofTexts files home [user, (settingText [97], [])]).resolve destination =
      (splitDestination destination).target (({} : Values).takeAll
        (counting (splitDestination destination).host
          (occurrences files home user.2 kMaxIncludeDepth [] user.1))) := by
    have hentries : (SshConfig.ofTexts files home [user]).entries =
        append files home user.2 kMaxIncludeDepth user.1 := List.append_nil _
    apply (resolve_snoc [user] (settingText [97])).trans
    rw [hentries, huser, append_settingText hplain]
    simp [replay, settingEntry, hactive]
  have hlonger : (expected files home [user, (settingText [97], [])] destination).identityFiles =
      (expected files home [user] destination).identityFiles ++ [[97]] :=
    @expected_snoc _ _ _ _ [user] _ _ _ (occurrences_settingText hplain) fun _ hb => absurd hb List.not_mem_nil
  have hshorter : (expected files home [user] destination).identityFiles =
      (expected files home [user, (settingText [97], [])] destination).identityFiles := by
    rw [← hread, hskip, takeAll_empty]
    simp only [expected, applied, List.flatMap_singleton, Destination.target]
  rw [hlonger] at hshorter
  exact absurd (List.self_eq_append_right.1 hshorter) (List.cons_ne_nil _ _)

/-! ## Configs -/

end Ned.Editor.Remote
