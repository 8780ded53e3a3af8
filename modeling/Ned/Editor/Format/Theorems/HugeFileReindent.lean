import Ned.Editor.Format.Lemmas.HugeFileReindent

/-!
# A huge file keeps all but its indentation

The stream reindents every text when its comment prefix leaves brackets and strings as they are, and
with another prefix it takes some comment for code.
-/

namespace Ned.Editor.Format

open Text

variable {p : Bytes} {style : IndentStyle} {content preamble : Bytes}

/-! ## Runs -/

theorem reindented_eq_some_iff {text : Bytes} : reindented p style content = some text ↔
    ∃ rows last, readLines p {} (splitLines content) = some (rows, last) ∧ last.depth = 0 ∧
      last.string = none ∧ (rows.map (indentLine style)).flatten = text := by
  unfold reindented
  cases readLines p {} (splitLines content) with
  | none => simp
  | some read =>
      obtain ⟨rows, depth, string⟩ := read
      cases depth with
      | zero => cases string <;> simp
      | succ depth => cases string <;> simp

variable (preamble) in
/-- A run succeeds on the texts that can be indented, and writes them. -/
theorem stream_reindents (hp : Neutral p) (hwhite : ∀ c ∈ p, isWhitespace c = false)
    (hshallow : Shallow p style content) {chunks : List Bytes} (hchunks : chunks.flatten = content) :
    ((streamHugeReindent chunks p style preamble).1.success = true ↔
      (reindented p style content).isSome = true) ∧
      ∀ text, reindented p style content = some text →
        (streamHugeReindent chunks p style preamble).2 = preamble ++ text := by
  obtain ⟨hpassed, hfailed⟩ :=
    streamHugeReindent_eq p style preamble hchunks
  have hstarts : Starts p .lineStart ({} : Reading) := .lineStart
  obtain ⟨hnone, hsome⟩ := hstarts.lines style hp hwhite (lined_splitLines content) preamble
  rw [flatten_splitLines] at hnone hsome
  cases hread : readLines p {} (splitLines content) with
  | none =>
      have hnothing : reindented p style content = none := by simp [reindented, hread]
      rw [hfailed (hnone hread), hnothing]
      refine ⟨by simp, fun text htext => ?_⟩
      cases htext
  | some read =>
      obtain ⟨rows, last⟩ := read
      obtain ⟨phase, written, hfeed, hwritten, hstring⟩ := hsome rows last hread
      obtain ⟨hsuccess, hout⟩ := hpassed _ hfeed
      rw [hsuccess, hout, hwritten fun row hrow => hshallow rows last hread row hrow]
      refine ⟨?_, fun text htext => ?_⟩
      · rw [Option.isSome_iff_exists]
        simp only [reindented_eq_some_iff, hread, hstring, ne_eq, not_not]
        constructor
        · rintro ⟨hdepth, hclosed⟩
          exact ⟨_, rows, last, rfl, hdepth, hclosed, rfl⟩
        · rintro ⟨text, rows', last', heq, hdepth, hclosed, -⟩
          cases heq
          exact ⟨hdepth, hclosed⟩
      · obtain ⟨rows', last', heq, -, -, hflatten⟩ := reindented_eq_some_iff.1 htext
        rw [hread] at heq
        cases heq
        rw [hflatten]

theorem reindented_idem (hwhite : ∀ c ∈ p, isWhitespace c = false)
    (hshallow : Shallow p style content) {text : Bytes}
    (h : reindented p style content = some text) :
    reindented p style text = some text ∧ Shallow p style text := by
  obtain ⟨rows, last, hread, hdepth, hclosed, rfl⟩ := reindented_eq_some_iff.1 h
  obtain ⟨rows', hlined, hflatten, hread', hindent, hfrom⟩ :=
    readLines_indented style hwhite (lined_splitLines content) hread
  have hlines : splitLines (rows.map (indentLine style)).flatten = rows'.map (·.2) := by
    rw [← hflatten, hlined.splitLines_flatten]
  refine ⟨reindented_eq_some_iff.2 ⟨rows', last, ?_, hdepth, hclosed, ?_⟩, ?_⟩
  · rw [hlines, hread']
  · rw [hindent, hflatten]
  · intro rows'' last'' hread'' row' hrow'
    rw [hlines, hread'] at hread''
    cases hread''
    obtain ⟨row, hrow, heq⟩ := hfrom row' hrow'
    rw [heq]
    exact hshallow rows last hread row hrow

theorem Neutral.reindents (hp : Neutral p) (hwhite : ∀ c ∈ p, isWhitespace c = false)
    (hshallow : Shallow p style content) : Reindents p style content where
  success_iff _ _ hchunks := (stream_reindents _ hp hwhite hshallow hchunks).1
  output _ _ text hchunks htext := (stream_reindents _ hp hwhite hshallow hchunks).2 text htext
  again chunks preamble text htext hchunks := by
    obtain ⟨hidem, hshallow'⟩ := reindented_idem hwhite hshallow htext
    obtain ⟨hsuccess, hout⟩ := stream_reindents preamble hp hwhite hshallow' hchunks
    exact ⟨hsuccess.2 (by rw [hidem]; rfl), hout text hidem⟩

/-! ## Prefixes that are not read as comments -/

theorem isBlank_of_not_white {c : UInt8} (h : isWhitespace c = false) : isBlank c = false := by
  simp only [isWhitespace, Bool.or_eq_false_iff, beq_eq_false_iff_ne] at h
  simp only [isBlank, Bool.or_eq_false_iff, beq_eq_false_iff_ne]
  refine ⟨h.1, ?_⟩
  rintro rfl
  exact absurd h.2 (by decide)

theorem ne_newline_of_not_white {c : UInt8} (h : isWhitespace c = false) : c ≠ newline := by
  rintro rfl
  cases h

theorem hold_short (recent : Bytes) (h : recent.length < p.length) (c : UInt8) :
    Pass.hold p recent c = recent ++ [c] := by
  have hempty : p.isEmpty = false :=
    List.isEmpty_eq_false_iff.2 (List.length_pos_iff.1 (Nat.lt_of_le_of_lt (Nat.zero_le _) h))
  have hzero : (recent ++ [c]).length - p.length = 0 := by
    rw [List.length_append, List.length_singleton]
    omega
  rw [Pass.hold, hempty, if_neg Bool.false_ne_true, hzero, List.drop_zero]

theorem feedAll_short {y recent : Bytes} (hy : ∀ c ∈ y, isQuote c = false ∧ c ≠ newline)
    (hlength : recent.length + y.length < p.length) (depth : Nat) (written : Bytes) :
    Pass.feedAll p style ⟨.code recent, depth, written⟩ y =
      (codeDepth depth y).map fun depth => ⟨.code (recent ++ y), depth, written ++ y⟩ := by
  induction y generalizing recent depth written with
  | nil => simp [codeDepth]
  | cons c y ih =>
      obtain ⟨⟨hquote, hne⟩, htail⟩ := List.forall_mem_cons.1 hy
      rw [List.length_cons] at hlength
      have hheld := hold_short (p := p) recent (by omega) c
      have hnomatch : (!p.isEmpty && recent ++ [c] == p) = false := by
        have hdiffer : recent ++ [c] ≠ p := by
          rintro rfl
          simp at hlength
        simp [hdiffer]
      have hend : (c == newline) = false := beq_eq_false_iff_ne.2 hne
      have hmore : (recent ++ [c]).length + y.length < p.length := by
        rw [List.length_append, List.length_singleton]
        omega
      have hcode : recent ++ c :: y = recent ++ [c] ++ y := by simp
      have hwritten : written ++ c :: y = written ++ [c] ++ y := by simp
      rw [feedAll_cons, hcode, hwritten]
      unfold codeDepth
      simp only [Pass.feed, Pass.readCode, hheld, hnomatch, hquote, hend, Bool.false_eq_true, if_false]
      split
      · exact ih htail hmore _ _
      · split
        · split
          · rfl
          · exact ih htail hmore _ _
        · exact ih htail hmore _ _

/-- The machine holds few bytes and is in no comment. -/
def Phase.Short (n : Nat) : Phase → Prop
  | .lineStart => True
  | .code recent => recent.length ≤ n
  | .comment => False
  | .string quote _ recent => isQuote quote = true ∧ recent.length ≤ n

theorem feed_short {pass pass' : Pass} {n : Nat} {c : UInt8} (h : pass.phase.Short n)
    (hn : n + 1 < p.length) (hfeed : Pass.feed p style pass c = some pass') :
    pass'.phase.Short (n + 1) := by
  have hcode : ∀ recent : Bytes, recent.length ≤ n → ∀ pass : Pass,
      Pass.readCode p recent pass c = some pass' → pass'.phase.Short (n + 1) := by
    intro recent hrecent pass hread
    have hheld := hold_short (p := p) recent (by omega) c
    have hdiffer : recent ++ [c] ≠ p := by
      rintro rfl
      rw [List.length_append, List.length_singleton] at hn
      omega
    have hnomatch : (!p.isEmpty && recent ++ [c] == p) = false := by simp [hdiffer]
    have hlength : (recent ++ [c]).length ≤ n + 1 := by
      rw [List.length_append, List.length_singleton]
      omega
    unfold Pass.readCode at hread
    simp only [hheld, hnomatch, Bool.false_eq_true, if_false] at hread
    split at hread
    · rename_i hquote
      cases hread
      exact ⟨hquote, hlength⟩
    · split at hread
      · cases hread
        exact hlength
      · split at hread
        · split at hread
          · cases hread
          · cases hread
            exact hlength
        · split at hread
          · cases hread
            trivial
          · cases hread
            exact hlength
  obtain ⟨phase, depth, written⟩ := pass
  unfold Pass.feed at hfeed
  cases phase with
  | lineStart =>
      simp only at hfeed
      split at hfeed
      · cases hfeed
        trivial
      · split at hfeed
        · cases hfeed
          trivial
        · exact hcode [] (Nat.zero_le _) _ hfeed
  | code recent => exact hcode recent h _ hfeed
  | comment => exact h.elim
  | string quote escaped recent =>
      obtain ⟨hquote, hlength⟩ := h
      cases hfeed
      simp only
      split
      · exact ⟨hquote, Nat.le_succ_of_le hlength⟩
      · split
        · exact ⟨hquote, Nat.le_succ_of_le hlength⟩
        · split
          · exact Nat.le_succ_of_le hlength
          · exact ⟨hquote, Nat.le_succ_of_le hlength⟩

theorem feedAll_stays_short {bytes : Bytes} {pass pass' : Pass} {n : Nat} (h : pass.phase.Short n)
    (hn : n + bytes.length < p.length) (hfeed : Pass.feedAll p style pass bytes = some pass') :
    pass'.phase.Short (n + bytes.length) := by
  induction bytes generalizing pass n with
  | nil =>
      cases hfeed
      exact h
  | cons c bytes ih =>
      rw [feedAll_cons] at hfeed
      rw [List.length_cons] at hn ⊢
      obtain ⟨next, hnext, hrest⟩ := Option.bind_eq_some_iff.1 hfeed
      have hstep := feed_short h (by omega) hnext
      have hmore := ih hstep (by omega) hrest
      rwa [Nat.add_assoc, Nat.add_comm 1] at hmore

theorem Phase.Short.bracket {pass : Pass} {n : Nat} {c : UInt8} (h : pass.phase.Short n)
    (hn : n < p.length) (hc : c = 40 ∨ c = 91) (hlast : p.getLast? ≠ some c) {pass' : Pass}
    (hfeed : Pass.feed p style pass c = some pass') : pass'.depth ≠ 0 ∨ pass'.phase.InString := by
  have hopener : isOpener c = true := by rcases hc with rfl | rfl <;> rfl
  have hquote : isQuote c = false := by rcases hc with rfl | rfl <;> rfl
  have hcode : ∀ recent : Bytes, recent.length ≤ n → ∀ pass : Pass,
      Pass.readCode p recent pass c = some pass' → pass'.depth ≠ 0 := by
    intro recent hrecent pass hread
    have hheld := hold_short (p := p) recent (by omega) c
    have hdiffer : recent ++ [c] ≠ p := by
      rintro rfl
      exact hlast (by simp)
    have hnomatch : (!p.isEmpty && recent ++ [c] == p) = false := by simp [hdiffer]
    unfold Pass.readCode at hread
    simp only [hheld, hnomatch, hquote, hopener, Bool.false_eq_true, if_false, if_true] at hread
    cases hread
    exact Nat.succ_ne_zero _
  obtain ⟨phase, depth, written⟩ := pass
  unfold Pass.feed at hfeed
  cases phase with
  | lineStart =>
      have hblank : isBlank c = false := by rcases hc with rfl | rfl <;> rfl
      have hend : (c == newline) = false := by rcases hc with rfl | rfl <;> rfl
      simp only [hblank, hend, Bool.false_eq_true, if_false] at hfeed
      exact .inl (hcode [] (Nat.zero_le _) _ hfeed)
  | code recent => exact .inl (hcode recent h _ hfeed)
  | comment => exact h.elim
  | string quote escaped recent =>
      have hne : (c == quote) = false := by
        rw [beq_eq_false_iff_ne]
        rintro rfl
        exact Bool.false_ne_true (hquote.symm.trans h.1)
      have hslash : (c == backslash) = false := by rcases hc with rfl | rfl <;> rfl
      simp only [hne, hslash, Bool.false_eq_true, if_false, ite_self] at hfeed
      cases hfeed
      exact .inr trivial

/-- A text of one comment alone is written as it is. -/
theorem reindented_comment (hne : p ≠ []) (hwhite : ∀ c ∈ p, isWhitespace c = false)
    {more : Bytes} (hmore : newline ∉ more) :
    (reindented p style (p ++ more)).isSome = true ∧ Shallow p style (p ++ more) := by
  have hline : Unterminated (p ++ more) := by
    refine ⟨by simp [hne], fun hmem => ?_⟩
    rcases List.mem_append.1 hmem with hmem | hmem
    · cases hwhite newline hmem
    · exact hmore hmem
  have hread : readLine p {} (p ++ more) = some {} := by
    cases hp : p with
    | nil => exact absurd hp hne
    | cons c rest =>
        have hcomment : c :: rest ≠ [] ∧ c :: rest <+: c :: (rest ++ more) :=
          ⟨List.cons_ne_nil _ _, more, rfl⟩
        rw [List.cons_append, readLine]
        simp only [if_pos hcomment]
  have hrows : readLines p {} (splitLines (p ++ more)) = some ([({}, p ++ more)], {}) := by
    rw [splitLines_unterminated hline]
    simp [readLines, hread]
  refine ⟨?_, fun rows last hrows' row hrow => ?_⟩
  · rw [Option.isSome_iff_exists]
    exact ⟨_, reindented_eq_some_iff.2 ⟨_, _, hrows, rfl, rfl, rfl⟩⟩
  · rw [hrows] at hrows'
    cases hrows'
    rw [List.mem_singleton.1 hrow]
    simp [Reading.Shallow]

/-- Where every text is reindented as it should be, a comment ends well. -/
theorem feedAll_comment_of_reindents
    (h : ∀ style content, Shallow p style content → Reindents p style content) (hne : p ≠ [])
    (hwhite : ∀ c ∈ p, isWhitespace c = false) {more : Bytes} (hmore : newline ∉ more) :
    ∃ pass, Pass.feedAll p {} { written := [] } (p ++ more) = some pass ∧ pass.depth = 0 ∧
      ¬pass.phase.InString := by
  obtain ⟨hsome, hshallow⟩ := @reindented_comment p {} hne hwhite more hmore
  obtain ⟨hpassed, hfailed⟩ := streamHugeReindent_eq p {} [] (List.flatten_singleton (l := p ++ more))
  have hsuccess := ((h {} _ hshallow).success_iff [p ++ more] [] (List.flatten_singleton)).2 hsome
  cases hfeed : Pass.feedAll p {} { written := [] } (p ++ more) with
  | none =>
      rw [hfailed hfeed] at hsuccess
      cases hsuccess
  | some pass =>
      obtain ⟨hdepth, hphase⟩ := (hpassed pass hfeed).1.1 hsuccess
      exact ⟨pass, rfl, hdepth, hphase⟩

theorem exists_first_quote {bytes : Bytes} (h : ¬∀ c ∈ bytes, isQuote c = false) :
    ∃ a q b, bytes = a ++ q :: b ∧ (∀ c ∈ a, isQuote c = false) ∧ isQuote q = true := by
  induction bytes with
  | nil => exact absurd (by simp) h
  | cons c bytes ih =>
      cases hquote : isQuote c with
      | true => exact ⟨[], c, bytes, rfl, by simp, hquote⟩
      | false =>
          have hrest : ¬∀ d ∈ bytes, isQuote d = false := fun hall =>
            h (List.forall_mem_cons.2 ⟨hquote, hall⟩)
          obtain ⟨a, q, b, rfl, ha, hq⟩ := ih hrest
          exact ⟨c :: a, q, b, rfl, List.forall_mem_cons.2 ⟨hquote, ha⟩, hq⟩

theorem short_of_quote {a b : Bytes} {q x : UInt8} (hp : p = a ++ q :: x :: b)
    (ha : ∀ c ∈ a, isQuote c = false ∧ c ≠ newline) (hq : isQuote q = true) {written : Bytes}
    {pass : Pass} (hfeed : Pass.feedAll p style ⟨.code [], 0, written⟩ p = some pass) :
    pass.phase.Short (p.length - 1) := by
  have hlength : p.length = a.length + 1 + b.length + 1 := by
    rw [hp]
    simp only [List.length_append, List.length_cons]
    omega
  have hlead : ([] : Bytes).length + a.length < p.length := by
    rw [List.length_nil]
    omega
  have hsplit := hfeed
  conv at hsplit => lhs; arg 4; rw [hp]
  rw [feedAll_append, feedAll_short ha hlead] at hsplit
  obtain ⟨next, hnext, hrest⟩ := Option.bind_eq_some_iff.1 hsplit
  obtain ⟨depth, -, rfl⟩ := Option.map_eq_some_iff.1 hnext
  rw [feedAll_cons] at hrest
  obtain ⟨opened, hopened, hinner⟩ := Option.bind_eq_some_iff.1 hrest
  rw [feedAll_cons] at hinner
  obtain ⟨inside, hinside, hlast⟩ := Option.bind_eq_some_iff.1 hinner
  have hheld := hold_short (p := p) ([] ++ a) (by simpa using hlead) q
  have hdiffer : [] ++ a ++ [q] ≠ p := by
    rw [hp]
    simp
  have hnomatch : (!p.isEmpty && [] ++ a ++ [q] == p) = false := by
    rw [beq_eq_false_iff_ne.2 hdiffer, Bool.and_false]
  unfold Pass.feed Pass.readCode at hopened
  simp only [hheld, hnomatch, hq, Bool.false_eq_true, if_false, if_true] at hopened
  cases hopened
  have hshort : ([] ++ a ++ [q] : Bytes).length ≤ a.length + 1 := by simp
  have hstring : inside.phase.Short (a.length + 1) := by
    unfold Pass.feed at hinside
    cases hinside
    simp only
    split
    · exact ⟨hq, hshort⟩
    · split
      · exact ⟨hq, hshort⟩
      · split
        · exact hshort
        · exact ⟨hq, hshort⟩
  have hend := feedAll_stays_short hstring (by omega) hlast
  rwa [show a.length + 1 + b.length = p.length - 1 by omega] at hend

theorem neutral_of_reindents (hwhite : ∀ c ∈ p, isWhitespace c = false)
    (h : ∀ style content, Shallow p style content → Reindents p style content) : Neutral p := by
  by_cases hne : p = []
  · subst hne
    exact ⟨by simp, rfl⟩
  have hlast : p.dropLast ++ [p.getLast hne] = p := List.dropLast_concat_getLast hne
  have hplain : ∀ c ∈ p.dropLast, c ≠ newline := fun c hc =>
    ne_newline_of_not_white (hwhite c (List.dropLast_subset _ hc))
  -- the indentation in front of the first byte is empty, and the line is read as code
  have hstart : ∀ more : Bytes, ∃ written, Pass.feedAll p {} { written := [] } (p ++ more) =
      Pass.feedAll p {} ⟨.code [], 0, written⟩ (p ++ more) := by
    intro more
    cases hp : p with
    | nil => exact absurd hp hne
    | cons c rest =>
        have hc := hwhite c (by simp [hp])
        exact ⟨_, feedAll_lineStart (isBlank_of_not_white hc) (ne_newline_of_not_white hc) 0 [] _⟩
  have hquotes : ∀ c ∈ p.dropLast, isQuote c = false := by
    by_contra hquote
    obtain ⟨a, q, b, hsplit, ha, hq⟩ := exists_first_quote hquote
    obtain ⟨x, rest, hrest⟩ : ∃ x rest, b ++ [p.getLast hne] = x :: rest :=
      List.exists_cons_of_ne_nil (by simp)
    have hp : p = a ++ q :: x :: rest :=
      calc p = p.dropLast ++ [p.getLast hne] := hlast.symm
        _ = a ++ q :: (b ++ [p.getLast hne]) := by rw [hsplit]; simp
        _ = a ++ q :: x :: rest := by rw [hrest]
    -- an opening bracket other than the last byte
    obtain ⟨c, hc, hdiffer⟩ : ∃ c : UInt8, (c = 40 ∨ c = 91) ∧ p.getLast? ≠ some c := by
      by_cases hparen : p.getLast? = some 40
      · exact ⟨91, .inr rfl, by rw [hparen]; decide⟩
      · exact ⟨40, .inl rfl, hparen⟩
    have hmore : newline ∉ [c] := by
      rw [List.mem_singleton]
      rcases hc with rfl | rfl <;> decide
    obtain ⟨pass, hfeed, hdepth, hphase⟩ := feedAll_comment_of_reindents h hne hwhite hmore
    obtain ⟨written, hcode⟩ := hstart [c]
    rw [hcode, feedAll_append] at hfeed
    obtain ⟨middle, hmiddle, hfinal⟩ := Option.bind_eq_some_iff.1 hfeed
    have hshort := short_of_quote hp
      (fun d hd => ⟨ha d hd, hplain d (by rw [hsplit]; exact List.mem_append_left _ hd)⟩) hq hmiddle
    rw [feedAll_cons] at hfinal
    obtain ⟨last, hlastfeed, heq⟩ := Option.bind_eq_some_iff.1 hfinal
    cases heq
    have hpos : p.length - 1 < p.length := Nat.sub_lt (List.length_pos_iff.2 hne) Nat.one_pos
    rcases hshort.bracket hpos hc hdiffer hlastfeed with hdeep | hstring
    · exact hdeep hdepth
    · exact hphase hstring
  refine ⟨hquotes, ?_⟩
  obtain ⟨pass, hfeed, hdepth, -⟩ :=
    feedAll_comment_of_reindents h hne hwhite (List.not_mem_nil (a := newline))
  obtain ⟨written, hcode⟩ := hstart []
  rw [hcode, List.append_nil] at hfeed
  conv at hfeed => lhs; arg 4; rw [← hlast]
  have hlead : ([] : Bytes).length + p.dropLast.length < p.length := by
    rw [List.length_nil, List.length_dropLast]
    have hpos := List.length_pos_iff.2 hne
    omega
  rw [feedAll_append, feedAll_short (fun c hc => ⟨hquotes c hc, hplain c hc⟩) hlead] at hfeed
  obtain ⟨lead, hleadfeed, hend⟩ := Option.bind_eq_some_iff.1 hfeed
  obtain ⟨depth, hcodeDepth, rfl⟩ := Option.map_eq_some_iff.1 hleadfeed
  rw [feedAll_cons] at hend
  obtain ⟨last, hlastfeed, heq⟩ := Option.bind_eq_some_iff.1 hend
  cases heq
  have hheld : Pass.hold p ([] ++ p.dropLast) (p.getLast hne) = p := by
    rw [hold_short _ (by simpa using hlead), List.nil_append, hlast]
  have hempty : p.isEmpty = false := List.isEmpty_eq_false_iff.2 hne
  unfold Pass.feed Pass.readCode at hlastfeed
  simp only [hheld, hempty, Bool.not_false, Bool.true_and, beq_self_eq_true, if_true] at hlastfeed
  cases hlastfeed
  rw [hcodeDepth, show depth = 0 from hdepth]

end Ned.Editor.Format
