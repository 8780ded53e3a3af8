import Ned.Editor.Vcs.DiffPatch
import Ned.Text.Lemmas.Lines
import Mathlib.Data.List.Induction

/-!
# Reading a unified diff

The hunks that are read from the text of a diff are those it was written from.
-/

namespace Ned.Editor.Vcs

open Text

variable {text rest marker : Bytes} {lines : List Line} {n value : Nat} {c : UInt8}

/-! ## Numbers -/

theorem decimal_of_lt (h : n < 10) : decimal n = [UInt8.ofNat (48 + n)] := by
  rw [decimal, if_pos h]

theorem decimal_of_ge (h : ¬n < 10) :
    decimal n = decimal (n / 10) ++ [UInt8.ofNat (48 + n % 10)] := by
  rw [decimal, if_neg h]

theorem digit_toNat (h : n < 10) : (UInt8.ofNat (48 + n)).toNat = 48 + n := by
  rw [UInt8.toNat_ofNat', Nat.mod_eq_of_lt (by omega)]

theorem isDigit_digit (h : n < 10) : isDigit (UInt8.ofNat (48 + n)) = true := by
  have hnat := digit_toNat h
  simp only [isDigit, Bool.and_eq_true, decide_eq_true_eq, UInt8.le_iff_toNat_le, hnat]
  exact ⟨Nat.le_add_right _ _, by show 48 + n ≤ 57; omega⟩

theorem isDigit_of_mem_decimal (h : c ∈ decimal n) : isDigit c = true := by
  induction n using Nat.strongRecOn with
  | ind n ih =>
      by_cases hlt : n < 10
      · rw [decimal_of_lt hlt, List.mem_singleton] at h
        rw [h]
        exact isDigit_digit hlt
      · rw [decimal_of_ge hlt, List.mem_append, List.mem_singleton] at h
        rcases h with h | rfl
        · exact ih _ (Nat.div_lt_self (by omega) (by decide)) h
        · exact isDigit_digit (Nat.mod_lt _ (by decide))

theorem decimal_ne_nil (n : Nat) : decimal n ≠ [] := by
  by_cases hlt : n < 10
  · rw [decimal_of_lt hlt]
    exact List.cons_ne_nil _ _
  · rw [decimal_of_ge hlt]
    exact List.append_ne_nil_of_right_ne_nil _ (List.cons_ne_nil _ _)

theorem parseDigits_digit (h : n < 10) :
    parseDigits value (UInt8.ofNat (48 + n) :: text) = parseDigits (value * 10 + n) text := by
  rw [parseDigits, if_pos (isDigit_digit h), digit_toNat h, Nat.add_sub_cancel_left]

theorem parseDigits_decimal : ∃ scale, ∀ text,
    parseDigits value (decimal n ++ text) = parseDigits (value * scale + n) text := by
  induction n using Nat.strongRecOn generalizing value with
  | ind n ih =>
      by_cases hlt : n < 10
      · refine ⟨10, fun text => ?_⟩
        rw [decimal_of_lt hlt]
        exact parseDigits_digit hlt
      · obtain ⟨scale, hscale⟩ := @ih (n / 10) (Nat.div_lt_self (by omega) (by decide)) value
        refine ⟨scale * 10, fun text => ?_⟩
        have hsum : (value * scale + n / 10) * 10 + n % 10 = value * (scale * 10) + n := by
          rw [Nat.add_mul, Nat.add_assoc, Nat.div_add_mod', Nat.mul_assoc]
        rw [decimal_of_ge hlt, List.append_assoc, hscale, List.singleton_append,
          parseDigits_digit (Nat.mod_lt _ (by decide)), hsum]

theorem parseNumber_decimal (h : (text.head?).any isDigit = false) :
    parseNumber (decimal n ++ text) = some (n, text) := by
  obtain ⟨d, digits, hdigits⟩ := List.exists_cons_of_ne_nil (decimal_ne_nil n)
  have hd : isDigit d = true := isDigit_of_mem_decimal (n := n) (hdigits ▸ List.mem_cons_self)
  have hhead : ((decimal n ++ text).head?).any isDigit = true := by
    rw [hdigits]
    exact hd
  obtain ⟨scale, hscale⟩ := @parseDigits_decimal n 0
  have hstop : ∀ value, parseDigits value text = (value, text) := by
    intro value
    cases text with
    | nil => rfl
    | cons c text =>
        have hc : isDigit c = false := h
        rw [parseDigits, if_neg (by simp [hc])]
  rw [parseNumber, if_pos hhead, hscale, hstop, Nat.zero_mul, Nat.zero_add]

/-! ## Headers -/

theorem afterFirst_skip {c : UInt8} {marker xs : Bytes} (h : c ∉ xs) :
    afterFirst (c :: marker) (xs ++ text) = afterFirst (c :: marker) text := by
  induction xs with
  | nil => rfl
  | cons x xs ih =>
      obtain ⟨hx, hxs⟩ := not_or.1 (mt List.mem_cons.2 h)
      have hnot : (c :: marker).isPrefixOf (x :: (xs ++ text)) = false := by
        simp [List.isPrefixOf, hx]
      rw [List.cons_append, afterFirst, hnot, if_neg Bool.false_ne_true, ih hxs]

theorem afterFirst_here {c : UInt8} {marker : Bytes} :
    afterFirst (c :: marker) (c :: marker ++ text) = some text := by
  have hhere : (c :: marker).isPrefixOf (c :: (marker ++ text)) = true := by
    rw [List.isPrefixOf_iff_prefix]
    exact List.prefix_append (c :: marker) text
  rw [List.cons_append, afterFirst, if_pos hhere, List.length_cons, List.drop_succ_cons,
    List.drop_left]

theorem space_not_mem_range (before count : Nat) (shown : Bool) : 32 ∉ Hunk.range before count shown := by
  have hdecimal : ∀ n, (32 : UInt8) ∉ decimal n := fun n h => by
    have := isDigit_of_mem_decimal h
    exact absurd this (by decide)
  rw [Hunk.range, List.mem_append]
  rintro (h | h)
  · exact hdecimal _ h
  · split at h
    · exact absurd h List.not_mem_nil
    · rcases List.mem_cons.1 h with h | h
      · exact absurd h (by decide)
      · exact hdecimal _ h

/-- One side of a header, read behind its marker. -/
def rangeOf (before count : Nat) : CountedRange where
  start := if count = 0 then before else before + 1
  count := count

theorem parse_range (before count : Nat) (shown : Bool) {headerLine : Bytes}
    (hmarker : afterFirst marker headerLine = some (Hunk.range before count shown ++ 32 :: rest)) :
    parseCountedRange headerLine marker = some (rangeOf before count) := by
  have hspace : ((32 :: rest : Bytes).head?).any isDigit = false := rfl
  rw [parseCountedRange, hmarker]
  simp only [Option.bind_eq_bind, Option.bind_some, Hunk.range, List.append_assoc]
  by_cases hshort : count = 1 ∧ shown = false
  · rw [if_pos hshort, List.nil_append, parseNumber_decimal hspace]
    have hcomma : ¬(32 : UInt8) = 44 := by decide
    simp [hcomma, hshort.1, rangeOf]
  · have hcomma : ((44 :: (decimal count ++ 32 :: rest) : Bytes).head?).any isDigit = false := rfl
    rw [if_neg hshort, List.cons_append, parseNumber_decimal hcomma]
    simp [parseNumber_decimal hspace, rangeOf]

/-! ## Lines -/

@[simp] theorem lineText_append_newline (text : Bytes) : lineText (text ++ [newline]) = text := by
  rw [lineText, List.getLast?_concat, if_pos rfl, List.dropLast_concat]

@[simp] theorem lineText_cons_append_newline (c : UInt8) (text : Bytes) :
    lineText (c :: (text ++ [newline])) = c :: text := lineText_append_newline (c :: text)

theorem terminated_append_newline (text : LineText) : Terminated (text.1 ++ [newline]) :=
  ⟨text.1, rfl, text.2⟩

theorem terminated_cons (hc : c ≠ newline) (text : LineText) :
    Terminated (c :: (text.1 ++ [newline])) :=
  ⟨c :: text.1, rfl, fun h => (List.mem_cons.1 h).elim (fun h => hc h.symm) text.2⟩

theorem BodyLine.terminated (line : BodyLine) : Terminated line.render := by
  cases line with
  | unchanged text => exact terminated_cons (by decide) text
  | removed text => exact terminated_cons (by decide) text
  | added text => exact terminated_cons (by decide) text
  | note text => exact terminated_cons (by decide) text

theorem BodyLine.not_endsBody (line : BodyLine) : endsBody line.render = false := by
  cases line <;> simp [render, endsBody, isHunkHeader, isFileHeader, ascii, List.isPrefixOf]

theorem lined_of_terminated (h : ∀ line ∈ lines, Terminated line) : Lined lines := by
  induction lines with
  | nil => exact .nil
  | cons line lines ih =>
      exact .cons (h line List.mem_cons_self) (ih fun line' hline' => h line' (List.mem_cons_of_mem _ hline'))

theorem splitLines_body (body : List BodyLine) :
    splitLines (body.map (·.render)).flatten = body.map (·.render) := by
  refine (lined_of_terminated fun line hline => ?_).splitLines_flatten
  obtain ⟨line, -, rfl⟩ := List.mem_map.1 hline
  exact line.terminated

theorem newline_not_mem_range (before count : Nat) (shown : Bool) :
    newline ∉ Hunk.range before count shown := by
  have hdecimal : ∀ n, newline ∉ decimal n := fun n h => by
    have := isDigit_of_mem_decimal h
    exact absurd this (by decide)
  rw [Hunk.range, List.mem_append]
  rintro (h | h)
  · exact hdecimal _ h
  · split at h
    · exact absurd h List.not_mem_nil
    · rcases List.mem_cons.1 h with h | h
      · exact absurd h (by decide)
      · exact hdecimal _ h

theorem Hunk.header_terminated (hunk : Hunk) (oldBefore newBefore : Nat) :
    Terminated (hunk.header oldBefore newBefore) := by
  refine ⟨_, rfl, ?_⟩
  simp only [List.mem_append, not_or]
  exact ⟨by decide, newline_not_mem_range _ _ _, by decide, newline_not_mem_range _ _ _, by decide,
    hunk.heading.2⟩

theorem renderHunks_terminated {hunks : List Hunk} {oldBefore newBefore : Nat} :
    ∀ line ∈ renderHunks oldBefore newBefore hunks, Terminated line := by
  induction hunks generalizing oldBefore newBefore with
  | nil => exact fun line hline => absurd hline List.not_mem_nil
  | cons hunk hunks ih =>
      intro line hline
      rw [renderHunks, List.mem_cons, List.mem_append, List.mem_map] at hline
      rcases hline with rfl | ⟨line, -, rfl⟩ | hline
      · exact hunk.header_terminated _ _
      · exact line.terminated
      · exact ih line hline

theorem UnifiedDiff.splitLines_render (d : UnifiedDiff) : splitLines d.render =
    (d.preamble.map fun line => line.1 ++ [newline]) ++ renderHunks 0 0 d.hunks := by
  refine (lined_of_terminated fun line hline => ?_).splitLines_flatten
  rcases List.mem_append.1 hline with hline | hline
  · obtain ⟨text, -, rfl⟩ := List.mem_map.1 hline
    exact terminated_append_newline text
  · exact renderHunks_terminated line hline

/-! ## Hunks -/

def Hunk.read (hunk : Hunk) (currentFile : Bytes) (oldBefore newBefore : Nat) : DiffHunkText :=
  let oldRange := rangeOf (oldBefore + hunk.gap.length) (oldSide hunk.rows).length
  let newRange := rangeOf (newBefore + hunk.gap.length) (newSide hunk.rows).length
  { filePath := currentFile
    hunkHeader := lineText (hunk.header (oldBefore + hunk.gap.length) (newBefore + hunk.gap.length))
    bodyText := (hunk.body.map (·.render)).flatten
    oldStart := oldRange.start, oldCount := oldRange.count
    newStart := newRange.start, newCount := newRange.count }

def readHunks (currentFile : Bytes) (oldBefore newBefore : Nat) : List Hunk → List DiffHunkText
  | [] => []
  | hunk :: hunks =>
      hunk.read currentFile oldBefore newBefore ::
        readHunks currentFile (oldBefore + hunk.gap.length + (oldSide hunk.rows).length)
          (newBefore + hunk.gap.length + (newSide hunk.rows).length) hunks

theorem Hunk.lineText_header (hunk : Hunk) (oldBefore newBefore : Nat) :
    lineText (hunk.header oldBefore newBefore) =
      ascii ['@', '@', ' ', '-'] ++ (range oldBefore (oldSide hunk.rows).length hunk.oldCountShown ++
        (ascii [' ', '+'] ++ (range newBefore (newSide hunk.rows).length hunk.newCountShown ++
          (ascii [' ', '@', '@'] ++ hunk.heading.1)))) := lineText_append_newline _

theorem Hunk.isHunkHeader (hunk : Hunk) (oldBefore newBefore : Nat) :
    Vcs.isHunkHeader (hunk.header oldBefore newBefore) = true := by
  rw [Vcs.isHunkHeader, lineText_header]
  rfl

theorem Hunk.not_isFileHeader (hunk : Hunk) (oldBefore newBefore : Nat) :
    Vcs.isFileHeader (hunk.header oldBefore newBefore) = false := by
  rw [Vcs.isFileHeader, lineText_header]
  rfl

theorem Hunk.parseOldSideRange (hunk : Hunk) (oldBefore newBefore : Nat) :
    Vcs.parseOldSideRange (lineText (hunk.header oldBefore newBefore)) =
      some (rangeOf oldBefore (oldSide hunk.rows).length) := by
  have hmarker : afterFirst (ascii [' ', '-']) (lineText (hunk.header oldBefore newBefore)) =
      some (range oldBefore (oldSide hunk.rows).length hunk.oldCountShown ++
        32 :: (43 :: (range newBefore (newSide hunk.rows).length hunk.newCountShown ++
          (ascii [' ', '@', '@'] ++ hunk.heading.1)))) := by
    rw [lineText_header]
    exact @afterFirst_here _ 32 [45]
  exact parse_range _ _ _ hmarker

theorem Hunk.parseNewSideRange (hunk : Hunk) (oldBefore newBefore : Nat) :
    Vcs.parseNewSideRange (lineText (hunk.header oldBefore newBefore)) =
      some (rangeOf newBefore (newSide hunk.rows).length) := by
  have hmarker : afterFirst (ascii [' ', '+']) (lineText (hunk.header oldBefore newBefore)) =
      some (range newBefore (newSide hunk.rows).length hunk.newCountShown ++
        32 :: (64 :: 64 :: hunk.heading.1)) := by
    rw [lineText_header]
    have hspace := space_not_mem_range oldBefore (oldSide hunk.rows).length hunk.oldCountShown
    exact (@afterFirst_skip _ 32 [43] _ hspace).trans (@afterFirst_here _ 32 [43])
  exact parse_range _ _ _ hmarker

theorem Hunk.hunkOf (hunk : Hunk) {currentFile : Bytes} (hfile : currentFile ≠ [])
    (oldBefore newBefore : Nat) :
    Vcs.hunkOf currentFile
      (hunk.header (oldBefore + hunk.gap.length) (newBefore + hunk.gap.length))
      (hunk.body.map (·.render)) = some (hunk.read currentFile oldBefore newBefore) := by
  rw [Vcs.hunkOf, parseOldSideRange, parseNewSideRange]
  simp only [Option.bind_eq_bind, Option.bind_some]
  rw [if_neg (mt List.isEmpty_iff.1 hfile)]
  rfl

theorem span_body {body : List BodyLine} (hstop : ∀ line ∈ lines.head?, endsBody line = true) :
    (body.map (·.render) ++ lines).takeWhile (!endsBody ·) = body.map (·.render) ∧
      (body.map (·.render) ++ lines).dropWhile (!endsBody ·) = lines := by
  have hbody : ∀ line ∈ body.map (·.render), (!endsBody line) = true := by
    intro line hline
    obtain ⟨line, -, rfl⟩ := List.mem_map.1 hline
    rw [line.not_endsBody]
    rfl
  rw [List.takeWhile_append_of_pos hbody, List.dropWhile_append_of_pos hbody]
  cases lines with
  | nil => exact ⟨List.append_nil _, rfl⟩
  | cons line lines =>
      have hline := hstop line rfl
      simp [hline]

theorem hunksOf_hunk {currentFile : Bytes} {hunk : Hunk} {oldBefore newBefore : Nat}
    (hstop : ∀ line ∈ lines.head?, endsBody line = true) :
    hunksOf currentFile (hunk.header oldBefore newBefore :: (hunk.body.map (·.render) ++ lines)) =
      (hunkOf currentFile (hunk.header oldBefore newBefore) (hunk.body.map (·.render))).toList ++
        hunksOf currentFile lines := by
  obtain ⟨hbody, hrest⟩ := @span_body lines hunk.body hstop
  rw [hunksOf, if_neg (by simp [hunk.not_isFileHeader]), if_neg (by simp [hunk.isHunkHeader]), hbody,
    hrest]

theorem endsBody_renderHunks {hunks : List Hunk} {oldBefore newBefore : Nat} :
    ∀ line ∈ (renderHunks oldBefore newBefore hunks).head?, endsBody line = true := by
  intro line hline
  cases hunks with
  | nil => exact absurd hline (Option.not_mem_none line)
  | cons hunk hunks =>
      obtain rfl := Option.some.inj hline
      rw [endsBody, hunk.isHunkHeader, Bool.true_or]

theorem hunksOf_renderHunks {hunks : List Hunk} {currentFile : Bytes} {oldBefore newBefore : Nat}
    (hfile : currentFile ≠ []) : hunksOf currentFile (renderHunks oldBefore newBefore hunks) =
      readHunks currentFile oldBefore newBefore hunks := by
  induction hunks generalizing oldBefore newBefore with
  | nil => rw [renderHunks, readHunks, hunksOf]
  | cons hunk hunks ih =>
      rw [renderHunks, readHunks, hunksOf_hunk endsBody_renderHunks, hunk.hunkOf hfile, ih]
      rfl

theorem hunksOf_nowhere {hunks : List Hunk} {oldBefore newBefore : Nat} :
    hunksOf [] (renderHunks oldBefore newBefore hunks) = [] := by
  induction hunks generalizing oldBefore newBefore with
  | nil => rw [renderHunks, hunksOf]
  | cons hunk hunks ih =>
      have hnone : hunkOf [] (hunk.header (oldBefore + hunk.gap.length) (newBefore + hunk.gap.length))
          (hunk.body.map (·.render)) = none := by
        rw [hunkOf, hunk.parseOldSideRange, hunk.parseNewSideRange]
        rfl
      rw [renderHunks, hunksOf_hunk endsBody_renderHunks, hnone, ih]
      rfl

/-! ## What stands before the hunks -/

theorem isHunkHeader_text (text : Bytes) :
    isHunkHeader (text ++ [newline]) = (ascii ['@', '@', ' ']).isPrefixOf text := by
  rw [isHunkHeader, lineText_append_newline]

theorem isFileHeader_text (text : Bytes) : isFileHeader (text ++ [newline]) =
    (ascii ['d', 'i', 'f', 'f', ' ', '-', '-', 'g', 'i', 't']).isPrefixOf text := by
  rw [isFileHeader, lineText_append_newline]

theorem hunksOf_passed {passed : List LineText} {currentFile : Bytes}
    (h : ∀ line ∈ passed, (ascii ['@', '@', ' ']).isPrefixOf line.1 = false) :
    ∃ file, hunksOf currentFile ((passed.map fun line => line.1 ++ [newline]) ++ lines) =
      hunksOf file lines := by
  induction passed generalizing currentFile with
  | nil => exact ⟨currentFile, rfl⟩
  | cons line passed ih =>
      have hline := h line List.mem_cons_self
      have hrest : ∀ line ∈ passed, (ascii ['@', '@', ' ']).isPrefixOf line.1 = false :=
        fun line hmem => h line (List.mem_cons_of_mem _ hmem)
      rw [List.map_cons, List.cons_append, hunksOf]
      split
      · exact ih hrest
      · rw [if_pos (by simp [isHunkHeader_text, hline])]
        exact ih hrest

theorem hunksOf_unnamed {passed : List LineText} {currentFile : Bytes}
    (h : ∀ line ∈ passed, (ascii ['@', '@', ' ']).isPrefixOf line.1 = false)
    (hunnamed : ∀ line ∈ passed,
      (ascii ['d', 'i', 'f', 'f', ' ', '-', '-', 'g', 'i', 't']).isPrefixOf line.1 = false) :
    hunksOf currentFile ((passed.map fun line => line.1 ++ [newline]) ++ lines) =
      hunksOf currentFile lines := by
  induction passed with
  | nil => rfl
  | cons line passed ih =>
      rw [List.map_cons, List.cons_append, hunksOf,
        if_neg (by simp [isFileHeader_text, hunnamed line List.mem_cons_self]),
        if_pos (by simp [isHunkHeader_text, h line List.mem_cons_self])]
      exact ih (fun line hmem => h line (List.mem_cons_of_mem _ hmem))
        fun line hmem => hunnamed line (List.mem_cons_of_mem _ hmem)

theorem afterLast_sound {found : Bytes} (h : afterLast marker text = some found) :
    ∃ front, text = front ++ marker ++ found := by
  induction text with
  | nil =>
      rw [afterLast] at h
      split at h
      · rename_i hempty
        obtain rfl := List.isEmpty_iff.1 hempty
        obtain rfl := Option.some.inj h
        exact ⟨[], rfl⟩
      · cases h
  | cons c text ih =>
      rw [afterLast] at h
      split at h
      · rename_i later hlater
        obtain rfl := Option.some.inj h
        obtain ⟨front, hfront⟩ := ih hlater
        exact ⟨c :: front, by rw [hfront]; rfl⟩
      · split at h
        · rename_i hhere
          obtain ⟨behind, hbehind⟩ := List.isPrefixOf_iff_prefix.1 hhere
          obtain rfl := Option.some.inj h
          rw [← hbehind, List.drop_left]
          exact ⟨[], rfl⟩
        · cases h

theorem afterLast_isSome (front found : Bytes) :
    (afterLast marker (front ++ (marker ++ found))).isSome = true := by
  induction front with
  | nil =>
      rw [List.nil_append]
      cases hall : marker ++ found with
      | nil =>
          obtain ⟨rfl, rfl⟩ := List.append_eq_nil_iff.1 hall
          rfl
      | cons c text =>
          have hhere : marker.isPrefixOf (c :: text) = true := by
            rw [← hall, List.isPrefixOf_iff_prefix]
            exact List.prefix_append marker found
          rw [afterLast]
          split
          · rfl
          · rw [if_pos hhere]
            rfl
  | cons c front ih =>
      obtain ⟨later, hlater⟩ := Option.isSome_iff_exists.1 ih
      rw [List.cons_append, afterLast, hlater]
      rfl

theorem parseGitDiffFilePath_ne_nil {front path : Bytes} (hpath : path ≠ [])
    (hlast : path.getLast? ≠ some 47) :
    parseGitDiffFilePath (front ++ (ascii [' ', 'b', '/'] ++ path)) ≠ [] := by
  obtain ⟨found, hfound⟩ :=
    Option.isSome_iff_exists.1 (@afterLast_isSome (ascii [' ', 'b', '/']) front path)
  rw [parseGitDiffFilePath, hfound, Option.getD_some]
  rintro rfl
  obtain ⟨front', hfront'⟩ := afterLast_sound hfound
  have hend := congrArg List.getLast? hfront'
  rw [List.append_nil, List.getLast?_append, List.getLast?_append, List.getLast?_append] at hend
  obtain ⟨c, hc⟩ := Option.isSome_iff_exists.1 (List.getLast?_isSome.2 hpath)
  rw [hc] at hend hlast
  exact hlast hend

theorem UnifiedDiff.NamesFile.parseDiffHunks {d : UnifiedDiff} (h : d.NamesFile) :
    ∃ currentFile, Vcs.parseDiffHunks d.render = readHunks currentFile 0 0 d.hunks := by
  obtain ⟨earlier, later, left, path, header, hpreamble, hheader, hpath, hlast, hunnamed⟩ := h
  have hnone := d.noHunkBefore
  rw [hpreamble] at hnone
  have hearlier : ∀ line ∈ earlier, (ascii ['@', '@', ' ']).isPrefixOf line.1 = false :=
    fun line hline => hnone line (List.mem_append_left _ hline)
  have hlater : ∀ line ∈ later, (ascii ['@', '@', ' ']).isPrefixOf line.1 = false :=
    fun line hline => hnone line (List.mem_append_right _ (List.mem_cons_of_mem _ hline))
  have hnames : isFileHeader (header.1 ++ [newline]) = true := by
    rw [isFileHeader_text, hheader]
    rfl
  have hfile : parseGitDiffFilePath (lineText (header.1 ++ [newline])) ≠ [] := by
    rw [lineText_append_newline, hheader, List.append_assoc]
    exact parseGitDiffFilePath_ne_nil hpath hlast
  refine ⟨parseGitDiffFilePath (lineText (header.1 ++ [newline])), ?_⟩
  rw [Vcs.parseDiffHunks, d.splitLines_render, hpreamble, List.map_append, List.map_cons,
    List.append_assoc]
  obtain ⟨file, hpassed⟩ := hunksOf_passed hearlier
  rw [hpassed, List.cons_append, hunksOf, if_pos hnames, hunksOf_unnamed hlater hunnamed,
    hunksOf_renderHunks hfile]

end Ned.Editor.Vcs

/-!
## Walking a hunk

The walk over a body, row by row: where it stands after some rows, what it returns at a row, and that it
returns more for later lines.
-/

namespace Ned.Editor.Vcs

open Text

/-! ## Rows -/

variable {rows rows' : List Row} {w : Walk} {newLine newLine' result result' : Nat}

@[simp] theorem oldSide_append (rows rows' : List Row) :
    oldSide (rows ++ rows') = oldSide rows ++ oldSide rows' :=
  List.filterMap_append

@[simp] theorem newSide_append (rows rows' : List Row) :
    newSide (rows ++ rows') = newSide rows ++ newSide rows' :=
  List.filterMap_append

section

variable (text : LineText) (texts : List LineText)

@[simp] theorem oldSide_nil : oldSide [] = [] := rfl

@[simp] theorem newSide_nil : newSide [] = [] := rfl

@[simp] theorem oldSide_unchanged : oldSide (.unchanged text :: rows) = text :: oldSide rows := rfl

@[simp] theorem oldSide_removed : oldSide (.removed text :: rows) = text :: oldSide rows := rfl

@[simp] theorem oldSide_added : oldSide (.added text :: rows) = oldSide rows := rfl

@[simp] theorem oldSide_edge : oldSide (.edge :: rows) = oldSide rows := rfl

@[simp] theorem newSide_unchanged : newSide (.unchanged text :: rows) = text :: newSide rows := rfl

@[simp] theorem newSide_removed : newSide (.removed text :: rows) = newSide rows := rfl

@[simp] theorem newSide_added : newSide (.added text :: rows) = text :: newSide rows := rfl

@[simp] theorem newSide_edge : newSide (.edge :: rows) = newSide rows := rfl

@[simp] theorem oldSide_map_unchanged : oldSide (texts.map .unchanged) = texts := by
  induction texts with
  | nil => rfl
  | cons text texts ih => rw [List.map_cons, oldSide_unchanged, ih]

@[simp] theorem newSide_map_unchanged : newSide (texts.map .unchanged) = texts := by
  induction texts with
  | nil => rfl
  | cons text texts ih => rw [List.map_cons, newSide_unchanged, ih]

@[simp] theorem oldSide_map_removed : oldSide (texts.map .removed) = texts := by
  induction texts with
  | nil => rfl
  | cons text texts ih => rw [List.map_cons, oldSide_removed, ih]

@[simp] theorem newSide_map_removed : newSide (texts.map .removed) = [] := by
  induction texts with
  | nil => rfl
  | cons text texts ih => rw [List.map_cons, newSide_removed, ih]

@[simp] theorem oldSide_map_added : oldSide (texts.map .added) = [] := by
  induction texts with
  | nil => rfl
  | cons text texts ih => rw [List.map_cons, oldSide_added, ih]

@[simp] theorem newSide_map_added : newSide (texts.map .added) = texts := by
  induction texts with
  | nil => rfl
  | cons text texts ih => rw [List.map_cons, newSide_added, ih]

end

/-! ## The walk -/

def walkRows (newLine : Nat) : List Row → Walk → Option Nat
  | [], _ => none
  | .removed _ :: rows, w => walkRows newLine rows w.removed
  | .added _ :: rows, w =>
      if w.newCursor = newLine then some w.partner else walkRows newLine rows w.added
  | .unchanged _ :: rows, w =>
      if w.newCursor = newLine then some w.oldLine else walkRows newLine rows w.unchanged
  | .edge :: rows, w => walkRows newLine rows w

theorem walkBody_line (c : UInt8) (text : Bytes) (lines : List Line) :
    walkBody newLine ((c :: (text ++ [newline])) :: lines) w =
      if c = 92 then walkBody newLine lines w
      else if c = 45 then walkBody newLine lines w.removed
      else if c = 43 then
        if w.newCursor = newLine then some w.partner else walkBody newLine lines w.added
      else if w.newCursor = newLine then some w.oldLine
      else walkBody newLine lines w.unchanged := by
  rw [walkBody, lineText_cons_append_newline]

theorem walkBody_render (body : List BodyLine) :
    walkBody newLine (body.map (·.render)) w = walkRows newLine (body.filterMap (·.row)) w := by
  induction body generalizing w with
  | nil => rfl
  | cons line body ih =>
      cases line with
      | unchanged text =>
          have hline := @walkBody_line w newLine 32 text.1 (body.map (·.render))
          rw [if_neg (by decide), if_neg (by decide), if_neg (by decide), ih] at hline
          exact hline
      | removed text =>
          have hline := @walkBody_line w newLine 45 text.1 (body.map (·.render))
          rw [if_neg (by decide), if_pos rfl, ih] at hline
          exact hline
      | added text =>
          have hline := @walkBody_line w newLine 43 text.1 (body.map (·.render))
          rw [if_neg (by decide), if_neg (by decide), if_pos rfl, ih] at hline
          exact hline
      | note text =>
          have hline := @walkBody_line w newLine 92 text.1 (body.map (·.render))
          rw [if_pos rfl, ih] at hline
          exact hline

namespace Walk

def step (w : Walk) : Row → Walk
  | .removed _ => w.removed
  | .added _ => w.added
  | .unchanged _ => w.unchanged
  | .edge => w

structure Settled (w : Walk) : Prop where
  removed : w.removedCount = 0
  added : w.addedCount = 0

def Sound (w : Walk) : Prop := w.removedCount > 0 → w.removedStart + w.removedCount = w.oldLine

theorem Settled.sound (h : w.Settled) : w.Sound := fun hpos => by
  rw [h.removed] at hpos
  exact absurd hpos (Nat.lt_irrefl 0)

theorem settled_unchanged (w : Walk) : w.unchanged.Settled := ⟨rfl, rfl⟩

theorem removed_first (h : w.addedCount > 0 ∨ w.removedCount = 0) : w.removed =
    { oldLine := w.oldLine + 1, newCursor := w.newCursor, removedStart := w.oldLine, removedCount := 1,
      addedCount := 0 } := by
  obtain ⟨oldLine, newCursor, removedStart, removedCount, addedCount⟩ := w
  by_cases hadded : addedCount > 0
  · simp [removed, hadded]
  · obtain rfl : addedCount = 0 := Nat.eq_zero_of_not_pos hadded
    obtain rfl : removedCount = 0 := h.resolve_left hadded
    rfl

theorem removed_more (hadded : w.addedCount = 0) (hremoved : w.removedCount ≠ 0) : w.removed =
    { w with removedCount := w.removedCount + 1, oldLine := w.oldLine + 1 } := by
  simp [removed, hadded, hremoved]

theorem removed_cases (w : Walk) : (w.addedCount > 0 ∨ w.removedCount = 0) ∨
    w.addedCount = 0 ∧ w.removedCount ≠ 0 := by
  omega

@[simp] theorem removed_oldLine (w : Walk) : w.removed.oldLine = w.oldLine + 1 := by
  rcases w.removed_cases with h | ⟨hadded, hremoved⟩
  · rw [removed_first h]
  · rw [removed_more hadded hremoved]

@[simp] theorem removed_newCursor (w : Walk) : w.removed.newCursor = w.newCursor := by
  rcases w.removed_cases with h | ⟨hadded, hremoved⟩
  · rw [removed_first h]
  · rw [removed_more hadded hremoved]

theorem sound_removed (h : w.Sound) : w.removed.Sound := by
  rcases w.removed_cases with hfirst | ⟨hadded, hremoved⟩
  · rw [removed_first hfirst]
    exact fun _ => rfl
  · rw [removed_more hadded hremoved]
    intro _
    have hblock := h (Nat.pos_of_ne_zero hremoved)
    simp only
    omega

theorem Sound.step (h : w.Sound) (row : Row) : (w.step row).Sound := by
  cases row with
  | removed text => exact sound_removed h
  | added text => exact h
  | unchanged text => exact (settled_unchanged w).sound
  | edge => exact h

theorem foldl_oldLine : (rows.foldl step w).oldLine = w.oldLine + (oldSide rows).length := by
  induction rows generalizing w with
  | nil => rfl
  | cons row rows ih =>
      rw [List.foldl_cons, ih]
      cases row <;> simp [step, added, unchanged] <;> omega

theorem foldl_newCursor : (rows.foldl step w).newCursor = w.newCursor + (newSide rows).length := by
  induction rows generalizing w with
  | nil => rfl
  | cons row rows ih =>
      rw [List.foldl_cons, ih]
      cases row <;> simp [step, added, unchanged] <;> omega

end Walk

theorem walkRows_append (h : w.newCursor + (newSide rows).length ≤ newLine) :
    walkRows newLine (rows ++ rows') w = walkRows newLine rows' (rows.foldl Walk.step w) := by
  induction rows generalizing w with
  | nil => rfl
  | cons row rows ih =>
      cases row with
      | removed text => exact ih (by simpa using h)
      | edge => exact ih h
      | added text =>
          rw [newSide_added, List.length_cons] at h
          have hne : ¬w.newCursor = newLine := by omega
          rw [List.cons_append, walkRows, if_neg hne]
          exact ih (by simp only [Walk.added]; omega)
      | unchanged text =>
          rw [newSide_unchanged, List.length_cons] at h
          have hne : ¬w.newCursor = newLine := by omega
          rw [List.cons_append, walkRows, if_neg hne]
          exact ih (by simp only [Walk.unchanged]; omega)

theorem walkRows_unchanged {text : LineText} (h : w.newCursor + (newSide rows).length = newLine) :
    walkRows newLine (rows ++ .unchanged text :: rows') w =
      some (w.oldLine + (oldSide rows).length) := by
  rw [walkRows_append (Nat.le_of_eq h), walkRows, if_pos (Walk.foldl_newCursor.trans h),
    Walk.foldl_oldLine]

theorem walkRows_added {text : LineText} (h : w.newCursor + (newSide rows).length = newLine) :
    walkRows newLine (rows ++ .added text :: rows') w = some (rows.foldl Walk.step w).partner := by
  rw [walkRows_append (Nat.le_of_eq h), walkRows, if_pos (Walk.foldl_newCursor.trans h)]

/-! ## Blocks -/

namespace Walk

theorem Settled.foldl_removed (h : w.Settled) (first : LineText) (texts : List LineText) :
    ((first :: texts).map Row.removed).foldl step w =
      { oldLine := w.oldLine + (texts.length + 1), newCursor := w.newCursor, removedStart := w.oldLine
        removedCount := texts.length + 1, addedCount := 0 } := by
  induction texts using List.reverseRecOn with
  | nil => exact removed_first (.inr h.removed)
  | append_singleton texts text ih =>
      rw [← List.cons_append, List.map_append, List.foldl_append, ih, List.length_append]
      exact removed_more rfl (Nat.succ_ne_zero _)

theorem foldl_added (texts : List LineText) : (texts.map Row.added).foldl step w =
    { w with addedCount := w.addedCount + texts.length, newCursor := w.newCursor + texts.length } := by
  induction texts generalizing w with
  | nil => rfl
  | cons text texts ih =>
      rw [List.map_cons, List.foldl_cons, ih]
      simp only [step, added, List.length_cons, Nat.add_assoc, Nat.add_comm 1]

theorem Settled.partner (h : w.Settled) (removed added : List LineText) :
    ((removed.map Row.removed ++ added.map Row.added).foldl step w).partner =
      if removed = [] then w.oldLine else w.oldLine + min added.length (removed.length - 1) := by
  rw [List.foldl_append, foldl_added]
  cases removed with
  | nil => simp [Walk.partner, h.removed]
  | cons first texts =>
      rw [h.foldl_removed first texts, if_neg (List.cons_ne_nil _ _)]
      simp [Walk.partner]

theorem foldl_settled {before : List Row} (hw : w.Settled) (h : Vcs.Settled before)
    (hedges : Row.edge ∉ before) : (before.foldl step w).Settled := by
  rcases List.eq_nil_or_concat before with rfl | ⟨front, last, rfl⟩
  · exact hw
  · rw [List.concat_eq_append] at h hedges ⊢
    rcases h last (by simp) with ⟨text, rfl⟩ | rfl
    · rw [List.foldl_append]
      exact settled_unchanged _
    · exact absurd (List.mem_append_right _ List.mem_cons_self) hedges

end Walk

/-! ## Order -/

namespace Walk

theorem Sound.partner_le (h : w.Sound) : w.partner ≤ w.oldLine := by
  unfold partner
  split
  · rename_i hpos
    have := h hpos
    omega
  · exact Nat.le_refl _

theorem partner_step (h : w.Sound) (row : Row) : w.partner ≤ (w.step row).partner := by
  cases row with
  | edge => exact Nat.le_refl _
  | unchanged text => exact Nat.le_trans h.partner_le (Nat.le_succ _)
  | added text =>
      show w.partner ≤ w.added.partner
      by_cases hpos : w.removedCount > 0
      · simp only [partner, added, hpos, if_true]
        omega
      · simp only [partner, added, hpos, if_false, Nat.le_refl]
  | removed text =>
      rcases w.removed_cases with hfirst | ⟨hadded, hremoved⟩
      · have hstep : (w.step (.removed text)).partner = w.oldLine := by
          rw [step, removed_first hfirst]
          simp [partner]
        rw [hstep]
        exact h.partner_le
      · rw [step, removed_more hadded hremoved]
        have hold : w.partner = w.removedStart := by
          simp [partner, hadded, Nat.pos_of_ne_zero hremoved]
        have hstart : ∀ c l, ({ w with removedCount := c + 1, oldLine := l } : Walk).partner
            = w.removedStart := by
          intro c l
          simp [partner, hadded]
        exact Nat.le_of_eq (hold.trans (hstart _ _).symm)

end Walk

theorem walkRows_ge (hw : w.Sound) (h : walkRows newLine rows w = some result) : w.partner ≤ result := by
  induction rows generalizing w with
  | nil => cases h
  | cons row rows ih =>
      have hnext : walkRows newLine rows (w.step row) = some result → w.partner ≤ result :=
        fun h => Nat.le_trans (Walk.partner_step hw row) (ih (hw.step row) h)
      cases row with
      | removed text => exact hnext h
      | edge => exact hnext h
      | added text =>
          rw [walkRows] at h
          split at h
          · exact Nat.le_of_eq (Option.some.inj h)
          · exact hnext h
      | unchanged text =>
          rw [walkRows] at h
          split at h
          · exact Nat.le_trans hw.partner_le (Nat.le_of_eq (Option.some.inj h))
          · exact hnext h

theorem walkRows_le (hw : w.Sound) (h : walkRows newLine rows w = some result) :
    result ≤ w.oldLine + (oldSide rows).length := by
  induction rows generalizing w with
  | nil => cases h
  | cons row rows ih =>
      cases row with
      | removed text =>
          have := ih (hw.step (.removed text)) h
          simp [Walk.step] at this ⊢
          omega
      | edge => exact ih hw h
      | added text =>
          rw [walkRows] at h
          split at h
          · obtain rfl := Option.some.inj h
            exact Nat.le_trans hw.partner_le (Nat.le_add_right _ _)
          · have hnext := ih (hw.step (.added text)) h
            exact hnext
      | unchanged text =>
          rw [walkRows] at h
          split at h
          · obtain rfl := Option.some.inj h
            exact Nat.le_add_right _ _
          · have := ih (hw.step (.unchanged text)) h
            simp [Walk.step, Walk.unchanged] at this ⊢
            omega

theorem newCursor_le_of_walkRows (h : walkRows newLine rows w = some result) :
    w.newCursor ≤ newLine := by
  induction rows generalizing w with
  | nil => cases h
  | cons row rows ih =>
      cases row with
      | removed text =>
          have hnext := ih h
          rwa [Walk.removed_newCursor] at hnext
      | edge => exact ih h
      | added text =>
          rw [walkRows] at h
          split at h
          · rename_i heq
            exact Nat.le_of_eq heq
          · exact Nat.le_of_succ_le (ih h)
      | unchanged text =>
          rw [walkRows] at h
          split at h
          · rename_i heq
            exact Nat.le_of_eq heq
          · exact Nat.le_of_succ_le (ih h)

theorem walkRows_mono (hw : w.Sound) (h : walkRows newLine rows w = some result)
    (h' : walkRows newLine' rows w = some result') (hle : newLine ≤ newLine') : result ≤ result' := by
  induction rows generalizing w with
  | nil => cases h
  | cons row rows ih =>
      have hge := walkRows_ge hw h'
      cases row with
      | removed text => exact ih (hw.step (.removed text)) h h'
      | edge => exact ih hw h h'
      | added text =>
          rw [walkRows] at h h'
          split at h
          · obtain rfl := Option.some.inj h
            exact hge
          · have hcursor : w.newCursor + 1 ≤ newLine := newCursor_le_of_walkRows h
            rw [if_neg (by omega)] at h'
            exact ih (hw.step (.added text)) h h'
      | unchanged text =>
          rw [walkRows] at h h'
          split at h
          · obtain rfl := Option.some.inj h
            split at h'
            · exact Nat.le_of_eq (Option.some.inj h')
            · exact Nat.le_of_succ_le (walkRows_ge (Walk.settled_unchanged w).sound h')
          · have hcursor : w.newCursor + 1 ≤ newLine := newCursor_le_of_walkRows h
            rw [if_neg (by omega)] at h'
            exact ih (hw.step (.unchanged text)) h h'

theorem walkRows_isSome (hfrom : w.newCursor ≤ newLine)
    (hto : newLine < w.newCursor + (newSide rows).length) : (walkRows newLine rows w).isSome = true := by
  induction rows generalizing w with
  | nil => exact absurd hto (Nat.not_lt.2 hfrom)
  | cons row rows ih =>
      cases row with
      | removed text => exact ih (by simpa using hfrom) (by simpa using hto)
      | edge => exact ih hfrom hto
      | added text =>
          rw [walkRows]
          split
          · rfl
          · rename_i hne
            rw [newSide_added, List.length_cons] at hto
            exact ih (by simp only [Walk.added]; omega) (by simp only [Walk.added]; omega)
      | unchanged text =>
          rw [walkRows]
          split
          · rfl
          · rename_i hne
            rw [newSide_unchanged, List.length_cons] at hto
            exact ih (by simp only [Walk.unchanged]; omega) (by simp only [Walk.unchanged]; omega)

end Ned.Editor.Vcs
