import Ned.Editor.Remote.Lemmas.Glob

/-!
# Replaying a config

On a host without a star the replay keeps, in its innermost scope, whether every block around the next
setting applies; so the values it takes are those of the settings that count.
-/

namespace Ned.Editor.Remote

open Text

variable {host : Bytes}

/-! ## Blocks -/

theorem patternMatches_iff (hhost : 42 ∉ host) (pattern : Bytes) :
    patternMatches host pattern = true ↔
      Matches (if pattern.head? = some 33 then pattern.drop 1 else pattern) host := by
  rw [patternMatches, globMatches_iff hhost]
  simp only [beq_iff_eq]

theorem patternsMatchFrom_iff (hhost : 42 ∉ host) (patterns : List Bytes) (matched : Bool) :
    patternsMatchFrom host matched patterns = true ↔
      (matched = true ∨ ∃ pattern ∈ patterns, pattern.head? ≠ some 33 ∧ Matches pattern host) ∧
        ∀ pattern ∈ patterns, pattern.head? = some 33 → ¬ Matches (pattern.drop 1) host := by
  induction patterns generalizing matched with
  | nil => simp [patternsMatchFrom]
  | cons pattern patterns ih =>
      rw [patternsMatchFrom]
      by_cases hneg : pattern.head? = some 33
      · by_cases hmatch : patternMatches host pattern = true
        · have hmatches := (patternMatches_iff hhost pattern).1 hmatch
          rw [if_pos hneg, List.drop_one] at hmatches
          simp [hneg, hmatch, hmatches]
        · have hmatches := mt (patternMatches_iff hhost pattern).2 hmatch
          rw [if_pos hneg, List.drop_one] at hmatches
          simp [hneg, hmatch, hmatches, ih]
      · by_cases hmatch : patternMatches host pattern = true
        · have hmatches := (patternMatches_iff hhost pattern).1 hmatch
          rw [if_neg hneg] at hmatches
          simp [hneg, hmatch, hmatches, ih]
        · have hmatches := mt (patternMatches_iff hhost pattern).2 hmatch
          rw [if_neg hneg] at hmatches
          simp [hneg, hmatch, hmatches, ih]

theorem patternsMatch_iff (hhost : 42 ∉ host) (patterns : List Bytes) :
    patternsMatch host patterns = true ↔ PatternsApply host patterns := by
  rw [patternsMatch, patternsMatchFrom_iff hhost, PatternsApply]
  simp

theorem criteriaApply_cons_iff {argument : Bytes} {rest : List Bytes} :
    CriteriaApply host (argument :: rest) ↔
      (splitCriterion argument = (false, bytes "all") ∧ CriteriaApply host rest) ∨
        ∃ negated list rest', rest = list :: rest' ∧
          (splitCriterion argument = (negated, bytes "host") ∨
            splitCriterion argument = (negated, bytes "originalhost")) ∧
          (PatternsApply host (commaList list) ↔ negated = false) ∧ CriteriaApply host rest' := by
  constructor
  · intro h
    cases h with
    | all hcriterion hholds => exact .inl ⟨hcriterion, hholds⟩
    | host hcriterion happly hholds => exact .inr ⟨_, _, _, rfl, hcriterion, happly, hholds⟩
  · rintro (⟨hcriterion, hholds⟩ | ⟨negated, list, rest', rfl, hcriterion, happly, hholds⟩)
    · exact .all hcriterion hholds
    · exact .host hcriterion happly hholds

theorem criteriaHold_cons (argument : Bytes) (arguments : List Bytes) :
    criteriaHold host (argument :: arguments) =
      if (splitCriterion argument).2 == bytes "all" then
        if (splitCriterion argument).1 then false else criteriaHold host arguments
      else if (splitCriterion argument).2 == bytes "host" ||
          (splitCriterion argument).2 == bytes "originalhost" then
        match arguments with
        | [] => false
        | list :: arguments =>
            if patternsMatch host (commaList list) == (splitCriterion argument).1 then false
            else criteriaHold host arguments
      else false :=
  criteriaHold.eq_def host (argument :: arguments)

theorem criteriaHold_iff (hhost : 42 ∉ host) (criteria : List Bytes) :
    criteriaHold host criteria = true ↔ CriteriaApply host criteria := by
  have hname : bytes "all" ≠ bytes "host" := by decide
  have horiginal : bytes "all" ≠ bytes "originalhost" := by decide
  induction criteria using criteriaHold.induct host with
  | case1 => exact iff_of_true rfl .nil
  | case2 argument arguments hall hneg =>
      rw [criteriaApply_cons_iff, criteriaHold_cons, if_pos hall, if_pos hneg]
      generalize splitCriterion argument = criterion at hall hneg
      obtain ⟨negated, name⟩ := criterion
      obtain rfl : negated = true := hneg
      obtain rfl : name = bytes "all" := beq_iff_eq.1 hall
      simp [hname, horiginal]
  | case3 argument arguments hall hneg ih =>
      rw [criteriaApply_cons_iff, criteriaHold_cons, if_pos hall, if_neg hneg]
      generalize splitCriterion argument = criterion at hall hneg
      obtain ⟨negated, name⟩ := criterion
      obtain rfl : negated = false := Bool.eq_false_iff.2 hneg
      obtain rfl : name = bytes "all" := beq_iff_eq.1 hall
      simp [hname, horiginal, ih]
  | case4 argument hall hhosts =>
      rw [criteriaApply_cons_iff, criteriaHold_cons, if_neg hall, if_pos hhosts]
      apply iff_of_false Bool.false_ne_true
      rintro (⟨hcriterion, -⟩ | ⟨negated, list, rest, hnil, -⟩)
      · rw [hcriterion] at hall
        exact hall rfl
      · cases hnil
  | case5 argument hall hhosts list arguments hpatterns =>
      rw [criteriaApply_cons_iff, criteriaHold_cons, if_neg hall, if_pos hhosts]
      dsimp only
      rw [if_pos hpatterns]
      apply iff_of_false Bool.false_ne_true
      rintro (⟨hcriterion, -⟩ | ⟨negated, list, rest, hcons, hcriterion, happly, -⟩)
      · rw [hcriterion] at hall
        exact hall rfl
      · cases hcons
        have hnegated : (splitCriterion argument).1 = negated := by
          rcases hcriterion with h | h
          · rw [h]
          · rw [h]
        rw [beq_iff_eq, hnegated] at hpatterns
        rw [← patternsMatch_iff hhost, hpatterns] at happly
        cases negated with
        | false => exact absurd (happly.2 rfl) Bool.false_ne_true
        | true => cases happly.1 rfl
  | case6 argument hall hhosts list arguments hpatterns ih =>
      rw [criteriaApply_cons_iff, criteriaHold_cons, if_neg hall, if_pos hhosts]
      dsimp only
      rw [if_neg hpatterns]
      apply ih.trans
      constructor
      · intro hholds
        refine .inr ⟨(splitCriterion argument).1, list, arguments, rfl, ?_, ?_, hholds⟩
        · rw [Bool.or_eq_true, beq_iff_eq, beq_iff_eq] at hhosts
          rcases hhosts with h | h
          · exact .inl (Prod.ext rfl h)
          · exact .inr (Prod.ext rfl h)
        · rw [← patternsMatch_iff hhost]
          rw [beq_iff_eq] at hpatterns
          cases hneg : (splitCriterion argument).1 with
          | false => simpa [hneg] using hpatterns
          | true => simpa [hneg] using hpatterns
      · rintro (⟨hcriterion, -⟩ | ⟨negated, list, rest, hcons, -, -, hholds⟩)
        · rw [hcriterion] at hall
          exact absurd rfl hall
        · cases hcons
          exact hholds
  | case7 argument arguments hall hhosts =>
      rw [criteriaApply_cons_iff, criteriaHold_cons, if_neg hall, if_neg hhosts]
      apply iff_of_false Bool.false_ne_true
      rintro (⟨hcriterion, -⟩ | ⟨negated, list, rest, -, hcriterion | hcriterion, -, -⟩)
      · rw [hcriterion] at hall
        exact hall rfl
      · rw [hcriterion] at hhosts
        exact hhosts rfl
      · rw [hcriterion] at hhosts
        exact hhosts rfl

theorem blockApplies_host (hhost : 42 ∉ host) (patterns : List Bytes) :
    patternsMatch host patterns = true ↔ (Block.host patterns).Applies host :=
  patternsMatch_iff hhost patterns

theorem blockApplies_matches (hhost : 42 ∉ host) (criteria : List Bytes) :
    matchLineMatches host criteria = true ↔ (Block.matches criteria).Applies host := by
  rw [matchLineMatches, Block.Applies, ← criteriaHold_iff hhost]
  cases criteria with
  | nil => simp
  | cons argument arguments => simp

/-! ## Values -/

/-- The values after some settings that count. -/
def Values.takeAll (v : Values) (settings : List Occurrence) : Values :=
  settings.foldl (fun v setting => v.take setting.keyword setting.arguments) v

theorem firstValue_cons (keyword : String) (setting : Occurrence) (settings : List Occurrence) :
    firstValue keyword (setting :: settings) =
      if setting.keyword == bytes keyword then setting.arguments.head?.or (firstValue keyword settings)
      else firstValue keyword settings := by
  rw [firstValue, List.filter_cons]
  split
  · rw [List.findSome?_cons, firstValue]
    cases setting.arguments.head? with
    | none => rfl
    | some value => rfl
  · rfl

theorem everyValue_cons (keyword : String) (setting : Occurrence) (settings : List Occurrence) :
    everyValue keyword (setting :: settings) =
      if setting.keyword == bytes keyword then setting.arguments.head?.toList ++ everyValue keyword settings
      else everyValue keyword settings := by
  rw [everyValue, List.filter_cons]
  split
  · rw [List.filterMap_cons, everyValue]
    cases setting.arguments.head? with
    | none => rfl
    | some value => rfl
  · rfl

theorem takeAll_eq (v : Values) (settings : List Occurrence) :
    v.takeAll settings =
      { hostName := v.hostName.or (firstValue "hostname" settings)
        user := v.user.or (firstValue "user" settings)
        port := v.port.or (firstValue "port" settings)
        proxyJump := v.proxyJump.or (firstValue "proxyjump" settings)
        identityFiles := v.identityFiles ++ everyValue "identityfile" settings } := by
  induction settings generalizing v with
  | nil => simp [Values.takeAll, firstValue, everyValue]
  | cons setting settings ih =>
      have hnext : v.takeAll (setting :: settings) =
          (v.take setting.keyword setting.arguments).takeAll settings := rfl
      rw [hnext, ih]
      rw [Values.take]
      simp only [firstValue_cons, everyValue_cons]
      split
      · rename_i h
        simp +decide [beq_iff_eq.1 h, first, Option.or_assoc]
      · split
        · rename_i h
          simp +decide [beq_iff_eq.1 h, first, Option.or_assoc]
        · split
          · rename_i h
            simp +decide [beq_iff_eq.1 h, first, Option.or_assoc]
          · split
            · rename_i h
              simp +decide [beq_iff_eq.1 h, first, Option.or_assoc]
            · split
              · simp
              · rfl

theorem takeAll_append (v : Values) (settings settings' : List Occurrence) :
    v.takeAll (settings ++ settings') = (v.takeAll settings).takeAll settings' := by
  rw [Values.takeAll, List.foldl_append]
  rfl

theorem counting_append (settings settings' : List Occurrence) :
    counting host (settings ++ settings') = counting host settings ++ counting host settings' := by
  rw [counting, List.filter_append]
  rfl

theorem takeAll_counting_cons (v : Values) (setting : Occurrence) (settings : List Occurrence) :
    v.takeAll (counting host (setting :: settings)) =
      if @decide (setting.Counts host) (Classical.dec _) then
        (v.take setting.keyword setting.arguments).takeAll (counting host settings)
      else v.takeAll (counting host settings) := by
  rw [counting, List.filter_cons]
  split
  · rfl
  · rfl

/-! ## The replay -/

/-- What a scope tells about the block that is open in a file and the blocks around the file. -/
structure Within (host : Bytes) (around : List Block) (block : Option Block) (scope : Scope) : Prop where
  active_iff : scope.active = true ↔ ∀ b ∈ block.toList ++ around, b.Applies host
  never_iff : scope.never = true ↔ ¬ ∀ b ∈ around, b.Applies host

/-- The block that is open behind some lines. -/
def blockAfter : Option Block → List Bytes → Option Block
  | block, [] => block
  | block, line :: lines =>
      match splitLine line with
      | none => blockAfter block lines
      | some (keyword, arguments) =>
          if keyword == bytes "include" then blockAfter block lines
          else if keyword == bytes "host" then blockAfter (some (.host arguments)) lines
          else if keyword == bytes "match" then blockAfter (some (.matches arguments)) lines
          else blockAfter block lines

section Replay

variable {around : List Block} {block : Option Block} {scope : Scope} {outer : List Scope} {v : Values}
  {applies : Bool} {opened : Block}

theorem Within.opens (h : Within host around block scope) (happlies : applies = true ↔ opened.Applies host) :
    Within host around (some opened) { scope with active := !scope.never && applies } where
  active_iff := by
    have hnever := h.never_iff
    rw [Bool.and_eq_true, Bool.not_eq_true', ← Bool.not_eq_true, hnever, not_not, happlies]
    simp [and_comm]
  never_iff := h.never_iff

theorem Within.enters {blocks : List Block} (h : scope.active = true ↔ ∀ b ∈ blocks, b.Applies host) :
    Within host blocks none { active := scope.active, never := !scope.active } where
  active_iff := h
  never_iff := by
    rw [← h]
    simp

def Included (host : Bytes) (entries : List Bytes → List Entry)
    (settings : List Block → List Bytes → List Occurrence) : Prop :=
  ∀ blocks arguments scope outer v, (scope.active = true ↔ ∀ b ∈ blocks, b.Applies host) →
    (entries arguments).foldl (replay host) (scope :: outer, v) =
      (scope :: outer, v.takeAll (counting host (settings blocks arguments)))

theorem replay_lines (hhost : 42 ∉ host) {entries : List Bytes → List Entry}
    {settings : List Block → List Bytes → List Occurrence} (hincluded : Included host entries settings)
    (lines : List Bytes) (h : Within host around block scope) :
    ∃ scope', Within host around (blockAfter block lines) scope' ∧
      (lines.flatMap (lineEntries entries)).foldl (replay host) (scope :: outer, v) =
        (scope' :: outer, v.takeAll (counting host (linesOccurrences settings around block lines))) := by
  induction lines generalizing block scope v with
  | nil => exact ⟨scope, h, rfl⟩
  | cons line lines ih =>
      rw [List.flatMap_cons, List.foldl_append, lineEntries, linesOccurrences, blockAfter]
      cases hline : splitLine line with
      | none => exact ih h
      | some split =>
          obtain ⟨keyword, arguments⟩ := split
          dsimp only
          by_cases hinclude : (keyword == bytes "include") = true
          · simp only [hinclude, if_true]
            rw [hincluded _ _ _ _ _ h.active_iff, counting_append, takeAll_append]
            exact ih h
          by_cases hhostLine : (keyword == bytes "host") = true
          · simp only [hinclude, hhostLine, Bool.false_eq_true, if_true, if_false]
            exact ih (h.opens (blockApplies_host hhost arguments))
          by_cases hmatchLine : (keyword == bytes "match") = true
          · simp only [hinclude, hhostLine, hmatchLine, Bool.false_eq_true, if_true, if_false]
            exact ih (h.opens (blockApplies_matches hhost arguments))
          simp only [hinclude, hhostLine, hmatchLine, Bool.false_eq_true, if_false]
          rw [takeAll_counting_cons]
          have hcounts : @decide (Occurrence.Counts host ⟨block.toList ++ around, keyword, arguments⟩)
              (Classical.dec _) = scope.active := by
            rw [Bool.eq_iff_iff, h.active_iff]
            exact @decide_eq_true_iff _ (Classical.dec _)
          rw [hcounts]
          obtain ⟨scope', hwithin, hfold⟩ :=
            ih (v := if scope.active then v.take keyword arguments else v) h
          refine ⟨scope', hwithin, hfold.trans ?_⟩
          cases scope.active with
          | false => rfl
          | true => rfl

theorem included_nil : Included host (fun _ => []) fun _ _ => [] := by
  intro blocks arguments scope outer v hactive
  rfl

theorem included_bodies {append : Bytes → List Entry} {settings : List Block → Bytes → List Occurrence}
    (texts : List Bytes → List Bytes)
    (hfile : ∀ blocks body scope outer v, Within host blocks none scope → ∃ scope',
      (append body).foldl (replay host) (scope :: outer, v) =
        (scope' :: outer, v.takeAll (counting host (settings blocks body)))) :
    Included host
      (fun arguments => (texts arguments).flatMap fun body =>
        { kind := .enter } :: append body ++ [{ kind := .leave }])
      fun blocks arguments => (texts arguments).flatMap (settings blocks) := by
  intro blocks arguments scope outer v hactive
  dsimp only
  induction texts arguments generalizing v with
  | nil => rfl
  | cons body bodies ih =>
      rw [List.flatMap_cons, List.flatMap_cons, List.foldl_append, counting_append, takeAll_append, ← ih]
      apply congrArg fun state => List.foldl (replay host) state _
      obtain ⟨scope', hfold⟩ := hfile blocks body _ (scope :: outer) v (.enters hactive)
      rw [List.cons_append, List.foldl_cons, List.foldl_append]
      exact congrArg (fun state => List.foldl (replay host) state [{ kind := .leave }]) hfold

theorem replay_append (hhost : 42 ∉ host) (files : Files) (home includeBase : Bytes) (depth : Nat)
    (text : Bytes) (h : Within host around none scope) :
    ∃ scope', Within host around (blockAfter none (lines text)) scope' ∧
      (append files home includeBase depth text).foldl (replay host) (scope :: outer, v) =
        (scope' :: outer,
          v.takeAll (counting host (occurrences files home includeBase depth around text))) := by
  induction depth generalizing text around scope outer v with
  | zero => exact replay_lines hhost included_nil (lines text) h
  | succ depth ih =>
      apply replay_lines hhost _ (lines text) h
      apply included_bodies
      intro blocks body scope outer v hwithin
      obtain ⟨scope', -, hfold⟩ := ih body hwithin
      exact ⟨scope', hfold⟩

end Replay

end Ned.Editor.Remote
