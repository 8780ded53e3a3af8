import Mathlib.Order.Nat
import Ned.Editor.Keys.Lemmas.Dispatcher

/-!
# The reported bindings and the keys that are typed

A stack reports a binding as reachable, or the command that shadows it. Typing the binding does what is
reported exactly when no abort cuts the sequence short and the shortest match is that of the owner.
-/

namespace Ned.Editor.Keys

open Dispatcher

variable {World : Type} {undo : UndoGroups World} {registry : CommandRegistry World}
  {dispatcher : Dispatcher} {context : CommandContext World} {stack : KeymapStack} {keymap : Keymap}
  {sequence : List KeyChord} {binding : Binding} {name first owner : String} {length : Nat}
  {runs rest : List (List String)}

/-! ## What is compared -/

/-- The command was run by the last chord, and nothing before it. -/
def Fires (runs : List (List String)) (binding : Binding) : Prop :=
  binding.sequence ≠ [] ∧
    runs = List.replicate (binding.sequence.length - 1) [] ++ [[binding.commandName]]

/-- The command that was run, the first one if there were several. -/
def RunsFirst (runs : List (List String)) (name : String) : Prop := runs.flatten.head? = some name

/-- A binding is reported as reachable when it fires, and otherwise with the command that runs. -/
structure ReportedAsTyped (stack : KeymapStack) (binding : Binding) (runs : List (List String)) :
    Prop where
  reachable : binding ∈ stack.allBindings ↔ Fires runs binding
  shadowed : binding ∉ stack.allBindings →
    ∃ name, ⟨binding, name⟩ ∈ stack.shadowedBindings ∧ RunsFirst runs name

/-- The shortest beginning of the sequence that has a match, and its command. -/
structure FirstMatch (stack : KeymapStack) (sequence : List KeyChord) (length : Nat) (first : String) :
    Prop where
  pos : 0 < length
  le : length ≤ sequence.length
  matched : stack.resolve (sequence.take length) = .Match first
  shortest : ∀ shorter, 0 < shorter → shorter < length → ∀ name,
    stack.resolve (sequence.take shorter) ≠ .Match name

/-- No abort comes before the first match, and its command is registered and is that of the owner of the
sequence, if this is another than the binding's own. Or there is an abort, and what is reported is
`keyboard-quit`: as the command that shadows, or as the binding itself, with the abort at its end. -/
structure TypedAsReported (stack : KeymapStack) (registry : CommandRegistry World) (binding : Binding) :
    Prop where
  nonempty : binding.sequence ≠ []
  collected : ∀ length first owner, FirstMatch stack binding.sequence length first →
    stack.resolve binding.sequence = .Match owner →
    (∀ index < length, ¬AbortsAt binding.sequence index) →
    (registry.find first).isSome ∧ (owner ≠ binding.commandName → first = owner)
  aborted : ∀ length first owner, FirstMatch stack binding.sequence length first →
    stack.resolve binding.sequence = .Match owner →
    (∃ index < length, AbortsAt binding.sequence index) →
    (owner ≠ binding.commandName → owner = "keyboard-quit") ∧
      (owner = binding.commandName → first = "keyboard-quit" ∧
        (length = binding.sequence.length →
          ∀ index, AbortsAt binding.sequence index → index + 1 = length))

/-! ## The report -/

/-- The binding is one of the layer it names. -/
def Listed (stack : KeymapStack) (binding : Binding) : Prop :=
  ∃ keymap, stack.layers[binding.layer]? = some keymap ∧ { binding with layer := 0 } ∈ keymap.allBindings

/-- Every command name of the stack is non-empty. -/
def Named (stack : KeymapStack) : Prop :=
  ∀ keymap ∈ stack.layers, ∀ binding ∈ keymap.allBindings, binding.commandName ≠ ""

theorem Listed.exists_get (h : Listed stack binding) :
    ∃ keymap ∈ stack.layers, keymap.root.get binding.sequence = some binding.commandName := by
  obtain ⟨keymap, hlayer, hmem⟩ := h
  exact ⟨keymap, List.mem_of_getElem? hlayer, (mem_allBindings_iff.1 hmem).2⟩

theorem Listed.mem_layerBindings (h : Listed stack binding) : binding ∈ stack.layerBindings := by
  obtain ⟨keymap, hlayer, hmem⟩ := h
  apply List.mem_flatMap.2 ⟨(keymap, binding.layer), List.mem_zipIdx_iff_getElem?.2 hlayer, _⟩
  exact List.mem_map.2 ⟨_, hmem, rfl⟩

theorem Named.ne_empty (h : Named stack) (hlookup : stack.resolve sequence = .Match name) : name ≠ "" := by
  obtain ⟨layer, hlayer, hget⟩ := List.exists_of_findSome?_eq_some (resolveIn_eq_match_iff.1 hlookup)
  exact h layer hlayer ⟨sequence, name, 0⟩ (mem_allBindings_iff.2 ⟨rfl, hget⟩)

theorem mem_allBindings_iff_shadowingCommand (h : Listed stack binding) :
    binding ∈ stack.allBindings ↔ stack.shadowingCommand binding = "" := by
  simp [KeymapStack.allBindings, h.mem_layerBindings]

theorem mem_shadowedBindings (h : Listed stack binding) (hne : stack.shadowingCommand binding ≠ "") :
    ⟨binding, name⟩ ∈ stack.shadowedBindings ↔ stack.shadowingCommand binding = name := by
  simp only [KeymapStack.shadowedBindings, List.mem_filterMap]
  constructor
  · rintro ⟨binding', -, hmem⟩
    split at hmem
    · cases hmem
    · cases hmem
      rfl
  · rintro rfl
    refine ⟨binding, h.mem_layerBindings, if_neg ?_⟩
    simpa using hne

/-- The report in terms of the command that shadows, empty for a reachable binding. -/
theorem reportedAsTyped_iff (h : Listed stack binding) : ReportedAsTyped stack binding runs ↔
    (stack.shadowingCommand binding = "" ↔ Fires runs binding) ∧
      (stack.shadowingCommand binding ≠ "" → RunsFirst runs (stack.shadowingCommand binding)) := by
  constructor
  · rintro ⟨hreachable, hshadowed⟩
    rw [mem_allBindings_iff_shadowingCommand h] at hreachable hshadowed
    refine ⟨hreachable, fun hne => ?_⟩
    obtain ⟨name, hmem, hruns⟩ := hshadowed hne
    rw [(mem_shadowedBindings h hne).1 hmem]
    exact hruns
  · rintro ⟨hreachable, hshadowed⟩
    refine ⟨(mem_allBindings_iff_shadowingCommand h).trans hreachable, fun hne => ?_⟩
    rw [mem_allBindings_iff_shadowingCommand h] at hne
    exact ⟨_, (mem_shadowedBindings h hne).2 rfl, hshadowed hne⟩

theorem firstMatchAmong_eq_empty {lengths : List Nat}
    (h : ∀ length ∈ lengths, ∀ name, stack.resolve (sequence.take length) ≠ .Match name) :
    stack.firstMatchAmong sequence lengths = "" := by
  induction lengths with
  | nil => rfl
  | cons length lengths ih =>
      rw [KeymapStack.firstMatchAmong]
      split
      · rename_i name hlookup
        exact absurd hlookup (h length List.mem_cons_self name)
      · exact ih fun length hlength => h length (List.mem_cons_of_mem _ hlength)

theorem FirstMatch.firstMatchAmong_eq (h : FirstMatch stack sequence length first) {start count : Nat}
    (hpos : 0 < start) (hle : start ≤ length) (hlt : length < start + count) :
    stack.firstMatchAmong sequence (List.range' start count) = first := by
  induction count generalizing start with
  | zero => omega
  | succ count ih =>
      rw [List.range'_succ, KeymapStack.firstMatchAmong]
      rcases Nat.lt_or_eq_of_le hle with hstart | rfl
      · have hno := h.shortest start hpos hstart
        split
        · rename_i name hlookup
          exact absurd hlookup (hno name)
        · exact ih (Nat.succ_pos _) hstart (by omega)
      · simp [h.matched]

theorem FirstMatch.exists_of_ne_nil (hne : sequence ≠ []) (h : stack.resolve sequence = .Match owner) :
    ∃ length first, FirstMatch stack sequence length first := by
  classical
  have hexists : ∃ length, 0 < length ∧ ∃ first, stack.resolve (sequence.take length) = .Match first :=
    ⟨sequence.length, List.length_pos_of_ne_nil hne, owner, by rwa [List.take_length]⟩
  obtain ⟨hpos, first, hfirst⟩ := Nat.find_spec hexists
  refine ⟨Nat.find hexists, first, hpos, ?_, hfirst, ?_⟩
  · apply Nat.find_min' hexists
    exact ⟨List.length_pos_of_ne_nil hne, owner, by rwa [List.take_length]⟩
  · intro shorter hshorter hlt name hname
    exact Nat.find_min hexists hlt ⟨hshorter, name, hname⟩

theorem FirstMatch.shadowingCommand_eq (h : FirstMatch stack binding.sequence length first)
    (howner : stack.resolve binding.sequence = .Match owner) :
    stack.shadowingCommand binding =
      if owner ≠ binding.commandName then owner
      else if length < binding.sequence.length then first else "" := by
  simp only [KeymapStack.shadowingCommand, howner, KeymapStack.commandOf]
  congr 1
  have hpos := h.pos
  have hle := h.le
  split
  · apply h.firstMatchAmong_eq Nat.one_pos hpos
    omega
  · apply firstMatchAmong_eq_empty
    intro shorter hshorter
    rw [List.mem_range'_1] at hshorter
    exact h.shortest shorter hshorter.1 (by omega)

/-! ## What is typed -/

theorem fires_iff {before : Nat} (hlt : before < binding.sequence.length)
    (hrest : rest.length ≤ binding.sequence.length - (before + 1)) :
    Fires (List.replicate before [] ++ [name] :: rest) binding ↔
      before + 1 = binding.sequence.length ∧ name = binding.commandName := by
  have hne : binding.sequence ≠ [] := List.ne_nil_of_length_pos (Nat.zero_lt_of_lt hlt)
  constructor
  · rintro ⟨-, heq⟩
    have hentry := congrArg (fun runs => runs[before]?) heq
    simp only [List.getElem?_append_right, List.length_replicate, Nat.le_refl, Nat.sub_self,
      List.getElem?_cons_zero] at hentry
    rcases Nat.lt_or_ge before (binding.sequence.length - 1) with hlast | hlast
    · rw [List.getElem?_append_left (by simpa using hlast)] at hentry
      simp [hlast] at hentry
    · have hbefore : before = binding.sequence.length - 1 := by omega
      rw [hbefore, List.getElem?_append_right (by simp)] at hentry
      simp at hentry
      exact ⟨by omega, hentry⟩
  · rintro ⟨hbefore, rfl⟩
    have hnil : rest = [] := List.length_eq_zero_iff.1 (by omega)
    refine ⟨hne, ?_⟩
    rw [← hbefore, hnil, Nat.add_sub_cancel]

theorem runsFirst_iff {before : Nat} :
    RunsFirst (List.replicate before [] ++ [name] :: rest) first ↔ name = first := by
  simp [RunsFirst]

/-- A dispatcher with nothing pending, and no prefix argument. -/
structure Fresh (stack : KeymapStack) (dispatcher : Dispatcher) (context : CommandContext World) : Prop where
  keymaps : dispatcher.keymaps = stack
  pending : dispatcher.pending = []
  prefixArg : context.prefixArg = none

/-- Without an abort the first match is what runs, or throws when it is not registered. -/
theorem FirstMatch.feedAll (undo : UndoGroups World) (registry : CommandRegistry World)
    (hlisted : Listed stack binding)
    (h : FirstMatch stack binding.sequence length first) (hfresh : Fresh stack dispatcher context)
    (hquit : ∀ index < length, ¬AbortsAt binding.sequence index) :
    ∃ rest : List (List String), rest.length ≤ binding.sequence.length - length ∧
      Dispatcher.feedAll undo registry dispatcher context binding.sequence =
        List.replicate (length - 1) [] ++
          if (registry.find first).isSome then [first] :: rest else [[]] := by
  obtain ⟨layer, hlayer, hget⟩ := hlisted.exists_get
  have hpos := h.pos
  have hle := h.le
  have hwait : ∀ shorter, 0 < shorter → shorter ≤ length - 1 →
      stack.resolve (binding.sequence.take shorter) = .Prefix := by
    intro shorter hshorter hlt
    exact resolve_take hlayer hget (by omega) (h.shortest shorter hshorter (by omega))
  obtain ⟨dispatcher', context', hcollected, heq⟩ := feedAll_collects
    ⟨hfresh.keymaps, hfresh.pending, hfresh.prefixArg⟩ (Nat.le_trans (Nat.sub_le _ 1) hle) hwait
    (fun index hindex => hquit index (by omega))
  have hlt : length - 1 < binding.sequence.length := by omega
  have hchord : binding.sequence[length - 1]? = some binding.sequence[length - 1] :=
    List.getElem?_eq_getElem hlt
  have hlookup : dispatcher'.keymaps.resolve (dispatcher'.pending ++ [binding.sequence[length - 1]]) =
      .Match first := by
    rw [hcollected.keymaps, hcollected.pending_append hchord, Nat.sub_add_cancel hpos]
    exact h.matched
  obtain ⟨dispatcher'', context'', hfeed⟩ := feed_of_match
    (hcollected.collects hchord (hquit _ (by omega))) hcollected.prefixArg hlookup
  rw [heq, List.drop_eq_getElem_cons hlt, Nat.sub_add_cancel hpos]
  cases hfind : registry.find first with
  | none =>
      refine ⟨[], Nat.zero_le _, ?_⟩
      rw [feedAll_cons, hfeed, invoke_of_find_eq_none hfind, finish_invoked, finish_of_thrown rfl]
      rfl
  | some command =>
      obtain ⟨rest, hrest, hcons⟩ := @exists_feedAll_cons World undo registry dispatcher' context'
        binding.sequence[length - 1] (binding.sequence.drop length)
      rw [List.length_drop] at hrest
      refine ⟨rest, hrest, ?_⟩
      rw [hcons, hfeed, finish_invoked, invoke_invoked (by rw [hfind]; rfl)]
      rfl

theorem FirstMatch.feedAll_abort (undo : UndoGroups World) (hlisted : Listed stack binding)
    (h : FirstMatch stack binding.sequence length first) (hfresh : Fresh stack dispatcher context)
    (hkeyboardQuit : (registry.find "keyboard-quit").isSome)
    (hquit : ∃ index < length, AbortsAt binding.sequence index) :
    ∃ index < length, AbortsAt binding.sequence index ∧
      (∀ shorter < index, ¬AbortsAt binding.sequence shorter) ∧
      ∃ rest : List (List String), rest.length ≤ binding.sequence.length - (index + 1) ∧
        Dispatcher.feedAll undo registry dispatcher context binding.sequence =
          List.replicate index [] ++ ["keyboard-quit"] :: rest := by
  classical
  have hle := h.le
  have hexists : ∃ index, AbortsAt binding.sequence index := hquit.imp fun index h => h.2
  obtain ⟨index, hfirst, haborts, hleast⟩ : ∃ index < length, AbortsAt binding.sequence index ∧
      ∀ shorter < index, ¬AbortsAt binding.sequence shorter := by
    obtain ⟨index, hindex, haborts⟩ := hquit
    exact ⟨Nat.find hexists, Nat.lt_of_le_of_lt (Nat.find_min' hexists haborts) hindex,
      Nat.find_spec hexists, fun shorter => Nat.find_min hexists⟩
  refine ⟨index, hfirst, haborts, hleast, ?_⟩
  obtain ⟨layer, hlayer, hget⟩ := hlisted.exists_get
  have hwait : ∀ shorter, 0 < shorter → shorter ≤ index →
      stack.resolve (binding.sequence.take shorter) = .Prefix := by
    intro shorter hshorter hlt
    exact resolve_take hlayer hget (by omega) (h.shortest shorter hshorter (by omega))
  obtain ⟨dispatcher', context', hcollected, heq⟩ := feedAll_collects
    ⟨hfresh.keymaps, hfresh.pending, hfresh.prefixArg⟩ (Nat.le_of_lt (Nat.lt_of_lt_of_le hfirst hle))
    hwait hleast
  obtain ⟨hpos, chord, hchord, hctrlG⟩ := haborts
  have hlt : index < binding.sequence.length := Nat.lt_of_lt_of_le hfirst hle
  have hpending : dispatcher'.pending ≠ [] := by
    rw [hcollected.pending]
    apply List.ne_nil_of_length_pos
    rw [List.length_take]
    omega
  obtain ⟨rest, hrest, hcons⟩ := @exists_feedAll_cons World undo registry dispatcher' context'
    chord (binding.sequence.drop (index + 1))
  rw [List.length_drop] at hrest
  refine ⟨rest, hrest, ?_⟩
  rw [List.getElem?_eq_getElem hlt, Option.some.injEq] at hchord
  rw [heq, List.drop_eq_getElem_cons hlt, hchord, hcons, feed_of_quit hctrlG hpending hkeyboardQuit]

theorem FirstMatch.unique {length' : Nat} {first' : String} (h : FirstMatch stack sequence length first)
    (h' : FirstMatch stack sequence length' first') : length = length' ∧ first = first' := by
  have hlength : length = length' := by
    rcases Nat.lt_trichotomy length length' with hlt | heq | hlt
    · exact absurd h.matched (h'.shortest _ h.pos hlt _)
    · exact heq
    · exact absurd h'.matched (h.shortest _ h'.pos hlt _)
  subst hlength
  have hmatched := h.matched
  rw [h'.matched] at hmatched
  exact ⟨rfl, (Lookup.Match.inj hmatched).symm⟩

theorem FirstMatch.eq_owner (h : FirstMatch stack sequence length first)
    (howner : stack.resolve sequence = .Match owner) (hlength : length = sequence.length) :
    first = owner := by
  have hmatched := h.matched
  rw [hlength, List.take_length, howner] at hmatched
  exact (Lookup.Match.inj hmatched).symm

theorem FirstMatch.typedAsReported_iff (h : FirstMatch stack binding.sequence length first)
    (howner : stack.resolve binding.sequence = .Match owner) :
    TypedAsReported stack registry binding ↔
      ((∀ index < length, ¬AbortsAt binding.sequence index) →
        (registry.find first).isSome ∧ (owner ≠ binding.commandName → first = owner)) ∧
      ((∃ index < length, AbortsAt binding.sequence index) →
        (owner ≠ binding.commandName → owner = "keyboard-quit") ∧
          (owner = binding.commandName → first = "keyboard-quit" ∧
            (length = binding.sequence.length →
              ∀ index, AbortsAt binding.sequence index → index + 1 = length))) := by
  constructor
  · exact fun ht => ⟨ht.collected length first owner h howner, ht.aborted length first owner h howner⟩
  · rintro ⟨hcollected, haborted⟩
    refine ⟨List.ne_nil_of_length_pos (Nat.lt_of_lt_of_le h.pos h.le), ?_, ?_⟩
    · intro length' first' owner' h' howner'
      obtain ⟨rfl, rfl⟩ := h.unique h'
      obtain rfl : owner = owner' := Lookup.Match.inj (howner.symm.trans howner')
      exact hcollected
    · intro length' first' owner' h' howner'
      obtain ⟨rfl, rfl⟩ := h.unique h'
      obtain rfl : owner = owner' := Lookup.Match.inj (howner.symm.trans howner')
      exact haborted

theorem not_reportedAsTyped_nil {shadowing : String} (hnil : binding.sequence = []) :
    ¬((shadowing = "" ↔ Fires [] binding) ∧ (shadowing ≠ "" → RunsFirst [] shadowing)) := by
  rintro ⟨hreachable, hshadowed⟩
  by_cases hempty : shadowing = ""
  · exact (hreachable.1 hempty).1 hnil
  · have hruns := hshadowed hempty
    simp [RunsFirst] at hruns

theorem not_fires_of_silent {before : Nat} : ¬Fires (List.replicate before [] ++ [[]]) binding := by
  rintro ⟨-, heq⟩
  have hflat := congrArg List.flatten heq
  simp at hflat

theorem not_runsFirst_of_silent {before : Nat} : ¬RunsFirst (List.replicate before [] ++ [[]]) name := by
  simp [RunsFirst]

/-! ## The report and the typing -/

theorem FirstMatch.report_iff_of_abort {index : Nat} (h : FirstMatch stack binding.sequence length first)
    (howner : stack.resolve binding.sequence = .Match owner) (hownerNe : owner ≠ "")
    (hfirstNe : first ≠ "") (hindex : index < length) (haborts : AbortsAt binding.sequence index)
    (hleast : ∀ shorter < index, ¬AbortsAt binding.sequence shorter)
    (hrest : rest.length ≤ binding.sequence.length - (index + 1)) :
    ((stack.shadowingCommand binding = "" ↔
        Fires (List.replicate index [] ++ ["keyboard-quit"] :: rest) binding) ∧
      (stack.shadowingCommand binding ≠ "" → RunsFirst
        (List.replicate index [] ++ ["keyboard-quit"] :: rest) (stack.shadowingCommand binding))) ↔
    (owner ≠ binding.commandName → owner = "keyboard-quit") ∧
      (owner = binding.commandName → first = "keyboard-quit" ∧
        (length = binding.sequence.length →
          ∀ index, AbortsAt binding.sequence index → index + 1 = length)) := by
  have hle := h.le
  rw [fires_iff (Nat.lt_of_lt_of_le hindex hle) hrest, runsFirst_iff, h.shadowingCommand_eq howner]
  by_cases hown : owner = binding.commandName
  · rw [if_neg (not_not.2 hown)]
    by_cases hlt : length < binding.sequence.length
    · have hlast : index + 1 ≠ binding.sequence.length := by omega
      simp [hlt, hlt.ne, hown, hlast, hfirstNe, eq_comm]
    · have hlength : length = binding.sequence.length := Nat.le_antisymm hle (Nat.not_lt.1 hlt)
      have hall : (∀ index, AbortsAt binding.sequence index → index + 1 = length) ↔
          index + 1 = length := by
        constructor
        · exact fun hall => hall index haborts
        · intro hlast other hother
          have hge : index ≤ other := Nat.not_lt.1 fun hother' => hleast other hother' hother
          obtain ⟨-, chord, hchord, -⟩ := hother
          have hbound := (List.getElem?_eq_some_iff.1 hchord).1
          omega
      rw [hall, h.eq_owner howner hlength, hown, hlength]
      simp only [Nat.lt_irrefl, if_false, ne_eq, not_true_eq_false, false_implies, true_and, and_true,
        true_iff, true_implies]
      rw [and_comm, eq_comm]
  · rw [if_pos hown]
    simp only [hownerNe, hown, ne_eq, not_false_eq_true, true_implies, false_implies, and_true,
      false_iff, not_and]
    constructor
    · exact fun hreport => hreport.2.symm
    · rintro rfl
      exact ⟨fun _ => hown, rfl⟩

theorem FirstMatch.report_iff_of_registered (h : FirstMatch stack binding.sequence length first)
    (howner : stack.resolve binding.sequence = .Match owner) (hownerNe : owner ≠ "")
    (hfirstNe : first ≠ "") (hrest : rest.length ≤ binding.sequence.length - length) :
    ((stack.shadowingCommand binding = "" ↔
        Fires (List.replicate (length - 1) [] ++ [first] :: rest) binding) ∧
      (stack.shadowingCommand binding ≠ "" → RunsFirst
        (List.replicate (length - 1) [] ++ [first] :: rest) (stack.shadowingCommand binding))) ↔
    (owner ≠ binding.commandName → first = owner) := by
  have hpos := h.pos
  have hle := h.le
  rw [fires_iff (by omega) (by omega), runsFirst_iff, h.shadowingCommand_eq howner,
    Nat.sub_add_cancel hpos]
  by_cases hown : owner = binding.commandName
  · rw [if_neg (not_not.2 hown)]
    by_cases hlt : length < binding.sequence.length
    · simp [hlt, hlt.ne, hown, hfirstNe]
    · have hlength : length = binding.sequence.length := Nat.le_antisymm hle (Nat.not_lt.1 hlt)
      have hfirst := h.eq_owner howner hlength
      simp [hlength, hfirst, hown]
  · rw [if_pos hown]
    simp only [hownerNe, hown, ne_eq, not_false_eq_true, true_implies, false_iff, not_and]
    constructor
    · exact fun hreport => hreport.2
    · rintro rfl
      exact ⟨fun _ => hown, rfl⟩

/-- A binding is reported as what typing it does exactly when nothing unregistered or shorter takes its
place, or `keyboard-quit` is reported where an abort comes first. -/
theorem reportedAsTyped_iff_typedAsReported (undo : UndoGroups World) (registry : CommandRegistry World)
    (dispatcher : Dispatcher) (context : CommandContext World) (stack : KeymapStack) (binding : Binding)
    (hnamed : Named stack) (hlisted : Listed stack binding) (hfresh : Fresh stack dispatcher context)
    (hkeyboardQuit : (registry.find "keyboard-quit").isSome) :
    ReportedAsTyped stack binding
        (Dispatcher.feedAll undo registry dispatcher context binding.sequence) ↔
      TypedAsReported stack registry binding := by
  rw [reportedAsTyped_iff hlisted]
  obtain ⟨layer, hlayer, hget⟩ := hlisted.exists_get
  obtain ⟨owner, howner⟩ := exists_resolve_eq_match hlayer hget
  by_cases hne : binding.sequence = []
  · rw [hne, Dispatcher.feedAll_nil]
    exact iff_of_false (not_reportedAsTyped_nil hne) fun h => h.nonempty hne
  · obtain ⟨length, first, hmatch⟩ := FirstMatch.exists_of_ne_nil hne howner
    have hownerNe : owner ≠ "" := hnamed.ne_empty howner
    have hfirstNe : first ≠ "" := hnamed.ne_empty hmatch.matched
    rw [hmatch.typedAsReported_iff howner]
    by_cases hquit : ∃ index < length, AbortsAt binding.sequence index
    · obtain ⟨index, hindex, haborts, hleast, rest, hrest, hruns⟩ :=
        hmatch.feedAll_abort undo hlisted hfresh hkeyboardQuit hquit
      rw [hruns, hmatch.report_iff_of_abort howner hownerNe hfirstNe hindex haborts hleast hrest]
      simp only [hquit, true_implies]
      exact (and_iff_right fun hno => absurd haborts (hno index hindex)).symm
    · have hno : ∀ index < length, ¬AbortsAt binding.sequence index :=
        fun index hindex haborts => hquit ⟨index, hindex, haborts⟩
      obtain ⟨rest, hrest, hruns⟩ := hmatch.feedAll undo registry hlisted hfresh hno
      rw [hruns]
      simp only [hquit, false_implies, and_true]
      cases hfind : (registry.find first).isSome with
      | false =>
          simp only [Bool.false_eq_true, if_false, false_and, imp_false]
          refine iff_of_false ?_ fun h => h hno
          rintro ⟨hreachable, hshadowed⟩
          by_cases hempty : stack.shadowingCommand binding = ""
          · exact not_fires_of_silent (hreachable.1 hempty)
          · exact not_runsFirst_of_silent (hshadowed hempty)
      | true =>
          rw [if_pos rfl, hmatch.report_iff_of_registered howner hownerNe hfirstNe hrest]
          exact ⟨fun h _ => ⟨rfl, h⟩, fun h => (h hno).2⟩

/-! ## A binding that ends in an abort -/

/-- `C-x C-g` bound to a command, in a stack of one layer. -/
def quitBinding : Binding where
  sequence := [{ control := true, codepoint := 120 }, { control := true, codepoint := 103 }]
  commandName := "describe-bindings"

def quitStack : KeymapStack where
  layers := [({} : Keymap).bind quitBinding.sequence quitBinding.commandName]

/-- Commands that do nothing. -/
def idleRegistry : CommandRegistry Unit where
  find name :=
    if name = "keyboard-quit" ∨ name = "describe-bindings" then some fun context => (none, context)
    else none

def idleGroups : UndoGroups Unit where
  beginUndoGroup := id
  endUndoGroup := id

theorem quitStack_named : Named quitStack := by
  simp only [Named, quitStack, List.forall_mem_singleton]
  decide

theorem quitBinding_listed : Listed quitStack quitBinding := ⟨_, rfl, by decide⟩

theorem quitStack_fresh : Fresh quitStack ⟨quitStack, [], "", false, [], [], 0⟩
    (⟨(), {}, "", none⟩ : CommandContext Unit) := ⟨rfl, rfl, rfl⟩

/-- It is reported as reachable, and typing it runs `keyboard-quit`. -/
theorem reportedAsTyped_fails : Named quitStack ∧ Listed quitStack quitBinding ∧
    ¬ReportedAsTyped quitStack quitBinding
      (Dispatcher.feedAll idleGroups idleRegistry ⟨quitStack, [], "", false, [], [], 0⟩
        ⟨(), {}, "", none⟩ quitBinding.sequence) := by
  refine ⟨quitStack_named, quitBinding_listed, fun h => ?_⟩
  have hfires := h.reachable.1 (by decide)
  exact absurd hfires.2 (by decide)

theorem reportedAsTyped_iff_typedAsReported_quitStack :
    ReportedAsTyped quitStack quitBinding
        (Dispatcher.feedAll idleGroups idleRegistry ⟨quitStack, [], "", false, [], [], 0⟩
          ⟨(), {}, "", none⟩ quitBinding.sequence) ↔
      TypedAsReported quitStack idleRegistry quitBinding :=
  reportedAsTyped_iff_typedAsReported idleGroups idleRegistry _ _ quitStack quitBinding quitStack_named
    quitBinding_listed quitStack_fresh rfl

end Ned.Editor.Keys
