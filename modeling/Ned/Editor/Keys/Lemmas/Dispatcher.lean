import Ned.Editor.Keys.Keymap
import Ned.Editor.Keys.Theorems.Keymap

/-!
# Feeding a bound sequence

Up to the first match or the first abort, the chords of a bound sequence are only collected.
-/

namespace Ned.Editor.Keys

open Library

variable {World : Type} {undo : UndoGroups World} {registry : CommandRegistry World}
  {dispatcher : Dispatcher} {context : CommandContext World} {stack : KeymapStack} {keymap : Keymap}
  {chord : KeyChord} {chords sequence : List KeyChord} {commandName name : String} {length index : Nat}

/-! ## Lookups along a bound sequence -/

theorem resolve_layer_take (hget : keymap.root.get sequence = some commandName)
    (hlt : length < sequence.length) (hnone : keymap.root.get (sequence.take length) = none) :
    keymap.resolve (sequence.take length) = .Prefix := by
  apply resolve_eq_prefix_iff.2 ⟨hnone, _⟩
  refine ⟨sequence[length], Trie.reaches_of_prefix (Trie.reaches_of_get hget) ?_⟩
  rw [List.take_append_getElem]
  exact List.take_prefix _ _

theorem resolve_take (hlayer : keymap ∈ stack.layers) (hget : keymap.root.get sequence = some commandName)
    (hlt : length < sequence.length) (hno : ∀ name, stack.resolve (sequence.take length) ≠ .Match name) :
    stack.resolve (sequence.take length) = .Prefix := by
  have hnone : ∀ layer ∈ stack.layers, layer.root.get (sequence.take length) = none := by
    have hfound : stack.layers.findSome? (fun layer => layer.root.get (sequence.take length)) = none := by
      apply Option.eq_none_iff_forall_ne_some.2
      intro name hfound
      exact hno name (resolveIn_eq_match_iff.2 hfound)
    simpa using hfound
  apply resolveIn_eq_prefix_iff.2 ⟨hnone, .inr ⟨keymap, hlayer, _⟩⟩
  exact resolve_layer_take hget hlt (hnone keymap hlayer)

theorem exists_resolve_eq_match (hlayer : keymap ∈ stack.layers)
    (hget : keymap.root.get sequence = some commandName) :
    ∃ owner, stack.resolve sequence = .Match owner := by
  cases hfound : stack.layers.findSome? (fun layer => layer.root.get sequence) with
  | some owner => exact ⟨owner, resolveIn_eq_match_iff.2 hfound⟩
  | none =>
      rw [List.findSome?_eq_none_iff] at hfound
      rw [hfound keymap hlayer] at hget
      cases hget

/-! ## Invoking -/

theorem invoke_invoked (h : (registry.find name).isSome) : (registry.invoke name context).invoked = [name] := by
  obtain ⟨command, hcommand⟩ := Option.isSome_iff_exists.1 h
  rw [CommandRegistry.invoke, hcommand]

theorem invoke_of_find_eq_none (h : registry.find name = none) :
    registry.invoke name context = ⟨some ("ned: no such command: " ++ name), context, []⟩ := by
  rw [CommandRegistry.invoke, h]

namespace Dispatcher

variable {result : Invocation World}

theorem finish_invoked : (dispatcher.finish name result).invoked = result.invoked := by
  rw [finish]
  split <;> rfl

theorem finish_of_thrown {failure : Failure} (h : result.thrown = some failure) :
    (dispatcher.finish name result).outcome = .error failure := by
  rw [finish, h]

/-! ## Feeding one chord -/

/-- The chord is not taken for an abort. -/
def Collects (dispatcher : Dispatcher) (chord : KeyChord) : Prop :=
  dispatcher.pending = [] ∨ isBareCtrlG chord = false

theorem Collects.not_quit (h : dispatcher.Collects chord) (hprefixArg : context.prefixArg = none) :
    (isBareCtrlG chord && (!dispatcher.pending.isEmpty || context.prefixArg.isSome)) = false := by
  rcases h with h | h
  · simp [h, hprefixArg]
  · simp [h]

theorem feed_of_prefix (h : dispatcher.Collects chord) (hprefixArg : context.prefixArg = none)
    (hlookup : dispatcher.keymaps.resolve (dispatcher.pending ++ [chord]) = .Prefix) :
    dispatcher.feed undo registry chord context =
      ⟨.ok .Pending, { dispatcher with pending := dispatcher.pending ++ [chord] },
        { context with triggeringKey := chord }, []⟩ := by
  rw [feed, h.not_quit hprefixArg]
  simp [hlookup]

theorem feed_of_match (h : dispatcher.Collects chord) (hprefixArg : context.prefixArg = none)
    (hlookup : dispatcher.keymaps.resolve (dispatcher.pending ++ [chord]) = .Match name) :
    ∃ (dispatcher' : Dispatcher) (context' : CommandContext World),
      dispatcher.feed undo registry chord context =
        dispatcher'.finish name (registry.invoke name context') := by
  rw [feed, h.not_quit hprefixArg]
  simp only [Bool.false_eq_true, if_false, hlookup, invokeMatch, hprefixArg]
  exact ⟨_, _, rfl⟩

theorem feed_of_quit (h : isBareCtrlG chord = true) (hpending : dispatcher.pending ≠ [])
    (hfind : (registry.find "keyboard-quit").isSome) :
    (dispatcher.feed undo registry chord context).invoked = ["keyboard-quit"] := by
  have hquit : (isBareCtrlG chord && (!dispatcher.pending.isEmpty || context.prefixArg.isSome)) = true := by
    simp [h, hpending]
  obtain ⟨command, hcommand⟩ := Option.isSome_iff_exists.1 hfind
  rw [feed, hquit]
  simp only [if_true, hcommand, finish_invoked]
  exact invoke_invoked hfind

/-! ## Feeding chords -/

@[simp] theorem feedAll_nil : feedAll undo registry dispatcher context [] = [] := rfl

theorem feedAll_cons : feedAll undo registry dispatcher context (chord :: chords) =
    (dispatcher.feed undo registry chord context).invoked ::
      match (dispatcher.feed undo registry chord context).outcome with
      | .error _ => []
      | .ok _ => feedAll undo registry (dispatcher.feed undo registry chord context).dispatcher
          (dispatcher.feed undo registry chord context).context chords := by
  rw [feedAll]
  cases (dispatcher.feed undo registry chord context).outcome <;> rfl

theorem length_feedAll_le :
    (feedAll undo registry dispatcher context chords).length ≤ chords.length := by
  induction chords generalizing dispatcher context with
  | nil => exact Nat.le_refl _
  | cons chord chords ih =>
      rw [feedAll_cons, List.length_cons, List.length_cons]
      apply Nat.succ_le_succ
      split
      · exact Nat.zero_le _
      · exact ih

theorem exists_feedAll_cons : ∃ rest : List (List String), rest.length ≤ chords.length ∧
    feedAll undo registry dispatcher context (chord :: chords) =
      (dispatcher.feed undo registry chord context).invoked :: rest := by
  rw [feedAll_cons]
  split
  · exact ⟨[], Nat.zero_le _, rfl⟩
  · exact ⟨_, length_feedAll_le, rfl⟩

/-- A dispatcher that has collected the first chords of a sequence, without a prefix argument. -/
structure Collected (stack : KeymapStack) (sequence : List KeyChord) (length : Nat)
    (dispatcher : Dispatcher) (context : CommandContext World) : Prop where
  keymaps : dispatcher.keymaps = stack
  pending : dispatcher.pending = sequence.take length
  prefixArg : context.prefixArg = none

/-- The chord at an index would be taken for an abort. -/
def AbortsAt (sequence : List KeyChord) (index : Nat) : Prop :=
  0 < index ∧ ∃ chord, sequence[index]? = some chord ∧ isBareCtrlG chord = true

theorem Collected.collects (h : Collected stack sequence index dispatcher context)
    (hchord : sequence[index]? = some chord) (hquit : ¬AbortsAt sequence index) :
    dispatcher.Collects chord := by
  cases index with
  | zero => exact .inl (by simpa using h.pending)
  | succ index =>
      refine .inr (Bool.eq_false_iff.2 fun hg => ?_)
      exact hquit ⟨Nat.succ_pos _, chord, hchord, hg⟩

theorem Collected.pending_append (h : Collected stack sequence index dispatcher context)
    (hchord : sequence[index]? = some chord) :
    dispatcher.pending ++ [chord] = sequence.take (index + 1) := by
  rw [h.pending, List.take_add_one, hchord, Option.toList_some]

theorem feedAll_collects (h : Collected stack sequence 0 dispatcher context)
    (hle : length ≤ sequence.length)
    (hlookup : ∀ shorter, 0 < shorter → shorter ≤ length →
      stack.resolve (sequence.take shorter) = .Prefix)
    (hquit : ∀ index < length, ¬AbortsAt sequence index) :
    ∃ (dispatcher' : Dispatcher) (context' : CommandContext World),
      Collected stack sequence length dispatcher' context' ∧
      feedAll undo registry dispatcher context sequence =
        List.replicate length [] ++
          feedAll undo registry dispatcher' context' (sequence.drop length) := by
  induction length with
  | zero => exact ⟨dispatcher, context, h, rfl⟩
  | succ length ih =>
      obtain ⟨dispatcher', context', h', heq⟩ := ih (Nat.le_of_succ_le hle)
        (fun shorter hpos hshorter => hlookup shorter hpos (Nat.le_succ_of_le hshorter))
        (fun index hindex => hquit index (Nat.lt_succ_of_lt hindex))
      have hchord : sequence[length]? = some sequence[length] := List.getElem?_eq_getElem hle
      have happend := h'.pending_append hchord
      have hnext : dispatcher'.keymaps.resolve (dispatcher'.pending ++ [sequence[length]]) = .Prefix := by
        rw [h'.keymaps, happend]
        exact hlookup _ (Nat.succ_pos _) (Nat.le_refl _)
      have hfeed : dispatcher'.feed undo registry sequence[length] context' = _ :=
        feed_of_prefix (h'.collects hchord (hquit length (Nat.lt_succ_self _))) h'.prefixArg hnext
      refine ⟨{ dispatcher' with pending := dispatcher'.pending ++ [sequence[length]] },
        { context' with triggeringKey := sequence[length] }, ⟨h'.keymaps, happend, h'.prefixArg⟩, ?_⟩
      rw [heq, List.drop_eq_getElem_cons hle, feedAll_cons, hfeed, List.replicate_succ',
        List.append_assoc]
      rfl

end Dispatcher

end Ned.Editor.Keys
